import Mathlib.Logic.Basic

/-!
# Programs over Fallible Operations

A client of an interface whose operations may raise, as a tree: it returns, it raises, or
it calls an operation and goes on with whatever came of it. Since the continuation takes
an `Except`, the tree is also that of a client that catches exceptions, and quantifying
over trees is quantifying over every synchronous client of the interface.

* `Program.run` — the result and the final state under a handler of the operations.
* `Program.trace` — what the operations did, in order.
* `Program.run_relates` — a reflexive and transitive relation that contains every
  operation contains every run.
* `Program.run_bind` — the rule of sequences.
-/

universe u

/-- A client of the operations `Op`, with exceptions `ε`. -/
inductive Program (Op : Type → Type u) (ε α : Type) : Type (max 1 u) where
  | done (a : α)
  | raise (e : ε)
  | call {β : Type} (o : Op β) (k : Except ε β → Program Op ε α)

/-- The meaning of the operations over a state: a result or an exception, and the state
after it. -/
abbrev Handler (Op : Type → Type u) (ε σ : Type) :=
  ∀ β : Type, Op β → σ → Except ε β × σ

namespace Program

variable {Op : Type → Type u} {ε σ τ α β γ : Type}

/-- One program after the other; an exception of the first ends both. -/
def bind : Program Op ε α → (α → Program Op ε β) → Program Op ε β
  | done a, f => f a
  | raise e, _ => raise e
  | call o k, f => call o fun r => (k r).bind f

/-- The program that calls one operation and passes its result or exception on. -/
def perform (o : Op α) : Program Op ε α :=
  call o fun
    | .ok a => done a
    | .error e => raise e

/-- `try: p except: h`, where the handler decides what it catches. -/
def catching : Program Op ε α → (ε → Program Op ε α) → Program Op ε α
  | done a, _ => done a
  | raise e, h => h e
  | call o k, h => call o fun r => (k r).catching h

/-- Pure code inside a program. -/
def ofExcept : Except ε α → Program Op ε α
  | .ok a => done a
  | .error e => raise e

instance : Monad (Program Op ε) where
  pure := done
  bind := bind

/-- The result of a program and the state it leaves. -/
def run (h : Handler Op ε σ) : Program Op ε α → σ → Except ε α × σ
  | done a, s => (.ok a, s)
  | raise e, s => (.error e, s)
  | call o k, s => (k (h _ o s).1).run h (h _ o s).2

/-- What the operations of a run did, in order, as far as `record` keeps it. -/
def trace (h : Handler Op ε σ) (record : ∀ β : Type, Op β → Except ε β → τ) :
    Program Op ε α → σ → List τ
  | done _, _ | raise _, _ => []
  | call o k, s => record _ o (h _ o s).1 :: (k (h _ o s).1).trace h record (h _ o s).2

variable {h : Handler Op ε σ}

/-- **The rule of runs**: a reflexive and transitive relation that contains every
operation contains every run. -/
theorem run_relates {R : σ → σ → Prop} (hrefl : ∀ s, R s s)
    (htrans : ∀ s t u, R s t → R t u → R s u)
    (hstep : ∀ (β : Type) (o : Op β) s, R s (h β o s).2) (p : Program Op ε α) (s : σ) :
    R s (p.run h s).2 := by
  induction p generalizing s with
  | done a => exact hrefl s
  | raise e => exact hrefl s
  | call o k ih => exact htrans _ _ _ (hstep _ o s) (ih _ _)

/-- **The rule of sequences.** -/
theorem run_bind (p : Program Op ε α) (f : α → Program Op ε β) (s : σ) :
    (p >>= f).run h s = match p.run h s with
      | (.ok a, s') => (f a).run h s'
      | (.error e, s') => (.error e, s') := by
  change (p.bind f).run h s = _
  induction p generalizing s with
  | done a => rfl
  | raise e => rfl
  | call o k ih => exact ih _ _

variable {f : α → Program Op ε β} {p : Program Op ε α} {s : σ}

/-- A sequence returns exactly when both parts do, one after the other. -/
theorem run_bind_eq_ok {s' : σ} {b : β} :
    (p >>= f).run h s = (.ok b, s') ↔
      ∃ a s₁, p.run h s = (.ok a, s₁) ∧ (f a).run h s₁ = (.ok b, s') := by
  rw [run_bind]
  rcases hp : p.run h s with ⟨r, s₁⟩
  cases r with
  | ok a =>
      constructor
      · intro hf
        exact ⟨a, s₁, rfl, hf⟩
      · rintro ⟨_, _, heq, hf⟩
        obtain ⟨h₁, h₂⟩ := Prod.mk.inj heq
        cases h₁
        cases h₂
        exact hf
  | error e =>
      constructor
      · intro hf
        cases hf
      · rintro ⟨_, _, heq, -⟩
        cases heq

theorem run_bind_of_ok {t : σ} {a : α} (hp : p.run h s = (.ok a, t)) (f : α → Program Op ε β) :
    (p >>= f).run h s = (f a).run h t := by
  rw [run_bind, hp]

theorem run_bind_of_error {t : σ} {e : ε} (hp : p.run h s = (.error e, t))
    (f : α → Program Op ε β) : (p >>= f).run h s = (.error e, t) := by
  rw [run_bind, hp]

/-- A handler has nothing to do where the program returns. -/
theorem run_catching_of_ok {t : σ} {a : α} (hp : p.run h s = (.ok a, t)) (f : ε → Program Op ε α) :
    (p.catching f).run h s = (.ok a, t) := by
  induction p generalizing s with
  | done b => exact hp
  | raise e => cases hp
  | call o k ih => exact ih _ hp

theorem run_catching_of_error {t : σ} {e : ε} (hp : p.run h s = (.error e, t))
    (f : ε → Program Op ε α) : (p.catching f).run h s = (f e).run h t := by
  induction p generalizing s with
  | done b => cases hp
  | raise e' =>
      obtain ⟨heq, rfl⟩ := Prod.mk.inj hp
      obtain rfl := Except.error.inj heq
      rfl
  | call o k ih => exact ih _ hp

@[simp] theorem run_perform (o : Op α) (s : σ) :
    (perform o : Program Op ε α).run h s = h α o s := by
  rw [perform, run]
  rcases hr : h α o s with ⟨_ | _, s'⟩ <;> rfl

@[simp] theorem run_ofExcept (x : Except ε α) (s : σ) :
    (ofExcept x : Program Op ε α).run h s = (x, s) := by
  cases x <;> rfl

theorem run_ofExcept_bind_eq_ok {x : Except ε α} {s' : σ} {b : β} :
    (ofExcept x >>= f).run h s = (.ok b, s') ↔
      ∃ a, x = .ok a ∧ (f a).run h s = (.ok b, s') := by
  rw [run_bind_eq_ok]
  constructor
  · rintro ⟨a, s₁, hx, hf⟩
    rw [run_ofExcept] at hx
    obtain ⟨rfl, rfl⟩ := Prod.mk.inj hx
    exact ⟨a, rfl, hf⟩
  · rintro ⟨a, rfl, hf⟩
    exact ⟨a, s, rfl, hf⟩

theorem run_perform_bind_eq_ok {o : Op α} {s' : σ} {b : β} :
    (perform o >>= f).run h s = (.ok b, s') ↔
      ∃ a s₁, h α o s = (.ok a, s₁) ∧ (f a).run h s₁ = (.ok b, s') := by
  rw [run_bind_eq_ok]
  simp only [run_perform]

theorem run_perform_bind_of_ok {o : Op α} {s₁ : σ} {a : α} (ho : h α o s = (.ok a, s₁))
    (f : α → Program Op ε β) : (perform o >>= f).run h s = (f a).run h s₁ := by
  rw [run_bind, run_perform, ho]

theorem run_ofExcept_bind_of_ok {x : Except ε α} {a : α} (hx : x = .ok a)
    (f : α → Program Op ε β) (s : σ) : (ofExcept x >>= f).run h s = (f a).run h s := by
  rw [run_bind, run_ofExcept, hx]

end Program
