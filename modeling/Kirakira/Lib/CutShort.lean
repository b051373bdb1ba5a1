import Kirakira.Lib.Program

/-!
# Programs That May Be Cut Short

A program over a durable state, whose process may die between any two operations. What is
left is the state alone: the program is gone, and another one, which knows nothing of it,
begins on that state. An operation may do other things than its handler says; `faulty` lets
any operation fail, before its effect or after it.

A program is **secure** from a state when every state it can be cut short in meets a crash
condition and every way it can end meets a postcondition. The rules follow the syntax of
programs, and a program that is secure without faults also tells how it runs.

## Main results

* `Secure.cut` — what a secure program leaves meets the crash condition.
* `Secure.bind`, `Secure.catching`, `Secure.perform` — the rules of sequences, handlers and
  operations.
* `Secure.run` — how a secure program runs when no operation fails.
-/

universe u

namespace Program

variable {Op : Type → Type u} {ε σ α β : Type}

/-! ### Executions -/

/-- What operations may do: their outcome and the state after them. -/
abbrev Exec (Op : Type → Type u) (ε σ : Type) :=
  ∀ β : Type, Op β → σ → Except ε β → σ → Prop

/-- Operations that do what a handler says; where faults occur, they may also fail, before
their effect or after it. -/
def faulty (faults : Prop) (h : Handler Op ε σ) : Exec Op ε σ := fun β o s r t =>
  (r, t) = h β o s ∨ faults ∧ ∃ e, r = .error e ∧ (t = s ∨ t = (h β o s).2)

/-- Any number of operations of a program, and the program that is left to run. -/
inductive Steps (X : Exec Op ε σ) : Program Op ε α → σ → Program Op ε α → σ → Prop where
  | refl (p : Program Op ε α) (s : σ) : Steps X p s p s
  | call {β : Type} {o : Op β} {k : Except ε β → Program Op ε α} {s t u : σ} {r : Except ε β}
      {q : Program Op ε α} : X β o s r t → Steps X (k r) t q u → Steps X (.call o k) s q u

/-- The states that a program leaves when it is cut short, or when it has ended. -/
def Leaves (X : Exec Op ε σ) (p : Program Op ε α) (s t : σ) : Prop :=
  ∃ q, Steps X p s q t

theorem steps_run {X : Exec Op ε σ} {h : Handler Op ε σ}
    (hX : ∀ (β : Type) (o : Op β) (s : σ), X β o s (h β o s).1 (h β o s).2)
    (p : Program Op ε α) (s : σ) : p.Steps X s (ofExcept (p.run h s).1) (p.run h s).2 := by
  induction p generalizing s with
  | done a => exact .refl _ s
  | raise e => exact .refl _ s
  | call o k ih => exact .call (hX _ o s) (ih (h _ o s).1 (h _ o s).2)

/-- A program that no operation fails leaves what its run ends in. -/
theorem leaves_run (faults : Prop) (h : Handler Op ε σ) (p : Program Op ε α) (s : σ) :
    p.Leaves (faulty faults h) s (p.run h s).2 :=
  ⟨_, steps_run (fun _ _ _ => .inl rfl) p s⟩

/-! ### Security -/

/-- Whatever the operations do, the states in between meet the crash condition and the end
meets the postcondition. -/
def Secure (X : Exec Op ε σ) (I : σ → Prop) (Q : Except ε α → σ → Prop) :
    Program Op ε α → σ → Prop
  | done a, s => I s ∧ Q (.ok a) s
  | raise e, s => I s ∧ Q (.error e) s
  | call o k, s => I s ∧ ∀ r t, X _ o s r t → (k r).Secure X I Q t

/-- The postcondition of the first of two programs: the second is secure after it. -/
def Continues (X : Exec Op ε σ) (I : σ → Prop) (Q : Except ε β → σ → Prop)
    (f : α → Program Op ε β) : Except ε α → σ → Prop
  | .ok a, s => (f a).Secure X I Q s
  | .error e, s => Q (.error e) s

/-- A postcondition for what a program returns; it raises only where faults occur. -/
def Ends (faults : Prop) (G : α → σ → Prop) : Except ε α → σ → Prop
  | .ok a, s => G a s
  | .error _, _ => faults

/-- A postcondition for what a program returns, and one for where it raises. -/
def Outcome (E : σ → Prop) (G : α → σ → Prop) : Except ε α → σ → Prop
  | .ok a, s => G a s
  | .error _, s => E s

/-- The postcondition of a program with a handler: the handler is secure where the program
raises. -/
def Recovers (X : Exec Op ε σ) (I : σ → Prop) (Q : Except ε α → σ → Prop)
    (f : ε → Program Op ε α) : Except ε α → σ → Prop
  | .ok a, s => Q (.ok a) s
  | .error e, s => (f e).Secure X I Q s

variable {X : Exec Op ε σ} {I : σ → Prop} {Q : Except ε α → σ → Prop}

namespace Secure

variable {p : Program Op ε α} {s : σ} {I' : σ → Prop} {f : α → Program Op ε β} {o : Op α}
  {G : α → σ → Prop}

/-- A program is secure only from states that meet the crash condition. -/
theorem here (h : p.Secure X I Q s) : I s := by
  cases p <;> exact h.1

theorem steps {q : Program Op ε α} {t : σ} (h : p.Secure X I Q s) (hsteps : p.Steps X s q t) :
    q.Secure X I Q t := by
  induction hsteps with
  | refl p s => exact h
  | call hop _ ih => exact ih (h.2 _ _ hop)

/-- **What a secure program leaves meets the crash condition.** -/
theorem cut {t : σ} (h : p.Secure X I Q s) (hcut : p.Leaves X s t) : I t :=
  hcut.elim fun _ hsteps => (h.steps hsteps).here

theorem mono {Q' : Except ε α → σ → Prop} (h : p.Secure X I' Q' s) (hI : ∀ s, I' s → I s)
    (hQ : ∀ r s, I' s → Q' r s → Q r s) : p.Secure X I Q s := by
  induction p generalizing s with
  | done a => exact ⟨hI s h.1, hQ _ s h.1 h.2⟩
  | raise e => exact ⟨hI s h.1, hQ _ s h.1 h.2⟩
  | call o k ih => exact ⟨hI s h.1, fun r t hop => ih r (h.2 r t hop)⟩

theorem pure {a : α} (hI : I s) (hQ : Q (.ok a) s) :
    (Pure.pure a : Program Op ε α).Secure X I Q s :=
  ⟨hI, hQ⟩

/-- **The rule of sequences.** -/
theorem bind {Q : Except ε β → σ → Prop} (h : p.Secure X I (Continues X I Q f) s) :
    (p >>= f).Secure X I Q s := by
  change (p.bind f).Secure X I Q s
  induction p generalizing s with
  | done a => exact h.2
  | raise e => exact h
  | call o k ih => exact ⟨h.1, fun r t hop => ih r (h.2 r t hop)⟩

/-- **The rule of handlers.** -/
theorem catching {f : ε → Program Op ε α} (h : p.Secure X I (Recovers X I Q f) s) :
    (p.catching f).Secure X I Q s := by
  induction p generalizing s with
  | done a => exact h
  | raise e => exact h.2
  | call o k ih => exact ⟨h.1, fun r t hop => ih r (h.2 r t hop)⟩

/-- **The rule of operations.** -/
theorem perform (hI : I s) (hop : ∀ r t, X α o s r t → I t ∧ Q r t) :
    (Program.perform o).Secure X I Q s := by
  refine ⟨hI, fun r t ht => ?_⟩
  cases r with
  | ok a => exact hop _ t ht
  | error e => exact hop _ t ht

theorem ofExcept {x : Except ε α} (hI : I s) (hQ : Q x s) :
    (Program.ofExcept x : Program Op ε α).Secure X I Q s := by
  cases x <;> exact ⟨hI, hQ⟩

theorem ofExcept_bind {Q : Except ε β → σ → Prop} {x : Except ε α} {a : α} (hx : x = .ok a)
    (h : (f a).Secure X I Q s) : ((Program.ofExcept x : Program Op ε α) >>= f).Secure X I Q s := by
  subst hx
  exact h

/-- **The rule of steps**: what the first program returns is all that the second needs to
know. -/
theorem step {faults : Prop} {G' : β → σ → Prop} (hp : p.Secure X I (Ends faults G) s)
    (hf : ∀ a t, I t → G a t → (f a).Secure X I (Ends faults G') t) :
    (p >>= f).Secure X I (Ends faults G') s := by
  refine bind (hp.mono (fun _ hI => hI) fun r t hI hr => ?_)
  cases r with
  | ok a => exact hf a t hI hr
  | error e => exact hr

theorem post {faults : Prop} {G' : α → σ → Prop} (hp : p.Secure X I (Ends faults G) s)
    (hgood : ∀ a t, I t → G a t → G' a t) : p.Secure X I (Ends faults G') s := by
  refine hp.mono (fun _ hI => hI) fun r t hI hr => ?_
  cases r with
  | ok a => exact hgood a t hI hr
  | error e => exact hr

/-- A weaker crash condition; the stronger one is known where the program returns. -/
theorem within {faults : Prop} (hp : p.Secure X I' (Ends faults G) s) (hI : ∀ t, I' t → I t) :
    p.Secure X I (Ends faults fun a t => I' t ∧ G a t) s := by
  refine hp.mono hI fun r t ht hr => ?_
  cases r with
  | ok a => exact ⟨ht, hr⟩
  | error e => exact hr

/-- A program whose exceptions are caught in a state of its own crash condition. -/
theorem handle {faults : Prop} {f : ε → Program Op ε α} (hp : p.Secure X I' (Ends faults G) s)
    (hI : ∀ t, I' t → I t)
    (hf : ∀ e t, I' t → (f e).Secure X I (Ends faults fun a t => I' t ∧ G a t) t) :
    (p.catching f).Secure X I (Ends faults fun a t => I' t ∧ G a t) s := by
  refine catching (hp.mono hI fun r t ht hr => ?_)
  cases r with
  | ok a => exact ⟨ht, hr⟩
  | error e => exact hf e t ht

/-- The rule of steps, where it matters how the programs raise. -/
theorem andThen {E : σ → Prop} {G' : β → σ → Prop} (hp : p.Secure X I (Outcome E G) s)
    (hf : ∀ a t, I t → G a t → (f a).Secure X I (Outcome E G') t) :
    (p >>= f).Secure X I (Outcome E G') s := by
  refine bind (hp.mono (fun _ hI => hI) fun r t hI hr => ?_)
  cases r with
  | ok a => exact hf a t hI hr
  | error e => exact hr

/-- The rule of handlers, where it matters how the programs raise. -/
theorem orElse {E E' : σ → Prop} {f : ε → Program Op ε α} (hp : p.Secure X I (Outcome E G) s)
    (hf : ∀ e t, I t → E t → (f e).Secure X I (Outcome E' G) t) :
    (p.catching f).Secure X I (Outcome E' G) s := by
  refine catching (hp.mono (fun _ hI => hI) fun r t hI hr => ?_)
  cases r with
  | ok a => exact hr
  | error e => exact hf e t hI hr

/-! ### Faults -/

variable {faults : Prop} {h : Handler Op ε σ}

/-- An operation that may fail: what its handler does, and the failures. -/
theorem perform_faulty (hI : I s) (hI' : I (h α o s).2) (hdone : Q (h α o s).1 (h α o s).2)
    (hfail : faults → ∀ e, Q (.error e) s ∧ Q (.error e) (h α o s).2) :
    (Program.perform o).Secure (faulty faults h) I Q s := by
  refine perform hI fun r t hop => ?_
  rcases hop with hop | ⟨hfaults, e, rfl, rfl | rfl⟩
  · obtain ⟨rfl, rfl⟩ := Prod.mk.inj hop
    exact ⟨hI', hdone⟩
  · exact ⟨hI, (hfail hfaults e).1⟩
  · exact ⟨hI', (hfail hfaults e).2⟩

theorem attempt (hI : I s) (hI' : I (h α o s).2)
    (hgood : ∀ a, (h α o s).1 = .ok a → G a (h α o s).2)
    (hrefused : ∀ e, (h α o s).1 = .error e → faults) :
    (Program.perform o).Secure (faulty faults h) I (Ends faults G) s := by
  refine perform_faulty hI hI' ?_ fun hfaults _ => ⟨hfaults, hfaults⟩
  cases hr : (h α o s).1 with
  | ok a => exact hgood a hr
  | error e => exact hrefused e hr

/-- An operation that reads the state returns what it read. -/
theorem read {a : α} (hop : h α o s = (.ok a, s)) (hI : I s) :
    (Program.perform o).Secure (faulty faults h) I (Ends faults fun b t => b = a ∧ t = s) s := by
  refine perform_faulty hI ?_ ?_ fun hfaults _ => ⟨hfaults, hfaults⟩
  · rw [hop]
    exact hI
  · rw [hop]
    exact ⟨rfl, rfl⟩

/-- An operation that changes the state leaves what its handler says. -/
theorem write {t : σ} {a : α} (hop : h α o s = (.ok a, t)) (hI : I s) (hI' : I t) :
    (Program.perform o).Secure (faulty faults h) I (Ends faults fun b u => b = a ∧ u = t) s := by
  refine perform_faulty hI ?_ ?_ fun hfaults _ => ⟨hfaults, hfaults⟩
  · rw [hop]
    exact hI'
  · rw [hop]
    exact ⟨rfl, rfl⟩

/-- **How a secure program runs when no operation fails.** -/
theorem run (hp : p.Secure (faulty False h) I Q s) :
    I (p.run h s).2 ∧ Q (p.run h s).1 (p.run h s).2 := by
  induction p generalizing s with
  | done a => exact hp
  | raise e => exact hp
  | call o k ih => exact ih _ (hp.2 _ _ (.inl rfl))

end Secure

end Program
