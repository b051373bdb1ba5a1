import Kirakira.Lib.Program
import Kirakira.Lib.Transition
import Mathlib.Data.List.Nodup

/-!
# Coroutines over a Shared State

Concurrent programs that interleave at their operations. A coroutine is a `Program`: what it
does between two operations is atomic, an operation is one atomic step of the shared state
with an outcome that need not be determined, and any operation may raise. A pool runs any
number of coroutines, begins new ones, lets an environment act on the shared state, and may
lose all coroutines at once.

The rules are those of rely and guarantee. A `Discipline` names an invariant of the shared
state and what each coroutine may do to it; a coroutine is valid for a precondition and a
postcondition when it keeps the invariant and stays within its guarantee, provided the others
do. What it asserts while it waits must be stable under the others' steps.

## Main results

* `Valid.bind`, `Valid.catching`, `Valid.perform` — the rules of sequences, handlers and
  operations.
* `sound` — when every coroutine that begins is valid, the invariant holds in every reachable
  state, and every step is one that the discipline allows.
-/

universe u

namespace Coroutine

variable {Op : Type → Type u} {ε σ α β : Type}

/-! ### Pools -/

/-- What coroutines run in. -/
structure Machine (Op : Type → Type u) (ε σ : Type) where
  /-- The shared states a run starts from. -/
  init : σ → Prop
  /-- What an operation of the coroutine with this number may do. -/
  exec : ∀ β : Type, ℕ → Op β → σ → Except ε β → σ → Prop
  /-- The coroutines that may begin, and what their beginning does. -/
  entry : ℕ → Program Op ε Unit → σ → σ → Prop
  /-- What happens around the coroutines. -/
  environment : σ → σ → Prop
  /-- What is left of the shared state when all coroutines are lost. -/
  crash : σ → σ → Prop

/-- A shared state with the coroutines that run on it and the number of the next one. -/
structure Pool (Op : Type → Type u) (ε σ : Type) where
  shared : σ
  threads : List (ℕ × Program Op ε Unit)
  next : ℕ

/-- What a pool does in one step. -/
inductive Move (Op : Type → Type u) (ε : Type) where
  | begin (p : Program Op ε Unit)
  | resume (i : ℕ)
  | environment
  | crash

/-- The effect of a step. -/
def Machine.step (M : Machine Op ε σ) (s : Pool Op ε σ) : Move Op ε → Pool Op ε σ → Prop
  | .begin p, t => ∃ shared, M.entry s.next p s.shared shared ∧
      t = ⟨shared, s.threads ++ [(s.next, p)], s.next + 1⟩
  | .resume i, t => ∃ (β : Type) (o : Op β) (k : Except ε β → Program Op ε Unit)
      (front rest : List (ℕ × Program Op ε Unit)) (r : Except ε β) (shared : σ),
      s.threads = front ++ (i, .call o k) :: rest ∧ M.exec β i o s.shared r shared ∧
        t = ⟨shared, front ++ (i, k r) :: rest, s.next⟩
  | .environment, t => ∃ shared, M.environment s.shared shared ∧ t = { s with shared := shared }
  | .crash, t => ∃ shared, M.crash s.shared shared ∧ t = ⟨shared, [], s.next⟩

/-- The pools of a machine as a transition system. -/
def Machine.system (M : Machine Op ε σ) : Transition.System (Pool Op ε σ) (Move Op ε) where
  init s := M.init s.shared ∧ s.threads = []
  step := M.step

/-! ### Disciplines -/

/-- An invariant of the shared state and the steps each coroutine may take. -/
structure Discipline (M : Machine Op ε σ) where
  inv : σ → Prop
  guar : ℕ → σ → σ → Prop

variable {M : Machine Op ε σ}

namespace Discipline

variable (D : Discipline M)

/-- What a coroutine has to expect while it waits. -/
def Rely (i : ℕ) (s t : σ) : Prop :=
  (∃ j, j ≠ i ∧ D.guar j s t) ∨ M.environment s t ∨ ∃ j p, j ≠ i ∧ M.entry j p s t

/-- An assertion that survives whatever the others do. -/
def Stable (i : ℕ) (P : σ → Prop) : Prop :=
  ∀ s t, D.inv s → D.inv t → P s → D.Rely i s t → P t

/-- What an operation of a coroutine must do: keep the invariant and the guarantee. -/
def Allowed (i : ℕ) (o : Op β) (P : σ → Prop) : Prop :=
  ∀ s r t, D.inv s → P s → M.exec β i o s r t → D.inv t ∧ D.guar i s t

/-- A program that, begun under the precondition, keeps the discipline, and ends with its
outcome in the postcondition. -/
def Valid (i : ℕ) : Program Op ε α → (σ → Prop) → (Except ε α → σ → Prop) → Prop
  | .done a, P, Q => ∀ s, D.inv s → P s → Q (.ok a) s
  | .raise e, P, Q => ∀ s, D.inv s → P s → Q (.error e) s
  | .call o k, P, Q => ∃ P' : σ → Prop, (∀ s, D.inv s → P s → P' s) ∧ D.Stable i P' ∧
      D.Allowed i o P' ∧
      ∀ r, Valid i (k r) (fun t => ∃ s, D.inv s ∧ P' s ∧ M.exec _ i o s r t) Q

end Discipline

variable {D : Discipline M} {i : ℕ}

/-! ### The rules -/

variable {P P' : σ → Prop} {Q : Except ε α → σ → Prop} {p : Program Op ε α} {R : α → σ → Prop}
  {s : Pool Op ε σ}

theorem Discipline.Valid.mono {Q' : Except ε α → σ → Prop} (h : D.Valid i p P' Q')
    (hP : ∀ s, D.inv s → P s → P' s) (hQ : ∀ r s, D.inv s → Q' r s → Q r s) : D.Valid i p P Q := by
  induction p generalizing P P' with
  | done a => exact fun s hs hp => hQ _ s hs (h s hs (hP s hs hp))
  | raise e => exact fun s hs hp => hQ _ s hs (h s hs (hP s hs hp))
  | call o k ih =>
      obtain ⟨R, hR, hstable, hallowed, hk⟩ := h
      exact ⟨R, fun s hs hp => hR s hs (hP s hs hp), hstable, hallowed,
        fun r => ih r (hk r) fun _ _ ht => ht⟩

theorem Discipline.Valid.post {Q' : Except ε α → σ → Prop} (h : D.Valid i p P Q')
    (hQ : ∀ r s, D.inv s → Q' r s → Q r s) : D.Valid i p P Q :=
  h.mono (fun _ _ hp => hp) hQ

theorem Discipline.Valid.pre (h : D.Valid i p P' Q) (hP : ∀ s, D.inv s → P s → P' s) :
    D.Valid i p P Q :=
  h.mono hP fun _ _ _ hq => hq

theorem Discipline.Valid.absurd (hP : ∀ s, D.inv s → ¬ P s) : D.Valid i p P Q := by
  induction p generalizing P with
  | done a => exact fun s hs hp => (hP s hs hp).elim
  | raise e => exact fun s hs hp => (hP s hs hp).elim
  | call o k ih =>
      refine ⟨fun _ => False, hP, fun _ _ _ _ h _ => h, fun _ _ _ _ h _ => h.elim, fun r => ?_⟩
      exact ih r fun t _ ⟨_, _, hfalse, _⟩ => hfalse

theorem Discipline.Valid.done {a : α} (h : ∀ s, D.inv s → P s → Q (.ok a) s) :
    D.Valid i (.done a) P Q :=
  h

theorem Discipline.Valid.raise {e : ε} (h : ∀ s, D.inv s → P s → Q (.error e) s) :
    D.Valid i (.raise e) P Q :=
  h

/-- **The rule of sequences.** -/
theorem Discipline.Valid.bind {f : α → Program Op ε β} {Q : Except ε β → σ → Prop}
    (hp : D.Valid i p P fun
      | .ok a => R a
      | .error e => Q (.error e)) (hf : ∀ a, D.Valid i (f a) (R a) Q) :
    D.Valid i (p >>= f) P Q := by
  change D.Valid i (p.bind f) P Q
  induction p generalizing P with
  | done a => exact (hf a).pre hp
  | raise e => exact hp
  | call o k ih =>
      obtain ⟨P', hP, hstable, hallowed, hk⟩ := hp
      exact ⟨P', hP, hstable, hallowed, fun r => ih r (hk r)⟩

/-- **The rule of handlers.** -/
theorem Discipline.Valid.catching {h : ε → Program Op ε α} {R : ε → σ → Prop}
    (hp : D.Valid i p P fun
      | .ok a => Q (.ok a)
      | .error e => R e) (hh : ∀ e, D.Valid i (h e) (R e) Q) : D.Valid i (p.catching h) P Q := by
  induction p generalizing P with
  | done a => exact hp
  | raise e => exact (hh e).pre hp
  | call o k ih =>
      obtain ⟨P', hP, hstable, hallowed, hk⟩ := hp
      exact ⟨P', hP, hstable, hallowed, fun r => ih r (hk r)⟩

/-- **The rule of operations.** -/
theorem Discipline.Valid.perform {o : Op α} (hstable : D.Stable i P)
    (h : ∀ s r t, D.inv s → P s → M.exec α i o s r t → D.inv t ∧ D.guar i s t ∧ Q r t) :
    D.Valid i (Program.perform o) P Q := by
  refine ⟨P, fun _ _ hp => hp, hstable, fun s r t hs hp hexec => ?_, fun r => ?_⟩
  · exact ⟨(h s r t hs hp hexec).1, (h s r t hs hp hexec).2.1⟩
  · cases r with
    | ok a => exact fun t _ ⟨s, hs, hp, hexec⟩ => (h s _ t hs hp hexec).2.2
    | error e => exact fun t _ ⟨s, hs, hp, hexec⟩ => (h s _ t hs hp hexec).2.2

theorem Discipline.Valid.ofExcept {x : Except ε α} (h : ∀ s, D.inv s → P s → Q x s) :
    D.Valid i (Program.ofExcept x) P Q := by
  cases x with
  | ok a => exact h
  | error e => exact h

/-! ### Partial correctness -/

/-- A program that keeps the discipline and, where it returns, leaves its value in the
postcondition; it may raise anything. -/
def Discipline.Returns (D : Discipline M) (i : ℕ) (p : Program Op ε α) (P : σ → Prop)
    (R : α → σ → Prop) : Prop :=
  D.Valid i p P fun r s => ∀ a, r = .ok a → R a s

theorem Discipline.Returns.pure {a : α} (h : ∀ s, D.inv s → P s → R a s) :
    D.Returns i (Pure.pure a) P R :=
  Valid.done fun s hs hp _ hb => Except.ok.inj hb ▸ h s hs hp

theorem Discipline.Returns.raise {e : ε} : D.Returns i (Program.raise e) P R :=
  Valid.raise fun _ _ _ _ hb => nomatch hb

theorem Discipline.Returns.mono {R' : α → σ → Prop} (h : D.Returns i p P' R')
    (hP : ∀ s, D.inv s → P s → P' s) (hR : ∀ a s, D.inv s → R' a s → R a s) : D.Returns i p P R :=
  Valid.mono h hP fun _ s hs hr a ha => hR a s hs (hr a ha)

theorem Discipline.Returns.pre (h : D.Returns i p P' R) (hP : ∀ s, D.inv s → P s → P' s) :
    D.Returns i p P R :=
  h.mono hP fun _ _ _ hr => hr

/-- **Sequences.** -/
theorem Discipline.Returns.bind {f : α → Program Op ε β} {S : β → σ → Prop} (hp : D.Returns i p P R)
    (hf : ∀ a, D.Returns i (f a) (R a) S) : D.Returns i (p >>= f) P S := by
  refine Valid.bind (Valid.post hp fun r s _ hr => ?_) hf
  cases r with
  | ok a => exact hr a rfl
  | error e => exact fun _ hb => nomatch hb

/-- **Handlers**, which know nothing of the state the exception left. -/
theorem Discipline.Returns.catching {h : ε → Program Op ε α} (hp : D.Returns i p P R)
    (hh : ∀ e, D.Returns i (h e) (fun _ => True) R) : D.Returns i (p.catching h) P R := by
  refine Valid.catching (R := fun _ _ => True) (Valid.post hp fun r s _ hr => ?_) hh
  cases r with
  | ok a => exact hr
  | error e => trivial

/-- **Operations.** -/
theorem Discipline.Returns.perform {o : Op α} (hstable : D.Stable i P)
    (h : ∀ s r t, D.inv s → P s → M.exec α i o s r t →
      D.inv t ∧ D.guar i s t ∧ ∀ a, r = .ok a → R a t) : D.Returns i (Program.perform o) P R :=
  Valid.perform hstable h

theorem Discipline.Returns.ofExcept {x : Except ε α}
    (h : ∀ a s, x = .ok a → D.inv s → P s → R a s) : D.Returns i (Program.ofExcept x) P R :=
  Valid.ofExcept fun s hs hp a ha => h a s ha hs hp

/-- What the precondition says apart from the state may be assumed. -/
theorem Discipline.Returns.given {φ : Prop} (h : φ → D.Returns i p P R) :
    D.Returns i p (fun s => φ ∧ P s) R := by
  by_cases hφ : φ
  · exact (h hφ).pre fun _ _ hp => hp.2
  · exact Valid.absurd fun _ _ hp => hφ hp.1

/-- A program that keeps the discipline, whatever it returns. -/
theorem Discipline.Returns.valid (h : D.Returns i p P R) : D.Valid i p P fun _ _ => True :=
  Valid.post h fun _ _ _ _ => trivial

/-! ### Stability -/

theorem Discipline.Stable.const (p : Prop) : D.Stable i fun _ => p :=
  fun _ _ _ _ h _ => h

/-! ### Soundness -/

/-- A coroutine that waits with an assertion that holds now. -/
def Discipline.Ready (D : Discipline M) (i : ℕ) (s : σ) : Program Op ε Unit → Prop
  | .call o k => ∃ P : σ → Prop, P s ∧ D.Stable i P ∧ D.Allowed i o P ∧
      ∀ r, D.Valid i (k r) (fun t => ∃ s, D.inv s ∧ P s ∧ M.exec _ i o s r t) fun _ _ => True
  | _ => True

/-- A valid coroutine is ready where its precondition holds. -/
theorem Discipline.Valid.ready {p : Program Op ε Unit} {s : σ} (h : D.Valid i p P fun _ _ => True)
    (hs : D.inv s) (hp : P s) : D.Ready i s p := by
  cases p with
  | done a => trivial
  | raise e => trivial
  | call o k =>
      obtain ⟨P', hP, hstable, hallowed, hk⟩ := h
      exact ⟨P', hP s hs hp, hstable, hallowed, hk⟩

theorem Discipline.Ready.rely {p : Program Op ε Unit} {s t : σ} (h : D.Ready i s p)
    (hs : D.inv s) (ht : D.inv t) (hrely : D.Rely i s t) : D.Ready i t p := by
  cases p with
  | done a => trivial
  | raise e => trivial
  | call o k =>
      obtain ⟨P, hP, hstable, hrest⟩ := h
      exact ⟨P, hstable s t hs ht hP hrely, hstable, hrest⟩

/-- A step of the shared state that the discipline allows. -/
def Discipline.Steps (D : Discipline M) (s t : σ) : Prop :=
  (∃ i, D.guar i s t) ∨ M.environment s t ∨ (∃ i p, M.entry i p s t) ∨ M.crash s t

/-- What a discipline owes its machine; the guard restricts when coroutines may begin. -/
structure Discipline.Sound (D : Discipline M) (G : Pool Op ε σ → Move Op ε → Prop) : Prop where
  init : ∀ s, M.init s → D.inv s
  environment : ∀ s t, D.inv s → M.environment s t → D.inv t
  crash : ∀ s t, D.inv s → M.crash s t → D.inv t
  entry : ∀ (s : Pool Op ε σ) p t, D.inv s.shared → G s (.begin p) → M.entry s.next p s.shared t →
    D.inv t ∧ ∃ P : σ → Prop, P t ∧ D.Valid s.next p P fun _ _ => True

/-- The invariant of a pool: that of its shared state, and every coroutine is ready. -/
structure Discipline.PoolInv (D : Discipline M) (s : Pool Op ε σ) : Prop where
  inv : D.inv s.shared
  ids : (s.threads.map Prod.fst).Nodup
  fresh : ∀ thread ∈ s.threads, thread.1 < s.next
  ready : ∀ thread ∈ s.threads, D.Ready thread.1 s.shared thread.2

variable {G : Pool Op ε σ → Move Op ε → Prop}

/-- **A step keeps the invariant of the pool**, and is one the discipline allows. -/
theorem Discipline.Sound.step (h : D.Sound G) {t : Pool Op ε σ} {e : Move Op ε} (hs : D.PoolInv s)
    (hG : G s e) (hstep : M.step s e t) : D.PoolInv t ∧ D.Steps s.shared t.shared := by
  cases e with
  | begin p =>
      obtain ⟨shared, hentry, rfl⟩ := hstep
      obtain ⟨hinv, P, hP, hvalid⟩ := h.entry s p shared hs.inv hG hentry
      refine ⟨⟨hinv, ?_, ?_, ?_⟩, .inr (.inr (.inl ⟨_, p, hentry⟩))⟩
      · rw [List.map_append, List.nodup_append]
        refine ⟨hs.ids, List.nodup_singleton _, ?_⟩
        intro a ha b hb
        obtain ⟨thread, hthread, rfl⟩ := List.mem_map.mp ha
        obtain rfl : b = s.next := by simpa using hb
        exact Nat.ne_of_lt (hs.fresh thread hthread)
      · intro thread hthread
        rcases List.mem_append.mp hthread with hold | hnew
        · exact Nat.lt_succ_of_lt (hs.fresh thread hold)
        · rw [List.mem_singleton.mp hnew]
          exact Nat.lt_succ_self _
      · intro thread hthread
        rcases List.mem_append.mp hthread with hold | hnew
        · exact (hs.ready thread hold).rely hs.inv hinv
            (.inr (.inr ⟨s.next, p, (Nat.ne_of_lt (hs.fresh thread hold)).symm, hentry⟩))
        · rw [List.mem_singleton.mp hnew]
          exact hvalid.ready hinv hP
  | resume i =>
      obtain ⟨β, o, k, front, rest, r, shared, hthreads, hexec, rfl⟩ := hstep
      have hids := hs.ids
      have hfresh := hs.fresh
      have hready := hs.ready
      rw [hthreads] at hids hfresh hready
      obtain ⟨P, hP, hstable, hallowed, hk⟩ := hready (i, .call o k) (by simp)
      obtain ⟨hinv, hguar⟩ := hallowed s.shared r shared hs.inv hP hexec
      have hother : ∀ thread ∈ front ++ rest, thread.1 ≠ i := by
        rw [List.map_append, List.map_cons, List.nodup_middle, List.nodup_cons] at hids
        intro thread hthread heq
        refine hids.1 ?_
        rw [← List.map_append]
        exact List.mem_map.mpr ⟨thread, hthread, heq⟩
      refine ⟨⟨hinv, ?_, ?_, ?_⟩, .inl ⟨i, hguar⟩⟩
      · simpa using hids
      · intro thread hthread
        rcases List.mem_append.mp hthread with hfront | hback
        · exact hfresh thread (List.mem_append_left _ hfront)
        · rcases List.mem_cons.mp hback with rfl | hrest
          · exact hfresh (i, .call o k) (by simp)
          · exact hfresh thread (by simp [hrest])
      · intro thread hthread
        rcases List.mem_append.mp hthread with hfront | hback
        · exact (hready thread (List.mem_append_left _ hfront)).rely hs.inv hinv
            (.inl ⟨i, (hother thread (List.mem_append_left _ hfront)).symm, hguar⟩)
        · rcases List.mem_cons.mp hback with rfl | hrest
          · exact (hk r).ready hinv ⟨s.shared, hs.inv, hP, hexec⟩
          · exact (hready thread (by simp [hrest])).rely hs.inv hinv
              (.inl ⟨i, (hother thread (List.mem_append_right _ hrest)).symm, hguar⟩)
  | environment =>
      obtain ⟨shared, henv, rfl⟩ := hstep
      have hinv := h.environment s.shared shared hs.inv henv
      exact ⟨⟨hinv, hs.ids, hs.fresh, fun thread hthread =>
        (hs.ready thread hthread).rely hs.inv hinv (.inr (.inl henv))⟩, .inr (.inl henv)⟩
  | crash =>
      obtain ⟨shared, hcrash, rfl⟩ := hstep
      refine ⟨⟨h.crash s.shared shared hs.inv hcrash, List.nodup_nil, ?_, ?_⟩,
        .inr (.inr (.inr hcrash))⟩
      · exact fun thread hthread => absurd hthread (by simp)
      · exact fun thread hthread => absurd hthread (by simp)

/-- **Soundness**: the invariant holds of every pool a guarded run reaches. -/
theorem Discipline.Sound.reachable (h : D.Sound G) (hs : M.system.ReachableVia G s) :
    D.PoolInv s := by
  refine hs.invariant (I := D.PoolInv) ?_ fun s e t hinv hG hstep => (h.step hinv hG hstep).1
  rintro s ⟨hinit, hnone⟩
  refine ⟨h.init s.shared hinit, ?_, ?_, ?_⟩
  · rw [hnone]
    exact List.nodup_nil
  · rw [hnone]
    exact fun thread hthread => absurd hthread (by simp)
  · rw [hnone]
    exact fun thread hthread => absurd hthread (by simp)

/-- **Soundness for runs**: a reflexive and transitive relation that contains every step the
discipline allows contains every run. -/
theorem Discipline.Sound.relates (h : D.Sound G) {R : σ → σ → Prop} (hrefl : ∀ s, R s s)
    (htrans : ∀ s t u, R s t → R t u → R s u)
    (hsteps : ∀ s t, D.inv s → D.inv t → D.Steps s t → R s t) {t : Pool Op ε σ} (hs : D.PoolInv s)
    (hrun : M.system.RunVia G s t) : R s.shared t.shared :=
  Transition.System.RunVia.relates (I := D.PoolInv) (R := fun s t => R s.shared t.shared)
    (fun s => hrefl s.shared) (fun s t u => htrans s.shared t.shared u.shared)
    (fun _ _ _ hinv hG hstep => (h.step hinv hG hstep).1)
    (fun s _ t hinv hG hstep => hsteps s.shared t.shared hinv.inv (h.step hinv hG hstep).1.inv
      (h.step hinv hG hstep).2) hrun hs

/-! ### A coroutine alone -/

/-- A handler whose outcomes are possible runs the coroutine without interruption. -/
theorem Machine.alone {h : Handler Op ε σ}
    (hexec : ∀ (β : Type) (o : Op β) s, M.exec β i o s (h β o s).1 (h β o s).2)
    (hG : ∀ s, G s (.resume i)) (p : Program Op ε Unit) (s : σ)
    (front rest : List (ℕ × Program Op ε Unit)) (n : ℕ) :
    M.system.RunVia G ⟨s, front ++ (i, p) :: rest, n⟩
      ⟨(p.run h s).2, front ++ (i, Program.ofExcept (p.run h s).1) :: rest, n⟩ := by
  induction p generalizing s with
  | done a => exact .refl _
  | raise e => exact .refl _
  | call o k ih =>
      refine .trans (.tail (.refl _) (hG _) ?_) (ih (h _ o s).1 (h _ o s).2)
      exact ⟨_, o, k, front, rest, (h _ o s).1, (h _ o s).2, rfl, hexec _ o s, rfl⟩

/-- A coroutine that begins and runs without interruption. -/
theorem Machine.begin_alone {h : ℕ → Handler Op ε σ}
    (hexec : ∀ i (β : Type) (o : Op β) s, M.exec β i o s (h i β o s).1 (h i β o s).2)
    (hG : ∀ s i, G s (.resume i)) {p : Program Op ε Unit} {shared : σ} (hbegin : G s (.begin p))
    (hentry : M.entry s.next p s.shared shared) :
    M.system.RunVia G s ⟨(p.run (h s.next) shared).2,
      s.threads ++ [(s.next, Program.ofExcept (p.run (h s.next) shared).1)], s.next + 1⟩ :=
  .trans (.tail (.refl s) hbegin ⟨shared, hentry, rfl⟩)
    (Machine.alone (hexec s.next) (fun s => hG s _) p shared s.threads [] (s.next + 1))

end Coroutine
