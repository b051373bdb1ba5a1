import Mathlib.Logic.Relation

/-!
# Transition Systems and Guarded Runs

A labelled transition system over arbitrary states and labels, its runs, and the two
induction principles every safety argument about it goes through. A run may be
restricted by a **guard** `G`, a predicate on the state a step starts from and the label
it carries; the unrestricted runs are those of the trivial guard. Guards are how a
property that only some runs have is stated: "in every run whose steps all meet `G`".

* `RunVia.preserves` — an invariant kept by every guarded step is kept by every run.
* `RunVia.relates` — a reflexive and transitive relation that contains every guarded
  step contains every run. This is how append-only and monotonicity facts are lifted.
* `ReachableVia.invariant` — an invariant that holds initially and is kept by every
  guarded step holds of every reachable state.
-/

namespace Transition

/-- A labelled transition system: the initial states and the labelled step relation. -/
structure System (σ : Type*) (ε : Type*) where
  /-- The states a run may start from. -/
  init : σ → Prop
  /-- `step s e t`: the step labelled `e` leads from `s` to `t`. -/
  step : σ → ε → σ → Prop

namespace System

variable {σ ε : Type*}

/-- One step whose label meets the guard in the state it starts from. -/
def StepVia (M : System σ ε) (G : σ → ε → Prop) (s t : σ) : Prop :=
  ∃ e, G s e ∧ M.step s e t

/-- A finite run whose steps all meet the guard. -/
def RunVia (M : System σ ε) (G : σ → ε → Prop) : σ → σ → Prop :=
  Relation.ReflTransGen (M.StepVia G)

/-- The states that a run whose steps all meet the guard can reach. -/
def ReachableVia (M : System σ ε) (G : σ → ε → Prop) (s : σ) : Prop :=
  ∃ s₀, M.init s₀ ∧ M.RunVia G s₀ s

/-- An unrestricted finite run. -/
abbrev Run (M : System σ ε) : σ → σ → Prop :=
  M.RunVia fun _ _ => True

/-- The states that some run reaches. -/
abbrev Reachable (M : System σ ε) : σ → Prop :=
  M.ReachableVia fun _ _ => True

variable {M : System σ ε} {G : σ → ε → Prop}

/-! ### Runs -/

theorem RunVia.refl (s : σ) : M.RunVia G s s :=
  Relation.ReflTransGen.refl

theorem RunVia.tail {s t u : σ} {e : ε} (h : M.RunVia G s t) (hG : G t e)
    (hstep : M.step t e u) : M.RunVia G s u :=
  Relation.ReflTransGen.tail h ⟨e, hG, hstep⟩

theorem RunVia.trans {s t u : σ} (h₁ : M.RunVia G s t) (h₂ : M.RunVia G t u) :
    M.RunVia G s u :=
  Relation.ReflTransGen.trans h₁ h₂

/-- Where a step is a function of its label, a list of labels is a run. -/
theorem run_foldl {after : σ → ε → σ} (hstep : ∀ s e, M.step s e (after s e)) (s : σ)
    (es : List ε) : M.Run s (es.foldl after s) := by
  induction es generalizing s with
  | nil => exact .refl s
  | cons e es ih => exact (RunVia.tail (.refl s) trivial (hstep s e)).trans (ih (after s e))

/-- Where a step is a partial function of its label, a list of labels that can be taken one after
the other is a run. -/
theorem RunVia.foldlM {after : σ → ε → Option σ}
    (hstep : ∀ s e t, after s e = some t → M.step s e t) {es : List ε} {s t : σ}
    (hG : ∀ e ∈ es, ∀ s, G s e) (h : es.foldlM after s = some t) : M.RunVia G s t := by
  induction es generalizing s with
  | nil =>
      obtain rfl := Option.some.inj h
      exact .refl s
  | cons e es ih =>
      rw [List.foldlM_cons, Option.bind_eq_bind, Option.bind_eq_some_iff] at h
      obtain ⟨next, hnext, hrest⟩ := h
      exact (RunVia.tail (.refl s) (hG e List.mem_cons_self s) (hstep s e next hnext)).trans
        (ih (fun e he => hG e (List.mem_cons_of_mem _ he)) hrest)

/-- Where a partial function takes only steps that meet the guard, a list of labels that can be
taken one after the other is a guarded run. -/
theorem RunVia.foldlM_guarded {after : σ → ε → Option σ}
    (hstep : ∀ s e t, after s e = some t → G s e ∧ M.step s e t) {es : List ε} {s t : σ}
    (h : es.foldlM after s = some t) : M.RunVia G s t := by
  induction es generalizing s with
  | nil =>
      obtain rfl := Option.some.inj h
      exact .refl s
  | cons e es ih =>
      rw [List.foldlM_cons, Option.bind_eq_bind, Option.bind_eq_some_iff] at h
      obtain ⟨next, hnext, hrest⟩ := h
      obtain ⟨hG, hnext⟩ := hstep s e next hnext
      exact (RunVia.tail (.refl s) hG hnext).trans (ih hrest)

theorem RunVia.weaken {G' : σ → ε → Prop} {s t : σ} (hG : ∀ s e, G s e → G' s e)
    (h : M.RunVia G s t) : M.RunVia G' s t :=
  Relation.ReflTransGen.mono (fun s _ ⟨e, he, hstep⟩ => ⟨e, hG s e he, hstep⟩) s t h

/-- **The run rule for invariants**: what every guarded step keeps, every run keeps. -/
theorem RunVia.preserves {I : σ → Prop} {s t : σ}
    (hstep : ∀ s e t, I s → G s e → M.step s e t → I t)
    (hrun : M.RunVia G s t) (hs : I s) : I t := by
  induction hrun with
  | refl => exact hs
  | tail _ hlast ih =>
      obtain ⟨e, hG, hst⟩ := hlast
      exact hstep _ e _ ih hG hst

/-- **The run rule for relations**: a reflexive and transitive relation that contains
every guarded step taken under the invariant contains every run. -/
theorem RunVia.relates {I : σ → Prop} {R : σ → σ → Prop} {s t : σ}
    (hrefl : ∀ s, R s s) (htrans : ∀ s t u, R s t → R t u → R s u)
    (hInv : ∀ s e t, I s → G s e → M.step s e t → I t)
    (hstep : ∀ s e t, I s → G s e → M.step s e t → R s t)
    (hrun : M.RunVia G s t) (hs : I s) : R s t := by
  induction hrun with
  | refl => exact hrefl s
  | tail hinit hlast ih =>
      obtain ⟨e, hG, hst⟩ := hlast
      have hmid := RunVia.preserves hInv hinit hs
      exact htrans _ _ _ ih (hstep _ e _ hmid hG hst)

/-! ### Reachable states -/

theorem ReachableVia.init {s : σ} (h : M.init s) : M.ReachableVia G s :=
  ⟨s, h, RunVia.refl s⟩

theorem ReachableVia.run {s t : σ} (h : M.ReachableVia G s) (hrun : M.RunVia G s t) :
    M.ReachableVia G t := by
  obtain ⟨s₀, hinit, hs⟩ := h
  exact ⟨s₀, hinit, hs.trans hrun⟩

/-- A guarded step from a reachable state leads to a reachable state. -/
theorem ReachableVia.step {s t : σ} {e : ε} (h : M.ReachableVia G s) (hG : G s e)
    (hstep : M.step s e t) : M.ReachableVia G t :=
  h.run (RunVia.tail (RunVia.refl s) hG hstep)

/-- What runs under a guard reach is reached under a weaker one. -/
theorem ReachableVia.weaken {G' : σ → ε → Prop} {s : σ} (hG : ∀ s e, G s e → G' s e)
    (h : M.ReachableVia G s) : M.ReachableVia G' s := by
  obtain ⟨s₀, hinit, hrun⟩ := h
  exact ⟨s₀, hinit, hrun.weaken hG⟩

/-- **The invariant rule**: what holds initially and is kept by every guarded step holds
of every reachable state. -/
theorem ReachableVia.invariant {I : σ → Prop} (hinit : ∀ s, M.init s → I s)
    (hstep : ∀ s e t, I s → G s e → M.step s e t → I t) {s : σ}
    (h : M.ReachableVia G s) : I s := by
  obtain ⟨s₀, h₀, hrun⟩ := h
  exact RunVia.preserves hstep hrun (hinit s₀ h₀)

end System

end Transition
