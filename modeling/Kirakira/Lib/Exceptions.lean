import Mathlib.Data.List.Forall2

/-!
# Exceptions

Inversion rules for code that may raise: what a sequence of steps did when it returned.
`Except` is pure code; `EStateM` is code over a state, which keeps the state an exception
was raised in.
-/

namespace Exceptions

variable {ε σ α β : Type}

/-! ### Pure code -/

variable {f : α → Except ε β} {x : Except ε α} {xs : List α}

theorem bind_eq_ok {b : β} : (x >>= f) = .ok b ↔ ∃ a, x = .ok a ∧ f a = .ok b := by
  cases x <;> simp [bind, Except.bind]

/-- A changed result is there exactly when the result is. -/
theorem map_eq_ok {f : α → β} {b : β} : x.map f = .ok b ↔ ∃ a, x = .ok a ∧ f a = b := by
  cases x <;> simp [Except.map]

/-- A list traversal returns exactly when it returns on every element, one by one. -/
theorem mapM_eq_ok_iff {ys : List β} :
    xs.mapM f = .ok ys ↔ List.Forall₂ (fun x y => f x = .ok y) xs ys := by
  induction xs generalizing ys with
  | nil =>
      rw [List.mapM_nil, List.forall₂_nil_left_iff]
      constructor
      · intro h
        exact (Except.ok.inj h).symm
      · rintro rfl
        rfl
  | cons x xs ih =>
      rw [List.mapM_cons, List.forall₂_cons_left_iff]
      constructor
      · intro h
        obtain ⟨y, hy, hrest⟩ := bind_eq_ok.mp h
        obtain ⟨ys', hys', hlast⟩ := bind_eq_ok.mp hrest
        exact ⟨y, ys', hy, ih.mp hys', (Except.ok.inj hlast).symm⟩
      · rintro ⟨y, ys', hy, hys', rfl⟩
        rw [hy, ih.mpr hys']
        rfl

/-- A list traversal that returns has returned on every element. -/
theorem mapM_eq_ok {ys : List β} (h : xs.mapM f = .ok ys) : ∀ x ∈ xs, ∃ y ∈ ys, f x = .ok y := by
  have hall := mapM_eq_ok_iff.mp h
  clear h
  induction hall with
  | nil => simp
  | @cons a b as bs hab _ ih =>
      intro x hx
      rcases List.mem_cons.mp hx with rfl | hmem
      · exact ⟨b, List.mem_cons_self, hab⟩
      · obtain ⟨y, hy, hxy⟩ := ih x hmem
        exact ⟨y, List.mem_cons_of_mem _ hy, hxy⟩

theorem mapM_results {ys : List β} (h : xs.mapM f = .ok ys) : ∀ y ∈ ys, ∃ x ∈ xs, f x = .ok y := by
  have hall := mapM_eq_ok_iff.mp h
  clear h
  induction hall with
  | nil => simp
  | cons hx _ ih =>
      intro y hy
      rcases List.mem_cons.mp hy with rfl | hy
      · exact ⟨_, List.mem_cons_self, hx⟩
      · obtain ⟨x, hmem, hfx⟩ := ih y hy
        exact ⟨x, List.mem_cons_of_mem _ hmem, hfx⟩

/-- A list traversal returns where it returns on every element. -/
theorem mapM_ok (h : ∀ x ∈ xs, ∃ y, f x = .ok y) : ∃ ys, xs.mapM f = .ok ys := by
  induction xs with
  | nil => exact ⟨[], rfl⟩
  | cons x xs ih =>
      obtain ⟨y, hy⟩ := h x List.mem_cons_self
      obtain ⟨ys, hys⟩ := ih fun x hx => h x (List.mem_cons_of_mem _ hx)
      exact ⟨y :: ys, mapM_eq_ok_iff.mpr (.cons hy (mapM_eq_ok_iff.mp hys))⟩

theorem mapM_append_eq {ys : List α} :
    (xs ++ ys).mapM f = do
      let as ← xs.mapM f
      let bs ← ys.mapM f
      return as ++ bs :=
  List.mapM_append

/-! ### Code over a state -/

/-- A sequence over a state returns exactly when both parts do, one after the other. -/
theorem run_bind_eq_ok {x : EStateM ε σ α} {f : α → EStateM ε σ β} {s s' : σ} {b : β} :
    (x >>= f).run s = .ok b s' ↔ ∃ a s₁, x.run s = .ok a s₁ ∧ (f a).run s₁ = .ok b s' := by
  simp only [bind, EStateM.bind, EStateM.run]
  split <;> simp_all

/-- A sequence over a state raises when its first part does, or when the second does
after the first returned. -/
theorem run_bind_eq_error {x : EStateM ε σ α} {f : α → EStateM ε σ β} {s s' : σ} {e : ε} :
    (x >>= f).run s = .error e s' ↔
      x.run s = .error e s' ∨ ∃ a s₁, x.run s = .ok a s₁ ∧ (f a).run s₁ = .error e s' := by
  simp only [bind, EStateM.bind, EStateM.run]
  split <;> simp_all

/-- Pure code inside code over a state: it leaves the state alone. -/
def lift (x : Except ε α) : EStateM ε σ α :=
  match x with
  | .ok a => pure a
  | .error e => throw e

theorem run_lift_bind_eq_ok {f : α → EStateM ε σ β} {s s' : σ} {b : β} :
    (lift x >>= f).run s = .ok b s' ↔ ∃ a, x = .ok a ∧ (f a).run s = .ok b s' := by
  cases x with
  | ok a => exact ⟨fun h => ⟨a, rfl, h⟩, fun ⟨_, ha, h⟩ => Except.ok.inj ha ▸ h⟩
  | error e =>
      constructor
      · intro h
        cases h
      · rintro ⟨_, ha, -⟩
        cases ha

theorem run_lift_bind_of_ok {a : α} (h : x = .ok a) (f : α → EStateM ε σ β) (s : σ) :
    (lift x >>= f).run s = (f a).run s := by
  rw [h]
  rfl

theorem run_lift_bind_of_error {e : ε} (h : x = .error e) (f : α → EStateM ε σ β) (s : σ) :
    (lift x >>= f).run s = .error e s := by
  rw [h]
  rfl

@[simp] theorem run_get_bind (f : σ → EStateM ε σ β) (s : σ) :
    ((get : EStateM ε σ σ) >>= f).run s = (f s).run s := rfl

@[simp] theorem run_modify_bind (g : σ → σ) (f : PUnit → EStateM ε σ β) (s : σ) :
    ((modify g : EStateM ε σ PUnit) >>= f).run s = (f ⟨⟩).run (g s) := rfl

end Exceptions
