import Mathlib.Data.List.Nodup

/-!
# Tables

A table of a database as the list of its rows. A statement that changes rows is `update`;
a unique index is `Unique`, which, as in SQL, leaves out the rows whose key has a missing
column.

* `Unique.eq_of_key` — two rows of one key are one row.
* `Unique.update`, `Unique.cons`, `Unique.append` — when a change keeps an index unique.
* `find?_eq_some_iff` — the row of a key is the one that has it.
* `Rows` — the rows of a table under its unique indexes; `Rows.write` is a statement, which
  names the index it would break.
-/

namespace Table

variable {α κ : Type}

/-! ### Changes -/

/-- `UPDATE … SET f WHERE p`. -/
def update (p : α → Bool) (f : α → α) (rows : List α) : List α :=
  rows.map fun r => if p r then f r else r

variable {p : α → Bool}

/-- A row after a change is a row from before, changed when the condition holds. -/
theorem mem_update {f : α → α} {rows : List α} {r : α} :
    r ∈ update p f rows ↔ ∃ old ∈ rows, (if p old then f old else old) = r :=
  List.mem_map

/-- A change that no row meets the condition of changes nothing. -/
theorem update_of_none (f : α → α) {rows : List α} (h : ∀ r ∈ rows, p r = false) :
    update p f rows = rows := by
  rw [update]
  conv_rhs => rw [← List.map_id rows]
  exact List.map_congr_left fun r hr => by rw [h r hr]; rfl

/-! ### Unique indexes -/

/-- `UNIQUE(key)`: no two rows have one key; rows without a key are free. -/
def Unique (key : α → Option κ) (rows : List α) : Prop :=
  (rows.filterMap key).Nodup

instance instDecidableUnique [DecidableEq κ] (key : α → Option κ) (rows : List α) :
    Decidable (Unique key rows) :=
  inferInstanceAs (Decidable (List.Nodup _))

variable {key : α → Option κ} {rows : List α}

theorem Unique.nil : Unique key [] :=
  List.nodup_nil

theorem Unique.eq_of_key (h : Unique key rows) {a b : α} {k : κ} (ha : a ∈ rows) (hb : b ∈ rows)
    (hka : key a = some k) (hkb : key b = some k) : a = b := by
  induction rows with
  | nil => cases ha
  | cons r rows ih =>
      have hkey : ∀ c ∈ rows, key c = some k → k ∈ rows.filterMap key := fun c hc hkc =>
        List.mem_filterMap.mpr ⟨c, hc, hkc⟩
      have hrest : Unique key rows := by
        rw [Unique, List.filterMap_cons] at h
        split at h
        · exact h
        · exact (List.nodup_cons.mp h).2
      have hfresh : key r = some k → k ∉ rows.filterMap key := by
        intro hkr
        rw [Unique, List.filterMap_cons, hkr] at h
        exact (List.nodup_cons.mp h).1
      rcases List.mem_cons.mp ha with rfl | ha' <;> rcases List.mem_cons.mp hb with rfl | hb'
      · rfl
      · exact absurd (hkey b hb' hkb) (hfresh hka)
      · exact absurd (hkey a ha' hka) (hfresh hkb)
      · exact ih hrest ha' hb'

theorem unique_iff_pairwise :
    Unique key rows ↔ rows.Pairwise fun r r' => ∀ k, key r = some k → key r' ≠ some k := by
  rw [Unique, List.Nodup, List.pairwise_filterMap]
  have hiff : ∀ r r' : α, (∀ k, key r = some k → ∀ k', key r' = some k' → k ≠ k') ↔
      ∀ k, key r = some k → key r' ≠ some k := by
    intro r r'
    constructor
    · exact fun h k hr hr' => h k hr k hr' rfl
    · rintro h k hr k' hr' rfl
      exact h k hr hr'
  simp only [hiff]

/-- A change that keeps the keys or drops them keeps the index unique. -/
theorem Unique.update_sub (h : Unique key rows) {f : α → α}
    (hf : ∀ r k, key (f r) = some k → key r = some k) : Unique key (Table.update p f rows) := by
  rw [unique_iff_pairwise, Table.update, List.pairwise_map]
  refine (unique_iff_pairwise.mp h).imp fun {r r'} hne k hr hr' => hne k ?_ ?_
  · split at hr
    · exact hf r k hr
    · exact hr
  · split at hr'
    · exact hf r' k hr'
    · exact hr'

/-- A change of one row to a key no row has keeps the index unique. -/
theorem Unique.update_fresh (h : Unique key rows) (hnodup : rows.Nodup) {f : α → α}
    (hone : ∀ r ∈ rows, ∀ r' ∈ rows, p r = true → p r' = true → r = r')
    (hfresh : ∀ r ∈ rows, p r = true → ∀ k, key (f r) = some k → ∀ r' ∈ rows, key r' ≠ some k) :
    Unique key (Table.update p f rows) := by
  rw [unique_iff_pairwise, Table.update, List.pairwise_map]
  refine (hnodup.and (unique_iff_pairwise.mp h)).imp_of_mem fun {r r'} hr hr' hne k => ?_
  split <;> split
  · next hp hp' => exact absurd (hone r hr r' hr' hp hp') hne.1
  · next hp _ => exact fun hk => hfresh r hr hp k hk r' hr'
  · next _ hp' => exact fun hk hk' => hfresh r' hr' hp' k hk' r hr hk
  · exact hne.2 k

/-- A new row of a new key at the end keeps the index unique. -/
theorem Unique.append (h : Unique key rows) {r : α} (hr : ∀ old ∈ rows, ∀ k, key r = some k →
    key old ≠ some k) : Unique key (rows ++ [r]) := by
  rw [Unique, List.filterMap_append]
  cases hk : key r with
  | none =>
      simp only [List.filterMap_cons, hk, List.filterMap_nil, List.append_nil]
      exact h
  | some k =>
      simp only [List.filterMap_cons, hk, List.filterMap_nil]
      refine List.Nodup.append h (List.nodup_singleton k) ?_
      rw [List.disjoint_singleton]
      intro hmem
      obtain ⟨old, hold, hkold⟩ := List.mem_filterMap.mp hmem
      exact hr old hold k hk hkold

theorem Unique.perm (h : Unique key rows) {rows' : List α} (hperm : rows'.Perm rows) :
    Unique key rows' :=
  (hperm.filterMap key).nodup_iff.mpr h

theorem Unique.nodup {id : α → κ} (h : Unique (fun r => some (id r)) rows) : rows.Nodup := by
  rw [Unique, List.filterMap_eq_map'] at h
  exact h.of_map

/-- A condition that one of the distinct rows meets has that one row. -/
theorem countP_eq_one (h : rows.Nodup) {a : α} (ha : a ∈ rows)
    (hp : ∀ b ∈ rows, p b = true ↔ b = a) : rows.countP p = 1 := by
  classical
  rw [← List.count_eq_one_of_mem h ha, List.count]
  refine List.countP_congr fun b hb => ?_
  rw [hp b hb, beq_iff_eq]

/-! ### Rows by key -/

section Find

variable [DecidableEq κ] {id : α → κ}

theorem find?_eq_some {k : κ} {r : α} (h : rows.find? (fun r => id r = k) = some r) :
    r ∈ rows ∧ id r = k :=
  ⟨List.mem_of_find?_eq_some h, by simpa using List.find?_some h⟩

/-- In a table with unique keys the row of a key is the one that has it. -/
theorem find?_eq_some_iff (h : Unique (fun r => some (id r)) rows) {k : κ} {r : α} :
    rows.find? (fun r => id r = k) = some r ↔ r ∈ rows ∧ id r = k := by
  constructor
  · exact find?_eq_some
  · rintro ⟨hr, rfl⟩
    cases hfind : rows.find? fun r' => id r' = id r with
    | none =>
        have hnone := List.find?_eq_none.mp hfind r hr
        simp at hnone
    | some r' =>
        obtain ⟨hr', hid⟩ := find?_eq_some hfind
        rw [h.eq_of_key hr' hr (congrArg some hid) rfl]

end Find

/-! ### Tables under their indexes -/

/-- A unique index: the columns it is on, and the key of a row. -/
structure Index (α : Type) : Type 1 where
  columns : String
  Key : Type
  decEq : DecidableEq Key
  key : α → Option Key

/-- Whether the rows keep an index. -/
def Index.Holds (i : Index α) (rows : List α) : Prop :=
  Unique i.key rows

instance (i : Index α) (rows : List α) : Decidable (i.Holds rows) :=
  @instDecidableUnique α i.Key i.decEq i.key rows

/-- The first index the rows break. -/
def broken (indexes : List (Index α)) (rows : List α) : Option (Index α) :=
  indexes.find? fun i => ¬i.Holds rows

variable {indexes : List (Index α)}

theorem broken_eq_none : broken indexes rows = none ↔ ∀ i ∈ indexes, i.Holds rows := by
  simp [broken, List.find?_eq_none]

/-- The rows of a table under its unique indexes. -/
structure Rows (indexes : List (Index α)) where
  rows : List α
  holds : ∀ i ∈ indexes, i.Holds rows

theorem Rows.eq_of_rows {t u : Rows indexes} (h : t.rows = u.rows) : t = u := by
  cases t
  cases u
  congr

/-- The table without rows. -/
def Rows.empty (indexes : List (Index α)) : Rows indexes :=
  ⟨[], fun _ _ => .nil⟩

/-- What a statement leaves, or the columns of the index it breaks. -/
def Rows.write (indexes : List (Index α)) (rows : List α) : Except String (Rows indexes) :=
  match h : broken indexes rows with
  | none => .ok ⟨rows, broken_eq_none.mp h⟩
  | some i => .error i.columns

theorem Rows.write_eq_ok {t : Rows indexes} : Rows.write indexes rows = .ok t ↔ t.rows = rows := by
  rw [Rows.write]
  constructor
  · intro h
    split at h
    · obtain rfl := Except.ok.inj h
      rfl
    · cases h
  · rintro rfl
    split
    · rfl
    · next i hbroken =>
        rw [broken_eq_none.mpr t.holds] at hbroken
        cases hbroken

/-- The rows of a table, in another order, can be written. -/
theorem Rows.write_perm (t : Rows indexes) (hperm : rows.Perm t.rows) :
    ∃ u : Rows indexes, u.rows = rows :=
  ⟨⟨rows, fun i hi => (t.holds i hi).perm hperm⟩, rfl⟩

end Table
