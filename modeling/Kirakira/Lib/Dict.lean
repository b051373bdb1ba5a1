import Mathlib.Algebra.Order.Ring.Nat
import Mathlib.Data.List.Nodup

/-!
# Insertion-Ordered Dictionaries

A dictionary as the list of its entries in the order of their insertion, with no key
twice. Setting a key that is there replaces its value in place; setting a new one appends
an entry.

* `get?_set`, `get?_erase`, `get?_filter` — what an operation makes of a lookup.
* `set_set`, `set_of_get?`, `erase_set_of_none` — when a change undoes another.
* `countP_set_of_get?`, `countP_set_of_none` — what setting a key makes of the number of
  entries with a property.
* `Rel.get?`, `Rel.countP` — lookups and counts of dictionaries whose values are related
  key by key, as `mapValues` and `traverse` relate them.
-/

/-- A dictionary that keeps the order of insertion. -/
structure Dict (α β : Type) where
  entries : List (α × β)
  nodup : (entries.map Prod.fst).Nodup

namespace Dict

variable {α β γ ε : Type} [DecidableEq α]

/-! ### Lists of entries -/

/-- The value of the first entry of a key. -/
def find (k : α) : List (α × β) → Option β
  | [] => none
  | e :: es => if e.1 = k then some e.2 else find k es

/-- The entries after the first one of a key was replaced, or a new one appended. -/
def put (k : α) (v : β) : List (α × β) → List (α × β)
  | [] => [(k, v)]
  | e :: es => if e.1 = k then (k, v) :: es else e :: put k v es

variable {es : List (α × β)} {k : α} {v : β} {p : α × β → Bool} {d : Dict α β}
  {R : α → β → γ → Prop} {es' : List (α × γ)} {f : α → β → ℕ → Except ε γ} {d' : Dict α γ}
  {q : α × γ → Bool}

theorem find_eq_none_iff : find k es = none ↔ k ∉ es.map Prod.fst := by
  induction es with
  | nil => simp [find]
  | cons e es ih =>
      rw [find, List.map_cons, List.mem_cons, not_or]
      split
      · next h => simp [h]
      · next h => simp [ih, Ne.symm h]

theorem find_eq_some_iff (h : (es.map Prod.fst).Nodup) : find k es = some v ↔ (k, v) ∈ es := by
  induction es with
  | nil => simp [find]
  | cons e es ih =>
      obtain ⟨hfresh, hrest⟩ := List.nodup_cons.mp h
      rw [find, List.mem_cons]
      split
      · next heq =>
          constructor
          · intro hv
            exact .inl (Prod.ext heq.symm (Option.some.inj hv).symm)
          · rintro (hv | hv)
            · rw [← hv]
            · exact absurd (List.mem_map.mpr ⟨(k, v), hv, heq.symm⟩) hfresh
      · next hne =>
          rw [ih hrest]
          constructor
          · exact .inr
          · rintro (hv | hv)
            · exact absurd (congrArg Prod.fst hv).symm hne
            · exact hv

theorem find_put (k k' : α) (v : β) (es : List (α × β)) :
    find k' (put k v es) = if k' = k then some v else find k' es := by
  induction es with
  | nil =>
      by_cases hk : k' = k
      · simp [put, find, hk]
      · simp [put, find, hk, Ne.symm hk]
  | cons e es ih =>
      rw [put]
      by_cases he : e.1 = k
      · rw [if_pos he, find, find, he]
        by_cases hk : k' = k
        · rw [if_pos hk.symm, if_pos hk]
        · rw [if_neg (Ne.symm hk), if_neg (Ne.symm hk), if_neg hk]
      · rw [if_neg he, find, find, ih]
        by_cases hk : k' = k
        · rw [if_pos hk, if_pos hk, if_neg (by rw [hk]; exact he)]
        · rw [if_neg hk, if_neg hk]

theorem mem_map_fst_put {k' : α} :
    k' ∈ (put k v es).map Prod.fst ↔ k' = k ∨ k' ∈ es.map Prod.fst := by
  rw [← not_iff_not, ← find_eq_none_iff, find_put, not_or, ← find_eq_none_iff]
  split
  · next h => simp [h]
  · next h => simp [h]

theorem nodup_put (k : α) (v : β) (h : (es.map Prod.fst).Nodup) :
    ((put k v es).map Prod.fst).Nodup := by
  induction es with
  | nil => exact List.nodup_singleton _
  | cons e es ih =>
      obtain ⟨hfresh, hrest⟩ := List.nodup_cons.mp h
      rw [put]
      split
      · next he => exact List.nodup_cons.mpr ⟨he ▸ hfresh, hrest⟩
      · next he =>
          refine List.nodup_cons.mpr ⟨fun hmem => ?_, ih hrest⟩
          rcases mem_map_fst_put.mp hmem with heq | hin
          · exact he heq
          · exact hfresh hin

theorem find_filter_ne (k k' : α) (es : List (α × β)) :
    find k' (es.filter fun e => e.1 ≠ k) = if k' = k then none else find k' es := by
  induction es with
  | nil => simp [find]
  | cons e es ih =>
      by_cases he : e.1 = k
      · rw [List.filter_cons_of_neg (by simp [he]), ih, find, he]
        by_cases hk : k' = k
        · rw [if_pos hk, if_pos hk]
        · rw [if_neg hk, if_neg hk, if_neg (Ne.symm hk)]
      · rw [List.filter_cons_of_pos (by simp [he]), find, find, ih]
        by_cases hk : k' = k
        · rw [if_pos hk, if_pos hk, if_neg (by rw [hk]; exact he)]
        · rw [if_neg hk, if_neg hk]

theorem countP_put_of_find {old : β} (h : find k es = some old) :
    (put k v es).countP p + (if p (k, old) then 1 else 0)
      = es.countP p + if p (k, v) then 1 else 0 := by
  induction es with
  | nil => cases h
  | cons e es ih =>
      rw [find] at h
      rw [put]
      split at h
      · next he =>
          have he' : e = (k, old) := Prod.ext he (Option.some.inj h)
          rw [if_pos he, he', List.countP_cons, List.countP_cons]
          omega
      · next he =>
          have := ih h
          rw [if_neg he, List.countP_cons, List.countP_cons]
          omega

theorem countP_put_of_none (h : find k es = none) :
    (put k v es).countP p = es.countP p + if p (k, v) then 1 else 0 := by
  induction es with
  | nil => rw [put, List.countP_singleton, List.countP_nil, Nat.zero_add]
  | cons e es ih =>
      rw [find] at h
      obtain ⟨-, ⟨⟩⟩ | ⟨he, h⟩ := ite_eq_iff.mp h
      rw [put, if_neg he, List.countP_cons, List.countP_cons, ih h]
      omega

/-! ### Dictionaries -/

/-- The dictionary without entries. -/
def empty : Dict α β :=
  ⟨[], List.nodup_nil⟩

/-- `d.get(k)`. -/
def get? (d : Dict α β) (k : α) : Option β :=
  find k d.entries

/-- `d[k] = v`. -/
def set (d : Dict α β) (k : α) (v : β) : Dict α β :=
  ⟨put k v d.entries, nodup_put k v d.nodup⟩

/-- `del d[k]`, for a key that is there. -/
def erase (d : Dict α β) (k : α) : Dict α β :=
  ⟨d.entries.filter fun e => e.1 ≠ k, d.nodup.sublist (List.filter_sublist.map _)⟩

/-- `{k: v for k, v in d.items() if p(k, v)}`. -/
def filter (p : α → β → Bool) (d : Dict α β) : Dict α β :=
  ⟨d.entries.filter fun e => p e.1 e.2, d.nodup.sublist (List.filter_sublist.map _)⟩

/-- The dictionary with every value changed. -/
def mapValues (d : Dict α β) (f : α → β → γ) : Dict α γ :=
  ⟨d.entries.map fun e => (e.1, f e.1 e.2), by
    rw [List.map_map]
    exact d.nodup⟩

/-- The entries with every value changed, from the first to the last, by code that may
raise and gets the position of the entry. -/
def traverseEntries (f : α → β → ℕ → Except ε γ) : List (α × β) → ℕ → Except ε (List (α × γ))
  | [], _ => .ok []
  | e :: es, i =>
      match f e.1 e.2 i with
      | .error error => .error error
      | .ok v =>
          match traverseEntries f es (i + 1) with
          | .error error => .error error
          | .ok es => .ok ((e.1, v) :: es)

/-- The number of entries with a property. -/
def countP (p : α × β → Bool) (d : Dict α β) : ℕ :=
  d.entries.countP p

@[simp] theorem get?_empty (k : α) : (empty : Dict α β).get? k = none := rfl

theorem get?_eq_some_iff : d.get? k = some v ↔ (k, v) ∈ d.entries :=
  find_eq_some_iff d.nodup

/-- The values of a dictionary that knows some rows by their keys are these rows. -/
theorem values_perm (key : β → α) {rows : List β} (hrows : rows.Nodup)
    (h : ∀ k v, d.get? k = some v ↔ v ∈ rows ∧ key v = k) : (d.entries.map Prod.snd).Perm rows := by
  have hentry : ∀ e ∈ d.entries, e.2 ∈ rows ∧ key e.2 = e.1 := fun e he =>
    (h e.1 e.2).mp (get?_eq_some_iff.mpr he)
  have hnodup : (d.entries.map Prod.snd).Nodup := by
    refine d.nodup.of_map.map_on fun e he e' he' hvalue => Prod.ext ?_ hvalue
    rw [← (hentry e he).2, ← (hentry e' he').2, hvalue]
  refine (List.perm_ext_iff_of_nodup hnodup hrows).mpr fun v => ?_
  constructor
  · intro hv
    obtain ⟨e, he, rfl⟩ := List.mem_map.mp hv
    exact (hentry e he).1
  · intro hv
    exact List.mem_map.mpr ⟨(key v, v), get?_eq_some_iff.mp ((h (key v) v).mpr ⟨hv, rfl⟩), rfl⟩

theorem get?_set (d : Dict α β) (k k' : α) (v : β) :
    (d.set k v).get? k' = if k' = k then some v else d.get? k' :=
  find_put k k' v d.entries

@[simp] theorem get?_set_self (d : Dict α β) (k : α) (v : β) : (d.set k v).get? k = some v := by
  rw [get?_set, if_pos rfl]

theorem get?_set_of_ne (d : Dict α β) {k' : α} (v : β) (h : k' ≠ k) :
    (d.set k v).get? k' = d.get? k' := by
  rw [get?_set, if_neg h]

/-- What is found after a change is the new value, or was there before. -/
theorem of_get?_set {k' : α} {v v' : β} (h : (d.set k v).get? k' = some v') :
    (k' = k ∧ v = v') ∨ (k' ≠ k ∧ d.get? k' = some v') := by
  rw [get?_set] at h
  split_ifs at h with hk
  · exact .inl ⟨hk, Option.some.inj h⟩
  · exact .inr ⟨hk, h⟩

theorem get?_erase (d : Dict α β) (k k' : α) :
    (d.erase k).get? k' = if k' = k then none else d.get? k' :=
  find_filter_ne k k' d.entries

theorem get?_filter (p : α → β → Bool) (d : Dict α β) (k : α) :
    (d.filter p).get? k = (d.get? k).filter (p k) := by
  ext v
  rw [get?_eq_some_iff, Option.filter_eq_some_iff, get?_eq_some_iff]
  exact List.mem_filter

/-! Setting a key again, and taking it back. -/

theorem put_put (k : α) (v w : β) (es : List (α × β)) :
    put k w (put k v es) = put k w es := by
  induction es with
  | nil => simp [put]
  | cons e es ih =>
      rw [put, put]
      by_cases he : e.1 = k
      · rw [if_pos he, if_pos he, put, if_pos rfl]
      · rw [if_neg he, if_neg he, put, if_neg he, ih]

theorem put_of_find (h : find k es = some v) : put k v es = es := by
  induction es with
  | nil => cases h
  | cons e es ih =>
      rw [find] at h
      rw [put]
      split at h
      · next he =>
          obtain rfl := Option.some.inj h
          rw [if_pos he, ← he]
      · next he => rw [if_neg he, ih h]

theorem filter_put_of_none (v : β) (h : find k es = none) :
    ((put k v es).filter fun e => e.1 ≠ k) = es := by
  induction es with
  | nil => simp [put]
  | cons e es ih =>
      rw [find] at h
      split at h
      · cases h
      · next he => rw [put, if_neg he, List.filter_cons_of_pos (by simp [he]), ih h]

theorem filter_ne_put {k' : α} (v : β) (es : List (α × β)) (h : k ≠ k') :
    (put k v es).filter (fun e => e.1 ≠ k') = put k v (es.filter fun e => e.1 ≠ k') := by
  induction es with
  | nil => simp [put, h]
  | cons e es ih =>
      rw [put]
      split_ifs with hk
      · have hne : e.1 ≠ k' := hk ▸ h
        rw [List.filter_cons_of_pos (by simpa using h), List.filter_cons_of_pos (by simpa using hne),
          put, if_pos hk]
      · by_cases hk' : e.1 = k'
        · rw [List.filter_cons_of_neg (by simpa using hk'),
            List.filter_cons_of_neg (by simpa using hk'), ih]
        · rw [List.filter_cons_of_pos (by simpa using hk'),
            List.filter_cons_of_pos (by simpa using hk'), put, if_neg hk, ih]

/-- **What a sum over the entries is** after a key was set. -/
theorem sum_put (f : α × β → ℕ) (k : α) (v : β) (h : (es.map Prod.fst).Nodup) :
    ((put k v es).map f).sum = f (k, v) + ((es.filter fun e => e.1 ≠ k).map f).sum := by
  induction es with
  | nil => rfl
  | cons e es ih =>
      rw [List.map_cons, List.nodup_cons] at h
      rw [put]
      split_ifs with hk
      · have hkeep : ∀ a ∈ es, decide (a.1 ≠ k) = true := fun a ha =>
          decide_eq_true fun hak => h.1 (hk.trans hak.symm ▸ List.mem_map_of_mem ha)
        rw [List.filter_cons_of_neg (by simpa using hk), List.filter_eq_self.mpr hkeep,
          List.map_cons, List.sum_cons]
      · rw [List.filter_cons_of_pos (by simpa using hk), List.map_cons, List.map_cons,
          List.sum_cons, List.sum_cons, ih h.2]
        omega

omit [DecidableEq α] in
theorem eq_of_entries {d' : Dict α β} (h : d.entries = d'.entries) : d = d' := by
  cases d
  cases d'
  congr

@[simp] theorem set_set (d : Dict α β) (k : α) (v w : β) : (d.set k v).set k w = d.set k w :=
  eq_of_entries (put_put k v w d.entries)

theorem set_of_get? (h : d.get? k = some v) : d.set k v = d :=
  eq_of_entries (put_of_find h)

/-- A new key that is erased again leaves what was there. -/
theorem erase_set_of_none (v : β) (h : d.get? k = none) : (d.set k v).erase k = d :=
  eq_of_entries (filter_put_of_none v h)

theorem get?_foldl_set (ks : List α) (v : β) (d : Dict α β) (k' : α) :
    (ks.foldl (fun d k => d.set k v) d).get? k' = if k' ∈ ks then some v else d.get? k' := by
  induction ks generalizing d with
  | nil => simp
  | cons k ks ih =>
      rw [List.foldl_cons, ih, get?_set]
      by_cases hmem : k' ∈ ks
      · rw [if_pos hmem, if_pos (List.mem_cons_of_mem _ hmem)]
      · by_cases hk : k' = k
        · rw [if_neg hmem, if_pos hk, if_pos (by rw [hk]; exact List.mem_cons_self)]
        · rw [if_neg hmem, if_neg hk, if_neg (by simp [hk, hmem])]

/-- Setting a key that is there exchanges its value in the count. -/
theorem countP_set_of_get? {old : β} (h : d.get? k = some old) :
    countP p (d.set k v) + (if p (k, old) then 1 else 0)
      = countP p d + if p (k, v) then 1 else 0 :=
  countP_put_of_find h

theorem countP_set_of_none (h : d.get? k = none) :
    countP p (d.set k v) = countP p d + if p (k, v) then 1 else 0 :=
  countP_put_of_none h

theorem countP_erase_le (p : α × β → Bool) (d : Dict α β) (k : α) :
    countP p (d.erase k) ≤ countP p d :=
  List.Sublist.countP_le List.filter_sublist

theorem countP_eq_zero (h : ∀ k v, d.get? k = some v → p (k, v) = false) : countP p d = 0 :=
  List.countP_eq_zero.mpr fun e he => by
    rw [h e.1 e.2 (get?_eq_some_iff.mpr he)]
    exact Bool.false_ne_true

/-! ### Related dictionaries -/

/-- Entries of the same keys with related values. -/
abbrev RelEntries (R : α → β → γ → Prop) : List (α × β) → List (α × γ) → Prop :=
  List.Forall₂ fun e e' => e'.1 = e.1 ∧ R e.1 e.2 e'.2

/-- Dictionaries of the same keys with related values. -/
def Rel (R : α → β → γ → Prop) (d : Dict α β) (d' : Dict α γ) : Prop :=
  RelEntries R d.entries d'.entries

omit [DecidableEq α] in
theorem map_fst_of_relEntries (h : RelEntries R es es') : es'.map Prod.fst = es.map Prod.fst := by
  induction h with
  | nil => rfl
  | cons hhead _ ih => rw [List.map_cons, List.map_cons, hhead.1, ih]

omit [DecidableEq α] in
theorem relEntries_of_traverseEntries {i : ℕ} (h : traverseEntries f es i = .ok es') :
    RelEntries (fun k v w => ∃ i, f k v i = .ok w) es es' := by
  induction es generalizing i es' with
  | nil =>
      obtain rfl := Except.ok.inj h
      exact .nil
  | cons e es ih =>
      rw [traverseEntries] at h
      split at h
      · cases h
      · next v hv =>
          split at h
          · cases h
          · next rest hrest =>
              obtain rfl := Except.ok.inj h
              exact .cons ⟨rfl, i, hv⟩ (ih hrest)

/-- The dictionary with every value changed by code that may raise. -/
def traverse (d : Dict α β) (f : α → β → ℕ → Except ε γ) : Except ε (Dict α γ) :=
  match h : traverseEntries f d.entries 0 with
  | .error error => .error error
  | .ok es => .ok ⟨es, by
      rw [map_fst_of_relEntries (relEntries_of_traverseEntries h)]
      exact d.nodup⟩

omit [DecidableEq α] in
/-- **What a traversal returns.** -/
theorem rel_of_traverse (h : d.traverse f = .ok d') :
    Rel (fun k v w => ∃ i, f k v i = .ok w) d d' := by
  rw [traverse] at h
  split at h
  · cases h
  · next es hes =>
      obtain rfl := Except.ok.inj h
      exact relEntries_of_traverseEntries hes

omit [DecidableEq α] in
theorem traverseEntries_again {γ' : Type} {g : α → γ → ℕ → Except ε γ'} {r : γ → γ'} {i : ℕ}
    (hg : ∀ e ∈ es, ∀ i w, f e.1 e.2 i = .ok w → g e.1 w i = .ok (r w))
    (h : traverseEntries f es i = .ok es') :
    traverseEntries g es' i = .ok (es'.map fun e => (e.1, r e.2)) := by
  induction es generalizing i es' with
  | nil =>
      obtain rfl := Except.ok.inj h
      rfl
  | cons e es ih =>
      rw [traverseEntries] at h
      split at h
      · cases h
      · next v hv =>
          split at h
          · cases h
          · next rest hrest =>
              obtain rfl := Except.ok.inj h
              have htail := ih (fun e he => hg e (List.mem_cons_of_mem _ he)) hrest
              rw [traverseEntries]
              simp only [hg e List.mem_cons_self _ _ hv, htail, List.map_cons]

/-- **A second traversal** of what a first one returned. -/
theorem traverse_again {γ' : Type} {g : α → γ → ℕ → Except ε γ'} {r : γ → γ'}
    (hg : ∀ k v, d.get? k = some v → ∀ i w, f k v i = .ok w → g k w i = .ok (r w))
    (h : d.traverse f = .ok d') : d'.traverse g = .ok (d'.mapValues fun _ w => r w) := by
  have hentries : traverseEntries f d.entries 0 = .ok d'.entries := by
    rw [traverse] at h
    split at h
    · cases h
    · next es hes =>
        obtain rfl := Except.ok.inj h
        exact hes
  have hagain := traverseEntries_again
    (fun e he => hg e.1 e.2 (get?_eq_some_iff.mpr he)) hentries
  rw [traverse]
  split
  · next error herror => exact nomatch herror.symm.trans hagain
  · next es hes =>
      obtain rfl := Except.ok.inj (hes.symm.trans hagain)
      rfl

omit [DecidableEq α] in
theorem mapValues_id (d : Dict α β) : (d.mapValues fun _ v => v) = d := by
  cases d
  simp [mapValues]

/-- What a traversal returned is stable under a traversal that changes none of it. -/
theorem traverse_stable {g : α → γ → ℕ → Except ε γ}
    (hg : ∀ k v i w, f k v i = .ok w → g k w i = .ok w) (h : d.traverse f = .ok d') :
    d'.traverse g = .ok d' := by
  have hagain := traverse_again (r := fun w => w) (fun k v _ => hg k v) h
  rwa [mapValues_id] at hagain

omit [DecidableEq α] in
theorem relEntries_map (f : α → β → γ) (es : List (α × β)) :
    RelEntries (fun k v w => w = f k v) es (es.map fun e => (e.1, f e.1 e.2)) := by
  induction es with
  | nil => exact .nil
  | cons e es ih => exact .cons ⟨rfl, rfl⟩ ih

omit [DecidableEq α] in
theorem rel_mapValues (d : Dict α β) (f : α → β → γ) :
    Rel (fun k v w => w = f k v) d (d.mapValues f) :=
  relEntries_map f d.entries

omit [DecidableEq α] in
theorem Rel.eq {d' : Dict α β} (h : Rel (fun _ v w => w = v) d d') : d' = d := by
  have hentries : d'.entries = d.entries := by
    rw [Rel] at h
    refine (List.forall₂_eq_eq_eq ▸ h.imp fun e e' hee => ?_ : d.entries = d'.entries).symm
    exact Prod.ext hee.1.symm hee.2.symm
  cases d
  cases d'
  congr

theorem find_relEntries (h : RelEntries R es es') (k : α) : (find k es = none ∧ find k es' = none) ∨
      ∃ v w, find k es = some v ∧ find k es' = some w ∧ R k v w := by
  induction h with
  | nil => exact .inl ⟨rfl, rfl⟩
  | @cons e e' es es' hhead _ ih =>
      rw [find, find, hhead.1]
      by_cases he : e.1 = k
      · rw [if_pos he, if_pos he]
        exact .inr ⟨e.2, e'.2, rfl, rfl, he ▸ hhead.2⟩
      · rw [if_neg he, if_neg he]
        exact ih

/-- **Lookups in related dictionaries**: both find nothing, or both find related values. -/
theorem Rel.get? (h : Rel R d d') (k : α) :
    (d.get? k = none ∧ d'.get? k = none) ∨
      ∃ v w, d.get? k = some v ∧ d'.get? k = some w ∧ R k v w :=
  find_relEntries h k

theorem Rel.get?_right (h : Rel R d d') {w : γ} (hw : d'.get? k = some w) :
    ∃ v, d.get? k = some v ∧ R k v w := by
  rcases h.get? k with ⟨-, hnone⟩ | ⟨v, w', hv, hw', hR⟩
  · rw [hnone] at hw
    cases hw
  · obtain rfl := Option.some.inj (hw'.symm.trans hw)
    exact ⟨v, hv, hR⟩

theorem Rel.get?_left (h : Rel R d d') (hv : d.get? k = some v) :
    ∃ w, d'.get? k = some w ∧ R k v w := by
  rcases h.get? k with ⟨hnone, -⟩ | ⟨v', w, hv', hw, hR⟩
  · rw [hnone] at hv
    cases hv
  · obtain rfl := Option.some.inj (hv'.symm.trans hv)
    exact ⟨w, hw, hR⟩

omit [DecidableEq α] in
theorem countP_relEntries_le (h : RelEntries R es es')
    (hpq : ∀ k v w, R k v w → q (k, w) = true → p (k, v) = true) : es'.countP q ≤ es.countP p := by
  induction h with
  | nil => exact Nat.le_refl _
  | @cons e e' es es' hhead _ ih =>
      have himp : q e' = true → p e = true := by
        intro hq
        refine hpq e.1 e.2 e'.2 hhead.2 ?_
        rw [← hhead.1]
        exact hq
      rw [List.countP_cons, List.countP_cons]
      split
      · next hq =>
          rw [if_pos (himp hq)]
          omega
      · omega

omit [DecidableEq α] in
theorem countP_relEntries (h : RelEntries R es es') (hpq : ∀ k v w, R k v w → q (k, w) = p (k, v)) :
    es'.countP q = es.countP p := by
  induction h with
  | nil => rfl
  | @cons e e' es es' hhead _ ih =>
      have heq : q e' = p e := by
        have he : e' = (e.1, e'.2) := Prod.ext hhead.1 rfl
        rw [he]
        exact hpq e.1 e.2 e'.2 hhead.2
      rw [List.countP_cons, List.countP_cons, ih, heq]

omit [DecidableEq α] in
/-- **Counts in related dictionaries.** -/
theorem Rel.countP (h : Rel R d d') (hpq : ∀ k v w, R k v w → q (k, w) = p (k, v)) :
    Dict.countP q d' = Dict.countP p d :=
  countP_relEntries h hpq

omit [DecidableEq α] in
/-- Counts in related dictionaries, when the property can only be lost. -/
theorem Rel.countP_le (h : Rel R d d')
    (hpq : ∀ k v w, R k v w → q (k, w) = true → p (k, v) = true) :
    Dict.countP q d' ≤ Dict.countP p d :=
  countP_relEntries_le h hpq

end Dict
