import Mathlib.Data.List.Sort
import Mathlib.Data.String.Basic

/-!
# JSON Trees

JSON values as trees whose objects are lists of fields in text order, so that a tree can
also carry what only the text has: the order of the fields and repeated names. Doubles
are named by the shortest decimal text they print as, which determines them.

Three classes of trees matter to a program that stores JSON:

* `UniqueKeys` — no object repeats a name; such a tree is a dictionary value.
* `Finite` — no double is infinite or not a number.
* `Canonical` — finite, and every object lists its names in strictly increasing order.
  A canonical tree is the normal form of a dictionary value: two dictionaries are equal
  exactly when their canonical trees are.

`sortKeys` computes the normal form. It is the identity on canonical trees
(`sortKeys_of_canonical`) and produces a canonical tree from every finite tree without
repeated names (`canonical_sortKeys`). `dumps` is the compact text of a tree.
-/

/-- A double, named by the decimal text it prints as. -/
structure FloatText where
  /-- The shortest text that reads back as the double. -/
  text : String
  deriving DecidableEq, Repr

/-- The characters a number literal is made of. -/
def isNumberChar (c : Char) : Bool :=
  c.isDigit || c == '-' || c == '+' || c == '.' || c == 'e'

/-- Whether the text is that of a finite double: a number literal with a fraction or an
exponent, never `nan` or `inf`. -/
def FloatText.finite (f : FloatText) : Bool :=
  match f.text.toList with
  | [] => false
  | c :: cs => (c == '-' || c.isDigit) && (c :: cs).all isNumberChar &&
      cs.any fun d => d == '.' || d == 'e'

/-- A JSON tree. -/
inductive Json where
  | null
  | bool (b : Bool)
  | int (n : ℤ)
  | float (f : FloatText)
  | str (s : String)
  | arr (items : List Json)
  | obj (fields : List (String × Json))
  deriving Repr

namespace Json

/-! ### Equality -/

mutual

/-- Equality of trees is decidable. -/
def decEq : (a b : Json) → Decidable (a = b)
  | .null, .null => isTrue rfl
  | .bool a, .bool b => if h : a = b then isTrue (by rw [h]) else isFalse (by simp [h])
  | .int a, .int b => if h : a = b then isTrue (by rw [h]) else isFalse (by simp [h])
  | .float a, .float b => if h : a = b then isTrue (by rw [h]) else isFalse (by simp [h])
  | .str a, .str b => if h : a = b then isTrue (by rw [h]) else isFalse (by simp [h])
  | .arr a, .arr b =>
      match decEqItems a b with
      | isTrue h => isTrue (by rw [h])
      | isFalse h => isFalse (by simp [h])
  | .obj a, .obj b =>
      match decEqFields a b with
      | isTrue h => isTrue (by rw [h])
      | isFalse h => isFalse (by simp [h])
  | .null, .bool _ | .null, .int _ | .null, .float _ | .null, .str _ | .null, .arr _
  | .null, .obj _ | .bool _, .null | .bool _, .int _ | .bool _, .float _ | .bool _, .str _
  | .bool _, .arr _ | .bool _, .obj _ | .int _, .null | .int _, .bool _ | .int _, .float _
  | .int _, .str _ | .int _, .arr _ | .int _, .obj _ | .float _, .null | .float _, .bool _
  | .float _, .int _ | .float _, .str _ | .float _, .arr _ | .float _, .obj _
  | .str _, .null | .str _, .bool _ | .str _, .int _ | .str _, .float _ | .str _, .arr _
  | .str _, .obj _ | .arr _, .null | .arr _, .bool _ | .arr _, .int _ | .arr _, .float _
  | .arr _, .str _ | .arr _, .obj _ | .obj _, .null | .obj _, .bool _ | .obj _, .int _
  | .obj _, .float _ | .obj _, .str _ | .obj _, .arr _ => isFalse (by simp)

/-- Equality of array items is decidable. -/
def decEqItems : (a b : List Json) → Decidable (a = b)
  | [], [] => isTrue rfl
  | a :: as, b :: bs =>
      match decEq a b, decEqItems as bs with
      | isTrue h, isTrue hs => isTrue (by rw [h, hs])
      | isFalse h, _ => isFalse (by simp [h])
      | _, isFalse hs => isFalse (by simp [hs])
  | [], _ :: _ | _ :: _, [] => isFalse (by simp)

/-- Equality of object fields is decidable. -/
def decEqFields : (a b : List (String × Json)) → Decidable (a = b)
  | [], [] => isTrue rfl
  | (k, a) :: as, (l, b) :: bs =>
      match decEq a b, decEqFields as bs with
      | isTrue h, isTrue hs =>
          if hk : k = l then isTrue (by rw [h, hs, hk]) else isFalse (by simp [hk])
      | isFalse h, _ => isFalse (by simp [h])
      | _, isFalse hs => isFalse (by simp [hs])
  | [], _ :: _ | _ :: _, [] => isFalse (by simp)

end

instance : DecidableEq Json := decEq

/-! ### Lookup -/

/-- The value of the first field of that name; `none` on a missing name and on every tree
that is not an object. -/
def get? (j : Json) (key : String) : Option Json :=
  match j with
  | .obj fields => fields.lookup key
  | _ => none

/-- The names of the fields, in order. -/
def keys (fields : List (String × Json)) : List String :=
  fields.map Prod.fst

@[simp] theorem keys_nil : keys [] = [] := rfl

@[simp] theorem keys_cons (f : String × Json) (fields : List (String × Json)) :
    keys (f :: fields) = f.1 :: keys fields := rfl

/-! ### Classes of trees -/

section All

variable (p : FloatText → Bool) (q : List String → Bool)

mutual

/-- Whether every double of the tree satisfies `p` and the names of every object satisfy
`q`. -/
def all : Json → Bool
  | .null | .bool _ | .int _ | .str _ => true
  | .float f => p f
  | .arr items => allItems items
  | .obj fields => q (keys fields) && allFields fields

/-- `all` of every item. -/
def allItems : List Json → Bool
  | [] => true
  | j :: rest => all j && allItems rest

/-- `all` of the value of every field. -/
def allFields : List (String × Json) → Bool
  | [] => true
  | (_, j) :: rest => all j && allFields rest

end

end All

/-- No object of the tree repeats a name. -/
def UniqueKeys (j : Json) : Prop :=
  j.all (fun _ => true) (fun ks => decide ks.Nodup) = true

/-- Every double of the tree is finite. -/
def Finite (j : Json) : Prop :=
  j.all FloatText.finite (fun _ => true) = true

/-- Every double is finite, and every object lists its names in strictly increasing
order. -/
def Canonical (j : Json) : Prop :=
  j.all FloatText.finite (fun ks => decide (ks.Pairwise (· < ·))) = true

instance (j : Json) : Decidable j.UniqueKeys := inferInstanceAs (Decidable (_ = _))

instance (j : Json) : Decidable j.Finite := inferInstanceAs (Decidable (_ = _))

instance (j : Json) : Decidable j.Canonical := inferInstanceAs (Decidable (_ = _))

section All

variable {p p' : FloatText → Bool} {q q' : List String → Bool}

mutual

theorem all_mono (hp : ∀ f, p f = true → p' f = true) (hq : ∀ ks, q ks = true → q' ks = true) :
    ∀ j : Json, j.all p q = true → j.all p' q' = true
  | .null, _ | .bool _, _ | .int _, _ | .str _, _ => by simp [all]
  | .float f, h => by simpa [all] using hp f (by simpa [all] using h)
  | .arr items, h => by
      simpa [all] using allItems_mono hp hq items (by simpa [all] using h)
  | .obj fields, h => by
      simp only [all, Bool.and_eq_true] at h ⊢
      exact ⟨hq _ h.1, allFields_mono hp hq fields h.2⟩

theorem allItems_mono (hp : ∀ f, p f = true → p' f = true)
    (hq : ∀ ks, q ks = true → q' ks = true) :
    ∀ items : List Json, allItems p q items = true → allItems p' q' items = true
  | [], _ => rfl
  | j :: rest, h => by
      simp only [allItems, Bool.and_eq_true] at h ⊢
      exact ⟨all_mono hp hq j h.1, allItems_mono hp hq rest h.2⟩

theorem allFields_mono (hp : ∀ f, p f = true → p' f = true)
    (hq : ∀ ks, q ks = true → q' ks = true) :
    ∀ fields : List (String × Json), allFields p q fields = true →
      allFields p' q' fields = true
  | [], _ => rfl
  | (_, j) :: rest, h => by
      simp only [allFields, Bool.and_eq_true] at h ⊢
      exact ⟨all_mono hp hq j h.1, allFields_mono hp hq rest h.2⟩

end

theorem allFields_eq_true_iff {fields : List (String × Json)} :
    allFields p q fields = true ↔ ∀ f ∈ fields, f.2.all p q = true := by
  induction fields with
  | nil => simp [allFields]
  | cons f rest ih =>
      obtain ⟨k, j⟩ := f
      simp only [allFields, Bool.and_eq_true, ih, List.forall_mem_cons]

theorem allItems_eq_true_iff {items : List Json} :
    allItems p q items = true ↔ ∀ j ∈ items, j.all p q = true := by
  induction items with
  | nil => simp [allItems]
  | cons j rest ih => simp only [allItems, Bool.and_eq_true, ih, List.forall_mem_cons]

end All

theorem Canonical.finite {j : Json} (h : j.Canonical) : j.Finite :=
  all_mono (fun _ hf => hf) (fun _ _ => rfl) j h

theorem Canonical.uniqueKeys {j : Json} (h : j.Canonical) : j.UniqueKeys := by
  refine all_mono (fun _ _ => rfl) (fun ks hks => ?_) j h
  rw [decide_eq_true_iff] at hks ⊢
  exact hks.imp fun hlt => ne_of_lt hlt

@[simp] theorem canonical_null : (null : Json).Canonical := rfl

@[simp] theorem canonical_bool (b : Bool) : (bool b).Canonical := rfl

@[simp] theorem canonical_int (n : ℤ) : (int n).Canonical := rfl

@[simp] theorem canonical_str (s : String) : (str s).Canonical := rfl

theorem canonical_arr {items : List Json} :
    (arr items).Canonical ↔ ∀ j ∈ items, j.Canonical := by
  simp only [Canonical, all, allItems_eq_true_iff]

variable {fields : List (String × Json)}

/-- An object is canonical when its names increase and its values are canonical. -/
theorem canonical_obj :
    (obj fields).Canonical ↔
      (keys fields).Pairwise (· < ·) ∧ ∀ f ∈ fields, f.2.Canonical := by
  simp only [Canonical, all, Bool.and_eq_true, decide_eq_true_iff, allFields_eq_true_iff]

/-! ### The normal form -/

/-- The order objects list their fields in: by name. -/
def fieldLe (a b : String × Json) : Prop :=
  a.1 ≤ b.1

instance : DecidableRel fieldLe := fun a b => inferInstanceAs (Decidable (a.1 ≤ b.1))

instance : Std.Total fieldLe := ⟨fun a b => le_total a.1 b.1⟩

instance : IsTrans (String × Json) fieldLe := ⟨fun _ _ _ => le_trans⟩

mutual

/-- The tree with the fields of every object sorted by name. -/
def sortKeys : Json → Json
  | .arr items => .arr (sortItems items)
  | .obj fields => .obj ((sortFields fields).insertionSort fieldLe)
  | .null => .null
  | .bool b => .bool b
  | .int n => .int n
  | .float f => .float f
  | .str s => .str s

/-- `sortKeys` of every item. -/
def sortItems : List Json → List Json
  | [] => []
  | j :: rest => sortKeys j :: sortItems rest

/-- `sortKeys` of the value of every field. -/
def sortFields : List (String × Json) → List (String × Json)
  | [] => []
  | (k, j) :: rest => (k, sortKeys j) :: sortFields rest

end

@[simp] theorem keys_sortFields (fields : List (String × Json)) :
    keys (sortFields fields) = keys fields := by
  induction fields with
  | nil => rfl
  | cons f rest ih =>
      obtain ⟨k, j⟩ := f
      simp [sortFields, ih]

theorem pairwise_fieldLe_of_keys (h : (keys fields).Pairwise (· < ·)) : fields.Pairwise fieldLe :=
  (List.pairwise_map.mp h).imp fun hlt => le_of_lt hlt

mutual

/-- **Canonical trees are their own normal form.** -/
theorem sortKeys_of_canonical : ∀ j : Json, j.Canonical → j.sortKeys = j
  | .null, _ | .bool _, _ | .int _, _ | .float _, _ | .str _, _ => rfl
  | .arr items, h => by
      rw [sortKeys, sortItems_of_canonical items (canonical_arr.mp h)]
  | .obj fields, h => by
      obtain ⟨hkeys, hvals⟩ := canonical_obj.mp h
      rw [sortKeys, sortFields_of_canonical fields hvals,
        (pairwise_fieldLe_of_keys hkeys).insertionSort_eq]

theorem sortItems_of_canonical :
    ∀ items : List Json, (∀ j ∈ items, j.Canonical) → sortItems items = items
  | [], _ => rfl
  | j :: rest, h => by
      rw [List.forall_mem_cons] at h
      rw [sortItems, sortKeys_of_canonical j h.1, sortItems_of_canonical rest h.2]

theorem sortFields_of_canonical :
    ∀ fields : List (String × Json), (∀ f ∈ fields, f.2.Canonical) →
      sortFields fields = fields
  | [], _ => rfl
  | (k, j) :: rest, h => by
      rw [List.forall_mem_cons] at h
      rw [sortFields, sortKeys_of_canonical j h.1, sortFields_of_canonical rest h.2]

end

/-- Sorting fields whose names are all different makes the names strictly increasing. -/
theorem keys_insertionSort_pairwise (h : (keys fields).Nodup) :
    (keys (fields.insertionSort fieldLe)).Pairwise (· < ·) := by
  have hperm : (keys (fields.insertionSort fieldLe)).Perm (keys fields) :=
    (List.perm_insertionSort fieldLe fields).map Prod.fst
  have hnodup : (keys (fields.insertionSort fieldLe)).Pairwise (· ≠ ·) :=
    hperm.nodup_iff.mpr h
  have hle : (keys (fields.insertionSort fieldLe)).Pairwise (· ≤ ·) :=
    List.pairwise_map.mpr (List.pairwise_insertionSort fieldLe fields)
  exact (hle.and hnodup).imp fun h => lt_of_le_of_ne h.1 h.2

mutual

/-- **The normal form is canonical**: sorting a finite tree without repeated names gives
a canonical tree. -/
theorem canonical_sortKeys : ∀ j : Json, j.Finite → j.UniqueKeys → j.sortKeys.Canonical
  | .null, _, _ | .bool _, _, _ | .int _, _, _ | .str _, _, _ => rfl
  | .float f, hf, _ => hf
  | .arr items, hf, hu => by
      rw [sortKeys, canonical_arr]
      simp only [Finite, UniqueKeys, all, allItems_eq_true_iff] at hf hu
      exact canonical_sortItems items hf hu
  | .obj fields, hf, hu => by
      simp only [Finite, UniqueKeys, all, Bool.true_and, Bool.and_eq_true,
        decide_eq_true_iff, allFields_eq_true_iff] at hf hu
      have hvals := canonical_sortFields fields hf hu.2
      rw [sortKeys, canonical_obj]
      refine ⟨keys_insertionSort_pairwise (by rw [keys_sortFields]; exact hu.1), ?_⟩
      intro f hmem
      exact hvals f ((List.mem_insertionSort fieldLe).mp hmem)

theorem canonical_sortItems :
    ∀ items : List Json, (∀ j ∈ items, j.Finite) → (∀ j ∈ items, j.UniqueKeys) →
      ∀ j ∈ sortItems items, j.Canonical
  | [], _, _, _, hmem => by simp [sortItems] at hmem
  | j :: rest, hf, hu, x, hmem => by
      rw [List.forall_mem_cons] at hf hu
      rw [sortItems, List.mem_cons] at hmem
      rcases hmem with rfl | hmem
      · exact canonical_sortKeys j hf.1 hu.1
      · exact canonical_sortItems rest hf.2 hu.2 x hmem

theorem canonical_sortFields :
    ∀ fields : List (String × Json), (∀ f ∈ fields, f.2.Finite) →
      (∀ f ∈ fields, f.2.UniqueKeys) → ∀ f ∈ sortFields fields, f.2.Canonical
  | [], _, _, _, hmem => by simp [sortFields] at hmem
  | (k, j) :: rest, hf, hu, x, hmem => by
      rw [List.forall_mem_cons] at hf hu
      rw [sortFields, List.mem_cons] at hmem
      rcases hmem with rfl | hmem
      · exact canonical_sortKeys j hf.1 hu.1
      · exact canonical_sortFields rest hf.2 hu.2 x hmem

end

theorem sortItems_eq_map (items : List Json) : sortItems items = items.map sortKeys := by
  induction items with
  | nil => rfl
  | cons j rest ih => rw [sortItems, ih, List.map_cons]

/-! ### Repeated names -/

/-- The first name of the list that `seen` or an earlier position has. -/
def firstRepeat (seen : List String) : List String → Option String
  | [] => none
  | k :: ks => if k ∈ seen then some k else firstRepeat (k :: seen) ks

/-- Nothing repeats exactly when the names are different from each other and from those
seen before. -/
theorem firstRepeat_eq_none_iff {seen ks : List String} :
    firstRepeat seen ks = none ↔ ks.Nodup ∧ ∀ k ∈ ks, k ∉ seen := by
  induction ks generalizing seen with
  | nil => simp [firstRepeat]
  | cons k ks ih =>
      by_cases hk : k ∈ seen
      · simp [firstRepeat, hk]
      · rw [firstRepeat, if_neg hk, ih, List.nodup_cons, List.forall_mem_cons]
        simp only [List.mem_cons, not_or]
        constructor
        · rintro ⟨hnodup, hdiff⟩
          exact ⟨⟨fun hmem => (hdiff k hmem).1 rfl, hnodup⟩, hk, fun x hx => (hdiff x hx).2⟩
        · rintro ⟨⟨hnot, hnodup⟩, -, hdiff⟩
          exact ⟨hnodup, fun x hx => ⟨fun hxk => hnot (hxk ▸ hx), hdiff x hx⟩⟩

mutual

/-- The name a reader that checks every object as soon as it is complete reports as
repeated: the objects inside first, in text order. -/
def repeatedKey : Json → Option String
  | .arr items => repeatedItem items
  | .obj fields => (repeatedField fields).or (firstRepeat [] (keys fields))
  | .null | .bool _ | .int _ | .float _ | .str _ => none

/-- The first repeated name inside the items. -/
def repeatedItem : List Json → Option String
  | [] => none
  | j :: rest => (repeatedKey j).or (repeatedItem rest)

/-- The first repeated name inside the values of the fields. -/
def repeatedField : List (String × Json) → Option String
  | [] => none
  | (_, j) :: rest => (repeatedKey j).or (repeatedField rest)

end

mutual

/-- A reader reports no repeated name exactly on trees without one. -/
theorem repeatedKey_eq_none_iff : ∀ j : Json, j.repeatedKey = none ↔ j.UniqueKeys
  | .null | .bool _ | .int _ | .float _ | .str _ => by simp [repeatedKey, UniqueKeys, all]
  | .arr items => by
      simp only [repeatedKey, UniqueKeys, all, allItems_eq_true_iff]
      exact repeatedItem_eq_none_iff items
  | .obj fields => by
      have hown : firstRepeat [] (keys fields) = none ↔ (keys fields).Nodup := by
        simp [firstRepeat_eq_none_iff]
      simp only [UniqueKeys, all, Bool.and_eq_true, decide_eq_true_iff, allFields_eq_true_iff]
      rw [repeatedKey, Option.or_eq_none_iff, hown, repeatedField_eq_none_iff fields, and_comm]
      rfl

/-- No item has a repeated name exactly when each of them is without one. -/
theorem repeatedItem_eq_none_iff :
    ∀ items : List Json, repeatedItem items = none ↔ ∀ j ∈ items, j.UniqueKeys
  | [] => by simp [repeatedItem]
  | j :: rest => by
      rw [repeatedItem, Option.or_eq_none_iff, repeatedKey_eq_none_iff j,
        repeatedItem_eq_none_iff rest, List.forall_mem_cons]

/-- No value has a repeated name exactly when each of them is without one. -/
theorem repeatedField_eq_none_iff :
    ∀ fields : List (String × Json),
      repeatedField fields = none ↔ ∀ f ∈ fields, f.2.UniqueKeys
  | [] => by simp [repeatedField]
  | (k, j) :: rest => by
      rw [repeatedField, Option.or_eq_none_iff, repeatedKey_eq_none_iff j,
        repeatedField_eq_none_iff rest, List.forall_mem_cons]

end

/-! ### The compact text -/

/-- One lower-case hexadecimal digit. -/
def hexDigit (n : ℕ) : Char :=
  if n < 10 then Char.ofNat (48 + n) else Char.ofNat (87 + n)

/-- A character inside a string literal: the quote, the backslash and the control
characters are escaped, everything else stands for itself. -/
def escapeChar (c : Char) : List Char :=
  if c = '"' then ['\\', '"']
  else if c = '\\' then ['\\', '\\']
  else if c = '\n' then ['\\', 'n']
  else if c = '\r' then ['\\', 'r']
  else if c = '\t' then ['\\', 't']
  else if c = Char.ofNat 8 then ['\\', 'b']
  else if c = Char.ofNat 12 then ['\\', 'f']
  else if c.toNat < 32 then
    ['\\', 'u', '0', '0', hexDigit (c.toNat / 16), hexDigit (c.toNat % 16)]
  else [c]

/-- The body of a string literal and its closing quote. -/
def stringTail : List Char → List Char
  | [] => ['"']
  | c :: cs => escapeChar c ++ stringTail cs

/-- A string literal. -/
def stringChars (s : String) : List Char :=
  '"' :: stringTail s.toList

mutual

/-- The compact text of a tree, with the fields in the order of the tree. -/
def chars : Json → List Char
  | .null => "null".toList
  | .bool true => "true".toList
  | .bool false => "false".toList
  | .int n => (toString n).toList
  | .float f => f.text.toList
  | .str s => stringChars s
  | .arr [] => ['[', ']']
  | .arr (j :: rest) => '[' :: (chars j ++ itemsTail rest)
  | .obj [] => ['{', '}']
  | .obj ((k, j) :: rest) => '{' :: (stringChars k ++ ':' :: (chars j ++ fieldsTail rest))

/-- The remaining items of an array and its closing bracket. -/
def itemsTail : List Json → List Char
  | [] => [']']
  | j :: rest => ',' :: (chars j ++ itemsTail rest)

/-- The remaining fields of an object and its closing brace. -/
def fieldsTail : List (String × Json) → List Char
  | [] => ['}']
  | (k, j) :: rest => ',' :: (stringChars k ++ ':' :: (chars j ++ fieldsTail rest))

end

/-- The compact text of a tree. -/
def dumps (j : Json) : String :=
  String.ofList j.chars

end Json
