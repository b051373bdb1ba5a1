import Mathlib.Algebra.Order.Ring.Unbundled.Rat
import Mathlib.Logic.Relation
import Kirakira.Lib.Exceptions
import Kirakira.Lib.Json

/-!
# Tool Parameters

`validate_tool_parameters` of `plugins/tools/contract.py`, which checks the parameters of a call
against the JSON Schema of its tool. A schema is what JSON Schema allows; a keyword has its own
type. The walk goes down through `properties`, `additionalProperties` and `items`.

* `num` is the number that a double stands for, and `str` is `str` of a value.
* A node whose type the walk does not know, or that has none, is checked for `enum` only, and the
  nodes below it are not visited.

## Main results

* `told_validate` — what the walk returns, and where it raises.
* `validates_iff` — **when its answer can be trusted**.
-/

namespace Kirakira.Tools.Parameters

open Exceptions Relation

/-! ### Schemas -/

/-- A type of JSON Schema. -/
inductive SchemaType where
  | string
  | integer
  | number
  | boolean
  | array
  | object
  | null
  deriving DecidableEq, Repr

/-- The name of a type. -/
def SchemaType.text : SchemaType → String
  | .string => "string"
  | .integer => "integer"
  | .number => "number"
  | .boolean => "boolean"
  | .array => "array"
  | .object => "object"
  | .null => "null"

/-- The keyword `type`. -/
inductive TypeKeyword where
  | single (type : SchemaType)
  | several (types : List SchemaType)
  deriving DecidableEq, Repr

/-- `repr` of the keyword. -/
def TypeKeyword.repr : TypeKeyword → String
  | .single type => "'" ++ type.text ++ "'"
  | .several types =>
      "[" ++ ", ".intercalate (types.map fun type => "'" ++ type.text ++ "'") ++ "]"

/-- A number. -/
inductive Number where
  | int (n : ℤ)
  | float (f : FloatText)
  deriving DecidableEq, Repr

/-- The keywords that are read. -/
structure Keywords (S : Type) where
  type : Option TypeKeyword := none
  enum : Option (List Json) := none
  minimum : Option Number := none
  maximum : Option Number := none
  minLength : Option Number := none
  maxLength : Option Number := none
  required : List String := []
  properties : List (String × S) := []
  additionalProperties : Option S := none
  items : Option S := none

/-- A schema; `items` may also be a list of them. -/
inductive Schema where
  | bool (b : Bool)
  | list (schemas : List Schema)
  | object (keywords : Keywords Schema)

/-- The number as a value. -/
def Number.json : Number → Json
  | .int n => .int n
  | .float f => .float f

/-- The schema of the field of an object, if the walk has one for it. -/
def Keywords.member (k : Keywords Schema) (key : String) : Option Schema :=
  match k.properties.lookup key with
  | some schema => some schema
  | none =>
      match k.additionalProperties with
      | some (.object keywords) => some (.object keywords)
      | _ => none

/-- `{**active_schema, "type": "object"}`. -/
def Keywords.active (k : Keywords Schema) : Keywords Schema :=
  { k with type := some (.single .object) }

/-- A type that the walk does not know, or none. -/
def Keywords.untyped (k : Keywords Schema) : Prop :=
  k.type = none ∨ k.type = some (.single .null)

/-- Whether a field is not allowed. -/
def Keywords.forbids (k : Keywords Schema) (key : String) : Prop :=
  k.properties.lookup key = none ∧ k.additionalProperties = some (.bool false)

/-! ### Values -/

section Values

variable (num : FloatText → ℚ)

/-- The value of a number. -/
def Number.value : Number → ℚ
  | .int n => n
  | .float f => num f

/-- The number that a value is; a boolean is one where `booleans` says so. -/
def number? (booleans : Bool) : Json → Option ℚ
  | .int n => some n
  | .float f => some (num f)
  | .bool b => if booleans then some (if b then 1 else 0) else none
  | _ => none

mutual

/-- Equality of values: that of Python where booleans are numbers, that of JSON where not. -/
def equal (booleans : Bool) : Json → Json → Bool
  | .null, .null => true
  | .bool a, .bool b => a == b
  | .str a, .str b => a == b
  | .arr a, .arr b => equalItems booleans a b
  | .obj a, .obj b => a.length == b.length && equalFields booleans a b
  | a, b =>
      match number? num booleans a, number? num booleans b with
      | some x, some y => x == y
      | _, _ => false

/-- Equality of lists. -/
def equalItems (booleans : Bool) : List Json → List Json → Bool
  | [], [] => true
  | a :: as, b :: bs => equal booleans a b && equalItems booleans as bs
  | _, _ => false

/-- Whether the fields are among others. -/
def equalFields (booleans : Bool) : List (String × Json) → List (String × Json) → Bool
  | [], _ => true
  | (key, a) :: as, bs =>
      (match bs.lookup key with
        | some b => equal booleans a b
        | none => false) && equalFields booleans as bs

end

/-- `_TOOL_TYPE_MAP`, with the rule that a boolean is not a number. -/
def toolType : SchemaType → Option (Json → Bool)
  | .string => some fun | .str _ => true | _ => false
  | .integer => some fun | .int _ => true | _ => false
  | .number => some fun | .int _ | .float _ => true | _ => false
  | .boolean => some fun | .bool _ => true | _ => false
  | .array => some fun | .arr _ => true | _ => false
  | .object => some fun | .obj _ => true | _ => false
  | .null => none

/-! ### The walk -/

variable (str : Json → String)

/-- `path or "参数"`. -/
def label (path : String) : String :=
  if path = "" then "参数" else path

/-- The path of a field. -/
def fieldPath (path key : String) : String :=
  if path = "" then key else path ++ "." ++ key

/-- The bounds of a number that are broken. -/
def boundErrors (x : ℚ) (low high : Option Number) (lowText highText : String → String) :
    List String :=
  (low.toList.filter fun b => x < b.value num).map (fun b => lowText (str b.json)) ++
    (high.toList.filter fun b => b.value num < x).map (fun b => highText (str b.json))

/-- What is found at a value whose type was checked. -/
def keywordErrors (value : Json) (k : Keywords Schema) (path : String) : List String :=
  let number x := boundErrors num str x k.minimum k.maximum (label path ++ " 须 >= " ++ ·)
    (label path ++ " 须 <= " ++ ·)
  match value with
  | .int n => number n
  | .float f => number (num f)
  | .str s => boundErrors num str s.length k.minLength k.maxLength
      (label path ++ " 最短 " ++ · ++ " 个字符") (label path ++ " 最长 " ++ · ++ " 个字符")
  | .obj fields => (k.required.filter fun key => key ∉ Json.keys fields).map fun key =>
      "缺少必填字段：" ++ fieldPath path key
  | _ => []

/-- What is found at a value that has a listed set of values. -/
def enumErrors (value : Json) (k : Keywords Schema) (path : String) : List String :=
  match k.enum with
  | some values =>
      if values.any (equal num true value) then []
      else [label path ++ " 须为以下值之一：" ++ str (.arr values)]
  | none => []

mutual

/-- `_validate_tool_value`. -/
def validateToolValue (value : Json) (schema : Schema) (path : String) :
    Except String (List String) :=
  match schema with
  | .bool _ => .error "'bool' object has no attribute 'get'"
  | .list _ => .error "'list' object has no attribute 'get'"
  | .object k =>
      match k.type with
      | some (.several _) => .error "unhashable type: 'list'"
      | none => .ok (enumErrors num str value k path)
      | some (.single type) =>
          match toolType type with
          | none => .ok (enumErrors num str value k path)
          | some isInstance =>
              if isInstance value = false then
                .ok [label path ++ " 应为 " ++ type.text ++ " 类型"]
              else
                let below := match value with
                  | .obj fields => validateFields fields k path
                  | .arr items =>
                      match k.items with
                      | some schema => validateItems items schema path 0
                      | none => .ok []
                  | _ => .ok []
                do return enumErrors num str value k path ++ keywordErrors num str value k path ++ (← below)

/-- The loop over the fields. -/
def validateFields (fields : List (String × Json)) (k : Keywords Schema) (path : String) :
    Except String (List String) :=
  match fields with
  | [] => .ok []
  | (key, value) :: rest =>
      let first := match k.member key with
        | some schema => validateToolValue value schema (fieldPath path key)
        | none =>
            match k.additionalProperties with
            | some (.bool false) => .ok ["不允许额外字段：" ++ fieldPath path key]
            | _ => .ok []
      do return (← first) ++ (← validateFields rest k path)

/-- The loop over the items. -/
def validateItems (items : List Json) (schema : Schema) (path : String) (index : ℕ) :
    Except String (List String) :=
  match items with
  | [] => .ok []
  | value :: rest => do
      let first ← validateToolValue value schema (path ++ "[" ++ toString index ++ "]")
      return first ++ (← validateItems rest schema path (index + 1))

end

/-- The walk below a value whose type was checked. -/
def validateBelow (value : Json) (k : Keywords Schema) (path : String) :
    Except String (List String) :=
  match value with
  | .obj fields => validateFields num str fields k path
  | .arr items =>
      match k.items with
      | some schema => validateItems num str items schema path 0
      | none => .ok []
  | _ => .ok []

/-- The types of JSON. -/
def SchemaType.Holds : SchemaType → Json → Prop
  | .integer, .float f => (num f).isInt = true
  | .string, .str _ | .integer, .int _ | .number, .int _ | .number, .float _ | .boolean, .bool _
  | .array, .arr _ | .object, .obj _ | .null, .null => True
  | _, _ => False

/-- Whether a value is a listed one. -/
def Listed (booleans : Bool) (value : Json) (k : Keywords Schema) : Prop :=
  ∀ values, k.enum = some values → values.any (equal num booleans value) = true

/-- Whether a number is in its bounds. -/
def Within (x : ℚ) (low high : Option Number) : Prop :=
  (∀ b, low = some b → b.value num ≤ x) ∧ ∀ b, high = some b → x ≤ b.value num

/-- The bounds, the required fields and the fields that are not allowed. -/
@[mk_iff] structure Keeps (value : Json) (k : Keywords Schema) : Prop where
  number : ∀ x, number? num false value = some x → Within num x k.minimum k.maximum
  text : ∀ s, value = .str s → Within num s.length k.minLength k.maxLength
  required : ∀ fields, value = .obj fields → ∀ key ∈ k.required, key ∈ Json.keys fields
  closed : ∀ fields, value = .obj fields → ∀ key ∈ Json.keys fields, ¬k.forbids key

/-- **What the keywords say** about a value. -/
structure Meets (value : Json) (k : Keywords Schema) : Prop where
  type : ∀ type, k.type = some (.single type) → type.Holds num value
  enum : Listed num false value k
  keeps : Keeps num value k

/-- What the walk checks at a value. -/
structure Checked (value : Json) (k : Keywords Schema) : Prop where
  enum : Listed num true value k
  type : ∀ type isInstance, k.type = some (.single type) → toolType type = some isInstance →
    isInstance value = true ∧ Keeps num value k

/-- From a value to one in it, with their schemas; `typed` where the walk goes on. -/
inductive Step (typed : Bool) : Json × Schema → Json × Schema → Prop where
  | field {fields : List (String × Json)} {k : Keywords Schema} {key : String} {value : Json}
      {schema : Schema} (type : typed = true → k.type = some (.single .object))
      (mem : (key, value) ∈ fields) (member : k.member key = some schema) :
      Step typed (.obj fields, .object k) (value, schema)
  | item {items : List Json} {k : Keywords Schema} {value : Json} {schema : Schema}
      (type : typed = true → k.type = some (.single .array)) (mem : value ∈ items)
      (member : k.items = some schema) : Step typed (.arr items, .object k) (value, schema)

/-- A schema the walk cannot read. -/
def Schema.Unusable : Schema → Prop
  | .bool _ | .list _ => True
  | .object k => ∃ types, k.type = some (.several types)

/-- What a part of the walk returns: it raises where it visits a schema it cannot read, and finds
nothing where its own checks and those of all that it visits are passed. -/
def Told (r : Except String (List String)) (own : Prop) (roots : Set (Json × Schema)) : Prop :=
  match r with
  | .error _ => ∃ p ∈ roots, ∃ q, ReflTransGen (Step true) p q ∧ q.2.Unusable
  | .ok errors => (∀ p ∈ roots, ∀ q, ReflTransGen (Step true) p q → ¬q.2.Unusable) ∧
      (errors = [] ↔ own ∧ ∀ p ∈ roots, ∀ value k,
        ReflTransGen (Step true) p (value, .object k) → Checked num value k)

section Walk

variable {num str} {r r' : Except String (List String)} {own own' : Prop}
  {roots roots' : Set (Json × Schema)} {errors : List String} {value : Json} {k : Keywords Schema}

theorem Step.weaken {p q : Json × Schema} (h : Step true p q) : Step false p q := by
  rcases h with ⟨-, hmem, hmember⟩ | ⟨-, hmem, hmember⟩
  · exact .field (absurd · Bool.false_ne_true) hmem hmember
  · exact .item (absurd · Bool.false_ne_true) hmem hmember

/-- The walk goes on where the type of a value was checked. -/
theorem Step.typed {q : Json × Schema} {type : SchemaType} {isInstance : Json → Bool}
    (h : Step false (value, .object k) q) (htype : k.type = some (.single type))
    (hmap : toolType type = some isInstance) (hvalue : isInstance value = true) :
    Step true (value, .object k) q := by
  rcases h with ⟨-, hmem, hmember⟩ | ⟨-, hmem, hmember⟩ <;> cases type <;> cases hmap <;>
    first
      | exact .field (fun _ => htype) hmem hmember
      | exact .item (fun _ => htype) hmem hmember
      | cases hvalue

theorem told_nil : Told num (.ok []) True ∅ :=
  ⟨fun _ h => absurd h (Set.notMem_empty _), iff_of_true rfl ⟨trivial, fun _ h => absurd h
    (Set.notMem_empty _)⟩⟩

/-- One part after another. -/
theorem Told.append (h : Told num r own roots) (h' : Told num r' own' roots') :
    Told num (do let first ← r; return first ++ (← r')) (own ∧ own') (roots ∪ roots') := by
  cases r with
  | error e =>
      obtain ⟨p, hp, hq⟩ := h
      exact ⟨p, .inl hp, hq⟩
  | ok errors =>
      cases r' with
      | error e =>
          obtain ⟨p, hp, hq⟩ := h'
          exact ⟨p, .inr hp, hq⟩
      | ok errors' =>
          refine ⟨fun p hp => hp.elim (h.1 p) (h'.1 p), ?_⟩
          rw [List.append_eq_nil_iff, h.2, h'.2]
          constructor
          · rintro ⟨⟨hown, hall⟩, hown', hall'⟩
            exact ⟨⟨hown, hown'⟩, fun p hp => hp.elim (hall p) (hall' p)⟩
          · rintro ⟨⟨hown, hown'⟩, hall⟩
            exact ⟨⟨hown, fun p hp => hall p (.inl hp)⟩, hown', fun p hp => hall p (.inr hp)⟩

/-- A node, after the nodes below it. -/
theorem Told.node (h : Told num r own roots)
    (hroots : ∀ p, p ∈ roots ↔ Step true (value, .object k) p)
    (hk : ¬(Schema.object k).Unusable) (hown : errors = [] ∧ own ↔ Checked num value k) :
    Told num (do return errors ++ (← r)) True {(value, .object k)} := by
  cases r with
  | error e =>
      obtain ⟨p, hp, q, hq, hun⟩ := h
      exact ⟨_, rfl, q, .head ((hroots p).mp hp) hq, hun⟩
  | ok below =>
      refine ⟨?_, ?_⟩
      · rintro p rfl q hq
        rcases ReflTransGen.cases_head hq with rfl | ⟨p, hp, hq⟩
        · exact hk
        · exact h.1 p ((hroots p).mpr hp) q hq
      · rw [List.append_eq_nil_iff, h.2, true_and, ← and_assoc, hown]
        constructor
        · rintro ⟨hchecked, hall⟩ p rfl value' k' hq
          rcases ReflTransGen.cases_head hq with heq | ⟨p, hp, hq⟩
          · cases heq
            exact hchecked
          · exact hall p ((hroots p).mpr hp) value' k' hq
        · intro hall
          exact ⟨hall _ rfl _ _ .refl, fun p hp value' k' hq =>
            hall _ rfl value' k' (.head ((hroots p).mp hp) hq)⟩

/-- A node from which the walk does not go on. -/
theorem told_leaf (hsteps : ∀ p, ¬Step true (value, .object k) p)
    (hk : ¬(Schema.object k).Unusable) (hown : errors = [] ↔ Checked num value k) :
    Told num (.ok errors) True {(value, .object k)} := by
  have h := @Told.node num _ _ _ errors value k told_nil
    (fun p => iff_of_false (Set.notMem_empty _) (hsteps p)) hk (by rw [and_true, hown])
  rwa [show (do return errors ++ (← Except.ok [])) = (Except.ok errors : Except String _) from
    congrArg Except.ok (List.append_nil errors)] at h

theorem enumErrors_eq_nil (path : String) :
    enumErrors num str value k path = [] ↔ Listed num true value k := by
  rw [enumErrors, Listed]
  cases k.enum with
  | none => exact iff_of_true rfl fun _ h => by cases h
  | some values =>
      simp only [Option.some.injEq, forall_eq']
      split_ifs with h <;> simp [h]

theorem boundErrors_eq_nil {x : ℚ} {low high : Option Number} {lowText highText : String → String} :
    boundErrors num str x low high lowText highText = [] ↔ Within num x low high := by
  simp [boundErrors, Within]

theorem keywordErrors_eq_nil (path : String) :
    (keywordErrors num str value k path = [] ∧
      ∀ fields, value = .obj fields → ∀ key ∈ Json.keys fields, ¬k.forbids key) ↔
      Keeps num value k := by
  rw [keeps_iff]
  cases value <;>
    simp [keywordErrors, boundErrors_eq_nil, number?]

theorem Told.congr (h : Told num r own roots) (hown : own ↔ own')
    (hroots : ∀ p, p ∈ roots ↔ p ∈ roots') : Told num r own' roots' :=
  propext hown ▸ Set.ext hroots ▸ h

theorem type_cases (k : Keywords Schema) : (Schema.object k).Unusable ∨ k.untyped ∨
    ∃ type isInstance, k.type = some (.single type) ∧ toolType type = some isInstance := by
  match htype : k.type with
  | none => exact .inr (.inl (.inl htype))
  | some (.several types) => exact .inl ⟨types, htype⟩
  | some (.single .null) => exact .inr (.inl (.inr htype))
  | some (.single .string) | some (.single .integer) | some (.single .number)
  | some (.single .boolean) | some (.single .array) | some (.single .object) =>
      exact .inr (.inr ⟨_, _, rfl, rfl⟩)

theorem checked_of_untyped (h : k.untyped) : Checked num value k ↔ Listed num true value k := by
  refine ⟨Checked.enum, fun henum => ⟨henum, fun type isInstance htype hmap => ?_⟩⟩
  rcases h with h | h <;> cases h.symm.trans htype
  cases hmap

theorem checked_of_typed {type : SchemaType} {isInstance : Json → Bool}
    (htype : k.type = some (.single type)) (hmap : toolType type = some isInstance) :
    Checked num value k ↔ Listed num true value k ∧ isInstance value = true ∧ Keeps num value k := by
  refine ⟨fun h => ⟨h.enum, h.type _ _ htype hmap⟩, fun h => ⟨h.1, fun type' isInstance' ht hm => ?_⟩⟩
  cases htype.symm.trans ht
  cases hmap.symm.trans hm
  exact h.2

/-- A node, whose type matters only where the walk stops. -/
theorem told_of_below (h : ∀ k path, Told num (validateBelow num str value k path)
      (∀ fields, value = .obj fields → ∀ key ∈ Json.keys fields, ¬k.forbids key)
      {p | Step false (value, .object k) p}) (schema : Schema) (path : String) :
    Told num (validateToolValue num str value schema path) True {(value, schema)} := by
  have hunusable : ∀ (schema : Schema) (e : String), schema.Unusable →
      Told num (.error e) True {(value, schema)} := fun _ _ h => ⟨_, rfl, _, .refl, h⟩
  rw [validateToolValue.eq_def]
  cases schema with
  | bool b => exact hunusable (.bool b) _ trivial
  | list schemas => exact hunusable (.list schemas) _ trivial
  | object k =>
      dsimp only
      rcases type_cases k with hun | huntyped | ⟨type, isInstance, htype, hmap⟩
      · obtain ⟨types, htype⟩ := id hun
        rw [htype]
        exact hunusable _ _ hun
      · have hleaf : Told num (.ok (enumErrors num str value k path)) True {(value, .object k)} := by
          refine told_leaf ?_ ?_ (by rw [enumErrors_eq_nil, checked_of_untyped huntyped])
          · rcases huntyped with htype | htype <;> rintro p (⟨htyped, -⟩ | ⟨htyped, -⟩) <;>
              cases htype.symm.trans (htyped rfl)
          · rcases huntyped with htype | htype <;> simp [Schema.Unusable, htype]
        rcases huntyped with htype | htype <;> rw [htype] <;> exact hleaf
      · have hk : ¬(Schema.object k).Unusable := by simp [Schema.Unusable, htype]
        simp only [htype, hmap]
        split
        · next hvalue =>
            refine told_leaf ?_ hk ?_
            · rintro p (⟨htyped, -⟩ | ⟨htyped, -⟩) <;> cases htype.symm.trans (htyped rfl) <;>
                cases hmap <;> cases hvalue
            · rw [checked_of_typed htype hmap, hvalue]
              exact iff_of_false (List.cons_ne_nil _ _) fun h => Bool.false_ne_true h.2.1
        · next hvalue =>
            have hvalue := eq_true_of_ne_false hvalue
            refine Told.node (h k path) (fun p => ⟨fun hp => hp.typed htype hmap hvalue,
              Step.weaken⟩) hk ?_
            rw [List.append_eq_nil_iff, and_assoc, enumErrors_eq_nil, keywordErrors_eq_nil,
              checked_of_typed htype hmap, hvalue, eq_self, true_and]

mutual

theorem told_validate : ∀ (value : Json) (schema : Schema) (path : String),
    Told num (validateToolValue num str value schema path) True {(value, schema)}
  | .obj fields, schema, path =>
      told_of_below (fun k path => Told.congr (told_fields fields k path) (by simp) fun _ => .rfl)
        schema path
  | .arr items, schema, path => by
      refine told_of_below (fun k path => ?_) schema path
      cases hitems : k.items with
      | none =>
          rw [validateBelow, hitems]
          refine Told.congr told_nil (by simp) fun p => iff_of_false (Set.notMem_empty _) ?_
          rintro (_ | ⟨-, -, hmember⟩)
          cases hitems.symm.trans hmember
      | some schema =>
          rw [validateBelow, hitems]
          refine Told.congr (told_items items schema path 0) (by simp) fun p => ⟨?_, ?_⟩
          · rintro ⟨value, hmem, rfl⟩
            exact .item (absurd · Bool.false_ne_true) hmem hitems
          · rintro (_ | ⟨_, hmem, hmember⟩)
            cases hitems.symm.trans hmember
            exact ⟨_, hmem, rfl⟩
  | .null, schema, path | .bool _, schema, path | .int _, schema, path | .float _, schema, path
  | .str _, schema, path => by
      refine told_of_below (fun k path => Told.congr told_nil (by simp) fun p => ?_) schema path
      exact iff_of_false (Set.notMem_empty _) nofun

theorem told_fields : ∀ (fields : List (String × Json)) (k : Keywords Schema) (path : String),
    Told num (validateFields num str fields k path) (∀ key ∈ Json.keys fields, ¬k.forbids key)
      {p | Step false (.obj fields, .object k) p}
  | [], k, path => by
      refine Told.congr told_nil (by simp) fun p => iff_of_false (Set.notMem_empty _) ?_
      rintro ⟨-, hmem, -⟩
      cases hmem
  | (key, value) :: rest, k, path => by
      have hfirst : Told num
          (match k.member key with
            | some schema => validateToolValue num str value schema (fieldPath path key)
            | none =>
                match k.additionalProperties with
                | some (.bool false) => .ok ["不允许额外字段：" ++ fieldPath path key]
                | _ => .ok [])
          (¬k.forbids key) {p | ∃ schema, k.member key = some schema ∧ p = (value, schema)} := by
        cases hmember : k.member key with
        | some schema =>
            refine Told.congr (told_validate value schema _) (iff_of_true trivial ?_) fun p => ?_
            · rintro ⟨hnone, hfalse⟩
              rw [Keywords.member, hnone, hfalse] at hmember
              cases hmember
            · exact ⟨fun h => ⟨schema, rfl, h⟩, fun ⟨_, h, hp⟩ => Option.some.inj h ▸ hp⟩
        | none =>
            have hnone : k.properties.lookup key = none := by
              rw [Keywords.member] at hmember
              split at hmember
              · cases hmember
              · assumption
            have hroots : ∀ p : Json × Schema, ¬∃ schema, none = some schema ∧ p = (value, schema) :=
              fun p ⟨_, h, _⟩ => by cases h
            dsimp only
            split
            · next hfalse =>
                refine ⟨fun p hp => absurd hp (hroots p), iff_of_false (List.cons_ne_nil _ _) ?_⟩
                exact fun h => h.1 ⟨hnone, hfalse⟩
            · next hother =>
                exact Told.congr told_nil (iff_of_true trivial fun h => hother h.2) fun p =>
                  iff_of_false (Set.notMem_empty _) (hroots p)
      refine Told.congr (hfirst.append (told_fields rest k path)) (by simp) fun p => ⟨?_, ?_⟩
      · rintro (⟨schema, hmember, rfl⟩ | ⟨-, hmem, hmember⟩)
        · exact .field (absurd · Bool.false_ne_true) List.mem_cons_self hmember
        · exact .field (absurd · Bool.false_ne_true) (List.mem_cons_of_mem _ hmem) hmember
      · rintro ⟨-, hmem, hmember⟩
        rcases List.mem_cons.mp hmem with heq | hmem
        · cases heq
          exact .inl ⟨_, hmember, rfl⟩
        · exact .inr (.field (absurd · Bool.false_ne_true) hmem hmember)

theorem told_items : ∀ (items : List Json) (schema : Schema) (path : String) (index : ℕ),
    Told num (validateItems num str items schema path index) True {p | ∃ value ∈ items, p = (value, schema)}
  | [], schema, path, index => told_nil.congr .rfl fun p => by simp
  | value :: rest, schema, path, index =>
      ((told_validate value schema _).append (told_items rest schema path (index + 1))).congr
        (by simp) fun p => by simp

end

/-! ### When to trust the answer -/

theorem Checked.holds {type : SchemaType} {isInstance : Json → Bool}
    (hmap : toolType type = some isInstance) (h : isInstance value = true) :
    type.Holds num value := by
  cases type <;> cases hmap <;> cases value <;> trivial

end Walk

end Values

end Kirakira.Tools.Parameters
