import Kirakira.Lib.Json
import Std.Data.String.ToInt

/-!
# A Reader of Compact JSON Texts

A recursive-descent reader that reads every finite tree back from its compact text
(`loads_dumps`). It reads compact texts only: no blanks between the tokens. The recursion
is on a fuel argument, one unit a nesting level or item; a text of `n` characters never
needs more than `n + 1` units (`size_le_length`), so the fuel is no restriction.
-/

namespace Json

/-! ### Strings -/

/-- The value of a hexadecimal digit. -/
def hexValue (c : Char) : ℕ :=
  if c.isDigit then c.toNat - 48 else c.toNat - 87

/-- The body of a string literal up to its closing quote, and what follows it. -/
def readString : List Char → Option (List Char × List Char)
  | [] => none
  | '"' :: rest => some ([], rest)
  | '\\' :: 'u' :: _ :: _ :: c :: d :: rest =>
      (readString rest).map fun r => (Char.ofNat (16 * hexValue c + hexValue d) :: r.1, r.2)
  | '\\' :: c :: rest =>
      let plain := if c = 'n' then '\n' else if c = 'r' then '\r' else if c = 't' then '\t'
        else if c = 'b' then Char.ofNat 8 else if c = 'f' then Char.ofNat 12 else c
      (readString rest).map fun r => (plain :: r.1, r.2)
  | c :: rest => (readString rest).map fun r => (c :: r.1, r.2)

/-- The two hexadecimal digits of a control character name it. -/
theorem ofNat_hexDigits {n : ℕ} (h : n < 32) :
    Char.ofNat (16 * hexValue (hexDigit (n / 16)) + hexValue (hexDigit (n % 16)))
      = Char.ofNat n := by
  revert n
  decide

theorem readString_escapeChar (c : Char) (rest : List Char) :
    readString (escapeChar c ++ rest)
      = (readString rest).map fun r => (c :: r.1, r.2) := by
  unfold escapeChar
  split_ifs with h1 h2 h3 h4 h5 h6 h7 h8
  · subst h1; simp [readString]
  · subst h2; simp [readString]
  · subst h3; simp [readString]
  · subst h4; simp [readString]
  · subst h5; simp [readString]
  · subst h6; simp [readString]
  · subst h7; simp [readString]
  · simp only [List.cons_append, List.nil_append, readString, ofNat_hexDigits h8,
      Char.ofNat_toNat]
  · rw [List.singleton_append, readString.eq_def]
    split <;> simp_all

/-- **A string literal is read back.** -/
theorem readString_stringTail (cs rest : List Char) :
    readString (stringTail cs ++ rest) = some (cs, rest) := by
  induction cs with
  | nil => simp [stringTail, readString]
  | cons c cs ih =>
      rw [stringTail, List.append_assoc, readString_escapeChar, ih, Option.map_some]

/-! ### Numbers -/

/-- The number a literal names: a double when it has a fraction or an exponent. -/
def readNumber (token : List Char) : Option Json :=
  if token.any (fun c => c == '.' || c == 'e') then
    if (FloatText.mk (String.ofList token)).finite then
      some (.float ⟨String.ofList token⟩)
    else none
  else (String.ofList token).toInt?.map .int

/-- The digits of an integer are number characters other than the point and the `e`. -/
theorem toString_int_chars (n : ℤ) :
    ∀ c ∈ (toString n).toList, isNumberChar c = true ∧ (c == '.' || c == 'e') = false := by
  have hdigit : ∀ c : Char, c.isDigit = true →
      isNumberChar c = true ∧ (c == '.' || c == 'e') = false := by
    intro c hc
    refine ⟨by simp [isNumberChar, hc], ?_⟩
    by_contra hne
    simp only [Bool.not_eq_false, Bool.or_eq_true, beq_iff_eq] at hne
    rcases hne with rfl | rfl <;> revert hc <;> decide
  have hrepr : ∀ (m : ℕ) (c : Char), c ∈ m.repr.toList → c.isDigit = true := by
    intro m c hc
    rw [Nat.toList_repr] at hc
    exact Nat.isDigit_of_mem_toDigits (by omega) (by omega) hc
  intro c hc
  rw [Int.toString_eq_repr, Int.repr_eq_if] at hc
  split_ifs at hc with hn
  · exact hdigit c (hrepr _ c hc)
  · rw [String.toList_append, List.mem_append] at hc
    rcases hc with hc | hc
    · obtain rfl : c = '-' := by simpa using hc
      decide
    · exact hdigit c (hrepr _ c hc)

theorem readNumber_int (n : ℤ) : readNumber (toString n).toList = some (.int n) := by
  have hplain : (toString n).toList.any (fun c => c == '.' || c == 'e') = false := by
    rw [List.any_eq_false]
    intro c hc
    simpa using (toString_int_chars n c hc).2
  rw [readNumber, if_neg (by rw [hplain]; exact Bool.false_ne_true), String.ofList_toList,
    Int.toString_eq_repr, Int.toInt?_repr, Option.map_some]

theorem readNumber_float {f : FloatText} (h : f.finite = true) :
    readNumber f.text.toList = some (.float f) := by
  have hany : f.text.toList.any (fun c => c == '.' || c == 'e') = true := by
    unfold FloatText.finite at h
    split at h
    · cases h
    · next c cs hcs =>
        simp only [Bool.and_eq_true] at h
        rw [hcs, List.any_cons, h.2, Bool.or_true]
  rw [readNumber, if_pos hany, String.ofList_toList, if_pos h]

/-! ### Values -/

mutual

/-- One value at the front of the text, and what follows it. -/
def readValue : ℕ → List Char → Option (Json × List Char)
  | 0, _ => none
  | _ + 1, 'n' :: 'u' :: 'l' :: 'l' :: rest => some (.null, rest)
  | _ + 1, 't' :: 'r' :: 'u' :: 'e' :: rest => some (.bool true, rest)
  | _ + 1, 'f' :: 'a' :: 'l' :: 's' :: 'e' :: rest => some (.bool false, rest)
  | _ + 1, '"' :: rest => (readString rest).map fun r => (.str (String.ofList r.1), r.2)
  | _ + 1, '[' :: ']' :: rest => some (.arr [], rest)
  | n + 1, '[' :: rest => do
      let (j, rest) ← readValue n rest
      let (items, rest) ← readItems n rest
      some (.arr (j :: items), rest)
  | _ + 1, '{' :: '}' :: rest => some (.obj [], rest)
  | n + 1, '{' :: rest => do
      let (f, rest) ← readField n rest
      let (fields, rest) ← readFields n rest
      some (.obj (f :: fields), rest)
  | _ + 1, cs => (readNumber (cs.takeWhile isNumberChar)).map fun j =>
      (j, cs.dropWhile isNumberChar)

/-- The remaining items of an array. -/
def readItems : ℕ → List Char → Option (List Json × List Char)
  | 0, _ => none
  | _ + 1, ']' :: rest => some ([], rest)
  | n + 1, ',' :: rest => do
      let (j, rest) ← readValue n rest
      let (items, rest) ← readItems n rest
      some (j :: items, rest)
  | _ + 1, _ => none

/-- One field of an object. -/
def readField : ℕ → List Char → Option ((String × Json) × List Char)
  | 0, _ => none
  | n + 1, '"' :: rest => do
      let (k, rest) ← readString rest
      match rest with
      | ':' :: rest => do
          let (j, rest) ← readValue n rest
          some ((String.ofList k, j), rest)
      | _ => none
  | _ + 1, _ => none

/-- The remaining fields of an object. -/
def readFields : ℕ → List Char → Option (List (String × Json) × List Char)
  | 0, _ => none
  | _ + 1, '}' :: rest => some ([], rest)
  | n + 1, ',' :: rest => do
      let (f, rest) ← readField n rest
      let (fields, rest) ← readFields n rest
      some (f :: fields, rest)
  | _ + 1, _ => none

end

/-- The tree of a compact text. -/
def loads (text : String) : Option Json :=
  match readValue (text.toList.length + 1) text.toList with
  | some (j, []) => some j
  | _ => none

/-! ### The round trip -/

mutual

/-- The fuel that reading a tree back takes. -/
def size : Json → ℕ
  | .null | .bool _ | .int _ | .float _ | .str _ => 1
  | .arr [] | .obj [] => 1
  | .arr (j :: rest) => 1 + size j + sizeItems rest
  | .obj ((_, j) :: rest) => 2 + size j + sizeFields rest

/-- The fuel that reading the items back takes. -/
def sizeItems : List Json → ℕ
  | [] => 1
  | j :: rest => 1 + size j + sizeItems rest

/-- The fuel that reading the fields back takes. -/
def sizeFields : List (String × Json) → ℕ
  | [] => 1
  | (_, j) :: rest => 2 + size j + sizeFields rest

end

/-- What may follow a value: nothing that would continue a number. -/
def Stops (rest : List Char) : Prop :=
  ∀ c cs, rest = c :: cs → isNumberChar c = false

theorem stops_itemsTail (items : List Json) (rest : List Char) :
    Stops (itemsTail items ++ rest) := by
  intro c cs h
  cases items <;> simp only [itemsTail, List.cons_append, List.cons.injEq] at h <;>
    obtain ⟨rfl, -⟩ := h <;> decide

theorem stops_fieldsTail (fields : List (String × Json)) (rest : List Char) :
    Stops (fieldsTail fields ++ rest) := by
  intro c cs h
  cases fields <;> simp only [fieldsTail, List.cons_append, List.cons.injEq] at h <;>
    obtain ⟨rfl, -⟩ := h <;> decide

variable {rest : List Char}

/-- A token of number characters is cut off exactly where it ends. -/
theorem cut_number {token : List Char} (htoken : ∀ c ∈ token, isNumberChar c = true)
    (hrest : Stops rest) :
    (token ++ rest).takeWhile isNumberChar = token ∧
      (token ++ rest).dropWhile isNumberChar = rest := by
  have hstop : rest.takeWhile isNumberChar = [] ∧ rest.dropWhile isNumberChar = rest := by
    cases rest with
    | nil => exact ⟨rfl, rfl⟩
    | cons c cs => simp [hrest c cs rfl]
  rw [List.takeWhile_append_of_pos htoken, List.dropWhile_append_of_pos htoken, hstop.1, hstop.2,
    List.append_nil]
  exact ⟨rfl, rfl⟩

/-- A number literal starts a value that no other alternative of the reader takes. -/
theorem readValue_number {n : ℕ} {token : List Char} {j : Json} {c : Char} {cs : List Char}
    (hc : token = c :: cs) (hstart : (c == '-' || c.isDigit) = true)
    (htoken : ∀ d ∈ token, isNumberChar d = true) (hread : readNumber token = some j)
    (hrest : Stops rest) : readValue (n + 1) (token ++ rest) = some (j, rest) := by
  obtain ⟨htake, hdrop⟩ := cut_number htoken hrest
  have hne : ∀ d : Char, (d == '-' || d.isDigit) = false → c ≠ d := by
    rintro d hd rfl
    rw [hd] at hstart
    cases hstart
  have h1 := hne 'n' (by decide)
  have h2 := hne 't' (by decide)
  have h3 := hne 'f' (by decide)
  have h4 := hne '"' (by decide)
  have h5 := hne '[' (by decide)
  have h6 := hne '{' (by decide)
  subst hc
  rw [List.cons_append] at htake hdrop ⊢
  rw [readValue]
  · rw [htake, hread, hdrop]
    rfl
  all_goals
    intro _ heq
    exact absurd (List.cons.inj heq).1 (by assumption)

/-- The digits of an integer are never empty and start with a digit or the sign. -/
theorem toString_int_start (n : ℤ) :
    ∃ c cs, (toString n).toList = c :: cs ∧ (c == '-' || c.isDigit) = true := by
  have hdigits : ∀ m : ℕ, ∃ c cs, m.repr.toList = c :: cs ∧ c.isDigit = true := by
    intro m
    rw [Nat.toList_repr]
    cases h : Nat.toDigits 10 m with
    | nil => exact absurd h Nat.toDigits_ne_nil
    | cons c cs =>
        have hmem : c ∈ Nat.toDigits 10 m := by rw [h]; exact List.mem_cons_self
        exact ⟨c, cs, rfl, Nat.isDigit_of_mem_toDigits (by omega) (by omega) hmem⟩
  rw [Int.toString_eq_repr, Int.repr_eq_if]
  split_ifs
  · obtain ⟨c, cs, hcs, hc⟩ := hdigits n.toNat
    exact ⟨c, cs, hcs, by rw [hc, Bool.or_true]⟩
  · refine ⟨'-', (-n).toNat.repr.toList, by simp [String.toList_append], rfl⟩

theorem readValue_int (n : ℕ) (z : ℤ) (hrest : Stops rest) :
    readValue (n + 1) ((toString z).toList ++ rest) = some (.int z, rest) := by
  obtain ⟨c, cs, hcs, hc⟩ := toString_int_start z
  exact readValue_number hcs hc (fun d hd => (toString_int_chars z d hd).1) (readNumber_int z)
    hrest

/-- A finite double is read back where a value is expected. -/
theorem readValue_float (n : ℕ) {f : FloatText} (hf : f.finite = true) (hrest : Stops rest) :
    readValue (n + 1) (f.text.toList ++ rest) = some (.float f, rest) := by
  have hread := readNumber_float hf
  unfold FloatText.finite at hf
  split at hf
  · cases hf
  · next c cs hcs =>
      simp only [Bool.and_eq_true, List.all_eq_true] at hf
      exact readValue_number hcs hf.1.1 (fun d hd => hf.1.2 d (hcs ▸ hd)) hread hrest

theorem chars_start {j : Json} (hj : j.Finite) :
    ∃ c cs, j.chars = c :: cs ∧ c ≠ ']' ∧ c ≠ '}' := by
  have hstart : ∀ c : Char, (c == '-' || c.isDigit) = true → c ≠ ']' ∧ c ≠ '}' := by
    intro c hc
    constructor <;> rintro rfl <;> revert hc <;> decide
  cases j with
  | null => exact ⟨'n', _, rfl, by decide, by decide⟩
  | bool b => cases b <;> exact ⟨_, _, rfl, by decide, by decide⟩
  | int z =>
      obtain ⟨c, cs, hcs, hc⟩ := toString_int_start z
      exact ⟨c, cs, by rw [chars, hcs], hstart c hc⟩
  | float f =>
      have hf : f.finite = true := hj
      unfold FloatText.finite at hf
      split at hf
      · cases hf
      · next c cs hcs =>
          simp only [Bool.and_eq_true] at hf
          exact ⟨c, cs, by rw [chars, hcs], hstart c hf.1.1⟩
  | str s => exact ⟨'"', _, by rw [chars, stringChars], by decide, by decide⟩
  | arr items =>
      cases items with
      | nil => exact ⟨'[', _, by rw [chars], by decide, by decide⟩
      | cons j rest => exact ⟨'[', _, by rw [chars], by decide, by decide⟩
  | obj fields =>
      cases fields with
      | nil => exact ⟨'{', _, by rw [chars], by decide, by decide⟩
      | cons f rest => exact ⟨'{', _, by rw [chars], by decide, by decide⟩

mutual

/-- **A finite tree is read back from its compact text**, whatever stops after it. -/
theorem readValue_chars :
    ∀ (j : Json), j.Finite → ∀ (n : ℕ) (rest : List Char), size j ≤ n → Stops rest →
      readValue n (chars j ++ rest) = some (j, rest)
  | .null, _, n + 1, rest, _, _ => rfl
  | .bool true, _, n + 1, rest, _, _ => rfl
  | .bool false, _, n + 1, rest, _, _ => rfl
  | .int z, _, n + 1, rest, _, hrest => readValue_int n z hrest
  | .float f, hf, n + 1, rest, _, hrest => readValue_float n hf hrest
  | .str s, _, n + 1, rest, _, _ => by
      simp [chars, stringChars, readValue, readString_stringTail]
  | .arr [], _, n + 1, rest, _, _ => by simp [chars, readValue]
  | .arr (j :: items), hf, n + 1, rest, hn, hrest => by
      simp only [Finite, all, allItems, Bool.and_eq_true] at hf
      rw [size] at hn
      have hhead := readValue_chars j hf.1 n (itemsTail items ++ rest) (by omega)
        (stops_itemsTail items rest)
      have htail := readItems_itemsTail items hf.2 n rest (by omega)
      obtain ⟨c, cs, hcs, hne, -⟩ := chars_start (j := j) hf.1
      rw [chars, List.cons_append, List.append_assoc]
      rw [hcs, List.cons_append] at hhead ⊢
      rw [readValue]
      · simp [hhead, htail]
      · intro rest' h
        exact hne (List.cons.inj h).1
  | .obj [], _, n + 1, rest, _, _ => by simp [chars, readValue]
  | .obj ((k, j) :: fields), hf, n + 1, rest, hn, hrest => by
      simp only [Finite, all, allFields, Bool.and_eq_true] at hf
      rw [size] at hn
      have hhead := readField_chars k j hf.2.1 n (fieldsTail fields ++ rest) (by omega)
        (stops_fieldsTail fields rest)
      have htail := readFields_fieldsTail fields hf.2.2 n rest (by omega)
      rw [chars, stringChars]
      simp only [List.cons_append, List.append_assoc]
      rw [readValue]
      · simp [hhead, htail]
      · intro rest' h
        cases (List.cons.inj h).1
  | .null, _, 0, _, hn, _ | .bool _, _, 0, _, hn, _ | .int _, _, 0, _, hn, _
  | .float _, _, 0, _, hn, _ | .str _, _, 0, _, hn, _ | .arr [], _, 0, _, hn, _
  | .arr (_ :: _), _, 0, _, hn, _ | .obj [], _, 0, _, hn, _
  | .obj ((_, _) :: _), _, 0, _, hn, _ => by simp [size] at hn

theorem readItems_itemsTail :
    ∀ (items : List Json), allItems FloatText.finite (fun _ => true) items = true →
      ∀ (n : ℕ) (rest : List Char), sizeItems items ≤ n →
        readItems n (itemsTail items ++ rest) = some (items, rest)
  | [], _, n + 1, rest, _ => rfl
  | j :: items, hf, n + 1, rest, hn => by
      simp only [allItems, Bool.and_eq_true] at hf
      rw [sizeItems] at hn
      have hhead := readValue_chars j hf.1 n (itemsTail items ++ rest) (by omega)
        (stops_itemsTail items rest)
      have htail := readItems_itemsTail items hf.2 n rest (by omega)
      rw [itemsTail, List.cons_append, List.append_assoc, readItems]
      simp [hhead, htail]
  | [], _, 0, _, hn | _ :: _, _, 0, _, hn => by simp [sizeItems] at hn

theorem readField_chars (k : String) :
    ∀ (j : Json), j.Finite → ∀ (n : ℕ) (rest : List Char), size j + 1 ≤ n → Stops rest →
      readField n ('"' :: (stringTail k.toList ++ ':' :: (chars j ++ rest)))
        = some ((k, j), rest)
  | j, hf, n + 1, rest, hn, hrest => by
      have hvalue := readValue_chars j hf n rest (by omega) hrest
      simp [readField, readString_stringTail, hvalue]
  | _, _, 0, _, hn, _ => by omega

theorem readFields_fieldsTail :
    ∀ (fields : List (String × Json)),
      allFields FloatText.finite (fun _ => true) fields = true →
      ∀ (n : ℕ) (rest : List Char), sizeFields fields ≤ n →
        readFields n (fieldsTail fields ++ rest) = some (fields, rest)
  | [], _, n + 1, rest, _ => rfl
  | (k, j) :: fields, hf, n + 1, rest, hn => by
      simp only [allFields, Bool.and_eq_true] at hf
      rw [sizeFields] at hn
      have hhead := readField_chars k j hf.1 n (fieldsTail fields ++ rest) (by omega)
        (stops_fieldsTail fields rest)
      have htail := readFields_fieldsTail fields hf.2 n rest (by omega)
      rw [fieldsTail, stringChars]
      simp only [List.cons_append, List.append_assoc]
      rw [readFields]
      simp [hhead, htail]
  | [], _, 0, _, hn | (_, _) :: _, _, 0, _, hn => by simp [sizeFields] at hn

end

mutual

/-- The fuel a tree takes is at most the length of its text. -/
theorem size_le_length : ∀ j : Json, j.Finite → size j ≤ j.chars.length
  | .null, _ | .bool true, _ | .bool false, _ | .arr [], _ | .obj [], _ => by decide
  | .str s, _ => by simp [size, chars, stringChars]
  | .int z, _ => by
      obtain ⟨c, cs, hcs, -⟩ := toString_int_start z
      rw [size, chars, hcs, List.length_cons]
      omega
  | .float f, hf => by
      obtain ⟨c, cs, hcs, -⟩ := chars_start hf
      simp [size, hcs]
  | .arr (j :: items), hf => by
      simp only [Finite, all, allItems, Bool.and_eq_true] at hf
      have hhead := size_le_length j hf.1
      have htail := sizeItems_le_length items hf.2
      rw [size, chars, List.length_cons, List.length_append]
      omega
  | .obj ((k, j) :: fields), hf => by
      simp only [Finite, all, allFields, Bool.and_eq_true] at hf
      have hhead := size_le_length j hf.2.1
      have htail := sizeFields_le_length fields hf.2.2
      rw [size, chars, stringChars]
      simp only [List.length_cons, List.length_append]
      omega

/-- The fuel the items take is at most the length of their text. -/
theorem sizeItems_le_length :
    ∀ items : List Json, allItems FloatText.finite (fun _ => true) items = true →
      sizeItems items ≤ (itemsTail items).length
  | [], _ => by decide
  | j :: items, hf => by
      simp only [allItems, Bool.and_eq_true] at hf
      have hhead := size_le_length j hf.1
      have htail := sizeItems_le_length items hf.2
      rw [sizeItems, itemsTail, List.length_cons, List.length_append]
      omega

/-- The fuel the fields take is at most the length of their text. -/
theorem sizeFields_le_length :
    ∀ fields : List (String × Json),
      allFields FloatText.finite (fun _ => true) fields = true →
      sizeFields fields ≤ (fieldsTail fields).length
  | [], _ => by decide
  | (k, j) :: fields, hf => by
      simp only [allFields, Bool.and_eq_true] at hf
      have hhead := size_le_length j hf.1
      have htail := sizeFields_le_length fields hf.2
      rw [sizeFields, fieldsTail, stringChars]
      simp only [List.length_cons, List.length_append]
      omega

end

/-- **The reader inverts the printer** on finite trees. -/
theorem loads_dumps {j : Json} (hj : j.Finite) : loads j.dumps = some j := by
  have hread := readValue_chars j hj (j.chars.length + 1) []
    (Nat.le_succ_of_le (size_le_length j hj)) (fun _ _ h => by cases h)
  rw [List.append_nil] at hread
  rw [loads, dumps, String.toList_ofList, hread]

end Json
