import Kirakira.Lib.JsonReader

/-!
# Compact JSON Texts in ASCII

The compact text of a tree with every character beyond ASCII escaped, a character beyond the
basic plane as its two surrogates. In a compact text every backslash starts an escape, so the
text falls into units: an escape, or a character that stands for itself. The reader of one
unit of an ASCII text undoes its escape.

## Main results

* `readUnit_flatMap` — a unit is read back from its ASCII text.
* `asciiDumps_inj` — **the ASCII text of a finite tree is that of no other**.
-/

namespace Json

/-! ### Escapes -/

/-- The escape of a number of four hexadecimal digits. -/
def unicodeEscape (n : ℕ) : List Char :=
  ['\\', 'u', hexDigit (n / 4096), hexDigit (n / 256 % 16), hexDigit (n / 16 % 16),
    hexDigit (n % 16)]

/-- A character of an ASCII text. -/
def asciiChar (c : Char) : List Char :=
  if c.toNat < 127 then [c]
  else if c.toNat < 65536 then unicodeEscape c.toNat
  else unicodeEscape (55296 + (c.toNat - 65536) / 1024)
    ++ unicodeEscape (56320 + (c.toNat - 65536) % 1024)

/-- The compact text of a tree, in ASCII. -/
def asciiDumps (j : Json) : String :=
  String.ofList (j.chars.flatMap asciiChar)

/-- The number of four hexadecimal digits. -/
def hexNumber (a b c d : Char) : ℕ :=
  4096 * hexValue a + 256 * hexValue b + 16 * hexValue c + hexValue d

/-- The number of an escape. -/
def readEscape : List Char → ℕ
  | '\\' :: 'u' :: a :: b :: c :: d :: _ => hexNumber a b c d
  | _ => 0

/-- A unit at the front of an ASCII text, and what follows it. -/
def readUnit : List Char → Option (List Char × List Char)
  | '\\' :: 'u' :: a :: b :: c :: d :: rest =>
      let n := hexNumber a b c d
      if n < 32 then some (['\\', 'u', a, b, c, d], rest)
      else if 55296 ≤ n ∧ n < 56320 then
        some ([Char.ofNat (65536 + (n - 55296) * 1024 + (readEscape rest - 56320))], rest.drop 6)
      else some ([Char.ofNat n], rest)
  | '\\' :: c :: rest => some (['\\', c], rest)
  | c :: rest => some ([c], rest)
  | [] => none

variable {n : ℕ} {text : List Char}

theorem hexValue_hexDigit (h : n < 16) : hexValue (hexDigit n) = n := by
  revert n
  decide

theorem hexDigit_lt (h : n < 16) : (hexDigit n).toNat < 127 := by
  revert n
  decide

theorem hexNumber_digits (h : n < 65536) :
    hexNumber (hexDigit (n / 4096)) (hexDigit (n / 256 % 16)) (hexDigit (n / 16 % 16))
      (hexDigit (n % 16)) = n := by
  rw [hexNumber, hexValue_hexDigit (by omega), hexValue_hexDigit (by omega),
    hexValue_hexDigit (by omega), hexValue_hexDigit (by omega)]
  omega

theorem readEscape_unicodeEscape (h : n < 65536) (rest : List Char) :
    readEscape (unicodeEscape n ++ rest) = n :=
  hexNumber_digits h

theorem readUnit_unicodeEscape (h : n < 65536) (hcontrol : 32 ≤ n) (rest : List Char) :
    readUnit (unicodeEscape n ++ rest)
      = if 55296 ≤ n ∧ n < 56320 then
          some ([Char.ofNat (65536 + (n - 55296) * 1024 + (readEscape rest - 56320))], rest.drop 6)
        else some ([Char.ofNat n], rest) := by
  rw [unicodeEscape]
  simp only [List.cons_append, List.nil_append, readUnit, hexNumber_digits h]
  rw [if_neg (by omega)]

/-! ### Units -/

/-- A unit of a compact text. -/
inductive IsUnit : List Char → Prop
  | plain (c : Char) (hc : c ≠ '\\') : IsUnit [c]
  | short (c : Char) (hc : c ≠ 'u') (hascii : c.toNat < 127) : IsUnit ['\\', c]
  | control (n : ℕ) (hn : n < 32) :
      IsUnit ['\\', 'u', '0', '0', hexDigit (n / 16), hexDigit (n % 16)]

theorem char_lt (c : Char) :
    c.toNat < 55296 ∨ 57343 < c.toNat ∧ c.toNat < 1114112 :=
  c.valid

theorem readUnit_asciiChar {c : Char} (hc : c ≠ '\\') (rest : List Char) :
    readUnit (asciiChar c ++ rest) = some ([c], rest) := by
  have hvalid := char_lt c
  rw [asciiChar]
  split_ifs with hascii hbasic
  · rw [List.singleton_append, readUnit.eq_def]
    split <;> simp_all
  · rw [readUnit_unicodeEscape hbasic (by omega), if_neg (by omega), Char.ofNat_toNat]
  · rw [List.append_assoc, readUnit_unicodeEscape (by omega) (by omega), if_pos (by omega),
      readEscape_unicodeEscape (by omega)]
    have hnumber : 65536 + (55296 + (c.toNat - 65536) / 1024 - 55296) * 1024
        + (56320 + (c.toNat - 65536) % 1024 - 56320) = c.toNat := by omega
    rw [hnumber, Char.ofNat_toNat]
    rfl

theorem asciiChar_of_lt {c : Char} (h : c.toNat < 127) : asciiChar c = [c] :=
  if_pos h

/-- **A unit is read back** from its ASCII text. -/
theorem readUnit_flatMap {unit : List Char} (h : IsUnit unit) (rest : List Char) :
    readUnit (unit.flatMap asciiChar ++ rest) = some (unit, rest) := by
  cases h with
  | plain c hc =>
      rw [List.flatMap_singleton]
      exact readUnit_asciiChar hc rest
  | short c hc hascii =>
      simp only [List.flatMap_cons, List.flatMap_nil, asciiChar_of_lt hascii,
        asciiChar_of_lt (show '\\'.toNat < 127 by decide), List.cons_append, List.nil_append]
      rw [readUnit]
      intro _ _ _ _ _ hu
      exact absurd hu hc
  | control n hn =>
      have hhigh := asciiChar_of_lt (hexDigit_lt (show n / 16 < 16 by omega))
      have hlow := asciiChar_of_lt (hexDigit_lt (show n % 16 < 16 by omega))
      simp only [List.flatMap_cons, List.flatMap_nil, hhigh, hlow,
        asciiChar_of_lt (show '\\'.toNat < 127 by decide),
        asciiChar_of_lt (show 'u'.toNat < 127 by decide),
        asciiChar_of_lt (show '0'.toNat < 127 by decide), List.cons_append, List.nil_append,
        readUnit]
      rw [if_pos]
      rw [hexNumber, hexValue_hexDigit (by omega), hexValue_hexDigit (by omega)]
      have hzero : hexValue '0' = 0 := by decide
      omega

/-- A text made of units. -/
def IsText (text : List Char) : Prop :=
  ∃ units : List (List Char), (∀ unit ∈ units, IsUnit unit) ∧ text = units.flatten

theorem IsText.append {text' : List Char} (h : IsText text) (h' : IsText text') :
    IsText (text ++ text') := by
  obtain ⟨units, hunits, rfl⟩ := h
  obtain ⟨units', hunits', rfl⟩ := h'
  refine ⟨units ++ units', fun unit hunit => ?_, List.flatten_append.symm⟩
  exact (List.mem_append.mp hunit).elim (hunits unit) (hunits' unit)

theorem isText_of_plain (h : ∀ c ∈ text, c ≠ '\\') : IsText text := by
  refine ⟨text.map fun c => [c], fun unit hunit => ?_, ?_⟩
  · obtain ⟨c, hc, rfl⟩ := List.mem_map.mp hunit
    exact .plain c (h c hc)
  · induction text with
    | nil => rfl
    | cons c text ih =>
        rw [List.map_cons, List.flatten_cons, ← ih fun d hd => h d (List.mem_cons_of_mem _ hd)]
        rfl

theorem IsText.cons {c : Char} {text : List Char} (h : IsText text) (hc : c ≠ '\\') :
    IsText (c :: text) := by
  have hunit : IsText [c] := isText_of_plain (by simpa using hc)
  exact hunit.append h

theorem IsUnit.isText {unit : List Char} (h : IsUnit unit) : IsText unit :=
  ⟨[unit], by simpa using h, by simp⟩

/-- **Texts that are the same in ASCII are the same.** -/
theorem IsText.ext {text' : List Char} (h : IsText text) (h' : IsText text')
    (heq : text.flatMap asciiChar = text'.flatMap asciiChar) : text = text' := by
  obtain ⟨units, hunits, rfl⟩ := h
  obtain ⟨units', hunits', rfl⟩ := h'
  induction units generalizing units' with
  | nil =>
      cases units' with
      | nil => rfl
      | cons unit units =>
          have hread := readUnit_flatMap (hunits' unit List.mem_cons_self)
            (units.flatten.flatMap asciiChar)
          rw [← List.flatMap_append, ← List.flatten_cons, ← heq] at hread
          cases hread
  | cons unit units ih =>
      have hread := readUnit_flatMap (hunits unit List.mem_cons_self)
        (units.flatten.flatMap asciiChar)
      rw [← List.flatMap_append, ← List.flatten_cons, heq] at hread
      cases units' with
      | nil => cases hread
      | cons unit' units' =>
          have hread' := readUnit_flatMap (hunits' unit' List.mem_cons_self)
            (units'.flatten.flatMap asciiChar)
          rw [← List.flatMap_append, ← List.flatten_cons, hread] at hread'
          obtain ⟨rfl, hrest⟩ := Prod.mk.inj (Option.some.inj hread')
          rw [List.flatten_cons, List.flatten_cons,
            ih (fun u hu => hunits u (List.mem_cons_of_mem _ hu)) units'
              (fun u hu => hunits' u (List.mem_cons_of_mem _ hu)) hrest]

/-! ### Compact texts -/

theorem escapeChar_isUnit (c : Char) : IsUnit (escapeChar c) := by
  rw [escapeChar]
  split_ifs with h1 h2 h3 h4 h5 h6 h7 h8
  · exact .short '"' (by decide) (by decide)
  · exact .short '\\' (by decide) (by decide)
  · exact .short 'n' (by decide) (by decide)
  · exact .short 'r' (by decide) (by decide)
  · exact .short 't' (by decide) (by decide)
  · exact .short 'b' (by decide) (by decide)
  · exact .short 'f' (by decide) (by decide)
  · exact .control _ h8
  · exact .plain c h2

theorem stringTail_isText (cs : List Char) : IsText (stringTail cs) := by
  induction cs with
  | nil => exact isText_of_plain (by simp [stringTail])
  | cons c cs ih => exact (escapeChar_isUnit c).isText.append ih

theorem stringChars_isText (s : String) : IsText (stringChars s) :=
  (stringTail_isText s.toList).cons (by decide)

theorem isText_of_number {token : List Char} (h : ∀ c ∈ token, isNumberChar c = true) :
    IsText token := by
  refine isText_of_plain fun c hc hback => ?_
  have hnumber := h c hc
  rw [hback] at hnumber
  exact absurd hnumber (by decide)

mutual

theorem chars_isText : ∀ j : Json, j.Finite → IsText j.chars
  | .null, _ | .bool true, _ | .bool false, _ | .arr [], _ | .obj [], _ =>
      isText_of_plain (by simp [chars])
  | .str s, _ => by
      rw [chars]
      exact stringChars_isText s
  | .int z, _ => by
      rw [chars]
      exact isText_of_number fun c hc => (toString_int_chars z c hc).1
  | .float f, hf => by
      have hfinite : f.finite = true := hf
      rw [FloatText.finite] at hfinite
      rw [chars]
      split at hfinite
      · cases hfinite
      · next c cs hcs =>
          simp only [Bool.and_eq_true, List.all_eq_true] at hfinite
          rw [hcs]
          exact isText_of_number hfinite.1.2
  | .arr (j :: items), hf => by
      simp only [Finite, all, allItems, Bool.and_eq_true] at hf
      rw [chars]
      exact ((chars_isText j hf.1).append (itemsTail_isText items hf.2)).cons (by decide)
  | .obj ((k, j) :: fields), hf => by
      simp only [Finite, all, allFields, Bool.and_eq_true] at hf
      have hvalue := (chars_isText j hf.2.1).append (fieldsTail_isText fields hf.2.2)
      rw [chars]
      exact ((stringChars_isText k).append (hvalue.cons (by decide))).cons (by decide)

theorem itemsTail_isText :
    ∀ items : List Json, allItems FloatText.finite (fun _ => true) items = true →
      IsText (itemsTail items)
  | [], _ => isText_of_plain (by simp [itemsTail])
  | j :: items, hf => by
      simp only [allItems, Bool.and_eq_true] at hf
      rw [itemsTail]
      exact ((chars_isText j hf.1).append (itemsTail_isText items hf.2)).cons (by decide)

theorem fieldsTail_isText :
    ∀ fields : List (String × Json),
      allFields FloatText.finite (fun _ => true) fields = true → IsText (fieldsTail fields)
  | [], _ => isText_of_plain (by simp [fieldsTail])
  | (k, j) :: fields, hf => by
      simp only [allFields, Bool.and_eq_true] at hf
      have hvalue := (chars_isText j hf.1).append (fieldsTail_isText fields hf.2)
      rw [fieldsTail]
      exact ((stringChars_isText k).append (hvalue.cons (by decide))).cons (by decide)

end

/-- **The ASCII text of a finite tree is that of no other.** -/
theorem asciiDumps_inj {j j' : Json} (hj : j.Finite) (hj' : j'.Finite)
    (h : j.asciiDumps = j'.asciiDumps) : j = j' := by
  have hchars : j.chars = j'.chars :=
    (chars_isText j hj).ext (chars_isText j' hj') (String.ofList_injective h)
  have hread := loads_dumps hj
  rw [dumps, hchars] at hread
  exact Option.some.inj (hread.symm.trans (loads_dumps hj'))

end Json
