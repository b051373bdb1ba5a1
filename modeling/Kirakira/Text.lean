import Mathlib.Data.Nat.Notation

/-!
# Texts

The methods of `str` that the modelled code calls, on Unicode code points.
-/

namespace Kirakira

/-- `str.isspace` of one character. -/
def isSpace (c : Char) : Bool :=
  let n := c.toNat
  (decide (9 ≤ n) && decide (n ≤ 13)) || (decide (28 ≤ n) && decide (n ≤ 32)) ||
    (decide (0x2000 ≤ n) && decide (n ≤ 0x200A)) ||
    [0x85, 0xA0, 0x1680, 0x2028, 0x2029, 0x202F, 0x205F, 0x3000].contains n

theorem isSpace_of_all {s : String} (h : (s.toList.all fun c => !isSpace c) = true) :
    ∀ c ∈ s.toList, isSpace c = false := by
  intro c hc
  have hnot := List.all_eq_true.mp h c hc
  rwa [Bool.not_eq_true'] at hnot

/-- `str.strip`. -/
def strip (s : String) : String :=
  String.ofList (((s.toList.dropWhile isSpace).reverse.dropWhile isSpace).reverse)

theorem strip_of_no_space {s : String} (h : ∀ c ∈ s.toList, isSpace c = false) : strip s = s := by
  have hdrop : ∀ cs : List Char, (∀ c ∈ cs, isSpace c = false) → cs.dropWhile isSpace = cs := by
    intro cs hcs
    cases cs with
    | nil => rfl
    | cons c cs => rw [List.dropWhile_cons, hcs c List.mem_cons_self]; rfl
  rw [strip, hdrop _ h, hdrop _ fun c hc => h c (List.mem_reverse.mp hc), List.reverse_reverse,
    String.ofList_toList]

/-- The words `str.split` finds, the first of which has already begun. -/
def splitWords : List Char → List Char → List String
  | word, [] => if word = [] then [] else [String.ofList word.reverse]
  | word, c :: cs =>
      if isSpace c then
        if word = [] then splitWords [] cs else String.ofList word.reverse :: splitWords [] cs
      else splitWords (c :: word) cs

/-- `str.split()`. -/
def words (s : String) : List String :=
  splitWords [] s.toList

/-- Whether a text is of hexadecimal digits. -/
def isHex (text : String) : Bool :=
  text.toList.all fun c => "0123456789abcdef".toList.contains c

theorem isSpace_of_isHex {text : String} (h : isHex text = true) :
    ∀ c ∈ text.toList, isSpace c = false := by
  intro c hc
  have hdigits : ∀ d ∈ "0123456789abcdef".toList, isSpace d = false := isSpace_of_all (by decide)
  exact hdigits c (List.contains_iff_mem.mp (List.all_eq_true.mp h c hc))

/-- Whether a text is a SHA-256 digest in hexadecimal. -/
def isDigest (text : String) : Bool :=
  text.length = 64 && text.toList.all fun c => "0123456789abcdef".toList.contains c

end Kirakira
