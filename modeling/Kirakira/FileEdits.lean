import Mathlib.Data.List.Chain
import Mathlib.Data.String.Basic
import Kirakira.Lib.Replacing

/-!
# File Edits

`edit_file` of `plugins/host_execution/bridge/filesystem.py` replaces a text in a file. Where the
file has only CRLF line ends and the text is not there as it stands, its line feeds are taken for
line ends of the file.

* A text is the list of its characters; the file is the bytes of one.
* `difflib` and the text of a decoding error are parameters.

## Main results

* `onlyCrlf_iff_chain` — a text has only CRLF line ends where neighbours fit, one by one.
* `onlyCrlf_replace_iff` — when replacing keeps the line ends of a file.
* `editFile_holds` — when an edit preserves everything else.
-/

namespace Kirakira.FileEdits

open Replacing

/-! ### Texts -/

/-- `"\r\n"`. -/
def crlf : List Char :=
  ['\r', '\n']

/-- `text.replace(m, r)`. -/
def replace (m r text : List Char) : List Char :=
  if m = [] then r ++ text.flatMap fun c => c :: r
  else List.intercalate r (split m text)

/-- `text.replace(m, r, 1)`. -/
def replaceFirst (m r text : List Char) : List Char :=
  if m = [] then r ++ text
  else
    match split m text with
    | front :: next :: pieces => front ++ r ++ List.intercalate m (next :: pieces)
    | _ => text

/-- `text.count(m)`. -/
def count (m text : List Char) : ℕ :=
  if m = [] then text.length + 1 else (split m text).length - 1

/-! ### The source -/

/-- `_strip_utf8_bom`. -/
def stripUtf8Bom (text : List Char) : List Char × Bool :=
  match text with
  | '\ufeff' :: rest => (rest, true)
  | _ => (text, false)

/-- `_restore_utf8_bom`. -/
def restoreUtf8Bom (text : List Char) (hasBom : Bool) : List Char :=
  if hasBom then '\ufeff' :: text else text

/-- `_supports_crlf_compat`. -/
def supportsCrlfCompat (text : List Char) : Bool :=
  if ¬crlf <:+: text then false
  else
    let bareLf := (replace crlf [] text).contains '\n'
    !bareLf && !(replace crlf [] text).contains '\r'

/-- The text that is looked for, and what it is replaced by. -/
def matchTexts (content old new : List Char) : List Char × List Char :=
  if ¬old <:+: content ∧ supportsCrlfCompat content = true then
    let compatOld := replace ['\n'] crlf old
    if compatOld <:+: content then (compatOld, replace ['\n'] crlf new) else (old, new)
  else (old, new)

/-- What is written instead of a content, and how many replacements were made. -/
def editContent (content old new : List Char) (replaceAll : Bool) :
    Except String (List Char × ℕ) :=
  let texts := matchTexts content old new
  if ¬texts.1 <:+: content then .error "错误：未找到 old_text，请确保与文件内容完全一致。"
  else
    let times := count texts.1 content
    if 1 < times ∧ replaceAll = false then
      .error (s!"警告：old_text 在文件中出现了 {times} 次。如需全部替换，设 replace_all=true；" ++
        "如需精确定位，请在 old_text 中包含更多上下文。")
    else if replaceAll then .ok (replace texts.1 texts.2 content, times)
    else .ok (replaceFirst texts.1 texts.2 content, 1)

/-- `FileResult`: a text, or a `FileError`. -/
inductive FileResult where
  | text (text : String)
  | error (text : String)

/-- The library: `_build_edit_diff`, and the text of a decoding error. -/
structure Library where
  buildEditDiff : List Char → List Char → String → String
  decodeError : ByteArray → String

/-- `EditFileOperation.execute` on a file with these bytes: its result, and the bytes after it. -/
def editFile (lib : Library) (path : String) (bytes : ByteArray) (old new : String)
    (replaceAll : Bool) : FileResult × ByteArray :=
  match String.fromUTF8? bytes with
  | none => (.error (s!"编辑文件失败：{lib.decodeError bytes}"), bytes)
  | some raw =>
      let stripped := stripUtf8Bom raw.toList
      match editContent stripped.1 old.toList new.toList replaceAll with
      | .error text => (.error text, bytes)
      | .ok (newContent, replaced) =>
          let diff := lib.buildEditDiff stripped.1 newContent path
          let restored := restoreUtf8Bom newContent stripped.2
          let done := s!"已成功编辑 {path}（替换 {replaced} 处）"
          (.text (if diff = "" then done else done ++ "\n\n```diff\n" ++ diff ++ "\n```"),
            (String.ofList restored).toUTF8)

/-! ### Line ends -/

/-- A text with no line end but CRLF. -/
def OnlyCrlf (text : List Char) : Prop :=
  '\n' ∉ replace crlf [] text ∧ '\r' ∉ replace crlf [] text

/-- A text whose line ends are all of one kind. -/
def Consistent (text : List Char) : Prop :=
  OnlyCrlf text ∨ '\r' ∉ text ∨ '\n' ∉ text

/-- A line feed stands behind a carriage return, and nothing else does. -/
def Fit (c d : Char) : Prop :=
  c = '\r' ↔ d = '\n'

/-- A character that is no part of a line end. -/
def plain : Char := 'a'

instance : DecidableRel Fit := fun c d => inferInstanceAs (Decidable (c = '\r' ↔ d = '\n'))

theorem replace_crlf_append (text : List Char) :
    replace crlf [] (crlf ++ text) = replace crlf [] text := by
  rw [replace, replace, if_neg (by decide), if_neg (by decide), split_append (by decide),
    List.intercalate_cons_of_ne_nil (split_ne_nil _ _)]
  rfl

variable {text back front m r content new old : List Char} {replaceAll : Bool}

theorem replace_crlf_cons {c : Char} (h : ¬crlf <+: c :: text) :
    replace crlf [] (c :: text) = c :: replace crlf [] text := by
  rw [replace, replace, if_neg (by decide), if_neg (by decide), split_cons h]
  obtain ⟨piece, pieces, hpieces⟩ := List.exists_cons_of_ne_nil (split_ne_nil crlf text)
  rw [hpieces, List.modifyHead_cons]
  cases pieces with
  | nil => rw [List.intercalate_singleton, List.intercalate_singleton]
  | cons next pieces => rw [List.intercalate_cons_cons, List.intercalate_cons_cons]; rfl

theorem chain_cons_iff {c : Char} (hc : c ≠ '\r') (text : List Char) :
    List.IsChain Fit (c :: text) ↔ List.IsChain Fit (plain :: text) := by
  rw [List.isChain_cons, List.isChain_cons]
  refine and_congr_left' (forall₂_congr fun d _ => ?_)
  rw [Fit, Fit, eq_false hc, eq_false (by decide : plain ≠ '\r')]

/-- **A text has only CRLF line ends** where neighbours fit. -/
theorem onlyCrlf_iff_chain (text : List Char) :
    OnlyCrlf text ↔ List.IsChain Fit (plain :: (text ++ [plain])) := by
  induction text using split_induction (m := crlf) (by decide) with
  | nil => exact iff_of_true ⟨List.not_mem_nil, List.not_mem_nil⟩ (by decide)
  | found text ih =>
      rw [OnlyCrlf, replace_crlf_append, ← OnlyCrlf, ih, ← chain_cons_iff (by decide : '\n' ≠ '\r')]
      simp [crlf, Fit, plain]
  | cons c text h ih =>
      rw [OnlyCrlf, replace_crlf_cons h, List.mem_cons, List.mem_cons, not_or, not_or,
        List.cons_append, List.isChain_cons_cons]
      by_cases hn : c = '\n'
      · exact iff_of_false (fun hall => hall.1.1 hn.symm) fun hchain =>
          absurd (hchain.1.mpr hn) (by decide)
      by_cases hr : c = '\r'
      · refine iff_of_false (fun hall => hall.2.1 hr.symm) fun hchain => ?_
        -- the line feed that fits behind the carriage return would make an occurrence
        cases text with
        | nil => exact absurd ((List.isChain_cons_cons.mp hchain.2).1.mp hr) (by decide)
        | cons d text =>
            have hd := (List.isChain_cons_cons.mp hchain.2).1.mp hr
            exact h ⟨text, by rw [hr, hd]; rfl⟩
      · have hfit : Fit plain c := iff_of_false (by decide) hn
        rw [chain_cons_iff hr, ← ih, OnlyCrlf, and_iff_right hfit, and_iff_right (Ne.symm hn),
          and_iff_right (Ne.symm hr)]

/-! ### Replacements that keep the line ends -/

/-- What a replacement must have for the line ends around it. -/
def Joins (m r : List Char) : Prop :=
  if r = [] then m.head? = some '\n' ↔ m.getLast? = some '\r'
  else
    List.IsChain Fit r ∧ (r.head? = some '\n' ↔ m.head? = some '\n') ∧
      (r.getLast? = some '\r' ↔ m.getLast? = some '\r')

theorem chain_around {b c d e : Char} (hb : front.getLast? = some b) (hc : text.head? = some c)
    (hd : text.getLast? = some d) (he : back.head? = some e) :
    List.IsChain Fit (front ++ text ++ back) ↔
      (List.IsChain Fit front ∧ List.IsChain Fit back) ∧
        List.IsChain Fit text ∧ Fit b c ∧ Fit d e := by
  have hlast : (front ++ text).getLast? = some d := by
    rw [List.getLast?_append, hd, Option.some_or]
  rw [List.isChain_append, List.isChain_append, hlast, he, hb, hc]
  simp only [Option.mem_some_iff, forall_eq']
  tauto

/-- **A replacement keeps the line ends** where it joins as the text before it did. -/
theorem joins_iff (hfront : front ≠ []) (hm : m ≠ []) (hback : back ≠ [])
    (h : List.IsChain Fit (front ++ m ++ back)) :
    List.IsChain Fit (front ++ r ++ back) ↔ Joins m r := by
  have hb := List.getLast?_eq_some_getLast hfront
  have hc := List.head?_eq_some_head hm
  have hd := List.getLast?_eq_some_getLast hm
  have he := List.head?_eq_some_head hback
  obtain ⟨⟨hchain, hchain'⟩, -, hbc, hde⟩ := (chain_around hb hc hd he).mp h
  rw [Fit] at hbc hde
  by_cases hr : r = []
  · rw [hr, List.append_nil, List.isChain_append, hb, he, Joins, if_pos rfl, hc, hd]
    simp only [Option.mem_some_iff, forall_eq', Option.some.injEq]
    rw [and_iff_right hchain, and_iff_right hchain', Fit, hbc, hde]
  · have hc' := List.head?_eq_some_head hr
    have hd' := List.getLast?_eq_some_getLast hr
    rw [chain_around hb hc' hd' he, Joins, if_neg hr, hc, hd, hc', hd', Fit, Fit, hbc, ← hde]
    simp only [Option.some.injEq]
    rw [and_iff_right ⟨hchain, hchain'⟩, Iff.comm (a := r.head hr = '\n')]

theorem chain_intercalate (hm : m ≠ []) (h : Joins m r) (hback : back ≠ [])
    (pieces : List (List Char)) (hfront : front ≠ [])
    (hchain : List.IsChain Fit (front ++ List.intercalate m pieces ++ back)) :
    List.IsChain Fit (front ++ List.intercalate r pieces ++ back) := by
  induction pieces generalizing front with
  | nil => exact hchain
  | cons piece pieces ih =>
      cases pieces with
      | nil =>
          rw [List.intercalate_singleton] at hchain ⊢
          exact hchain
      | cons next pieces =>
          have hfront' : front ++ piece ≠ [] := List.append_ne_nil_of_left_ne_nil hfront _
          rw [List.intercalate_cons_cons, ← List.append_assoc, ← List.append_assoc] at hchain ⊢
          refine ih (List.append_ne_nil_of_left_ne_nil hfront' r) ?_
          rw [List.append_assoc] at hchain ⊢
          exact (joins_iff hfront' hm (List.append_ne_nil_of_right_ne_nil _ hback) hchain).mpr h

theorem joins_of_adjacent {back' : List Char} (hfront : front ≠ []) (hm : m ≠ [])
    (h : List.IsChain Fit (front ++ m ++ (m ++ back)))
    (h' : List.IsChain Fit (front ++ r ++ (r ++ back'))) : Joins m r := by
  have hb := List.getLast?_eq_some_getLast hfront
  have hc := List.head?_eq_some_head hm
  have hd := List.getLast?_eq_some_getLast hm
  have he : (m ++ back).head? = some (m.head hm) := by rw [List.head?_append, hc, Option.some_or]
  obtain ⟨-, -, hbc, hdc⟩ := (chain_around hb hc hd he).mp h
  rw [Fit] at hbc hdc
  rw [Joins, hc, hd, Option.some.injEq, Option.some.injEq]
  by_cases hr : r = []
  · rw [if_pos hr, hdc]
  · have hc' := List.head?_eq_some_head hr
    have hd' := List.getLast?_eq_some_getLast hr
    have he' : (r ++ back').head? = some (r.head hr) := by
      rw [List.head?_append, hc', Option.some_or]
    obtain ⟨-, hchain, hbc', hdc'⟩ := (chain_around hb hc' hd' he').mp h'
    rw [Fit] at hbc' hdc'
    rw [if_neg hr, hc', hd', Option.some.injEq, Option.some.injEq, hdc', hdc, ← hbc, ← hbc']
    exact ⟨hchain, Iff.rfl, Iff.rfl⟩

theorem joins_of_chain (hm : m ≠ []) (hback : back ≠ []) (pieces : List (List Char))
    {piece next : List Char} (hfront : front ≠ [])
    (h : List.IsChain Fit (front ++ List.intercalate m (piece :: next :: pieces) ++ back))
    (h' : List.IsChain Fit (front ++ List.intercalate r (piece :: next :: pieces) ++ back)) :
    Joins m r := by
  induction pieces generalizing front piece next with
  | nil =>
      rw [List.intercalate_cons_cons, List.intercalate_singleton] at h h'
      simp only [← List.append_assoc] at h h'
      rw [List.append_assoc (front ++ piece ++ _)] at h h'
      exact (joins_iff (List.append_ne_nil_of_left_ne_nil hfront _) hm
        (List.append_ne_nil_of_right_ne_nil _ hback) h).mp h'
  | cons third pieces ih =>
      cases next with
      | cons c next =>
          have hsuffix : ∀ x : List Char,
              [c] ++ List.intercalate x (next :: third :: pieces) ++ back <:+
                front ++ List.intercalate x (piece :: (c :: next) :: third :: pieces) ++ back :=
            fun x => ⟨front ++ piece ++ x, by simp [List.intercalate_cons_cons]⟩
          exact ih (List.cons_ne_nil c []) (h.suffix (hsuffix m)) (h'.suffix (hsuffix r))
      | nil =>
          rw [List.intercalate_cons_cons, List.intercalate_cons_cons, List.nil_append] at h h'
          simp only [List.append_assoc] at h h'
          rw [← List.append_assoc, ← List.append_assoc] at h h'
          exact joins_of_adjacent (List.append_ne_nil_of_left_ne_nil hfront _) hm h h'

/-! ### Empty patterns -/

theorem onlyCrlf_between (r : List Char) (hn : '\n' ∉ text) (hr : '\r' ∉ text) :
    OnlyCrlf (r ++ text.flatMap fun c => c :: r) ↔ OnlyCrlf r := by
  rw [onlyCrlf_iff_chain, onlyCrlf_iff_chain]
  induction text with
  | nil => rw [List.flatMap_nil, List.append_nil]
  | cons c text ih =>
      rw [List.mem_cons, not_or] at hn hr
      have hfit : ∀ b : Char, Fit b c ↔ Fit b plain := fun b => by
        rw [Fit, Fit, eq_false (Ne.symm hn.1), eq_false (by decide : plain ≠ '\n')]
      have hfirst : List.IsChain Fit (plain :: (r ++ [c])) ↔
          List.IsChain Fit (plain :: (r ++ [plain])) := by
        rw [← List.cons_append, ← List.cons_append, List.isChain_append, List.isChain_append]
        simp only [List.isChain_singleton, List.head?_cons, Option.mem_some_iff, forall_eq', hfit]
      rw [List.flatMap_cons, List.append_assoc, List.cons_append, List.cons_append,
        List.isChain_cons_split, hfirst, chain_cons_iff (Ne.symm hr.1), ih hn.2 hr.2, and_self]

theorem not_mem_of_onlyCrlf (h : OnlyCrlf text) (hno : ¬crlf <:+: text) :
    '\n' ∉ text ∧ '\r' ∉ text := by
  have hsplit := split_of_not_infix hno
  rwa [OnlyCrlf, replace, if_neg (by decide), hsplit, List.intercalate_singleton] at h

theorem onlyCrlf_between_crlf (r : List Char) (h : OnlyCrlf text) (hin : crlf <:+: text) :
    OnlyCrlf (r ++ text.flatMap fun c => c :: r) ↔ r = [] := by
  constructor
  · intro hall
    by_contra hr
    rw [onlyCrlf_iff_chain] at hall
    obtain ⟨front, back, rfl⟩ := hin
    obtain ⟨c, r, rfl⟩ := List.exists_cons_of_ne_nil hr
    have hc := (List.isChain_cons_cons.mp hall).1
    have hinfix : ['\r', c] <:+:
        plain :: ((c :: r) ++ (front ++ crlf ++ back).flatMap (fun d => d :: c :: r) ++ [plain]) :=
      ⟨plain :: ((c :: r) ++ front.flatMap fun d => d :: c :: r),
        r ++ '\n' :: c :: r ++ (back.flatMap fun d => d :: c :: r) ++ [plain], by simp [crlf]⟩
    have hpair := hall.infix hinfix
    have hc' := (List.isChain_cons_cons.mp hpair).1
    exact absurd (hc.mpr (hc'.mp rfl)) (by decide)
  · rintro rfl
    simpa using h

/-! ### Edits that preserve everything else -/

/-- What is looked for in a content, and what stands in its place: the texts as they are, or with
line feeds for the line ends of a CRLF file. -/
def Looked (content old new m r : List Char) : Prop :=
  (old <:+: content ∧ m = old ∧ r = new) ∨
    (¬old <:+: content ∧ crlf <:+: content ∧ OnlyCrlf content ∧
      m = replace ['\n'] crlf old ∧ r = replace ['\n'] crlf new)

/-- A text stands at one position only. -/
def OnlyPosition (m content : List Char) : Prop :=
  ∀ front front', front ++ m <+: content → front' ++ m <+: content → front = front'

/-- One occurrence is replaced, and there was no other position. -/
def OnceReplaced (m r content content' : List Char) : Prop :=
  OnlyPosition m content ∧
    ∃ front back, content = front ++ m ++ back ∧ content' = front ++ r ++ back

/-- Every occurrence is replaced, and none of them overlap. -/
def AllReplaced (m r content content' : List Char) : Prop :=
  if m = [] then content' = r ++ content.flatMap fun c => c :: r
  else
    ∃ pieces : List (List Char), 1 < pieces.length ∧ (∀ piece ∈ pieces, ¬m <:+: piece) ∧
      content = List.intercalate m pieces ∧ content' = List.intercalate r pieces

/-- A content that differs only where the old text was replaced. -/
def Edited (content old new : List Char) (replaceAll : Bool) (content' : List Char) : Prop :=
  ∃ m r, Looked content old new m r ∧
    (replaceAll = true → AllReplaced m r content content') ∧
    (replaceAll = false → OnceReplaced m r content content') ∧
    (OnlyCrlf content → Consistent old → Consistent new → OnlyCrlf content')

/-- Where replacing keeps the line ends of a CRLF file. -/
def Keeps (content m r : List Char) : Prop :=
  if m = [] then OnlyCrlf r ∧ (crlf <:+: content → r = []) else Joins m r

/-- Where an edit that is made preserves everything else. -/
def Fits (content old new : List Char) (replaceAll : Bool) : Prop :=
  ∀ m r, Looked content old new m r → m <:+: content →
    (replaceAll = true ∨ count m content ≤ 1) →
      (replaceAll = false → OnlyPosition m content) ∧
      (OnlyCrlf content → Consistent old → Consistent new → Keeps content m r)

theorem supportsCrlfCompat_iff (text : List Char) :
    supportsCrlfCompat text = true ↔ crlf <:+: text ∧ OnlyCrlf text := by
  rw [supportsCrlfCompat, OnlyCrlf]
  by_cases h : crlf <:+: text <;> simp [h]

/-- **One pair of texts is looked for.** -/
theorem Looked.unique {m' r' : List Char} (h : Looked content old new m r)
    (h' : Looked content old new m' r') : m = m' ∧ r = r' := by
  rcases h with ⟨hin, rfl, rfl⟩ | ⟨hno, -, -, rfl, rfl⟩ <;>
    rcases h' with ⟨hin', rfl, rfl⟩ | ⟨hno', -, -, rfl, rfl⟩
  · exact ⟨rfl, rfl⟩
  · exact absurd hin hno'
  · exact absurd hin' hno
  · exact ⟨rfl, rfl⟩

theorem looked_matchTexts (h : Looked content old new m r) (hin : m <:+: content) :
    matchTexts content old new = (m, r) := by
  rw [matchTexts]
  rcases h with ⟨hold, rfl, rfl⟩ | ⟨hno, hcrlf, honly, rfl, rfl⟩
  · rw [if_neg fun hboth => hboth.1 hold]
  · rw [if_pos ⟨hno, (supportsCrlfCompat_iff _).mpr ⟨hcrlf, honly⟩⟩]
    exact if_pos hin

theorem matchTexts_looked (hin : (matchTexts content old new).1 <:+: content) :
    Looked content old new (matchTexts content old new).1 (matchTexts content old new).2 := by
  by_cases hold : old <:+: content
  · rw [looked_matchTexts (.inl ⟨hold, rfl, rfl⟩) hold]
    exact .inl ⟨hold, rfl, rfl⟩
  · by_cases hsupports : supportsCrlfCompat content = true
    · obtain ⟨hcrlf, honly⟩ := (supportsCrlfCompat_iff _).mp hsupports
      rw [matchTexts, if_pos ⟨hold, hsupports⟩] at hin ⊢
      dsimp only at hin ⊢
      split_ifs at hin ⊢
      · exact .inr ⟨hold, hcrlf, honly, rfl, rfl⟩
      · exact absurd hin hold
    · rw [matchTexts, if_neg fun hboth => hsupports hboth.2] at hin
      exact absurd hin hold

theorem exists_split (hm : m ≠ []) (hin : m <:+: content) :
    ∃ piece next pieces, split m content = piece :: next :: pieces := by
  have hlong := (one_lt_length_split_iff hm).mpr hin
  match hsplit : split m content with
  | [] => exact absurd hsplit (split_ne_nil m content)
  | [piece] => simp [hsplit] at hlong
  | piece :: next :: pieces => exact ⟨piece, next, pieces, rfl⟩

theorem replaceFirst_eq_replace (r : List Char) (hin : m <:+: content)
    (hone : count m content ≤ 1) : replaceFirst m r content = replace m r content := by
  by_cases hm : m = []
  · rw [count, if_pos hm] at hone
    obtain rfl := List.length_eq_zero_iff.mp (by omega : content.length = 0)
    rw [replaceFirst, if_pos hm, replace, if_pos hm, List.flatMap_nil]
  · obtain ⟨piece, next, pieces, hsplit⟩ := exists_split hm hin
    rw [count, if_neg hm, hsplit, List.length_cons, List.length_cons] at hone
    obtain rfl := List.length_eq_zero_iff.mp (by omega : pieces.length = 0)
    rw [replaceFirst, if_neg hm, replace, if_neg hm, hsplit, List.intercalate_cons_cons,
      List.intercalate_singleton, List.append_assoc]
    show piece ++ r ++ List.intercalate m [next] = _
    rw [List.intercalate_singleton, List.append_assoc]

theorem replace_allReplaced (r : List Char) (hin : m <:+: content) :
    AllReplaced m r content (replace m r content) := by
  by_cases hm : m = []
  · rw [AllReplaced, replace, if_pos hm, if_pos hm]
  · rw [AllReplaced, replace, if_neg hm, if_neg hm]
    exact ⟨split m content, (one_lt_length_split_iff hm).mpr hin,
      fun _ hpiece => not_infix_of_mem_split hm hpiece, (intercalate_split hm content).symm, rfl⟩

theorem exists_replaced (r : List Char) (hin : m <:+: content) (hone : count m content ≤ 1) :
    ∃ front back, content = front ++ m ++ back ∧ replace m r content = front ++ r ++ back := by
  by_cases hm : m = []
  · rw [count, if_pos hm] at hone
    obtain rfl := List.length_eq_zero_iff.mp (by omega : content.length = 0)
    exact ⟨[], [], by rw [hm]; rfl, by rw [replace, if_pos hm]; rfl⟩
  · obtain ⟨piece, next, pieces, hsplit⟩ := exists_split hm hin
    rw [count, if_neg hm, hsplit, List.length_cons, List.length_cons] at hone
    obtain rfl := List.length_eq_zero_iff.mp (by omega : pieces.length = 0)
    have hcontent := intercalate_split hm content
    rw [hsplit, List.intercalate_cons_cons, List.intercalate_singleton] at hcontent
    refine ⟨piece, next, hcontent.symm, ?_⟩
    rw [replace, if_neg hm, hsplit, List.intercalate_cons_cons, List.intercalate_singleton]

/-- **Replacing keeps the line ends of a file** where the texts join. -/
theorem onlyCrlf_replace_iff (r : List Char) (honly : OnlyCrlf content) (hin : m <:+: content) :
    OnlyCrlf (replace m r content) ↔ Keeps content m r := by
  by_cases hm : m = []
  · rw [replace, Keeps, if_pos hm, if_pos hm]
    by_cases hcrlf : crlf <:+: content
    · rw [onlyCrlf_between_crlf r honly hcrlf]
      refine ⟨fun hr => ⟨?_, fun _ => hr⟩, fun h => h.2 hcrlf⟩
      rw [hr]
      exact ⟨List.not_mem_nil, List.not_mem_nil⟩
    · obtain ⟨hn, hr⟩ := not_mem_of_onlyCrlf honly hcrlf
      rw [onlyCrlf_between r hn hr, and_iff_left fun h => absurd h hcrlf]
  · obtain ⟨piece, next, pieces, hsplit⟩ := exists_split hm hin
    have hcontent := intercalate_split hm content
    rw [hsplit] at hcontent
    rw [onlyCrlf_iff_chain, ← hcontent] at honly
    rw [onlyCrlf_iff_chain, replace, if_neg hm, hsplit, Keeps, if_neg hm]
    have hplain : [plain] ≠ [] := List.cons_ne_nil plain []
    exact ⟨joins_of_chain hm hplain pieces hplain honly, fun h =>
      chain_intercalate hm h hplain (piece :: next :: pieces) hplain honly⟩

/-- **An edit that is made** replaces what is looked for. -/
theorem editContent_ok (hlooked : Looked content old new m r) (hin : m <:+: content)
    (hcount : replaceAll = true ∨ count m content ≤ 1) :
    ∃ times, editContent content old new replaceAll = .ok (replace m r content, times) := by
  rw [editContent, looked_matchTexts hlooked hin]
  dsimp only
  rw [if_neg (not_not_intro hin)]
  cases replaceAll with
  | true => exact ⟨count m content, by simp⟩
  | false =>
      have hone := hcount.resolve_left Bool.false_ne_true
      rw [if_neg fun h => absurd hone (Nat.not_le.mpr h.1), replaceFirst_eq_replace r hin hone]
      exact ⟨1, rfl⟩

/-- **An edit that is not made**: nothing to replace, or too much. -/
theorem editContent_error (h : ¬∃ m r, Looked content old new m r ∧ m <:+: content ∧
      (replaceAll = true ∨ count m content ≤ 1)) :
    ∃ text, editContent content old new replaceAll = .error text := by
  rw [editContent]
  dsimp only
  by_cases hin : (matchTexts content old new).1 <:+: content
  · have hmany : ¬(replaceAll = true ∨ count (matchTexts content old new).1 content ≤ 1) :=
      fun hcount => h ⟨_, _, matchTexts_looked hin, hin, hcount⟩
    rw [not_or, Nat.not_le, Bool.not_eq_true] at hmany
    rw [if_neg (not_not_intro hin), if_pos hmany.symm]
    exact ⟨_, rfl⟩
  · rw [if_pos hin]
    exact ⟨_, rfl⟩

/-- **What is written is an edit** where it fits. -/
theorem edited_replace_iff (hlooked : Looked content old new m r) (hin : m <:+: content)
    (hcount : replaceAll = true ∨ count m content ≤ 1) :
    Edited content old new replaceAll (replace m r content) ↔
      Fits content old new replaceAll := by
  constructor
  · rintro ⟨m', r', hlooked', -, hfirst, honly⟩ m'' r'' hlooked'' - -
    obtain ⟨rfl, rfl⟩ := hlooked.unique hlooked'
    obtain ⟨rfl, rfl⟩ := hlooked.unique hlooked''
    exact ⟨fun hfalse => (hfirst hfalse).1, fun hcrlf hold hnew =>
      (onlyCrlf_replace_iff r hcrlf hin).mp (honly hcrlf hold hnew)⟩
  · intro hfits
    obtain ⟨hfirst, honly⟩ := hfits m r hlooked hin hcount
    refine ⟨m, r, hlooked, fun _ => replace_allReplaced r hin, fun hfalse => ⟨hfirst hfalse, ?_⟩,
      fun hcrlf hold hnew => (onlyCrlf_replace_iff r hcrlf hin).mpr (honly hcrlf hold hnew)⟩
    exact exists_replaced r hin (hcount.resolve_left (by rw [hfalse]; exact Bool.false_ne_true))

/-- The bytes of a text. -/
def fileOf (text : List Char) : ByteArray :=
  (String.ofList text).toUTF8

theorem fileOf_injective : Function.Injective fileOf :=
  fun _ _ h => String.ofList_injective (String.toByteArray_inj.mp h)

theorem restoreUtf8Bom_injective (hasBom : Bool) :
    Function.Injective fun text => restoreUtf8Bom text hasBom := by
  intro text text' h
  cases hasBom with
  | true => exact (List.cons.inj h).2
  | false => exact h

@[simp] theorem fromUTF8?_toUTF8 (raw : String) : String.fromUTF8? raw.toUTF8 = some raw := by
  exact dif_pos raw.isValidUTF8

/-- A call that fails and leaves the file as it is, or writes an edit of the text behind the BOM. -/
def Preserves (lib : Library) (path : String) (raw old new : String) (replaceAll : Bool) : Prop :=
  (∃ text, editFile lib path raw.toUTF8 old new replaceAll = (.error text, raw.toUTF8)) ∨
    ∃ text content', editFile lib path raw.toUTF8 old new replaceAll =
        (.text text, fileOf (restoreUtf8Bom content' (stripUtf8Bom raw.toList).2)) ∧
      Edited (stripUtf8Bom raw.toList).1 old.toList new.toList replaceAll content'

theorem preserves_iff_edited (lib : Library) (path : String) {raw old new : String}
    (hlooked : Looked (stripUtf8Bom raw.toList).1 old.toList new.toList m r)
    (hin : m <:+: (stripUtf8Bom raw.toList).1)
    (hcount : replaceAll = true ∨ count m (stripUtf8Bom raw.toList).1 ≤ 1) :
    Preserves lib path raw old new replaceAll ↔
      Edited (stripUtf8Bom raw.toList).1 old.toList new.toList replaceAll
        (replace m r (stripUtf8Bom raw.toList).1) := by
  obtain ⟨times, hok⟩ := editContent_ok hlooked hin hcount
  rw [Preserves, editFile, fromUTF8?_toUTF8]
  dsimp only
  rw [hok]
  constructor
  · rintro (⟨text, herror⟩ | ⟨text, content', hwritten, hedited⟩)
    · exact absurd (congrArg Prod.fst herror) (by simp)
    · have hbytes := fileOf_injective (congrArg Prod.snd hwritten)
      obtain rfl := restoreUtf8Bom_injective _ hbytes
      exact hedited
  · exact fun hedited => .inr ⟨_, _, rfl, hedited⟩

/-- **Editing a file preserves everything else** exactly where the edit that is made fits. -/
theorem editFile_holds (lib : Library) (path : String) (raw old new : String)
    (replaceAll : Bool) :
    Preserves lib path raw old new replaceAll ↔
      Fits (stripUtf8Bom raw.toList).1 old.toList new.toList replaceAll := by
  by_cases hmade : ∃ m r, Looked (stripUtf8Bom raw.toList).1 old.toList new.toList m r ∧
      m <:+: (stripUtf8Bom raw.toList).1 ∧
      (replaceAll = true ∨ count m (stripUtf8Bom raw.toList).1 ≤ 1)
  · obtain ⟨m, r, hlooked, hin, hcount⟩ := hmade
    rw [preserves_iff_edited lib path hlooked hin hcount, edited_replace_iff hlooked hin hcount]
  · obtain ⟨text, herror⟩ := editContent_error hmade
    refine iff_of_true (.inl ⟨text, ?_⟩) fun m r hlooked hin hcount => ?_
    · rw [editFile, fromUTF8?_toUTF8]
      dsimp only
      rw [herror]
    · exact absurd ⟨m, r, hlooked, hin, hcount⟩ hmade

/-- Of two overlapping positions one is replaced, and a line feed goes into a CRLF file when what
it stands for has none. -/
theorem editFile_damages :
    let lib : Library := { buildEditDiff := fun _ _ _ => "", decodeError := fun _ => "" }
    ¬Preserves lib "a.txt" "aaa" "aa" "b" false ∧
      ¬Preserves lib "a.txt" "a\r\nb" "b" "x\ny" false := by
  constructor
  · rw [preserves_iff_edited _ _ (.inl ⟨by decide, rfl, rfl⟩) (by decide) (.inr (by decide))]
    rintro ⟨m, r, hlooked, -, hfirst, -⟩
    obtain ⟨rfl, -⟩ := hlooked.unique (.inl ⟨by decide, rfl, rfl⟩)
    exact absurd ((hfirst rfl).1 [] ['a'] (by decide) (by decide)) (by decide)
  · rw [preserves_iff_edited _ _ (.inl ⟨by decide, rfl, rfl⟩) (by decide) (.inr (by decide))]
    rintro ⟨m, r, -, -, -, honly⟩
    have hcrlf : OnlyCrlf (stripUtf8Bom "a\r\nb".toList).1 := ⟨by decide, by decide⟩
    have hboth := honly hcrlf (.inr (.inl (by decide))) (.inr (.inl (by decide)))
    exact hboth.1 (by decide)

end Kirakira.FileEdits
