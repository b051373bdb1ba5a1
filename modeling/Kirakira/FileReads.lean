import Mathlib.Algebra.Order.Ring.Nat
import Mathlib.Data.Int.Notation
import Mathlib.Data.List.Basic
import Mathlib.Tactic.SplitIfs

/-!
# File Reads

`read_file` of `plugins/host_execution/bridge/filesystem.py` shows the lines of a file with their
numbers, as many as there is room for. The scan of the file stops keeping lines when it has more
than there is room for; it still counts what follows.

* What the library makes of undecodable bytes and of images is a parameter.
* A scan takes when it is full as a parameter: one that is never full keeps every selected line.

## Main results

* `outputLoop_append` — the lines behind the one that finds no room do not matter.
* `Agrees.scanLine` — what the two scans have in common after every line.
* `readFromDisk_scanTextFile` — **the early stop is not seen**.
-/

namespace Kirakira.FileReads

/-! ### The source -/

/-- `_READ_MAX_LINES`. -/
def readMaxLines : ℕ := 400

/-- `_READ_MAX_BYTES`. -/
def readMaxBytes : ℕ := 10000

/-- `_READ_PROBE_BYTES`. -/
def readProbeBytes : ℕ := 4096

/-- What a call returns: a text, a `FileImage` or a `FileError`. -/
inductive FileResult where
  | text (text : String)
  | image (mimeType : String) (data : List UInt8)
  | error (text : String)

/-- The library: `errors="replace"`, `detect_supported_image_mime` and `_read_image`. -/
structure Library where
  decodeReplace : List UInt8 → String
  detectSupportedImageMime : List UInt8 → Option String
  readImage : List UInt8 → FileResult

/-- `_looks_binary`; the share of the suspicious bytes is compared without a division. -/
def looksBinary (head : List UInt8) : Bool :=
  if head = [] then false
  else if head.contains 0 then true
  else
    let suspicious := head.countP fun byte =>
      !([9, 10, 13, 12, 8].contains byte) && !(32 ≤ byte && byte ≤ 126) && !(128 ≤ byte)
    3 * head.length < 10 * suspicious

/-- The lines that `readline` returns one after another. -/
def readLines : List UInt8 → List (List UInt8)
  | [] => []
  | byte :: bytes =>
      if byte = 10 then [byte] :: readLines bytes
      else
        match readLines bytes with
        | [] => [[byte]]
        | line :: lines => (byte :: line) :: lines

/-- `_decode_line`. -/
def decodeLine (lib : Library) (raw : List UInt8) : String × Bool :=
  match String.fromUTF8? ⟨raw.toArray⟩ with
  | some line => (line, false)
  | none => (lib.decodeReplace raw, true)

/-- A line behind its number. -/
def numbered (i : ℤ) (line : String) : String :=
  "".pushn ' ' (6 - (toString i).length) ++ toString i ++ "→" ++ line

/-- `enumerate(lines, start)`. -/
def numberedLines (start : ℤ) : List String → List String
  | [] => []
  | line :: lines => numbered start line :: numberedLines (start + 1) lines

/-- The variables of `_scan_text_file`. -/
structure Scan where
  slicedLines : List String := []
  totalLines : ℕ := 0
  totalBytes : ℕ := 0
  hadDecodeErrors : Bool := false
  retainedBytes : ℕ := 0
  retainedFull : Bool := false

/-- When enough lines are kept: how many they are, and how many bytes with their numbers. -/
abbrev Full := ℕ → ℕ → Bool

/-- The body of the loop of `_scan_text_file`. -/
def scanLine (lib : Library) (full : Full) (offset : ℤ) (limit : Option ℤ) (s : Scan)
    (raw : List UInt8) : Scan :=
  let decoded := decodeLine lib raw
  let counted := { s with
    totalLines := s.totalLines + 1
    totalBytes := s.totalBytes + raw.length
    hadDecodeErrors := s.hadDecodeErrors || decoded.2 }
  if (s.totalLines : ℤ) < offset then counted
  else if limit.any fun limit => limit ≤ (s.slicedLines.length : ℤ) then counted
  else if s.retainedFull then counted
  else
    let lines := s.slicedLines ++ [decoded.1]
    let bytes := s.retainedBytes + (numbered (offset + lines.length) decoded.1).utf8ByteSize
    { counted with
      slicedLines := lines
      retainedBytes := bytes
      retainedFull := full lines.length bytes }

/-- `_scan_text_file` up to when it is full. -/
def scan (lib : Library) (full : Full) (offset : ℤ) (limit : Option ℤ) (bytes : List UInt8) :
    Scan :=
  (readLines bytes).foldl (scanLine lib full offset limit) {}

/-- More lines or bytes than there is room for. -/
def overflows : Full := fun lines bytes =>
  readMaxLines < lines || readMaxBytes < bytes

/-- What `_truncate_numbered_lines` returns. -/
structure Truncated where
  text : String
  truncated : Bool
  truncatedBy : Option String
  firstLineTooLong : Bool
  outputLines : ℕ
  outputBytes : ℕ

/-- The loop of `_truncate_numbered_lines`; as many lines were put out as the index says. -/
def outputLoop (parts : List String) (usedBytes idx : ℕ) :
    List String → List String × Option String × ℕ × ℕ
  | [] => (parts, none, idx, usedBytes)
  | line :: lines =>
      if readMaxLines ≤ idx then (parts, some "lines", idx, usedBytes)
      else if readMaxBytes < usedBytes + line.utf8ByteSize then (parts, some "bytes", idx, usedBytes)
      else outputLoop (parts ++ [line]) (usedBytes + line.utf8ByteSize) (idx + 1) lines

/-- `_truncate_numbered_lines`. -/
def truncateNumberedLines (rawLines numberedLines : List String) : Truncated :=
  match rawLines, numberedLines with
  | first :: _, _ :: _ =>
      if readMaxBytes < first.utf8ByteSize then ⟨"", true, some "first_line_bytes", true, 0, 0⟩
      else
        let (parts, truncatedBy, outputLines, usedBytes) := outputLoop [] 0 0 numberedLines
        ⟨String.join parts, truncatedBy.isSome, truncatedBy, false, outputLines, usedBytes⟩
  | _, _ => ⟨"", false, none, false, 0, 0⟩

/-- What is shown of a scan. -/
def report (offset : ℤ) (limit : Option ℤ) (s : Scan) : String :=
  let shown := truncateNumberedLines s.slicedLines (numberedLines (offset + 1) s.slicedLines)
  let endLine := offset + s.slicedLines.length
  let suffixNote :=
    if shown.firstLineTooLong then
      "\n\n[已截断：首行超过 10KB，直接返回半行价值很低。建议缩小读取范围，或改用 shell 查看局部字节内容。]"
    else if shown.truncated then
      let reason := if shown.truncatedBy = some "lines" then "行数超限" else "字节数超限"
      s!"\n\n[已截断：文件共 {s.totalLines} 行 / {s.totalBytes} 字节，" ++
        s!"本次返回 {shown.outputLines} 行 / {shown.outputBytes} 字节，因{reason}只返回前一部分。" ++
        s!"建议用 limit=N 分段读取，例如 offset={offset} limit=100。]"
    else if 0 < offset ∨ limit.isSome then
      s!"\n\n[第 {offset + 1}–{endLine} 行 / 共 {s.totalLines} 行 / {s.totalBytes} 字节]"
    else if s.slicedLines.length < s.totalLines then
      s!"\n\n[共 {s.totalLines} 行 / {s.totalBytes} 字节]"
    else ""
  let decodeNote :=
    if s.hadDecodeErrors then "\n\n[提示：文件不是标准 UTF-8，已用替代字符显示无法解码的字节。]" else ""
  shown.text ++ (suffixNote ++ decodeNote)

/-- `read_from_disk` on a file with these bytes, by a scan that is full at some point. -/
def readFromDisk (lib : Library) (full : Full) (path : String) (offset : ℤ) (limit : Option ℤ)
    (bytes : List UInt8) : FileResult :=
  let head := bytes.take readProbeBytes
  if (lib.detectSupportedImageMime head).isSome then lib.readImage bytes
  else if looksBinary head then
    .error (s!"错误：{path} 看起来是二进制文件，read_file 仅适合文本和图片。" ++
      "建议改用 shell 搭配 file/xxd/strings 查看。")
  else .text (report offset limit (scan lib full offset limit bytes))

/-! ### Lines that find no room -/

variable {lines : List String} {offset : ℤ} {whole : Scan}

/-- **The lines behind the one that finds no room** do not matter. -/
theorem outputLoop_append {parts : List String} {used idx : ℕ} (more : List String)
    (h : (outputLoop parts used idx lines).2.1 ≠ none) :
    outputLoop parts used idx (lines ++ more) = outputLoop parts used idx lines := by
  induction lines generalizing parts used idx with
  | nil => exact absurd rfl h
  | cons line lines ih =>
      rw [outputLoop] at h
      rw [List.cons_append, outputLoop, outputLoop]
      split_ifs at h ⊢
      · rfl
      · rfl
      · exact ih h

theorem outputLoop_ne_none {parts : List String} {used idx : ℕ} (hidx : idx ≤ readMaxLines)
    (hused : used ≤ readMaxBytes) (h : readMaxLines < idx + lines.length ∨
      readMaxBytes < used + (lines.map String.utf8ByteSize).sum) :
    (outputLoop parts used idx lines).2.1 ≠ none := by
  induction lines generalizing parts used idx with
  | nil =>
      rw [List.length_nil, List.map_nil, List.sum_nil] at h
      omega
  | cons line lines ih =>
      rw [List.length_cons, List.map_cons, List.sum_cons] at h
      rw [outputLoop]
      split_ifs with hfull hlong
      · exact Option.some_ne_none _
      · exact Option.some_ne_none _
      · exact ih (by omega) (by omega) (by omega)

theorem numberedLines_append (start : ℤ) (lines more : List String) :
    numberedLines start (lines ++ more) =
      numberedLines start lines ++ numberedLines (start + lines.length) more := by
  induction lines generalizing start with
  | nil => rw [List.length_nil, Int.natCast_zero, Int.add_zero]; rfl
  | cons line lines ih =>
      have hstart : start + 1 + (lines.length : ℤ) = start + ((line :: lines).length : ℤ) := by
        rw [List.length_cons]
        omega
      rw [List.cons_append, numberedLines, numberedLines, ih, hstart, List.cons_append]

theorem length_numberedLines (start : ℤ) (lines : List String) :
    (numberedLines start lines).length = lines.length := by
  induction lines generalizing start with
  | nil => rfl
  | cons line lines ih => rw [numberedLines, List.length_cons, ih, List.length_cons]

/-- How many bytes the lines have with their numbers. -/
def numberedBytes (offset : ℤ) (lines : List String) : ℕ :=
  ((numberedLines (offset + 1) lines).map String.utf8ByteSize).sum

/-- **Lines that overflow are truncated** as they are with any lines behind them, and not at their
end. -/
theorem truncateNumberedLines_append (more : List String)
    (h : overflows lines.length (numberedBytes offset lines) = true) :
    truncateNumberedLines (lines ++ more) (numberedLines (offset + 1) (lines ++ more)) =
        truncateNumberedLines lines (numberedLines (offset + 1) lines) ∧
      (truncateNumberedLines lines (numberedLines (offset + 1) lines)).truncated = true := by
  rw [overflows, Bool.or_eq_true, decide_eq_true_iff, decide_eq_true_iff] at h
  have hstops : (outputLoop [] 0 0 (numberedLines (offset + 1) lines)).2.1 ≠ none := by
    refine outputLoop_ne_none (Nat.zero_le _) (Nat.zero_le _) ?_
    rw [length_numberedLines, Nat.zero_add, Nat.zero_add]
    exact h
  have hsame := outputLoop_append (numberedLines (offset + 1 + lines.length) more) hstops
  rw [← numberedLines_append] at hsame
  cases lines with
  | nil => exact absurd rfl hstops
  | cons first lines =>
      have hcons : ∀ tail, numberedLines (offset + 1) (first :: tail) =
          numbered (offset + 1) first :: numberedLines (offset + 1 + 1) tail := fun _ => rfl
      rw [List.cons_append, hcons, hcons] at hsame
      rw [hcons] at hstops
      rw [List.cons_append, hcons, hcons, truncateNumberedLines, truncateNumberedLines]
      split_ifs
      · exact ⟨rfl, rfl⟩
      · rw [hsame]
        generalize outputLoop [] 0 0 _ = shown at hstops ⊢
        exact ⟨rfl, Option.isSome_iff_ne_none.mpr hstops⟩

/-! ### The two scans -/

/-- A scan that stops keeping lines, and one that keeps every selected line. -/
structure Agrees (offset : ℤ) (s whole : Scan) : Prop where
  totalLines : s.totalLines = whole.totalLines
  totalBytes : s.totalBytes = whole.totalBytes
  hadDecodeErrors : s.hadDecodeErrors = whole.hadDecodeErrors
  retained : s.retainedBytes = numberedBytes offset s.slicedLines
  room : s.retainedFull = false → s.slicedLines = whole.slicedLines
  full : s.retainedFull = true →
    overflows s.slicedLines.length s.retainedBytes = true ∧ s.slicedLines <+: whole.slicedLines
  never : whole.retainedFull = false

theorem Agrees.count {s : Scan} (h : Agrees offset s whole) (lines bytes : ℕ) (errors : Bool) :
    Agrees offset
      { s with totalLines := lines, totalBytes := bytes, hadDecodeErrors := errors }
      { whole with totalLines := lines, totalBytes := bytes, hadDecodeErrors := errors } :=
  ⟨rfl, rfl, rfl, h.retained, h.room, h.full, h.never⟩

theorem numberedBytes_concat (offset : ℤ) (lines : List String) (line : String) :
    numberedBytes offset (lines ++ [line]) = numberedBytes offset lines +
      (numbered (offset + (lines ++ [line]).length) line).utf8ByteSize := by
  have hnumber : offset + 1 + (lines.length : ℤ) = offset + ((lines ++ [line]).length : ℤ) := by
    rw [List.length_append, List.length_singleton]
    omega
  rw [numberedBytes, numberedBytes, numberedLines_append, hnumber, List.map_append,
    List.sum_append]
  rfl

/-- **Every line keeps what the scans have in common.** -/
theorem Agrees.scanLine {s : Scan} (h : Agrees offset s whole) (lib : Library) (limit : Option ℤ)
    (raw : List UInt8) :
    Agrees offset (scanLine lib overflows offset limit s raw)
      (scanLine lib (fun _ _ => false) offset limit whole raw) := by
  have hcount := h.count (s.totalLines + 1) (s.totalBytes + raw.length)
    (s.hadDecodeErrors || (decodeLine lib raw).2)
  rw [FileReads.scanLine, FileReads.scanLine]
  dsimp only
  rw [← h.totalLines, ← h.totalBytes, ← h.hadDecodeErrors, if_neg (ne_true_of_eq_false h.never)]
  by_cases hfull : s.retainedFull = true
  · -- the scan that is full keeps the lines it has
    obtain ⟨hover, hprefix⟩ := h.full hfull
    rw [if_pos hfull, ite_self, ite_self]
    split_ifs
    · exact hcount
    · exact hcount
    · exact ⟨rfl, rfl, rfl, h.retained, fun hroom => absurd hfull (ne_true_of_eq_false hroom),
        fun _ => ⟨hover, hprefix.trans (List.prefix_append _ _)⟩, rfl⟩
  · have hsame := h.room (eq_false_of_ne_true hfull)
    rw [if_neg hfull, ← hsame]
    split_ifs
    · exact hsame ▸ hcount
    · exact hsame ▸ hcount
    · have hbytes := numberedBytes_concat offset s.slicedLines (decodeLine lib raw).1
      rw [← h.retained] at hbytes
      exact ⟨rfl, rfl, rfl, hbytes.symm, fun _ => rfl, fun hover => ⟨hover, List.prefix_rfl⟩, rfl⟩

theorem scan_agrees (lib : Library) (offset : ℤ) (limit : Option ℤ) (bytes : List UInt8) :
    Agrees offset (scan lib overflows offset limit bytes)
      (scan lib (fun _ _ => false) offset limit bytes) := by
  have hrun : ∀ (lines : List (List UInt8)) (s whole : Scan), Agrees offset s whole →
      Agrees offset (lines.foldl (scanLine lib overflows offset limit) s)
        (lines.foldl (scanLine lib (fun _ _ => false) offset limit) whole) := by
    intro lines
    induction lines with
    | nil => exact fun _ _ h => h
    | cons line lines ih => exact fun _ _ h => ih _ _ (h.scanLine lib limit line)
  exact hrun _ _ _ ⟨rfl, rfl, rfl, rfl, fun _ => rfl, nofun, rfl⟩

theorem Agrees.report_eq {s : Scan} (h : Agrees offset s whole) (limit : Option ℤ) :
    report offset limit s = report offset limit whole := by
  rw [report, report, ← h.totalLines, ← h.totalBytes, ← h.hadDecodeErrors]
  by_cases hfull : s.retainedFull = true
  · obtain ⟨hover, more, hmore⟩ := h.full hfull
    rw [h.retained] at hover
    obtain ⟨hsame, htruncated⟩ := truncateNumberedLines_append more hover
    rw [← hmore, hsame]
    dsimp only
    -- what is not truncated is not shown, so where the lines end is not said
    rw [if_pos htruncated, if_pos htruncated]
  · rw [h.room (eq_false_of_ne_true hfull)]

/-- **The early stop is not seen**: not in the text, not in why and where it ends, and not in what
is said of the file. -/
theorem readFromDisk_scanTextFile (lib : Library) (path : String) (offset : ℤ) (limit : Option ℤ)
    (bytes : List UInt8) :
    readFromDisk lib overflows path offset limit bytes =
      readFromDisk lib (fun _ _ => false) path offset limit bytes := by
  rw [readFromDisk, readFromDisk, (scan_agrees lib offset limit bytes).report_eq limit]

end Kirakira.FileReads
