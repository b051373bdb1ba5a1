import Mathlib.Data.List.Dedup
import Kirakira.Lib.Dict
import Kirakira.Lib.Exceptions
import Kirakira.Lines

/-!
# Memory Documents

The files of the long-term memory and the operations that a language model proposes on them,
`plugins/markdown_memory/documents.py`. Operations are checked on a copy of the files (`strict`)
and written down; a writer replays them on the files as it finds them, maybe after a crash.

* Paths and texts are lists of characters; a folder belongs to one scope.
* A replay raises nothing: an operation whose premise has gone is reported as a conflict.

## Main results

* `replay_of_strict` — on the files it was checked on, a draft does what its check did.
* `replay_isolated` — **a replay stays in its scope**, on any files.
* `lines_kept` — **no line is lost** but those that the operations name.
-/

namespace Kirakira.MarkdownMemory

open Exceptions Lines

/-! ### Operations -/

/-- A text, or a path. -/
abbrev Text := List Char

/-- `line in lines`. -/
scoped instance decidableMem (line : Text) (lines : List Text) : Decidable (line ∈ lines) :=
  decidable_of_iff (lines.contains line = true) List.contains_iff_mem

/-- `OpName`. -/
inductive OpName where
  | add
  | supersede
  | retract
  | create
  | createFolder
  | merge
  | prune
  deriving DecidableEq, Repr

/-- The text of the name. -/
def OpName.text : OpName → String
  | .add => "add"
  | .supersede => "supersede"
  | .retract => "retract"
  | .create => "create"
  | .createFolder => "create_folder"
  | .merge => "merge"
  | .prune => "prune"

/-- `Op`. -/
structure Op where
  op : OpName
  doc : Text
  line : Text := []
  old : Text := []
  section_ : Text := []
  description : Text := []
  messageIds : List Text := []
  olds : List Text := []
  deriving DecidableEq, Repr

/-! ### Files -/

/-- `MEMORY`. -/
def memory : Text := "MEMORY.md".toList

/-- `SELF`. -/
def self : Text := "SELF.md".toList

/-- `TOPICS`. -/
def topics : Text := "topics".toList

/-- `SCOPE_FILE`. -/
def scopeFile : Text := "_scope.md".toList

/-- `MEMORY_HEADINGS`. -/
def memoryHeadings : List Text :=
  ["# 用户长期记忆".toList, "## 用户事实".toList, "## 用户偏好".toList,
    "## 用户明确要求长期记住的关键内容".toList]

/-- `SELF_HEADINGS`. -/
def selfHeadings : List Text :=
  ["# Kirakira 的自我认知".toList, "## 人格与形象".toList, "## 我对当前用户的理解".toList,
    "## 我们关系的定义".toList]

/-- `USER_HEADINGS`, which has the keys of `USER_SECTIONS`. -/
def userHeadings (doc : Text) : Option (List Text) :=
  if doc = memory then some memoryHeadings.tail
  else if doc = self then some selfHeadings.tail
  else none

/-- `_FOLDER.fullmatch`. -/
def isFolder : Text → Bool
  | [] => false
  | c :: cs => !isSpace c && !"/\\._".toList.contains c && decide (cs.length ≤ 39) &&
      cs.all fun d => d != '/' && d != '\\'

/-- A small letter or a digit. -/
def isPlain (c : Char) : Bool :=
  c.isLower || c.isDigit

/-- `_TOPIC_FILE.fullmatch`. -/
def isTopicFile (file : Text) : Bool :=
  ".md".toList.isSuffixOf file && match file.take (file.length - 3) with
    | [] => false
    | c :: cs => isPlain c && decide (cs.length ≤ 63) && cs.all fun d => isPlain d || d == '-'

/-- `scope_text`. -/
def scopeText (scope description : Text) : Text :=
  "---\nscope: ".toList ++ scope ++ "\ndescription: ".toList ++ description ++ "\n---\n".toList

/-- `MEMORY_TEMPLATE`. -/
def memoryTemplate : Text :=
  "\n\n".toList.intercalate memoryHeadings ++ ['\n']

/-- `topic_text`. -/
def topicText (description line : Text) : Text :=
  "---\ndescription: ".toList ++ description ++ "\n---\n".toList ++ line ++ ['\n']

/-- `"/".join`. -/
def path (parts : List Text) : Text :=
  ['/'].intercalate parts

/-- `writable`. -/
def writable (doc : Text) (folder : Option Text) : Bool :=
  if doc = memory ∨ doc = self then true
  else match doc.splitOn '/' with
    | [top, file] => decide (top = topics) && isTopicFile file
    | [top, name, file] => decide (top = topics) && isTopicFile file && decide (folder = some name)
    | _ => false

/-- `append_section_lines`, for one line. -/
def appendSectionLine (content heading line : Text) : Text :=
  let values := splitLines (rstrip content)
  let values := if heading ∈ values then values else values ++ [[], heading]
  let start := values.idxOf heading + 1
  let body := (values.drop start).takeWhile fun row => row.head? ≠ some '#'
  let kept := body.rdropWhile fun row => trim row = []
  let added := [line].filter fun row => row ∉ values
  joinLines (values.take start ++ kept ++ added ++ values.drop (start + kept.length)) ++ ['\n']

/-! ### Workspaces -/

/-- `Workspace`. -/
structure Workspace where
  texts : Dict Text Text
  folders : Dict Text Text
  scope : Option Text
  conflicts : List String := []

/-- `Workspace.folder`. -/
def Workspace.folder (w : Workspace) : Option Text :=
  (w.folders.entries.find? fun e => some e.2 = w.scope).map Prod.fst

/-- `self.texts[doc] = text`. -/
def Workspace.put (w : Workspace) (doc text : Text) : Workspace :=
  { w with texts := w.texts.set doc text }

/-- `self.conflicts.append(text)`. -/
def Workspace.conflict (w : Workspace) (text : String) : Workspace :=
  { w with conflicts := w.conflicts ++ [text] }

/-- `self.texts.get(doc, "")`. -/
def Workspace.text (w : Workspace) (doc : Text) : Text :=
  (w.texts.get? doc).getD []

/-- `_replay_target`. -/
def Workspace.replayTarget (w : Workspace) (doc : Text) : Option Text :=
  match doc.splitOn '/' with
  | [top, _, file] => w.folder.map fun name => path [top, name, file]
  | _ => some doc

/-- A name is not among those that are longer than it. -/
theorem longer_lt {names : List Text} {name : Text} (h : name ∈ names) :
    (names.filter fun other => (name ++ "-2".toList).length ≤ other.length).length <
      (names.filter fun other => name.length ≤ other.length).length := by
  have hboth : (names.filter fun other => (name ++ "-2".toList).length ≤ other.length) =
      (names.filter fun other => name.length ≤ other.length).filter
        fun other => (name ++ "-2".toList).length ≤ other.length := by
    rw [List.filter_filter]
    refine List.filter_congr fun other _ => ?_
    rw [List.length_append, ← Bool.decide_and, decide_eq_decide]
    omega
  rw [hboth]
  refine List.length_filter_lt_length_iff_exists.mpr
    ⟨name, List.mem_filter.mpr ⟨h, decide_eq_true le_rfl⟩, ?_⟩
  simp

/-- `while name in self.folders: name += "-2"`. -/
def freeName (names : List Text) (name : Text) : Text :=
  if name ∈ names then freeName names (name ++ "-2".toList) else name
termination_by (names.filter fun other => name.length ≤ other.length).length
decreasing_by exact longer_lt ‹_›

/-- `_create_folder`. -/
def Workspace.createFolder (w : Workspace) (op : Op) (strict : Bool) : Except String Workspace :=
  match op.doc.dropWhile (· ≠ '/') with
  | [] => .error "list index out of range"
  | _ :: name =>
      if strict && (w.scope.isNone || w.folder.isSome || (w.folders.get? name).isSome ||
          !isFolder name) then
        .error "只能为尚无文件夹的当前 scope 新建一个未占用的合法文件夹"
      else match w.scope, w.folder with
        | some scope, none =>
            let name := freeName (w.folders.entries.map Prod.fst) name
            .ok { w with
              folders := w.folders.set name scope
              texts := w.texts.set (path [topics, name, scopeFile])
                (scopeText scope op.description) }
        | _, _ => .ok w

/-- `_add`. -/
def Workspace.add (w : Workspace) (doc : Text) (op : Op) (strict : Bool) (index : ℕ) :
    Except String Workspace :=
  let text := w.text doc
  if op.line ∈ splitLines text then
    if strict then .error s!"重复已有条目: {String.ofList op.line}" else .ok w
  else
    let text := if doc = memory ∧ trim text = [] then memoryTemplate else text
    match userHeadings doc with
    | some headings =>
        if strict && !headings.contains op.section_ then
          let names := ", ".intercalate (headings.map fun name => "'" ++ String.ofList name ++ "'")
          .error s!"{String.ofList doc} 的 section 必须是 [{names}] 之一"
        else .ok (w.put doc (appendSectionLine text op.section_ op.line))
    | none =>
        if (w.texts.get? doc).isSome then
          .ok (w.put doc (text.rdropWhile (· = '\n') ++ ['\n'] ++ op.line ++ ['\n']))
        else if strict then .error s!"主题不存在，应使用 create: {String.ofList doc}"
        else .ok (w.conflict s!"#{index} add {String.ofList doc}: 主题文件已不存在")

/-- `_replace`. -/
def Workspace.replace (w : Workspace) (doc : Text) (op : Op) (strict : Bool) (index : ℕ) :
    Except String Workspace :=
  let lines := splitLines (w.text doc)
  if op.old ∉ lines then
    if strict then .error s!"旧条目不存在: {String.ofList op.old}"
    else if (op.op = .supersede ∨ (op.op = .prune ∧ op.line ≠ [])) ∧ op.line ∉ lines then
      .ok (w.conflict s!"#{index} {op.op.text} {String.ofList doc}: 旧条目与新条目都不在")
    else .ok w
  else
    let place := lines.idxOf op.old
    let remove := op.op = .retract ∨ (op.op = .prune ∧ op.line = []) ∨ op.line ∈ lines
    let lines := lines.take place ++ (if remove then [] else [op.line]) ++ lines.drop (place + 1)
    .ok (w.put doc (joinLines lines ++ ['\n']))

/-- `_merge`, for at least one old line. -/
def Workspace.merge (w : Workspace) (doc : Text) (op : Op) (strict : Bool) (index : ℕ) :
    Except String Workspace :=
  let lines := splitLines (w.text doc)
  let present := (lines.filter fun line => line ∈ op.olds).dedup
  if op.olds.Nodup ∧ present.length = op.olds.length then
    let first := lines.findIdx fun line => line ∈ present
    let keep := op.line ∉ lines.filter fun line => line ∉ present
    let lines := lines.zipIdx.flatMap fun row =>
      if row.2 = first then if keep then [op.line] else []
      else if row.1 ∈ present then [] else [row.1]
    .ok (w.put doc (joinLines lines ++ ['\n']))
  else if strict then
    .error s!"merge 的旧条目必须各不相同且都在 {String.ofList doc} 中"
  else if present ≠ [] ∨ op.line ∉ lines then
    .ok (w.conflict (s!"#{index} merge {String.ofList doc}: 旧条目已部分或全部变化" ++
      s!"（现存 {present.length}/{op.olds.length}）"))
  else .ok w

/-- An operation on a document. -/
def Workspace.write (w : Workspace) (doc : Text) (op : Op) (strict : Bool) (index : ℕ) :
    Except String Workspace :=
  if op.op = .create ∧ w.texts.get? doc = none then
    .ok (w.put doc (topicText op.description op.line))
  else match op.op with
    | .add | .create => w.add doc op strict index
    | .merge => w.merge doc op strict index
    | _ => w.replace doc op strict index

/-- One round of `apply`. -/
def Workspace.applyOp (w : Workspace) (strict : Bool) (index : ℕ) (op : Op) :
    Except String Workspace :=
  if op.op = .createFolder then w.createFolder op strict
  else match if strict then some op.doc else w.replayTarget op.doc with
    | none =>
        .ok (w.conflict s!"#{index} {op.op.text} {String.ofList op.doc}: 当前 scope 没有文件夹")
    | some doc =>
        if strict && !writable doc w.folder then
          .error s!"不可写入的路径: {String.ofList op.doc}"
        else w.write doc op strict index

/-- `Workspace.apply`, from an index on. -/
def Workspace.apply (strict : Bool) : ℕ → List Op → Workspace → Except String Workspace
  | _, [], w => .ok w
  | index, op :: ops, w => do Workspace.apply strict (index + 1) ops (← w.applyOp strict index op)

/-! ### The check and the replay -/

section Replay

variable {w w' : Workspace} {doc : Text} {op : Op} {ops : List Op} {strict : Bool} {index : ℕ}

theorem splitOn_profile (h : doc = memory ∨ doc = self) : doc.splitOn '/' = [doc] := by
  rcases h with rfl | rfl <;> exact List.splitOn_eq_singleton (by decide)

/-- A path that may be written is where the replay finds it. -/
theorem replayTarget_of_writable (h : writable doc w.folder = true) :
    w.replayTarget doc = some doc := by
  rw [Workspace.replayTarget]
  split
  · next top name file hparts =>
      rw [writable, hparts] at h
      split_ifs at h with hfile
      · rw [splitOn_profile hfile] at hparts
        cases hparts
      · obtain ⟨-, hname⟩ := Bool.and_eq_true_iff.mp h
        rw [of_decide_eq_true hname, Option.map_some, path, ← hparts, List.intercalate_splitOn]
  · rfl

theorem add_of_strict (h : w.add doc op true index = .ok w') :
    w.add doc op false index = .ok w' := by
  rw [Workspace.add] at h ⊢
  obtain ⟨-, ⟨⟩⟩ | ⟨hline, h⟩ := ite_eq_iff.mp h
  rw [if_neg hline]
  cases hheadings : userHeadings doc with rw [hheadings] at h
  | some headings =>
      obtain ⟨-, ⟨⟩⟩ | ⟨-, h⟩ := ite_eq_iff.mp h
      exact h
  | none =>
      obtain ⟨hdoc, h⟩ | ⟨-, ⟨⟩⟩ := ite_eq_iff.mp h
      exact (if_pos hdoc).trans h

theorem replace_of_strict (h : w.replace doc op true index = .ok w') :
    w.replace doc op false index = .ok w' := by
  rw [Workspace.replace] at h ⊢
  obtain ⟨-, ⟨⟩⟩ | ⟨hold, h⟩ := ite_eq_iff.mp h
  rw [if_neg hold]
  exact h

theorem merge_of_strict (h : w.merge doc op true index = .ok w') :
    w.merge doc op false index = .ok w' := by
  rw [Workspace.merge] at h ⊢
  obtain ⟨holds, h⟩ | ⟨-, ⟨⟩⟩ := ite_eq_iff.mp h
  rw [if_pos holds]
  exact h

theorem write_of_strict (h : w.write doc op true index = .ok w') :
    w.write doc op false index = .ok w' := by
  rw [Workspace.write] at h ⊢
  split_ifs at h ⊢
  · exact h
  · cases hop : op.op with rw [hop] at h
    | add | create => exact add_of_strict h
    | merge => exact merge_of_strict h
    | supersede | retract | createFolder | prune => exact replace_of_strict h

theorem freeName_not_mem (names : List Text) (name : Text) : freeName names name ∉ names := by
  fun_induction freeName with
  | case1 name _ ih => exact ih
  | case2 name h => exact h

theorem createFolder_of_strict (h : w.createFolder op true = .ok w') :
    w.createFolder op false = .ok w' := by
  rw [Workspace.createFolder] at h ⊢
  split
  · next hdoc =>
      rw [hdoc] at h
      cases h
  · next c name hdoc =>
      rw [hdoc] at h
      dsimp only at h ⊢
      obtain ⟨-, ⟨⟩⟩ | ⟨-, h⟩ := ite_eq_iff.mp h
      exact h

theorem applyOp_of_strict (h : w.applyOp true index op = .ok w') :
    w.applyOp false index op = .ok w' := by
  rw [Workspace.applyOp] at h ⊢
  by_cases hop : op.op = .createFolder
  · rw [if_pos hop] at h ⊢
    exact createFolder_of_strict h
  · rw [if_neg hop, if_pos rfl] at h
    obtain ⟨-, ⟨⟩⟩ | ⟨hdoc, h⟩ := ite_eq_iff.mp h
    rw [if_neg hop, if_neg Bool.false_ne_true, replayTarget_of_writable (by simpa using hdoc)]
    exact write_of_strict h

/-- The files of two scopes. -/
def files (mine other : String) : Workspace where
  texts := Dict.empty.set (path [topics, other.toList, "c.md".toList]) "- x".toList
  folders := (Dict.empty.set mine.toList "mine".toList).set other.toList "other".toList
  scope := some "mine".toList

/-- A topic, and one more line of it. -/
def draft : List Op :=
  [{ op := .create, doc := path [topics, "a".toList, "c.md".toList], line := "- y".toList },
    { op := .add, doc := path [topics, "a".toList, "c.md".toList], line := "- z".toList }]

/-- The files after the draft. -/
def written : Workspace :=
  (files "a" "b").put (path [topics, "a".toList, "c.md".toList])
    "---\ndescription: \n---\n- y\n- z\n".toList

/-- **On the files it was checked on**, a draft does what its check did. -/
theorem replay_of_strict (ops : List Op) (w w' : Workspace)
    (h : Workspace.apply true 0 ops w = .ok w') : Workspace.apply false 0 ops w = .ok w' := by
  generalize 0 = index at h ⊢
  induction ops generalizing w index with
  | nil => exact h
  | cons op ops ih =>
      obtain ⟨next, hnext, h⟩ := bind_eq_ok.mp h
      rw [Workspace.apply, applyOp_of_strict hnext]
      exact ih next (index + 1) h

/-- A draft on the files it was checked on. -/
theorem replay_of_strict_draft : Workspace.apply false 0 draft (files "a" "b") = .ok written :=
  replay_of_strict draft (files "a" "b") written rfl

end Replay

/-! ### Lines -/

/-- The lines that an operation replaces, removes or merges, without the blanks around them. -/
def Op.named (op : Op) : List Text :=
  (op.old :: op.olds).map trim

section Lines

variable {content heading line l : Text}

/-- **The lines of joined lines.** -/
theorem mem_joined {lines : List Text} (hl : l ∈ nonblank content)
    (hrows : ∀ row ∈ splitLines content, trim row = l → row ∈ lines) :
    l ∈ nonblank (joinLines lines ++ ['\n']) := by
  rw [← trimmed_splitLines, trimmed, List.mem_filter, List.mem_map] at hl
  obtain ⟨⟨row, hrow, hl⟩, hne⟩ := hl
  have hmem : l ∈ nonblank row := by
    rw [nonblank_of_no_break (isBreak_of_mem_splitLines row hrow), hl, if_neg (by simpa using hne)]
    exact List.mem_singleton_self l
  rw [nonblank_append_right (List.forall_mem_singleton.mpr (by decide))]
  have hrow := hrows row hrow hl
  clear hrows
  induction lines with
  | nil => cases hrow
  | cons first rest ih =>
      by_cases hrest : rest = []
      · rw [hrest] at hrow ⊢
        rw [joinLines_singleton, ← List.mem_singleton.mp hrow]
        exact hmem
      · rw [joinLines_cons first hrest, nonblank_append_cons (by decide), List.mem_append]
        rcases List.mem_cons.mp hrow with rfl | hrow
        · exact .inl hmem
        · exact .inr (ih hrow)

theorem mem_appendSectionLine (hl : l ∈ nonblank content) :
    l ∈ nonblank (appendSectionLine content heading line) := by
  rw [← nonblank_rstrip] at hl
  rw [appendSectionLine]
  refine mem_joined hl fun row hrow _ => ?_
  have hvalues : row ∈ if heading ∈ splitLines (rstrip content) then splitLines (rstrip content)
      else splitLines (rstrip content) ++ [[], heading] := by
    split
    · exact hrow
    · exact List.mem_append_left _ hrow
  generalize (if heading ∈ splitLines (rstrip content) then splitLines (rstrip content)
    else splitLines (rstrip content) ++ [[], heading]) = values at hvalues ⊢
  generalize values.idxOf heading + 1 = start
  -- what is kept of the section is followed by the rest of the document
  have hkept : ((values.drop start).takeWhile fun row => row.head? ≠ some '#').rdropWhile
      (fun row => trim row = []) <+: values.drop start :=
    (List.rdropWhile_prefix ..).trans (List.takeWhile_prefix ..)
  generalize ((values.drop start).takeWhile fun row => row.head? ≠ some '#').rdropWhile
    (fun row => trim row = []) = kept at hkept ⊢
  obtain ⟨rest, hrest⟩ := hkept
  rw [← List.take_append_drop start values, ← hrest] at hvalues
  rw [← List.drop_drop, ← hrest, List.drop_left]
  simp only [List.mem_append] at hvalues ⊢
  tauto

theorem mem_appended (hl : l ∈ nonblank content) :
    l ∈ nonblank (content.rdropWhile (· = '\n') ++ ['\n'] ++ line ++ ['\n']) := by
  have hend : ∀ c ∈ content.rtakeWhile (· = '\n'), isSpace c = true := by
    intro c hc
    have hnewline : c = '\n' := by simpa using List.mem_rtakeWhile_imp hc
    rw [hnewline]
    decide
  rw [List.append_assoc, List.append_assoc, List.singleton_append, nonblank_append_cons (by decide)]
  rw [← List.rdropWhile_append_rtakeWhile (p := (· = '\n')) (l := content),
    nonblank_append_right hend] at hl
  exact List.mem_append_left _ hl

theorem mem_replaced {old : Text} {new : List Text} (hold : old ∈ splitLines content)
    (hl : l ∈ nonblank content) (hnamed : l ≠ trim old) :
    l ∈ nonblank (joinLines ((splitLines content).take ((splitLines content).idxOf old) ++ new ++
      (splitLines content).drop ((splitLines content).idxOf old + 1)) ++ ['\n']) := by
  refine mem_joined hl fun row hrow hl => ?_
  have hplace := List.idxOf_lt_length_of_mem hold
  rw [← List.take_append_drop ((splitLines content).idxOf old) (splitLines content),
    List.drop_eq_getElem_cons hplace, List.getElem_idxOf hplace] at hrow
  have hother : row ≠ old := by
    rintro rfl
    exact hnamed hl.symm
  simp only [List.mem_append, List.mem_cons, hother, false_or] at hrow ⊢
  tauto

theorem mem_merged {olds new : List Text} (hl : l ∈ nonblank content) (hnamed : l ∉ olds.map trim)
    {present : List Text} (hpresent : ∀ row ∈ present, row ∈ olds) :
    l ∈ nonblank (joinLines ((splitLines content).zipIdx.flatMap fun row =>
      if row.2 = (splitLines content).findIdx fun line => line ∈ present then new
      else if row.1 ∈ present then [] else [row.1]) ++ ['\n']) := by
  refine mem_joined hl fun row hrow hl => ?_
  have hother : row ∉ present := fun h => hnamed (List.mem_map.mpr ⟨row, hpresent row h, hl⟩)
  obtain ⟨i, hi, rfl⟩ := List.getElem_of_mem hrow
  refine List.mem_flatMap.mpr ⟨_, List.mem_iff_getElem.mpr ⟨i, by simpa using hi, rfl⟩, ?_⟩
  rw [List.getElem_zipIdx, if_neg, if_neg hother]
  · exact List.mem_singleton_self _
  · intro hfirst
    rw [Nat.zero_add] at hfirst
    subst hfirst
    exact hother (by simpa only [decide_eq_true_eq] using List.findIdx_getElem (w := hi))

end Lines

/-! ### Scopes -/

/-- A path of a file in a folder. -/
def InFolder (doc name : Text) : Prop :=
  ∃ file rest, doc.splitOn '/' = topics :: name :: file :: rest

/-- **Other scopes are left alone**: their folders and what is in them. A folder that is new is one
of the scope. -/
structure Isolated (w w' : Workspace) : Prop where
  scope : w'.scope = w.scope
  kept : ∀ name scope, w.folders.get? name = some scope → w'.folders.get? name = some scope
  own : ∀ name scope, w'.folders.get? name = some scope →
    w.folders.get? name = some scope ∨ w.scope = some scope
  texts : ∀ doc name scope, InFolder doc name → w.folders.get? name = some scope →
    w.scope ≠ some scope → w'.texts.get? doc = w.texts.get? doc

/-- The folders are directories. -/
def Workspace.Plain (w : Workspace) : Prop :=
  ∀ name scope, w.folders.get? name = some scope → '/' ∉ name

/-- What a check says of an operation, whatever the files were. -/
structure Op.Checked (op : Op) : Prop where
  folder : op.op = .createFolder →
    ∃ c name, op.doc.dropWhile (· ≠ '/') = c :: name ∧ isFolder name = true
  doc : op.op ≠ .createFolder → ∃ folder, writable op.doc folder = true

section Isolation

variable {w w' : Workspace} {doc : Text} {op : Op} {index : ℕ}

theorem Isolated.refl (w : Workspace) : Isolated w w :=
  ⟨rfl, fun _ _ => id, fun _ _ => .inl, fun _ _ _ _ _ _ => rfl⟩

theorem Isolated.trans {w'' : Workspace} (h : Isolated w w') (h' : Isolated w' w'') :
    Isolated w w'' where
  scope := h'.scope.trans h.scope
  kept name scope hname := h'.kept name scope (h.kept name scope hname)
  own name scope hname := (h'.own name scope hname).elim (h.own name scope) fun hscope =>
    .inr (h.scope ▸ hscope)
  texts doc name scope hdoc hname hscope :=
    (h'.texts doc name scope hdoc (h.kept name scope hname) (h.scope ▸ hscope)).trans
      (h.texts doc name scope hdoc hname hscope)

/-- The folder of a workspace belongs to its scope. -/
theorem get?_of_folder {name : Text} (h : w.folder = some name) :
    ∃ scope, w.folders.get? name = some scope ∧ w.scope = some scope := by
  obtain ⟨⟨name, scope⟩, hfind, rfl⟩ := Option.map_eq_some_iff.mp h
  have hscope : decide (some scope = w.scope) = true := by
    simpa only using List.find?_some hfind
  exact ⟨scope, Dict.get?_eq_some_iff.mpr (List.mem_of_find?_eq_some hfind),
    (of_decide_eq_true hscope).symm⟩

/-- At most one document is changed, and it loses no line that the operation does not name. -/
structure Edits (w w' : Workspace) (doc : Text) (op : Op) : Prop where
  scope : w'.scope = w.scope
  folders : w'.folders = w.folders
  texts : ∀ other, other ≠ doc → w'.texts.get? other = w.texts.get? other
  lines : ∀ l ∈ nonblank (w.text doc), l ∉ op.named → l ∈ nonblank (w'.text doc)

theorem Edits.put {content : Text}
    (h : ∀ l ∈ nonblank (w.text doc), l ∉ op.named → l ∈ nonblank content) :
    Edits w (w.put doc content) doc op where
  scope := rfl
  folders := rfl
  texts _ hother := Dict.get?_set_of_ne _ _ hother
  lines l hl hnamed := by
    rw [Workspace.text, Workspace.put, Dict.get?_set_self]
    exact h l hl hnamed

theorem Edits.conflict (w : Workspace) (doc : Text) (op : Op) (text : String) :
    Edits w (w.conflict text) doc op :=
  ⟨rfl, rfl, fun _ _ => rfl, fun _ hl _ => hl⟩

theorem Edits.refl (w : Workspace) (doc : Text) (op : Op) : Edits w w doc op :=
  ⟨rfl, rfl, fun _ _ => rfl, fun _ hl _ => hl⟩

/-- **A replay writes to its document**, and raises nothing. -/
theorem exists_write (w : Workspace) (doc : Text) (op : Op) (index : ℕ) :
    ∃ w', w.write doc op false index = .ok w' ∧ Edits w w' doc op := by
  have hadd : ∃ w', w.add doc op false index = .ok w' ∧ Edits w w' doc op := by
    have hmemory : ∀ l ∈ nonblank (w.text doc), l ∈ nonblank
        (if doc = memory ∧ trim (w.text doc) = [] then memoryTemplate else w.text doc) := by
      intro l hl
      split
      · next hblank =>
          rw [← nonblank_trim, hblank.2] at hl
          cases hl
      · exact hl
    rw [Workspace.add]
    dsimp only
    split
    · exact ⟨_, rfl, .refl w doc op⟩
    · split
      · exact ⟨_, rfl, .put fun l hl _ => mem_appendSectionLine (hmemory l hl)⟩
      · split
        · exact ⟨_, rfl, .put fun l hl _ => mem_appended (hmemory l hl)⟩
        · exact ⟨_, rfl, .conflict w doc op _⟩
  have hmerge : ∃ w', w.merge doc op false index = .ok w' ∧ Edits w w' doc op := by
    rw [Workspace.merge]
    dsimp only
    split
    · refine ⟨_, rfl, .put fun l hl hnamed => mem_merged hl
        (fun h => hnamed (List.mem_cons_of_mem _ h)) fun row hrow => ?_⟩
      exact of_decide_eq_true (List.mem_filter.mp (List.mem_dedup.mp hrow)).2
    · rw [if_neg Bool.false_ne_true]
      split
      · exact ⟨_, rfl, .conflict w doc op _⟩
      · exact ⟨_, rfl, .refl w doc op⟩
  have hreplace : ∃ w', w.replace doc op false index = .ok w' ∧ Edits w w' doc op := by
    rw [Workspace.replace]
    dsimp only
    split
    · rw [if_neg Bool.false_ne_true]
      split
      · exact ⟨_, rfl, .conflict w doc op _⟩
      · exact ⟨_, rfl, .refl w doc op⟩
    · next hold =>
        exact ⟨_, rfl, .put fun l hl hnamed => mem_replaced (not_not.mp hold) hl
          fun h => hnamed (h ▸ List.mem_cons_self)⟩
  rw [Workspace.write]
  split
  · next hnew =>
      refine ⟨_, rfl, .put fun l hl _ => ?_⟩
      rw [Workspace.text, hnew.2] at hl
      cases hl
  · cases op.op with
    | add | create => exact hadd
    | merge => exact hmerge
    | supersede | retract | createFolder | prune => exact hreplace

/-- An edit outside of the folders of other scopes. -/
theorem Edits.isolated (h : Edits w w' doc op) (hdoc : ∀ name scope, InFolder doc name →
    w.folders.get? name = some scope → w.scope = some scope) : Isolated w w' where
  scope := h.scope
  kept name scope hname := h.folders ▸ hname
  own name scope hname := .inl (h.folders ▸ hname)
  texts other name scope hother hname hscope := by
    refine h.texts other ?_
    rintro rfl
    exact hscope (hdoc name scope hother hname)

/-- A path is split into its parts. -/
theorem splitOn_path {top name file : Text} (htop : '/' ∉ top) (hname : '/' ∉ name)
    (hfile : '/' ∉ file) : (path [top, name, file]).splitOn '/' = [top, name, file] :=
  List.splitOn_intercalate '/' (by simp [htop, hname, hfile]) (List.cons_ne_nil _ _)

/-- The parts of a path have no slashes. -/
theorem not_mem_of_splitOn {part : Text} (h : part ∈ doc.splitOn '/') : '/' ∉ part := by
  induction doc generalizing part with
  | nil =>
      rw [List.mem_singleton.mp h]
      exact List.not_mem_nil
  | cons c doc ih =>
      obtain ⟨first, rest, hparts⟩ := List.exists_cons_of_ne_nil (List.splitOn_ne_nil '/' doc)
      rw [List.splitOn_cons_eq_if_modifyHead, hparts] at h
      rw [hparts] at ih
      split_ifs at h with hc
      · rcases List.mem_cons.mp h with rfl | h
        · exact List.not_mem_nil
        · exact ih h
      · rcases List.mem_cons.mp h with rfl | h
        · rw [List.mem_cons, not_or]
          exact ⟨fun heq => hc (beq_iff_eq.mpr heq.symm), ih List.mem_cons_self⟩
        · exact ih (List.mem_cons_of_mem _ h)

/-- **A replay finds its document** in no folder of another scope. -/
theorem scope_of_target (hplain : w.Plain) (hchecked : ∃ folder, writable op.doc folder = true)
    (htarget : w.replayTarget op.doc = some doc) {name scope : Text} (hdoc : InFolder doc name)
    (hname : w.folders.get? name = some scope) : w.scope = some scope := by
  obtain ⟨file, rest, hparts⟩ := hdoc
  rw [Workspace.replayTarget] at htarget
  split at htarget
  · next top _ last hsplit =>
      obtain ⟨own, hown, rfl⟩ := Option.map_eq_some_iff.mp htarget
      obtain ⟨scope', hscope', hscope⟩ := get?_of_folder hown
      have htop : '/' ∉ top := @not_mem_of_splitOn op.doc _ (by simp [hsplit])
      have hlast : '/' ∉ last := @not_mem_of_splitOn op.doc _ (by simp [hsplit])
      rw [splitOn_path htop (hplain own scope' hscope') hlast] at hparts
      obtain ⟨rfl, -⟩ := List.cons.inj (List.cons.inj hparts).2
      rw [hscope, ← hscope', hname]
  · next hthree =>
      cases htarget
      obtain ⟨folder, hfolder⟩ := hchecked
      rw [writable, hparts] at hfolder
      split_ifs at hfolder with hprofile
      · rw [splitOn_profile hprofile] at hparts
        exact absurd (congrArg List.length hparts) (by simp)
      · cases rest with
        | nil => exact absurd hparts (hthree _ _ _)
        | cons => cases hfolder

theorem freeName_plain {names : List Text} {name : Text} (h : '/' ∉ name) :
    '/' ∉ freeName names name := by
  fun_induction freeName with
  | case1 name _ ih =>
      refine ih fun hmem => ?_
      rcases List.mem_append.mp hmem with hmem | hmem
      · exact h hmem
      · exact absurd hmem (by decide)
  | case2 name => exact h

/-- A new folder has a name that no folder has. -/
theorem createFolder_isolated (hplain : w.Plain) {c : Char} {name : Text}
    (hname : op.doc.dropWhile (· ≠ '/') = c :: name) (hfolder : isFolder name = true) :
    ∃ w', w.createFolder op false = .ok w' ∧ Isolated w w' ∧ w'.Plain := by
  have hslash : '/' ∉ name := by
    rintro hmem
    cases name with
    | nil => cases hmem
    | cons d name =>
        simp only [isFolder, Bool.and_eq_true, List.all_eq_true] at hfolder
        rcases List.mem_cons.mp hmem with rfl | hmem
        · exact absurd hfolder.1.1.2 (by decide)
        · exact absurd (hfolder.2 '/' hmem) (by decide)
  rw [Workspace.createFolder, hname]
  dsimp only
  rw [if_neg (by simp)]
  split
  · next scope hscope _ =>
      have hfree := freeName_not_mem (w.folders.entries.map Prod.fst) name
      have hslash := @freeName_plain (w.folders.entries.map Prod.fst) name hslash
      generalize freeName (w.folders.entries.map Prod.fst) name = free at hfree hslash
      have hother : ∀ other scope', w.folders.get? other = some scope' → other ≠ free := by
        rintro other scope' hother rfl
        exact hfree (List.mem_map.mpr ⟨_, Dict.get?_eq_some_iff.mp hother, rfl⟩)
      refine ⟨_, rfl, ⟨rfl, fun other scope' h => ?_, fun other scope' h => ?_,
        fun doc other scope' ⟨file, rest, hparts⟩ h _ => Dict.get?_set_of_ne _ _ ?_⟩,
        fun other scope' h => ?_⟩
      · exact (Dict.get?_set_of_ne _ _ (hother other scope' h)).trans h
      · rcases Dict.of_get?_set h with ⟨-, rfl⟩ | ⟨-, h⟩
        · exact .inr hscope
        · exact .inl h
      · rintro rfl
        rw [splitOn_path (by decide) hslash (by decide)] at hparts
        obtain ⟨rfl, -⟩ := List.cons.inj (List.cons.inj hparts).2
        exact hother _ scope' h rfl
      · rcases Dict.of_get?_set h with ⟨rfl, -⟩ | ⟨-, h⟩
        · exact hslash
        · exact hplain other scope' h
  · exact ⟨w, rfl, .refl w, hplain⟩

theorem applyOp_isolated (hop : op.Checked) (hplain : w.Plain) (index : ℕ) :
    ∃ w', w.applyOp false index op = .ok w' ∧ Isolated w w' ∧ w'.Plain := by
  rw [Workspace.applyOp]
  split
  · next hcreate =>
      obtain ⟨c, name, hname, hfolder⟩ := hop.folder hcreate
      exact createFolder_isolated hplain hname hfolder
  · next hother =>
      rw [if_neg Bool.false_ne_true]
      split
      · exact ⟨_, rfl, ⟨rfl, fun _ _ => id, fun _ _ => .inl, fun _ _ _ _ _ _ => rfl⟩, hplain⟩
      · next doc hdoc =>
          obtain ⟨w', hwrite, hedits⟩ := exists_write w doc op index
          refine ⟨w', hwrite, hedits.isolated ?_, fun name scope => hedits.folders ▸ hplain name scope⟩
          exact fun name scope => scope_of_target hplain (hop.doc hother) hdoc

/-- What was checked on some files is checked. -/
theorem checked_of_strict (h : w.applyOp true index op = .ok w') : op.Checked := by
  rw [Workspace.applyOp] at h
  by_cases hop : op.op = .createFolder
  · rw [if_pos hop, Workspace.createFolder] at h
    refine ⟨fun _ => ?_, fun hother => absurd hop hother⟩
    split at h
    · cases h
    · next c name hname =>
        obtain ⟨-, ⟨⟩⟩ | ⟨hfolder, -⟩ := ite_eq_iff.mp h
        exact ⟨c, name, hname, by simp_all⟩
  · rw [if_neg hop, if_pos rfl] at h
    obtain ⟨-, ⟨⟩⟩ | ⟨hdoc, -⟩ := ite_eq_iff.mp h
    exact ⟨fun hcreate => absurd hcreate hop, fun _ => ⟨w.folder, by simpa using hdoc⟩⟩

end Isolation

/-- **A replay stays in its scope.** A draft that was checked on some files is replayed on any files
without an exception; the folders of other scopes, and all that is in them, are left alone. -/
theorem replay_isolated (ops : List Op) (index : ℕ) (checked checked' w : Workspace)
    (h : Workspace.apply true index ops checked = .ok checked') (hplain : w.Plain) :
    ∃ w', Workspace.apply false index ops w = .ok w' ∧ Isolated w w' := by
  induction ops generalizing index checked w with
  | nil => exact ⟨w, rfl, .refl w⟩
  | cons op ops ih =>
      obtain ⟨next, hnext, h⟩ := bind_eq_ok.mp h
      obtain ⟨w₁, hfirst, hisolated, hplain₁⟩ :=
        applyOp_isolated (checked_of_strict hnext) hplain index
      obtain ⟨w', hrest, hisolated'⟩ := ih (index + 1) next w₁ h hplain₁
      rw [Workspace.apply, hfirst]
      exact ⟨w', hrest, hisolated.trans hisolated'⟩

/-- A draft on files whose folders have changed their names. -/
theorem replay_isolated_draft :
    ∃ w', Workspace.apply false 0 draft (files "b" "a") = .ok w' ∧ Isolated (files "b" "a") w' := by
  refine replay_isolated draft 0 (files "a" "b") written (files "b" "a") rfl ?_
  intro name scope h
  rcases Dict.of_get?_set h with ⟨rfl, -⟩ | ⟨-, h⟩
  · decide
  · rcases Dict.of_get?_set h with ⟨rfl, -⟩ | ⟨-, h⟩
    · decide
    · cases h

/-! ### No line is lost -/

theorem suffix_path (top name file : Text) : file <:+ path [top, name, file] :=
  ⟨top ++ '/' :: name ++ ['/'], by simp [path, List.intercalate]⟩

theorem mem_applyOp {w w' : Workspace} {doc l : Text} {op : Op} {index : ℕ} {strict : Bool}
    (h : w.applyOp strict index op = .ok w')
    (hdoc : ¬scopeFile <:+ doc) (hl : l ∈ nonblank (w.text doc))
    (hnamed : l ∉ op.named) : l ∈ nonblank (w'.text doc) := by
  replace h : w.applyOp false index op = .ok w' := by
    cases strict with
    | false => exact h
    | true => exact applyOp_of_strict h
  rw [Workspace.applyOp] at h
  split at h
  · rw [Workspace.createFolder] at h
    split at h
    · cases h
    · rw [if_neg (by simp)] at h
      split at h
      · cases h
        rw [Workspace.text, Dict.get?_set_of_ne]
        · exact hl
        · rintro rfl
          exact hdoc (suffix_path ..)
      · cases h
        exact hl
  · rw [if_neg Bool.false_ne_true] at h
    split at h
    · cases h
      exact hl
    · next target _ =>
        obtain ⟨w₁, hwrite, hedits⟩ := exists_write w target op index
        cases hwrite.symm.trans h
        by_cases htarget : doc = target
        · subst htarget
          exact hedits.lines l hl hnamed
        · rwa [Workspace.text, hedits.texts doc htarget]

/-- **No line is lost but those that are named**, where the file is none that names a scope. -/
theorem lines_kept (ops : List Op) (index : ℕ) (strict : Bool) (w w' : Workspace) (doc l : Text)
    (h : Workspace.apply strict index ops w = .ok w') (hdoc : ¬scopeFile <:+ doc)
    (hl : l ∈ nonblank (w.text doc)) (hnamed : ∀ op ∈ ops, l ∉ op.named) : l ∈ nonblank (w'.text doc) := by
  induction ops generalizing w index with
  | nil =>
      cases h
      exact hl
  | cons op ops ih =>
      obtain ⟨next, hnext, h⟩ := bind_eq_ok.mp h
      exact ih (index + 1) next h
        (mem_applyOp hnext hdoc hl (hnamed op List.mem_cons_self))
        fun op' hop' => hnamed op' (List.mem_cons_of_mem _ hop')

/-- A line that stays beside a new one. -/
theorem lines_kept_add : "- x".toList ∈ nonblank ("- x\n- y\n".toList) :=
  lines_kept [{ op := .add, doc := "topics/c.md".toList, line := "- y".toList }] 0 true
    ((files "a" "b").put "topics/c.md".toList "- x\n".toList)
    (((files "a" "b").put "topics/c.md".toList "- x\n".toList).put "topics/c.md".toList
      "- x\n- y\n".toList) "topics/c.md".toList _ rfl (by decide) (by decide) (by decide)

end Kirakira.MarkdownMemory
