import Kirakira.Contract
import Kirakira.Lib.CutShort
import Kirakira.Lib.Dict
import Kirakira.Lib.Exceptions
import Mathlib.Data.List.TakeDrop

/-!
# Installing a Plugin across Crashes

`agent/plugins/install.py` installs a plugin in three stores, one after the other: a row of
the update journal, the pointer file of the plugin's directory, and the patch file in which
the user's choices are kept. A process that dies in between leaves an armed row, and
`update_rollback.py` settles it from what is on disk when the next one begins.

A process is a program over the durable state. Every file replacement and every journal
transaction is one operation, any operation may fail, and the process may die between any
two. What is left out of the durable state is what no decision is made from: the plugin's
code and data, the times in the journal, and files that are no regular files.

* An artifact is the name of a directory that a pointer can resolve to, manifest included.
* A document is a bundle file as TOML reads it: a table of rows under their ids. The files of
  the distribution are documents too, or cannot be read.
* `Request` holds what an installation finds out before it changes anything: the clone, its
  manifest and the names of the directories it would go to.

## Main results

* `settles` — when the choice of the plugin can be written without taking the row of another
  plugin, a settlement that is not interrupted leaves all or nothing, wherever the
  installation and any number of settlements before it were cut short.
* `other_choice_lost` — a patch row that has the plugin's identity as its id, and names
  another plugin, is overwritten.
-/

namespace Kirakira.Plugins

/-! ### Identities -/

/-- `re.fullmatch(r"[A-Za-z0-9][A-Za-z0-9._-]*", text)`. -/
def isSegment (text : String) : Bool :=
  match text.toList with
  | [] => false
  | c :: cs => c.isAlphanum && cs.all fun c => c.isAlphanum || c = '.' || c = '_' || c = '-'

/-- `text.rpartition("@")`, as the parts before and after the last separator. -/
def rpartition (text : String) : Option (String × String) :=
  let (back, front) := text.toList.reverse.span (· ≠ '@')
  match front with
  | [] => none
  | _ :: front => some (String.ofList front.reverse, String.ofList back.reverse)

/-- `_PLUGIN.fullmatch(text)`: a segment, or two with an `@` in between. -/
def isPlugin (text : String) : Bool :=
  match rpartition text with
  | none => isSegment text
  | some (name, marketplace) => isSegment name && isSegment marketplace

/-- A directory of the plugin cache, `cache/<marketplace>/<name>`. -/
structure Base where
  marketplace : String
  name : String
  deriving DecidableEq, Repr

/-- The directory that `rollback` expects for an identity. -/
def expectedBase (pluginId : String) : Option Base :=
  match rpartition pluginId with
  | none => none
  | some (name, marketplace) =>
      if isSegment name ∧ isSegment marketplace then some ⟨marketplace, name⟩ else none

/-! ### Bundles -/

/-- A row of a bundle file, without its id. -/
structure Entry where
  plugin : String
  config : List (String × Json)
  disabled : Bool
  deriving DecidableEq

/-- `BundleRow`. -/
structure BundleRow extends Entry where
  id : String
  deriving DecidableEq

/-- The table of rows of a bundle file. -/
abbrev Document := Dict String Entry

/-- The rows of a document. -/
def rowsOf (document : Document) : List BundleRow :=
  document.entries.map fun row => ⟨row.2, row.1⟩

/-- `_check_plugins`. -/
def checkPlugins (rows : List BundleRow) : Except PyError (List BundleRow) :=
  if (rows.map fun row => row.plugin).Nodup then .ok rows
  else valueError "多个 bundle row 指向同一插件"

/-- `load_bundle`. -/
def loadBundle (document : Document) : Except PyError (List BundleRow) :=
  if ∀ row ∈ rowsOf document, isPlugin row.id ∧ isPlugin row.plugin then
    checkPlugins (rowsOf document)
  else valueError "bundle row 无效"

/-- `load_bundle` of a file of the distribution, which may be unreadable. -/
def loadFile : Option Document → Except PyError (List BundleRow)
  | none => .error ⟨.osError, "bundle"⟩
  | some document => loadBundle document

/-- `load_bundles`: the base, the mode and the patch, whole rows replaced in this order. -/
def loadBundles (files : List (Option Document)) (patch : Option Document) :
    Except PyError (List BundleRow) := do
  let loaded ← (files ++ patch.toList.map some).mapM loadFile
  let selected := loaded.flatten.foldl (fun selected row => selected.set row.id row) Dict.empty
  checkPlugins (selected.entries.map Prod.snd)

/-- `patch_rows`. -/
def patchRows : Option Document → Except PyError (List BundleRow)
  | none => .ok []
  | some document => loadBundle document

/-- `composition_rows`: the patch alone where no distribution is configured. -/
def compositionRows (distribution : Option (List (Option Document))) (patch : Option Document) :
    Except PyError (List BundleRow) :=
  match distribution with
  | none => patchRows patch
  | some files => loadBundles files patch

/-- The row of a plugin. -/
def rowOf (rows : List BundleRow) (pluginId : String) : Option BundleRow :=
  rows.find? fun row => row.plugin = pluginId

/-- The row that `set_plugin_choice` writes: that of the plugin in the patch, or in the
composition, with its config, or a new one under the plugin's identity. -/
def chosenRow (distribution : Option (List (Option Document))) (patch : Option Document)
    (rows : List BundleRow) (pluginId : String) (enabled : Bool) : Except PyError BundleRow := do
  let source ← match rowOf rows pluginId with
    | some row => pure (some row)
    | none => do
        let composition ← compositionRows distribution patch
        pure (rowOf composition pluginId)
  pure ⟨⟨pluginId, source.elim [] fun row => row.config, !enabled⟩,
    source.elim pluginId fun row => row.id⟩

/-- `set_plugin_choice`: the document it writes. -/
def withChoice (distribution : Option (List (Option Document))) (patch : Option Document)
    (pluginId : String) (enabled : Option Bool) : Except PyError Document := do
  if ¬isPlugin pluginId then valueError ("插件身份无效: " ++ pluginId)
  let rows ← patchRows patch
  let document := patch.getD Dict.empty
  match enabled with
  | none =>
      match rowOf rows pluginId with
      | none => pure document
      | some row => pure (document.erase row.id)
  | some enabled => do
      let row ← chosenRow distribution patch rows pluginId enabled
      pure (document.set row.id row.toEntry)

/-! ### The durable state -/

/-- `ArtifactPointers`, as `.pointers.json` has them. -/
structure Pointers where
  stable : Option String
  latest : Option String
  deriving DecidableEq, Repr

/-- The pointers of an installed candidate. -/
def Pointers.both (path : String) : Pointers :=
  ⟨some path, some path⟩

/-- The phase of an update. -/
inductive Phase where
  | armed
  | committed
  | rolledBack
  deriving DecidableEq, Repr

/-- `UpdateRollback`: a row of `plugin_updates`. -/
structure Update where
  updateId : String
  pluginId : String
  pluginBase : Base
  previous : Option Pointers
  candidate : String
  previousEnabled : Option Bool
  phase : Phase
  reloadTx : Option String
  error : String
  deriving DecidableEq, Repr

/-- What survives the death of a process. -/
structure Disk where
  /-- The artifacts a directory holds. -/
  artifacts : Base → List String
  /-- The pointer file of a directory. -/
  pointers : Base → Option Pointers
  /-- `bundle.patch.toml`. -/
  patch : Option Document
  /-- `plugin_updates`. -/
  updates : List Update

/-- The state with other artifacts in a directory. -/
def Disk.withArtifacts (d : Disk) (base : Base) (paths : List String) : Disk :=
  { d with artifacts := Function.update d.artifacts base paths }

/-- What a settlement changes in a row: its phase and its error. -/
structure Change where
  updateId : String
  phase : Phase
  error : String
  deriving DecidableEq, Repr

/-- `UPDATE plugin_updates SET phase=?,error=? WHERE update_id=? AND phase='armed'`. -/
def Change.apply (updates : List Update) (change : Change) : List Update :=
  updates.map fun u =>
    if u.updateId = change.updateId ∧ u.phase = .armed then
      { u with phase := change.phase, error := change.error }
    else u

/-- The durable operations. -/
inductive Op : Type → Type where
  | artifacts (base : Base) : Op (List String)
  | publish (base : Base) (path : String) : Op Unit
  | remove (base : Base) (path : String) : Op Unit
  | pointers (base : Base) : Op (Option Pointers)
  | savePointers (base : Base) (pointers : Option Pointers) : Op Unit
  | patch : Op (Option Document)
  | savePatch (document : Document) : Op Unit
  | updates : Op (List Update)
  | arm (u : Update) : Op Unit
  | commitUpdate (updateId : String) : Op Unit
  | finish (changes : List Change) : Op Unit

/-- What an operation does. -/
def handler : Handler Op PyError Disk
  | _, .artifacts base, d => (.ok (d.artifacts base), d)
  | _, .publish base path, d =>
      if path ∈ d.artifacts base then (.error ⟨.osError, path⟩, d)
      else (.ok (), d.withArtifacts base (path :: d.artifacts base))
  | _, .remove base path, d =>
      (.ok (), d.withArtifacts base ((d.artifacts base).filter (· ≠ path)))
  | _, .pointers base, d => (.ok (d.pointers base), d)
  | _, .savePointers base pointers, d =>
      (.ok (), { d with pointers := Function.update d.pointers base pointers })
  | _, .patch, d => (.ok d.patch, d)
  | _, .savePatch document, d => (.ok (), { d with patch := some document })
  | _, .updates, d => (.ok d.updates, d)
  | _, .arm u, d =>
      -- the primary key, and the unique index over the armed rows
      if ∃ old ∈ d.updates, old.updateId = u.updateId ∨
          old.phase = .armed ∧ old.pluginId = u.pluginId then
        (.error ⟨.integrityError, "plugin_updates"⟩, d)
      else (.ok (), { d with updates := d.updates ++ [u] })
  | _, .commitUpdate updateId, d =>
      if (d.updates.filter fun u =>
          u.updateId = updateId ∧ u.phase = .armed ∧ u.reloadTx = none).length = 1 then
        (.ok (), { d with updates := d.updates.map fun u =>
          if u.updateId = updateId ∧ u.phase = .armed ∧ u.reloadTx = none then
            { u with phase := .committed }
          else u })
      else (.error ⟨.runtimeError, "插件安装恢复点不能提交"⟩, d)
  | _, .finish changes, d => (.ok (), { d with updates := changes.foldl Change.apply d.updates })

/-- A process. -/
abbrev Process (α : Type) := Program Op PyError α

/-- `if not condition: raise …`. -/
def require (condition : Prop) [Decidable condition] (cls : ErrorClass) (text : String) :
    Process Unit :=
  .ofExcept (if condition then .ok () else .error ⟨cls, text⟩)

/-- `if condition: p`. -/
def whenever (condition : Bool) (p : Process Unit) : Process Unit :=
  if condition then p else pure ()

/-! ### Files -/

/-- Whether `resolve_pointer` finds a pointer's target. -/
def resolves (artifacts : List String) : Option String → Bool
  | none => true
  | some path => path ∈ artifacts

/-- `_validate_pointers`. -/
def validPointers (artifacts : List String) (p : Pointers) : Bool :=
  !(p.latest = none && p.stable ≠ none) && resolves artifacts p.stable &&
    resolves artifacts p.latest

/-- `write_pointers`. -/
def writePointers (base : Base) (p : Pointers) : Process Unit := do
  let artifacts ← .perform (.artifacts base)
  require (validPointers artifacts p) .osError "插件 artifact pointer 目标不存在"
  .perform (.savePointers base (some p))

variable (distribution : Option (List (Option Document)))

/-- `set_plugin_choice`. -/
def setPluginChoice (pluginId : String) (enabled : Option Bool) : Process Unit := do
  let patch ← .perform .patch
  let document ← .ofExcept (withChoice distribution patch pluginId enabled)
  .perform (.savePatch document)

/-- `{row.plugin: not row.disabled for row in rows}.get(plugin_id)`. -/
def enabledIn (rows : List BundleRow) (pluginId : String) : Option Bool :=
  (rowOf rows pluginId).map fun row => !row.disabled

/-! ### Settlement -/

/-- The pointers that `rollback` overwrites. -/
def accepted (u : Update) (current : Option Pointers) : Bool :=
  current = u.previous ||
    current = some ⟨u.previous.bind fun p => p.stable, some u.candidate⟩ ||
    current = some (.both u.candidate)

/-- The pointers of before, or no pointer file. -/
def restorePointers (base : Base) : Option Pointers → Process Unit
  | none => .perform (.savePointers base none)
  | some previous => writePointers base previous

/-- `rollback`: what it writes to the journal. -/
def rollback (u : Update) (error : String) : Process Change := do
  require (u.phase = .armed) .runtimeError "只有尚未提交的插件更新可以回退"
  match expectedBase u.pluginId with
  | none => .ofExcept (valueError "插件更新身份无效")
  | some base => do
      require (u.pluginBase = base) .runtimeError "插件更新恢复点不属于当前插件目录"
      let current ← .perform (.pointers base)
      require (accepted u current) .runtimeError "插件指针已被其他操作改变，不能覆盖"
      let patch ← .perform .patch
      let rows ← .ofExcept (patchRows patch)
      require (enabledIn rows u.pluginId = u.previousEnabled ∨ enabledIn rows u.pluginId = some true)
        .runtimeError "插件启用状态已被其他操作改变，不能覆盖"
      restorePointers base u.previous
      setPluginChoice distribution u.pluginId u.previousEnabled
      pure ⟨u.updateId, .rolledBack, error⟩

/-- The last part of `settle_orphan`: the choice that is missing is made up for. -/
def settleCandidate (u : Update) (enabled : Option Bool) : Process Change := do
  whenever (enabled ≠ some true) (setPluginChoice distribution u.pluginId (some true))
  pure ⟨u.updateId, .committed, ""⟩

/-- `settle_orphan`. -/
def settleOrphan (u : Update) : Process Change := do
  require (u.phase = .armed ∧ u.reloadTx = none) .runtimeError
    "只有无 runtime 记录的中断安装可以按磁盘结算"
  let current ← .perform (.pointers u.pluginBase)
  let patch ← .perform .patch
  let rows ← .ofExcept (patchRows patch)
  let candidate := Pointers.both u.candidate
  let enabled := enabledIn rows u.pluginId
  if u.previous = some candidate ∧ current = some candidate then
    -- the pointers are the same before and after: only the choice tells
    if enabled ≠ some true then rollback distribution u "interrupted before enable"
    else settleCandidate distribution u enabled
  else if current = u.previous then
    rollback distribution u "interrupted before pointer commit"
  else if current ≠ some candidate then
    .ofExcept (.error ⟨.runtimeError, "插件指针已被其他操作改变，不能结算: " ++ u.pluginId⟩)
  else settleCandidate distribution u enabled

/-- One update after the other. -/
def settleEach (settle : Update → Process Change) : List Update → Process (List Change)
  | [] => pure []
  | u :: us => do
      let change ← settle u
      let changes ← settleEach settle us
      pure (change :: changes)

/-- The armed rows without a reload. -/
def isOrphan (u : Update) : Bool :=
  u.phase = .armed && u.reloadTx = none

/-- `settle_orphaned_installs`. -/
def settleOrphanedInstalls : Process (List Change) := do
  let updates ← .perform .updates
  let orphans := (updates.filter isOrphan).mergeSort fun u v => decide (u.updateId ≤ v.updateId)
  let changes ← settleEach (settleOrphan distribution) orphans
  .perform (.finish changes)
  pure changes

/-- `rollback_updates` of one update. -/
def rollbackUpdates (updateId error : String) : Process Unit := do
  let updates ← .perform .updates
  let armed := updates.filter fun u => u.phase = .armed ∧ u.updateId = updateId
  let changes ← settleEach (fun u => rollback distribution u error) armed
  .perform (.finish changes)

/-! ### Installation -/

/-- What an installation knows before it changes anything. -/
structure Request where
  updateId : String
  pluginName : String
  marketplace : String
  /-- The artifact of this version and revision. -/
  target : String
  /-- The artifact that takes its place when it is there and must not be used again. -/
  renewed : String
  /-- `refresh_existing_artifact`. -/
  refresh : Bool
  /-- Whether the environment of the artifact that is there is another one. -/
  environmentChanged : Bool
  deriving DecidableEq, Repr

namespace Request

/-- The identity of the plugin. -/
def pluginId (q : Request) : String :=
  q.pluginName ++ "@" ++ q.marketplace

/-- The directory of the plugin. -/
def base (q : Request) : Base :=
  ⟨q.marketplace, q.pluginName⟩

/-- Whether the artifact that is there is used as it is. -/
def reuses (q : Request) (artifacts : List String) : Bool :=
  q.target ∈ artifacts && !q.refresh && !q.environmentChanged

/-- The artifact that the pointers will be set to. -/
def candidate (q : Request) (artifacts : List String) : String :=
  if q.target ∈ artifacts ∧ q.reuses artifacts = false then q.renewed else q.target

end Request

/-- `except BaseException` of an installation: the update is rolled back when it is armed, and
an artifact that it made is removed. -/
def guarded (q : Request) (armed created : Bool) (path : String) (p : Process Unit) :
    Process Unit :=
  p.catching fun e => do
    whenever armed (rollbackUpdates distribution q.updateId "install failed")
    whenever created (.perform (.remove q.base path))
    .raise e

/-- `_activate_plugin_version`: the artifact it made, if any, and the one to remove at the
end. -/
def activatePluginVersion (q : Request) (previousEnabled : Option Bool) :
    Process (Bool × String × Option String) := do
  let previous ← .perform (.pointers q.base)
  let artifacts ← .perform (.artifacts q.base)
  require (previous.elim true (validPointers artifacts)) .osError
    "插件 artifact pointer 目标不存在"
  require (previous.elim true fun p => p.stable = p.latest) .runtimeError
    "插件有未决历史指针对，须先恢复"
  let superseded := if q.refresh then previous.bind fun p => p.stable else none
  let path := q.candidate artifacts
  let created := !q.reuses artifacts
  whenever created (guarded distribution q false false path (.perform (.publish q.base path)))
  guarded distribution q false created path (.perform (.arm
    ⟨q.updateId, q.pluginId, q.base, previous, path, previousEnabled, .armed, none, ""⟩))
  guarded distribution q true created path (writePointers q.base (.both path))
  pure (created, path, superseded)

/-- `install_git_plugin`, from its first durable read to the end. -/
def installGitPlugin (q : Request) : Process Unit := do
  let _ ← settleOrphanedInstalls distribution
  let updates ← .perform .updates
  require (∀ u ∈ updates, u.updateId ≠ q.updateId) .runtimeError
    "已有插件更新请求只能查询，不能重跑安装"
  require (isSegment q.marketplace) .valueError "marketplace 必须是安全的单一路径段"
  let patch ← .perform .patch
  let rows ← .ofExcept (patchRows patch)
  require (isSegment q.pluginName) .valueError "插件 name 必须是安全的单一路径段"
  let (created, path, superseded) ←
    activatePluginVersion distribution q (enabledIn rows q.pluginId)
  guarded distribution q true created path
    (setPluginChoice distribution q.pluginId (some true))
  .perform (.commitUpdate q.updateId)
  match superseded with
  | none => pure ()
  | some path => .perform (.remove q.base path)

/-! ### Rows of a document -/

/-- What `load_bundle` checks: the names, and that no two rows name one plugin. -/
structure Loads (document : Document) : Prop where
  names : ∀ id e, document.get? id = some e → isPlugin id = true ∧ isPlugin e.plugin = true
  plugins : ∀ id id' e e', document.get? id = some e → document.get? id' = some e' →
    e.plugin = e'.plugin → id = id'

variable {row : BundleRow}

theorem mem_rowsOf {document : Document} :
    row ∈ rowsOf document ↔ document.get? row.id = some row.toEntry := by
  rw [rowsOf, List.mem_map, Dict.get?_eq_some_iff]
  constructor
  · rintro ⟨entry, hentry, rfl⟩
    exact hentry
  · intro hrow
    exact ⟨(row.id, row.toEntry), hrow, rfl⟩

theorem nodup_rowsOf (document : Document) : (rowsOf document).Nodup := by
  refine List.Nodup.of_map (fun row => row.id) ?_
  rw [rowsOf, List.map_map]
  exact document.nodup

theorem loadBundle_eq_ok {document : Document} {rows : List BundleRow} :
    loadBundle document = .ok rows ↔ Loads document ∧ rows = rowsOf document := by
  have hplugins : ((rowsOf document).map fun row => row.plugin).Nodup ↔
      ∀ id id' e e', document.get? id = some e → document.get? id' = some e' →
        e.plugin = e'.plugin → id = id' := by
    rw [List.nodup_map_iff_inj_on (nodup_rowsOf document)]
    constructor
    · intro hinj id id' e e' he he' heq
      have hrows := hinj ⟨e, id⟩ (mem_rowsOf.mpr he) ⟨e', id'⟩ (mem_rowsOf.mpr he') heq
      exact congrArg BundleRow.id hrows
    · intro hid row hrow row' hrow' heq
      have hrow := mem_rowsOf.mp hrow
      have hrow' := mem_rowsOf.mp hrow'
      have hids := hid _ _ _ _ hrow hrow' heq
      rw [hids, hrow'] at hrow
      cases row
      cases row'
      simp_all
  have hnames : (∀ row ∈ rowsOf document, isPlugin row.id ∧ isPlugin row.plugin) ↔
      ∀ id e, document.get? id = some e → isPlugin id = true ∧ isPlugin e.plugin = true := by
    constructor
    · intro h id e he
      exact h ⟨e, id⟩ (mem_rowsOf.mpr he)
    · intro h row hrow
      exact h row.id row.toEntry (mem_rowsOf.mp hrow)
  rw [loadBundle, checkPlugins]
  constructor
  · intro h
    obtain ⟨hn, h⟩ | ⟨-, ⟨⟩⟩ := ite_eq_iff.mp h
    split at h
    · next hp => exact ⟨⟨hnames.mp hn, hplugins.mp hp⟩, (Except.ok.inj h).symm⟩
    · cases h
  · rintro ⟨hloads, rfl⟩
    rw [if_pos (hnames.mpr hloads.names), if_pos (hplugins.mpr hloads.plugins)]

theorem rowOf_eq_some {document : Document} (h : Loads document) {pluginId : String} :
    rowOf (rowsOf document) pluginId = some row ↔
      document.get? row.id = some row.toEntry ∧ row.plugin = pluginId := by
  rw [rowOf]
  constructor
  · intro hfind
    exact ⟨mem_rowsOf.mp (List.mem_of_find?_eq_some hfind),
      by simpa using List.find?_some hfind⟩
  · rintro ⟨hrow, hplugin⟩
    cases hfind : (rowsOf document).find? fun row => row.plugin = pluginId with
    | none =>
        have hnot := List.find?_eq_none.mp hfind row (mem_rowsOf.mpr hrow)
        exact absurd hplugin (by simpa using hnot)
    | some other =>
        have hother := mem_rowsOf.mp (List.mem_of_find?_eq_some hfind)
        have hname : other.plugin = pluginId := by simpa using List.find?_some hfind
        have hid := h.plugins _ _ _ _ hother hrow (hname.trans hplugin.symm)
        rw [hid, hrow] at hother
        cases row
        cases other
        simp_all

theorem rowOf_eq_none {document : Document} {pluginId : String} :
    rowOf (rowsOf document) pluginId = none ↔
      ∀ id e, document.get? id = some e → e.plugin ≠ pluginId := by
  rw [rowOf, List.find?_eq_none]
  constructor
  · intro h id e he
    simpa using h ⟨e, id⟩ (mem_rowsOf.mpr he)
  · intro h row hrow
    simpa using h row.id row.toEntry (mem_rowsOf.mp hrow)

/-- The rows that name a plugin are those of an id: none, or one. -/
def Owns (document : Document) (id pluginId : String) : Prop :=
  ∀ id' e, document.get? id' = some e → (id' = id ↔ e.plugin = pluginId)

theorem owns_of_rowOf {document : Document} (h : Loads document) {pluginId : String}
    (hrow : rowOf (rowsOf document) pluginId = some row) : Owns document row.id pluginId := by
  obtain ⟨hget, hplugin⟩ := (rowOf_eq_some h).mp hrow
  intro id e he
  constructor
  · rintro rfl
    rw [hget] at he
    obtain rfl := Option.some.inj he
    exact hplugin
  · intro hname
    exact h.plugins _ _ _ _ he hget (hname.trans hplugin.symm)

theorem owns_of_none {document : Document} {pluginId id : String}
    (hrow : rowOf (rowsOf document) pluginId = none) (hid : document.get? id = none) :
    Owns document id pluginId := by
  intro id' e he
  constructor
  · rintro rfl
    rw [hid] at he
    cases he
  · intro hname
    exact absurd hname (rowOf_eq_none.mp hrow id' e he)

section Owned

variable {document : Document} {id : String} {e : Entry}

theorem Loads.set (h : Loads document) (howns : Owns document id e.plugin)
    (hid : isPlugin id = true) (hplugin : isPlugin e.plugin = true) :
    Loads (document.set id e) := by
  constructor
  · intro id' e' he'
    obtain ⟨heq, rfl⟩ | ⟨-, he'⟩ := Dict.of_get?_set he'
    · exact ⟨heq ▸ hid, hplugin⟩
    · exact h.names id' e' he'
  · intro i j f g hf hg hname
    rw [Dict.get?_set] at hf hg
    split at hf <;> split at hg
    · next hi hj => rw [hi, hj]
    · next hi hj =>
        obtain rfl := Option.some.inj hf
        exact absurd ((howns j g hg).mpr hname.symm) hj
    · next hi hj =>
        obtain rfl := Option.some.inj hg
        exact absurd ((howns i f hf).mpr hname) hi
    · exact h.plugins i j f g hf hg hname

theorem rowOf_set_self (h : Loads document) (howns : Owns document id e.plugin)
    (hid : isPlugin id = true) (hplugin : isPlugin e.plugin = true) :
    rowOf (rowsOf (document.set id e)) e.plugin = some ⟨e, id⟩ :=
  (rowOf_eq_some (h.set howns hid hplugin)).mpr ⟨Dict.get?_set_self document id e, rfl⟩

theorem rowOf_set_of_ne (h : Loads document) (howns : Owns document id e.plugin)
    (hid : isPlugin id = true) (hplugin : isPlugin e.plugin = true) {other : String}
    (hother : other ≠ e.plugin) :
    rowOf (rowsOf (document.set id e)) other = rowOf (rowsOf document) other := by
  refine Option.ext fun row => ?_
  rw [rowOf_eq_some (h.set howns hid hplugin), rowOf_eq_some h, Dict.get?_set]
  refine and_congr_left fun hname => ?_
  split
  · next heq =>
      constructor
      · intro hrow
        obtain rfl := Option.some.inj hrow
        exact absurd hname.symm hother
      · intro hrow
        exact absurd (((howns _ _ hrow).mp heq).symm.trans hname).symm hother
  · rfl

end Owned

/-! ### Identities of installed plugins -/

theorem not_at_of_isSegment {text : String} (h : isSegment text = true) :
    ∀ c ∈ text.toList, c ≠ '@' := by
  rw [isSegment] at h
  split at h
  · cases h
  · next c cs heq =>
      obtain ⟨hc, hcs⟩ := Bool.and_eq_true_iff.mp h
      rw [heq]
      rintro d hd rfl
      rcases List.mem_cons.mp hd with rfl | hd
      · exact absurd hc (by decide)
      · exact absurd (List.all_eq_true.mp hcs '@' hd) (by decide)

theorem rpartition_pluginId {name marketplace : String} (h : isSegment marketplace = true) :
    rpartition (name ++ "@" ++ marketplace) = some (name, marketplace) := by
  have hlist : (name ++ "@" ++ marketplace).toList.reverse =
      marketplace.toList.reverse ++ '@' :: name.toList.reverse := by
    simp [String.toList_append]
  have hback : ∀ c ∈ marketplace.toList.reverse, decide (c ≠ '@') = true := fun c hc =>
    decide_eq_true (not_at_of_isSegment h c (List.mem_reverse.mp hc))
  have hspan : (name ++ "@" ++ marketplace).toList.reverse.span (· ≠ '@') =
      (marketplace.toList.reverse, '@' :: name.toList.reverse) := by
    rw [hlist, List.span_eq_takeWhile_dropWhile, List.takeWhile_append_of_pos hback,
      List.dropWhile_append_of_pos hback]
    simp
  rw [rpartition, hspan]
  simp

namespace Request

/-- The names of an installation, as it checks them. -/
def Named (q : Request) : Prop :=
  isSegment q.pluginName = true ∧ isSegment q.marketplace = true

theorem isPlugin_pluginId {q : Request} (h : q.Named) : isPlugin q.pluginId = true := by
  rw [isPlugin, pluginId, rpartition_pluginId h.2]
  exact Bool.and_eq_true_iff.mpr h

theorem expectedBase_pluginId {q : Request} (h : q.Named) :
    expectedBase q.pluginId = some q.base := by
  rw [expectedBase, pluginId, rpartition_pluginId h.2]
  exact if_pos h

end Request

/-! ### Choices -/

theorem patchRows_getD (patch : Option Document) :
    patchRows patch = loadBundle (patch.getD Dict.empty) := by
  cases patch with
  | none => rfl
  | some document => rfl

theorem loadBundles_getD (files : List (Option Document)) (patch : Option Document) :
    loadBundles files patch = loadBundles files (some (patch.getD Dict.empty)) := by
  cases patch with
  | some document => rfl
  | none =>
      have hempty : loadFile (some Dict.empty) = .ok [] := rfl
      simp only [loadBundles, Option.toList_none, Option.toList_some, List.map_nil, List.map_cons,
        List.append_nil, Option.getD_none, List.mapM_append, List.mapM_cons, List.mapM_nil, hempty]
      cases files.mapM loadFile with
      | error e => rfl
      | ok loaded => simp [bind, Except.bind, pure, Except.pure]

theorem compositionRows_getD (patch : Option Document) : compositionRows distribution patch =
    compositionRows distribution (some (patch.getD Dict.empty)) := by
  cases distribution with
  | none => exact patchRows_getD patch
  | some files => exact loadBundles_getD files patch

theorem withChoice_getD (patch : Option Document) (pluginId : String) (enabled : Option Bool) :
    withChoice distribution patch pluginId enabled =
      withChoice distribution (some (patch.getD Dict.empty)) pluginId enabled := by
  have hchosen : ∀ rows on, chosenRow distribution patch rows pluginId on =
      chosenRow distribution (some (patch.getD Dict.empty)) rows pluginId on := by
    intro rows on
    rw [chosenRow, chosenRow, compositionRows_getD]
  simp only [withChoice, patchRows_getD, hchosen, Option.getD_some]

theorem get?_foldl_rows (rows : List BundleRow) (selected : Dict String BundleRow) (id : String) :
    (rows.foldl (fun selected row => selected.set row.id row) selected).get? id =
      (rows.reverse.find? fun row => row.id = id).or (selected.get? id) := by
  induction rows generalizing selected with
  | nil => rfl
  | cons row rows ih =>
      rw [List.foldl_cons, ih, Dict.get?_set, List.reverse_cons, List.find?_append,
        Option.or_assoc]
      congr 1
      by_cases h : id = row.id
      · simp [h]
      · simp [h, Ne.symm h]

theorem find?_rowsOf {document : Document} {id : String} {e : Entry}
    (h : document.get? id = some e) :
    (rowsOf document).reverse.find? (fun row => row.id = id) = some ⟨e, id⟩ := by
  cases hfind : (rowsOf document).reverse.find? fun row => row.id = id with
  | none =>
      have hnot := List.find?_eq_none.mp hfind ⟨e, id⟩ (List.mem_reverse.mpr (mem_rowsOf.mpr h))
      simp at hnot
  | some row =>
      have hrow := mem_rowsOf.mp (List.mem_reverse.mp (List.mem_of_find?_eq_some hfind))
      have hid : row.id = id := by simpa using List.find?_some hfind
      rw [hid, h] at hrow
      cases row
      simp_all

theorem loadBundles_eq_ok {files : List (Option Document)} {patch : Option Document}
    {composition : List BundleRow} (h : loadBundles files patch = .ok composition) :
    ∃ loaded, (files ++ patch.toList.map some).mapM loadFile = .ok loaded ∧
      ∀ row ∈ composition,
        loaded.flatten.reverse.find? (fun other => other.id = row.id) = some row := by
  obtain ⟨loaded, hloaded, h⟩ := Exceptions.bind_eq_ok.mp h
  refine ⟨loaded, hloaded, fun row hrow => ?_⟩
  rw [checkPlugins] at h
  split at h
  · obtain rfl := Except.ok.inj h
    obtain ⟨entry, hentry, rfl⟩ := List.mem_map.mp hrow
    have hget := Dict.get?_eq_some_iff.mpr hentry
    rw [get?_foldl_rows, Dict.get?_empty, Option.or_none] at hget
    have hid : entry.2.id = entry.1 := by simpa using List.find?_some hget
    rw [hid, hget]
  · cases h

theorem names_of_loadFile {file : Option Document} {rows : List BundleRow}
    (h : loadFile file = .ok rows) (hrow : row ∈ rows) : isPlugin row.id = true := by
  cases file with
  | none => cases h
  | some document =>
      obtain ⟨hloads, rfl⟩ := loadBundle_eq_ok.mp h
      exact (hloads.names _ _ (mem_rowsOf.mp hrow)).1

section Composition

variable {distribution} {document : Document} {composition : List BundleRow}

theorem names_of_composition (hloads : Loads document)
    (h : compositionRows distribution (some document) = .ok composition)
    (hrow : row ∈ composition) : isPlugin row.id = true := by
  cases distribution with
  | none =>
      obtain ⟨-, rfl⟩ := loadBundle_eq_ok.mp h
      exact (hloads.names _ _ (mem_rowsOf.mp hrow)).1
  | some files =>
      obtain ⟨loaded, hloaded, hlast⟩ := loadBundles_eq_ok h
      have hmem := List.mem_reverse.mp (List.mem_of_find?_eq_some (hlast row hrow))
      obtain ⟨rows, hrows, hin⟩ := List.mem_flatten.mp hmem
      obtain ⟨file, -, hfile⟩ := Exceptions.mapM_results hloaded rows hrows
      exact names_of_loadFile hfile hin

theorem eq_of_mem_composition (hloads : Loads document)
    (h : compositionRows distribution (some document) = .ok composition) (hrow : row ∈ composition)
    {e : Entry} (he : document.get? row.id = some e) : row.toEntry = e := by
  cases distribution with
  | none =>
      obtain ⟨-, rfl⟩ := loadBundle_eq_ok.mp h
      rw [mem_rowsOf.mp hrow] at he
      exact Option.some.inj he
  | some files =>
      obtain ⟨loaded, hloaded, hlast⟩ := loadBundles_eq_ok h
      rw [Option.toList_some, List.map_singleton] at hloaded
      obtain ⟨first, -, hrest⟩ := Exceptions.bind_eq_ok.mp (Exceptions.mapM_append_eq ▸ hloaded)
      obtain ⟨last, hpatch, hrest⟩ := Exceptions.bind_eq_ok.mp hrest
      obtain rfl := Except.ok.inj hrest
      have hrows : last = [rowsOf document] := by
        have hdoc : loadFile (some document) = .ok (rowsOf document) :=
          loadBundle_eq_ok.mpr ⟨hloads, rfl⟩
        rw [List.mapM_cons, hdoc] at hpatch
        exact (Except.ok.inj hpatch).symm
      have hfind := hlast row hrow
      rw [hrows, List.flatten_append, List.flatten_singleton, List.reverse_append,
        List.find?_append, find?_rowsOf he] at hfind
      exact congrArg BundleRow.toEntry (Option.some.inj hfind).symm

end Composition

section Written

variable {distribution} {document : Document} {pluginId : String}

theorem withChoice_none (hplugin : isPlugin pluginId = true) (hloads : Loads document) :
    withChoice distribution (some document) pluginId none =
      .ok ((rowOf (rowsOf document) pluginId).elim document fun row => document.erase row.id) := by
  have hrows : patchRows (some document) = .ok (rowsOf document) :=
    loadBundle_eq_ok.mpr ⟨hloads, rfl⟩
  rw [withChoice, if_neg (not_not_intro hplugin), hrows]
  cases hrow : rowOf (rowsOf document) pluginId <;> simp [hrow, bind, Except.bind, pure, Except.pure]

theorem withChoice_row (hplugin : isPlugin pluginId = true) (hloads : Loads document)
    (hrow : rowOf (rowsOf document) pluginId = some row) (enabled : Bool) :
    withChoice distribution (some document) pluginId (some enabled) =
      .ok (document.set row.id ⟨pluginId, row.config, !enabled⟩) := by
  have hrows : patchRows (some document) = .ok (rowsOf document) :=
    loadBundle_eq_ok.mpr ⟨hloads, rfl⟩
  rw [withChoice, if_neg (not_not_intro hplugin), hrows]
  simp [chosenRow, hrow, bind, Except.bind, pure, Except.pure]

theorem withChoice_new (hplugin : isPlugin pluginId = true) (hloads : Loads document)
    (hrow : rowOf (rowsOf document) pluginId = none) (enabled : Bool) :
    withChoice distribution (some document) pluginId (some enabled) =
      (compositionRows distribution (some document)).map fun composition =>
        document.set ((rowOf composition pluginId).elim pluginId fun row => row.id)
          ⟨pluginId, (rowOf composition pluginId).elim [] fun row => row.config, !enabled⟩ := by
  have hrows : patchRows (some document) = .ok (rowsOf document) :=
    loadBundle_eq_ok.mpr ⟨hloads, rfl⟩
  rw [withChoice, if_neg (not_not_intro hplugin), hrows]
  cases hcomposition : compositionRows distribution (some document) <;>
    simp [chosenRow, hrow, hcomposition, bind, Except.bind, pure, Except.pure, Except.map]

end Written

namespace Disk

/-- The rows of the patch file. -/
def document (d : Disk) : Document :=
  d.patch.getD Dict.empty

/-- The choice of a plugin. -/
def choice (d : Disk) (pluginId : String) : Option BundleRow :=
  rowOf (rowsOf d.document) pluginId

end Disk

/-- The choice of the plugin can be written without taking the row of another plugin: it has a
row; or the composition loads, and names the plugin or leaves its identity free as an id. Where
the composition does not load, the choice is not written, which an installation that changes
no pointer survives. -/
def Writable (q : Request) (prior : Disk) : Prop :=
  (prior.choice q.pluginId).isSome = true ∨
    (∃ composition, compositionRows distribution prior.patch = .ok composition ∧
      ((rowOf composition q.pluginId).isSome = true ∨
        prior.document.get? q.pluginId = none)) ∨
    ((∃ e, compositionRows distribution prior.patch = .error e) ∧
      prior.pointers q.base = some (.both (q.candidate (prior.artifacts q.base))))

/-- The two documents between which an installation moves: the one before it, and `enabled`.
Whether the choice can be written at all is `on`. -/
structure Choices (q : Request) (prior : Disk) (enabled : Document) (on : Prop) : Prop where
  loads : ∀ document, document = prior.document ∨ document = enabled → Loads document
  others : ∀ pluginId, pluginId ≠ q.pluginId →
    rowOf (rowsOf enabled) pluginId = prior.choice pluginId
  write : on → ∀ document, document = prior.document ∨ document = enabled →
    withChoice distribution (some document) q.pluginId (some true) = .ok enabled
  chosen : on → enabledIn (rowsOf enabled) q.pluginId = some true
  restore : ∀ document, document = prior.document ∨ document = enabled →
    withChoice distribution (some document) q.pluginId
      (enabledIn (rowsOf prior.document) q.pluginId) = .ok prior.document
  previous : ∀ document, document = prior.document ∨ document = enabled →
    enabledIn (rowsOf document) q.pluginId = enabledIn (rowsOf prior.document) q.pluginId ∨
      on ∧ document = enabled
  off : ¬on → enabled = prior.document ∧ prior.choice q.pluginId = none ∧
    (∃ e, withChoice distribution (some prior.document) q.pluginId (some true) = .error e) ∧
    prior.pointers q.base = some (.both (q.candidate (prior.artifacts q.base)))

section Choices

variable {distribution} {q : Request} {prior : Disk}

/-- A row that the plugin owns, or may own, gives the two documents. -/
theorem choices_of_owns (hnamed : q.Named) (hloads : Loads prior.document) {id : String}
    {config : List (String × Json)} (howns : Owns prior.document id q.pluginId)
    (hid : isPlugin id = true)
    (hsame : ∀ row, prior.choice q.pluginId = some row → row.id = id ∧ row.config = config)
    (hwrite : withChoice distribution (some prior.document) q.pluginId (some true) =
      .ok (prior.document.set id ⟨q.pluginId, config, false⟩)) :
    Choices distribution q prior (prior.document.set id ⟨q.pluginId, config, false⟩) True := by
  have hplugin := Request.isPlugin_pluginId hnamed
  have hloads' := hloads.set (e := ⟨q.pluginId, config, false⟩) howns hid hplugin
  have hrow' := rowOf_set_self (e := ⟨q.pluginId, config, false⟩) hloads howns hid hplugin
  refine
    { loads := ?_
      others := ?_
      write := ?_
      chosen := ?_
      restore := ?_
      previous := ?_
      off := fun hoff => absurd trivial hoff }
  · rintro document (rfl | rfl)
    · exact hloads
    · exact hloads'
  · intro other hother
    exact rowOf_set_of_ne (e := ⟨q.pluginId, config, false⟩) hloads howns hid hplugin hother
  · rintro - document (rfl | rfl)
    · exact hwrite
    · rw [withChoice_row hplugin hloads' hrow' true, Dict.set_set]
      rfl
  · intro _
    rw [enabledIn, hrow']
    rfl
  · cases hrow : prior.choice q.pluginId with
    | none =>
        have hnone : prior.document.get? id = none := by
          cases hget : prior.document.get? id with
          | none => rfl
          | some e =>
              exact absurd ((howns id e hget).mp rfl) (rowOf_eq_none.mp hrow id e hget)
        have henabled : enabledIn (rowsOf prior.document) q.pluginId = none := by
          rw [enabledIn, show rowOf _ _ = none from hrow]
          rfl
        rw [henabled]
        rintro document (rfl | rfl)
        · rw [withChoice_none hplugin hloads, show rowOf _ _ = none from hrow]
          rfl
        · rw [withChoice_none hplugin hloads', hrow']
          exact congrArg Except.ok (Dict.erase_set_of_none _ hnone)
    | some row =>
        obtain ⟨rfl, rfl⟩ := hsame row hrow
        obtain ⟨hget, hname⟩ := (rowOf_eq_some hloads).mp hrow
        have henabled : enabledIn (rowsOf prior.document) q.pluginId = some !row.disabled := by
          rw [enabledIn, show rowOf _ _ = some row from hrow]
          rfl
        have hback : prior.document.set row.id ⟨q.pluginId, row.config, !!row.disabled⟩ =
            prior.document := by
          refine Dict.set_of_get? ?_
          rw [hget, Bool.not_not, ← hname]
        rw [henabled]
        rintro document (rfl | rfl)
        · rw [withChoice_row hplugin hloads hrow, hback]
        · rw [withChoice_row hplugin hloads' hrow', Dict.set_set, hback]
  · rintro document (rfl | rfl)
    · exact .inl rfl
    · exact .inr ⟨trivial, rfl⟩

/-- **Where the choice can be written, there are the two documents.** -/
theorem choices_of_writable (hnamed : q.Named) (hloads : Loads prior.document)
    (h : Writable distribution q prior) :
    ∃ enabled on, Choices distribution q prior enabled on := by
  have hplugin := Request.isPlugin_pluginId hnamed
  have hcomposition := compositionRows_getD distribution prior.patch
  rcases hrow : prior.choice q.pluginId with _ | row
  · rcases h with h | ⟨composition, hload, hid⟩ | ⟨⟨e, herror⟩, hpointers⟩
    · rw [hrow] at h
      cases h
    · rw [hcomposition] at hload
      have hwrite := @withChoice_new distribution _ _ hplugin hloads hrow true
      rw [show compositionRows distribution (some prior.document) = .ok composition from hload]
        at hwrite
      refine ⟨_, True, choices_of_owns hnamed hloads ?_ ?_ ?_ hwrite⟩
      · -- an id of the composition that the patch has too would name the plugin there
        refine owns_of_none hrow ?_
        cases hsource : rowOf composition q.pluginId with
        | none => simpa [hsource] using hid
        | some source =>
            rw [rowOf] at hsource
            have hname : source.plugin = q.pluginId := by simpa using List.find?_some hsource
            cases hget : prior.document.get? source.id with
            | none => exact hget
            | some e =>
                have heq := eq_of_mem_composition hloads hload
                  (List.mem_of_find?_eq_some hsource) hget
                exact absurd (heq ▸ hname) (rowOf_eq_none.mp hrow _ _ hget)
      · cases hsource : rowOf composition q.pluginId with
        | none => exact hplugin
        | some source =>
            exact names_of_composition hloads hload (List.mem_of_find?_eq_some hsource)
      · intro row hsome
        rw [hrow] at hsome
        cases hsome
    · rw [hcomposition] at herror
      have hwrite := @withChoice_new distribution _ _ hplugin hloads hrow true
      rw [show compositionRows distribution (some prior.document) = .error e from herror]
        at hwrite
      refine ⟨prior.document, False,
        { loads := ?_
          others := fun _ _ => rfl
          write := fun hon => absurd hon id
          chosen := fun hon => absurd hon id
          restore := ?_
          previous := ?_
          off := fun _ => ⟨rfl, hrow, ⟨e, hwrite⟩, hpointers⟩ }⟩
      · rintro document (rfl | rfl) <;> exact hloads
      · have henabled : enabledIn (rowsOf prior.document) q.pluginId = none := by
          rw [enabledIn, show rowOf _ _ = none from hrow]
          rfl
        rw [henabled]
        rintro document (rfl | rfl) <;>
          exact (withChoice_none hplugin hloads).trans (by rw [show rowOf _ _ = none from hrow]; rfl)
      · rintro document (rfl | rfl) <;> exact .inl rfl
  · obtain ⟨hget, -⟩ := (rowOf_eq_some hloads).mp hrow
    refine ⟨_, True, choices_of_owns hnamed hloads (owns_of_rowOf hloads hrow)
      (hloads.names _ _ hget).1 ?_ (withChoice_row hplugin hloads hrow true)⟩
    intro other hother
    rw [hrow] at hother
    obtain rfl := Option.some.inj hother
    exact ⟨rfl, rfl⟩

end Choices

/-! ### What crashes may leave -/

/-- The row that the installation arms. -/
def armedUpdate (q : Request) (prior : Disk) : Update where
  updateId := q.updateId
  pluginId := q.pluginId
  pluginBase := q.base
  previous := prior.pointers q.base
  candidate := q.candidate (prior.artifacts q.base)
  previousEnabled := enabledIn (rowsOf prior.document) q.pluginId
  phase := .armed
  reloadTx := none
  error := ""

/-- What an installation has checked before it arms its row. -/
structure Checked (q : Request) (prior : Disk) : Prop where
  named : q.Named
  loads : Loads prior.document
  fresh : ∀ u ∈ prior.updates, u.updateId ≠ q.updateId
  valid : (prior.pointers q.base).elim true (validPointers (prior.artifacts q.base)) = true

/-- Nothing that a decision is made from has changed; an artifact may be there. -/
structure Untouched (q : Request) (prior d : Disk) : Prop where
  pointers : d.pointers = prior.pointers
  patch : d.patch = prior.patch
  updates : d.updates = prior.updates
  artifacts : ∀ path ∈ prior.artifacts q.base, path ∈ d.artifacts q.base

/-- The row is armed: the pointers are those before or those of the candidate, and the document
is the one before or the enabled one. -/
structure Midway (q : Request) (prior : Disk) (enabled : Document) (on : Prop) (d : Disk) :
    Prop where
  updates : d.updates = prior.updates ++ [armedUpdate q prior]
  others : ∀ base, base ≠ q.base → d.pointers base = prior.pointers base
  pointers : d.pointers q.base = prior.pointers q.base ∨
    d.pointers q.base = some (.both (q.candidate (prior.artifacts q.base)))
  document : d.document = prior.document ∨ on ∧ d.document = enabled
  artifacts : ∀ path ∈ prior.artifacts q.base, path ∈ d.artifacts q.base

/-- The row is settled, with the pointers and the document of its phase. -/
structure Settled (q : Request) (prior : Disk) (phase : Phase) (pointers : Option Pointers)
    (document : Document) (d : Disk) : Prop where
  updates : ∃ error, d.updates =
    prior.updates ++ [{ armedUpdate q prior with phase := phase, error := error }]
  others : ∀ base, base ≠ q.base → d.pointers base = prior.pointers base
  pointers : d.pointers q.base = pointers
  document : d.document = document

/-- The installation is complete. -/
def Installed (q : Request) (prior : Disk) (enabled : Document) (on : Prop) (d : Disk) : Prop :=
  Checked q prior ∧ on ∧
    Settled q prior .committed (some (.both (q.candidate (prior.artifacts q.base)))) enabled d

/-- The installation is undone. -/
def Undone (q : Request) (prior d : Disk) : Prop :=
  Settled q prior .rolledBack (prior.pointers q.base) prior.document d

/-- What an installation and the settlements after it may leave when they are cut short. -/
def Crashed (q : Request) (prior : Disk) (enabled : Document) (on : Prop) (d : Disk) : Prop :=
  Untouched q prior d ∨ Checked q prior ∧ Midway q prior enabled on d ∨
    Installed q prior enabled on d ∨ Undone q prior d

section Crashes

variable {distribution} {q : Request} {prior : Disk} {enabled : Document} {on F : Prop}
  {d : Disk}

open Program Program.Secure

variable {I : Disk → Prop} {path : String}

theorem secure_require {condition : Prop} [Decidable condition] {cls : ErrorClass} {text : String}
    (hI : I d) (h : ¬condition → F) :
    (require condition cls text).Secure (faulty F handler) I
      (Ends F fun _ t => condition ∧ t = d) d := by
  refine Secure.ofExcept hI ?_
  split
  · next hc => exact ⟨hc, rfl⟩
  · next hc => exact h hc

theorem validPointers_mono {artifacts artifacts' : List String} {p : Pointers}
    (h : validPointers artifacts p = true) (hsub : ∀ path ∈ artifacts, path ∈ artifacts') :
    validPointers artifacts' p = true := by
  have hresolves : ∀ target, resolves artifacts target = true →
      resolves artifacts' target = true := by
    intro target ht
    cases target with
    | none => rfl
    | some path => exact decide_eq_true (hsub path (of_decide_eq_true ht))
  simp only [validPointers, Bool.and_eq_true] at h ⊢
  exact ⟨⟨h.1.1, hresolves _ h.1.2⟩, hresolves _ h.2⟩

theorem Midway.savePatch (h : Midway q prior enabled on d) {document : Document}
    (hdocument : document = prior.document ∨ on ∧ document = enabled) :
    Midway q prior enabled on { d with patch := some document } :=
  { h with document := hdocument }

theorem Midway.savePointers (h : Midway q prior enabled on d) {pointers : Option Pointers}
    (hpointers : pointers = prior.pointers q.base ∨
      pointers = some (.both (q.candidate (prior.artifacts q.base)))) :
    Midway q prior enabled on
      { d with pointers := Function.update d.pointers q.base pointers } := by
  refine { h with others := fun base hbase => ?_, pointers := ?_ }
  · exact (Function.update_of_ne hbase pointers d.pointers).trans (h.others base hbase)
  · simpa only [Function.update_self] using hpointers

theorem secure_setPluginChoice {pluginId : String} {choice : Option Bool} {document : Document}
    (hwrite : withChoice distribution d.patch pluginId choice = .ok document) (hI : I d)
    (hI' : I { d with patch := some document }) :
    (setPluginChoice distribution pluginId choice).Secure (faulty F handler) I
      (Ends F fun _ t => t = { d with patch := some document }) d := by
  refine step (Secure.read rfl hI) ?_
  rintro _ _ - ⟨rfl, rfl⟩
  refine ofExcept_bind hwrite ((Secure.write rfl hI hI').post ?_)
  rintro _ _ - ⟨-, rfl⟩
  rfl

theorem secure_writePointers {base : Base} {p : Pointers}
    (hvalid : validPointers (d.artifacts base) p = true) (hI : I d)
    (hI' : I { d with pointers := Function.update d.pointers base (some p) }) :
    (writePointers base p).Secure (faulty F handler) I (Ends F fun _ t =>
      t = { d with pointers := Function.update d.pointers base (some p) }) d := by
  refine step (Secure.read rfl hI) ?_
  rintro _ _ - ⟨rfl, rfl⟩
  refine step (secure_require hI fun h => absurd hvalid h) ?_
  rintro _ _ - ⟨-, rfl⟩
  refine (Secure.write rfl hI hI').post ?_
  rintro _ _ - ⟨-, rfl⟩
  rfl

variable (hchoices : Choices distribution q prior enabled on) (hchecked : Checked q prior)

include hchoices in
theorem Midway.rows (h : Midway q prior enabled on d) :
    patchRows d.patch = .ok (rowsOf d.document) ∧ (d.document = prior.document ∨ d.document = enabled) := by
  have hdocument : d.document = prior.document ∨ d.document = enabled :=
    h.document.imp_right And.right
  refine ⟨?_, hdocument⟩
  rw [patchRows_getD]
  exact loadBundle_eq_ok.mpr ⟨hchoices.loads _ hdocument, rfl⟩

include hchoices in
theorem Midway.restore (h : Midway q prior enabled on d) :
    withChoice distribution d.patch q.pluginId
      (enabledIn (rowsOf prior.document) q.pluginId) = .ok prior.document := by
  rw [withChoice_getD]
  exact hchoices.restore _ (h.document.imp_right And.right)

include hchoices in
theorem Midway.write (h : Midway q prior enabled on d) (hon : on) :
    withChoice distribution d.patch q.pluginId (some true) = .ok enabled := by
  rw [withChoice_getD]
  exact hchoices.write hon _ (h.document.imp_right And.right)

include hchecked in
theorem secure_restorePointers (h : Midway q prior enabled on d) :
    (restorePointers q.base (prior.pointers q.base)).Secure (faulty F handler)
      (Midway q prior enabled on) (Ends F fun _ t =>
        t = { d with pointers := Function.update d.pointers q.base (prior.pointers q.base) }) d := by
  have hmid := h.savePointers (.inl rfl)
  have hvalid := hchecked.valid
  cases hprevious : prior.pointers q.base with
  | none =>
      rw [hprevious] at hmid
      refine (Secure.write rfl h hmid).post ?_
      rintro _ _ - ⟨-, rfl⟩
      rfl
  | some previous =>
      rw [hprevious] at hmid hvalid
      exact secure_writePointers (validPointers_mono hvalid h.artifacts) h hmid

include hchoices hchecked in
/-- **A rollback between the writes** restores the pointers and the document, wherever it is
itself cut short. -/
theorem secure_rollback (h : Midway q prior enabled on d) (error : String) :
    (rollback distribution (armedUpdate q prior) error).Secure (faulty F handler)
      (Midway q prior enabled on)
      (Ends F fun change t => change = ⟨q.updateId, .rolledBack, error⟩ ∧
        t.pointers q.base = prior.pointers q.base ∧ t.document = prior.document) d := by
  obtain ⟨hrows, hdocument⟩ := h.rows hchoices
  refine step (secure_require h fun hnot => absurd rfl hnot) ?_
  rintro _ _ - ⟨-, rfl⟩
  rw [show expectedBase (armedUpdate q prior).pluginId = some q.base from
    Request.expectedBase_pluginId hchecked.named]
  refine step (secure_require h fun hnot => absurd rfl hnot) ?_
  rintro _ _ - ⟨-, rfl⟩
  refine step (Secure.read rfl h) ?_
  rintro _ _ - ⟨rfl, rfl⟩
  refine step (secure_require h fun hnot => absurd ?_ hnot) ?_
  · rcases h.pointers with hpointers | hpointers <;> simp [accepted, armedUpdate, hpointers]
  rintro _ _ - ⟨-, rfl⟩
  refine step (Secure.read rfl h) ?_
  rintro _ _ - ⟨rfl, rfl⟩
  refine ofExcept_bind hrows ?_
  refine step (secure_require h fun hnot => absurd ?_ hnot) ?_
  · rcases hchoices.previous _ hdocument with hsame | ⟨hon, heq⟩
    · exact .inl hsame
    · rw [heq]
      exact .inr (hchoices.chosen hon)
  rintro _ _ - ⟨-, rfl⟩
  refine step (secure_restorePointers hchecked h) ?_
  rintro _ t hmid rfl
  refine step (secure_setPluginChoice (hmid.restore hchoices) hmid
    (hmid.savePatch (.inl rfl))) ?_
  rintro _ t hmid rfl
  exact Secure.pure hmid ⟨rfl, Function.update_self .., rfl⟩

/-- The pointers and the document that a change of the row records. -/
def Decided (q : Request) (prior : Disk) (enabled : Document) (on : Prop) (change : Change)
    (d : Disk) : Prop :=
  change.updateId = q.updateId ∧
    (change.phase = .rolledBack ∧ d.pointers q.base = prior.pointers q.base ∧
        d.document = prior.document ∨
      change.phase = .committed ∧ on ∧ d.document = enabled ∧
        d.pointers q.base = some (.both (q.candidate (prior.artifacts q.base))))

include hchoices hchecked in
theorem enabled_eq (hon : on)
    (h : enabledIn (rowsOf prior.document) q.pluginId = some true) :
    enabled = prior.document := by
  rw [enabledIn, Option.map_eq_some_iff] at h
  obtain ⟨row, hrow, hdisabled⟩ := h
  have hdisabled : row.disabled = false := by simpa using hdisabled
  obtain ⟨hget, hname⟩ := (rowOf_eq_some hchecked.loads).mp hrow
  have hwrite := hchoices.write hon _ (.inl rfl)
  rw [withChoice_row (Request.isPlugin_pluginId hchecked.named) hchecked.loads hrow] at hwrite
  rw [← Except.ok.inj hwrite]
  refine Dict.set_of_get? ?_
  rw [hget, ← hname, Bool.not_true, ← hdisabled]

include hchoices hchecked in
theorem secure_settleCandidate (hon : on) (h : Midway q prior enabled on d)
    (hpointers : d.pointers q.base = some (.both (q.candidate (prior.artifacts q.base)))) :
    (settleCandidate distribution (armedUpdate q prior)
      (enabledIn (rowsOf d.document) q.pluginId)).Secure (faulty F handler)
      (Midway q prior enabled on) (Ends F (Decided q prior enabled on)) d := by
  obtain ⟨-, hdocument⟩ := h.rows hchoices
  by_cases hmissing : enabledIn (rowsOf d.document) q.pluginId = some true
  · have hsame : d.document = enabled := by
      rcases hdocument with heq | heq
      · rw [heq] at hmissing
        rw [heq, enabled_eq hchoices hchecked hon hmissing]
      · exact heq
    rw [settleCandidate, hmissing]
    exact Secure.pure h ⟨rfl, .inr ⟨rfl, hon, hsame, hpointers⟩⟩
  · rw [settleCandidate, show decide (enabledIn (rowsOf d.document) q.pluginId ≠ some true) = true
      from decide_eq_true hmissing]
    refine step (secure_setPluginChoice (h.write hchoices hon) h (h.savePatch (.inr ⟨hon, rfl⟩))) ?_
    rintro _ t hmid rfl
    exact Secure.pure hmid ⟨rfl, .inr ⟨rfl, hon, rfl, hpointers⟩⟩

include hchoices hchecked in
theorem secure_decideRollback (h : Midway q prior enabled on d) (error : String) :
    (rollback distribution (armedUpdate q prior) error).Secure (faulty F handler)
      (Midway q prior enabled on) (Ends F (Decided q prior enabled on)) d := by
  refine (secure_rollback hchoices hchecked h error).post ?_
  rintro _ t - ⟨rfl, hpointers, hdocument⟩
  exact ⟨rfl, .inl ⟨rfl, hpointers, hdocument⟩⟩

include hchoices hchecked in
/-- **The settlement of the row** decides for one side, and can be cut short anywhere. -/
theorem secure_settleOrphan (h : Midway q prior enabled on d) :
    (settleOrphan distribution (armedUpdate q prior)).Secure (faulty F handler)
      (Midway q prior enabled on) (Ends F (Decided q prior enabled on)) d := by
  obtain ⟨hrows, hdocument⟩ := h.rows hchoices
  refine step (secure_require h fun hnot => absurd ⟨rfl, rfl⟩ hnot) ?_
  rintro _ _ - ⟨-, rfl⟩
  refine step (Secure.read rfl h) ?_
  rintro _ _ - ⟨rfl, rfl⟩
  refine step (Secure.read rfl h) ?_
  rintro _ d - ⟨rfl, rfl⟩
  refine ofExcept_bind hrows ?_
  dsimp only
  by_cases hon : on
  · split
    · next hsame =>
        split
        · exact secure_decideRollback hchoices hchecked h _
        · exact secure_settleCandidate hchoices hchecked hon h hsame.2
    · split
      · exact secure_decideRollback hchoices hchecked h _
      · next hmoved =>
          have hcandidate := h.pointers.resolve_left hmoved
          split
          · next hother => exact absurd hcandidate hother
          · exact secure_settleCandidate hchoices hchecked hon h hcandidate
  · -- the pointers are the same before and after, and no choice was written
    obtain ⟨heq, hnone, -, hpointers⟩ := hchoices.off hon
    have hcurrent : d.pointers q.base = prior.pointers q.base := by
      rcases h.pointers with h | h
      · exact h
      · rw [h, hpointers]
    have hdisabled : enabledIn (rowsOf d.document) q.pluginId = none := by
      have hdoc : d.document = prior.document := by
        rcases hdocument with h | h
        · exact h
        · rw [h, heq]
      rw [hdoc, enabledIn, show rowOf _ _ = none from hnone]
      rfl
    rw [if_pos ⟨hpointers, hcurrent.trans hpointers⟩, if_pos]
    · exact secure_decideRollback hchoices hchecked h _
    · rw [show enabledIn _ (armedUpdate q prior).pluginId = none from hdisabled]
      exact (Option.some_ne_none true).symm

/-! ### All rows -/

theorem secure_settleEach {settle : Update → Process Change} {u : Update} {G : Change → Disk → Prop}
    (h : (settle u).Secure (faulty F handler) I (Ends F G) d) :
    (settleEach settle [u]).Secure (faulty F handler) I
      (Ends F fun changes t => ∃ change, changes = [change] ∧ G change t) d :=
  step h fun change _ hI hgood => ⟨hI, change, rfl, hgood⟩

theorem secure_settle_none (hI : I d) (hnone : d.updates.filter isOrphan = []) :
    (settleOrphanedInstalls distribution).Secure (faulty F handler) I
      (Ends F fun _ t => t = d) d := by
  refine step (Secure.read rfl hI) ?_
  rintro _ d - ⟨rfl, rfl⟩
  rw [hnone, List.mergeSort_nil]
  refine step (p := settleEach (settleOrphan distribution) []) (G := fun changes t =>
    changes = [] ∧ t = d) (Secure.pure hI ⟨rfl, rfl⟩) ?_
  rintro _ d - ⟨rfl, rfl⟩
  refine step (Secure.write (t := d) rfl hI hI) ?_
  rintro _ _ - ⟨-, rfl⟩
  exact Secure.pure hI rfl

theorem apply_armedUpdate (hfresh : ∀ u ∈ prior.updates, u.updateId ≠ q.updateId)
    {change : Change} (hid : change.updateId = q.updateId) :
    change.apply (prior.updates ++ [armedUpdate q prior]) = prior.updates ++
      [{ armedUpdate q prior with phase := change.phase, error := change.error }] := by
  rw [Change.apply, List.map_append, List.map_singleton, hid]
  have hkept : ∀ u ∈ prior.updates, (if u.updateId = q.updateId ∧ u.phase = .armed then
      { u with phase := change.phase, error := change.error } else u) = u :=
    fun u hu => if_neg fun h => hfresh u hu h.1
  rw [List.map_congr_left hkept, List.map_id', if_pos ⟨rfl, rfl⟩]

theorem Midway.finish (h : Midway q prior enabled on d) (hchecked : Checked q prior)
    {change : Change}
    (hdecided : Decided q prior enabled on change d) :
    Installed q prior enabled on { d with updates := change.apply d.updates } ∨
      Undone q prior { d with updates := change.apply d.updates } := by
  obtain ⟨hid, ⟨hphase, hpointers, hdocument⟩ | ⟨hphase, hon, hdocument, hpointers⟩⟩ := hdecided
  · refine .inr ⟨⟨change.error, ?_⟩, h.others, hpointers, hdocument⟩
    rw [← hphase]
    exact (congrArg change.apply h.updates).trans (apply_armedUpdate hchecked.fresh hid)
  · refine .inl ⟨hchecked, hon, ⟨change.error, ?_⟩, h.others, hpointers, hdocument⟩
    rw [← hphase]
    exact (congrArg change.apply h.updates).trans (apply_armedUpdate hchecked.fresh hid)

/-- The rows of before need no settlement. -/
def Unarmed (prior : Disk) : Prop :=
  ∀ u ∈ prior.updates, isOrphan u = false

theorem filter_orphans {updates : List Update} (h : ∀ u ∈ updates, isOrphan u = false) :
    updates.filter isOrphan = [] :=
  List.filter_eq_nil_iff.mpr fun u hu => Bool.eq_false_iff.mp (h u hu)

theorem Settled.unarmed {phase : Phase} {pointers : Option Pointers} {document : Document}
    (h : Settled q prior phase pointers document d) (hunarmed : Unarmed prior)
    (hphase : phase ≠ .armed) : Unarmed d := by
  obtain ⟨error, hupdates⟩ := h.updates
  intro u hu
  rw [hupdates, List.mem_append, List.mem_singleton] at hu
  rcases hu with hu | rfl
  · exact hunarmed u hu
  · simp [isOrphan, hphase]

/-- **A settlement after any crash** leaves nothing in between, and is itself free to be cut
short. -/
theorem secure_settleOrphanedInstalls
    (hchoices : q.Named → Loads prior.document → Choices distribution q prior enabled on)
    (hunarmed : Unarmed prior)
    (h : Crashed q prior enabled on d) :
    (settleOrphanedInstalls distribution).Secure (faulty F handler)
      (Crashed q prior enabled on) (Ends F fun _ t =>
        Untouched q prior t ∨ Installed q prior enabled on t ∨ Undone q prior t) d := by
  rcases h with h | ⟨hchecked, h⟩ | h | h
  · refine (secure_settle_none (.inl h) (filter_orphans ?_)).post ?_
    · rw [h.updates]
      exact hunarmed
    · rintro _ _ - rfl
      exact .inl h
  · have horphans : d.updates.filter isOrphan = [armedUpdate q prior] := by
      rw [h.updates, List.filter_append, filter_orphans hunarmed]
      rfl
    have hmono : ∀ t, Midway q prior enabled on t → Crashed q prior enabled on t := fun t ht =>
      .inr (.inl ⟨hchecked, ht⟩)
    refine step (Secure.read rfl (hmono d h)) ?_
    rintro _ d - ⟨rfl, rfl⟩
    rw [horphans, List.mergeSort_singleton]
    refine step (secure_settleEach ((secure_settleOrphan
      (hchoices hchecked.named hchecked.loads) hchecked h).within hmono)) ?_
    rintro _ d - ⟨change, rfl, hmid, hdecided⟩
    have hfinish := hmid.finish hchecked hdecided
    refine step (Secure.write rfl (hmono d hmid) (.inr (.inr hfinish))) ?_
    rintro _ _ hcrashed ⟨-, rfl⟩
    exact Secure.pure hcrashed (.inr hfinish)
  · refine (secure_settle_none (.inr (.inr (.inl h)))
      (filter_orphans (h.2.2.unarmed hunarmed Phase.noConfusion))).post ?_
    rintro _ _ - rfl
    exact .inr (.inl h)
  · refine (secure_settle_none (.inr (.inr (.inr h)))
      (filter_orphans (h.unarmed hunarmed Phase.noConfusion))).post ?_
    rintro _ _ - rfl
    exact .inr (.inr h)

/-! ### The installation -/

theorem secure_whenever {condition : Bool} {p : Process Unit} {G : Unit → Disk → Prop} (hI : I d)
    (hp : condition = true → p.Secure (faulty F handler) I (Ends F G) d)
    (hskip : condition = false → G () d) :
    (whenever condition p).Secure (faulty F handler) I (Ends F G) d := by
  cases condition with
  | true => exact hp rfl
  | false => exact Secure.pure hI (hskip rfl)

@[simp] theorem withArtifacts_self (d : Disk) (base : Base) (paths : List String) :
    (d.withArtifacts base paths).artifacts base = paths :=
  by simp [Disk.withArtifacts]

theorem Untouched.remove (h : Untouched q prior d) (hpath : path ∉ prior.artifacts q.base) :
    Untouched q prior (d.withArtifacts q.base ((d.artifacts q.base).filter (· ≠ path))) := by
  refine ⟨h.pointers, h.patch, h.updates, fun other hother => ?_⟩
  rw [withArtifacts_self, List.mem_filter]
  refine ⟨h.artifacts other hother, decide_eq_true ?_⟩
  rintro rfl
  exact hpath hother

theorem Untouched.publish (h : Untouched q prior d) (path : String) :
    Untouched q prior (d.withArtifacts q.base (path :: d.artifacts q.base)) := by
  refine ⟨h.pointers, h.patch, h.updates, fun other hother => ?_⟩
  rw [withArtifacts_self]
  exact List.mem_cons_of_mem _ (h.artifacts other hother)

theorem Midway.remove (h : Midway q prior enabled on d) (hpath : path ∉ prior.artifacts q.base) :
    Midway q prior enabled on
      (d.withArtifacts q.base ((d.artifacts q.base).filter (· ≠ path))) := by
  refine ⟨h.updates, h.others, h.pointers, h.document, fun other hother => ?_⟩
  rw [withArtifacts_self, List.mem_filter]
  refine ⟨h.artifacts other hother, decide_eq_true ?_⟩
  rintro rfl
  exact hpath hother

theorem Untouched.arm (h : Untouched q prior d) : Midway q prior enabled on
    { d with updates := d.updates ++ [armedUpdate q prior] } where
  updates := congrArg (· ++ [armedUpdate q prior]) h.updates
  others base _ := congrFun h.pointers base
  pointers := .inl (congrFun h.pointers q.base)
  document := .inl (congrArg (fun patch => Option.getD patch Dict.empty) h.patch)
  artifacts := h.artifacts

include hchoices hchecked in
theorem secure_rollbackUpdates (h : Midway q prior enabled on d) (error : String) :
    (rollbackUpdates distribution q.updateId error).Secure (faulty F handler)
      (Crashed q prior enabled on) (Ends F fun _ t => Undone q prior t) d := by
  have hmono : ∀ t, Midway q prior enabled on t → Crashed q prior enabled on t := fun t ht =>
    .inr (.inl ⟨hchecked, ht⟩)
  refine step (Secure.read rfl (hmono d h)) ?_
  rintro _ d - ⟨rfl, rfl⟩
  have harmed : d.updates.filter (fun u => u.phase = .armed ∧ u.updateId = q.updateId) =
      [armedUpdate q prior] := by
    have hnone : prior.updates.filter
        (fun u => u.phase = .armed ∧ u.updateId = q.updateId) = [] :=
      List.filter_eq_nil_iff.mpr fun u hu => by simp [hchecked.fresh u hu]
    rw [h.updates, List.filter_append, hnone]
    simp [armedUpdate]
  dsimp only
  rw [harmed]
  refine step (secure_settleEach ((secure_rollback hchoices hchecked h error).within hmono)) ?_
  rintro _ d - ⟨change, rfl, hmid, rfl, hpointers, hdocument⟩
  have hfinish : Undone q prior
      { d with updates := Change.apply d.updates ⟨q.updateId, .rolledBack, error⟩ } :=
    ⟨⟨error, (congrArg (fun us => Change.apply us _) hmid.updates).trans
      (apply_armedUpdate hchecked.fresh rfl)⟩, hmid.others, hpointers, hdocument⟩
  refine (Secure.write rfl (hmono d hmid) (.inr (.inr (.inr hfinish)))).post ?_
  rintro _ _ - ⟨-, rfl⟩
  exact hfinish

include hchoices hchecked in
/-- **The failure path** undoes what is between the writes. -/
theorem secure_guarded {created : Bool} {p : Process Unit} {G : Unit → Disk → Prop}
    (hp : p.Secure (faulty True handler) (Midway q prior enabled on) (Ends True G) d) :
    (guarded distribution q true created path p).Secure (faulty True handler)
      (Crashed q prior enabled on)
      (Ends True fun a t => Midway q prior enabled on t ∧ G a t) d := by
  refine handle hp (fun t ht => .inr (.inl ⟨hchecked, ht⟩)) fun e t hmid => ?_
  refine step (secure_rollbackUpdates hchoices hchecked hmid "install failed") ?_
  intro _ t hcrashed hundone
  refine step (G := fun _ _ => True) (secure_whenever hcrashed (fun _ => ?_) fun _ =>
    trivial) fun _ t ht _ => ⟨ht, trivial⟩
  refine (Secure.write rfl hcrashed ?_).post fun _ _ _ _ => trivial
  exact .inr (.inr (.inr ⟨hundone.updates, hundone.others, hundone.pointers, hundone.document⟩))

theorem secure_publish (h : Untouched q prior d) (path : String) :
    (guarded distribution q false false path (.perform (.publish q.base path))).Secure
      (faulty True handler) (Crashed q prior enabled on)
      (Ends True fun _ t => Untouched q prior t ∧ path ∉ prior.artifacts q.base) d := by
  have hpublish : (Program.perform (.publish q.base path) : Process Unit).Secure
      (faulty True handler) (Untouched q prior)
      (Ends True fun _ _ => path ∉ prior.artifacts q.base) d := by
    refine attempt h ?_ (fun a hok => ?_) fun _ _ => trivial
    · rw [handler]
      split
      · exact h
      · exact h.publish path
    · rw [handler] at hok
      split at hok
      · cases hok
      · next hpath => exact fun hin => hpath (h.artifacts path hin)
  refine (handle hpublish (fun t ht => .inl ht) fun e t ht => ?_).post fun _ t _ hgood => hgood
  exact ⟨.inl ht, trivial⟩

include hchecked in
theorem secure_arm (h : Untouched q prior d) {created : Bool}
    (hpath : created = true → path ∉ prior.artifacts q.base) :
    (guarded distribution q false created path
      (.perform (.arm (armedUpdate q prior)))).Secure (faulty True handler)
      (Crashed q prior enabled on)
      (Ends True fun _ t => Midway q prior enabled on t ∧
        t = { d with updates := d.updates ++ [armedUpdate q prior] }) d := by
  -- a row that was armed although the operation failed is left to the next settlement
  have harm : (Program.perform (.arm (armedUpdate q prior)) : Process Unit).Secure
      (faulty True handler) (fun t => Untouched q prior t ∨ Midway q prior enabled on t)
      (Ends True fun _ t => Midway q prior enabled on t ∧
        t = { d with updates := d.updates ++ [armedUpdate q prior] }) d := by
    refine attempt (.inl h) ?_ (fun a hok => ?_) fun _ _ => trivial
    · rw [handler]
      split
      · exact .inl h
      · exact .inr h.arm
    · rw [handler] at hok ⊢
      split at hok
      · cases hok
      · next hfree =>
          rw [if_neg hfree]
          exact ⟨h.arm, rfl⟩
  have hcrashed : ∀ t, Untouched q prior t ∨ Midway q prior enabled on t →
      Crashed q prior enabled on t := fun t => Or.imp_right fun ht => .inl ⟨hchecked, ht⟩
  refine (handle harm hcrashed fun e t ht => ?_).post fun _ t _ hgood => hgood.2
  refine step (G := fun _ u => u = t) (Secure.pure (hcrashed t ht) rfl) ?_
  rintro _ _ - rfl
  refine step (G := fun _ _ => True) (secure_whenever (hcrashed _ ht) (fun hcreated => ?_)
    fun _ => trivial) fun _ t ht _ => ⟨ht, trivial⟩
  refine (Secure.write rfl (hcrashed _ ht) (hcrashed _ ?_)).post fun _ _ _ _ => trivial
  exact ht.imp (·.remove (hpath hcreated)) (·.remove (hpath hcreated))

include hchoices in
/-- **The first part of an installation** ends with the new pointers in place. -/
theorem secure_activate (hnamed : q.Named) (hloads : Loads prior.document)
    (hfresh : ∀ u ∈ prior.updates, u.updateId ≠ q.updateId) :
    (activatePluginVersion distribution q
      (enabledIn (rowsOf prior.document) q.pluginId)).Secure (faulty True handler)
      (Crashed q prior enabled on)
      (Ends True fun _ t => Checked q prior ∧ Midway q prior enabled on t ∧
        t.pointers q.base = some (.both (q.candidate (prior.artifacts q.base)))) prior := by
  have hprior : Untouched q prior prior := ⟨rfl, rfl, rfl, fun _ h => h⟩
  have hI : Crashed q prior enabled on prior := .inl hprior
  refine step (Secure.read rfl hI) ?_
  rintro _ _ - ⟨rfl, ht⟩
  rw [ht]
  refine step (Secure.read rfl hI) ?_
  rintro _ _ - ⟨rfl, ht⟩
  rw [ht]
  refine step (secure_require hI fun _ => trivial) ?_
  rintro _ _ - ⟨hvalid, ht⟩
  rw [ht]
  refine step (secure_require hI fun _ => trivial) ?_
  rintro _ _ - ⟨-, ht⟩
  rw [ht]
  have hchecked : Checked q prior := ⟨hnamed, hloads, hfresh, hvalid⟩
  refine step (G := fun _ t => Untouched q prior t ∧ ((!q.reuses (prior.artifacts q.base)) = true →
    q.candidate (prior.artifacts q.base) ∉ prior.artifacts q.base))
    (secure_whenever hI (fun _ => ?_) fun hreused => ?_) ?_
  · exact (secure_publish hprior _).post fun _ t _ hgood => ⟨hgood.1, fun _ => hgood.2⟩
  · exact ⟨hprior, fun hcreated => absurd hcreated (by simp [hreused])⟩
  rintro _ t - ⟨huntouched, hpath⟩
  refine step (secure_arm hchecked huntouched hpath) ?_
  rintro _ t - ⟨hmid, -⟩
  refine step (secure_guarded (G := fun _ u => u.pointers q.base =
    some (.both (q.candidate (prior.artifacts q.base)))) hchoices hchecked ?_) ?_
  · refine step (Secure.read rfl hmid) ?_
    rintro _ t - ⟨rfl, rfl⟩
    refine step (secure_require hmid fun _ => trivial) ?_
    rintro _ t - ⟨-, rfl⟩
    refine (Secure.write rfl hmid (hmid.savePointers (.inr rfl))).post ?_
    rintro _ t - ⟨-, rfl⟩
    exact Function.update_self ..
  · rintro _ t hcrashed ⟨hmid, hpointers⟩
    exact Secure.pure hcrashed ⟨hchecked, hmid, hpointers⟩

include hchecked in
theorem commit_armedUpdate (h : Midway q prior enabled on d) :
    handler _ (.commitUpdate q.updateId) d = (.ok (), { d with updates := prior.updates ++
      [{ armedUpdate q prior with phase := .committed }] }) := by
  have hkept : ∀ u ∈ prior.updates,
      ¬(u.updateId = q.updateId ∧ u.phase = .armed ∧ u.reloadTx = none) :=
    fun u hu hsame => hchecked.fresh u hu hsame.1
  have hfound : d.updates.filter (fun u => u.updateId = q.updateId ∧ u.phase = .armed ∧
      u.reloadTx = none) = [armedUpdate q prior] := by
    have hnone : prior.updates.filter (fun u => u.updateId = q.updateId ∧ u.phase = .armed ∧
        u.reloadTx = none) = [] :=
      List.filter_eq_nil_iff.mpr fun u hu => by simpa using hkept u hu
    rw [h.updates, List.filter_append, hnone]
    simp [armedUpdate]
  have hchanged : d.updates.map (fun u =>
      if u.updateId = q.updateId ∧ u.phase = .armed ∧ u.reloadTx = none then
        { u with phase := .committed } else u) =
      prior.updates ++ [{ armedUpdate q prior with phase := .committed }] := by
    have hsame : ∀ u ∈ prior.updates,
        (if u.updateId = q.updateId ∧ u.phase = .armed ∧ u.reloadTx = none then
          { u with phase := .committed } else u) = u :=
      fun u hu => if_neg (hkept u hu)
    rw [h.updates, List.map_append, List.map_singleton, List.map_congr_left hsame, List.map_id',
      if_pos ⟨rfl, rfl, rfl⟩]
  rw [handler, hfound, hchanged, if_pos List.length_singleton]

/-- **An installation can be cut short anywhere.** -/
theorem secure_installGitPlugin
    (hchoices : q.Named → Loads prior.document → Choices distribution q prior enabled on)
    (hunarmed : Unarmed prior) :
    (installGitPlugin distribution q).Secure (faulty True handler)
      (Crashed q prior enabled on) (Ends True fun _ _ => True) prior := by
  have hI : Crashed q prior enabled on prior := .inl ⟨rfl, rfl, rfl, fun _ h => h⟩
  refine step (secure_settle_none hI (filter_orphans hunarmed)) ?_
  rintro _ _ - ht
  rw [ht]
  refine step (Secure.read rfl hI) ?_
  rintro _ _ - ⟨rfl, ht⟩
  rw [ht]
  refine step (secure_require hI fun _ => trivial) ?_
  rintro _ _ - ⟨hfresh, ht⟩
  rw [ht]
  refine step (secure_require hI fun _ => trivial) ?_
  rintro _ _ - ⟨hmarketplace, ht⟩
  rw [ht]
  refine step (Secure.read rfl hI) ?_
  rintro _ _ - ⟨rfl, ht⟩
  rw [ht]
  rcases hrows : patchRows prior.patch with e | rows
  · exact ⟨hI, trivial⟩
  have hdocument := hrows
  rw [patchRows_getD] at hdocument
  obtain ⟨hloads, rfl⟩ := loadBundle_eq_ok.mp hdocument
  refine ofExcept_bind rfl (step (secure_require hI fun _ => trivial) ?_)
  rintro _ _ - ⟨hname, ht⟩
  rw [ht]
  have hnamed : q.Named := ⟨hname, hmarketplace⟩
  have hchoices := hchoices hnamed hloads
  refine step (secure_activate hchoices hnamed hloads hfresh) ?_
  rintro ⟨created, path, superseded⟩ t - ⟨hchecked, hmid, hpointers⟩
  refine step (secure_guarded (G := fun _ u => on ∧ u.document = enabled ∧
    u.pointers q.base = some (.both (q.candidate (prior.artifacts q.base))))
    hchoices hchecked ?_) ?_
  · by_cases hon : on
    · refine (secure_setPluginChoice (hmid.write hchoices hon) hmid
        (hmid.savePatch (.inr ⟨hon, rfl⟩))).post ?_
      rintro _ _ - rfl
      exact ⟨hon, rfl, hpointers⟩
    · obtain ⟨heq, -, ⟨e, herror⟩, -⟩ := hchoices.off hon
      have hdocument : t.document = prior.document := by
        rcases hmid.document with h | h
        · exact h
        · exact absurd h.1 hon
      refine step (Secure.read rfl hmid) ?_
      rintro _ _ - ⟨rfl, ht⟩
      rw [ht, withChoice_getD, show t.patch.getD Dict.empty = prior.document from hdocument, herror]
      exact ⟨hmid, trivial⟩
  rintro _ t - ⟨hmid, hon, hdocument, hpointers⟩
  have hinstalled : Installed q prior enabled on { t with updates := prior.updates ++
      [{ armedUpdate q prior with phase := .committed }] } :=
    ⟨hchecked, hon, ⟨_, rfl⟩, hmid.others, hpointers, hdocument⟩
  refine step (Secure.write (commit_armedUpdate hchecked hmid) (.inr (.inl ⟨hchecked, hmid⟩))
    (.inr (.inr (.inl hinstalled)))) ?_
  rintro _ t hcrashed ⟨-, rfl⟩
  cases superseded with
  | none => exact Secure.pure hcrashed trivial
  | some path =>
      refine (Secure.write rfl hcrashed (.inr (.inr (.inl ?_)))).post fun _ _ _ _ => trivial
      exact ⟨hchecked, hon, ⟨_, rfl⟩, hmid.others, hpointers, hdocument⟩

end Crashes

/-! ### All or nothing -/

/-- What crashes leave of an installation: it was cut short, and so was every settlement after
it. -/
inductive Interrupted (q : Request) (prior : Disk) : Disk → Prop where
  | install {d : Disk} :
      (installGitPlugin distribution q).Leaves (Program.faulty True handler) prior d →
      Interrupted q prior d
  | settle {d d' : Disk} : Interrupted q prior d →
      (settleOrphanedInstalls distribution).Leaves (Program.faulty True handler) d d' →
      Interrupted q prior d'

/-- The candidate is installed, enabled and committed. -/
def Complete (q : Request) (prior d : Disk) : Prop :=
  d.pointers q.base = some (.both (q.candidate (prior.artifacts q.base))) ∧
    (d.choice q.pluginId).map (fun row => row.disabled) = some false ∧
    ∃ u, d.updates = prior.updates ++ [u] ∧ u.updateId = q.updateId ∧ u.phase = .committed

/-- The pointers and the choice are those of before, and an update that was armed is rolled
back. -/
def Restored (q : Request) (prior d : Disk) : Prop :=
  d.pointers q.base = prior.pointers q.base ∧ d.choice q.pluginId = prior.choice q.pluginId ∧
    (d.updates = prior.updates ∨ ∃ u, d.updates = prior.updates ++ [u] ∧
      u.updateId = q.updateId ∧ u.phase = .rolledBack)

/-- All of an installation, or nothing of it; what belongs to other plugins is untouched, and no
row is left to settle. -/
structure AllOrNothing (q : Request) (prior d : Disk) : Prop where
  outcome : Complete q prior d ∨ Restored q prior d
  pointers : ∀ base, base ≠ q.base → d.pointers base = prior.pointers base
  choices : ∀ pluginId, pluginId ≠ q.pluginId → d.choice pluginId = prior.choice pluginId
  unarmed : Unarmed d

section Outcomes

variable {distribution} {q : Request} {prior : Disk} {enabled : Document} {on : Prop} {d : Disk}

theorem Installed.allOrNothing (h : Installed q prior enabled on d)
    (hchoices : q.Named → Loads prior.document → Choices distribution q prior enabled on)
    (hunarmed : Unarmed prior) : AllOrNothing q prior d := by
  obtain ⟨hchecked, hon, hsettled⟩ := h
  have hchoices := hchoices hchecked.named hchecked.loads
  obtain ⟨error, hupdates⟩ := hsettled.updates
  refine ⟨.inl ⟨hsettled.pointers, ?_, _, hupdates, rfl, rfl⟩, hsettled.others, ?_,
    hsettled.unarmed hunarmed Phase.noConfusion⟩
  · have hchosen := hchoices.chosen hon
    rw [enabledIn, Option.map_eq_some_iff] at hchosen
    obtain ⟨row, hrow, hdisabled⟩ := hchosen
    rw [Disk.choice, hsettled.document, hrow]
    simpa using hdisabled
  · intro pluginId hother
    rw [Disk.choice, hsettled.document]
    exact hchoices.others pluginId hother

theorem Undone.allOrNothing (h : Undone q prior d) (hunarmed : Unarmed prior) :
    AllOrNothing q prior d := by
  obtain ⟨error, hupdates⟩ := h.updates
  have hchoice : ∀ pluginId, d.choice pluginId = prior.choice pluginId := by
    intro pluginId
    rw [Disk.choice, h.document]
    rfl
  exact ⟨.inr ⟨h.pointers, hchoice _, .inr ⟨_, hupdates, rfl, rfl⟩⟩, h.others,
    fun pluginId _ => hchoice pluginId, h.unarmed hunarmed Phase.noConfusion⟩

theorem Untouched.allOrNothing (h : Untouched q prior d) (hunarmed : Unarmed prior) :
    AllOrNothing q prior d := by
  have hchoice : ∀ pluginId, d.choice pluginId = prior.choice pluginId := by
    intro pluginId
    rw [Disk.choice, Disk.document, h.patch]
    rfl
  refine ⟨.inr ⟨congrFun h.pointers _, hchoice _, .inl h.updates⟩, fun base _ =>
    congrFun h.pointers base, fun pluginId _ => hchoice pluginId, ?_⟩
  rw [Unarmed, h.updates]
  exact hunarmed

theorem exists_choices (hwritable : Writable distribution q prior) : ∃ enabled on,
    q.Named → Loads prior.document → Choices distribution q prior enabled on := by
  by_cases h : q.Named ∧ Loads prior.document
  · obtain ⟨enabled, on, hchoices⟩ := choices_of_writable h.1 h.2 hwritable
    exact ⟨enabled, on, fun _ _ => hchoices⟩
  · exact ⟨prior.document, True, fun hnamed hloads => absurd ⟨hnamed, hloads⟩ h⟩

/-- **Whatever crashes leave can be settled.** -/
theorem Interrupted.crashed
    (hchoices : q.Named → Loads prior.document → Choices distribution q prior enabled on)
    (hunarmed : Unarmed prior) (h : Interrupted distribution q prior d) :
    Crashed q prior enabled on d := by
  induction h with
  | install hleaves => exact (secure_installGitPlugin hchoices hunarmed).cut hleaves
  | settle _ hleaves ih =>
      exact (secure_settleOrphanedInstalls (F := True) hchoices hunarmed ih).cut hleaves

end Outcomes

/-- **Plugin installation is all or nothing across crashes.** From a state without an armed
update, where the plugin's choice can be written without taking another's row, a settlement that
is not interrupted returns, wherever the installation and the settlements before it were cut
short. -/
theorem settles {q : Request} {prior : Disk} (hunarmed : Unarmed prior)
    (hwritable : Writable distribution q prior) {d : Disk}
    (h : Interrupted distribution q prior d) :
    ∃ changes d', (settleOrphanedInstalls distribution).run handler d = (.ok changes, d') ∧
      AllOrNothing q prior d' := by
  obtain ⟨enabled, on, hchoices⟩ := exists_choices hwritable
  have hsecure := secure_settleOrphanedInstalls (F := False) hchoices hunarmed
    (h.crashed hchoices hunarmed)
  have hrun := hsecure.run.2
  rcases hout : (settleOrphanedInstalls distribution).run handler d with ⟨r, d'⟩
  rw [hout] at hrun
  cases r with
  | error e => exact hrun.elim
  | ok changes =>
      refine ⟨changes, d', rfl, ?_⟩
      rcases hrun with hrun | hrun | hrun
      · exact hrun.allOrNothing hunarmed
      · exact hrun.allOrNothing hchoices hunarmed
      · exact hrun.allOrNothing hunarmed

/-! ### Samples -/

/-- An installation of the plugin `demo@market`. -/
def sampleRequest : Request :=
  ⟨"update", "demo", "market", ".artifacts/1-rev", ".artifacts/1-rev-runtime", false, false⟩

/-- A workspace whose patch file has these rows. -/
def sampleDisk (document : Document) : Disk :=
  ⟨fun _ => [], fun _ => none, some document, []⟩

/-- A choice of `other` under an id that is the identity of the other plugin. -/
def sampleDocument : Document :=
  Dict.empty.set "demo@market" ⟨"other", [], false⟩

/-- The workspace after the installation. -/
def sampleInstalled (document : Document) : Disk :=
  ((installGitPlugin none sampleRequest).run handler (sampleDisk document)).2

theorem settles_sampleDisk :
    ∃ changes d', (settleOrphanedInstalls none).run handler (sampleInstalled .empty) =
      (.ok changes, d') ∧ AllOrNothing sampleRequest (sampleDisk .empty) d' :=
  settles none (fun _ hu => absurd hu List.not_mem_nil) (.inr (.inl ⟨[], rfl, .inr rfl⟩))
    (.install (Program.leaves_run True handler _ _))

/-- **The choice of another plugin is lost**: its row has the identity of the new plugin as its
id, and is overwritten. -/
theorem other_choice_lost :
    Unarmed (sampleDisk sampleDocument) ∧ Loads sampleDocument ∧
      ∃ d, Interrupted none sampleRequest (sampleDisk sampleDocument) d ∧
        ¬∃ changes d', (settleOrphanedInstalls none).run handler d = (.ok changes, d') ∧
          AllOrNothing sampleRequest (sampleDisk sampleDocument) d' := by
  have hloads : Loads sampleDocument :=
    (loadBundle_eq_ok.mp (show loadBundle sampleDocument = .ok (rowsOf sampleDocument) from
      by decide +kernel)).1
  refine ⟨fun _ hu => absurd hu List.not_mem_nil, hloads, sampleInstalled sampleDocument,
    .install (Program.leaves_run True handler _ _), ?_⟩
  rintro ⟨changes, d', hrun, hall⟩
  have hkept := hall.choices "other" (by decide)
  have hlost : ((settleOrphanedInstalls none).run handler
      (sampleInstalled sampleDocument)).2.choice "other" = none := by decide +kernel
  have hbefore : (sampleDisk sampleDocument).choice "other" ≠ none := by decide +kernel
  rw [hrun] at hlost
  exact hbefore (hkept.symm.trans hlost)

end Kirakira.Plugins
