import Kirakira.EventMail

/-!
# Content of the Event Mail

The content calls of `plugins/eventmail/store.py`. A source submits items in batches; a turn
claims a batch of them as one selection, of which only the first item, the driver, records
the claim in its own row; the selection is then released, ended, or made ready with the
members that were chosen, and settled.

* A call is one transaction: where it raises, nothing is changed.
* The hashes of `hashlib` and `datetime.fromisoformat` are arguments, as are the clock and
  what `secrets.token_hex` draws. A `not_before` that is a datetime stands as its
  `isoformat` text.
* Rows are read in the order of the tables, which is that of the statements' `ORDER BY`
  where it matters.
-/

namespace Kirakira.EventMail

/-- What the store takes from the standard library. -/
structure Stdlib where
  /-- The first digits of the `sha256` of a transition's detail. -/
  digest : Detail → String
  /-- `hashlib.sha256(text).hexdigest()`. -/
  sha256 : String → String
  /-- `_batch_fingerprint`. -/
  fingerprint : List NormalizedItem → String
  /-- `datetime.fromisoformat`. -/
  fromIso : String → Except PyError Datetime

/-! ### Keys and references -/

/-- The mail id of an item. -/
def ItemKey.mailId (key : ItemKey) : String :=
  EventMail.mailId .content key.sourceId key.itemId key.revision

/-- A reference to an item at a version. -/
structure ContentRef where
  key : ItemKey
  stateVersion : ℕ
  deriving DecidableEq

/-- `ref.get("state_version")`. -/
def contentVersion (ref : Json) : Except PyError ℕ :=
  match ref.get? "state_version" with
  | some (.int n) =>
      if 0 < n then .ok n.toNat else valueError "Content item_ref state_version 必须是正整数"
  | _ => valueError "Content item_ref state_version 必须是正整数"

/-- The three identities of a reference. -/
def itemKey (ref : Json) : Except PyError ItemKey := do
  let source ← identity "source_id" (ref.get? "source_id")
  let item ← identity "item_id" (ref.get? "item_id")
  let revision ← identity "revision" (ref.get? "revision")
  return ⟨source, item, revision⟩

/-- `_normalize_ref`. -/
def normalizeRef (ref : Json) : Except PyError ContentRef :=
  if isMapping ref = false then valueError "Content item_ref 必须是 Mapping"
  else do
    let stateVersion ← contentVersion ref
    let key ← itemKey ref
    return ⟨key, stateVersion⟩

/-! ### Items of a batch -/

/-- `_IMMEDIATE_NOT_BEFORE`. -/
def immediateNotBefore : String := "1970-01-01T00:00:00+00:00"

/-- The `not_before` of a submitted item. -/
def itemNotBefore (lib : Stdlib) (item : Json) : Except PyError String :=
  match item.get? "not_before" with
  | none | some .null => .ok immediateNotBefore
  | some (.str text) => do
      let value ← lib.fromIso text
      awareUtc value
  | some _ => valueError "not_before 必须是 datetime 或 ISO 字符串"

/-- The `payload_json` of a submitted item. -/
def itemPayload (item : Json) : Except PyError String :=
  match item.get? "payload" with
  | some (.obj fields) => .ok (Json.obj fields).sortKeys.dumps
  | _ => valueError "Content payload 必须是 Mapping"

/-- The `requires_ack` of a submitted item. -/
def itemRequiresAck (item : Json) : Except PyError Bool :=
  match item.get? "requires_ack" with
  | none => .ok true
  | some (.bool b) => .ok b
  | some _ => valueError "requires_ack 必须是 bool"

/-- `_normalize_item`. -/
def normalizeItem (lib : Stdlib) (item : Json) : Except PyError NormalizedItem :=
  if isMapping item = false then valueError "Content item 必须是 Mapping"
  else do
    let itemId ← identity "item_id" (item.get? "item_id")
    let revision ← identity "revision" (item.get? "revision")
    let payloadJson ← itemPayload item
    let notBefore ← itemNotBefore lib item
    let requiresAck ← itemRequiresAck item
    return ⟨itemId, revision, payloadJson, notBefore, requiresAck⟩

/-! ### Rows -/

/-- `status IN ('pending', 'deferred')`. -/
def ItemStatus.isWaiting : ItemStatus → Bool
  | .pending | .deferred => true
  | _ => false

/-- `status IN ('selected', 'ready_for_delivery')`. -/
def ItemStatus.isDriving : ItemStatus → Bool
  | .selected | .readyForDelivery => true
  | _ => false

/-- The row of a key. -/
def Store.item? (s : Store) (key : ItemKey) : Option Item :=
  s.items.rows.find? fun i => i.key = key

/-- The row of a token. -/
def Store.selection? (s : Store) (token : String) : Option Selection :=
  s.contentSelections.rows.find? fun c => c.token = token

/-- `content_selection_members WHERE selection_token = ? ORDER BY position`. -/
def Store.membersOf (s : Store) (token : String) : List Member :=
  (s.contentSelectionMembers.rows.filter fun m => m.token = token).insertionSort
    fun m m' => m.position ≤ m'.position

/-- Whether a member of a selection is claimed by it. -/
def Member.isClaimedBy (m : Member) (c : Selection) : Bool :=
  m.token = c.token && (c.status = .selected ||
    (c.status = .readyForDelivery && m.selectedForDelivery))

/-- Whether an item is claimed: the `EXISTS` of `select_batch`. -/
def Store.isClaimed (s : Store) (key : ItemKey) : Bool :=
  s.contentSelectionMembers.rows.any fun m =>
    m.item = key && s.contentSelections.rows.any fun c => m.isClaimedBy c

/-- A statement on `items`. -/
def Store.writeItems (rows : List Item) (s : Store) : Except PyError Store := do
  let items ← write itemIndexes rows
  return { s with items := items }

/-- A statement on `content_selections`. -/
def Store.writeSelections (rows : List Selection) (s : Store) : Except PyError Store := do
  let contentSelections ← write selectionIndexes rows
  return { s with contentSelections := contentSelections }

/-- A statement on `content_selection_members`. -/
def Store.writeMembers (rows : List Member) (s : Store) : Except PyError Store := do
  let contentSelectionMembers ← write memberIndexes rows
  return { s with contentSelectionMembers := contentSelectionMembers }

/-- `_append_transition` for an item. -/
def Store.logContent (lib : Stdlib) (now : String) (key : ItemKey) (action : Action)
    (detail : Detail) (s : Store) : Store :=
  s.appendTransition lib.digest now key.mailId .content action detail

/-- `_append_transition` for several items, one after the other. -/
def Store.logEach (lib : Stdlib) (now : String) (action : Action) (detail : Detail)
    (keys : List ItemKey) (s : Store) : Store :=
  keys.foldl (fun s key => s.logContent lib now key action detail) s

/-! ### The state of the content -/

/-- The earliest `not_before` of the waiting items. -/
def earliestWaiting (items : List Item) : Option String :=
  ((items.filter fun i => i.status.isWaiting).map Item.notBefore).foldl
    (fun best t => some (best.elim t (min t))) none

/-- `_recompute_wake`. -/
def Store.recomputeWake (s : Store) : Store :=
  let earliest := earliestWaiting s.items.rows
  { s with contentState := { s.contentState with
      wakeNeeded := earliest.isSome
      earliestNotBefore := earliest } }

/-- `UPDATE content_state SET state_version = state_version + 1`. -/
def Store.bumpVersion (s : Store) : Store :=
  { s with contentState := { s.contentState with
      stateVersion := s.contentState.stateVersion + 1 } }

/-! ### Projections in the log -/

/-- The selections an item is a member of, with their members. -/
def Store.selectionsOf (s : Store) (key : ItemKey) : List (Selection × List Member) :=
  let selections := s.contentSelections.rows.filter fun c =>
    s.contentSelectionMembers.rows.any fun m => m.token = c.token && m.item = key
  (selections.insertionSort fun c c' =>
      c.createdAt < c'.createdAt ∨ (c.createdAt = c'.createdAt ∧ c.token ≤ c'.token)).map
    fun c => (c, s.membersOf c.token)

/-- The projected fact of an item. -/
def Store.fact (s : Store) (i : Item) : Detail :=
  .projected i s.contentState (s.selectionsOf i.key)

/-- `_append_content_projections` for one mail. -/
def Store.appendProjection (lib : Stdlib) (now : String) (id : String) (s : Store) :
    Except PyError Store :=
  match s.envelope? id with
  | none => runtimeError ("Content projection 缺少 envelope: " ++ id)
  | some e =>
      if e.kind ≠ .content then runtimeError ("Content projection 缺少 envelope: " ++ id)
      else
        match s.item? ⟨e.sourceId, e.itemId, e.revision⟩ with
        | none => runtimeError ("Content projection 缺少 item: " ++ id)
        | some i => .ok (s.appendTransition lib.digest now id .content .projected (s.fact i))

/-- `_append_content_projections`, of mail ids that are each there once. -/
def Store.appendProjections (lib : Stdlib) (now : String) (keys : List ItemKey) (s : Store) :
    Except PyError Store :=
  keys.foldlM (fun s key => s.appendProjection lib now key.mailId) s

/-! ### Submissions -/

/-- The new row of a submitted item. -/
def NormalizedItem.row (source now : String) (seq : ℕ) (item : NormalizedItem) : Item where
  key := ⟨source, item.itemId, item.revision⟩
  payloadJson := item.payloadJson
  snapshotSeq := seq
  status := .pending
  notBefore := item.notBefore
  requiresAck := item.requiresAck
  itemStateVersion := 1
  selectionToken := none
  selectedTurn := none
  settlementRef := none
  createdAt := now
  updatedAt := now

/-- `_assert_same_revision`. -/
def NormalizedItem.sameRevision (item : NormalizedItem) (row : Item) : Bool :=
  row.payloadJson = item.payloadJson
    && (1 < row.itemStateVersion || row.notBefore = item.notBefore)
    && row.requiresAck = item.requiresAck

/-- The statements of `_append_items` for an unseen item. -/
def Store.insertItem (lib : Stdlib) (now source : String) (seq : ℕ) (item : NormalizedItem)
    (s : Store) : Except PyError Store := do
  let row := item.row source now seq
  let s ← s.writeItems (s.items.rows ++ [row])
  let (inserted, s) ← s.appendEnvelope
    ⟨row.key.mailId, .content, source, item.itemId, item.revision, item.payloadJson, now,
      some item.notBefore, none, now⟩
  if inserted = false then runtimeError "新 Content projection 缺少新 EventMail envelope"
  else return s.logContent lib now row.key .received .empty

/-- The loop of `_append_items`: the inserted and the duplicate items. -/
def Store.appendItems (lib : Stdlib) (now source : String) :
    List NormalizedItem → ℕ → Store → Except PyError (List ItemKey × List ItemKey × Store)
  | [], _, s => .ok ([], [], s)
  | item :: rest, seq, s =>
      match s.item? ⟨source, item.itemId, item.revision⟩ with
      | some row =>
          if item.sameRevision row then do
            let (inserted, duplicates, s) ← s.appendItems lib now source rest seq
            return (inserted, row.key :: duplicates, s)
          else runtimeError ("Content revision identity conflict: " ++ source ++ "/" ++
            item.itemId ++ "/" ++ item.revision)
      | none => do
          let s ← s.insertItem lib now source (seq + 1) item
          let (inserted, duplicates, s) ← s.appendItems lib now source rest (seq + 1)
          return (⟨source, item.itemId, item.revision⟩ :: inserted, duplicates, s)

/-- The `UPDATE` of `content_state` after `_append_items`. -/
def Store.advance (inserted : ℕ) (s : Store) : Store :=
  if inserted = 0 then s
  else { s with contentState := { s.contentState with
      nextSeq := s.contentState.nextSeq + inserted
      stateVersion := s.contentState.stateVersion + 1 } }

/-- `EventMailStore.submit`. -/
def Store.submit (lib : Stdlib) (now : String) (sourceId batchId : Json) (items : List Json)
    (s : Store) : Except PyError (SubmissionReceipt × Store) := do
  let source ← identity "source_id" (some sourceId)
  let batch ← identity "batch_id" (some batchId)
  let normalized ← items.mapM (normalizeItem lib)
  let fingerprint := lib.fingerprint normalized
  match s.submissions.rows.find? fun b => (b.sourceId, b.batchId) = (source, batch) with
  | some row =>
      if row.fingerprint ≠ fingerprint then
        runtimeError ("Content batch identity conflict: " ++ source ++ "/" ++ batch)
      else .ok (row.receipt, s)
  | none => do
      let (inserted, duplicates, s) ←
        s.appendItems lib now source normalized s.contentState.nextSeq
      let s ← ((s.advance inserted.length).recomputeWake).appendProjections lib now inserted
      let receipt : SubmissionReceipt := ⟨source, batch, inserted, duplicates,
        s.contentState.nextSeq, s.contentState.stateVersion, s.contentState.wakeNeeded⟩
      let submissions ← write submissionIndexes
        (s.submissions.rows ++ [⟨source, batch, fingerprint, receipt, now⟩])
      return (receipt, { s with submissions := submissions })

/-! ### Expiries -/

/-- The condition of the `UPDATE` of `expire`. -/
def ContentRef.expires (ref : ContentRef) (i : Item) : Bool :=
  i.key = ref.key && i.itemStateVersion = ref.stateVersion && i.status.isWaiting

/-- The row a change of the status leaves. -/
def Item.become (status : ItemStatus) (now : String) (i : Item) : Item :=
  { i with status := status, itemStateVersion := i.itemStateVersion + 1, updatedAt := now }

/-- The loop of `expire`: the expired and the stale references. -/
def Store.expireRefs (lib : Stdlib) (now instant : String) :
    List ContentRef → Store → Except PyError (List ContentRef × List ContentRef × Store)
  | [], s => .ok ([], [], s)
  | ref :: rest, s => do
      let t ← s.writeItems (Table.update ref.expires (Item.become .expired instant) s.items.rows)
      if s.items.rows.countP ref.expires ≠ 1 then do
        let (expired, stale, t) ← t.expireRefs lib now instant rest
        return (expired, ref :: stale, t)
      else do
        let t := t.logContent lib now ref.key .expired (.expired instant)
        let (expired, stale, t) ← t.expireRefs lib now instant rest
        return (ref :: expired, stale, t)

/-- The references of a call: one at least, `limit` at most, none twice. -/
def checkRefs (refs : List ContentRef) (limit : ℕ) (size repeated : String) :
    Except PyError Unit :=
  if refs = [] ∨ limit < refs.length then valueError size
  else if ¬(refs.map ContentRef.key).Nodup then valueError repeated
  else .ok ()

/-- The answer of `expire`. -/
structure ExpireResult where
  expired : List ContentRef
  stale : List ContentRef
  state : ContentState

/-- `EventMailStore.expire`. -/
def Store.expire (lib : Stdlib) (now : String) (itemRefs : List Json) (instant : Datetime)
    (s : Store) : Except PyError (ExpireResult × Store) := do
  let refs ← itemRefs.mapM normalizeRef
  let _ ← checkRefs refs 256 "Content expire 必须包含 1..256 个候选"
    "Content expire 不允许重复候选"
  let instant ← awareUtc instant
  let (expired, stale, s) ← s.expireRefs lib now instant refs
  if expired = [] then .ok (⟨expired, stale, s.contentState⟩, s)
  else do
    let s ← (s.bumpVersion.recomputeWake).appendProjections lib now
      (expired.map ContentRef.key)
    return (⟨expired, stale, s.contentState⟩, s)

/-! ### Selections -/

/-- The answer of `select_batch`. -/
structure SelectResult where
  selected : Bool
  reason : Option String
  selectionToken : Option String
  acceptedTurn : Option AcceptedTurn
  state : ContentState

/-- The condition under which `select_batch` takes a row as a candidate. -/
def Store.isCandidate (s : Store) (ref : ContentRef) (snapshotSeq : ℕ) (instant : String)
    (i : Item) : Bool :=
  i.key = ref.key && i.snapshotSeq ≤ snapshotSeq && i.itemStateVersion = ref.stateVersion &&
    i.status.isWaiting && i.notBefore ≤ instant && !s.isClaimed i.key

/-- The candidates of a call, or nothing when one has changed. -/
def Store.candidates (s : Store) (refs : List ContentRef) (snapshotSeq : ℕ) (instant : String) :
    Option (List Item) :=
  refs.mapM fun ref => s.items.rows.find? (s.isCandidate ref snapshotSeq instant)

/-- The condition of the `UPDATE` of `select_batch`. -/
def Item.isDriver (driver : Item) (snapshotSeq : ℕ) (instant : String) (i : Item) : Bool :=
  i.key = driver.key && i.snapshotSeq ≤ snapshotSeq &&
    i.itemStateVersion = driver.itemStateVersion && i.status.isWaiting && i.notBefore ≤ instant

/-- The row the `UPDATE` of `select_batch` leaves. -/
def Item.drive (token : String) (turn : AcceptedTurn) (now : String) (i : Item) : Item :=
  { i with
    status := .selected
    selectionToken := some token
    selectedTurn := some turn
    itemStateVersion := i.itemStateVersion + 1
    updatedAt := now }

/-- The members of a new selection. -/
def newMembers (token : String) (keys : List ItemKey) : List Member :=
  keys.zipIdx.map fun (key, n) => ⟨token, n + 1, key, false, none⟩

/-- The statements of `select_batch` once the driver is claimed. -/
def Store.openSelection (lib : Stdlib) (now token : String) (turn : AcceptedTurn)
    (snapshotSeq : ℕ) (driver : ItemKey) (keys : List ItemKey) (s : Store) :
    Except PyError Store := do
  let s ← s.writeSelections (s.contentSelections.rows ++
    [⟨token, turn, snapshotSeq, .selected, driver, "items_v1", none, now, now⟩])
  let s ← s.writeMembers (s.contentSelectionMembers.rows ++ newMembers token keys)
  return (s.logEach lib now .selected (.claim token turn) keys).bumpVersion

/-- The transaction of `select_batch` for candidates that are all there. -/
def Store.claimBatch (lib : Stdlib) (now token : String) (turn : AcceptedTurn)
    (snapshotSeq : ℕ) (instant : String) (driver : Item) (keys : List ItemKey) (s : Store) :
    Except PyError (SelectResult × Store) := do
  let hit := driver.isDriver snapshotSeq instant
  let t ← s.writeItems (Table.update hit (Item.drive token turn now) s.items.rows)
  if s.items.rows.countP hit ≠ 1 then
    let t := t.recomputeWake
    return (⟨false, none, none, none, t.contentState⟩, t)
  else do
    let t ← t.openSelection lib now token turn snapshotSeq driver.key keys
    let t ← t.recomputeWake.appendProjections lib now keys
    return (⟨true, none, some token, some turn, t.contentState⟩, t)

/-- `EventMailStore.select_batch`; `hex` is what `secrets.token_hex(16)` draws. -/
def Store.selectBatch (lib : Stdlib) (now hex : String) (itemRefs : List Json) (snapshotSeq : ℤ)
    (acceptedTurn : Json) (instant : Datetime) (s : Store) :
    Except PyError (SelectResult × Store) := do
  let refs ← itemRefs.mapM normalizeRef
  let _ ← checkRefs refs 100 "Content batch selection 必须包含 1..100 个候选"
    "Content batch selection 不允许重复候选"
  if snapshotSeq < 0 then valueError "snapshot_seq 必须是非负整数"
  else do
    let turn ← normalizeAcceptedTurn acceptedTurn
    let instant ← awareUtc instant
    if s.contentSelections.rows.any fun c => c.acceptedTurn = turn then
      .ok (⟨false, some "turn_already_selected", none, none, s.contentState⟩, s)
    else
      match s.candidates refs snapshotSeq.toNat instant with
      | none | some [] =>
          .ok (⟨false, some "batch_candidate_changed", none, none, s.contentState⟩, s)
      | some (driver :: rest) =>
          s.claimBatch lib now ("content-selection:" ++ hex) turn snapshotSeq.toNat instant driver
            ((driver :: rest).map Item.key)

/-! ### Endings of selections -/

/-- The answer of `transition` and `settle_delivery`. -/
inductive TransitionResult where
  /-- `{"changed": False, "reason": …}` -/
  | unchanged (reason : String)
  /-- `{"changed": True, …}` -/
  | changed (status : String) (state : ContentState)
  /-- `{"settled": False, "reason": …}` -/
  | unsettled (reason : String)
  /-- `{"settled": True, …}` -/
  | settled (duplicate : Bool) (status : SelectionStatus) (receipt : String)
  deriving DecidableEq

/-- The text of the status of a selection. -/
def SelectionStatus.text : SelectionStatus → String
  | .selected => "selected"
  | .readyForDelivery => "ready_for_delivery"
  | .released => "released"
  | .deferred => "deferred"
  | .awaitChange => "await_change"
  | .invalidated => "invalidated"
  | .abandoned => "abandoned"
  | .failed => "failed"
  | .expired => "expired"
  | .delivered => "delivered"
  | .settled => "settled"

/-- The actions of `transition`. -/
inductive ContentAction where
  | readyForDelivery
  | release
  | defer
  | awaitChange
  | invalidated
  | abandoned
  | failed
  | expired
  | delivered
  deriving DecidableEq, Repr

/-- The action a text names. -/
def contentActionOf (action : String) : Except PyError ContentAction :=
  if action = "ready_for_delivery" then .ok .readyForDelivery
  else if action = "release" then .ok .release
  else if action = "defer" then .ok .defer
  else if action = "await_change" then .ok .awaitChange
  else if action = "invalidated" then .ok .invalidated
  else if action = "abandoned" then .ok .abandoned
  else if action = "failed" then .ok .failed
  else if action = "expired" then .ok .expired
  else if action = "delivered" then .ok .delivered
  else valueError ("未知 Content transition: " ++ action)

/-- The action in the log. -/
def ContentAction.logged : ContentAction → Action
  | .readyForDelivery => .readyForDelivery
  | .release => .release
  | .defer => .defer
  | .awaitChange => .awaitChange
  | .invalidated => .invalidated
  | .abandoned => .abandoned
  | .failed => .failed
  | .expired => .expired
  | .delivered => .delivered

/-- The status the selection gets. -/
def ContentAction.status : ContentAction → SelectionStatus
  | .readyForDelivery => .readyForDelivery
  | .release => .released
  | .defer => .deferred
  | .awaitChange => .awaitChange
  | .invalidated => .invalidated
  | .abandoned => .abandoned
  | .failed => .failed
  | .expired => .expired
  | .delivered => .delivered

/-- The status the driver gets where the action ends it. -/
def ContentAction.itemStatus : ContentAction → ItemStatus
  | .readyForDelivery => .readyForDelivery
  | .release => .pending
  | .defer => .deferred
  | .awaitChange => .awaitChange
  | .invalidated => .invalidated
  | .abandoned => .abandoned
  | .failed => .failed
  | .expired => .expired
  | .delivered => .delivered

/-- `allowed_statuses`. -/
def ContentAction.allows (action : ContentAction) (status : SelectionStatus) : Bool :=
  status = .selected ||
    (status = .readyForDelivery && (action = .abandoned || action = .failed))

/-- The checks `transition` makes on its arguments, in their order. -/
def checkTransition (action : ContentAction) (notBefore settlementRef selectedRefs : Bool) :
    Except PyError Unit :=
  if action = .defer ∧ notBefore = false then valueError "defer 必须提供 not_before"
  else if action = .delivered ∧ settlementRef = false then
    valueError "delivered 必须提供 settlement_ref"
  else if action ≠ .delivered ∧ settlementRef = true then
    valueError "只有 delivered transition 可以提供 settlement_ref"
  else if action ≠ .readyForDelivery ∧ selectedRefs = true then
    valueError "只有 ready_for_delivery 可以提供 selected_refs"
  else .ok ()

/-- The members a message represents: the driver unless others are named. -/
def chosenKeys (driver : ItemKey) (selectedRefs : Option (List Json)) :
    Except PyError (List ItemKey) :=
  match selectedRefs with
  | none => .ok [driver]
  | some refs => refs.mapM itemKey

/-- `_select_delivery_members`. -/
def Store.selectDeliveryMembers (token : String) (driver : ItemKey)
    (selectedRefs : Option (List Json)) (s : Store) : Except PyError (List ItemKey × Store) := do
  let chosen ← chosenKeys driver selectedRefs
  if chosen = [] ∨ 5 < chosen.length ∨ ¬chosen.Nodup then
    valueError "Content share 必须引用 1..5 个不重复候选"
  else if ¬∀ key ∈ chosen, ∃ m ∈ s.contentSelectionMembers.rows, m.token = token ∧ m.item = key then
    valueError "Content share 引用了批次外候选"
  else do
    let s ← s.writeMembers (Table.update (fun m => m.token = token && chosen.contains m.item)
      (fun m => { m with selectedForDelivery := true }) s.contentSelectionMembers.rows)
    return (chosen, s)

/-- The row `_release_driver` leaves. -/
def Item.release (now : String) (i : Item) : Item :=
  { i with
    status := .pending
    selectionToken := none
    selectedTurn := none
    itemStateVersion := i.itemStateVersion + 1
    updatedAt := now }

/-- `_release_driver`. -/
def Store.releaseDriver (now token : String) (s : Store) : Except PyError Store :=
  s.writeItems (Table.update (fun i => i.selectionToken = some token && i.status.isDriving)
    (Item.release now) s.items.rows)

/-- `_delivery_member_rows`: the items of the members that are chosen. -/
def Store.deliveryMembers (s : Store) (token : String) : List Item :=
  ((s.membersOf token).filter fun m => m.selectedForDelivery).filterMap fun m => s.item? m.item

/-- The rows of a change that ends the driver. -/
def Item.finish (status : ItemStatus) (deadline : Option String) (now : String) (i : Item) :
    Item :=
  { i with
    status := status
    notBefore := deadline.getD i.notBefore
    itemStateVersion := i.itemStateVersion + 1
    updatedAt := now }

/-- `status IN ('pending', 'deferred', 'selected', 'ready_for_delivery')`. -/
def ItemStatus.isOpen (status : ItemStatus) : Bool :=
  status.isWaiting || status.isDriving

/-- The loop of a failed delivery. -/
def Store.failMembers (now : String) (members : List Item) (s : Store) : Except PyError Store :=
  members.foldlM (fun s member =>
    s.writeItems (Table.update (fun i => i.key = member.key && i.status.isOpen)
      (Item.become .failed now) s.items.rows)) s

/-- The statements of `transition` on the items and members of a selection. -/
def Store.applyTransition (now : String) (row : Selection) (action : ContentAction)
    (deadline : Option String) (selectedRefs : Option (List Json)) (s : Store) :
    Except PyError Store :=
  match action, row.status with
  | .readyForDelivery, _ => do
      let (chosen, s) ← s.selectDeliveryMembers row.token row.driver selectedRefs
      if chosen.contains row.driver then
        s.writeItems (Table.update
          (fun i => i.selectionToken = some row.token && i.status = .selected)
          (Item.become .readyForDelivery now) s.items.rows)
      else s.releaseDriver now row.token
  | .failed, .readyForDelivery =>
      let members := s.deliveryMembers row.token
      if members = [] then runtimeError "Content ready batch 缺少 delivery members"
      else s.failMembers now members
  | .release, _ => s.releaseDriver now row.token
  | action, _ =>
      s.writeItems (Table.update (fun i => i.selectionToken = some row.token)
        (Item.finish action.itemStatus deadline now) s.items.rows)

/-- The row of a selection after a change of its status. -/
def Selection.become (status : SelectionStatus) (now : String) (c : Selection) : Selection :=
  { c with status := status, updatedAt := now }

/-- The text of the status `transition` answers with. -/
def ContentAction.answer (action : ContentAction) : String :=
  if action = .release then "pending" else action.status.text

/-- The transaction of `transition`. -/
def Store.runTransition (lib : Stdlib) (now token : String) (action : ContentAction)
    (deadline : Option String) (selectedRefs : Option (List Json)) (s : Store) :
    Except PyError (TransitionResult × Store) :=
  match s.selection? token with
  | none => .ok (.unchanged "selection_missing", s)
  | some row =>
      if action.allows row.status = false then
        .ok (.unchanged ("status:" ++ row.status.text), s)
      else do
        let keys := (s.membersOf token).map Member.item
        let s ← s.applyTransition now row action deadline selectedRefs
        let s ← s.writeSelections (Table.update (fun c => c.token = token)
          (Selection.become action.status now) s.contentSelections.rows)
        let s := (s.logEach lib now action.logged (.selection token deadline) keys).bumpVersion
        let s ← s.recomputeWake.appendProjections lib now keys
        return (.changed action.answer s.contentState, s)

/-! ### Settlements -/

/-- `_delivery_receipt`. -/
def contentReceipt (lib : Stdlib) (token settlement : String) : String :=
  "content-delivery:" ++ lib.sha256 (token ++ String.singleton (Char.ofNat 0) ++ settlement)

/-- `_member_settlement`. -/
def memberSettlement (lib : Stdlib) (settlement : String) (key : ItemKey) : String :=
  settlement ++ ":" ++ String.ofList ((lib.sha256 (key.sourceId ++ String.singleton (Char.ofNat 0)
    ++ key.itemId ++ String.singleton (Char.ofNat 0) ++ key.revision)).toList.take 16)

/-- The settlement of a member: the reference itself where it is the only one. -/
def settlementOf (lib : Stdlib) (settlement : String) (single : Bool) (key : ItemKey) : String :=
  if single then settlement else memberSettlement lib settlement key

/-- The status a settlement leads to. -/
def settledStatus (requiresAck : Bool) : ItemStatus :=
  if requiresAck then .delivered else .settled

/-- The row of an item that is settled. -/
def Item.settle (status : ItemStatus) (ref now : String) (i : Item) : Item :=
  { i with
    status := status
    settlementRef := some ref
    itemStateVersion := i.itemStateVersion + 1
    updatedAt := now }

/-- The action of a settled status. -/
def settledAction (requiresAck : Bool) : Action :=
  if requiresAck then .delivered else .settled

/-- The statements of `settle_delivery` on one member. -/
def Store.settleMember (lib : Stdlib) (now token ref : String) (member : Item) (s : Store) :
    Except PyError Store := do
  let hit : Item → Bool := fun i => i.key = member.key && i.status.isOpen
  let t ← s.writeItems
    (Table.update hit (Item.settle (settledStatus member.requiresAck) ref now) s.items.rows)
  if s.items.rows.countP hit ≠ 1 then
    runtimeError "Content delivery member state changed before settlement"
  else
    (t.logContent lib now member.key (settledAction member.requiresAck)
      (.settlement ref)).writeMembers
      (Table.update (fun m => m.token = token && m.item = member.key)
        (fun m => { m with settlementRef := some ref }) t.contentSelectionMembers.rows)

/-- The loop of `settle_delivery`. -/
def Store.settleMembers (lib : Stdlib) (now token settlement : String) (single : Bool)
    (members : List Item) (s : Store) : Except PyError Store :=
  members.foldlM (fun s member =>
    s.settleMember lib now token (settlementOf lib settlement single member.key) member) s

/-- The row of a selection that is settled. -/
def Selection.settle (status : SelectionStatus) (settlement now : String) (c : Selection) :
    Selection :=
  { c with status := status, settlementRef := some settlement, updatedAt := now }

/-- The status of a settled selection. -/
def deliveredStatus (members : List Item) : SelectionStatus :=
  if members.any Item.requiresAck then .delivered else .settled

/-- The statements of `settle_delivery` on a selection that is ready. -/
def Store.settleSelection (lib : Stdlib) (now settlement : String) (row : Selection) (s : Store) :
    Except PyError (SelectionStatus × Store) :=
  let members := s.deliveryMembers row.token
  if members = [] then runtimeError "Content ready batch 缺少 delivery members"
  else do
    let s ← s.settleMembers lib now row.token settlement (members.length = 1) members
    let s ← if members.any fun i => i.key = row.driver then .ok s else s.releaseDriver now row.token
    let status := deliveredStatus members
    let s ← s.writeSelections
      (Table.update (fun c => c.token = row.token && c.status = .readyForDelivery)
        (Selection.settle status settlement now) s.contentSelections.rows)
    let s ← s.bumpVersion.recomputeWake.appendProjections lib now
      ((s.membersOf row.token).map Member.item)
    return (status, s)

/-- `EventMailStore.settle_delivery`. -/
def Store.settleDelivery (lib : Stdlib) (now : String) (token settlement : Json) (s : Store) :
    Except PyError (TransitionResult × Store) := do
  let token ← identity "selection_token" (some token)
  let settlement ← identity "settlement_ref" (some settlement)
  let receipt := contentReceipt lib token settlement
  match s.selection? token with
  | none => .ok (.unsettled "selection_missing", s)
  | some row =>
      if row.status = .delivered ∨ row.status = .settled then
        if row.settlementRef ≠ some settlement then
          runtimeError "Content delivery settlement identity conflict"
        else .ok (.settled true row.status receipt, s)
      else if row.status ≠ .readyForDelivery then
        .ok (.unsettled ("status:" ++ row.status.text), s)
      else do
        let (status, s) ← s.settleSelection lib now settlement row
        return (.settled false status receipt, s)

/-- `EventMailStore.transition`. -/
def Store.transition (lib : Stdlib) (now : String) (token : Json) (action : String)
    (notBefore : Option Datetime) (settlementRef : Option Json) (selectedRefs : Option (List Json))
    (s : Store) : Except PyError (TransitionResult × Store) := do
  let selection ← identity "selection_token" (some token)
  let action ← contentActionOf action
  let _ ← checkTransition action notBefore.isSome settlementRef.isSome selectedRefs.isSome
  let deadline ← notBefore.mapM awareUtc
  match settlementRef with
  | some settlement => do
      let settlement ← identity "settlement_ref" (some settlement)
      s.settleDelivery lib now (.str selection) (.str settlement)
  | none => s.runTransition lib now selection action deadline selectedRefs

/-- The answer of `ack`. -/
structure AckResult where
  settled : Bool
  reason : Option String
  duplicate : Option Bool
  deriving DecidableEq

/-- The text of the status of an item. -/
def ItemStatus.text : ItemStatus → String
  | .pending => "pending"
  | .deferred => "deferred"
  | .selected => "selected"
  | .readyForDelivery => "ready_for_delivery"
  | .awaitChange => "await_change"
  | .invalidated => "invalidated"
  | .abandoned => "abandoned"
  | .failed => "failed"
  | .expired => "expired"
  | .delivered => "delivered"
  | .settled => "settled"

/-- `EventMailStore.ack`. -/
def Store.ack (lib : Stdlib) (now : String) (sourceId settlementRef : Json) (s : Store) :
    Except PyError (AckResult × Store) := do
  let source ← identity "source_id" (some sourceId)
  let settlement ← identity "settlement_ref" (some settlementRef)
  match s.items.rows.find? fun i =>
      i.key.sourceId = source && i.settlementRef = some settlement with
  | none => .ok (⟨false, some "settlement_missing", none⟩, s)
  | some row =>
      if row.status = .settled then .ok (⟨true, none, some true⟩, s)
      else if row.status ≠ .delivered then
        .ok (⟨false, some ("status:" ++ row.status.text), none⟩, s)
      else do
        let s ← s.writeItems (Table.update
          (fun i => i.key.sourceId = source && i.settlementRef = some settlement
            && i.status = .delivered)
          (Item.become .settled now) s.items.rows)
        let s := (s.logContent lib now row.key .acknowledged (.settlement settlement)).bumpVersion
        let s ← s.appendProjections lib now [row.key]
        return (⟨true, none, some false⟩, s)

end Kirakira.EventMail
