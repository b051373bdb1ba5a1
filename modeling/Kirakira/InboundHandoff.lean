import Mathlib.Data.List.Pairwise
import Kirakira.Contract
import Kirakira.Lib.Exceptions
import Kirakira.Lib.Transition

/-!
# Inbound Handoffs

`InboundHandoffStore` of `plugins/ledger/inbound_store.py`: the table of inputs that were
accepted from a channel and are not yet committed. A handoff is found again by its channel,
session and provider message id, first through the text that joins the three and then
through the metadata of the rows of that session.

A metadata column is what `json.loads` makes of its text. Doubles are compared by the
platform.

## Main results

* `reserve_cases` — a reservation leaves the table alone or adds a row nobody was found for.
* `joinKey_unmistakable` — a joined text names one identity when its parts hold no colon.
* `exact_iff` — in every reachable table, lookups are exact if and only if no joined text
  can be read in two ways.
-/

namespace Kirakira.InboundHandoff

open Exceptions Transition

/-! ### Values -/

/-- How the platform compares a double. -/
structure Doubles where
  /-- With an integer. -/
  eqInt : FloatText → ℤ → Bool
  /-- With a double. -/
  eq : FloatText → FloatText → Bool

mutual

/-- `==` on decoded JSON, whose objects are sorted. -/
def valueEq (d : Doubles) : Json → Json → Bool
  | .null, .null => true
  | .bool a, .bool b => a = b
  | .bool a, .int n | .int n, .bool a => n = if a then 1 else 0
  | .bool a, .float f | .float f, .bool a => d.eqInt f (if a then 1 else 0)
  | .int m, .int n => m = n
  | .int n, .float f | .float f, .int n => d.eqInt f n
  | .float f, .float g => d.eq f g
  | .str a, .str b => a = b
  | .arr a, .arr b => valueEqItems d a b
  | .obj a, .obj b => valueEqFields d a b
  | _, _ => false

/-- `==` on the items of arrays. -/
def valueEqItems (d : Doubles) : List Json → List Json → Bool
  | [], [] => true
  | a :: as, b :: bs => valueEq d a b && valueEqItems d as bs
  | _, _ => false

/-- `==` on the fields of sorted objects. -/
def valueEqFields (d : Doubles) : List (String × Json) → List (String × Json) → Bool
  | [], [] => true
  | (k, a) :: as, (l, b) :: bs => k = l && valueEq d a b && valueEqFields d as bs
  | _, _ => false

end

/-- A text column that holds metadata. -/
inductive MetadataJson where
  /-- A text that decodes. -/
  | value (value : Json)
  /-- A text on which `json.loads` raises `JSONDecodeError`. -/
  | text (raw : String)
  /-- A text on which `json.loads` raises something else. -/
  | refused (error : PyError)
  deriving DecidableEq

/-- `dict[key] = value`. -/
def setField (key : String) (value : Json) : List (String × Json) → List (String × Json)
  | [] => [(key, value)]
  | (k, v) :: rest => if k = key then (k, value) :: rest else (k, v) :: setField key value rest

/-! ### Metadata -/

/-- `HANDOFF_PROVIDER_IDENTITY_KEY`. -/
def handoffProviderIdentityKey : String := "_akashic_durable_provider_identity"

/-- Whether a value is a text or `None`. -/
def isOptionalStr : Json → Bool
  | .null | .str _ => true
  | _ => false

/-- Whether the names of the fields are those of an identity record. -/
def hasIdentityKeys (fields : List (String × Json)) : Bool :=
  let names := ["version", "provider_identity", "recipient"]
  (Json.keys fields).all names.contains && names.all (Json.keys fields).contains

/-- `read_handoff_provider_identity`: the pair `(provider_identity, recipient)`. -/
def readHandoffProviderIdentity (metadata : List (String × Json)) :
    Except PyError (Option (Json × Json)) :=
  match metadata.lookup handoffProviderIdentityKey with
  | none => .ok none
  | some (.obj value) =>
      if hasIdentityKeys value = false then
        valueError "durable handoff provider identity shape invalid"
      else
        let providerIdentity := (value.lookup "provider_identity").getD .null
        let recipient := (value.lookup "recipient").getD .null
        if value.lookup "version" ≠ some (.int 1) then
          valueError "durable handoff provider identity version unsupported"
        else if isOptionalStr providerIdentity = false ∨ isOptionalStr recipient = false then
          valueError "durable handoff provider identity values invalid"
        else if (providerIdentity = .null) ≠ (recipient = .null) then
          valueError "durable handoff provider identity pair incomplete"
        else .ok (some (providerIdentity, recipient))
  | some _ => valueError "durable handoff provider identity shape invalid"

/-- Copies an old field to its new name, unless the new name is there. -/
def projectAlias (name old : String) (accepts : Json → Bool) (fields : List (String × Json)) :
    List (String × Json) :=
  match fields.lookup name, fields.lookup old with
  | none, some value => if accepts value then setField name value fields else fields
  | _, _ => fields

/-- Whether a value is a text. -/
def isStr : Json → Bool
  | .str _ => true
  | _ => false

/-- Whether a value is a list. -/
def isList : Json → Bool
  | .arr _ => true
  | _ => false

/-- The old fields of a message under their new names. -/
def projectFields (fields : List (String × Json)) : Except PyError (List (String × Json)) := do
  let _ ← readHandoffProviderIdentity fields
  let fields :=
    if fields.lookup "durable_inbound" ≠ some (.bool true) ∧
        fields.lookup "mobile_v3_handoff" = some (.bool true) then
      setField "durable_inbound" (.bool true) fields
    else fields
  return projectAlias "durable_attachment_refs" "mobile_v3_attachment_refs" isList <|
    projectAlias "provider_message_id" "client_message_id" isStr <|
    projectAlias "durable_handoff_id" "mobile_handoff_id" isStr fields

/-- `_project_handoff_metadata`. -/
def projectHandoffMetadata : MetadataJson → Except PyError MetadataJson
  | .value (.obj fields) => do
      let projected ← projectFields fields
      return .value (Json.obj projected).sortKeys
  | .value value => .ok (.value value)
  | .text raw => .ok (.text raw)
  | .refused error => .error error

/-- `_provider_message_id_from_json`. -/
def providerMessageIdFromJson (metadataJson : MetadataJson) : Except PyError (Option String) := do
  match ← projectHandoffMetadata metadataJson with
  | .value (.obj metadata) =>
      match metadata.lookup "provider_message_id" with
      | some (.str value) => return if value = "" then none else some value
      | _ => return none
  | _ => return none

/-- The decoded objects of two projected columns, compared: an identity record may be
missing from the stored one when the requested one is `(sender, chat_id)`. -/
def objectsMatch (d : Doubles) (sender chatId : String) (stored requested : List (String × Json)) :
    Except PyError Bool :=
  let storedHas := (stored.lookup handoffProviderIdentityKey).isSome
  let requestedHas := (requested.lookup handoffProviderIdentityKey).isSome
  if storedHas = requestedHas then .ok (valueEqFields d stored requested)
  else if storedHas || !requestedHas then .ok false
  else do
    let requestedIdentity ← readHandoffProviderIdentity requested
    if requestedIdentity ≠ some (.str sender, .str chatId) then return false
    else
      return valueEqFields d stored (requested.filter fun f => f.1 ≠ handoffProviderIdentityKey)

/-- `_handoff_metadata_matches`. -/
def handoffMetadataMatches (d : Doubles) (storedJson requestedJson : MetadataJson)
    (sender chatId : String) : Except PyError Bool := do
  let stored ← projectHandoffMetadata storedJson
  let requested ← projectHandoffMetadata requestedJson
  match stored, requested with
  | .value (.obj stored), .value (.obj requested) => objectsMatch d sender chatId stored requested
  | .value stored, .value requested => return valueEq d stored.sortKeys requested.sortKeys
  | stored, requested => return stored = requested

/-! ### Rows -/

/-- A row of `inbound_handoffs`, which is also what a reservation asks for. -/
structure Handoff where
  handoffId : String
  dedupeKey : Option String
  channel : String
  sender : String
  chatId : String
  sessionKey : String
  content : String
  timestamp : String
  mediaJson : String
  metadataJson : MetadataJson
  createdAt : String
  deriving DecidableEq

/-- The table. -/
abbrev Table := List Handoff

/-- `_row_provider_message_id`. -/
def Handoff.rowProviderMessageId (row : Handoff) : Except PyError (Option String) :=
  providerMessageIdFromJson row.metadataJson

/-- `_project_handoff_row`. -/
def Handoff.projectRow (row : Handoff) : Except PyError Handoff := do
  let metadataJson ← projectHandoffMetadata row.metadataJson
  return { row with metadataJson := metadataJson }

/-- `ORDER BY created_at ASC, handoff_id ASC`. -/
def Handoff.arrivedLe (a b : Handoff) : Prop :=
  a.createdAt < b.createdAt ∨ a.createdAt = b.createdAt ∧ a.handoffId ≤ b.handoffId

instance : DecidableRel Handoff.arrivedLe := fun a b =>
  inferInstanceAs (Decidable (a.createdAt < b.createdAt ∨
    a.createdAt = b.createdAt ∧ a.handoffId ≤ b.handoffId))

/-- The joined text of an identity. -/
def joinKey (channel sessionKey providerMessageId : String) : String :=
  s!"{channel}:{sessionKey}:{providerMessageId}"

/-- The candidates whose metadata carries that id. -/
def matching (providerMessageId : String) : List Handoff → Except PyError (List Handoff)
  | [] => .ok []
  | candidate :: rest => do
      let found ← candidate.rowProviderMessageId
      let rest ← matching providerMessageId rest
      return if found = some providerMessageId then candidate :: rest else rest

/-- The rows of one session, in the order they are searched in. -/
def sessionRows (table : Table) (channel sessionKey : String) : List Handoff :=
  (table.filter fun row =>
    row.channel = channel && row.sessionKey = sessionKey).insertionSort Handoff.arrivedLe

/-- `_find_identity_locked`. -/
def findIdentity (table : Table) (channel sessionKey : String) :
    Option String → Except PyError (Option Handoff)
  | none => .ok none
  | some providerMessageId =>
      match table.find? fun row =>
          row.dedupeKey = some (joinKey channel sessionKey providerMessageId) with
      | some row => .ok (some row)
      | none => do
          match ← matching providerMessageId (sessionRows table channel sessionKey) with
          | [] => return none
          | [row] => return some row
          | _ => .error ⟨.runtimeError, "inbound handoff channel identity 不唯一"⟩

/-- `read_inbound_handoff`. -/
def readInboundHandoff (table : Table) (channel sessionKey providerMessageId : String) :
    Except PyError (Option Handoff) := do
  match ← findIdentity table channel sessionKey (some providerMessageId) with
  | none => return none
  | some row => do
      let projected ← row.projectRow
      return some projected

/-- `has_inbound_handoff`. -/
def hasInboundHandoff (table : Table) (channel sessionKey providerMessageId : String) :
    Except PyError Bool := do
  let row ← readInboundHandoff table channel sessionKey providerMessageId
  return row.isSome

/-! ### Reservations -/

/-- Whether every column that is not null holds a text that is not empty. -/
def Handoff.nonEmpty (row : Handoff) : Bool :=
  ([row.handoffId, row.channel, row.sender, row.chatId, row.sessionKey, row.content,
    row.timestamp, row.mediaJson, row.createdAt].all fun value => value ≠ "") &&
  row.dedupeKey ≠ some "" && row.metadataJson ≠ .text ""

/-- The exception on a column that differs. -/
def identityConflict (handoffId field : String) : PyError :=
  ⟨.runtimeError, s!"inbound handoff identity conflict: handoff_id={handoffId} field={field}"⟩

/-- The columns that a row and a reservation are compared on, before the metadata. -/
def comparedColumns (row new : Handoff) (includeTimestamp allowLegacyDedupe : Bool) :
    List (String × Option String × Option String) :=
  (if allowLegacyDedupe then [] else [("dedupe_key", row.dedupeKey, new.dedupeKey)]) ++
  [("channel", some row.channel, some new.channel),
   ("sender", some row.sender, some new.sender),
   ("chat_id", some row.chatId, some new.chatId),
   ("session_key", some row.sessionKey, some new.sessionKey),
   ("content", some row.content, some new.content)] ++
  (if includeTimestamp then [("timestamp", some row.timestamp, some new.timestamp)] else []) ++
  [("media_json", some row.mediaJson, some new.mediaJson)]

/-- `validate_existing`. -/
def validateExisting (d : Doubles) (row new : Handoff)
    (includeTimestamp allowLegacyDedupe : Bool) : Except PyError Unit :=
  match (comparedColumns row new includeTimestamp allowLegacyDedupe).find? fun c =>
      c.2.1 ≠ c.2.2 with
  | some c => .error (identityConflict new.handoffId c.1)
  | none => do
      let same ← handoffMetadataMatches d row.metadataJson new.metadataJson row.sender row.chatId
      if same then return () else .error (identityConflict new.handoffId "metadata_json")

/-- `INSERT … ON CONFLICT DO NOTHING`, with the number of rows it added. -/
def insert (new : Handoff) (table : Table) : ℕ × Table :=
  if table.any (fun row => row.handoffId = new.handoffId ||
      (new.dedupeKey.isSome && row.dedupeKey = new.dedupeKey)) then (0, table)
  else (1, table ++ [new])

/-- The row of that handoff id. -/
def byId (table : Table) (handoffId : String) : Option Handoff :=
  table.find? fun row => row.handoffId = handoffId

/-- The row of that dedupe key; none when there is no key. -/
def byDedupe (table : Table) : Option String → Option Handoff
  | none => none
  | some key => table.find? fun row => row.dedupeKey = some key

/-- The row that stands for a reservation after its insertion. -/
def winner (new : Handoff) (table : Table) : Except PyError (Option Handoff) :=
  match (byId table new.handoffId).or (byDedupe table new.dedupeKey) with
  | some row => .ok (some row)
  | none => do
      let providerMessageId ← providerMessageIdFromJson new.metadataJson
      findIdentity table new.channel new.sessionKey providerMessageId

/-- The insertion of a reservation that found no row, and the check of the row it left. -/
def insertHandoff (d : Doubles) (new : Handoff) (table : Table) :
    Except PyError ((String × Bool) × Table) := do
  let (rowcount, table) := insert new table
  match ← winner new table with
  | none => .error ⟨.runtimeError, s!"inbound handoff disappeared: {new.handoffId}"⟩
  | some row => do
      validateExisting d row new (row.handoffId = new.handoffId) (row.dedupeKey ≠ new.dedupeKey)
      return ((row.handoffId, rowcount = 1), table)

/-- The handoff id and the dedupe key do not stand in two rows. -/
def checkSameRow : Option Handoff → Option Handoff → Except PyError Unit
  | some existingById, some existingByDedupe =>
      if existingById.handoffId ≠ existingByDedupe.handoffId then
        .error ⟨.runtimeError,
          "inbound handoff identity conflict: handoff_id and dedupe_key differ"⟩
      else .ok ()
  | _, _ => .ok ()

/-- `reserve_inbound_handoff`, up to its commit. -/
def reserveBody (d : Doubles) (new : Handoff) (table : Table) :
    Except PyError ((String × Bool) × Table) :=
  if new.nonEmpty = false then valueError "inbound handoff fields must be non-empty strings"
  else do
    let existingById := byId table new.handoffId
    let existingByDedupe := byDedupe table new.dedupeKey
    let providerMessageId ← providerMessageIdFromJson new.metadataJson
    let legacyByIdentity ← findIdentity table new.channel new.sessionKey providerMessageId
    checkSameRow existingById existingByDedupe
    match (existingById.or existingByDedupe).or legacyByIdentity with
    | some existing => do
        let allowLegacyDedupe := (existingById.isNone && existingByDedupe.isNone) ||
          existingById.any fun row => row.dedupeKey ≠ new.dedupeKey
        validateExisting d existing new existingById.isSome allowLegacyDedupe
        return ((existing.handoffId, false), table)
    | none => insertHandoff d new table

/-- `reserve_inbound_handoff`. -/
def reserveInboundHandoff (d : Doubles) (new : Handoff) (table : Table) :
    Except PyError (String × Bool) × Table :=
  match reserveBody d new table with
  | .ok (result, table) => (.ok result, table)
  | .error e => (.error e, table)

/-- `complete_inbound_handoff`. -/
def completeInboundHandoff (handoffId : String) (table : Table) : Except PyError Unit × Table :=
  if handoffId = "" then (valueError "handoff_id must be a non-empty string", table)
  else if (table.filter fun row => row.handoffId = handoffId).length ≠ 1 then
    (.error ⟨.runtimeError, s!"inbound handoff not found: {handoffId}"⟩, table)
  else (.ok (), table.filter fun row => row.handoffId ≠ handoffId)

/-! ### The system -/

/-- The row has that channel, that session key and that projected provider message id. -/
def Handoff.Is (row : Handoff) (channel sessionKey providerMessageId : String) : Prop :=
  row.channel = channel ∧ row.sessionKey = sessionKey ∧
    row.rowProviderMessageId = .ok (some providerMessageId)

/-- What the schema and the check of a reservation give: no handoff id or dedupe key occurs
twice, and the metadata can be read. -/
structure Admitted (table : Table) : Prop where
  handoffId : table.Pairwise fun a b => a.handoffId ≠ b.handoffId
  dedupeKey : table.Pairwise fun a b => a.dedupeKey ≠ none → a.dedupeKey ≠ b.dedupeKey
  readable : ∀ row ∈ table, ∃ m, projectHandoffMetadata row.metadataJson = .ok m

/-- No identity is that of two rows. -/
def Single (table : Table) : Prop :=
  table.Pairwise fun a b => ∀ channel sessionKey providerMessageId,
    a.Is channel sessionKey providerMessageId → ¬ b.Is channel sessionKey providerMessageId

/-- Lookups are exact: they return a row of the identity that was asked for, and one
whenever there is one. -/
structure Exact (table : Table) : Prop where
  sound : ∀ channel sessionKey providerMessageId row,
    readInboundHandoff table channel sessionKey providerMessageId = .ok (some row) →
      ∃ stored ∈ table, stored.projectRow = .ok row ∧
        stored.Is channel sessionKey providerMessageId
  complete : ∀ channel sessionKey providerMessageId, ∀ stored ∈ table,
    stored.Is channel sessionKey providerMessageId →
      ∃ row, readInboundHandoff table channel sessionKey providerMessageId = .ok (some row)
  has : ∀ channel sessionKey providerMessageId,
    hasInboundHandoff table channel sessionKey providerMessageId = .ok true ↔
      ∃ stored ∈ table, stored.Is channel sessionKey providerMessageId
  single : Single table

/-- A call of the store. -/
inductive Event where
  | reserve (new : Handoff)
  | complete (handoffId : String)

/-- The table after a call. -/
def Event.apply (d : Doubles) (table : Table) : Event → Table
  | .reserve new => (reserveInboundHandoff d new table).2
  | .complete handoffId => (completeInboundHandoff handoffId table).2

/-- Calls, from a table of old rows on which lookups are exact; it may be empty. -/
def inboundHandoffs (d : Doubles) : System Table Event where
  init table := Admitted table ∧ Exact table
  step table event table' := table' = event.apply d table

/-- A new reservation carries the joined text of its identity, or no dedupe key. -/
def Carried (_ : Table) : Event → Prop
  | .reserve new => new.dedupeKey = none ∨ ∃ providerMessageId,
      new.rowProviderMessageId = .ok (some providerMessageId) ∧
        new.dedupeKey = some (joinKey new.channel new.sessionKey providerMessageId)
  | .complete _ => True

/-- The text holds no colon. -/
def ColonFree (text : String) : Prop :=
  ':' ∉ text.toList

/-- When the row carries the joined text of its identity, none of the three holds a colon. -/
def Handoff.Plain (row : Handoff) : Prop :=
  ∀ providerMessageId, row.rowProviderMessageId = .ok (some providerMessageId) →
    row.dedupeKey = some (joinKey row.channel row.sessionKey providerMessageId) →
      ColonFree row.channel ∧ ColonFree row.sessionKey ∧ ColonFree providerMessageId

/-- The reservation is plain. -/
def PlainEvent : Event → Prop
  | .reserve new => new.Plain
  | .complete _ => True

/-! ### Joined texts -/

theorem toList_joinKey (channel sessionKey providerMessageId : String) :
    (joinKey channel sessionKey providerMessageId).toList =
      channel.toList ++ ':' :: (sessionKey.toList ++ ':' :: providerMessageId.toList) := by
  simp [joinKey, toString]

theorem split_at_first {sep : Char} {a b x y : List Char} (ha : sep ∉ a) (hb : sep ∉ b)
    (h : a ++ sep :: x = b ++ sep :: y) : a = b ∧ x = y := by
  induction a generalizing b with
  | nil =>
      cases b with
      | nil => exact ⟨rfl, (List.cons.inj h).2⟩
      | cons c cs =>
          obtain ⟨rfl, -⟩ := List.cons.inj h
          exact absurd List.mem_cons_self hb
  | cons c cs ih =>
      cases b with
      | nil =>
          obtain ⟨rfl, -⟩ := List.cons.inj h
          exact absurd List.mem_cons_self ha
      | cons e es =>
          obtain ⟨rfl, htail⟩ := List.cons.inj h
          obtain ⟨rfl, rfl⟩ := ih (fun hc => ha (List.mem_cons_of_mem _ hc))
            (fun hc => hb (List.mem_cons_of_mem _ hc)) htail
          exact ⟨rfl, rfl⟩

theorem count_joinKey (channel sessionKey providerMessageId : String) :
    (joinKey channel sessionKey providerMessageId).toList.count ':' =
      channel.toList.count ':' + sessionKey.toList.count ':' +
        providerMessageId.toList.count ':' + 2 := by
  rw [toList_joinKey]
  simp only [List.count_append, List.count_cons_self]
  omega

theorem colonFree_iff {text : String} : ColonFree text ↔ text.toList.count ':' = 0 :=
  List.count_eq_zero.symm

variable {m : String} {d : Doubles}

/-- **A joined text names one identity when its parts hold no colon.** -/
theorem joinKey_unmistakable {c s c' s' m' : String} (hc : ColonFree c) (hs : ColonFree s)
    (hm : ColonFree m) (h : joinKey c' s' m' = joinKey c s m) : c' = c ∧ s' = s ∧ m' = m := by
  have hcount := count_joinKey c' s' m'
  rw [h, count_joinKey, colonFree_iff.mp hc, colonFree_iff.mp hs, colonFree_iff.mp hm] at hcount
  have hc' : ColonFree c' := colonFree_iff.mpr (by omega)
  have hs' : ColonFree s' := colonFree_iff.mpr (by omega)
  have hlist := congrArg String.toList h
  rw [toList_joinKey, toList_joinKey] at hlist
  obtain ⟨hchannel, hrest⟩ := split_at_first hc' hc hlist
  obtain ⟨hsession, hmessage⟩ := split_at_first hs' hs hrest
  exact ⟨String.toList_inj.mp hchannel, String.toList_inj.mp hsession,
    String.toList_inj.mp hmessage⟩

theorem exists_cut {text : String} (h : ¬ ColonFree text) :
    ∃ x y : String, text.toList = x.toList ++ ':' :: y.toList := by
  obtain ⟨xs, ys, hcut⟩ := List.append_of_mem (not_not.mp h)
  refine ⟨String.ofList xs, String.ofList ys, ?_⟩
  rw [hcut, String.toList_ofList, String.toList_ofList]

theorem joinKey_eq_of_toList {c s c' s' m' : String}
    (h : c'.toList ++ ':' :: (s'.toList ++ ':' :: m'.toList) =
      c.toList ++ ':' :: (s.toList ++ ':' :: m.toList)) : joinKey c' s' m' = joinKey c s m := by
  rw [← String.toList_inj, toList_joinKey, toList_joinKey, h]

/-- **A joined text can be read in two ways when one of its parts holds a colon.** -/
theorem exists_mistaken {c s : String} (h : ¬ (ColonFree c ∧ ColonFree s ∧ ColonFree m)) :
    ∃ c' s' m', joinKey c' s' m' = joinKey c s m ∧ (c' ≠ c ∨ s' ≠ s) := by
  by_cases hc : ColonFree c
  · by_cases hs : ColonFree s
    · have hm : ¬ ColonFree m := fun hm => h ⟨hc, hs, hm⟩
      obtain ⟨x, y, hcut⟩ := exists_cut hm
      refine ⟨c, String.ofList (s.toList ++ ':' :: x.toList), y, joinKey_eq_of_toList ?_, .inr ?_⟩
      · rw [hcut, String.toList_ofList]
        simp only [List.append_assoc, List.cons_append]
      · intro heq
        have := congrArg (fun t => t.toList.length) heq
        simp only [String.toList_ofList, List.length_append, List.length_cons] at this
        omega
    · obtain ⟨x, y, hcut⟩ := exists_cut hs
      refine ⟨c, x, String.ofList (y.toList ++ ':' :: m.toList), joinKey_eq_of_toList ?_, .inr ?_⟩
      · rw [hcut, String.toList_ofList]
        simp only [List.append_assoc, List.cons_append]
      · rintro rfl
        have := congrArg List.length hcut
        simp only [List.length_append, List.length_cons] at this
        omega
  · obtain ⟨x, y, hcut⟩ := exists_cut hc
    refine ⟨x, String.ofList (y.toList ++ ':' :: s.toList), m, joinKey_eq_of_toList ?_, .inl ?_⟩
    · rw [hcut, String.toList_ofList]
      simp only [List.append_assoc, List.cons_append]
    · rintro rfl
      have := congrArg List.length hcut
      simp only [List.length_append, List.length_cons] at this
      omega

/-! ### Lookups -/

section Lookups

variable {table : Table} {c s m : String}

/-- Whether the metadata of the row carries that id. -/
def Handoff.carries (row : Handoff) (providerMessageId : String) : Bool :=
  match row.rowProviderMessageId with
  | .ok (some found) => found = providerMessageId
  | _ => false

variable {row : Handoff}

theorem carries_iff : row.carries m = true ↔ row.rowProviderMessageId = .ok (some m) := by
  rw [Handoff.carries]
  split
  · next found hfound => simp [hfound]
  · next hnot =>
      refine ⟨fun h => absurd h Bool.false_ne_true, fun h => ?_⟩
      exact absurd h (hnot m)

theorem exists_providerMessageId {metadataJson : MetadataJson}
    (h : ∃ projected, projectHandoffMetadata metadataJson = .ok projected) :
    ∃ found, providerMessageIdFromJson metadataJson = .ok found := by
  obtain ⟨projected, hprojected⟩ := h
  rw [providerMessageIdFromJson, hprojected]
  change ∃ found, (match projected with
    | .value (.obj metadata) =>
        match metadata.lookup "provider_message_id" with
        | some (.str value) => (pure (if value = "" then none else some value) :
            Except PyError (Option String))
        | _ => pure none
    | _ => pure none) = .ok found
  split
  · split
    · exact ⟨_, rfl⟩
    · exact ⟨_, rfl⟩
  · exact ⟨_, rfl⟩

theorem exists_projectRow
    (h : ∃ projected, projectHandoffMetadata row.metadataJson = .ok projected) :
    ∃ projected, row.projectRow = .ok projected := by
  obtain ⟨projected, hprojected⟩ := h
  rw [Handoff.projectRow, hprojected]
  exact ⟨_, rfl⟩

theorem handoffId_of_projectRow {projected : Handoff} (h : row.projectRow = .ok projected) :
    projected.handoffId = row.handoffId := by
  rw [Handoff.projectRow] at h
  obtain ⟨_, -, h⟩ := bind_eq_ok.mp h
  exact (congrArg Handoff.handoffId (Except.ok.inj h)).symm

theorem matching_of_readable {rows : List Handoff}
    (h : ∀ row ∈ rows, ∃ found, row.rowProviderMessageId = .ok found) :
    matching m rows = .ok (rows.filter fun row => row.carries m) := by
  induction rows with
  | nil => rfl
  | cons row rest ih =>
      obtain ⟨found, hfound⟩ := h row List.mem_cons_self
      have hrest := ih fun other hother => h other (List.mem_cons_of_mem _ hother)
      have hcarries : row.carries m = decide (found = some m) := by
        rw [Bool.eq_iff_iff, carries_iff, hfound, decide_eq_true_iff]
        exact ⟨fun hok => Except.ok.inj hok, fun hsome => by rw [hsome]⟩
      rw [matching, hfound, hrest, List.filter_cons, hcarries]
      by_cases hsome : found = some m
      · rw [decide_eq_true hsome, if_pos rfl]
        exact congrArg Except.ok (if_pos hsome)
      · rw [decide_eq_false hsome, if_neg Bool.false_ne_true]
        exact congrArg Except.ok (if_neg hsome)

theorem mem_sessionRows :
    row ∈ sessionRows table c s ↔ row ∈ table ∧ row.channel = c ∧ row.sessionKey = s := by
  rw [sessionRows, List.mem_insertionSort, List.mem_filter, Bool.and_eq_true, decide_eq_true_iff,
    decide_eq_true_iff]

theorem mem_filter_carries :
    row ∈ (sessionRows table c s).filter (fun row => row.carries m) ↔
      row ∈ table ∧ row.Is c s m := by
  rw [List.mem_filter, mem_sessionRows, carries_iff, Handoff.Is]
  tauto

theorem findIdentity_eq (h : Admitted table) :
    findIdentity table c s (some m) =
      match table.find? fun row => row.dedupeKey = some (joinKey c s m) with
      | some row => .ok (some row)
      | none =>
          match (sessionRows table c s).filter fun row => row.carries m with
          | [] => .ok none
          | [row] => .ok (some row)
          | _ => .error ⟨.runtimeError, "inbound handoff channel identity 不唯一"⟩ := by
  have hreadable : ∀ row ∈ sessionRows table c s, ∃ found, row.rowProviderMessageId = .ok found :=
    fun row hrow => exists_providerMessageId (h.readable row (mem_sessionRows.mp hrow).1)
  have hmatching := matching_of_readable (m := m) hreadable
  rw [findIdentity]
  split
  · rfl
  · rw [hmatching]
    rfl

theorem Admitted.eq_of_handoffId (h : Admitted table) {a b : Handoff} (ha : a ∈ table)
    (hb : b ∈ table) (hab : a.handoffId = b.handoffId) : a = b := by
  by_contra hne
  have hsymm : Std.Symm fun a b : Handoff => a.handoffId ≠ b.handoffId := ⟨fun _ _ => Ne.symm⟩
  exact List.Pairwise.forall h.handoffId ha hb hne hab

theorem Admitted.eq_of_dedupeKey (h : Admitted table) {a b : Handoff} {key : String}
    (ha : a ∈ table) (hb : b ∈ table) (hakey : a.dedupeKey = some key)
    (hbkey : b.dedupeKey = some key) : a = b := by
  by_contra hne
  have hsymm : Std.Symm fun a b : Handoff => a.dedupeKey ≠ none → a.dedupeKey ≠ b.dedupeKey :=
    ⟨fun a b hab hb hba => hab (hba ▸ hb) hba.symm⟩
  refine List.Pairwise.forall h.dedupeKey ha hb hne ?_ (hakey.trans hbkey.symm)
  rw [hakey]
  exact Option.some_ne_none key

theorem Single.eq (h : Single table) {a b : Handoff} (ha : a ∈ table) (hb : b ∈ table)
    (hais : a.Is c s m) (hbis : b.Is c s m) : a = b := by
  by_contra hne
  have hsymm : Std.Symm fun a b : Handoff => ∀ channel sessionKey providerMessageId,
      a.Is channel sessionKey providerMessageId → ¬ b.Is channel sessionKey providerMessageId :=
    ⟨fun a b hab c s m hb ha => hab c s m ha hb⟩
  exact List.Pairwise.forall h ha hb hne c s m hais hbis

theorem filter_carries_of_mem (h : Single table) (hrow : row ∈ table) (his : row.Is c s m) :
    (sessionRows table c s).filter (fun row => row.carries m) = [row] := by
  have hmem := mem_filter_carries.mpr ⟨hrow, his⟩
  have hall : ∀ other ∈ (sessionRows table c s).filter (fun row => row.carries m), other = row := by
    intro other hother
    obtain ⟨hother, hotherIs⟩ := mem_filter_carries.mp hother
    exact h.eq hother hrow hotherIs his
  have hpairwise : (table.filter fun row => row.channel = c && row.sessionKey = s).Pairwise
      fun a b => ¬ (a.Is c s m ∧ b.Is c s m) :=
    (List.Pairwise.imp (fun hab hboth => hab c s m hboth.1 hboth.2) h).filter _
  have hsorted : (sessionRows table c s).Pairwise fun a b => ¬ (a.Is c s m ∧ b.Is c s m) :=
    (List.perm_insertionSort _ _).symm.pairwise hpairwise fun hab hboth =>
      hab ⟨hboth.2, hboth.1⟩
  have hfiltered := hsorted.filter fun row => row.carries m
  generalize (sessionRows table c s).filter (fun row => row.carries m) = rows at *
  match rows with
  | [] => cases hmem
  | [other] => rw [hall other List.mem_cons_self]
  | first :: second :: rest =>
      exfalso
      have hfirst := hall first List.mem_cons_self
      have hsecond := hall second (List.mem_cons_of_mem _ List.mem_cons_self)
      have hnot := List.rel_of_pairwise_cons hfiltered List.mem_cons_self
      rw [hfirst, hsecond] at hnot
      exact hnot ⟨his, his⟩

theorem mem_of_find_dedupeKey {key : String}
    (h : (table.find? fun row => row.dedupeKey = some key) = some row) :
    row ∈ table ∧ row.dedupeKey = some key :=
  ⟨List.mem_of_find?_eq_some h, by simpa using List.find?_some h⟩

theorem findIdentity_some (h : Admitted table)
    (hfind : findIdentity table c s (some m) = .ok (some row)) :
    row ∈ table ∧ (row.dedupeKey = some (joinKey c s m) ∨ row.Is c s m) := by
  rw [findIdentity_eq h] at hfind
  split at hfind
  · next found hkey =>
      obtain rfl := Option.some.inj (Except.ok.inj hfind)
      obtain ⟨hmem, hkey⟩ := mem_of_find_dedupeKey hkey
      exact ⟨hmem, .inl hkey⟩
  · split at hfind
    · cases Except.ok.inj hfind
    · next found hrows =>
        obtain rfl := Option.some.inj (Except.ok.inj hfind)
        obtain ⟨hmem, his⟩ := mem_filter_carries.mp (hrows ▸ List.mem_singleton_self found)
        exact ⟨hmem, .inr his⟩
    · cases hfind

theorem findIdentity_none (h : Admitted table)
    (hfind : findIdentity table c s (some m) = .ok none) :
    ∀ row ∈ table, ¬ row.Is c s m := by
  rw [findIdentity_eq h] at hfind
  split at hfind
  · cases Except.ok.inj hfind
  · split at hfind
    · next hrows =>
        intro row hrow his
        have hmem := mem_filter_carries.mpr ⟨hrow, his⟩
        rw [hrows] at hmem
        cases hmem
    · cases Except.ok.inj hfind
    · cases hfind

theorem findIdentity_of_mem (h : Admitted table) (hsingle : Single table) (hrow : row ∈ table)
    (his : row.Is c s m) : ∃ found, findIdentity table c s (some m) = .ok (some found) := by
  rw [findIdentity_eq h, filter_carries_of_mem hsingle hrow his]
  split
  · exact ⟨_, rfl⟩
  · exact ⟨_, rfl⟩

theorem readInboundHandoff_some {projected : Handoff}
    (h : readInboundHandoff table c s m = .ok (some projected)) :
    ∃ row, findIdentity table c s (some m) = .ok (some row) ∧ row.projectRow = .ok projected := by
  rw [readInboundHandoff] at h
  obtain ⟨found, hfind, h⟩ := bind_eq_ok.mp h
  cases found with
  | none => cases Except.ok.inj h
  | some row =>
      obtain ⟨projected', hproject, h⟩ := bind_eq_ok.mp h
      obtain rfl := Option.some.inj (Except.ok.inj h)
      exact ⟨row, hfind, hproject⟩

theorem readInboundHandoff_of_find (h : Admitted table)
    (hfind : findIdentity table c s (some m) = .ok (some row)) :
    ∃ projected, row.projectRow = .ok projected ∧
      readInboundHandoff table c s m = .ok (some projected) := by
  obtain ⟨projected, hproject⟩ :=
    exists_projectRow (h.readable row (findIdentity_some h hfind).1)
  refine ⟨projected, hproject, ?_⟩
  rw [readInboundHandoff]
  exact bind_eq_ok.mpr ⟨some row, hfind, bind_eq_ok.mpr ⟨projected, hproject, rfl⟩⟩

theorem hasInboundHandoff_iff :
    hasInboundHandoff table c s m = .ok true ↔
      ∃ row, readInboundHandoff table c s m = .ok (some row) := by
  rw [hasInboundHandoff]
  constructor
  · intro h
    obtain ⟨row, hread, h⟩ := bind_eq_ok.mp h
    obtain ⟨projected, rfl⟩ := Option.isSome_iff_exists.mp (Except.ok.inj h)
    exact ⟨projected, hread⟩
  · rintro ⟨row, hread⟩
    exact bind_eq_ok.mpr ⟨some row, hread, rfl⟩

/-- Every joined text that the row stands under is that of its identity. -/
def Handoff.Unmistaken (row : Handoff) : Prop :=
  ∀ c s m, row.dedupeKey = some (joinKey c s m) → row.Is c s m

/-- **Lookups are exact when no row is mistaken for another.** -/
theorem exact_of_unmistaken (h : Admitted table) (hsingle : Single table)
    (hunmistaken : ∀ row ∈ table, row.Unmistaken) : Exact table := by
  have hsound : ∀ c s m row, readInboundHandoff table c s m = .ok (some row) →
      ∃ stored ∈ table, stored.projectRow = .ok row ∧ stored.Is c s m := by
    intro c s m row hread
    obtain ⟨stored, hfind, hproject⟩ := readInboundHandoff_some hread
    obtain ⟨hmem, hkey | his⟩ := findIdentity_some h hfind
    · exact ⟨stored, hmem, hproject, hunmistaken stored hmem c s m hkey⟩
    · exact ⟨stored, hmem, hproject, his⟩
  have hcomplete : ∀ c s m, ∀ stored ∈ table, stored.Is c s m →
      ∃ row, readInboundHandoff table c s m = .ok (some row) := by
    intro c s m stored hmem his
    obtain ⟨found, hfind⟩ := findIdentity_of_mem h hsingle hmem his
    obtain ⟨projected, -, hread⟩ := readInboundHandoff_of_find h hfind
    exact ⟨projected, hread⟩
  refine ⟨hsound, hcomplete, fun c s m => ?_, hsingle⟩
  rw [hasInboundHandoff_iff]
  constructor
  · rintro ⟨row, hread⟩
    obtain ⟨stored, hmem, -, his⟩ := hsound c s m row hread
    exact ⟨stored, hmem, his⟩
  · rintro ⟨stored, hmem, his⟩
    exact hcomplete c s m stored hmem his

/-- **Exact lookups mistake no row.** -/
theorem Exact.unmistaken (hexact : Exact table) (h : Admitted table) (hrow : row ∈ table) :
    row.Unmistaken := by
  intro c s m hkey
  obtain ⟨found, hfound⟩ : ∃ found, table.find? (fun row =>
      row.dedupeKey = some (joinKey c s m)) = some found := by
    refine Option.isSome_iff_exists.mp (List.find?_isSome.mpr ⟨row, hrow, ?_⟩)
    exact decide_eq_true hkey
  obtain ⟨hmem, hfoundKey⟩ := mem_of_find_dedupeKey hfound
  obtain rfl : found = row := h.eq_of_dedupeKey hmem hrow hfoundKey hkey
  have hfind : findIdentity table c s (some m) = .ok (some found) := by
    rw [findIdentity_eq h, hfound]
  obtain ⟨projected, hproject, hread⟩ := readInboundHandoff_of_find h hfind
  obtain ⟨stored, hstored, hproject', his⟩ := hexact.sound c s m projected hread
  have hid : stored.handoffId = found.handoffId :=
    (handoffId_of_projectRow hproject').symm.trans (handoffId_of_projectRow hproject)
  rwa [← h.eq_of_handoffId hstored hrow hid]

end Lookups

/-! ### What a call does -/

theorem insert_cases (new : Handoff) (table : Table) :
    (insert new table).2 = table ∨ (insert new table).2 = table ++ [new] := by
  rw [insert]
  split
  · exact .inl rfl
  · exact .inr rfl

variable {new : Handoff} {table : Table}

theorem insertHandoff_eq_ok {table' : Table} {result : String × Bool}
    (h : insertHandoff d new table = .ok (result, table')) :
    table' = table ∨ table' = table ++ [new] := by
  rw [insertHandoff] at h
  obtain ⟨row, -, h⟩ := bind_eq_ok.mp h
  cases row with
  | none => cases h
  | some row =>
      obtain ⟨_, -, h⟩ := bind_eq_ok.mp h
      obtain ⟨-, rfl⟩ := Prod.mk.inj (Except.ok.inj h)
      exact insert_cases new table

/-- **A reservation leaves the table alone or adds a row nobody was found for.** -/
theorem reserve_cases (d : Doubles) (new : Handoff) (table : Table) :
    (reserveInboundHandoff d new table).2 = table ∨
      (reserveInboundHandoff d new table).2 = table ++ [new] ∧
        byId table new.handoffId = none ∧ byDedupe table new.dedupeKey = none ∧
        ∃ found, new.rowProviderMessageId = .ok found ∧
          findIdentity table new.channel new.sessionKey found = .ok none := by
  rw [reserveInboundHandoff]
  split
  · next result table' hbody =>
      rw [reserveBody] at hbody
      split at hbody
      · cases hbody
      · obtain ⟨found, hfound, hbody₁⟩ := bind_eq_ok.mp hbody
        obtain ⟨legacy, hlegacy, hbody₂⟩ := bind_eq_ok.mp hbody₁
        obtain ⟨_, -, hbody₃⟩ := bind_eq_ok.mp hbody₂
        split at hbody₃
        · obtain ⟨_, -, hbody₄⟩ := bind_eq_ok.mp hbody₃
          exact .inl (Prod.mk.inj (Except.ok.inj hbody₄)).2.symm
        · next hnone =>
            obtain ⟨hneither, hnoLegacy⟩ := Option.or_eq_none_iff.mp hnone
            obtain ⟨hid, hdedupe⟩ := Option.or_eq_none_iff.mp hneither
            rw [hnoLegacy] at hlegacy
            rcases insertHandoff_eq_ok hbody₃ with hsame | hadded
            · exact .inl hsame
            · exact .inr ⟨hadded, hid, hdedupe, found, hfound, hlegacy⟩
  · exact .inl rfl

theorem complete_sublist (handoffId : String) (table : Table) :
    (completeInboundHandoff handoffId table).2.Sublist table := by
  rw [completeInboundHandoff]
  split
  · exact List.Sublist.refl table
  · split
    · exact List.Sublist.refl table
    · exact List.filter_sublist

/-! ### What every table keeps -/

/-- What holds of every table that a run reaches. -/
structure Invariant (table : Table) : Prop where
  admitted : Admitted table
  single : Single table
  /-- A row that may be mistaken stands under the joined text of its own identity. -/
  keyed : ∀ row ∈ table, row.Unmistaken ∨ ∃ m, row.rowProviderMessageId = .ok (some m) ∧
    row.dedupeKey = some (joinKey row.channel row.sessionKey m)

theorem Invariant.sublist {table' : Table} (h : Invariant table) (hsub : table'.Sublist table) :
    Invariant table' where
  admitted := ⟨h.admitted.handoffId.sublist hsub, h.admitted.dedupeKey.sublist hsub,
    fun row hrow => h.admitted.readable row (hsub.subset hrow)⟩
  single := List.Pairwise.sublist hsub h.single
  keyed := fun row hrow => h.keyed row (hsub.subset hrow)

theorem pairwise_append_row {R : Handoff → Handoff → Prop} (h : table.Pairwise R)
    (hnew : ∀ row ∈ table, R row new) : (table ++ [new]).Pairwise R := by
  refine List.pairwise_append.mpr ⟨h, List.pairwise_singleton _ _, fun row hrow other hother => ?_⟩
  rw [List.mem_singleton.mp hother]
  exact hnew row hrow

theorem Admitted.append {found : Option String} (h : Admitted table)
    (hid : byId table new.handoffId = none) (hdedupe : byDedupe table new.dedupeKey = none)
    (hfound : new.rowProviderMessageId = .ok found) : Admitted (table ++ [new]) where
  handoffId := by
    refine pairwise_append_row h.handoffId fun row hrow heq => ?_
    have hnot := List.find?_eq_none.mp hid row hrow
    rw [heq] at hnot
    exact hnot (decide_eq_true rfl)
  dedupeKey := by
    refine pairwise_append_row h.dedupeKey fun row hrow hsome heq => ?_
    obtain ⟨key, hkey⟩ := Option.ne_none_iff_exists'.mp hsome
    rw [← heq, hkey] at hdedupe
    exact List.find?_eq_none.mp hdedupe row hrow (decide_eq_true hkey)
  readable := by
    intro row hrow
    rcases List.mem_append.mp hrow with hold | hnew
    · exact h.readable row hold
    · rw [List.mem_singleton.mp hnew]
      obtain ⟨projected, hprojected, -⟩ := bind_eq_ok.mp hfound
      exact ⟨projected, hprojected⟩

theorem Single.append {found : Option String} (hsingle : Single table) (h : Admitted table)
    (hfound : new.rowProviderMessageId = .ok found)
    (hfind : findIdentity table new.channel new.sessionKey found = .ok none) :
    Single (table ++ [new]) := by
  refine pairwise_append_row hsingle fun row hrow c s m his hnew => ?_
  obtain ⟨rfl, rfl, hm⟩ := hnew
  obtain rfl := Except.ok.inj (hfound.symm.trans hm)
  exact findIdentity_none h hfind row hrow his

/-- **Every call keeps the invariant.** -/
theorem Invariant.apply {event : Event} (h : Invariant table) (hcarried : Carried table event) :
    Invariant (event.apply d table) := by
  cases event with
  | complete handoffId => exact h.sublist (complete_sublist handoffId table)
  | reserve new =>
      rcases reserve_cases d new table with hsame | ⟨hadded, hid, hdedupe, found, hfound, hfind⟩
      · rw [Event.apply, hsame]
        exact h
      · rw [Event.apply, hadded]
        refine ⟨h.admitted.append hid hdedupe hfound, h.single.append h.admitted hfound hfind, ?_⟩
        intro row hrow
        rcases List.mem_append.mp hrow with hold | hnew
        · exact h.keyed row hold
        · rw [List.mem_singleton.mp hnew]
          rcases hcarried with hnone | hkey
          · left
            intro c s m hkey
            rw [hnone] at hkey
            cases hkey
          · exact .inr hkey

/-- A row that stands under the joined text of its identity is unmistaken exactly when it is
plain. -/
theorem Handoff.Plain.unmistaken {row : Handoff} (h : row.Plain)
    (hm : row.rowProviderMessageId = .ok (some m))
    (hkey : row.dedupeKey = some (joinKey row.channel row.sessionKey m)) : row.Unmistaken := by
  intro c s m' hkey'
  obtain ⟨hchannel, hsession, hmessage⟩ := h m hm hkey
  have hjoined : joinKey c s m' = joinKey row.channel row.sessionKey m :=
    Option.some.inj (hkey'.symm.trans hkey)
  obtain ⟨rfl, rfl, rfl⟩ := joinKey_unmistakable hchannel hsession hmessage hjoined
  exact ⟨rfl, rfl, hm⟩

theorem Handoff.Unmistaken.plain {row : Handoff} (h : row.Unmistaken) : row.Plain := by
  intro m _ hkey
  by_contra hnot
  obtain ⟨c, s, m', hjoined, hother⟩ := exists_mistaken hnot
  obtain ⟨hchannel, hsession, -⟩ := h c s m' (hjoined ▸ hkey)
  rcases hother with hc | hs
  · exact hc hchannel.symm
  · exact hs hsession.symm

/-- **Lookups are exact if and only if every row is plain.** -/
theorem Invariant.exact_iff (h : Invariant table) : Exact table ↔ ∀ row ∈ table, row.Plain := by
  constructor
  · intro hexact row hrow
    exact (hexact.unmistaken h.admitted hrow).plain
  · intro hplain
    refine exact_of_unmistaken h.admitted h.single fun row hrow => ?_
    rcases h.keyed row hrow with hunmistaken | ⟨m, hm, hkey⟩
    · exact hunmistaken
    · exact (hplain row hrow).unmistaken hm hkey

theorem Invariant.of_exact (h : Admitted table) (hexact : Exact table) : Invariant table :=
  ⟨h, hexact.single, fun _ hrow => .inl (hexact.unmistaken h hrow)⟩

theorem plain_apply {event : Event} (h : ∀ row ∈ table, row.Plain) (hevent : PlainEvent event) :
    ∀ row ∈ event.apply d table, row.Plain := by
  cases event with
  | complete handoffId =>
      exact fun row hrow => h row ((complete_sublist handoffId table).subset hrow)
  | reserve new =>
      rcases reserve_cases d new table with hsame | ⟨hadded, -⟩
      · rw [Event.apply, hsame]
        exact h
      · rw [Event.apply, hadded]
        intro row hrow
        rcases List.mem_append.mp hrow with hold | hnew
        · exact h row hold
        · exact List.mem_singleton.mp hnew ▸ hevent

theorem invariant_of_reachable (h : (inboundHandoffs d).ReachableVia Carried table) :
    Invariant table := by
  refine System.ReachableVia.invariant (fun table hinit => ?_) ?_ h
  · exact Invariant.of_exact hinit.1 hinit.2
  · rintro table event table' hinv hcarried rfl
    exact hinv.apply hcarried

/-- **Handoff identity.** In every table that calls reach, when each new reservation carries
the joined text of its identity or no dedupe key, lookups are exact if and only if no row
that stands under the joined text of its identity has a colon in its channel, its session key
or its provider message id. So they are exact along every run whose reservations are plain. -/
theorem inboundHandoffs_exact (d : Doubles) :
    (∀ table, (inboundHandoffs d).ReachableVia Carried table →
      (Exact table ↔ ∀ row ∈ table, row.Plain)) ∧
    (∀ table, (inboundHandoffs d).ReachableVia
      (fun table event => Carried table event ∧ PlainEvent event) table → Exact table) := by
  refine ⟨fun table h => (invariant_of_reachable h).exact_iff, fun table h => ?_⟩
  have hboth : Invariant table ∧ ∀ row ∈ table, row.Plain := by
    refine System.ReachableVia.invariant
      (I := fun table => Invariant table ∧ ∀ row ∈ table, row.Plain) (fun table hinit => ?_) ?_ h
    · have hinv := Invariant.of_exact hinit.1 hinit.2
      exact ⟨hinv, hinv.exact_iff.mp hinit.2⟩
    · rintro table event table' ⟨hinv, hplain⟩ ⟨hcarried, hevent⟩ rfl
      exact ⟨hinv.apply hcarried, plain_apply hplain hevent⟩
  exact hboth.1.exact_iff.mpr hboth.2

/-! ### Two sessions, one joined text -/

/-- The handoff of message `b:c` in session `a`. -/
def handoffOfA : Handoff where
  handoffId := "h1"
  dedupeKey := some "web:a:b:c"
  channel := "web"
  sender := "user"
  chatId := "chat"
  sessionKey := "a"
  content := "hello"
  timestamp := "2026-01-01T00:00:00+00:00"
  mediaJson := "[]"
  metadataJson := .value (.obj [("provider_message_id", .str "b:c")])
  createdAt := "2026-01-01T00:00:00+00:00"

theorem exact_nil : Admitted [] ∧ Exact [] := by
  have hadmitted : Admitted [] := ⟨List.Pairwise.nil, List.Pairwise.nil, fun _ h => nomatch h⟩
  exact ⟨hadmitted, exact_of_unmistaken hadmitted List.Pairwise.nil (fun _ h => nomatch h)⟩

/-- **Another session's handoff.** After one reservation, a lookup of message `c` in session
`a:b` returns the handoff of message `b:c` in session `a`. -/
theorem inboundHandoffs_mistaken :
    ∃ d table, (inboundHandoffs d).ReachableVia Carried table ∧ ¬ Exact table := by
  let d : Doubles := ⟨fun _ _ => false, fun _ _ => false⟩
  have hstep : (inboundHandoffs d).step [] (.reserve handoffOfA) [handoffOfA] := by rfl
  refine ⟨d, [handoffOfA], (System.ReachableVia.init exact_nil).step ?_ hstep, fun hexact => ?_⟩
  · exact .inr ⟨"b:c", by rfl, by rfl⟩
  · obtain ⟨stored, hstored, -, -, hsession, -⟩ :=
      hexact.sound "web" "a:b" "c" handoffOfA (by rfl)
    obtain rfl := List.mem_singleton.mp hstored
    exact absurd hsession (by decide)

end Kirakira.InboundHandoff
