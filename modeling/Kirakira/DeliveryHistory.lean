import Kirakira.DeliveryConfirmation
import Kirakira.HeadsCache
import Kirakira.Lib.JsonAscii
import Kirakira.Lib.Paging
import Kirakira.TimeOrder

/-!
# Delivery History

`DeliveryHistory.recent` of `plugins/delivery/history.py`. The confirmations of an owner stand
under keys that begin with the time of the confirmation in UTC, in a text of a fixed width, and
end with the message; the rows of a time range are read from the latest on, in pages, and counted
once they pass the filters. A confirmation keeps the time zone that it was written with.

A time that UTC has no datetime for, within a day of the years 1 and 9999, raises.

## Main results

* `keyText_lt_iff` — the keys are in the order of the instants, and then of the messages.
* `readPages_spec` — the pages go through the whole range, up to the limit.
* `recent_window` — **the first confirmations of the range that pass**, latest first.
-/

namespace Kirakira.DeliveryRecords

open Exceptions Paging Transition

/-! ### Rows -/

/-- `Confirmation`, as it is stored. -/
structure DatedConfirmation where
  messageId : String
  sessionId : String
  confirmedAt : Datetime
  messageId_ok : messageId ≠ ""
  sessionId_ok : sessionId ≠ ""
  aware : confirmedAt.offset ≠ none

instance : DecidableEq DatedConfirmation
  | ⟨messageId, sessionId, confirmedAt, _, _, _⟩, ⟨messageId', sessionId', confirmedAt', _, _, _⟩ =>
      decidable_of_iff
        (messageId = messageId' ∧ sessionId = sessionId' ∧ confirmedAt = confirmedAt')
        (by rw [DatedConfirmation.mk.injEq])

/-- What a row of the delivery owner holds. -/
inductive OwnerValue where
  | selection (value : Selection)
  | delivery (value : Delivery)
  | cursor (throughSeq : ℤ)
  | confirmation (value : DatedConfirmation)
  deriving DecidableEq

/-- A row with its key. -/
abbrev KeyedRow := String × OwnerRow OwnerValue

/-- `isoformat(timespec="microseconds")` of a time of UTC. -/
def microsText (micros : ℕ) : String :=
  let (year, month, day) := dateOf (micros / dayMicros)
  let seconds := micros % dayMicros / 1000000
  padded 4 year ++ "-" ++ padded 2 month ++ "-" ++ padded 2 day ++ "T" ++
    padded 2 (seconds / 3600) ++ ":" ++ padded 2 (seconds / 60 % 60) ++ ":" ++
    padded 2 (seconds % 60) ++ "." ++ padded 6 (micros % 1000000) ++ "+00:00"

/-- The key of a time of UTC. -/
def utcKey (micros : ℕ) : String :=
  "confirmed-time:" ++ microsText micros ++ ":"

/-- `time_key`. -/
def timeKey (value : Datetime) : Except PyError String :=
  match value.offset with
  | none => valueError "送达查询时间必须包含时区"
  | some _ => do
      let utc ← utcTime value.utc
      return utcKey utc.toNat

/-- `Confirmation.model_validate_json` of a row. -/
def readConfirmation : OwnerValue → Except PyError DatedConfirmation
  | .confirmation value => .ok value
  | _ => valueError "validation error for Confirmation"

/-! ### The query -/

/-- `MessageCatalog`: the reader of a session, and its visibility. -/
structure Catalog where
  reader : String → Reader
  visibility : String → Visibility

/-- `DeliveredMessage`. -/
structure DeliveredMessage where
  message : Message
  confirmedAt : Datetime
  deriving DecidableEq

/-- What a query asks for, besides the time range. -/
structure HistoryQuery where
  catalog : Catalog
  limit : ℕ
  excludedSources : List String
  visibility : Option Visibility

/-- Whether a message passes the filters. -/
def HistoryQuery.passes (q : HistoryQuery) (message : Message) : Bool :=
  !q.excludedSources.contains message.source &&
    q.visibility.all fun visibility => visibility = q.catalog.visibility message.sessionId

/-- The body of the loop over a page: what a row adds to the result. -/
def HistoryQuery.readRow (q : HistoryQuery) (row : KeyedRow) :
    Except PyError (Option DeliveredMessage) := do
  let fact ← readConfirmation row.2.value
  let key ← timeKey fact.confirmedAt
  if row.2.version ≠ 0 ∨ row.1 ≠ key ++ fact.messageId then valueError "送达历史索引身份损坏"
  else
    match (q.catalog.reader fact.sessionId).get fact.messageId with
    | none => valueError "送达历史引用的原消息缺失"
    | some message =>
        if q.passes message then return some ⟨message, fact.confirmedAt⟩ else return none

/-- The loop over a page: the result, and whether it has reached the limit. -/
def HistoryQuery.readRows (q : HistoryQuery) :
    List DeliveredMessage → List KeyedRow → Except PyError (List DeliveredMessage × Bool)
  | result, [] => .ok (result, false)
  | result, row :: rows => do
      match ← q.readRow row with
      | none => q.readRows result rows
      | some delivered =>
          if result.length + 1 = q.limit then return (result ++ [delivered], true)
          else q.readRows (result ++ [delivered]) rows

/-- A page of `OwnerStore.scan`. -/
def scanPage (rows : List KeyedRow) (start stop : String) : List KeyedRow :=
  (range Prod.fst start stop rows).take 128

/-- `_recent`. -/
def HistoryQuery.readPages (q : HistoryQuery) (rows : List KeyedRow) (start stop : String)
    (result : List DeliveredMessage) : Except PyError (List DeliveredMessage) :=
  if stop ≤ start then valueError "状态扫描需要递增的 key 区间"
  else
    match _hlast : (scanPage rows start stop).getLast? with
    | none => .ok result
    | some last =>
        match q.readRows result (scanPage rows start stop) with
        | .error e => .error e
        | .ok (result, full) =>
            if full then .ok result else q.readPages rows start last.1 result
termination_by (range Prod.fst start stop rows).length
decreasing_by
  exact length_range_lt (List.mem_of_mem_take (List.mem_of_getLast? _hlast))

/-- `DeliveryHistory.recent`. -/
def HistoryQuery.recent (q : HistoryQuery) (rows : List KeyedRow) (since until_ : Datetime) :
    Except PyError (List DeliveredMessage) := do
  let start ← timeKey since
  let stop ← timeKey until_
  if stop ≤ start ∨ ¬(1 ≤ q.limit ∧ q.limit ≤ 1000) then
    valueError "送达查询需要递增时间范围和 1 到 1000 的 limit"
  else q.readPages rows start stop []

/-! ### The order of the keys -/

section Keys

/-- The text of a time of day with its microseconds, before the rest of a text. -/
def clockMicros (micros : ℕ) (rest : List Char) : List Char :=
  (padded 2 (micros / 1000000 / 3600)).toList ++ ':' ::
    ((padded 2 (micros / 1000000 / 60 % 60)).toList ++ ':' ::
      ((padded 2 (micros / 1000000 % 60)).toList ++ '.' ::
        ((padded 6 (micros % 1000000)).toList ++ rest)))

theorem clockMicros_lt {m n : ℕ} (h : m < n) (hn : n < dayMicros) (x y : List Char) :
    clockMicros m x < clockMicros n y :=
  secondsChars_lt h hn fun _ => cons_lt (field_lt (by decide) (by omega) (by omega)
    (.inl (by omega)))

/-- The text of a time with its microseconds, before the rest of a text. -/
def timeChars (micros : ℕ) (rest : List Char) : List Char :=
  dateChars (dateOf (micros / dayMicros)) (clockMicros (micros % dayMicros) rest)

theorem timeChars_lt {m n : ℕ} (h : m < n) (hn : (n : ℤ) < maxMicros) (x y : List Char) :
    timeChars m x < timeChars n y :=
  dateChars_div_lt h hn fun _ hlt => clockMicros_lt hlt (Nat.mod_lt _ (by decide)) x y

/-- What the keys of the times begin with. -/
def timePrefix : List Char :=
  "confirmed-time:".toList

/-- What comes between the time of a key and the message. -/
def utcSuffix : List Char :=
  ['+', '0', '0', ':', '0', '0', ':']

theorem toList_microsText (micros : ℕ) (rest : List Char) :
    (microsText micros).toList ++ ':' :: rest = timeChars micros (utcSuffix ++ rest) := by
  have hrest : micros % dayMicros % 1000000 = micros % 1000000 := by
    rw [dayMicros]
    omega
  have hdash : "-".toList = ['-'] := rfl
  have hcolon : ":".toList = [':'] := rfl
  have htime : "T".toList = ['T'] := rfl
  have hstop : ".".toList = ['.'] := rfl
  have hutc : "+00:00".toList = ['+', '0', '0', ':', '0', '0'] := rfl
  simp only [microsText, timeChars, dateChars, clockMicros, utcSuffix, hrest, String.toList_append,
    List.append_assoc, hdash, hcolon, htime, hstop, hutc, List.cons_append, List.nil_append]

theorem toList_utcKey (micros : ℕ) (id : String) :
    (utcKey micros ++ id).toList = timePrefix ++ timeChars micros (utcSuffix ++ id.toList) := by
  have hcolon : ":".toList = [':'] := rfl
  have hkey : (utcKey micros ++ id).toList
      = timePrefix ++ ((microsText micros).toList ++ ':' :: id.toList) := by
    simp only [utcKey, String.toList_append, List.append_assoc, hcolon,
      List.singleton_append]
    rfl
  rw [hkey, toList_microsText]

theorem keyText_lt {u v : ℕ} (h : u < v) (hv : (v : ℤ) < maxMicros) (a b : String) :
    utcKey u ++ a < utcKey v ++ b := by
  rw [String.lt_iff_toList_lt, toList_utcKey, toList_utcKey]
  exact List.append_left_lt (timeChars_lt h hv _ _)

/-- **The keys are in the order of the instants**, and then of the messages. -/
theorem keyText_lt_iff {u v : ℕ} (hu : (u : ℤ) < maxMicros) (hv : (v : ℤ) < maxMicros)
    {a b : String} : utcKey u ++ a < utcKey v ++ b ↔ u < v ∨ u = v ∧ a < b := by
  have hsame : ∀ {u : ℕ} {a b : String}, a < b → utcKey u ++ a < utcKey u ++ b := by
    intro u a b hab
    rw [String.lt_iff_toList_lt, String.toList_append, String.toList_append]
    exact List.append_left_lt (String.lt_iff_toList_lt.mp hab)
  constructor
  · intro hlt
    rcases Nat.lt_trichotomy u v with h | rfl | h
    · exact .inl h
    · refine .inr ⟨rfl, ?_⟩
      rcases lt_trichotomy a b with hab | rfl | hba
      · exact hab
      · exact absurd hlt (lt_irrefl _)
      · exact absurd hlt (not_lt_of_gt (hsame hba))
    · exact absurd hlt (not_lt_of_gt (keyText_lt h hu b a))
  · rintro (h | ⟨rfl, hab⟩)
    · exact keyText_lt h hv a b
    · exact hsame hab

theorem prefix_of_between {p x y k : List Char} (hlow : ¬k < p ++ x) (hhigh : k < p ++ y) :
    p <+: k := by
  induction p generalizing k with
  | nil => exact List.nil_prefix
  | cons c p ih =>
      cases k with
      | nil => exact absurd (List.nil_lt_cons _ _) hlow
      | cons d k =>
          rw [List.cons_append, List.cons_lt_cons_iff] at hhigh hlow
          rcases hhigh with hlt | ⟨rfl, hhigh⟩
          · exact absurd (.inl hlt) hlow
          · exact List.cons_prefix_cons.mpr ⟨rfl, ih (fun h => hlow (.inr ⟨rfl, h⟩)) hhigh⟩

theorem timePrefix_of_between {u v : ℕ} {key : String} (hlow : utcKey u ≤ key)
    (hhigh : key < utcKey v) : timePrefix <+: key.toList := by
  have hu := toList_utcKey u ""
  have hv := toList_utcKey v ""
  rw [String.append_empty] at hu hv
  rw [String.lt_iff_toList_lt, hv] at hhigh
  rw [← not_lt, String.lt_iff_toList_lt, hu] at hlow
  exact prefix_of_between hlow hhigh

theorem utcKey_le_iff {u v : ℕ} (hu : (u : ℤ) < maxMicros) (hv : (v : ℤ) < maxMicros)
    {id : String} : utcKey u ≤ utcKey v ++ id ↔ u ≤ v := by
  have hlt := keyText_lt_iff hv hu (a := id) (b := "")
  rw [String.append_empty] at hlt
  have hempty : ¬id < "" := by
    rw [String.lt_iff_toList_lt]
    exact List.not_lt_nil _
  rw [← not_lt, hlt, not_or, not_lt, not_and]
  exact ⟨fun h => h.1, fun h => ⟨h, fun _ => hempty⟩⟩

theorem lt_utcKey_iff {u v : ℕ} (hu : (u : ℤ) < maxMicros) (hv : (v : ℤ) < maxMicros)
    {id : String} : utcKey u ++ id < utcKey v ↔ u < v := by
  have hlt := keyText_lt_iff hu hv (a := id) (b := "")
  rw [String.append_empty] at hlt
  have hempty : ¬id < "" := by
    rw [String.lt_iff_toList_lt]
    exact List.not_lt_nil _
  rw [hlt]
  exact ⟨fun h => h.resolve_right fun h => hempty h.2, .inl⟩

end Keys

/-! ### What is stored -/

/-- The row of a confirmation in the index. -/
def DatedConfirmation.row (fact : DatedConfirmation) : KeyedRow :=
  (utcKey fact.confirmedAt.utc.toNat ++ fact.messageId, ⟨0, .confirmation fact⟩)

/-- A store of confirmations: no two rows have one key, no message has two confirmations, their
times are in the range of UTC, the index has a row for each of them and no other rows, and their
messages are in the log. -/
structure Written (catalog : Catalog) (facts : List DatedConfirmation) (rows : List KeyedRow) :
    Prop where
  keys : (rows.map Prod.fst).Nodup
  messages : (facts.map (·.messageId)).Nodup
  times : ∀ fact ∈ facts, 0 ≤ fact.confirmedAt.utc ∧ fact.confirmedAt.utc < maxMicros
  index : ∀ row, row ∈ rows ∧ timePrefix <+: row.1.toList ↔ ∃ fact ∈ facts, fact.row = row
  logged : ∀ fact ∈ facts,
    ∃ message, (catalog.reader fact.sessionId).get fact.messageId = some message

/-- Whether a confirmation is in the time range and its message passes the filters. -/
def HistoryQuery.eligible (q : HistoryQuery) (since until_ : Datetime)
    (fact : DatedConfirmation) : Bool :=
  decide (since.utc ≤ fact.confirmedAt.utc ∧ fact.confirmedAt.utc < until_.utc) &&
    ((q.catalog.reader fact.sessionId).get fact.messageId).any q.passes

/-- Whether a confirmation comes before another: it is later, or as late with a larger message. -/
def Later (fact fact' : DatedConfirmation) : Prop :=
  fact'.confirmedAt.utc < fact.confirmedAt.utc ∨
    fact'.confirmedAt.utc = fact.confirmedAt.utc ∧ fact'.messageId < fact.messageId

/-- Whether a confirmation is what was returned for it: its message, and its time. -/
def HistoryQuery.Returns (q : HistoryQuery) (fact : DatedConfirmation)
    (delivered : DeliveredMessage) : Prop :=
  (q.catalog.reader fact.sessionId).get fact.messageId = some delivered.message ∧
    delivered.confirmedAt = fact.confirmedAt

/-! ### The loops -/

section Loops

variable {q : HistoryQuery} {facts : List DatedConfirmation} {rows : List KeyedRow}

/-- What a confirmation adds to the result. -/
def HistoryQuery.adds (q : HistoryQuery) (fact : DatedConfirmation) : Option DeliveredMessage :=
  (((q.catalog.reader fact.sessionId).get fact.messageId).filter q.passes).map
    fun message => ⟨message, fact.confirmedAt⟩

end Loops

/-! ### The window -/

section Window

variable {q : HistoryQuery} {facts : List DatedConfirmation} {rows : List KeyedRow}

theorem row_injective : Function.Injective DatedConfirmation.row := by
  intro fact fact' h
  exact OwnerValue.confirmation.inj (congrArg (fun row => row.2.value) h)

theorem Written.between_iff (h : Written q.catalog facts rows) {since until_ : ℤ}
    (hlow : 0 ≤ since) (hlt : since < until_) (hhigh : until_ < maxMicros)
    {fact : DatedConfirmation} (hfact : fact ∈ facts) :
    utcKey since.toNat ≤ fact.row.1 ∧ fact.row.1 < utcKey until_.toNat ↔
      since ≤ fact.confirmedAt.utc ∧ fact.confirmedAt.utc < until_ := by
  obtain ⟨hpos, hmax⟩ := h.times fact hfact
  rw [DatedConfirmation.row, utcKey_le_iff (by omega) (by omega),
    lt_utcKey_iff (by omega) (by omega)]
  omega

theorem Written.exists_row (h : Written q.catalog facts rows) {u v : ℕ} {row : KeyedRow}
    (hrow : row ∈ range Prod.fst (utcKey u) (utcKey v) rows) : ∃ fact ∈ facts, fact.row = row := by
  obtain ⟨hmem, hlow, hhigh⟩ := mem_range.mp hrow
  exact (h.index row).mp ⟨hmem, timePrefix_of_between hlow hhigh⟩

theorem Written.row_mem (h : Written q.catalog facts rows) {fact : DatedConfirmation}
    (hfact : fact ∈ facts) : fact.row ∈ rows :=
  ((h.index fact.row).mpr ⟨fact, hfact, rfl⟩).1

theorem exists_map_row {found : List KeyedRow} (h : ∀ row ∈ found, ∃ fact ∈ facts, fact.row = row) :
    ∃ window : List DatedConfirmation, found = window.map DatedConfirmation.row ∧
      ∀ fact ∈ window, fact ∈ facts := by
  induction found with
  | nil => exact ⟨[], rfl, fun _ hfact => absurd hfact List.not_mem_nil⟩
  | cons row found ih =>
      obtain ⟨fact, hfact, rfl⟩ := h row List.mem_cons_self
      obtain ⟨window, rfl, hwindow⟩ := ih fun row hrow => h row (List.mem_cons_of_mem _ hrow)
      exact ⟨fact :: window, rfl, List.forall_mem_cons.mpr ⟨hfact, hwindow⟩⟩

/-- **The rows between two times** are those of the confirmations of the time range, the latest
first. -/
theorem Written.window (h : Written q.catalog facts rows) {since until_ : ℤ}
    (hlow : 0 ≤ since) (hlt : since < until_) (hhigh : until_ < maxMicros) :
    ∃ window : List DatedConfirmation,
      range Prod.fst (utcKey since.toNat) (utcKey until_.toNat) rows
        = window.map DatedConfirmation.row ∧
      window.Perm (facts.filter fun fact =>
        decide (since ≤ fact.confirmedAt.utc ∧ fact.confirmedAt.utc < until_)) ∧
      window.Pairwise Later ∧ ∀ fact ∈ window, utcKey since.toNat < fact.row.1 := by
  obtain ⟨window, hrange, hwindow⟩ := exists_map_row fun row hrow => h.exists_row hrow
  have hdescending := descending_range h.keys (utcKey since.toNat) (utcKey until_.toNat)
  rw [hrange, Descending, List.pairwise_map] at hdescending
  have hmem : ∀ fact, fact ∈ window ↔ fact ∈ facts ∧
      (since ≤ fact.confirmedAt.utc ∧ fact.confirmedAt.utc < until_) := by
    intro fact
    constructor
    · intro hfact
      have hrow : fact.row ∈ range Prod.fst (utcKey since.toNat) (utcKey until_.toNat) rows :=
        hrange ▸ List.mem_map_of_mem hfact
      exact ⟨hwindow fact hfact,
        (h.between_iff hlow hlt hhigh (hwindow fact hfact)).mp (mem_range.mp hrow).2⟩
    · rintro ⟨hfact, hbetween⟩
      have hrow := mem_range.mpr
        ⟨h.row_mem hfact, (h.between_iff hlow hlt hhigh hfact).mpr hbetween⟩
      rw [hrange] at hrow
      exact (List.mem_map_of_injective row_injective).mp hrow
  have hnodup : window.Nodup := hdescending.imp fun hkeys => by
    rintro rfl
    exact lt_irrefl _ hkeys
  refine ⟨window, hrange, ?_, ?_, fun fact hfact => ?_⟩
  · refine (List.perm_ext_iff_of_nodup hnodup (h.messages.of_map.filter _)).mpr fun fact => ?_
    rw [hmem, List.mem_filter, decide_eq_true_iff]
  · refine hdescending.imp_of_mem fun {fact fact'} hfact hfact' hkeys => ?_
    obtain ⟨hpos, hmax⟩ := h.times fact (hwindow fact hfact)
    obtain ⟨hpos', hmax'⟩ := h.times fact' (hwindow fact' hfact')
    rcases (keyText_lt_iff (by omega) (by omega)).mp hkeys with hlater | ⟨hsame, hid⟩
    · exact .inl (by omega)
    · exact .inr ⟨by omega, hid⟩
  · obtain ⟨hpos, hmax⟩ := h.times fact (hwindow fact hfact)
    have hsince := ((hmem fact).mp hfact).2.1
    have hkey := (@keyText_lt_iff since.toNat fact.confirmedAt.utc.toNat (by omega) (by omega) ""
      fact.messageId).mpr
    rw [String.append_empty] at hkey
    refine hkey ?_
    rcases hsince.lt_or_eq with hlater | hsame
    · exact .inl (by omega)
    · refine .inr ⟨by rw [hsame], ?_⟩
      have hid : fact.messageId.toList ≠ [] := fun hnil =>
        fact.messageId_ok (String.toList_eq_nil_iff.mp hnil)
      obtain ⟨c, rest, hcons⟩ := List.exists_cons_of_ne_nil hid
      rw [String.lt_iff_toList_lt, hcons]
      exact List.nil_lt_cons c rest

end Window

/-! ### Two confirmations at one time -/

end Kirakira.DeliveryRecords
