import Kirakira.Contract
import Kirakira.Lib.Coroutine
import Kirakira.Lib.Exceptions

/-!
# Tool Receipts

What `plugins/tools/execution.py` and `plugins/tools/abandon.py` keep of one effect key: the
owner record that is the receipt of the call, and the message that is its result. Every
function here is one transaction or one read of the store; the programs that call them, with
what may happen in between, are in `ToolCalls`.

A receipt moves from `requested` over `prepared` and `started` to `done`, by saves that
compare its version. Every writer writes format version `1`, which is left out.

## Main results

* `Evolves.trans`, `Evolves.save`, `evolves_finish` — the one way a receipt changes: to a
  later version of a later phase, with the arguments it was prepared with, until it is done.
* `finish_eq_ok` — what the commit of a result leaves.
-/

namespace Kirakira

namespace Tools

/-! ### Values -/

/-- `Result`: the outcome of a call and its content. -/
structure Result where
  outcome : Outcome
  parts : List ContentPart
  deriving DecidableEq

/-- A text part. -/
def textPart (text : String) : ContentPart :=
  ⟨"text", ⟨.str text, text_canonical text⟩, textKind_ok⟩

/-- A result with one text. -/
def textResult (outcome : Outcome) (text : String) : Result :=
  ⟨outcome, [textPart text]⟩

/-- The exceptions of the tool programs. `invocation` is `_Failed`, which carries the result
to commit and the original exception; `failed` is any other class. -/
inductive Raised where
  | cancelled
  | conflict (text : String)
  | denied (text : String)
  | invalidArguments (text : String)
  | failed (name text : String)
  | invocation (result : Result) (original : Raised)

/-- `type(failure).__name__`. -/
def Raised.name : Raised → String
  | .cancelled => "CancelledError"
  | .conflict _ => "MessageConflict"
  | .denied _ => "Denied"
  | .invalidArguments _ => "InvalidArguments"
  | .failed name _ => name
  | .invocation _ _ => "_Failed"

/-- `raise ValueError(text)`. -/
def Raised.value (text : String) : Raised :=
  .failed "ValueError" text

/-- The phase of a receipt, in order. -/
inductive Phase where
  | requested
  | prepared
  | started
  | done
  deriving DecidableEq, Repr

/-- The position of a phase. -/
def Phase.rank : Phase → ℕ
  | .requested => 0
  | .prepared => 1
  | .started => 2
  | .done => 3

/-- The result a receipt keeps: the value itself for an independent program, a pointer to
the message for a call of a message. -/
inductive Saved where
  | value (result : Result)
  | message (messageId : String) (seq : ℕ)
  deriving DecidableEq

/-- The value of a receipt. -/
structure Receipt where
  request : String
  binding : String
  replyId : Option String
  phase : Phase
  arguments : FrozenJson
  permission : Option FrozenJson
  result : Option Saved
  deriving DecidableEq

/-- An owner record that holds a receipt. -/
structure Record where
  version : ℕ
  value : Receipt
  deriving DecidableEq

/-- The committed `ToolResult` of the call: its message, its position and its result. -/
structure Answer where
  messageId : String
  seq : ℕ
  result : Result
  deriving DecidableEq

/-- What is stored about one key: the receipt, the result message of its call, the message
identities that other messages of the log have taken, and the next number of the session. -/
structure Store where
  receipt : Option Record
  answer : Option Answer
  taken : List String
  nextSeq : ℕ

/-! ### Transactions and reads -/

/-- `transaction.save`. -/
def Store.save (store : Store) (value : Receipt) (expectedVersion : Option ℕ) :
    Except Raised (Record × Store) :=
  match store.receipt, expectedVersion with
  | none, none => .ok (⟨0, value⟩, { store with receipt := some ⟨0, value⟩ })
  | some record, some version =>
      if record.version = version then
        .ok (⟨version + 1, value⟩, { store with receipt := some ⟨version + 1, value⟩ })
      else .error (.conflict "owner 记录版本已变化")
  | _, _ => .error (.conflict "owner 记录版本已变化")

/-- `transaction.append_prepared` of a `ToolResult` of the call. The same message again is
what is stored already; the identity of another message, or a second result of the call, is a
conflict. -/
def Store.append (store : Store) (messageId : String) (result : Result) :
    Except Raised (Answer × Store) :=
  match store.answer with
  | some answer =>
      if answer.messageId = messageId ∧ answer.result = result then .ok (answer, store)
      else .error (.conflict "该工具调用已经有结果消息")
  | none =>
      if messageId ∈ store.taken then .error (.conflict "message_id 已用于其他内容")
      else
        let answer : Answer := ⟨messageId, store.nextSeq, result⟩
        .ok (answer, { store with answer := some answer, nextSeq := store.nextSeq + 1 })

/-- The save of a start intent. -/
def saveStart (record : Record) (permission : FrozenJson) (store : Store) :
    Except Raised (Record × Store) :=
  store.save { record.value with phase := .started, permission := some permission }
    (some record.version)

/-- `MessageReply.read`: the result a pointer leads to. -/
def Store.readReply (store : Store) (messageId : String) (saved : Option Saved) :
    Except Raised Result :=
  match saved with
  | some (.message id seq) =>
      if id ≠ messageId then .error (.value "工具结果指针不匹配")
      else
        match store.answer with
        | some answer =>
            if answer.messageId = messageId ∧ answer.seq = seq then .ok answer.result
            else .error (.value "工具结果消息缺失")
        | none => .error (.value "工具结果消息缺失")
  | _ => .error (.value "工具结果指针损坏")

/-- `_read_result`. -/
def readResult : Option Saved → Except Raised Result
  | some (.value result) => .ok result
  | _ => .error (.value "工具结果回执损坏")

/-- The result of a receipt that is done. -/
def Store.resultOf (store : Store) (reply : Option String) (saved : Option Saved) :
    Except Raised Result :=
  match reply with
  | none => readResult saved
  | some messageId => store.readReply messageId saved

/-- `existing_result`: the result under the default identity. -/
def Store.existingResult (store : Store) (messageId : String) : Except Raised (Option Result) :=
  match store.answer with
  | some answer =>
      if answer.messageId = messageId then .ok (some answer.result)
      else if messageId ∈ store.taken then .error (.value "工具结果不属于原调用")
      else .ok none
  | none =>
      if messageId ∈ store.taken then .error (.value "工具结果不属于原调用") else .ok none

/-- The text of a request that does not match the receipt. -/
def differentRequest : Raised :=
  .value "同一工具 key 的 binding 或参数不一致"

/-- `_record`: the receipt, for this request. -/
def Store.record (store : Store) (fingerprint : String) : Except Raised (Option Record) :=
  match store.receipt with
  | none => .ok none
  | some record =>
      if record.value.request ≠ fingerprint then .error differentRequest else .ok (some record)

/-- `completed` of `finish`: the result of the receipt, once it is done. -/
def Store.completed (store : Store) (value : Receipt) (reply : Option String) :
    Except Raised (Option Result) :=
  match store.receipt with
  | none => .ok none
  | some current =>
      if current.value.phase ≠ .done then .ok none
      else if current.value.request ≠ value.request then .error differentRequest
      else
        match store.resultOf reply current.value.result with
        | .ok result => .ok (some result)
        | .error e => .error e

/-- What `finish` saves: the value itself, or the message it appends and a pointer to it. -/
def Store.saveResult (store : Store) (result : Result) (reply : Option String) :
    Except Raised (Saved × Store) :=
  match reply with
  | none => .ok (.value result, store)
  | some messageId =>
      match store.append messageId result with
      | .error e => .error e
      | .ok (answer, store) => .ok (.message answer.messageId answer.seq, store)

/-- The transaction of `finish`: the result and the receipt at once. A receipt that is done
already keeps its result. -/
def Store.finish (store : Store) (value : Receipt) (result : Result) (reply : Option String) :
    Except Raised (Result × Store) :=
  match store.receipt with
  | some current =>
      if current.value.phase = .done then
        if current.value.request ≠ value.request then .error differentRequest
        else
          match store.resultOf reply current.value.result with
          | .error e => .error e
          | .ok previous => .ok (previous, store)
      else
        match store.saveResult result reply with
        | .error e => .error e
        | .ok (saved, store) =>
            if current.value.request ≠ value.request then .error differentRequest
            else
              match store.save { current.value with phase := .done, result := some saved }
                (some current.version) with
              | .error e => .error e
              | .ok (_, store) => .ok (result, store)
  | none =>
      match store.saveResult result reply with
      | .error e => .error e
      | .ok (saved, store) =>
          match store.save { value with phase := .done, result := some saved } none with
          | .error e => .error e
          | .ok (_, store) => .ok (result, store)

/-- The transaction of `commit_message`: only the message. -/
def Store.commitMessage (store : Store) (messageId : String) (result : Result) :
    Except Raised (Result × Store) :=
  match store.append messageId result with
  | .error e => .error e
  | .ok (_, store) => .ok (result, store)

/-! ### How a receipt changes -/

/-- A receipt, and what may have become of it: a later version in the same or a later phase,
with the same arguments once it was prepared; nothing else once it is done. -/
def Evolves : Option Record → Option Record → Prop
  | none, _ => True
  | some _, none => False
  | some a, some b => a = b ∨ a.version < b.version ∧ a.value.phase ≠ .done ∧
      a.value.phase.rank ≤ b.value.phase.rank ∧
      (a.value.phase ≠ .requested → b.value.arguments = a.value.arguments)

theorem Evolves.refl (a : Option Record) : Evolves a a := by
  cases a with
  | none => trivial
  | some a => exact .inl rfl

theorem Phase.ne_requested_of_le {p q : Phase} (h : p.rank ≤ q.rank) (hp : p ≠ .requested) :
    q ≠ .requested := by
  rintro rfl
  cases p
  · exact hp rfl
  all_goals simp [Phase.rank] at h

theorem Evolves.trans {a b c : Option Record} (hab : Evolves a b) (hbc : Evolves b c) :
    Evolves a c := by
  cases a with
  | none => trivial
  | some a =>
      cases b with
      | none => exact hab.elim
      | some b =>
          cases c with
          | none => exact hbc.elim
          | some c =>
              rcases hab with rfl | ⟨hlt, hopen, hle, hargs⟩
              · exact hbc
              · rcases hbc with rfl | ⟨hlt', hopen', hle', hargs'⟩
                · exact .inr ⟨hlt, hopen, hle, hargs⟩
                · refine .inr ⟨hlt.trans hlt', hopen, hle.trans hle', fun hprepared => ?_⟩
                  rw [hargs' (Phase.ne_requested_of_le hle hprepared), hargs hprepared]

theorem Evolves.eq_of_done {a : Record} {b : Option Record} (h : Evolves (some a) b)
    (hdone : a.value.phase = .done) : b = some a := by
  cases b with
  | none => exact h.elim
  | some b =>
      rcases h with rfl | ⟨-, hopen, -⟩
      · rfl
      · exact absurd hdone hopen

theorem Evolves.eq_of_version {a b : Record} (h : Evolves (some a) (some b))
    (hversion : b.version = a.version) : b = a := by
  rcases h with rfl | ⟨hlt, -⟩
  · rfl
  · omega

variable {store store' : Store} {value : Receipt} {result : Result} {reply : Option String}

theorem save_eq_ok {expected : Option ℕ} {record : Record}
    (h : store.save value expected = .ok (record, store')) :
    record.value = value ∧ store' = { store with receipt := some record } ∧
      (store.receipt = none ∧ expected = none ∨
        ∃ old, store.receipt = some old ∧ expected = some old.version ∧
          record.version = old.version + 1) := by
  rw [Store.save.eq_def] at h
  cases hreceipt : store.receipt with
  | none =>
      cases expected with
      | none =>
          rw [hreceipt] at h
          obtain ⟨rfl, rfl⟩ := Prod.mk.inj (Except.ok.inj h)
          exact ⟨rfl, rfl, .inl ⟨rfl, rfl⟩⟩
      | some version => rw [hreceipt] at h; cases h
  | some old =>
      cases expected with
      | none => rw [hreceipt] at h; cases h
      | some version =>
          rw [hreceipt] at h
          dsimp only at h
          obtain ⟨hversion, h⟩ | ⟨-, ⟨⟩⟩ := ite_eq_iff.mp h
          obtain ⟨rfl, rfl⟩ := Prod.mk.inj (Except.ok.inj h)
          exact ⟨rfl, rfl, .inr ⟨old, rfl, by rw [hversion], by rw [hversion]⟩⟩

variable {saved : Record} {returned : Result}

theorem Evolves.save {record : Option Record} (h : Evolves record store.receipt)
    (hsave : store.save value (record.map Record.version) = .ok (saved, store')) :
    store.receipt = record ∧ saved.value = value ∧ store' = { store with receipt := some saved } ∧
      ∀ old, record = some old → old.version < saved.version := by
  obtain ⟨hvalue, rfl, ⟨hnone, hexpected⟩ | ⟨old, hold, hexpected, hversion⟩⟩ := save_eq_ok hsave
  · cases record with
    | none => exact ⟨hnone, hvalue, rfl, fun _ h => nomatch h⟩
    | some record => cases hexpected
  · cases record with
    | none => cases hexpected
    | some record =>
        rw [hold] at h
        obtain rfl : old = record := h.eq_of_version (Option.some.inj hexpected).symm
        exact ⟨hold, hvalue, rfl, fun other h => Option.some.inj h ▸ by omega⟩

theorem Evolves.prepared {record : Option Record} (h : Evolves record store.receipt)
    (hrequested : ∀ old, record = some old → old.value.phase = .requested)
    (hsave : store.save value (record.map Record.version) = .ok (saved, store')) :
    Evolves store.receipt store'.receipt := by
  obtain ⟨hreceipt, -, rfl, hversion⟩ := h.save hsave
  rw [hreceipt]
  cases record with
  | none => trivial
  | some old =>
      have hphase := hrequested old rfl
      refine .inr ⟨hversion old rfl, ?_, ?_, fun hprepared => absurd hphase hprepared⟩
      · rw [hphase]
        exact nofun
      · rw [hphase]
        exact Nat.zero_le _

theorem Evolves.started {record : Record} {permission : FrozenJson}
    (h : Evolves (some record) store.receipt) (hopen : record.value.phase ≠ .done)
    (hsave : saveStart record permission store = .ok (saved, store')) :
    store.receipt = some record ∧
      saved.value = { record.value with phase := .started, permission := some permission } ∧
      store' = { store with receipt := some saved } ∧
      Evolves store.receipt store'.receipt := by
  have hsave : store.save { record.value with phase := .started, permission := some permission }
      ((some record).map Record.version) = .ok (saved, store') := hsave
  obtain ⟨hreceipt, hvalue, rfl, hversion⟩ := h.save hsave
  refine ⟨hreceipt, hvalue, rfl, ?_⟩
  rw [hreceipt]
  refine .inr ⟨hversion record rfl, hopen, ?_, fun _ => by rw [hvalue]⟩
  rw [hvalue]
  cases hphase : record.value.phase with
  | done => exact absurd hphase hopen
  | _ => simp [Phase.rank]

theorem append_eq_ok {messageId : String} {answer : Answer}
    (h : store.append messageId result = .ok (answer, store')) :
    answer.messageId = messageId ∧ answer.result = result ∧ store'.answer = some answer ∧
      store'.receipt = store.receipt ∧ (store.answer = none ∨ store.answer = some answer) := by
  rw [Store.append] at h
  split at h
  · next old hold =>
      obtain ⟨hsame, h⟩ | ⟨-, ⟨⟩⟩ := ite_eq_iff.mp h
      obtain ⟨rfl, rfl⟩ := Prod.mk.inj (Except.ok.inj h)
      exact ⟨hsame.1, hsame.2, hold, rfl, .inr hold⟩
  · next hnone =>
      split at h
      · cases h
      · obtain ⟨rfl, rfl⟩ := Prod.mk.inj (Except.ok.inj h)
        exact ⟨rfl, rfl, rfl, rfl, .inl hnone⟩

/-- The result as it was saved: the value itself, or a message of the call that is there
now and was not another one before. -/
def SavedAs (store store' : Store) (result : Result) (saved : Saved) : Option String → Prop
  | none => saved = .value result ∧ store'.answer = store.answer
  | some messageId => ∃ answer, saved = .message answer.messageId answer.seq ∧
      answer.messageId = messageId ∧ answer.result = result ∧ store'.answer = some answer ∧
        (store.answer = none ∨ store.answer = some answer)

theorem saveResult_eq_ok {saved : Saved} (h : store.saveResult result reply = .ok (saved, store')) :
    SavedAs store store' result saved reply ∧ store'.receipt = store.receipt := by
  cases reply with
  | none =>
      obtain ⟨rfl, rfl⟩ := Prod.mk.inj (Except.ok.inj h)
      exact ⟨⟨rfl, rfl⟩, rfl⟩
  | some messageId =>
      rw [Store.saveResult] at h
      split at h
      · cases h
      · next answer store₁ happend =>
          obtain ⟨rfl, rfl⟩ := Prod.mk.inj (Except.ok.inj h)
          obtain ⟨hid, hresult, hanswer, hreceipt, hbefore⟩ := append_eq_ok happend
          exact ⟨⟨answer, rfl, hid, hresult, hanswer, hbefore⟩, hreceipt⟩

/-- The commit of a result finds a receipt that is done, or completes one. -/
inductive Finished (store store' : Store) (value : Receipt) (result : Result)
    (reply : Option String) (returned : Result) : Prop
  | already (current : Record) (hreceipt : store.receipt = some current)
      (hdone : current.value.phase = .done)
      (hresult : store.resultOf reply current.value.result = .ok returned)
      (hstore : store' = store)
  | completed (record : Record) (saved : Saved) (hreturned : returned = result)
      (hreceipt : store'.receipt = some record) (hdone : record.value.phase = .done)
      (hresult : record.value.result = some saved) (hsaved : SavedAs store store' result saved reply)
      (hbefore : store.receipt = none ∧ record.value.replyId = value.replyId ∨
        ∃ current, store.receipt = some current ∧ current.value.phase ≠ .done ∧
          record.version = current.version + 1 ∧
          record.value.arguments = current.value.arguments ∧
          record.value.replyId = current.value.replyId)

/-- **What the commit of a result has done.** -/
theorem finish_eq_ok (h : store.finish value result reply = .ok (returned, store')) :
    Finished store store' value result reply returned := by
  rw [Store.finish] at h
  split at h
  · next current hcurrent =>
      split at h
      · next hdone =>
          split at h
          · cases h
          · split at h
            · cases h
            · next previous hprevious =>
                obtain ⟨rfl, rfl⟩ := Prod.mk.inj (Except.ok.inj h)
                exact .already current hcurrent hdone hprevious rfl
      · next hopen =>
          split at h
          · cases h
          · next saved store₁ hsave =>
              obtain ⟨hsaved, hkept⟩ := saveResult_eq_ok hsave
              split at h
              · cases h
              · split at h
                · cases h
                · next record store₂ hrecord =>
                    obtain ⟨rfl, rfl⟩ := Prod.mk.inj (Except.ok.inj h)
                    obtain ⟨hvalue, hstore, hversion⟩ := save_eq_ok hrecord
                    rw [hkept, hcurrent] at hversion
                    obtain ⟨hnone, -⟩ | ⟨old, hold, -, hversion⟩ := hversion
                    · cases hnone
                    obtain rfl := Option.some.inj hold
                    refine .completed record saved rfl (by rw [hstore]) (by rw [hvalue])
                      (by rw [hvalue]) ?_
                      (.inr ⟨current, hcurrent, hopen, hversion, by rw [hvalue], by rw [hvalue]⟩)
                    cases reply with
                    | none => exact ⟨hsaved.1, by rw [hstore]; exact hsaved.2⟩
                    | some messageId =>
                        obtain ⟨answer, hs, hid, hr, ha, hb⟩ := hsaved
                        exact ⟨answer, hs, hid, hr, by rw [hstore]; exact ha, hb⟩
  · next hnone =>
      split at h
      · cases h
      · next saved store₁ hsave =>
          obtain ⟨hsaved, hkept⟩ := saveResult_eq_ok hsave
          split at h
          · cases h
          · next record store₂ hrecord =>
              obtain ⟨rfl, rfl⟩ := Prod.mk.inj (Except.ok.inj h)
              obtain ⟨hvalue, hstore, -⟩ := save_eq_ok hrecord
              refine .completed record saved rfl (by rw [hstore]) (by rw [hvalue])
                (by rw [hvalue]) ?_ (.inl ⟨hnone, by rw [hvalue]⟩)
              cases reply with
              | none => exact ⟨hsaved.1, by rw [hstore]; exact hsaved.2⟩
              | some messageId =>
                  obtain ⟨answer, hs, hid, hr, ha, hb⟩ := hsaved
                  exact ⟨answer, hs, hid, hr, by rw [hstore]; exact ha, hb⟩

theorem evolves_finish (h : store.finish value result reply = .ok (returned, store')) :
    Evolves store.receipt store'.receipt := by
  cases finish_eq_ok h with
  | already _ _ _ _ hstore => rw [hstore]; exact .refl _
  | completed record saved _ hreceipt hdone _ _ hbefore =>
      rcases hbefore with ⟨hnone, -⟩ | ⟨current, hcurrent, hopen, hversion, hargs, -⟩
      · rw [hnone]
        trivial
      · rw [hcurrent, hreceipt]
        refine .inr ⟨by omega, hopen, ?_, fun _ => hargs⟩
        rw [hdone]
        cases current.value.phase <;> simp [Phase.rank]

theorem commitMessage_eq_ok {messageId : String}
    (h : store.commitMessage messageId result = .ok (returned, store')) :
    returned = result ∧ store'.receipt = store.receipt ∧ ∃ answer, answer.messageId = messageId ∧
      answer.result = result ∧ store'.answer = some answer ∧
        (store.answer = none ∨ store.answer = some answer) := by
  rw [Store.commitMessage] at h
  split at h
  · cases h
  · next answer store₁ happend =>
      obtain ⟨rfl, rfl⟩ := Prod.mk.inj (Except.ok.inj h)
      obtain ⟨hid, hresult, hanswer, hreceipt, hbefore⟩ := append_eq_ok happend
      exact ⟨rfl, hreceipt, answer, hid, hresult, hanswer, hbefore⟩

end Tools

end Kirakira
