import Kirakira.Lib.Transition
import Kirakira.Transaction

/-!
# The Ledger as a Transition System

Every way messages get into the log, in any order: synchronous appends of any writer,
commits of prepared appends (the second half of `append_async`), owner transactions with
any callback, and what else happens around the log — session management, bindings,
attachments, readers — which leaves the messages and the counters alone. An attempt that
raises is rolled back.

## Main results

* `effects_of_step` — a step commits the effects of its transaction, or nothing.
* `Ledger.insert` — one insertion keeps the ledger invariant.
* `ledger_invariant` — every reachable log is gapless and consistent in every session,
  controls stay below themselves, results answer exactly one earlier call of their
  session and source, and accepted messages never change.
-/

namespace Kirakira

open Exceptions

/-! ### Steps -/

/-- Code inside a transaction as a callback of `_write`. -/
def TxM.callback {α : Type} (operation : TxM α) (tx : Tx) : Except PyError α × Tx :=
  match operation.run tx with
  | .ok a tx => (.ok a, tx)
  | .error e tx => (.error e, tx)

theorem callback_eq_ok {α : Type} {operation : TxM α} {tx tx' : Tx} {a : α}
    (h : TxM.callback operation tx = (.ok a, tx')) : operation.run tx = .ok a tx' := by
  unfold TxM.callback at h
  split at h
  · next hrun =>
      obtain ⟨ha, rfl⟩ := Prod.mk.inj h
      rw [hrun, Except.ok.inj ha]
  · cases h

/-- `MessageWriter.append`. -/
def Log.append (log : Log) (w : Writer) (env : Ambient) (messageId : String) (body : Body)
    (expectedSourceHead : Option ℤ) (metadata : Option Json) : Except PyError Message × Log :=
  log.write (TxM.callback (w.append env messageId body expectedSourceHead metadata))

/-- The commit of `append_async`. -/
def Log.commit (log : Log) (p : PreparedAppend) (env : Ambient)
    (expectedSourceHead : Option ℤ) : Except PyError (Message × Bool) × Log :=
  log.write (TxM.callback (p.append env expectedSourceHead))

/-- What happens to a log. -/
inductive LedgerEvent : Type 1 where
  | append (w : Writer) (env : Ambient) (messageId : String) (body : Body)
      (expectedSourceHead : Option ℤ) (metadata : Option Json)
  | commit (p : PreparedAppend) (env : Ambient) (expectedSourceHead : Option ℤ)
  | transact {α : Type} (owner : String) (callback : Callback α)
  | other

/-- What an event makes of a log. -/
def ledgerStep (log : Log) : LedgerEvent → Log → Prop
  | .append w env messageId body expected metadata, log' =>
      log' = (log.append w env messageId body expected metadata).2
  | .commit p env expected, log' => log' = (log.commit p env expected).2
  | .transact owner callback, log' => log' = (transact owner callback log).2
  | .other, log' => log.db.SameLog log'.db

/-- The ledger, from a database without messages. -/
def ledger : Transition.System Log LedgerEvent where
  init log := log.db.messages = [] ∧ ∀ s, log.db.nextSeq s = 0
  step := ledgerStep

variable {log : Log} {messages : List Message}

theorem write_callback {α : Type} {operation : TxM α}
    (h : ∀ a tx, operation.run (Tx.start log.db) = .ok a tx → Effects (Tx.start log.db) tx) :
    (log.write (TxM.callback operation)).2 = log ∨
      ∃ tx, Effects (Tx.start log.db) tx ∧
        (log.write (TxM.callback operation)).2.db = tx.db := by
  unfold Log.write TxM.callback
  cases hrun : operation.run (Tx.start log.db) with
  | ok a tx => exact .inr ⟨tx, h a tx hrun, rfl⟩
  | error e tx => exact .inl rfl

/-- **A step commits the effects of its transaction, or nothing.** -/
theorem effects_of_step {log' : Log} {e : LedgerEvent} (h : ledger.step log e log') :
    log.db.SameLog log'.db ∨ ∃ tx, Effects (Tx.start log.db) tx ∧ log'.db = tx.db := by
  have hkeep : log' = log → log.db.SameLog log'.db := by
    rintro rfl
    exact Db.SameLog.refl _
  cases e with
  | append w env messageId body expected metadata =>
      obtain rfl : log' = _ := h
      refine (write_callback fun m tx hrun => ?_).imp_left hkeep
      obtain ⟨value, -, happended⟩ := append_spec hrun
      exact effects_of_appended happended
  | commit p env expected =>
      obtain rfl : log' = _ := h
      exact (write_callback fun m tx hrun =>
        effects_of_appended (appendPrepared_spec hrun)).imp_left hkeep
  | transact owner callback =>
      obtain rfl : log' = _ := h
      have hadvances := advances_run owner callback ⟨false, Tx.start log.db⟩
      unfold Kirakira.transact Log.write invoke at hkeep ⊢
      rcases hrun : callback.run (execute owner) ⟨false, Tx.start log.db⟩ with ⟨r, t⟩
      rw [hrun] at hadvances hkeep
      cases r with
      | error e => exact .inl (hkeep rfl)
      | ok a =>
          cases ht : t.failed with
          | true =>
              dsimp only at hkeep ⊢
              rw [ht] at hkeep ⊢
              exact .inl (hkeep rfl)
          | false =>
              dsimp only
              rw [ht]
              exact .inr ⟨t.tx, (hadvances ht).2, rfl⟩
  | other => exact .inl h

/-! ### The invariant -/

/-- The result answers this call: a tool call of an output of the same session and source
that was accepted before. -/
def Answers (m : Message) (r : ToolResult) (call : Message) : Prop :=
  call.messageId = r.callRef.messageId ∧ call.sessionId = m.sessionId ∧
    call.source = m.source ∧ call.seq < m.seq ∧
    ∃ o toolCall, call.body = .output o ∧
      o.parts[r.callRef.partIndex]? = some (.toolCall toolCall)

/-- Two messages that are not results of the same call. -/
def DifferentCalls (m m' : Message) : Prop :=
  ∀ r r', m.body = .toolResult r → m'.body = .toolResult r' → r.callRef ≠ r'.callRef

/-- The ledger invariant of a database and the messages it holds. -/
structure Ledger (db : Db) (messages : List Message) : Prop where
  rows : db.messages = messages.map Message.row
  seqs : ∀ s, (ofSession s messages).map Message.seq = List.range (db.nextSeq s)
  answered : ∀ m ∈ messages, ∀ r, m.body = .toolResult r → ∃ call ∈ messages, Answers m r call
  results : messages.Pairwise DifferentCalls
  ids : (messages.map Message.messageId).Nodup

theorem Ledger.seq_lt {db : Db} (h : Ledger db messages) {m : Message} (hm : m ∈ messages) :
    m.seq < db.nextSeq m.sessionId := by
  have hmem : m.seq ∈ (ofSession m.sessionId messages).map Message.seq :=
    List.mem_map_of_mem (List.mem_filter.mpr ⟨hm, by simp⟩)
  rw [h.seqs, List.mem_range] at hmem
  exact hmem

theorem mapM_messageOf_row (messages : List Message) :
    (messages.map Message.row).mapM messageOf = .ok messages := by
  induction messages with
  | nil => rfl
  | cons m messages ih =>
      rw [List.map_cons, List.mapM_cons, messageOf_row, ih]
      rfl

theorem Ledger.decodes {db : Db} (h : Ledger db messages) :
    db.messages.mapM messageOf = .ok messages := by
  rw [h.rows]
  exact mapM_messageOf_row messages

theorem checkCallResult_eq_ok {w : Writer} {db : Db} {r : ToolResult} {u : Unit}
    (hrows : db.messages = messages.map Message.row) (h : w.checkCallResult db r = .ok u) :
    (∃ call ∈ messages, call.messageId = r.callRef.messageId ∧ call.sessionId = w.sessionId ∧
      call.source = w.source ∧ ∃ o toolCall, call.body = .output o ∧
        o.parts[r.callRef.partIndex]? = some (.toolCall toolCall)) ∧
    ∀ m ∈ messages, ∀ r', m.body = .toolResult r' → r'.callRef ≠ r.callRef := by
  unfold Writer.checkCallResult at h
  split at h
  · cases h
  · next row hrow =>
      rw [Db.messageRow, hrows] at hrow
      have hid : row.id = r.callRef.messageId := by simpa using List.find?_some hrow
      obtain ⟨call, hcall, rfl⟩ := List.mem_map.mp (List.mem_of_find?_eq_some hrow)
      obtain ⟨-, ⟨⟩⟩ | ⟨hplace, h⟩ := ite_eq_iff.mp h
      obtain ⟨-, ⟨⟩⟩ | ⟨hkind, h⟩ := ite_eq_iff.mp h
      obtain ⟨-, ⟨⟩⟩ | ⟨hnone, h⟩ := ite_eq_iff.mp h
      rw [not_or, not_not, not_not] at hkind
      obtain ⟨hsession, hsource⟩ := Prod.mk.inj (not_not.mp hplace)
      constructor
      · refine ⟨call, hcall, hid, hsession, hsource, ?_⟩
        obtain ⟨toolCall, hpart⟩ := partKind_payload hkind.2
        have houtput := hkind.1
        rw [Message.row, bodyKind_payload] at houtput
        cases hbody : call.body with
        | output o =>
            rw [hbody] at hpart
            exact ⟨o, toolCall, rfl, hpart⟩
        | _ => rw [hbody] at houtput; simp [Body.type, BodyType.text] at houtput
      · intro m hm r' hbody heq
        refine hnone (List.any_eq_true.mpr ⟨m.row, ?_, ?_⟩)
        · rw [hrows]
          exact List.mem_map_of_mem hm
        · rw [Message.row, callKey_payload, hbody, decide_eq_true_iff, ← heq]

/-- **One insertion keeps the ledger invariant.** -/
theorem Ledger.insert {tx tx' : Tx} {w : Writer} {messageId : String} {prepared : PreparedMessage}
    {expected : Option ℤ} {m : Message} (h : Ledger tx.db messages)
    (hm : Inserted w messageId prepared expected tx m tx') : Ledger tx'.db (messages ++ [m]) := by
  have hresult : ∀ r, m.body = .toolResult r →
      w.checkCallResult tx.db r = .ok () := by
    intro r hbody
    have hchecked := hm.checked
    unfold Writer.checkInsert at hchecked
    obtain ⟨_, -, hchecked⟩ := bind_eq_ok.mp hchecked
    obtain ⟨_, -, hchecked⟩ := bind_eq_ok.mp hchecked
    rw [← hm.body_eq, hbody] at hchecked
    exact hchecked
  refine ⟨?_, fun s => ?_, ?_, ?_, ?_⟩
  · rw [hm.messages, h.rows, List.map_append]
    rfl
  · rw [ofSession_append, ofSession_singleton, List.map_append, h.seqs]
    by_cases hs : m.sessionId = s
    · have hself := hm.nextSeq_self
      have hseq := hm.seq_eq
      rw [← hm.sessionId_eq, hs] at hself hseq
      rw [if_pos hs, hself, List.range_succ, hseq, List.map_singleton, hseq]
    · rw [if_neg hs, List.map_nil, List.append_nil,
        hm.nextSeq_other s (by rw [← hm.sessionId_eq]; exact Ne.symm hs)]
  · intro m' hm' r hbody
    rcases List.mem_append.mp hm' with hold | hnew
    · obtain ⟨call, hcall, hanswers⟩ := h.answered m' hold r hbody
      exact ⟨call, List.mem_append_left _ hcall, hanswers⟩
    · obtain rfl := List.mem_singleton.mp hnew
      obtain ⟨⟨call, hcall, hid, hsession, hsource, hpart⟩, -⟩ :=
        checkCallResult_eq_ok h.rows (hresult r hbody)
      have hlt := h.seq_lt hcall
      rw [hsession, ← hm.seq_eq] at hlt
      exact ⟨call, List.mem_append_left _ hcall, hid, hsession.trans hm.sessionId_eq.symm,
        hsource.trans hm.source_eq.symm, hlt, hpart⟩
  · rw [List.pairwise_append]
    refine ⟨h.results, List.pairwise_singleton _ _, ?_⟩
    intro m₁ hm₁ m₂ hm₂ r r' hbody hbody'
    obtain rfl := List.mem_singleton.mp hm₂
    exact (checkCallResult_eq_ok h.rows (hresult r' hbody')).2 m₁ hm₁ r hbody
  · rw [List.map_append, List.nodup_append]
    refine ⟨h.ids, List.nodup_singleton _, ?_⟩
    intro a ha b hb
    obtain ⟨old, hold, rfl⟩ := List.mem_map.mp ha
    obtain rfl : b = m.messageId := by simpa using hb
    have hfresh := hm.fresh old.row (by rw [h.rows]; exact List.mem_map_of_mem hold)
    rw [hm.messageId_eq]
    exact hfresh

theorem Ledger.effects {t t' : Tx} (h : Ledger t.db messages) (heffects : Effects t t') :
    ∃ appended, Ledger t'.db (messages ++ appended) := by
  induction heffects with
  | refl => exact ⟨[], by rw [List.append_nil]; exact h⟩
  | tail _ hlast ih =>
      obtain ⟨appended, ih⟩ := ih
      cases hlast with
      | records tx₁ ownerRecords =>
          exact ⟨appended, ih.rows, ih.seqs, ih.answered, ih.results, ih.ids⟩
      | @inserted w messageId prepared expected _ _ m hm =>
          refine ⟨appended ++ [m], ?_⟩
          rw [← List.append_assoc]
          exact ih.insert hm

theorem Ledger.sameLog {db db' : Db} (h : Ledger db messages) (hsame : db.SameLog db') :
    Ledger db' messages :=
  ⟨hsame.messages.trans h.rows, fun s => (h.seqs s).trans (by rw [hsame.nextSeq]), h.answered,
    h.results, h.ids⟩

/-- **A step keeps the invariant**, and the messages it finds stay in front. -/
theorem Ledger.step {log' : Log} {e : LedgerEvent} (h : Ledger log.db messages)
    (hstep : ledger.step log e log') : ∃ appended, Ledger log'.db (messages ++ appended) := by
  rcases effects_of_step hstep with hsame | ⟨tx, heffects, hdb⟩
  · exact ⟨[], by rw [List.append_nil]; exact h.sameLog hsame⟩
  · rw [hdb]
    exact Ledger.effects (t := Tx.start log.db) h heffects

theorem ledger_of_reachable (h : ledger.Reachable log) : ∃ messages, Ledger log.db messages := by
  refine h.invariant (I := fun log => ∃ messages, Ledger log.db messages) ?_ ?_
  · rintro log ⟨hmessages, hnext⟩
    refine ⟨[], hmessages, fun s => ?_, by simp, List.Pairwise.nil, List.nodup_nil⟩
    rw [hnext]
    rfl
  · rintro log e log' ⟨messages, hledger⟩ - hstep
    obtain ⟨appended, happended⟩ := hledger.step hstep
    exact ⟨_, happended⟩

theorem messages_prefix_of_run {log' : Log} (hrun : ledger.Run log log')
    (h : Ledger log.db messages) : log.db.messages <+: log'.db.messages := by
  refine Transition.System.RunVia.relates (I := fun log => ∃ messages, Ledger log.db messages)
    (R := fun a b => a.db.messages <+: b.db.messages) (fun _ => List.prefix_refl _)
    (fun _ _ _ => List.IsPrefix.trans) ?_ ?_ hrun ⟨messages, h⟩
  · rintro log e log' ⟨messages, hledger⟩ - hstep
    obtain ⟨appended, happended⟩ := hledger.step hstep
    exact ⟨_, happended⟩
  · rintro log e log' ⟨messages, hledger⟩ - hstep
    obtain ⟨appended, happended⟩ := hledger.step hstep
    rw [hledger.rows, happended.rows, List.map_append]
    exact List.prefix_append _ _

/-- **The ledger run invariant.** Every row of a reachable log decodes, and for the
messages of the log: the committed numbers of each session are `0` to `next_seq - 1`;
every control addresses a prefix below itself; every result answers a tool call of an
earlier output of its session and source; no two results answer the same call. And
whatever happens afterwards, the accepted rows stay. -/
theorem ledger_invariant {log : Log} (h : ledger.Reachable log) :
    ∃ messages, log.db.messages.mapM messageOf = .ok messages ∧
      (∀ s, (ofSession s messages).map Message.seq = List.range (log.db.nextSeq s)) ∧
      (∀ m ∈ messages, ∀ c, m.body = .control c → c.throughSeq < m.seq) ∧
      (∀ m ∈ messages, ∀ r, m.body = .toolResult r → ∃ call ∈ messages, Answers m r call) ∧
      messages.Pairwise DifferentCalls ∧
      ∀ log', ledger.Run log log' → log.db.messages <+: log'.db.messages := by
  obtain ⟨messages, hledger⟩ := ledger_of_reachable h
  exact ⟨messages, hledger.decodes, hledger.seqs, fun m _ => m.control_ok, hledger.answered,
    hledger.results, fun log' hrun => messages_prefix_of_run hrun hledger⟩

/-- A writer of inputs, with these metadata namespaces. -/
def inputWriter (messageMetadataKeys : List String) : Writer :=
  { Writer.ungranted "session" "user" "chat" with
    bodyTypes := [.input]
    messageMetadataKeys := messageMetadataKeys }

/-- The append of one input. -/
def firstInput : LedgerEvent :=
  .append (inputWriter []) ⟨⟨"2026-01-01T00:00:00+00:00"⟩, true, true, []⟩ "input-1"
    (.input ⟨[]⟩) none none

/-- The log after one input. -/
def firstLog : Log :=
  (Log.append ⟨.fresh, .empty⟩ (inputWriter [])
    ⟨⟨"2026-01-01T00:00:00+00:00"⟩, true, true, []⟩ "input-1" (.input ⟨[]⟩) none none).2

/-- The transaction that appends a second input. -/
def secondInput : Tx :=
  match ((inputWriter []).append ⟨⟨"2026-01-02T00:00:00+00:00"⟩, true, true, []⟩ "input-2"
    (.input ⟨[]⟩) none none).run (Tx.start firstLog.db) with
  | .ok _ tx => tx
  | .error _ tx => tx

theorem effects_secondInput : Effects (Tx.start firstLog.db) secondInput := by
  obtain ⟨m, hm⟩ : ∃ m, ((inputWriter []).append ⟨⟨"2026-01-02T00:00:00+00:00"⟩, true, true, []⟩
      "input-2" (.input ⟨[]⟩) none none).run (Tx.start firstLog.db) = .ok m secondInput :=
    ⟨_, rfl⟩
  obtain ⟨_, -, happended⟩ := append_spec hm
  exact effects_of_appended happended

/-- The invariant of a log that holds a message. -/
theorem ledger_invariant_firstLog : firstLog.db.messages.length = 1 ∧
    ∃ messages, firstLog.db.messages.mapM messageOf = .ok messages ∧
      ∀ s, (ofSession s messages).map Message.seq = List.range (firstLog.db.nextSeq s) := by
  have hinit : ledger.Reachable ⟨.fresh, .empty⟩ :=
    Transition.System.ReachableVia.init ⟨rfl, fun _ => rfl⟩
  have hstep : ledger.step ⟨.fresh, .empty⟩ firstInput firstLog := rfl
  obtain ⟨messages, hdecodes, hseqs, -⟩ := ledger_invariant (hinit.step trivial hstep)
  exact ⟨rfl, messages, hdecodes, hseqs⟩

end Kirakira
