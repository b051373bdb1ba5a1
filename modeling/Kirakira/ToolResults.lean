import Kirakira.ToolEffects

/-!
# Tool Results

What everyone who executes a call, waits for it or abandons it gets to see: the one result
message of the call. Both protocols run on one key here, since a call may be executed under a
custom result identity at one time and under the default one at another.

## Main results

* `results_committed` — in every run the first committed result stays, every result that is
  returned is that result, and a receipt that is done points to it.
* `results_beside_receipt` — a receipt of a custom identity stays open when the call is also
  executed under the default one.
-/

namespace Kirakira

namespace Tools

open Coroutine

/-- The jobs of a call: its receipts are of custom result identities. -/
def Job.ofCall (messageId : String) : Job → Prop
  | .ensureRequested request | .receiptRun request | .receiptWait request .. =>
      ∃ identity, request.reply = some identity ∧ identity ≠ messageId
  | _ => True

/-- This is the result that is committed. -/
def Committed (result : Result) (w : World) : Prop :=
  ∃ answer, w.store.answer = some answer ∧ answer.result = result

/-- A receipt that is done and points to the result message. -/
def PointsTo (record : Record) (answer : Answer) : Prop :=
  record.value.phase = .done ∧ record.value.result = some (.message answer.messageId answer.seq)

/-- The receipt agrees with the result message: done, it points to it; of the default identity, it
is done; and a message of another identity has such a receipt. -/
structure Agrees (messageId : String) (store : Store) : Prop where
  done : ∀ record, store.receipt = some record → record.value.phase = .done →
    ∃ answer, store.answer = some answer ∧ PointsTo record answer
  default : ∀ record, store.receipt = some record → record.value.replyId = some messageId →
    record.value.phase = .done
  custom : ∀ answer, store.answer = some answer → answer.messageId ≠ messageId →
    store.InPhase .done

/-- The invariant of the results. -/
structure ResultInv (messageId : String) (w : World) : Prop where
  agrees : Agrees messageId w.store
  returned : ∀ result ∈ w.returned, Committed result w
  published : ∀ task result, (task, result) ∈ w.published → Committed result w
  outcome : ∀ task result, (task, .ok result) ∈ w.outcomes → Committed result w

/-- What a job does to the others: the receipt evolves, and the result message stays. -/
def resultGuar (w w' : World) : Prop :=
  Evolves w.store.receipt w'.store.receipt ∧
    ∀ answer, w.store.answer = some answer → w'.store.answer = some answer

section Results

variable (fingerprint : Request → String) (messageId : String)

/-- Everything that runs on a call. -/
abbrev callJobs : Machine ToolOp Raised World :=
  toolCalls fingerprint messageId (Job.ofCall messageId)

/-- The discipline of the results. -/
def results : Discipline (callJobs fingerprint messageId) where
  inv := ResultInv messageId
  guar _ := resultGuar

variable {fingerprint messageId} {i : ℕ} {β : Type}

theorem resultGuar_refl (w : World) : resultGuar w w :=
  ⟨.refl _, fun _ h => h⟩

variable {w : World} {result : Result} {identity : String}

variable {w' : World}

theorem resultGuar_trans {w'' : World} (h : resultGuar w w') (h' : resultGuar w' w'') :
    resultGuar w w'' :=
  ⟨h.1.trans h'.1, fun answer ha => h'.2 answer (h.2 answer ha)⟩

theorem results_steps (h : (results fingerprint messageId).Steps w w') : resultGuar w w' := by
  rcases h with ⟨j, hguar⟩ | ⟨taken, nextSeq, rfl⟩ | ⟨j, p, job, -, -, -, rfl⟩ | rfl
  · exact hguar
  · exact resultGuar_refl w
  · rw [resultGuar, begin_store]
    exact resultGuar_refl w
  · exact resultGuar_refl w

theorem results_rely (h : (results fingerprint messageId).Rely i w w') : resultGuar w w' := by
  rcases h with ⟨j, -, hguar⟩ | henv | ⟨j, p, -, hentry⟩
  · exact hguar
  · exact results_steps (.inr (.inl henv))
  · exact results_steps (.inr (.inr (.inl ⟨j, p, hentry⟩)))

theorem Committed.mono (h : Committed result w) (hguar : resultGuar w w') :
    Committed result w' := by
  obtain ⟨answer, hanswer, hresult⟩ := h
  exact ⟨answer, hguar.2 answer hanswer, hresult⟩

theorem stable_committed (result : Result) :
    (results fingerprint messageId).Stable i (Committed result) :=
  fun _ _ _ _ h hrely => h.mono (results_rely hrely)

theorem stable_evolves (record : Option Record) :
    (results fingerprint messageId).Stable i fun w => Evolves record w.store.receipt :=
  fun _ _ _ _ h hrely => h.trans (results_rely hrely).1

theorem ResultInv.store {store : Store} (h : ResultInv messageId w)
    (hagrees : Agrees messageId store) (hguar : resultGuar w { w with store := store }) :
    ResultInv messageId { w with store := store } :=
  ⟨hagrees, fun result hmem => (h.returned result hmem).mono hguar,
    fun task result hmem => (h.published task result hmem).mono hguar,
    fun task result hmem => (h.outcome task result hmem).mono hguar⟩

/-- What a transaction that commits a result does. -/
structure Commits (messageId : String) (store store' : Store) (result : Result) : Prop where
  agrees : Agrees messageId store'
  evolves : Evolves store.receipt store'.receipt
  answer : ∀ answer, store.answer = some answer → store'.answer = some answer
  committed : ∃ answer, store'.answer = some answer ∧ answer.result = result

theorem committed_of_resultOf {store : Store} {saved : Option Saved}
    (h : store.resultOf (some identity) saved = .ok result) :
    ∃ answer, store.answer = some answer ∧ answer.result = result := by
  rw [Store.resultOf, Store.readReply.eq_def] at h
  split at h
  · split at h
    · cases h
    · split at h
      · next answer hanswer =>
          split at h
          · exact ⟨answer, hanswer, Except.ok.inj h⟩
          · cases h
      · cases h
  · cases h

theorem committed_of_existingResult {store : Store}
    (h : store.existingResult messageId = .ok (some result)) :
    ∃ answer, store.answer = some answer ∧ answer.result = result := by
  rw [Store.existingResult] at h
  split at h
  · next answer hanswer =>
      split at h
      · exact ⟨answer, hanswer, Option.some.inj (Except.ok.inj h)⟩
      · split at h <;> cases h
  · split at h <;> cases h

theorem commits_finish {store store' : Store} {value : Receipt} {returned : Result}
    (hagrees : Agrees messageId store)
    (h : store.finish value result (some identity) = .ok (returned, store')) :
    Commits messageId store store' returned := by
  have hevolves := evolves_finish h
  cases finish_eq_ok h with
  | already current hreceipt hdone hresult hstore =>
      subst hstore
      exact ⟨hagrees, hevolves, fun _ ha => ha, committed_of_resultOf hresult⟩
  | completed record saved hreturned hreceipt hdone hresult hsaved hbefore =>
      obtain ⟨answer, rfl, hid, hanswered, hanswer, hold⟩ := hsaved
      refine ⟨⟨fun other hother _ => ?_, fun other hother _ => ?_,
          fun _ _ _ => ⟨record, hreceipt, hdone⟩⟩,
        hevolves, fun other hother => ?_, ⟨answer, hanswer, hanswered.trans hreturned.symm⟩⟩
      · obtain rfl := Option.some.inj (hreceipt.symm.trans hother)
        exact ⟨answer, hanswer, hdone, hresult⟩
      · obtain rfl := Option.some.inj (hreceipt.symm.trans hother)
        exact hdone
      · rcases hold with hnone | hsame
        · rw [hnone] at hother
          cases hother
        · rw [hanswer, ← hsame, hother]

theorem commits_commitMessage {store store' : Store} {returned : Result}
    (hagrees : Agrees messageId store)
    (h : store.commitMessage messageId result = .ok (returned, store')) :
    Commits messageId store store' returned := by
  obtain ⟨rfl, hreceipt, answer, hid, hresult, hanswer, hold⟩ := commitMessage_eq_ok h
  have hkept : ∀ other, store.answer = some other → store'.answer = some other := by
    intro other hother
    rcases hold with hnone | hsame
    · rw [hnone] at hother
      cases hother
    · rw [hanswer, ← hsame, hother]
  refine ⟨⟨fun record hrecord hdone => ?_, fun record hrecord => ?_, fun other hother hne => ?_⟩,
    by rw [hreceipt]; exact .refl _, hkept, ⟨answer, hanswer, hresult⟩⟩
  · obtain ⟨other, hother, hpoints⟩ := hagrees.done record (hreceipt ▸ hrecord) hdone
    exact ⟨other, hkept other hother, hpoints⟩
  · exact hagrees.default record (hreceipt ▸ hrecord)
  · obtain rfl := Option.some.inj (hanswer.symm.trans hother)
    exact absurd hid hne

theorem Agrees.reopen {store : Store} {saved : Record} (h : Agrees messageId store)
    (hbefore : ¬ store.InPhase .done) (hopen : saved.value.phase ≠ .done)
    (hidentity : saved.value.replyId ≠ some messageId) :
    Agrees messageId { store with receipt := some saved } := by
  refine ⟨fun record hrecord hdone => ?_, fun record hrecord hid => ?_, fun answer ha hne => ?_⟩
  · obtain rfl := Option.some.inj hrecord
    exact absurd hdone hopen
  · obtain rfl := Option.some.inj hrecord
    exact absurd hid hidentity
  · exact absurd (h.custom answer ha hne) hbefore

theorem results_save {store : Store} {saved : Record} {starter : Option ℕ}
    (hinv : ResultInv messageId w) (hevolves : Evolves w.store.receipt store.receipt)
    (hstore : store = { w.store with receipt := some saved }) (hbefore : ¬ w.store.InPhase .done)
    (hopen : saved.value.phase ≠ .done) (hidentity : saved.value.replyId ≠ some messageId) :
    ResultInv messageId { w with store := store, starter := starter } ∧
      resultGuar w { w with store := store, starter := starter } := by
  have hguar : resultGuar w { w with store := store } := ⟨hevolves, fun _ h => by rw [hstore]; exact h⟩
  have hagrees := hinv.agrees.reopen hbefore hopen hidentity
  have hkept := hinv.store (hstore ▸ hagrees) hguar
  exact ⟨⟨hkept.agrees, hkept.returned, hkept.published, hkept.outcome⟩, hguar⟩

theorem results_commit {f : Store → Except Raised (Result × Store)} {notify : Bool}
    (hf : ∀ store result store', Agrees messageId store → f store = .ok (result, store') →
      Commits messageId store store' result) :
    (results fingerprint messageId).Returns i (perform (.commit f notify)) (fun _ => True)
      Committed := by
  refine .perform (.const True) fun w r w' hinv _ hexec => ?_
  obtain ⟨store, published, h, hnotifies, rfl⟩ := hexec
  have hboth : Agrees messageId store ∧ resultGuar w { w with store := store } := by
    refine (h.rule (Q := fun _ => True) (fun result h => ⟨?_, trivial⟩) fun h => ?_).1
    · have hcommits := hf w.store result store hinv.agrees h
      exact ⟨hcommits.agrees, hcommits.evolves, hcommits.answer⟩
    · rw [h]
      exact ⟨hinv.agrees, resultGuar_refl w⟩
  have hkept := hinv.store hboth.1 hboth.2
  refine ⟨⟨hkept.agrees, hkept.returned, fun task result hmem => ?_, hkept.outcome⟩, hboth.2,
    fun result hr => ?_⟩
  · cases hnotifies with
    | silent => exact hkept.published task result hmem
    | notified notified hnotified =>
        rcases List.mem_cons.mp hmem with heq | hold
        · obtain ⟨-, rfl⟩ := Prod.mk.inj heq
          exact (hf w.store _ store hinv.agrees hnotified).committed
        · exact hkept.published task result hold
  · subst hr
    exact (hf w.store result store hinv.agrees h.eq_ok).committed

theorem results_publish (result : Result) :
    (results fingerprint messageId).Returns i (perform (.publish result)) (Committed result)
      fun _ => Committed result := by
  refine .perform (stable_committed result) fun w r w' hinv hcommitted hexec => ?_
  obtain ⟨-, rfl⟩ := hexec
  refine ⟨⟨hinv.agrees, hinv.returned, fun task other hmem => ?_, hinv.outcome⟩,
    resultGuar_refl w, fun _ _ => hcommitted⟩
  rcases List.mem_cons.mp hmem with heq | hold
  · obtain ⟨-, rfl⟩ := Prod.mk.inj heq
    exact hcommitted
  · exact hinv.published task other hold

theorem results_rules (identity : String) :
    ResultRules (results fingerprint messageId) i (some identity) (fun _ => True) Committed where
  refl := resultGuar_refl
  stable := stable_committed
  finish _ _ _ _ := results_commit fun _ _ _ => commits_finish
  publish := results_publish
  read _ _ _ _ h := committed_of_resultOf h

theorem not_inPhase_done {store : Store} {record : Record} (h : store.receipt = some record)
    (hopen : record.value.phase ≠ .done) : ¬ store.InPhase .done := by
  rintro ⟨other, hother, hdone⟩
  obtain rfl := Option.some.inj (h.symm.trans hother)
  exact hopen hdone

/-- **The task of the receipt protocol** returns what is committed. -/
theorem results_run {request : Request} (hreply : request.reply = some identity)
    (hidentity : identity ≠ messageId) :
    RunRules (results fingerprint messageId) i request Committed
      (fun record w => Evolves record w.store.receipt) (fun _ _ => True) where
  results := hreply ▸ results_rules identity
  stableKnown := stable_evolves
  stableEntering _ := .const True
  first w _ _ := .refl w.store.receipt
  save record arguments hrequested := by
    refine .perform (stable_evolves record) fun w r w' hinv hknown hexec => ?_
    obtain ⟨store, h, rfl⟩ := hexec
    have hsave (saved : Record) (hsave : w.store.save
        { initial fingerprint request with phase := .prepared, arguments := arguments }
        (record.map Record.version) = .ok (saved, store)) :
        (ResultInv messageId { w with store := store } ∧
          resultGuar w { w with store := store }) ∧
            saved.value.phase = .prepared ∧ Evolves (some saved) store.receipt := by
      obtain ⟨hreceipt, hvalue, hstore, -⟩ := hknown.save hsave
      have hnot : ¬ w.store.InPhase .done := by
        rintro ⟨old, hold, hdone⟩
        have hrequested := hrequested old (hreceipt.symm.trans hold)
        rw [hdone] at hrequested
        cases hrequested
      have hcustom : saved.value.replyId ≠ some messageId := by
        rw [hvalue]
        exact fun heq => hidentity (Option.some.inj (hreply.symm.trans heq))
      refine ⟨results_save hinv (hknown.prepared hrequested hsave) hstore hnot ?_ hcustom,
        by rw [hvalue], by rw [hstore]; exact .refl _⟩
      rw [hvalue]
      exact nofun
    obtain ⟨⟨hkept, hguar⟩, hpost⟩ := h.rule hsave fun h => h ▸ ⟨hinv, resultGuar_refl w⟩
    exact ⟨hkept, hguar, hpost⟩
  query record := by
    refine .perform (stable_evolves _) fun w r w' hinv hknown hexec => ?_
    obtain rfl := hexec
    exact ⟨⟨hinv.agrees, hinv.returned, hinv.published, hinv.outcome⟩, resultGuar_refl w,
      fun _ _ => hknown⟩
  start record permission hprepared hopen := by
    refine .perform (stable_evolves _) fun w r w' hinv hknown hexec => ?_
    obtain ⟨store, h, rfl⟩ := hexec
    have hstart (saved : Record) (hsave : saveStart record permission w.store = .ok (saved, store)) :
        ResultInv messageId (w.startedBy i store) ∧ resultGuar w (w.startedBy i store) := by
      obtain ⟨hreceipt, hvalue, hstore, hevolves⟩ := hknown.started hopen hsave
      refine results_save hinv hevolves hstore (not_inPhase_done hreceipt hopen) ?_ ?_
      · rw [hvalue]
        exact nofun
      · rw [hvalue]
        exact fun heq => hopen (hinv.agrees.default record hreceipt heq)
    obtain ⟨⟨hkept, hguar⟩, hpost⟩ := h.rule (Q := fun _ => True)
      (fun saved hsave => ⟨hstart saved hsave, trivial⟩)
      fun h => by rw [h, World.startedBy_self]; exact ⟨hinv, resultGuar_refl w⟩
    exact ⟨hkept, hguar, hpost⟩
  invoke _ _ _ _ := by
    refine .perform (.const True) fun w r w' hinv _ hexec => ?_
    obtain rfl := hexec
    exact ⟨⟨hinv.agrees, hinv.returned, hinv.published, hinv.outcome⟩, resultGuar_refl w,
      fun _ _ => trivial⟩

/-- The request of the admission keeps the discipline. -/
theorem results_ensureRequested {request : Request} (hreply : request.reply = some identity)
    (hidentity : identity ≠ messageId) :
    (results fingerprint messageId).Returns i (ensureRequested fingerprint request)
      (fun _ => True) fun _ _ => True := by
  refine .bind (returns_look resultGuar_refl (.const True)) fun record => ?_
  cases record with
  | some record => exact .pure fun _ _ _ => trivial
  | none =>
      refine .bind ((returns_checkReply resultGuar_refl (.const True)).pre fun _ _ _ => trivial)
        fun _ => .bind (R := fun _ _ => True) ?_ fun _ => .pure fun _ _ _ => trivial
      refine .perform (.const True) fun w r w' hinv _ hexec => ?_
      obtain ⟨store, h, rfl⟩ := hexec
      have hsave (saved : Record)
          (hsave : w.store.save (initial fingerprint request) none = .ok (saved, store)) :
          ResultInv messageId { w with store := store } ∧
            resultGuar w { w with store := store } := by
        obtain ⟨hvalue, hstore, ⟨hnone, -⟩ | ⟨old, -, hexpected, -⟩⟩ := save_eq_ok hsave
        · refine results_save hinv (by rw [hnone]; trivial) hstore ?_ ?_ ?_
          · rintro ⟨record, hrecord, -⟩
            rw [hnone] at hrecord
            cases hrecord
          · rw [hvalue]
            exact nofun
          · rw [hvalue]
            exact fun heq => hidentity (Option.some.inj (hreply.symm.trans heq))
        · cases hexpected
      obtain ⟨⟨hkept, hguar⟩, hpost⟩ := h.rule (Q := fun _ => True)
        (fun saved h => ⟨hsave saved h, trivial⟩) fun h => h ▸ ⟨hinv, resultGuar_refl w⟩
      exact ⟨hkept, hguar, hpost⟩

/-- **The task of the message protocol** returns what is committed. -/
theorem results_message :
    MessageRules (results fingerprint messageId) i Committed (fun _ => True) (fun _ => True)
      (fun _ => True) where
  refl := resultGuar_refl
  stable := stable_committed
  stableBegun := .const True
  stableUnanswered := .const True
  stableEntering := .const True
  commit _ := results_commit fun _ _ _ => commits_commitMessage
  publish := results_publish
  existing _ _ _ h := committed_of_existingResult h
  missing _ _ _ _ := trivial
  recorded _ _ _ _ := trivial
  invoke _ _ := by
    refine .perform (.const True) fun w r w' hinv _ hexec => ?_
    obtain rfl := hexec
    exact ⟨⟨hinv.agrees, hinv.returned, hinv.published, hinv.outcome⟩, resultGuar_refl w,
      fun _ _ => trivial⟩

theorem results_waits : WaitRules (results fingerprint messageId) i Committed where
  refl := resultGuar_refl
  stable := stable_committed
  published _ task result hinv h := hinv.published task result h
  outcome _ task result hinv h := hinv.outcome task result h

theorem results_taskOf {body : ToolM Result}
    (h : (results fingerprint messageId).Returns i body (fun _ => True) Committed) :
    (results fingerprint messageId).Returns i (taskOf body) (fun _ => True) fun _ _ => True := by
  refine returns_taskOf h fun outcome => .perform ?_ fun w r w' hinv hcommitted hexec => ?_
  · exact fun w w' hw hw' hcommitted hrely b hb =>
      stable_committed b w w' hw hw' (hcommitted b hb) hrely
  · obtain ⟨-, rfl⟩ := hexec
    refine ⟨⟨hinv.agrees, hinv.returned, hinv.published, fun task result hmem => ?_⟩,
      resultGuar_refl w, fun _ _ => trivial⟩
    rcases List.mem_cons.mp hmem with heq | hold
    · obtain ⟨-, houtcome⟩ := Prod.mk.inj heq
      exact hcommitted result houtcome.symm
    · exact hinv.outcome task result hold

theorem results_callerOf {body : ToolM Result}
    (h : (results fingerprint messageId).Returns i body (fun _ => True) Committed) :
    (results fingerprint messageId).Returns i (callerOf body) (fun _ => True) fun _ _ => True := by
  refine returns_callerOf h fun result => .perform (stable_committed result)
    fun w r w' hinv hcommitted hexec => ?_
  obtain ⟨-, rfl⟩ := hexec
  refine ⟨⟨hinv.agrees, fun other hmem => ?_, hinv.published, hinv.outcome⟩, resultGuar_refl w,
    fun _ _ => trivial⟩
  rcases List.mem_cons.mp hmem with rfl | hold
  · exact hcommitted
  · exact hinv.returned other hold

/-- **Every job of a call** keeps the discipline of the results. -/
theorem results_program (job : Job) (hjob : job.ofCall messageId) :
    (results fingerprint messageId).Returns i (job.program fingerprint messageId)
      (fun _ => True) fun _ _ => True := by
  cases job with
  | ensureRequested request =>
      obtain ⟨identity, hreply, hidentity⟩ := hjob
      exact results_ensureRequested hreply hidentity
  | receiptRun request =>
      obtain ⟨identity, hreply, hidentity⟩ := hjob
      exact results_taskOf (results_run hreply hidentity).run
  | receiptWait request task owned =>
      obtain ⟨identity, hreply, -⟩ := hjob
      refine results_callerOf (results_waits.checked ?_)
      rw [waitReceipt]
      split
      · exact results_waits.join task
      · split
        · exact results_waits.waitOwner task
        · exact results_waits.waitRecord (hreply ▸ results_rules identity) task
  | messageRun call => exact results_taskOf (results_message.runMessage call)
  | messageWait task owned =>
      refine results_callerOf ?_
      rw [waitMessage]
      split
      · exact results_waits.waitOwner task
      · exact results_waits.join task
  | abandon call =>
      refine results_callerOf (ResultRules.abandonCall call (fun identity _ =>
        results_rules identity) trivial (fun _ _ _ _ => trivial) fun w result _ h => ?_)
      obtain ⟨answer, hanswer, hresult⟩ := Option.map_eq_some_iff.mp h
      exact ⟨answer, hanswer, hresult⟩

theorem results_sound : (results fingerprint messageId).Sound fun _ _ => True where
  init := by
    rintro w ⟨recordedBefore, taken, nextSeq, rfl⟩
    exact ⟨⟨nofun, nofun, nofun⟩, nofun, nofun, nofun⟩
  environment := by
    rintro w w' h ⟨taken, nextSeq, rfl⟩
    exact ⟨⟨h.agrees.done, h.agrees.default, h.agrees.custom⟩, h.returned, h.published, h.outcome⟩
  crash := by
    rintro w w' h rfl
    exact ⟨h.agrees, h.returned, nofun, nofun⟩
  entry := by
    rintro s p w' hinv - ⟨job, hjob, -, rfl, rfl⟩
    refine ⟨?_, fun _ => True, trivial, (results_program job hjob).valid⟩
    rw [World.begin]
    split
    · exact ⟨hinv.agrees, hinv.returned, hinv.published, hinv.outcome⟩
    · exact hinv

end Results

/-- **Everyone sees the committed result**: in every run of executions under either protocol,
waits and settlements of the abandoned call, a result message stays as the first commit wrote it,
every result that is returned is that of the message, a receipt that is done points to it, and
where there is a message the receipt is done, unless it is of a custom identity and the message of
the default one. -/
theorem results_committed (fingerprint : Request → String) (messageId : String)
    {s t : Pool ToolOp Raised World}
    (hs : (callJobs fingerprint messageId).system.Reachable s)
    (hrun : (callJobs fingerprint messageId).system.Run s t) :
    (∀ answer, s.shared.store.answer = some answer → t.shared.store.answer = some answer) ∧
      (∀ result ∈ t.shared.returned,
        ∃ answer, t.shared.store.answer = some answer ∧ answer.result = result) ∧
      (∀ record, t.shared.store.receipt = some record → record.value.phase = .done →
        ∃ answer, t.shared.store.answer = some answer ∧
          record.value.result = some (.message answer.messageId answer.seq)) ∧
      ∀ answer, t.shared.store.answer = some answer →
        (answer.messageId ≠ messageId → ∃ record, t.shared.store.receipt = some record) ∧
          ∀ record, t.shared.store.receipt = some record → record.value.phase = .done ∨
            answer.messageId = messageId ∧ record.value.replyId ≠ some messageId := by
  have hguar : resultGuar s.shared t.shared :=
    results_sound.relates resultGuar_refl (fun _ _ _ => resultGuar_trans)
      (fun _ _ _ _ => results_steps) (results_sound.reachable hs) hrun
  have hinv := (results_sound.reachable (hs.run hrun)).inv
  refine ⟨hguar.2, hinv.returned, fun record hrecord hdone => ?_, fun answer hanswer => ⟨?_, ?_⟩⟩
  · obtain ⟨answer, hanswer, -, hpoints⟩ := hinv.agrees.done record hrecord hdone
    exact ⟨answer, hanswer, hpoints⟩
  · intro hne
    obtain ⟨record, hrecord, -⟩ := hinv.agrees.custom answer hanswer hne
    exact ⟨record, hrecord⟩
  · intro record hrecord
    by_cases hdone : record.value.phase = .done
    · exact .inl hdone
    · refine .inr ⟨?_, fun hreply => hdone (hinv.agrees.default record hrecord hreply)⟩
      by_contra hne
      exact not_inPhase_done hrecord hdone (hinv.agrees.custom answer hanswer hne)

/-! ### A receipt beside the result -/

/-- The call is admitted under a custom identity, and then executed under the default one. -/
def sampleBeside : World :=
  sampleJob (.messageRun sampleCall) 2
    (sampleJob (.ensureRequested sampleCall) 1 (samplePool 1).shared)

theorem reachable_sampleBeside : ∃ threads,
    (callJobs Request.binding "tool-result").system.Reachable ⟨sampleBeside, threads, 3⟩ := by
  have hcustom : (Job.ensureRequested sampleCall).ofCall "tool-result" :=
    ⟨"custom-result", rfl, by decide⟩
  obtain ⟨threads, hfirst⟩ := runVia_sampleJob (A := Job.ofCall "tool-result")
    (G := fun _ _ => True) (s := samplePool 1) (j := .ensureRequested sampleCall)
    (fun _ _ => trivial) hcustom trivial rfl
  have hfree : (sampleJob (.ensureRequested sampleCall) 1 (samplePool 1).shared).slot = none := by
    decide +kernel
  obtain ⟨threads', hsecond⟩ := runVia_sampleJob (A := Job.ofCall "tool-result")
    (G := fun _ _ => True)
    (s := ⟨sampleJob (.ensureRequested sampleCall) 1 (samplePool 1).shared, threads, 2⟩)
    (j := .messageRun sampleCall) (fun _ _ => trivial) trivial trivial hfree
  exact ⟨threads', samplePool 1, init_samplePool 1 _, hfirst.trans hsecond⟩

/-- The result message is there, and the receipt stays as it was requested. -/
theorem results_beside_receipt :
    ¬ ∀ (fingerprint : Request → String) (messageId : String) (s : Pool ToolOp Raised World),
      (callJobs fingerprint messageId).system.Reachable s →
        ∀ record, s.shared.store.receipt = some record →
          (record.value.phase = .done ↔ ∃ answer, s.shared.store.answer = some answer) := by
  intro h
  obtain ⟨threads, hreach⟩ := reachable_sampleBeside
  have hreceipt : sampleBeside.store.receipt = some ⟨0, initial Request.binding sampleCall⟩ := by
    decide +kernel
  have hanswer : sampleBeside.store.answer.isSome = true := by decide +kernel
  have hdone := (h _ _ _ hreach _ hreceipt).mpr (Option.isSome_iff_exists.mp hanswer)
  cases hdone

/-- The message of that run is the result of the call. -/
theorem results_committed_beside :
    ∃ answer, sampleBeside.store.answer = some answer ∧ answer.messageId = "tool-result" := by
  obtain ⟨threads, hreach⟩ := reachable_sampleBeside
  have hanswer : sampleBeside.store.answer.isSome = true := by decide +kernel
  obtain ⟨answer, hanswer⟩ := Option.isSome_iff_exists.mp hanswer
  have hreceipt : sampleBeside.store.receipt = some ⟨0, initial Request.binding sampleCall⟩ := by
    decide +kernel
  have hresults := results_committed Request.binding "tool-result" hreach (.refl _)
  rcases (hresults.2.2.2 answer hanswer).2 _ hreceipt with hdone | ⟨hid, -⟩
  · cases hdone
  · exact ⟨answer, hanswer, hid⟩

end Tools

end Kirakira
