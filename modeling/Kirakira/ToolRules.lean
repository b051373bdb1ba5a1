import Kirakira.ToolCalls

/-!
# Rules for Tool Calls

What a discipline of the jobs of one key has to show, and what follows for their programs. A
discipline answers for the operations; the paths of the programs through them are followed
here once, for any postcondition of the results and any assertions on the way to the tool.

## Main results

* `RunRules.run` — the task of the receipt protocol.
* `MessageRules.runMessage` — the task of the message protocol.
* `ResultRules.abandonCall`, `ResultRules.waitRecord` — the other jobs.
-/

namespace Kirakira

namespace Tools

open Coroutine

/-! ### Operations -/

variable {fingerprint : Request → String} {messageId : String} {allowed : Job → Prop}
  {D : Discipline (toolCalls fingerprint messageId allowed)} {i : ℕ} {β γ : Type}

variable {P : World → Prop} {R : β → World → Prop} {reply : Option String}

theorem returns_of_still {o : ToolOp β} (hrefl : ∀ w, D.guar i w w) (hP : D.Stable i P)
    (ho : ∀ w r w', Exec i o w r w' → w' = w ∧ ∀ b, r = .ok b → D.inv w → P w → R b w) :
    D.Returns i (perform o) P R := by
  refine Discipline.Returns.perform hP fun w r w' hinv hw hexec => ?_
  obtain ⟨rfl, hr⟩ := ho w r w' hexec
  exact ⟨hinv, hrefl _, fun b hb => hr b hb hinv hw⟩

theorem returns_outside {o : Outside β} (hrefl : ∀ w, D.guar i w w) (hP : D.Stable i P) :
    D.Returns i (outside o) P fun _ => P := by
  refine returns_of_still hrefl hP fun w r w' hexec => ?_
  exact ⟨hexec, fun _ _ _ hw => hw⟩

theorem returns_look {f : Store → Except Raised β} (hrefl : ∀ w, D.guar i w w) (hP : D.Stable i P) :
    D.Returns i (look f) P fun b w => P w ∧ f w.store = .ok b := by
  refine returns_of_still hrefl hP fun w r w' hexec => ?_
  exact ⟨hexec.1, fun b hb _ hw => ⟨hw, hexec.2 b hb⟩⟩

theorem returns_attempt {p : ToolM β} (h : D.Returns i p P R) :
    D.Returns i (attempt p) P fun x w => ∀ b, x = .ok b → R b w := by
  refine .catching (.bind h fun b => .pure fun w _ hb c hc => ?_) fun e => .pure ?_
  · exact Except.ok.inj hc ▸ hb
  · exact fun _ _ _ _ hb => nomatch hb

theorem returns_withTool {binding : String} {body : Tool → ToolM β} (hrefl : ∀ w, D.guar i w w)
    (hP : D.Stable i P) (hR : ∀ b, D.Stable i (R b)) (h : ∀ tool, D.Returns i (body tool) P R) :
    D.Returns i (withTool binding body) P R := by
  refine .bind (returns_outside hrefl hP) fun tool => .bind (returns_attempt (h tool)) fun x => ?_
  refine .bind (returns_outside hrefl ?_) fun _ => .ofExcept fun b w hb _ hw => hw b hb
  cases x with
  | ok b => exact fun s t hs ht hb hrely c hc => hR c s t hs ht (hb c hc) hrely
  | error e => exact fun _ _ _ _ _ _ _ hc => nomatch hc

theorem returns_checkReply (hrefl : ∀ w, D.guar i w w) (hP : D.Stable i P) :
    D.Returns i (checkReply reply) P fun _ => P := by
  rw [checkReply]
  split
  · exact returns_outside hrefl hP
  · exact .pure fun _ _ h => h

theorem returns_checkBatch (hrefl : ∀ w, D.guar i w w) (hP : D.Stable i P) :
    D.Returns i (checkBatch reply) P fun _ => P := by
  rw [checkBatch]
  split
  · exact returns_outside hrefl hP
  · exact .pure fun _ _ h => h

theorem returns_prepareReply {result : Result} (hrefl : ∀ w, D.guar i w w) (hP : D.Stable i P) :
    D.Returns i (prepareReply reply result) P fun _ => P := by
  cases reply with
  | none => exact .pure fun _ _ h => h
  | some messageId => exact returns_outside hrefl hP

/-! ### Results -/

/-- What a discipline owes the programs that commit a result of the call or adopt one: what
they return meets `post`, where they finish receipts with values in `V`. -/
structure ResultRules (D : Discipline (toolCalls fingerprint messageId allowed)) (i : ℕ)
    (reply : Option String) (V : Receipt → Prop) (post : Result → World → Prop) : Prop where
  refl : ∀ w, D.guar i w w
  stable : ∀ result, D.Stable i (post result)
  finish : ∀ value, V value → ∀ result notify, D.Returns i
    (perform (.commit (fun store => store.finish value result reply) notify)) (fun _ => True) post
  publish : ∀ result, D.Returns i (perform (.publish result)) (post result) fun _ => post result
  read : ∀ saved result w, D.inv w → w.store.resultOf reply saved = .ok result → post result w

theorem completed_eq_ok {store : Store} {value : Receipt} {result : Result}
    (h : store.completed value reply = .ok (some result)) :
    ∃ saved, store.resultOf reply saved = .ok result := by
  rw [Store.completed] at h
  split at h
  · cases h
  · next current _ =>
      split at h
      · cases h
      · split at h
        · cases h
        · split at h
          · next previous hprevious =>
              obtain rfl := Option.some.inj (Except.ok.inj h)
              exact ⟨current.value.result, hprevious⟩
          · cases h

theorem record_eq_ok {store : Store} {request : String} {record : Option Record}
    (h : store.record request = .ok record) : store.receipt = record := by
  rw [Store.record] at h
  split at h
  · next hnone => exact hnone.trans (Except.ok.inj h)
  · next current hcurrent =>
      split at h
      · cases h
      · exact hcurrent.trans (Except.ok.inj h)

namespace ResultRules

variable {reply : Option String} {V : Receipt → Prop} {post : Result → World → Prop}

theorem look_resultOf (rules : ResultRules D i reply V post) (hP : D.Stable i P)
    (saved : Option Saved) : D.Returns i (look fun store => store.resultOf reply saved) P post :=
  (returns_look rules.refl hP).mono (fun _ _ h => h) fun result w hinv h =>
    rules.read saved result w hinv h.2

theorem finish_returns (rules : ResultRules D i reply V post) {value : Receipt} (hvalue : V value)
    (result : Result) (notify : Bool) :
    D.Returns i (Tools.finish value result reply notify) (fun _ => True) post := by
  refine .catching ?_ fun e => ?_
  · exact .bind (returns_prepareReply rules.refl (.const True)) fun _ =>
      rules.finish value hvalue result notify
  · cases e with
    | conflict text =>
        dsimp only
        split
        · exact .raise
        · refine .bind (returns_look rules.refl (.const True)) fun previous => ?_
          cases previous with
          | none => exact .raise
          | some previous =>
              have hpublish : D.Returns i (Tools.publish notify previous) (post previous)
                  fun _ => post previous := by
                rw [Tools.publish]
                split
                · exact rules.publish previous
                · exact .pure fun _ _ h => h
              refine .bind (hpublish.pre fun w hinv h => ?_) fun _ => .pure fun _ _ h => h
              obtain ⟨saved, hsaved⟩ := completed_eq_ok h.2
              exact rules.read saved previous w hinv hsaved
    | _ => exact .raise

variable {request : Request}

theorem commit (rules : ResultRules D i request.reply (fun _ => True) post) (record : Option Record)
    (result : Result) :
    D.Returns i (Tools.commit fingerprint request record result) (fun _ => True) post :=
  .bind (returns_outside rules.refl (.const True)) fun _ => rules.finish_returns trivial result true

theorem settleFailure (rules : ResultRules D i request.reply (fun _ => True) post) (record : Record)
    (failure : Raised) :
    D.Returns i (Tools.settleFailure fingerprint request record failure) (fun _ => True) post := by
  refine .bind (returns_attempt (rules.commit (some record) (invocationFailure failure)))
    fun outcome => ?_
  split
  · exact .raise
  · exact .raise

theorem recover (rules : ResultRules D i request.reply (fun _ => True) post) (e : Raised) :
    D.Returns i (Tools.recover fingerprint request e) (fun _ => True) post := by
  cases e with
  | conflict text =>
      refine .bind (returns_look rules.refl (.const True)) fun current => ?_
      cases current with
      | none => exact .raise
      | some current =>
          dsimp only
          split
          · exact .raise
          · exact (rules.look_resultOf (.const True) _).pre fun _ _ _ => trivial
  | cancelled =>
      refine .bind (R := fun _ _ => True) ?_ fun _ => .raise
      refine (returns_attempt (R := post) ?_).mono (fun _ _ h => h) fun _ _ _ _ => trivial
      refine .bind (returns_look rules.refl (.const True)) fun current => ?_
      cases current with
      | none => exact .raise
      | some current =>
          dsimp only
          split
          · exact .raise
          · exact (rules.commit (some current) _).pre fun _ _ _ => trivial
  | _ => exact .raise

theorem abandonRecord {identity : String} (rules : ResultRules D i (some identity) V post)
    (call : Request) {current : Record} (hcurrent : V current.value) :
    D.Returns i (Tools.abandonRecord fingerprint call current identity) (fun _ => True) post := by
  rw [Tools.abandonRecord]
  split
  · exact .raise
  · split
    · exact rules.look_resultOf (.const True) _
    · exact rules.finish_returns hcurrent _ false

/-- `abandon_call`, where the result rules hold for every identity that a receipt of this kind
names. -/
theorem abandonCall (call : Request)
    (rules : ∀ identity, identity = messageId ∨ (∃ value, V value ∧ value.replyId = some identity) →
      ResultRules D i (some identity) V post)
    (hinitial : V (initial fingerprint { call with reply := some messageId }))
    (hstored : ∀ w record, D.inv w → w.store.receipt = some record → V record.value)
    (answered : ∀ w result, D.inv w → w.store.answer.map Answer.result = some result →
      post result w) :
    D.Returns i (Tools.abandonCall fingerprint call messageId) (fun _ => True) post := by
  have hrules := rules messageId (.inl rfl)
  have hrefl := hrules.refl
  refine .bind (returns_outside hrefl (.const True)) fun _ => ?_
  refine .bind (returns_look hrefl (.const True)) fun record => ?_
  cases record with
  | none =>
      refine .bind ((returns_look hrefl (.const True)).pre fun _ _ _ => trivial) fun result => ?_
      cases result with
      | some result => exact .pure fun w hinv h => answered w result hinv (Except.ok.inj h.2)
      | none => exact (hrules.finish_returns hinitial _ false).pre fun _ _ _ => trivial
  | some current =>
      dsimp only
      split
      · exact .raise
      · next identity hidentity =>
          have hrecord (h : V current.value) : D.Returns i
              (Tools.abandonRecord fingerprint call current identity) (fun _ => True) post :=
            (rules identity (.inr ⟨_, h, hidentity⟩)).abandonRecord call h
          refine Discipline.Returns.pre (.given hrecord) fun w hinv h => ⟨?_, trivial⟩
          exact hstored w current hinv (Except.ok.inj h.2)

end ResultRules

/-! ### The receipt protocol -/

/-- What a discipline owes the task of the receipt protocol besides: `known` is what the task
knows of the receipt it read, `entering` what it knows once its start intent is committed over a
receipt of this phase. -/
structure RunRules (D : Discipline (toolCalls fingerprint messageId allowed)) (i : ℕ)
    (request : Request) (post : Result → World → Prop) (known : Option Record → World → Prop)
    (entering : Phase → World → Prop) : Prop where
  results : ResultRules D i request.reply (fun _ => True) post
  stableKnown : ∀ record, D.Stable i (known record)
  stableEntering : ∀ phase, D.Stable i (entering phase)
  first : ∀ w, D.inv w → ¬ w.store.InPhase .done → known w.store.receipt w
  save : ∀ record arguments, (∀ old, record = some old → old.value.phase = .requested) →
    D.Returns i (perform (.transact fun store => store.save
      { initial fingerprint request with phase := .prepared, arguments := arguments }
      (record.map Record.version))) (known record)
      fun saved w => saved.value.phase = .prepared ∧ known (some saved) w
  query : ∀ record, D.Returns i (perform .query) (known (some record))
    fun _ => known (some record)
  start : ∀ record permission, record.value.phase ≠ .requested → record.value.phase ≠ .done →
    D.Returns i (perform (.start record permission)) (known (some record))
      fun _ => entering record.value.phase
  invoke : ∀ phase idempotent arguments, (idempotent = true ∨ phase ≠ .started) →
    D.Returns i (perform (.invoke idempotent arguments)) (entering phase) fun _ _ => True

namespace RunRules

variable {request : Request} {post : Result → World → Prop}
  {known : Option Record → World → Prop} {entering : Phase → World → Prop}

theorem launch (rules : RunRules D i request post known entering) (tool : Tool) (record : Record)
    (hprepared : record.value.phase ≠ .requested) (hopen : record.value.phase ≠ .done)
    (htool : tool.idempotent = true ∨ record.value.phase ≠ .started) :
    D.Returns i (Tools.launch fingerprint request tool record) (known (some record)) post := by
  have hrefl := rules.results.refl
  have hknown := rules.stableKnown (some record)
  have hcommit (record : Option Record) (result : Result) {P : World → Prop} :
      D.Returns i (Tools.commit fingerprint request record result) P post :=
    (rules.results.commit record result).pre fun _ _ _ => trivial
  refine .bind (R := fun permission w => permission.isRight = true → known (some record) w) ?_
    fun permission => ?_
  · refine .catching ((returns_outside hrefl hknown).mono (fun _ _ h => h) fun _ _ _ h _ => h)
      fun e => ?_
    split
    · exact .pure fun _ _ _ h => nomatch h
    · exact .raise
  cases permission with
  | inl text => exact hcommit _ _
  | inr permission =>
      refine .bind ((returns_outside hrefl hknown).pre fun _ _ h => h rfl) fun _ => ?_
      refine .bind (returns_checkReply hrefl hknown) fun _ => ?_
      refine .bind (R := fun begun w => begun.isRight = true → entering record.value.phase w) ?_
        fun begun => ?_
      · refine .catching (.bind (rules.start record permission hprepared hopen) fun current =>
          .pure fun _ _ h _ => h) fun e => ?_
        split
        · exact .pure fun _ _ _ h => nomatch h
        · exact .raise
      cases begun with
      | inl text => exact hcommit _ _
      | inr current =>
          refine .bind (R := fun _ _ => True) ?_ fun result => hcommit _ _
          refine .catching ((rules.invoke record.value.phase tool.idempotent
            record.value.arguments htool).pre fun _ _ h => h rfl) fun failure => ?_
          exact (rules.results.settleFailure current failure).mono (fun _ _ h => h)
            fun _ _ _ _ => trivial

theorem proceed (rules : RunRules D i request post known entering) (tool : Tool)
    (record : Record) (hprepared : record.value.phase ≠ .requested)
    (hopen : record.value.phase ≠ .done) :
    D.Returns i (Tools.proceed fingerprint request tool record) (known (some record)) post := by
  rw [Tools.proceed]
  split
  · refine .bind (rules.query record) fun found => ?_
    cases found with
    | some found => exact (rules.results.commit _ _).pre fun _ _ _ => trivial
    | none =>
        dsimp only
        split
        · exact (rules.results.commit _ _).pre fun _ _ _ => trivial
        · next htool =>
            exact rules.launch tool record hprepared hopen (.inl (Bool.eq_true_of_not_eq_false htool))
  · next hstarted => exact rules.launch tool record hprepared hopen (.inr hstarted)

/-- What the preparation hands on. -/
def Ready (known : Option Record → World → Prop) : Result ⊕ Record → World → Prop
  | .inl _, _ => True
  | .inr record, w => record.value.phase ≠ .requested ∧ record.value.phase ≠ .done ∧
      known (some record) w

theorem prepareRequested (rules : RunRules D i request post known entering)
    (record : Option Record) (hrequested : ∀ old, record = some old → old.value.phase = .requested) :
    D.Returns i (Tools.prepareRequested fingerprint request record) (known record)
      (Ready known) := by
  have hrefl := rules.results.refl
  have hknown := rules.stableKnown record
  refine .bind (R := fun final w => final.isRight = true → known record w) ?_ fun final => ?_
  · refine .catching ((returns_outside hrefl hknown).mono (fun _ _ h => h) fun _ _ _ h _ => h)
      fun e => ?_
    split
    · exact .pure fun _ _ _ h => nomatch h
    · exact .raise
  cases final with
  | inl text => exact .pure fun _ _ _ => trivial
  | inr final =>
      dsimp only
      split
      · exact .raise
      · refine .bind ((returns_outside hrefl hknown).pre fun _ _ h => h rfl) fun _ => ?_
        refine .bind (rules.save record final hrequested) fun saved => .pure fun w _ h => ?_
        exact ⟨fun heq => (nomatch h.1.symm.trans heq), fun heq => (nomatch h.1.symm.trans heq), h.2⟩

theorem prepareRecord (rules : RunRules D i request post known entering)
    (record : Option Record) (hopen : ∀ old, record = some old → old.value.phase ≠ .done) :
    D.Returns i (Tools.prepareRecord fingerprint request record) (known record)
      (Ready known) := by
  cases record with
  | none => exact rules.prepareRequested none fun _ h => nomatch h
  | some record =>
      rw [Tools.prepareRecord]
      split
      · next hrequested =>
          exact rules.prepareRequested (some record) fun old h => Option.some.inj h ▸ hrequested
      · next hprepared => exact .pure fun w _ h => ⟨hprepared, hopen record rfl, h⟩

theorem runBody (rules : RunRules D i request post known entering) (record : Option Record)
    (hopen : ∀ old, record = some old → old.value.phase ≠ .done) :
    D.Returns i (Tools.runBody fingerprint request record) (known record) post := by
  have hrefl := rules.results.refl
  have hknown := rules.stableKnown record
  refine .bind (returns_checkReply hrefl hknown) fun _ => ?_
  split
  · exact .raise
  · refine .bind (returns_checkBatch hrefl hknown) fun refusal => ?_
    cases refusal with
    | some text => exact (rules.results.commit _ _).pre fun _ _ _ => trivial
    | none =>
        refine returns_withTool hrefl hknown rules.results.stable fun tool => ?_
        refine .bind (returns_outside hrefl hknown) fun _ => ?_
        refine .bind (rules.prepareRecord record hopen) fun ready => ?_
        cases ready with
        | inl result => exact (rules.results.commit _ _).pre fun _ _ _ => trivial
        | inr record => exact .given fun hprepared => .given fun hopen =>
            rules.proceed tool record hprepared hopen

/-- **The task of the receipt protocol** keeps the discipline and returns what meets the
postcondition. -/
theorem run (rules : RunRules D i request post known entering) :
    D.Returns i (Tools.run fingerprint request) (fun _ => True) post := by
  have hrefl := rules.results.refl
  have hbody (record : Option Record) (hopen : ∀ old, record = some old → old.value.phase ≠ .done) :
      D.Returns i ((Tools.runBody fingerprint request record).catching
        (Tools.recover fingerprint request)) (known record) post :=
    .catching (rules.runBody record hopen) fun e => rules.results.recover e
  -- what the first read saw is what the task knows from there on
  have hfirst : D.Returns i (look fun store => store.record (fingerprint request)) (fun _ => True)
      fun record w => (∀ old, record = some old → old.value.phase ≠ .done) → known record w := by
    refine (returns_look hrefl (.const True)).mono (fun _ _ h => h) fun record w hinv h hopen => ?_
    obtain rfl := record_eq_ok h.2
    exact rules.first w hinv fun ⟨old, hold, hdone⟩ => hopen old hold hdone
  refine .bind hfirst fun record => ?_
  cases record with
  | none => exact (hbody none fun _ h => nomatch h).pre fun _ _ h => h fun _ h => nomatch h
  | some current =>
      dsimp only
      split
      · exact (rules.results.look_resultOf (.const True) _).pre fun _ _ _ => trivial
      · next hopen =>
          have hopen : ∀ old, some current = some old → old.value.phase ≠ .done :=
            fun old h => Option.some.inj h ▸ hopen
          exact (hbody (some current) hopen).pre fun _ _ h => h hopen

end RunRules

/-! ### The message protocol -/

/-- What a discipline owes the task of the message protocol: `begun` is what the task knows from
its beginning, `unanswered` once it saw that there is no result, `entering` once it saw that the
call was recorded in this process. -/
structure MessageRules (D : Discipline (toolCalls fingerprint messageId allowed)) (i : ℕ)
    (post : Result → World → Prop) (begun unanswered entering : World → Prop) : Prop where
  refl : ∀ w, D.guar i w w
  stable : ∀ result, D.Stable i (post result)
  stableBegun : D.Stable i begun
  stableUnanswered : D.Stable i unanswered
  stableEntering : D.Stable i entering
  commit : ∀ result, D.Returns i
    (perform (.commit (fun store => store.commitMessage messageId result) true)) (fun _ => True)
    post
  publish : ∀ result, D.Returns i (perform (.publish result)) (post result) fun _ => post result
  existing : ∀ w result, D.inv w → w.store.existingResult messageId = .ok (some result) →
    post result w
  missing : ∀ w, D.inv w → begun w → w.store.existingResult messageId = .ok none → unanswered w
  recorded : ∀ w, D.inv w → unanswered w → w.recordedBefore = false → entering w
  invoke : ∀ idempotent arguments,
    D.Returns i (perform (.invoke idempotent arguments)) entering fun _ _ => True

namespace MessageRules

variable {post : Result → World → Prop} {begun unanswered entering : World → Prop}

theorem commitMessage (rules : MessageRules D i post begun unanswered entering) (result : Result) :
    D.Returns i (Tools.commitMessage messageId result) (fun _ => True) post := by
  refine .catching ?_ fun e => ?_
  · exact .bind (returns_outside rules.refl (.const True)) fun _ => rules.commit result
  · cases e with
    | conflict text =>
        refine .bind (returns_look rules.refl (.const True)) fun previous => ?_
        cases previous with
        | none => exact .raise
        | some previous =>
            refine .bind ((rules.publish previous).pre fun w hinv h => ?_) fun _ =>
              .pure fun _ _ h => h
            exact rules.existing w previous hinv h.2
    | _ => exact .raise

theorem commitAnswer (rules : MessageRules D i post begun unanswered entering) (result : Result) :
    D.Returns i (Tools.commitAnswer messageId result) P post :=
  .bind ((returns_outside rules.refl (.const True)).pre fun _ _ _ => trivial) fun _ =>
    rules.commitMessage result

theorem invokeMessage (rules : MessageRules D i post begun unanswered entering) (call : Request) :
    D.Returns i (Tools.invokeMessage call) entering fun _ _ => True := by
  have hrefl := rules.refl
  have hentering := rules.stableEntering
  refine returns_withTool hrefl hentering (fun _ => .const True) fun tool => ?_
  refine .bind (returns_outside hrefl hentering) fun _ => ?_
  refine .bind (R := fun final w => final.isRight = true → entering w) ?_ fun final => ?_
  · refine .catching ((returns_outside hrefl hentering).mono (fun _ _ h => h) fun _ _ _ h _ => h)
      fun e => ?_
    split
    · exact .pure fun _ _ _ h => nomatch h
    · exact .raise
  cases final with
  | inl text => exact .pure fun _ _ _ => trivial
  | inr final =>
      dsimp only
      split
      · exact .raise
      refine .bind (R := fun permission w => permission.isRight = true → entering w) ?_
        fun permission => ?_
      · refine .catching ((returns_outside hrefl hentering).mono (fun _ _ h => h rfl)
          fun _ _ _ h _ => h) fun e => ?_
        split
        · exact .pure fun _ _ _ h => nomatch h
        · exact .raise
      cases permission with
      | inl text => exact .pure fun _ _ _ => trivial
      | inr permission =>
          refine .bind ((returns_outside hrefl hentering).pre fun _ _ h => h rfl) fun _ => ?_
          refine .bind (returns_outside hrefl hentering) fun _ => ?_
          refine .bind (R := fun refusal w => refusal = none → entering w) ?_ fun refusal => ?_
          · refine .catching (.bind (returns_outside hrefl hentering) fun _ =>
              .pure fun _ _ h _ => h) fun e => ?_
            split
            · exact .pure fun _ _ _ h => nomatch h
            · exact .raise
          cases refusal with
          | some text => exact .pure fun _ _ _ => trivial
          | none =>
              exact .catching ((rules.invoke tool.idempotent final).pre fun _ _ h => h rfl)
                fun failure => .raise

theorem settleMessage (rules : MessageRules D i post begun unanswered entering) (call : Request) :
    D.Returns i (Tools.settleMessage call messageId) begun post := by
  have hrefl := rules.refl
  have hunanswered := rules.stableUnanswered
  refine .bind (returns_look hrefl rules.stableBegun) fun existing => ?_
  cases existing with
  | some existing => exact .pure fun w hinv h => rules.existing w existing hinv h.2
  | none =>
      refine .bind ((returns_outside hrefl hunanswered).pre fun w hinv h =>
        rules.missing w hinv h.1 h.2) fun _ => ?_
      refine .bind (returns_outside hrefl hunanswered) fun _ => ?_
      refine .bind (returns_outside hrefl hunanswered) fun refusal => ?_
      cases refusal with
      | some text => exact rules.commitAnswer _
      | none =>
          refine .bind (R := fun before w => before = false → entering w) ?_ fun before => ?_
          · refine returns_of_still hrefl hunanswered fun w r w' hexec => ⟨hexec.2, ?_⟩
            rintro b hb hinv hw hbefore
            obtain rfl := Except.ok.inj (hexec.1.symm.trans hb)
            exact rules.recorded w hinv hw hbefore
          split
          · exact rules.commitAnswer _
          · next hbefore =>
              refine .catching (.bind ((rules.invokeMessage call).pre fun _ _ h =>
                h (Bool.eq_false_of_not_eq_true hbefore)) fun _ => rules.commitAnswer _)
                fun failure => ?_
              split
              · refine .bind (returns_attempt (rules.commitAnswer _)) fun outcome => ?_
                split
                · exact .raise
                · exact .raise
              · exact .raise

/-- **The task of the message protocol** keeps the discipline and returns what meets the
postcondition. -/
theorem runMessage (rules : MessageRules D i post begun unanswered entering) (call : Request) :
    D.Returns i (Tools.runMessage call messageId) begun post := by
  refine .catching (rules.settleMessage call) fun e => ?_
  cases e with
  | conflict text =>
      refine .bind (returns_look rules.refl (.const True)) fun existing => ?_
      cases existing with
      | none => exact .raise
      | some existing => exact .pure fun w hinv h => rules.existing w existing hinv h.2
  | _ => exact .raise

end MessageRules

/-! ### Waits -/

/-- What a discipline owes the callers: what was handed over or left behind meets `post`. -/
structure WaitRules (D : Discipline (toolCalls fingerprint messageId allowed)) (i : ℕ)
    (post : Result → World → Prop) : Prop where
  refl : ∀ w, D.guar i w w
  stable : ∀ result, D.Stable i (post result)
  published : ∀ w task result, D.inv w → (task, result) ∈ w.published → post result w
  outcome : ∀ w task result, D.inv w → (task, .ok result) ∈ w.outcomes → post result w

namespace WaitRules

variable {post : Result → World → Prop}

theorem join (rules : WaitRules D i post) (task : ℕ) :
    D.Returns i (perform (.join task)) P post := by
  have hjoin : D.Returns i (perform (.join task)) (fun _ => True) post :=
    returns_of_still rules.refl (.const True) fun w r w' hexec => ⟨hexec.1, fun b hb hinv _ =>
      rules.outcome w task b hinv (hexec.2 b hb)⟩
  exact hjoin.pre fun _ _ _ => trivial

theorem waitOwner (rules : WaitRules D i post) (task : ℕ) :
    D.Returns i (Tools.waitOwner task) (fun _ => True) post := by
  refine .bind (R := fun result w => ∀ b, result = some b → post b w) ?_ fun result => ?_
  · exact returns_of_still rules.refl (.const True) fun w r w' hexec => ⟨hexec.1,
      fun result hresult hinv _ b hb => rules.published w task b hinv (hexec.2 b (hb ▸ hresult))⟩
  cases result with
  | none => exact rules.join task
  | some result =>
      refine .bind ((returns_outside rules.refl (rules.stable result)).pre fun _ _ h =>
        h result rfl) fun done => ?_
      split
      · exact rules.join task
      · exact .pure fun _ _ h => h

theorem waitRecord {request : Request} {V : Receipt → Prop} (rules : WaitRules D i post)
    (results : ResultRules D i request.reply V post) (task : ℕ) :
    D.Returns i (Tools.waitRecord fingerprint request task) (fun _ => True) post := by
  have hrefl := rules.refl
  have hadopt (saved : Option Saved) {P : World → Prop} : D.Returns i
      (look fun store => store.resultOf request.reply saved) P post :=
    (results.look_resultOf (.const True) saved).pre fun _ _ _ => trivial
  refine .bind (returns_outside hrefl (.const True)) fun joined => ?_
  split
  · refine .bind (returns_attempt (rules.join task)) fun outcome => ?_
    have hstable : D.Stable i fun w => ∀ b, outcome = .ok b → post b w :=
      fun s t hs ht h hrely b hb => rules.stable b s t hs ht (h b hb) hrely
    -- What is left of a task that ended: its receipt, or its outcome again.
    have hfinal (rest : Option Record → ToolM Result)
        (hnone : rest none = Program.ofExcept outcome)
        (hsome : ∀ record, rest (some record) = if record.value.phase = .done then
          look fun store => store.resultOf request.reply record.value.result
          else Program.ofExcept outcome) :
        D.Returns i ((look fun store => store.record (fingerprint request)) >>= rest)
          (fun w => ∀ b, outcome = .ok b → post b w) post := by
      refine .bind (returns_look hrefl hstable) fun record => ?_
      cases record with
      | none =>
          rw [hnone]
          exact .ofExcept fun b w hb _ h => h.1 b hb
      | some record =>
          rw [hsome]
          split
          · exact hadopt _
          · exact .ofExcept fun b w hb _ h => h.1 b hb
    split
    · exact hfinal _ rfl fun _ => rfl
    · exact hfinal _ rfl fun _ => rfl
    · exact .raise
  · refine .bind (R := post) ?_ fun result => ?_
    · refine .bind (returns_outside hrefl (.const True)) fun _ => ?_
      refine .bind (returns_look hrefl (.const True)) fun record => ?_
      cases record with
      | none => exact .raise
      | some record =>
          dsimp only
          split
          · exact hadopt _
          · exact .raise
    · split
      · exact rules.join task
      · exact .pure fun _ _ h => h

theorem checked {request : Request} (rules : WaitRules D i post) {wait : ToolM Result}
    (h : D.Returns i wait (fun _ => True) post) :
    D.Returns i (Tools.checked fingerprint request wait) (fun _ => True) post := by
  refine .bind h fun result => .bind (returns_look rules.refl (rules.stable result))
    fun record => ?_
  cases record with
  | none => exact .raise
  | some record =>
      dsimp only
      split
      · exact .raise
      · exact .pure fun _ _ h => h.1

end WaitRules

/-! ### Jobs -/

theorem returns_taskOf {body : ToolM Result} {post : Result → World → Prop}
    (h : D.Returns i body P post) (hended : ∀ outcome, D.Returns i (perform (.ended outcome))
      (fun w => ∀ b, outcome = .ok b → post b w) fun _ _ => True) :
    D.Returns i (taskOf body) P fun _ _ => True :=
  .bind (returns_attempt h) hended

theorem returns_callerOf {body : ToolM Result} {post : Result → World → Prop}
    (h : D.Returns i body P post)
    (hreturned : ∀ result, D.Returns i (perform (.returned result)) (post result)
      fun _ _ => True) : D.Returns i (callerOf body) P fun _ _ => True :=
  .bind h hreturned

end Tools

end Kirakira
