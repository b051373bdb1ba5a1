import Kirakira.ToolRules

/-!
# Tool Effects

How often the programs of one key enter the tool.

The receipt protocol commits its start intent before it enters the tool, and queries a call
that was started before; so only the task whose start intent was the first one enters a tool
that is not idempotent. The message protocol persists nothing before the result: what keeps
it from a second effect is that a task of this process that entered the tool has committed the
result before the next one begins, and the start of the process afterwards.

## Main results

* `effects_at_most_once` — the receipt protocol, in every run.
* `messageEffects_at_most_once` — the message protocol, in every run in which no task begins
  while the effect of an earlier one of the same process is unrecorded; and
  `messageEffects_twice`, a run without that condition.
-/

namespace Kirakira

namespace Tools

open Coroutine

/-! ### Samples -/

/-- A call without arguments; its result has a custom identity in the receipt protocol. -/
def sampleCall : Request :=
  ⟨"builtin:send", ⟨.obj [], rfl⟩, some "custom-result"⟩

/-- An execution whose tool succeeds; the gate in front of its commit raises this. -/
def sampleSurroundings (gate : Except Raised Unit) : Surroundings where
  outside
    | _, .check | _, .callMessage | _, .closeTool | _, .active | _, .checkStart
    | _, .prepareAppend .. => .ok ()
    | _, .commitAfter => gate
    | _, .checkBatch => .ok none
    | _, .openTool _ => .ok ⟨false⟩
    | _, .prepare arguments => .ok (.inr arguments)
    | _, .authorize _ arguments => .ok (.inr arguments)
    | _, .taskDone | _, .joinedFirst => .ok false
  queried := .ok none
  invoked := .ok (textResult .success "sent")

/-- Task `0` is cancelled in front of its commit, the others are not. -/
def sampleHandler (i : ℕ) : Handler ToolOp Raised World :=
  execute (sampleSurroundings (if i = 0 then .error .cancelled else .ok ())) i

/-- A job that runs without interruption. -/
def sampleJob (job : Job) (i : ℕ) (w : World) : World :=
  ((job.program Request.binding "tool-result").run (sampleHandler i) (w.begin job i)).2

/-- The pool before anything happened; its first job has this number. -/
def samplePool (n : ℕ) : Pool ToolOp Raised World :=
  ⟨World.fresh false [] 0, [], n⟩

theorem init_samplePool (n : ℕ) (allowed : Job → Prop) :
    (toolCalls Request.binding "tool-result" allowed).system.init (samplePool n) :=
  ⟨⟨false, [], 0, rfl⟩, rfl⟩

theorem runVia_sampleJob {A : Job → Prop}
    {G : Pool ToolOp Raised World → Move ToolOp Raised → Prop}
    (hG : ∀ s i, G s (.resume i)) {s : Pool ToolOp Raised World} {j : Job} (hjob : A j)
    (hbegin : G s (.begin (j.program Request.binding "tool-result")))
    (hfree : s.shared.slot = none) :
    ∃ threads, (toolCalls Request.binding "tool-result" A).system.RunVia G s
      ⟨sampleJob j s.next s.shared, threads, s.next + 1⟩ :=
  ⟨_, Machine.begin_alone (fun i => execute_spec _ i) hG hbegin
    ⟨j, hjob, fun _ => hfree, rfl, rfl⟩⟩

/-! ### The receipt protocol -/

/-- The jobs of the receipt protocol. -/
def Job.receipts : Job → Prop
  | .messageRun _ | .messageWait .. => False
  | _ => True

/-- The invariant of the effects: the first start intent is there before the tool is entered,
and a task that began when the receipt was done does not touch it. -/
structure EffectInv (w : World) : Prop where
  late : w.late ≠ [] → w.store.InPhase .done
  fresh : (∀ record, w.store.receipt = some record → record.value.phase.rank < 2) →
    w.unrepeatable = 0 ∧ w.starter = none
  once : w.unrepeatable + (if w.starter.isSome then 1 else 0) ≤ 1
  noLateEffects : w.lateEffects = 0

/-- What a job does to the others: the receipt evolves, and the start intent of another task
stays. -/
def effectGuar (i : ℕ) (w w' : World) : Prop :=
  Evolves w.store.receipt w'.store.receipt ∧ w'.late = w.late ∧
    ∀ j, j ≠ i → w.starter = some j → w'.starter = some j

section Effects

variable (fingerprint : Request → String) (messageId : String)

/-- The receipt protocol on one key. -/
abbrev receiptCalls : Machine ToolOp Raised World :=
  toolCalls fingerprint messageId Job.receipts

/-- The discipline of the effects. -/
def effects : Discipline (receiptCalls fingerprint messageId) where
  inv := EffectInv
  guar := effectGuar

variable {fingerprint messageId} {i : ℕ} {β : Type}

theorem effectGuar_refl (w : World) : effectGuar i w w :=
  ⟨.refl _, rfl, fun _ _ h => h⟩

/-- What a task knows of the receipt it read: the receipt evolves from there, and it was not
done when the task began. -/
def Known (i : ℕ) (record : Option Record) (w : World) : Prop :=
  Evolves record w.store.receipt ∧ i ∉ w.late

/-- What a task knows when its start intent is committed: it is the first one, unless the
receipt was started before. -/
def Entering (i : ℕ) (phase : Phase) (w : World) : Prop :=
  i ∉ w.late ∧ (phase ≠ .started → w.starter = some i)

variable {w : World}

theorem begin_late {job : Job} {j : ℕ} (h : i ∉ w.late) (hj : j ≠ i) :
    i ∉ (w.begin job j).late := by
  rw [World.begin]
  split
  · dsimp only
    split
    · exact fun hmem => (List.mem_cons.mp hmem).elim (fun heq => hj heq.symm) h
    · exact h
  · exact h

@[simp] theorem begin_store (w : World) (job : Job) (j : ℕ) :
    (w.begin job j).store = w.store := by
  rw [World.begin]
  split <;> rfl

@[simp] theorem begin_starter (w : World) (job : Job) (j : ℕ) :
    (w.begin job j).starter = w.starter := by
  rw [World.begin]
  split <;> rfl

theorem stable_known (record : Option Record) :
    (effects fingerprint messageId).Stable i (Known i record) := by
  rintro w w' - - ⟨hevolves, hlate⟩ hrely
  rcases hrely with ⟨j, -, hguar⟩ | ⟨taken, nextSeq, rfl⟩ | ⟨j, p, hj, job, -, -, -, rfl⟩
  · exact ⟨hevolves.trans hguar.1, hguar.2.1 ▸ hlate⟩
  · exact ⟨hevolves, hlate⟩
  · exact ⟨by rwa [begin_store], begin_late hlate hj⟩

theorem stable_entering (phase : Phase) :
    (effects fingerprint messageId).Stable i (Entering i phase) := by
  rintro w w' - - ⟨hlate, hstarter⟩ hrely
  rcases hrely with ⟨j, hj, hguar⟩ | ⟨taken, nextSeq, rfl⟩ | ⟨j, p, hj, job, -, -, -, rfl⟩
  · exact ⟨hguar.2.1 ▸ hlate, fun hphase => hguar.2.2 i hj.symm (hstarter hphase)⟩
  · exact ⟨hlate, hstarter⟩
  · exact ⟨begin_late hlate hj, by rwa [begin_starter]⟩

theorem EffectInv.evolve {store : Store} (h : EffectInv w)
    (hevolves : Evolves w.store.receipt store.receipt) : EffectInv { w with store := store } := by
  refine ⟨fun hlate => ?_, fun hfresh => h.fresh fun record hrecord => ?_, h.once, h.noLateEffects⟩
  · obtain ⟨record, hrecord, hdone⟩ := h.late hlate
    rw [hrecord] at hevolves
    exact ⟨record, hevolves.eq_of_done hdone, hdone⟩
  · rw [hrecord] at hevolves
    dsimp only at hfresh
    cases hafter : store.receipt with
    | none => rw [hafter] at hevolves; exact hevolves.elim
    | some after =>
        rw [hafter] at hevolves
        rcases hevolves with rfl | ⟨-, -, hle, -⟩
        · exact hfresh _ hafter
        · exact lt_of_le_of_lt hle (hfresh after hafter)

/-- The effects say nothing about what is returned. -/
def anything (_ : Result) (_ : World) : Prop :=
  True

theorem effects_results (reply : Option String) :
    ResultRules (effects fingerprint messageId) i reply (fun _ => True) anything where
  refl := effectGuar_refl
  stable _ := .const True
  finish value _ result notify := by
    refine .perform (.const True) fun w r w' hinv _ hexec => ?_
    obtain ⟨store, published, h, -, rfl⟩ := hexec
    have hevolves : Evolves w.store.receipt store.receipt :=
      (h.rule (Q := fun _ => True) (fun _ h => ⟨evolves_finish h, trivial⟩)
        fun h => h ▸ .refl _).1
    have hkept := hinv.evolve hevolves
    exact ⟨⟨hkept.late, hkept.fresh, hkept.once, hkept.noLateEffects⟩,
      ⟨hevolves, rfl, fun _ _ h => h⟩, fun _ _ => trivial⟩
  publish result := by
    refine .perform (.const True) fun w r w' hinv _ hexec => ?_
    obtain ⟨-, rfl⟩ := hexec
    exact ⟨⟨hinv.late, hinv.fresh, hinv.once, hinv.noLateEffects⟩,
      ⟨.refl _, rfl, fun _ _ h => h⟩, fun _ _ => trivial⟩
  read _ _ _ _ _ := trivial

/-- A start intent over the receipt a task knows: it is the first one, unless the receipt was
started before. -/
theorem Known.start {record saved : Record} {permission : FrozenJson} {store : Store}
    (h : Known i (some record) w) (hinv : EffectInv w) (hprepared : record.value.phase ≠ .requested)
    (hopen : record.value.phase ≠ .done)
    (hsave : saveStart record permission w.store = .ok (saved, store)) :
    EffectInv (w.startedBy i store) ∧ effectGuar i w (w.startedBy i store) ∧
      Entering i record.value.phase (w.startedBy i store) := by
  obtain ⟨hreceipt, hvalue, hstore, hevolves⟩ := h.1.started hopen hsave
  have hafter : store.receipt = some saved := by rw [hstore]
  have hstarted : store.InPhase .started := ⟨saved, hafter, by rw [hvalue]⟩
  by_cases hbefore : record.value.phase = .started
  · have hin : w.store.InPhase .started := ⟨record, hreceipt, hbefore⟩
    have hafter : w.startedBy i store = { w with store := store } := by
      rw [World.startedBy, if_neg fun h => h.2 hin]
    rw [hafter]
    exact ⟨hinv.evolve hevolves, ⟨hevolves, rfl, fun _ _ h => h⟩, h.2, fun h => absurd hbefore h⟩
  · have hnot : ¬ w.store.InPhase .started := by
      rintro ⟨old, hold, hphase⟩
      rw [hreceipt] at hold
      exact hbefore (Option.some.inj hold ▸ hphase)
    have hafter' : w.startedBy i store = { w with store := store, starter := some i } := by
      rw [World.startedBy, if_pos ⟨hstarted, hnot⟩]
    have hfresh := hinv.fresh fun old hold => by
      obtain rfl := Option.some.inj (hreceipt.symm.trans hold)
      cases hphase : record.value.phase with
      | requested => exact absurd hphase hprepared
      | prepared => exact Nat.lt_succ_self 1
      | started => exact absurd hphase hbefore
      | done => exact absurd hphase hopen
    rw [hafter']
    refine ⟨⟨(hinv.evolve hevolves).late, fun hlt => ?_, ?_, hinv.noLateEffects⟩,
      ⟨hevolves, rfl, fun j _ hj => ?_⟩, h.2, fun _ => rfl⟩
    · have := hlt saved hafter
      rw [hvalue] at this
      exact absurd this (Nat.lt_irrefl 2)
    · dsimp only
      rw [hfresh.1]
      exact Nat.le_refl 1
    · rw [hfresh.2] at hj
      cases hj

/-- Entering the tool with the first start intent, or as an idempotent tool. -/
theorem Entering.invoke {phase : Phase} {idempotent : Bool} (h : Entering i phase w)
    (hinv : EffectInv w) (htool : idempotent = true ∨ phase ≠ .started) :
    EffectInv (w.invokedBy i idempotent) ∧ effectGuar i w (w.invokedBy i idempotent) := by
  have htouch : w.touch i = 0 := by
    rw [World.touch, if_neg h.1, Nat.add_zero, hinv.noLateEffects]
  have hguar : effectGuar i w (w.invokedBy i idempotent) := by
    refine ⟨.refl _, rfl, fun j hj hstarter => ?_⟩
    change (if w.starter = some i then none else w.starter) = some j
    rw [if_neg fun heq => hj (Option.some.inj (hstarter.symm.trans heq)), hstarter]
  refine ⟨?_, hguar⟩
  cases htool' : idempotent with
  | true =>
      refine ⟨hinv.late, fun hfresh => ?_, ?_, htouch⟩
      · obtain ⟨hzero, hnone⟩ := hinv.fresh hfresh
        refine ⟨hzero, ?_⟩
        change (if w.starter = some i then none else w.starter) = none
        rw [hnone]
        rfl
      · refine le_trans (Nat.add_le_add_left ?_ _) hinv.once
        change (if (if w.starter = some i then none else w.starter).isSome then 1 else 0) ≤ _
        by_cases hself : w.starter = some i
        · rw [if_pos hself]
          exact Nat.zero_le _
        · rw [if_neg hself]
  | false =>
      have hself : w.starter = some i :=
        h.2 (htool.resolve_left (by rw [htool']; exact Bool.false_ne_true))
      have honce := hinv.once
      rw [hself] at honce
      have hzero : w.unrepeatable = 0 := by simpa using honce
      refine ⟨hinv.late, fun hfresh => ?_, ?_, htouch⟩
      · rw [(hinv.fresh hfresh).2] at hself
        cases hself
      · change w.unrepeatable + 1 +
          (if (if w.starter = some i then none else w.starter).isSome then 1 else 0) ≤ 1
        rw [if_pos hself, hzero]
        exact Nat.le_refl 1

/-- **The task of the receipt protocol** keeps the discipline of the effects. -/
theorem effects_run (request : Request) :
    RunRules (effects fingerprint messageId) i request anything (Known i) (Entering i) where
  results := effects_results request.reply
  stableKnown := stable_known
  stableEntering := stable_entering
  first w hinv hopen := by
    refine ⟨.refl _, fun hmem => hopen (hinv.late fun hnil => ?_)⟩
    rw [hnil] at hmem
    cases hmem
  save record arguments hrequested := by
    refine .perform (stable_known record) fun w r w' hinv hknown hexec => ?_
    obtain ⟨store, h, rfl⟩ := hexec
    obtain ⟨hevolves, hsaved⟩ := h.rule (P := Evolves w.store.receipt store.receipt)
      (Q := fun saved => saved.value.phase = .prepared ∧ Evolves (some saved) store.receipt)
      (fun saved hsave => by
        obtain ⟨-, hvalue, hstore, -⟩ := hknown.1.save hsave
        exact ⟨hknown.1.prepared hrequested hsave, by rw [hvalue], by rw [hstore]; exact .refl _⟩)
      fun h => h ▸ .refl _
    exact ⟨hinv.evolve hevolves, ⟨hevolves, rfl, fun _ _ h => h⟩, fun saved hr =>
      ⟨(hsaved saved hr).1, (hsaved saved hr).2, hknown.2⟩⟩
  query record := by
    refine .perform (stable_known _) fun w r w' hinv hknown hexec => ?_
    obtain rfl := hexec
    have htouch : w.touch i = w.lateEffects := by rw [World.touch, if_neg hknown.2, Nat.add_zero]
    exact ⟨⟨hinv.late, hinv.fresh, hinv.once, htouch.trans hinv.noLateEffects⟩,
      ⟨.refl _, rfl, fun _ _ h => h⟩, fun _ _ => hknown⟩
  start record permission hprepared hopen := by
    refine .perform (stable_known _) fun w r w' hinv hknown hexec => ?_
    obtain ⟨store, h, rfl⟩ := hexec
    obtain ⟨⟨hkept, hguar⟩, hentering⟩ := h.rule
      (P := EffectInv (w.startedBy i store) ∧ effectGuar i w (w.startedBy i store))
      (Q := fun _ => Entering i record.value.phase (w.startedBy i store))
      (fun saved hsave => and_assoc.mpr (hknown.start hinv hprepared hopen hsave))
      fun h => by rw [h, World.startedBy_self]; exact ⟨hinv, effectGuar_refl w⟩
    exact ⟨hkept, hguar, hentering⟩
  invoke phase idempotent arguments htool := by
    refine .perform (stable_entering phase) fun w r w' hinv hentering hexec => ?_
    obtain rfl := hexec
    obtain ⟨hkept, hguar⟩ := hentering.invoke hinv htool
    exact ⟨hkept, hguar, fun _ _ => trivial⟩

theorem effects_ensureRequested (request : Request) :
    (effects fingerprint messageId).Returns i (ensureRequested fingerprint request)
      (fun _ => True) fun _ _ => True := by
  refine .bind (returns_look effectGuar_refl (.const True)) fun record => ?_
  cases record with
  | some record => exact .pure fun _ _ _ => trivial
  | none =>
      refine .bind ((returns_checkReply effectGuar_refl (.const True)).pre fun _ _ _ => trivial)
        fun _ => .bind (R := fun _ _ => True) ?_ fun _ => .pure fun _ _ _ => trivial
      refine .perform (.const True) fun w r w' hinv _ hexec => ?_
      obtain ⟨store, h, rfl⟩ := hexec
      have hevolves : Evolves w.store.receipt store.receipt := by
        refine (h.rule (Q := fun _ => True) (fun saved hsave => ⟨?_, trivial⟩)
          fun h => h ▸ .refl _).1
        obtain ⟨-, -, ⟨hnone, -⟩ | ⟨old, -, hexpected, -⟩⟩ := save_eq_ok hsave
        · rw [hnone]
          trivial
        · cases hexpected
      exact ⟨hinv.evolve hevolves, ⟨hevolves, rfl, fun _ _ h => h⟩, fun _ _ => trivial⟩

theorem effects_waits :
    WaitRules (effects fingerprint messageId) i anything where
  refl := effectGuar_refl
  stable _ := .const True
  published _ _ _ _ _ := trivial
  outcome _ _ _ _ _ := trivial

theorem effects_callerOf {body : ToolM Result}
    (h : (effects fingerprint messageId).Returns i body (fun _ => True) anything) :
    (effects fingerprint messageId).Returns i (callerOf body) (fun _ => True) fun _ _ => True := by
  refine returns_callerOf h fun result => .perform (.const True) fun w r w' hinv _ hexec => ?_
  obtain ⟨-, rfl⟩ := hexec
  exact ⟨⟨hinv.late, hinv.fresh, hinv.once, hinv.noLateEffects⟩,
    ⟨.refl _, rfl, fun _ _ h => h⟩, fun _ _ => trivial⟩

/-- **Every job of the receipt protocol** keeps the discipline of the effects. -/
theorem effects_program (job : Job) (hjob : job.receipts) :
    (effects fingerprint messageId).Returns i (job.program fingerprint messageId)
      (fun _ => True) fun _ _ => True := by
  cases job with
  | ensureRequested request => exact effects_ensureRequested request
  | receiptRun request =>
      refine returns_taskOf (effects_run request).run fun outcome => ?_
      refine .perform ?_ fun w r w' hinv _ hexec => ?_
      · exact fun _ _ _ _ _ _ _ _ => trivial
      · obtain ⟨-, rfl⟩ := hexec
        exact ⟨⟨hinv.late, hinv.fresh, hinv.once, hinv.noLateEffects⟩,
          ⟨.refl _, rfl, fun _ _ h => h⟩, fun _ _ => trivial⟩
  | receiptWait request task owned =>
      refine effects_callerOf (effects_waits.checked ?_)
      rw [waitReceipt]
      split
      · exact effects_waits.join task
      · split
        · exact effects_waits.waitOwner task
        · exact effects_waits.waitRecord (effects_results request.reply) task
  | messageRun call => exact hjob.elim
  | messageWait task owned => exact hjob.elim
  | abandon call =>
      exact effects_callerOf (ResultRules.abandonCall call (fun identity _ =>
        effects_results (some identity)) trivial (fun _ _ _ _ => trivial) fun _ _ _ _ => trivial)

theorem EffectInv.begin (h : EffectInv w) (job : Job) (j : ℕ) : EffectInv (w.begin job j) := by
  rw [World.begin]
  split
  · refine ⟨fun hlate => ?_, h.fresh, h.once, h.noLateEffects⟩
    dsimp only at hlate
    split at hlate
    · next hdone => exact hdone
    · exact h.late hlate
  · exact h

theorem effects_sound : (effects fingerprint messageId).Sound fun _ _ => True where
  init := by
    rintro w ⟨recordedBefore, taken, nextSeq, rfl⟩
    exact ⟨fun h => absurd rfl h, fun _ => ⟨rfl, rfl⟩, Nat.zero_le 1, rfl⟩
  environment := by
    rintro w w' h ⟨taken, nextSeq, rfl⟩
    exact h.evolve (.refl _)
  crash := by
    rintro w w' h rfl
    refine ⟨h.late, fun hfresh => ⟨(h.fresh hfresh).1, rfl⟩, ?_, h.noLateEffects⟩
    exact (Nat.le_add_right _ _).trans h.once
  entry := by
    rintro s p w' hinv - ⟨job, hjob, -, rfl, rfl⟩
    exact ⟨hinv.begin job s.next, fun _ => True, trivial, (effects_program job hjob).valid⟩

theorem effects_steps {w' : World} (h : (effects fingerprint messageId).Steps w w') :
    Evolves w.store.receipt w'.store.receipt := by
  rcases h with ⟨j, hguar⟩ | ⟨taken, nextSeq, rfl⟩ | ⟨j, p, job, -, -, -, rfl⟩ | rfl
  · exact hguar.1
  · exact .refl _
  · rw [begin_store]
    exact .refl _
  · exact .refl _

theorem Evolves.exists_of_some {a : Record} {b : Option Record} (h : Evolves (some a) b) :
    ∃ c, b = some c ∧ a.value.phase.rank ≤ c.value.phase.rank ∧
      (a.value.phase ≠ .requested → c.value.arguments = a.value.arguments) ∧
      (a.value.phase = .done → c = a) := by
  cases b with
  | none => exact h.elim
  | some b =>
      refine ⟨b, rfl, ?_⟩
      rcases h with rfl | ⟨-, hopen, hle, hargs⟩
      · exact ⟨le_rfl, fun _ => rfl, fun _ => rfl⟩
      · exact ⟨hle, hargs, fun hdone => absurd hdone hopen⟩

end Effects

/-- **Effects under the receipt protocol happen at most once**: in every run, a tool that is not
idempotent is entered at most once, the receipt only goes from phase to phase with the
arguments it was prepared with, and once it is done it stays as it is and no task that begins
then enters or queries the tool. -/
theorem effects_at_most_once (fingerprint : Request → String) (messageId : String)
    {s t : Pool ToolOp Raised World}
    (hs : (receiptCalls fingerprint messageId).system.Reachable s)
    (hrun : (receiptCalls fingerprint messageId).system.Run s t) :
    t.shared.unrepeatable ≤ 1 ∧ t.shared.lateEffects = 0 ∧
      ∀ a, s.shared.store.receipt = some a → ∃ b, t.shared.store.receipt = some b ∧
        a.value.phase.rank ≤ b.value.phase.rank ∧
        (a.value.phase ≠ .requested → b.value.arguments = a.value.arguments) ∧
        (a.value.phase = .done → b = a) := by
  have hinv := effects_sound.reachable hs
  have hafter := (effects_sound.reachable (hs.run hrun)).inv
  refine ⟨?_, hafter.noLateEffects, fun a ha => ?_⟩
  · exact (Nat.le_add_right _ _).trans hafter.once
  · have hevolves : Evolves s.shared.store.receipt t.shared.store.receipt :=
      effects_sound.relates (R := fun w w' => Evolves w.store.receipt w'.store.receipt)
        (fun _ => .refl _) (fun _ _ _ => .trans) (fun _ _ _ _ => effects_steps) hinv hrun
    rw [ha] at hevolves
    exact hevolves.exists_of_some

/-- Two tasks of one call, the second of which begins over the finished receipt. -/
theorem effects_at_most_once_twice :
    (sampleJob (.receiptRun sampleCall) 2
        (sampleJob (.receiptRun sampleCall) 1 (samplePool 1).shared)).unrepeatable ≤ 1 ∧
      (sampleJob (.receiptRun sampleCall) 2
        (sampleJob (.receiptRun sampleCall) 1 (samplePool 1).shared)).lateEffects = 0 := by
  obtain ⟨threads, hfirst⟩ := runVia_sampleJob (A := Job.receipts) (G := fun _ _ => True)
    (s := samplePool 1) (j := .receiptRun sampleCall) (fun _ _ => trivial) trivial trivial rfl
  have hfree : (sampleJob (.receiptRun sampleCall) 1 (samplePool 1).shared).slot = none := by
    decide +kernel
  obtain ⟨threads', hsecond⟩ := runVia_sampleJob (A := Job.receipts) (G := fun _ _ => True)
    (s := ⟨sampleJob (.receiptRun sampleCall) 1 (samplePool 1).shared, threads, 2⟩)
    (j := .receiptRun sampleCall) (fun _ _ => trivial) trivial trivial hfree
  have heffects := effects_at_most_once Request.binding "tool-result"
    ⟨samplePool 1, init_samplePool 1 _, hfirst⟩ hsecond
  exact ⟨heffects.1, heffects.2.1⟩

/-! ### The message protocol -/

/-- The jobs of the message protocol. -/
def Job.messages : Job → Prop
  | .messageRun _ | .messageWait .. | .abandon _ => True
  | _ => False

/-- No task of this process entered the tool without the result being there. -/
def World.settled (w : World) : Prop :=
  w.invoker = none ∨ w.store.answer.isSome = true

/-- The invariant of the effects of the message protocol. -/
structure MessageInv (messageId : String) (w : World) : Prop where
  answer : ∀ answer, w.store.answer = some answer → answer.messageId = messageId
  identity : ∀ record, w.store.receipt = some record → record.value.replyId = some messageId
  once : w.invoked ≤ 1
  quiet : w.invoker = none → w.recordedBefore = true ∨ w.invoked = 0

/-- What a job does to the others: only the task that holds the slot enters the tool, and what
is answered stays so. -/
def messageGuar (i : ℕ) (w w' : World) : Prop :=
  (w'.invoked ≠ w.invoked → w.slot = some i) ∧
    (∀ j, j ≠ i → w.slot = some j → w'.slot = some j) ∧
    (w.store.answer.isSome = true → w'.store.answer.isSome = true) ∧
    w'.recordedBefore = w.recordedBefore

section Messages

variable (fingerprint : Request → String) (messageId : String)

/-- The message protocol on one key. -/
abbrev messageCalls : Machine ToolOp Raised World :=
  toolCalls fingerprint messageId Job.messages

/-- The discipline of the effects of the message protocol. -/
def messageEffects : Discipline (messageCalls fingerprint messageId) where
  inv := MessageInv messageId
  guar := messageGuar

/-- A task begins only when no earlier task of the process has entered the tool without the
result being there. -/
def Guarded (s : Pool ToolOp Raised World) : Move ToolOp Raised → Prop
  | .begin p => (∃ call, p = (Job.messageRun call).program fingerprint messageId) →
      s.shared.settled
  | _ => True

variable {fingerprint messageId} {i : ℕ} {β : Type}

theorem messageGuar_refl (w : World) : messageGuar i w w :=
  ⟨fun h => absurd rfl h, fun _ _ h => h, id, rfl⟩

/-- An effect is not to come: the call is answered, or of an earlier process, or the tool was
not entered. -/
def Begun (i : ℕ) (w : World) : Prop :=
  w.slot = some i ∧ (w.recordedBefore = true ∨ w.store.answer.isSome = true ∨ w.invoked = 0)

/-- The same for a call that was seen without a result. -/
def Unanswered (i : ℕ) (w : World) : Prop :=
  w.slot = some i ∧ (w.recordedBefore = true ∨ w.invoked = 0)

/-- The task may enter the tool. -/
def MayEnter (i : ℕ) (w : World) : Prop :=
  w.slot = some i ∧ w.invoked = 0

theorem rely_slot {w w' : World} (hslot : w.slot = some i)
    (hrely : (messageEffects fingerprint messageId).Rely i w w') :
    w'.slot = some i ∧ w'.invoked = w.invoked ∧
      (w.store.answer.isSome = true → w'.store.answer.isSome = true) ∧
      w'.recordedBefore = w.recordedBefore := by
  rcases hrely with ⟨j, hj, hinvoked, hkept, hanswer, hrecorded⟩ | ⟨taken, nextSeq, rfl⟩ |
    ⟨j, p, hj, job, -, hfree, -, rfl⟩
  · refine ⟨hkept i hj.symm hslot, ?_, hanswer, hrecorded⟩
    by_contra hne
    exact hj (Option.some.inj ((hinvoked hne).symm.trans hslot))
  · exact ⟨hslot, rfl, id, rfl⟩
  · rw [World.begin]
    split
    · next hrun =>
        rw [hfree hrun] at hslot
        cases hslot
    · exact ⟨hslot, rfl, id, rfl⟩

theorem stable_begun : (messageEffects fingerprint messageId).Stable i (Begun i) := by
  rintro w w' - - ⟨hslot, hquiet⟩ hrely
  obtain ⟨hslot', hinvoked, hanswer, hrecorded⟩ := rely_slot hslot hrely
  refine ⟨hslot', ?_⟩
  rw [hrecorded, hinvoked]
  exact hquiet.imp_right fun h => h.imp_left hanswer

theorem stable_unanswered : (messageEffects fingerprint messageId).Stable i (Unanswered i) := by
  rintro w w' - - ⟨hslot, hquiet⟩ hrely
  obtain ⟨hslot', hinvoked, -, hrecorded⟩ := rely_slot hslot hrely
  rw [Unanswered, hrecorded, hinvoked]
  exact ⟨hslot', hquiet⟩

theorem stable_mayEnter : (messageEffects fingerprint messageId).Stable i (MayEnter i) := by
  rintro w w' - - ⟨hslot, hzero⟩ hrely
  obtain ⟨hslot', hinvoked, -, -⟩ := rely_slot hslot hrely
  exact ⟨hslot', hinvoked.trans hzero⟩

/-- A receipt of the default identity. -/
def OfMessage (messageId : String) (value : Receipt) : Prop :=
  value.replyId = some messageId

theorem MessageInv.finish {w : World} {value : Receipt} {result returned : Result} {store : Store}
    (h : MessageInv messageId w) (hvalue : OfMessage messageId value)
    (hfinish : w.store.finish value result (some messageId) = .ok (returned, store)) :
    (∀ answer, store.answer = some answer → answer.messageId = messageId) ∧
      (∀ record, store.receipt = some record → record.value.replyId = some messageId) ∧
      (w.store.answer.isSome = true → store.answer.isSome = true) := by
  cases finish_eq_ok hfinish with
  | already _ _ _ _ hstore =>
      rw [hstore]
      exact ⟨h.answer, h.identity, id⟩
  | completed record saved _ hreceipt _ _ hsaved hbefore =>
      obtain ⟨answer, -, hid, -, hanswer, -⟩ := hsaved
      refine ⟨fun other hother => ?_, fun other hother => ?_, fun _ => by rw [hanswer]; rfl⟩
      · rw [← Option.some.inj (hanswer.symm.trans hother), hid]
      · rw [← Option.some.inj (hreceipt.symm.trans hother)]
        rcases hbefore with ⟨-, hreply⟩ | ⟨current, hcurrent, -, -, -, hreply⟩
        · rw [hreply]
          exact hvalue
        · rw [hreply]
          exact h.identity current hcurrent

theorem messageEffects_commit {f : Store → Except Raised (Result × Store)} {notify : Bool}
    (hf : ∀ w result store, MessageInv messageId w → f w.store = .ok (result, store) →
      (∀ answer, store.answer = some answer → answer.messageId = messageId) ∧
        (∀ record, store.receipt = some record → record.value.replyId = some messageId) ∧
        (w.store.answer.isSome = true → store.answer.isSome = true)) :
    (messageEffects fingerprint messageId).Returns i (perform (.commit f notify)) (fun _ => True)
      anything := by
  refine .perform (.const True) fun w r w' hinv _ hexec => ?_
  obtain ⟨store, published, h, -, rfl⟩ := hexec
  have hkept := (h.rule (Q := fun _ => True) (fun result h => ⟨hf w result store hinv h, trivial⟩)
    fun h => by rw [h]; exact ⟨hinv.answer, hinv.identity, id⟩).1
  exact ⟨⟨hkept.1, hkept.2.1, hinv.once, hinv.quiet⟩,
    ⟨fun h => absurd rfl h, fun _ _ h => h, hkept.2.2, rfl⟩, fun _ _ => trivial⟩

theorem messageEffects_publish (result : Result) :
    (messageEffects fingerprint messageId).Returns i (perform (.publish result)) (anything result)
      fun _ => anything result := by
  refine .perform (.const True) fun w r w' hinv _ hexec => ?_
  obtain ⟨-, rfl⟩ := hexec
  exact ⟨⟨hinv.answer, hinv.identity, hinv.once, hinv.quiet⟩,
    ⟨fun h => absurd rfl h, fun _ _ h => h, id, rfl⟩, fun _ _ => trivial⟩

theorem messageEffects_results :
    ResultRules (messageEffects fingerprint messageId) i (some messageId) (OfMessage messageId)
      anything where
  refl := messageGuar_refl
  stable _ := .const True
  finish _ hvalue _ _ := messageEffects_commit fun _ _ _ hinv h => hinv.finish hvalue h
  publish := messageEffects_publish
  read _ _ _ _ _ := trivial

/-- **The task of the message protocol** keeps the discipline of its effects. -/
theorem messageEffects_run :
    MessageRules (messageEffects fingerprint messageId) i anything (Begun i) (Unanswered i)
      (MayEnter i) where
  refl := messageGuar_refl
  stable _ := .const True
  stableBegun := stable_begun
  stableUnanswered := stable_unanswered
  stableEntering := stable_mayEnter
  commit result := messageEffects_commit fun w _ _ hinv h => by
    obtain ⟨-, hreceipt, answer, hid, -, hanswer, -⟩ := commitMessage_eq_ok h
    refine ⟨fun other hother => ?_, fun record hrecord => ?_, fun _ => by rw [hanswer]; rfl⟩
    · rw [← Option.some.inj (hanswer.symm.trans hother), hid]
    · exact hinv.identity record (hreceipt ▸ hrecord)
  publish := messageEffects_publish
  existing _ _ _ _ := trivial
  missing w hinv hbegun h := by
    have hnone : w.store.answer.isSome = false := by
      rw [Store.existingResult] at h
      split at h
      · next answer hanswer =>
          rw [if_pos (hinv.answer answer hanswer)] at h
          cases h
      · next hnone => rw [hnone]; rfl
    refine ⟨hbegun.1, hbegun.2.imp_right fun h => h.resolve_left fun hsome => ?_⟩
    rw [hnone] at hsome
    cases hsome
  recorded w _ h hbefore := by
    refine ⟨h.1, h.2.resolve_left fun htrue => ?_⟩
    rw [hbefore] at htrue
    cases htrue
  invoke idempotent arguments := by
    refine .perform stable_mayEnter fun w r w' hinv hmay hexec => ?_
    obtain rfl := hexec
    refine ⟨⟨hinv.answer, hinv.identity, ?_, fun h => nomatch h⟩,
      ⟨fun _ => hmay.1, fun _ _ h => h, id, rfl⟩, fun _ _ => trivial⟩
    change w.invoked + 1 ≤ 1
    rw [hmay.2]

theorem messageEffects_waits :
    WaitRules (messageEffects fingerprint messageId) i anything where
  refl := messageGuar_refl
  stable _ := .const True
  published _ _ _ _ _ := trivial
  outcome _ _ _ _ _ := trivial

theorem messageEffects_callerOf {body : ToolM Result}
    (h : (messageEffects fingerprint messageId).Returns i body (fun _ => True) anything) :
    (messageEffects fingerprint messageId).Returns i (callerOf body) (fun _ => True)
      fun _ _ => True := by
  refine returns_callerOf h fun result => .perform (.const True) fun w r w' hinv _ hexec => ?_
  obtain ⟨-, rfl⟩ := hexec
  exact ⟨⟨hinv.answer, hinv.identity, hinv.once, hinv.quiet⟩,
    ⟨fun h => absurd rfl h, fun _ _ h => h, id, rfl⟩, fun _ _ => trivial⟩

/-- What a job of the message protocol needs at its beginning. -/
def Job.needs (i : ℕ) (job : Job) (w : World) : Prop :=
  job.isRun → Begun i w

/-- **Every job of the message protocol** keeps the discipline of its effects. -/
theorem messageEffects_program (job : Job) (hjob : job.messages) :
    (messageEffects fingerprint messageId).Returns i (job.program fingerprint messageId)
      (job.needs i) fun _ _ => True := by
  cases job with
  | messageRun call =>
      refine (returns_taskOf (messageEffects_run.runMessage call) fun outcome => ?_).pre
        fun w _ h => h trivial
      refine .perform ?_ fun w r w' hinv _ hexec => ?_
      · exact fun _ _ _ _ _ _ _ _ => trivial
      · obtain ⟨-, rfl⟩ := hexec
        refine ⟨⟨hinv.answer, hinv.identity, hinv.once, hinv.quiet⟩,
          ⟨fun h => absurd rfl h, fun j hj hslot => ?_, id, rfl⟩, fun _ _ => trivial⟩
        change (if w.slot = some i then none else w.slot) = some j
        rw [if_neg fun heq => hj (Option.some.inj (hslot.symm.trans heq)), hslot]
  | messageWait task owned =>
      refine (messageEffects_callerOf ?_).pre fun _ _ _ => trivial
      rw [waitMessage]
      split
      · exact messageEffects_waits.waitOwner task
      · exact messageEffects_waits.join task
  | abandon call =>
      refine (messageEffects_callerOf (ResultRules.abandonCall (V := OfMessage messageId) call
        (fun identity hidentity => ?_) rfl (fun w record hinv h => hinv.identity record h)
        fun _ _ _ _ => trivial)).pre fun _ _ _ => trivial
      obtain rfl : identity = messageId := by
        rcases hidentity with heq | ⟨value, hvalue, hreply⟩
        · exact heq
        · exact Option.some.inj (hreply.symm.trans hvalue)
      exact messageEffects_results
  | ensureRequested request => exact hjob.elim
  | receiptRun request => exact hjob.elim
  | receiptWait request task owned => exact hjob.elim

/-- The discipline is sound for runs in which tasks begin only over recorded effects. -/
theorem messageEffects_sound :
    (messageEffects fingerprint messageId).Sound (Guarded fingerprint messageId) where
  init := by
    rintro w ⟨recordedBefore, taken, nextSeq, rfl⟩
    exact ⟨nofun, nofun, Nat.zero_le 1, fun _ => .inr rfl⟩
  environment := by
    rintro w w' h ⟨taken, nextSeq, rfl⟩
    exact ⟨h.answer, h.identity, h.once, h.quiet⟩
  crash := by
    rintro w w' h rfl
    exact ⟨h.answer, h.identity, h.once, fun _ => .inl rfl⟩
  entry := by
    rintro s p w' hinv hguard ⟨job, hjob, hfree, rfl, rfl⟩
    have hkept : MessageInv messageId (s.shared.begin job s.next) := by
      rw [World.begin]
      split
      · exact ⟨hinv.answer, hinv.identity, hinv.once, hinv.quiet⟩
      · exact hinv
    refine ⟨hkept, _, ?_, (messageEffects_program job hjob).valid⟩
    intro hrun
    rw [World.begin, if_pos hrun]
    refine ⟨rfl, ?_⟩
    cases job with
    | messageRun call =>
        rcases hguard ⟨call, rfl⟩ with hnone | hsome
        · exact (hinv.quiet hnone).imp_right .inr
        · exact .inr (.inl hsome)
    | receiptRun request => exact hjob.elim
    | _ => exact hrun.elim

end Messages

/-- **Effects of message calls happen at most once** in every run in which a task begins only
when no earlier task of its process has entered the tool without the result being there. -/
theorem messageEffects_at_most_once (fingerprint : Request → String) (messageId : String)
    {s : Pool ToolOp Raised World}
    (hs : (messageCalls fingerprint messageId).system.ReachableVia
      (Guarded fingerprint messageId) s) : s.shared.invoked ≤ 1 :=
  (messageEffects_sound.reachable hs).inv.once

/-- Two tasks of one call, the first of which commits its result. -/
theorem messageEffects_at_most_once_committed :
    (sampleJob (.messageRun sampleCall) 2
      (sampleJob (.messageRun sampleCall) 1 (samplePool 1).shared)).invoked ≤ 1 := by
  have hresume : ∀ s i, Guarded Request.binding "tool-result" s (.resume i) :=
    fun _ _ => trivial
  obtain ⟨threads, hfirst⟩ := runVia_sampleJob (A := Job.messages) hresume
    (s := samplePool 1) (j := .messageRun sampleCall) trivial (fun _ => .inl rfl) rfl
  have hanswer : (sampleJob (.messageRun sampleCall) 1
      (samplePool 1).shared).store.answer.isSome = true := by decide +kernel
  have hfree : (sampleJob (.messageRun sampleCall) 1 (samplePool 1).shared).slot = none := by
    decide +kernel
  obtain ⟨threads', hsecond⟩ := runVia_sampleJob (A := Job.messages) hresume
    (s := ⟨sampleJob (.messageRun sampleCall) 1 (samplePool 1).shared, threads, 2⟩)
    (j := .messageRun sampleCall) trivial (fun _ => .inr hanswer) hfree
  exact messageEffects_at_most_once Request.binding "tool-result"
    ⟨samplePool 1, init_samplePool 1 _, hfirst.trans hsecond⟩

/-- **A second effect**: a task that is cancelled between the effect and the commit leaves nothing
behind, and the next one of the same process enters the tool again. -/
theorem messageEffects_twice :
    ¬ ∀ (fingerprint : Request → String) (messageId : String) (s : Pool ToolOp Raised World),
      (messageCalls fingerprint messageId).system.Reachable s → s.shared.invoked ≤ 1 := by
  intro h
  obtain ⟨threads, hfirst⟩ := runVia_sampleJob (A := Job.messages) (G := fun _ _ => True)
    (s := samplePool 0) (j := .messageRun sampleCall) (fun _ _ => trivial) trivial trivial rfl
  have hfree : (sampleJob (.messageRun sampleCall) 0 (samplePool 0).shared).slot = none := by
    decide +kernel
  obtain ⟨threads', hsecond⟩ := runVia_sampleJob (A := Job.messages) (G := fun _ _ => True)
    (s := ⟨sampleJob (.messageRun sampleCall) 0 (samplePool 0).shared, threads, 1⟩)
    (j := .messageRun sampleCall) (fun _ _ => trivial) trivial trivial hfree
  have hle := h Request.binding "tool-result" _
    ⟨samplePool 0, init_samplePool 0 _, hfirst.trans hsecond⟩
  have htwice : (sampleJob (.messageRun sampleCall) 1
      (sampleJob (.messageRun sampleCall) 0 (samplePool 0).shared)).invoked = 2 := by
    decide +kernel
  exact absurd (htwice ▸ hle) (by decide)

end Tools

end Kirakira
