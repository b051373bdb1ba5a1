import Kirakira.Database

/-!
# Heads and Shared Prefixes

What one `MessageLog` instance keeps in memory about the committed messages: the heads of
the sessions, once something has asked for them, and the shared prefixes
(`_MessagePrefix`). Prefixes are objects that snapshots hold on to, so they live in a heap
and `views` (`_message_views`) names the one each session shares at present; a prefix
that is no longer shared stays in the heap for the snapshots that hold it.

`_merge_heads` publishes a committed transaction to both.

## Main results

* `lookup_mergeAll` — every head becomes the maximum of itself and the announced one.
* `prefixes_extendAll` — a shared prefix grows by the appended messages of its session
  that continue it, and nothing else in the heap changes.
* `extendAll_messages` — for messages with consecutive sequence numbers, these are the
  ones from the end of the prefix on.
-/

namespace Kirakira

/-! ### The state -/

/-- `_MessagePrefix`; the list `seqs` of the source is that of the messages. -/
structure Prefix where
  sessionId : String
  revision : Option ℕ
  messages : List Message

/-- `prefix.seqs[-1] + 1 if prefix.seqs else 0`. -/
def Prefix.next (p : Prefix) : ℕ :=
  match p.messages.getLast? with
  | some m => m.seq + 1
  | none => 0

/-- The committed heads and the shared prefixes of one `MessageLog`. -/
structure Memory where
  heads : Option (AList fun _ : String => ℕ)
  headsEpoch : ℕ
  prefixes : List Prefix
  views : AList fun _ : String => ℕ
  views_ok : ∀ s i, views.lookup s = some i → ∃ p, prefixes[i]? = some p ∧ p.sessionId = s

/-- The memory of a log that has just been opened. -/
def Memory.empty : Memory where
  heads := none
  headsEpoch := 0
  prefixes := []
  views := ∅
  views_ok := by simp

/-! ### Heads -/

/-- `if seq > heads.get(session_id, -1): heads[session_id] = seq`. -/
def mergeHead (heads : AList fun _ : String => ℕ) (entry : Sigma fun _ : String => ℕ) :
    AList fun _ : String => ℕ :=
  match heads.lookup entry.1 with
  | some old => if old < entry.2 then heads.insert entry.1 entry.2 else heads
  | none => heads.insert entry.1 entry.2

/-- The loop over the announced heads. -/
def mergeAll (heads pending : AList fun _ : String => ℕ) : AList fun _ : String => ℕ :=
  pending.entries.foldl mergeHead heads

/-- The head of a session after an announcement. -/
def headAfter (old new : Option ℕ) : Option ℕ :=
  match new with
  | none => old
  | some seq => some (max (old.getD seq) seq)

theorem lookup_mergeHead (heads : AList fun _ : String => ℕ)
    (entry : Sigma fun _ : String => ℕ) (s : String) :
    (mergeHead heads entry).lookup s
      = headAfter (heads.lookup s) (if s = entry.1 then some entry.2 else none) := by
  by_cases hs : s = entry.1
  · subst hs
    rw [if_pos rfl, mergeHead]
    cases hold : heads.lookup entry.1 with
    | none => simp [headAfter]
    | some old =>
        by_cases hlt : old < entry.2
        · simp [hlt, headAfter, Nat.max_eq_right (Nat.le_of_lt hlt)]
        · simp [hlt, headAfter, hold, Nat.max_eq_left (Nat.le_of_not_lt hlt)]
  · rw [if_neg hs, mergeHead, headAfter]
    split
    · split
      · exact AList.lookup_insert_ne hs
      · rfl
    · exact AList.lookup_insert_ne hs

/-- **A loop over entries with different names looks every name up once**, where one step changes
the value of its own name only. -/
theorem lookup_foldl_step {α β γ : Type} [DecidableEq α]
    {step : (AList fun _ : α => γ) → (Sigma fun _ : α => β) → AList fun _ : α => γ}
    {after : Option γ → Option β → Option γ} (hafter : ∀ old, after old none = old)
    (hstep : ∀ table entry k, (step table entry).lookup k
      = after (table.lookup k) (if k = entry.1 then some entry.2 else none))
    (entries : List (Sigma fun _ : α => β)) (hnodup : entries.NodupKeys)
    (table : AList fun _ : α => γ) (k : α) :
    (entries.foldl step table).lookup k = after (table.lookup k) (entries.dlookup k) := by
  induction entries generalizing table with
  | nil => exact (hafter _).symm
  | cons entry entries ih =>
      obtain ⟨hnot, hrest⟩ := List.nodupKeys_cons.mp hnodup
      rw [List.foldl_cons, ih hrest, hstep]
      by_cases hk : k = entry.1
      · subst hk
        have hnone : entries.dlookup entry.1 = none := List.dlookup_eq_none.mpr hnot
        rw [if_pos rfl, hnone, hafter, List.dlookup_cons_eq]
      · rw [if_neg hk, hafter, List.dlookup_cons_ne _ _ hk]

/-- **Every head becomes the maximum of itself and the announced one.** -/
theorem lookup_mergeAll (heads pending : AList fun _ : String => ℕ) (s : String) :
    (mergeAll heads pending).lookup s = headAfter (heads.lookup s) (pending.lookup s) :=
  lookup_foldl_step (fun _ => rfl) lookup_mergeHead pending.entries pending.nodupKeys heads s

/-! ### Prefixes -/

/-- A message that continues the prefix is appended to it. -/
def Prefix.extend (p : Prefix) (m : Message) : Prefix :=
  if m.seq = p.next then { p with messages := p.messages ++ [m] } else p

@[simp] theorem Prefix.extend_sessionId (p : Prefix) (m : Message) :
    (p.extend m).sessionId = p.sessionId := by
  unfold Prefix.extend
  split <;> rfl

@[simp] theorem Prefix.extend_revision (p : Prefix) (m : Message) :
    (p.extend m).revision = p.revision := by
  unfold Prefix.extend
  split <;> rfl

/-- Whether the prefix in the heap is the one its session shares. -/
def Memory.shares (mem : Memory) (i : ℕ) (p : Prefix) : Prop :=
  mem.views.lookup p.sessionId = some i

instance (mem : Memory) (i : ℕ) (p : Prefix) : Decidable (mem.shares i p) :=
  inferInstanceAs (Decidable (_ = _))

/-- The heap with the shared prefix of the message's session extended. -/
def extendHeap (views : AList fun _ : String => ℕ) (prefixes : List Prefix) (m : Message) :
    List Prefix :=
  match views.lookup m.sessionId with
  | none => prefixes
  | some i => prefixes.modify i fun p => p.extend m

theorem extendHeap_sessionId (views : AList fun _ : String => ℕ) (prefixes : List Prefix)
    (m : Message) (i : ℕ) :
    ((extendHeap views prefixes m)[i]?).map Prefix.sessionId
      = (prefixes[i]?).map Prefix.sessionId := by
  unfold extendHeap
  split
  · rfl
  · next j _ =>
      rw [List.getElem?_modify]
      by_cases hij : j = i
      · simp [hij, Function.comp_def]
      · simp [hij]

/-- One message of the loop in `_merge_heads`. -/
def Memory.extendShared (mem : Memory) (m : Message) : Memory where
  heads := mem.heads
  headsEpoch := mem.headsEpoch
  prefixes := extendHeap mem.views mem.prefixes m
  views := mem.views
  views_ok := by
    intro s i hs
    obtain ⟨p, hp, rfl⟩ := mem.views_ok s i hs
    have hmap := extendHeap_sessionId mem.views mem.prefixes m i
    rw [hp] at hmap
    obtain ⟨q, hq, hsession⟩ := Option.map_eq_some_iff.mp hmap
    exact ⟨q, hq, hsession⟩

/-- The shared prefix of the message's session is extended, every other one stays. -/
theorem prefixes_extendShared (mem : Memory) (m : Message) (i : ℕ) :
    (mem.extendShared m).prefixes[i]? = (mem.prefixes[i]?).map fun p =>
      if mem.shares i p ∧ p.sessionId = m.sessionId then p.extend m else p := by
  change (extendHeap mem.views mem.prefixes m)[i]? = _
  unfold extendHeap
  split
  · next hnone =>
      cases hp : mem.prefixes[i]? with
      | none => rfl
      | some p =>
          rw [Option.map_some, if_neg]
          rintro ⟨hshares, hsession⟩
          rw [Memory.shares, hsession, hnone] at hshares
          cases hshares
  · next j hj =>
      rw [List.getElem?_modify]
      cases hp : mem.prefixes[i]? with
      | none => simp
      | some p =>
          by_cases hij : j = i
          · subst hij
            obtain ⟨q, hq, hsession⟩ := mem.views_ok _ _ hj
            obtain rfl := Option.some.inj (hp.symm.trans hq)
            have hshares : mem.shares j p := by rw [Memory.shares, hsession]; exact hj
            simp [hshares, hsession]
          · have hnot : ¬ (mem.shares i p ∧ p.sessionId = m.sessionId) := by
              rintro ⟨hshares, hsession⟩
              rw [Memory.shares, hsession, hj] at hshares
              exact hij (Option.some.inj hshares)
            simp [hij, hnot]

/-- The loop over the appended messages. -/
def Memory.extendAll (mem : Memory) (messages : List Message) : Memory :=
  messages.foldl Memory.extendShared mem

/-- The messages of one session. -/
def ofSession (sessionId : String) (messages : List Message) : List Message :=
  messages.filter fun m => m.sessionId = sessionId

theorem extendAll_frame (mem : Memory) (messages : List Message) :
    (mem.extendAll messages).heads = mem.heads ∧
      (mem.extendAll messages).headsEpoch = mem.headsEpoch ∧
      (mem.extendAll messages).views = mem.views := by
  induction messages generalizing mem with
  | nil => exact ⟨rfl, rfl, rfl⟩
  | cons m messages ih => exact ih (mem.extendShared m)

/-- **A shared prefix grows by the messages of its session that continue it.** -/
theorem prefixes_extendAll (mem : Memory) (messages : List Message) (i : ℕ) :
    (mem.extendAll messages).prefixes[i]? = (mem.prefixes[i]?).map fun p =>
      if mem.shares i p then (ofSession p.sessionId messages).foldl Prefix.extend p else p := by
  induction messages generalizing mem with
  | nil => simp [Memory.extendAll, ofSession]
  | cons m messages ih =>
      refine (ih (mem.extendShared m)).trans ?_
      rw [prefixes_extendShared, Option.map_map]
      congr 1
      funext p
      by_cases hshares : mem.shares i p
      · by_cases hsession : p.sessionId = m.sessionId
        · have hnext : (mem.extendShared m).shares i (p.extend m) := by
            rw [Memory.shares, Prefix.extend_sessionId]
            exact hshares
          simp [hshares, hsession, ofSession, hnext]
        · have hnext : (mem.extendShared m).shares i p := hshares
          simp [hshares, hsession, ofSession, hnext, eq_comm]
      · have hnext : ¬ (mem.extendShared m).shares i p := hshares
        simp [hshares, hnext]

/-- The messages have the sequence numbers `n`, `n + 1`, and so on. -/
def ConsecutiveFrom (n : ℕ) (messages : List Message) : Prop :=
  messages.map Message.seq = List.range' n messages.length

theorem consecutiveFrom_nil (n : ℕ) : ConsecutiveFrom n [] := rfl

variable {messages : List Message}

theorem consecutiveFrom_cons {n : ℕ} {m : Message} :
    ConsecutiveFrom n (m :: messages) ↔ m.seq = n ∧ ConsecutiveFrom (n + 1) messages := by
  simp only [ConsecutiveFrom, List.map_cons, List.length_cons, List.range'_succ, List.cons.injEq]

theorem le_seq_of_consecutiveFrom {n : ℕ} (h : ConsecutiveFrom n messages) :
    ∀ m ∈ messages, n ≤ m.seq := by
  intro m hm
  have hmem : m.seq ∈ messages.map Message.seq := List.mem_map_of_mem hm
  rw [h, List.mem_range'_1] at hmem
  exact hmem.1

theorem consecutiveFrom_append_singleton {n : ℕ} {m : Message} (h : ConsecutiveFrom n messages)
    (hm : m.seq = n + messages.length) : ConsecutiveFrom n (messages ++ [m]) := by
  unfold ConsecutiveFrom at h ⊢
  rw [List.map_append, h, List.length_append, List.length_singleton, List.range'_concat]
  simp [hm]

/-- **Consecutive messages extend a prefix from its end on.** A prefix that ends before
the first of them is not extended, since it does not know what lies between. -/
theorem extendAll_messages {n : ℕ} (h : ConsecutiveFrom n messages) (p : Prefix) :
    messages.foldl Prefix.extend p = { p with
      messages := p.messages ++
        messages.filter (fun m => decide (n ≤ p.next) && decide (p.next ≤ m.seq)) } := by
  induction messages generalizing n p with
  | nil => simp
  | cons m messages ih =>
      obtain ⟨hm, hrest⟩ := consecutiveFrom_cons.mp h
      have hle := le_seq_of_consecutiveFrom hrest
      rw [List.foldl_cons, ih hrest]
      by_cases hext : m.seq = p.next
      · have hnext : (p.extend m).next = n + 1 := by
          rw [Prefix.extend, if_pos hext, Prefix.next]
          simp [hm]
        have hall : messages.filter (fun m => decide (n + 1 ≤ n + 1) && decide (n + 1 ≤ m.seq))
            = messages.filter fun m => decide (n ≤ n) && decide (n ≤ m.seq) := by
          refine List.filter_congr fun x hx => ?_
          have := hle x hx
          simp
          omega
        rw [hnext, hall, Prefix.extend, if_pos hext]
        have hn : p.next = n := by omega
        simp [hn, hm]
      · have hp : p.extend m = p := by rw [Prefix.extend, if_neg hext]
        have hhead : (decide (n ≤ p.next) && decide (p.next ≤ m.seq)) = false := by
          simp
          omega
        rw [hp, List.filter_cons_of_neg (by rw [hhead]; exact Bool.false_ne_true)]
        congr 2
        refine List.filter_congr fun x hx => ?_
        have := hle x hx
        by_cases hn : n ≤ p.next
        · have : n + 1 ≤ p.next := by omega
          simp [hn, this]
        · have : ¬ n + 1 ≤ p.next := by omega
          simp [hn, this]

/-! ### Publication -/

/-- `_merge_heads`: a committed transaction is published. Session management drops the
heads; appended messages raise them and extend the shared prefixes. -/
def Memory.mergeHeads (mem : Memory) (notifyPending : Option (List BodyType))
    (pendingHeads : AList fun _ : String => ℕ) (pendingMessages : List Message) : Memory :=
  ({ mem with
      headsEpoch := mem.headsEpoch + 1
      heads := match notifyPending with
        | none => none
        | some _ => mem.heads.map fun heads => mergeAll heads pendingHeads }).extendAll
    pendingMessages

theorem mergeHeads_frame (mem : Memory) (types : List BodyType)
    (pendingHeads : AList fun _ : String => ℕ) (pendingMessages : List Message) :
    (mem.mergeHeads (some types) pendingHeads pendingMessages).heads
        = mem.heads.map (fun heads => mergeAll heads pendingHeads) ∧
      (mem.mergeHeads (some types) pendingHeads pendingMessages).views = mem.views := by
  obtain ⟨hheads, -, hviews⟩ := extendAll_frame
    { mem with
      headsEpoch := mem.headsEpoch + 1
      heads := mem.heads.map fun heads => mergeAll heads pendingHeads } pendingMessages
  exact ⟨hheads, hviews⟩

theorem prefixes_mergeHeads (mem : Memory) (notifyPending : Option (List BodyType))
    (pendingHeads : AList fun _ : String => ℕ) (pendingMessages : List Message) (i : ℕ) :
    (mem.mergeHeads notifyPending pendingHeads pendingMessages).prefixes[i]?
      = (mem.prefixes[i]?).map fun p => if mem.shares i p then
          (ofSession p.sessionId pendingMessages).foldl Prefix.extend p else p :=
  prefixes_extendAll _ pendingMessages i

end Kirakira
