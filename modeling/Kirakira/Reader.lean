import Kirakira.Lib.SortedBy
import Kirakira.Ledger

/-!
# The Message Reader

`MessageReader.read` and `MessageReader.scan` of `plugins/ledger/log.py` over one snapshot
of the database. A scan reads its range page by page and goes on after the last sequence
number of each page.

## Main results

* `sorted_sessionRows` — the rows of a session are sorted by their sequence numbers.
* `scan_eq` — a scan reads exactly its range.
-/

namespace Kirakira

open Exceptions SortedBy

/-! ### Rows of a session -/

/-- `ORDER BY seq`. -/
def seqLe (a b : MessageRow) : Prop :=
  a.seq ≤ b.seq

instance : DecidableRel seqLe := fun a b => inferInstanceAs (Decidable (a.seq ≤ b.seq))

instance : Std.Total seqLe := ⟨fun a b => Nat.le_total a.seq b.seq⟩

instance : IsTrans MessageRow seqLe := ⟨fun _ _ _ => Nat.le_trans⟩

/-- The rows of a session in the order of their sequence numbers. -/
def Db.sessionRows (db : Db) (sessionId : String) : List MessageRow :=
  (db.messages.filter fun row => row.sessionKey = sessionId).insertionSort seqLe

/-- The rows of a session, restricted to a source where one is given. -/
def Db.sourceRows (db : Db) (sessionId : String) (source : Option String) : List MessageRow :=
  (db.sessionRows sessionId).filter fun row => source.all fun s => row.source = s

/-- `UNIQUE(session_key, seq)`. -/
def UniqueSeqs (db : Db) : Prop :=
  (db.messages.map fun row => (row.sessionKey, row.seq)).Nodup

instance (db : Db) : Decidable (UniqueSeqs db) := inferInstanceAs (Decidable (List.Nodup _))

variable {db : Db} {messages : List Message}

theorem mem_sessionRows {sessionId : String} {row : MessageRow} :
    row ∈ db.sessionRows sessionId ↔ row ∈ db.messages ∧ row.sessionKey = sessionId := by
  rw [Db.sessionRows, List.mem_insertionSort, List.mem_filter, decide_eq_true_iff]

/-- **The rows of a session are sorted by their sequence numbers.** -/
theorem sorted_sessionRows (h : UniqueSeqs db) (sessionId : String) :
    Sorted MessageRow.seq (db.sessionRows sessionId) := by
  have hle : (db.sessionRows sessionId).Pairwise seqLe := List.pairwise_insertionSort _ _
  have hdiff : (db.messages.filter fun row => row.sessionKey = sessionId).Pairwise
      fun a b => a.seq ≠ b.seq := by
    have hnodup : db.messages.Pairwise fun a b =>
        (a.sessionKey, a.seq) ≠ (b.sessionKey, b.seq) := List.pairwise_map.mp h
    rw [List.pairwise_filter]
    refine hnodup.imp ?_
    intro a b hne ha hb heq
    simp only [decide_eq_true_eq] at ha hb
    exact hne (by rw [ha, hb, heq])
  have hne : (db.sessionRows sessionId).Pairwise fun a b => a.seq ≠ b.seq :=
    (List.perm_insertionSort seqLe _).symm.pairwise hdiff fun hab => Ne.symm hab
  refine (hle.and hne).imp ?_
  rintro a b ⟨hab, hnab⟩
  exact Nat.lt_of_le_of_ne hab hnab

theorem sorted_sourceRows (h : UniqueSeqs db) (sessionId : String) (source : Option String) :
    Sorted MessageRow.seq (db.sourceRows sessionId source) :=
  (sorted_sessionRows h sessionId).filter _

@[simp] theorem sourceRows_none (db : Db) (sessionId : String) :
    db.sourceRows sessionId none = db.sessionRows sessionId := by
  simp [Db.sourceRows]

/-- The head of a session is its last sequence number. -/
theorem head_eq_lastKey (h : UniqueSeqs db) (sessionId : String) :
    db.head sessionId = lastKey MessageRow.seq (db.sessionRows sessionId) := by
  have hperm : ((db.messages.filter fun row => row.sessionKey = sessionId).map
      MessageRow.seq).Perm ((db.sessionRows sessionId).map MessageRow.seq) :=
    (List.perm_insertionSort seqLe _).symm.map _
  have hsorted := sorted_sessionRows h sessionId
  rw [Db.head, Db.maxSeq]
  rcases List.eq_nil_or_concat' (db.sessionRows sessionId) with hnil | ⟨rows, row, hrows⟩
  · rw [hnil] at hperm ⊢
    rw [hperm.eq_nil]
    rfl
  · have hle := hsorted.le_lastKey
    rw [hrows, lastKey_concat] at hle ⊢
    have hmax : (((db.messages.filter fun row => row.sessionKey = sessionId).map
        MessageRow.seq).max?) = some row.seq := by
      rw [List.max?_eq_some_iff]
      constructor
      · refine hperm.mem_iff.mpr ?_
        rw [hrows]
        simp
      · intro seq hseq
        obtain ⟨x, hx, rfl⟩ := List.mem_map.mp (hperm.mem_iff.mp hseq)
        rw [hrows] at hx
        have := hle x hx
        omega
    rw [hmax]
    rfl

theorem Ledger.sessionRows_eq (h : Ledger db messages) (sessionId : String) :
    db.sessionRows sessionId = db.messages.filter fun row => row.sessionKey = sessionId := by
  have hrows : (db.messages.filter fun row => row.sessionKey = sessionId)
      = (ofSession sessionId messages).map Message.row := by
    rw [h.rows, List.filter_map]
    rfl
  have hsorted : ((ofSession sessionId messages).map Message.row).Pairwise seqLe := by
    rw [List.pairwise_map]
    have hlt : (ofSession sessionId messages).Pairwise fun a b => a.seq < b.seq := by
      rw [← List.pairwise_map, h.seqs]
      exact List.pairwise_lt_range
    exact hlt.imp fun hab => hab.le
  rw [Db.sessionRows, hrows, hsorted.insertionSort_eq]

theorem Ledger.uniqueSeqs (h : Ledger db messages) : UniqueSeqs db := by
  rw [UniqueSeqs, h.rows, List.map_map, List.Nodup, List.pairwise_map,
    List.pairwise_iff_forall_sublist]
  intro a b hsub heq
  obtain ⟨hsession, hseq⟩ := Prod.mk.inj heq
  replace hsession : a.sessionId = b.sessionId := hsession
  have hpair : [a, b].filter (fun m => decide (m.sessionId = a.sessionId)) = [a, b] := by
    simp [hsession]
  have hpart := hsub.filter fun m => decide (m.sessionId = a.sessionId)
  rw [hpair] at hpart
  have hseqs : ((ofSession a.sessionId messages).map Message.seq).Nodup := by
    rw [h.seqs]
    exact List.nodup_range
  have hdiff := hseqs.sublist (hpart.map Message.seq)
  simp only [List.map_cons, List.map_nil, List.nodup_cons, List.mem_singleton] at hdiff
  exact hdiff.1 hseq

/-! ### Reading -/

/-- `MessageReader.read`: one page of a range. -/
def Db.read (db : Db) (sessionId : String) (afterSeq throughSeq : ℤ) (source : Option String)
    (limit : ℕ) : Except PyError (List Message) :=
  if limit < 1 ∨ afterSeq < -1 then valueError "读取需要正 limit 和不小于 -1 的 after_seq"
  else ((between MessageRow.seq afterSeq throughSeq
    (db.sourceRows sessionId source)).take limit).mapM messageOf

/-- The page size of a scan. -/
def scanPage : ℕ := 1024

/-- The loop of `scan`: pages, until the cursor has reached the bound or a page is
empty. -/
def Db.scanPages (db : Db) (sessionId : String) (throughSeq : ℤ) (source : Option String) :
    ℕ → ℤ → Except PyError (List Message)
  | 0, _ => .ok []
  | fuel + 1, cursor =>
      if cursor < throughSeq then do
        let page ← db.read sessionId cursor throughSeq source scanPage
        match page.getLast? with
        | none => return []
        | some last => do
            let rest ← db.scanPages sessionId throughSeq source fuel last.seq
            return page ++ rest
      else return []

/-- `scan(tuple)`. Every page that is not empty moves the cursor, so the loop takes at
most one round for each row. -/
def Db.scan (db : Db) (sessionId : String) (afterSeq : ℤ) (throughSeq : Option ℤ)
    (source : Option String) : Except PyError (List Message) :=
  db.scanPages sessionId (throughSeq.getD (db.head sessionId)) source
    (db.messages.length + 1) afterSeq

theorem messageOf_fields {row : MessageRow} {m : Message} (h : messageOf row = .ok m) :
    m.messageId = row.id ∧ m.sessionId = row.sessionKey ∧ m.seq = row.seq := by
  unfold messageOf at h
  obtain ⟨_, -, h⟩ := bind_eq_ok.mp h
  obtain ⟨_, -, h⟩ := bind_eq_ok.mp h
  obtain ⟨_, -, h⟩ := bind_eq_ok.mp h
  obtain ⟨hid, hsession, hseq, -⟩ := Message.new_fields h
  exact ⟨hid, hsession, hseq⟩

/-- The rows that decode to these messages, one by one. -/
abbrev Decodes (rows : List MessageRow) (messages : List Message) : Prop :=
  List.Forall₂ (fun row m => messageOf row = .ok m) rows messages

theorem Decodes.seqs {rows : List MessageRow} (h : Decodes rows messages) :
    messages.map Message.seq = rows.map MessageRow.seq := by
  induction h with
  | nil => rfl
  | cons hrow _ ih => rw [List.map_cons, List.map_cons, ih, (messageOf_fields hrow).2.2]

theorem lastKey_map {α : Type} (key : α → ℕ) (xs : List α) :
    lastKey key xs = lastKey id (xs.map key) := by
  rw [lastKey, lastKey, List.getLast?_map]
  cases xs.getLast? <;> rfl

theorem Decodes.lastKey {rows : List MessageRow} (h : Decodes rows messages) :
    SortedBy.lastKey Message.seq messages = SortedBy.lastKey MessageRow.seq rows := by
  rw [lastKey_map Message.seq messages, lastKey_map MessageRow.seq rows, h.seqs]

/-- **The loop of a scan reads exactly its range.** The induction is on the rounds, each
of which leaves less of the range. -/
theorem scanPages_eq (h : UniqueSeqs db) (sessionId : String) (throughSeq : ℤ)
    (source : Option String) (fuel : ℕ) (cursor : ℤ) (hcursor : -1 ≤ cursor)
    (hfuel : (between MessageRow.seq cursor throughSeq
      (db.sourceRows sessionId source)).length < fuel) :
    db.scanPages sessionId throughSeq source fuel cursor
      = (between MessageRow.seq cursor throughSeq (db.sourceRows sessionId source)).mapM
          messageOf := by
  induction fuel generalizing cursor with
  | zero => omega
  | succ fuel ih =>
      have hsorted := sorted_sourceRows h sessionId source
      rw [Db.scanPages]
      by_cases hlt : cursor < throughSeq
      · have hread : db.read sessionId cursor throughSeq source scanPage
            = ((between MessageRow.seq cursor throughSeq
                (db.sourceRows sessionId source)).take scanPage).mapM messageOf := by
          rw [Db.read, if_neg]
          rintro (hlimit | hafter)
          · rw [scanPage] at hlimit
            omega
          · omega
        rw [if_pos hlt, hread]
        have hpaged := between_lastKey_take hsorted (a := cursor) (b := throughSeq)
          (n := scanPage)
        generalize between MessageRow.seq cursor throughSeq (db.sourceRows sessionId source)
          = range at hpaged hfuel ⊢
        conv_rhs => rw [← List.take_append_drop scanPage range, mapM_append_eq]
        cases hpage : (range.take scanPage).mapM messageOf with
        | error e => rfl
        | ok page =>
            have hdecodes : Decodes (range.take scanPage) page := mapM_eq_ok_iff.mp hpage
            rcases List.eq_nil_or_concat' page with rfl | ⟨front, last, rfl⟩
            · have htake := List.forall₂_nil_right_iff.mp hdecodes
              have hnil : range = [] := by
                rcases List.take_eq_nil_iff.mp htake with hzero | hnil
                · rw [scanPage] at hzero
                  omega
                · exact hnil
              rw [hnil]
              rfl
            · have hne : range.take scanPage ≠ [] := by
                intro hnil
                rw [hnil] at hdecodes
                have := List.forall₂_nil_left_iff.mp hdecodes
                simp at this
              have hlast := hdecodes.lastKey
              rw [lastKey_concat] at hlast
              have hrange := hpaged hne
              rw [← hlast] at hrange
              have hshort : (between MessageRow.seq last.seq throughSeq
                  (db.sourceRows sessionId source)).length < fuel := by
                have hpos : 0 < range.length := by
                  rw [List.length_pos_iff]
                  rintro rfl
                  exact hne rfl
                rw [hrange, List.length_drop]
                rw [scanPage]
                omega
              have hrest := ih last.seq (by omega) hshort
              rw [hrange] at hrest
              simp only [bind, Except.bind, List.getLast?_concat, hrest]
      · have hnone : between MessageRow.seq cursor throughSeq (db.sourceRows sessionId source)
            = [] := by
          rw [between, List.filter_eq_nil_iff]
          intro row _
          simp
          omega
        rw [if_neg hlt, hnone]
        rfl

/-- **A scan reads exactly its range.** -/
theorem scan_eq (h : UniqueSeqs db) (sessionId : String) {afterSeq : ℤ} (hafter : -1 ≤ afterSeq)
    (throughSeq : Option ℤ) (source : Option String) :
    db.scan sessionId afterSeq throughSeq source
      = (between MessageRow.seq afterSeq (throughSeq.getD (db.head sessionId))
          (db.sourceRows sessionId source)).mapM messageOf := by
  refine scanPages_eq h sessionId _ source _ afterSeq hafter ?_
  have h₁ : (between MessageRow.seq afterSeq (throughSeq.getD (db.head sessionId))
      (db.sourceRows sessionId source)).length ≤ (db.sourceRows sessionId source).length :=
    List.length_filter_le _ _
  have h₂ : (db.sourceRows sessionId source).length ≤ (db.sessionRows sessionId).length :=
    List.length_filter_le _ _
  have h₃ : (db.sessionRows sessionId).length ≤ db.messages.length := by
    rw [Db.sessionRows, List.length_insertionSort]
    exact List.length_filter_le _ _
  omega

end Kirakira
