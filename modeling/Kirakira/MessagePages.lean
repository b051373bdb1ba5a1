import Kirakira.Lib.Dict
import Kirakira.Reader
import Mathlib.Data.List.Dedup

/-!
# Pages of a Session

`MessageReader.read_page` and `MessageReader.read_tail` of `plugins/ledger/log.py`, and a reader
that follows them: forwards from the number of the last message of a page, or backwards from the
number of its first message, under a bound that is fixed, until a page says that no more are left.
The log may grow between the pages.

Of `attachments` and `bindings` the database holds the identities and the states. The descriptor
of a binding, which is a JSON object when it is intact, is an argument.

## Main results

* `Db.Referenced.pageReferences_ok` — intact references are read, and
  `Db.Referenced.insertRows` — the writes of a message keep them intact.
* `page_eq` — what one page holds, forwards and backwards.
* `forwardPages_spec`, `tailPages_spec` — what the pages of a reader hold, by induction on the
  reads.
* `paging_enumerates` — **paging enumerates a fixed prefix exactly once**.
-/

namespace Kirakira

open Exceptions SortedBy

/-! ### Pages -/

/-- What a page read raises: `InvalidPage`, `KeyError` of the session, or what the rows raise. -/
inductive PageError where
  | invalidPage (text : String)
  | unknownSession (sessionId : String)
  | raised (e : PyError)

/-- `MessagePage`. -/
structure MessagePage where
  messages : List Message
  attachments : Dict String (List String)
  bindings : List (String × FrozenJson)
  throughSeq : ℤ
  hasMore : Bool

/-- `ORDER BY ma.message_id, ma.ordinal`. -/
def attachmentLe (a b : String × ℕ × String) : Prop :=
  a.1 < b.1 ∨ (a.1 = b.1 ∧ a.2.1 ≤ b.2.1)

instance : DecidableRel attachmentLe := fun _ _ => inferInstanceAs (Decidable (_ ∨ _))

instance : Std.Total attachmentLe where
  total a b := by
    unfold attachmentLe
    rcases lt_trichotomy a.1 b.1 with h | h | h
    · exact .inl (.inl h)
    · rcases Nat.le_total a.2.1 b.2.1 with hle | hle
      · exact .inl (.inr ⟨h, hle⟩)
      · exact .inr (.inr ⟨h.symm, hle⟩)
    · exact .inr (.inl h)

instance : IsTrans (String × ℕ × String) attachmentLe where
  trans a b c hab hbc := by
    unfold attachmentLe at hab hbc ⊢
    rcases hab with hab | ⟨hab, hle⟩
    · rcases hbc with hbc | ⟨hbc, -⟩
      · exact .inl (hab.trans hbc)
      · exact .inl (hbc ▸ hab)
    · rcases hbc with hbc | ⟨hbc, hle'⟩
      · exact .inl (hab ▸ hbc)
      · exact .inr ⟨hab.trans hbc, hle.trans hle'⟩

/-- The loop of `_page_references` over the attachments. -/
def attachmentStep (db : Db) (refs : Dict String (List String)) (row : String × ℕ × String) :
    Except PyError (Dict String (List String)) :=
  let (messageId, ordinal, artifactId) := row
  let known := (refs.get? messageId).getD []
  match db.attachments.lookup artifactId with
  | none => valueError ("Message " ++ messageId ++ " 附件引用损坏")
  | some state =>
      if ordinal ≠ known.length then valueError ("Message " ++ messageId ++ " 附件引用损坏")
      else if state ≠ "ready" then valueError "附件尚未发布"
      else .ok (refs.set messageId (known ++ [artifactId]))

/-- `_page_references`. -/
def Db.pageReferences (db : Db) (descriptor : String → Except PyError FrozenJson)
    (ids : List String) :
    Except PyError (Dict String (List String) × List (String × FrozenJson)) := do
  let rows := (db.messageAttachments.filter fun row => ids.contains row.1).insertionSort attachmentLe
  let attachments ← rows.foldlM (attachmentStep db)
    (ids.foldl (fun refs id => refs.set id []) .empty)
  let bound := (db.messageBindings.filter fun row => ids.contains row.1).map Prod.snd
  let bindings ← (bound.dedup.insertionSort fun a b => a ≤ b).mapM fun id => do
    let value ← descriptor id
    return (id, value)
  return (attachments, bindings)

/-- `raise InvalidPage(text)`. -/
def invalidPage {α : Type} (text : String) : Except PageError α :=
  .error (.invalidPage text)

/-- The rows of a page and one more, if there is one: the query of `_page`. -/
def pageRows (rows : List MessageRow) (afterSeq through before : ℤ) (limit : ℕ) (tail : Bool) :
    List MessageRow :=
  let range := (between MessageRow.seq afterSeq through rows).filter fun row => row.seq < before
  (if tail then range.reverse else range).take (limit + 1)

/-- `MessageReader._page`. -/
def Db.page (db : Db) (descriptor : String → Except PyError FrozenJson) (sessionId : String)
    (afterSeq : ℤ) (beforeSeq throughSeq : Option ℤ) (limit : ℕ) (tail : Bool) :
    Except PageError MessagePage :=
  if ¬(1 ≤ limit ∧ limit ≤ 200) ∨ afterSeq < -1 ∨ beforeSeq.any (fun before => before < 0) then
    invalidPage "消息页范围或 limit 无效"
  else
    match db.sessions.lookup sessionId with
    | none => .error (.unknownSession sessionId)
    | some _ =>
        let head := db.head sessionId
        let through := throughSeq.getD head
        let before := beforeSeq.getD (through + 1)
        if ¬(-1 ≤ through ∧ through ≤ head) ∨ through < afterSeq then
          invalidPage "消息页上界或 cursor 超过已接纳前缀"
        else if through + 1 < before then invalidPage "消息页 before_seq 超过快照上界"
        else
          let rows := pageRows (db.sessionRows sessionId) afterSeq through before limit tail
          let selected := if tail then (rows.take limit).reverse else rows.take limit
          Except.mapError .raised do
            let messages ← selected.mapM messageOf
            let references ← db.pageReferences descriptor (messages.map Message.messageId)
            return ⟨messages, references.1, references.2, through, limit < rows.length⟩

/-- `MessageReader.read_page`. -/
def Db.readPage (db : Db) (descriptor : String → Except PyError FrozenJson) (sessionId : String)
    (afterSeq : ℤ) (throughSeq : Option ℤ) (limit : ℕ) : Except PageError MessagePage :=
  db.page descriptor sessionId afterSeq none throughSeq limit false

/-- `MessageReader.read_tail`. -/
def Db.readTail (db : Db) (descriptor : String → Except PyError FrozenJson) (sessionId : String)
    (beforeSeq throughSeq : Option ℤ) (limit : ℕ) : Except PageError MessagePage :=
  db.page descriptor sessionId (-1) beforeSeq throughSeq limit true

/-! ### Following the pages -/

/-- A read: the log at its time, the descriptors of the bindings, and the size of the page. -/
structure PageRead where
  log : Log
  descriptor : String → Except PyError FrozenJson
  limit : ℕ

/-- `read_page` from a number, until `has_more` is false. -/
def forwardPages (sessionId : String) (through : ℤ) :
    ℤ → List PageRead → Except PageError (List MessagePage)
  | _, [] => .ok []
  | afterSeq, r :: reads => do
      let page ← r.log.db.readPage r.descriptor sessionId afterSeq (some through) r.limit
      if page.hasMore then
        let pages ← forwardPages sessionId through (lastKey Message.seq page.messages) reads
        return page :: pages
      else return [page]

/-- `read_tail` before a number, until `has_more` is false. -/
def tailPages (sessionId : String) (through : ℤ) :
    Option ℤ → List PageRead → Except PageError (List MessagePage)
  | _, [] => .ok []
  | beforeSeq, r :: reads => do
      let page ← r.log.db.readTail r.descriptor sessionId beforeSeq (some through) r.limit
      if page.hasMore then
        let pages ← tailPages sessionId through (page.messages.head?.map fun m => (m.seq : ℤ)) reads
        return page :: pages
      else return [page]

/-! ### References of a page -/

/-- The attachments of a message. -/
def ofMessage (id : String) (rows : List (String × ℕ × String)) : List (String × ℕ × String) :=
  rows.filter fun row => row.1 = id

/-- The references of a database: the ordinals of a message count its attachments from zero, the
attachments are published, and the bindings have descriptors. -/
structure Db.Referenced (db : Db) (descriptor : String → Except PyError FrozenJson) : Prop where
  ordinals : ∀ id, ((ofMessage id db.messageAttachments).map fun row => row.2.1).Perm
    (List.range (ofMessage id db.messageAttachments).length)
  ready : ∀ row ∈ db.messageAttachments, db.attachments.lookup row.2.2 = some "ready"
  described : ∀ row ∈ db.messageBindings, ∃ value, descriptor row.2 = .ok value

theorem ordinal_eq {rows : List (String × ℕ × String)} (hsorted : rows.Pairwise attachmentLe)
    (hperm : ∀ id, ((ofMessage id rows).map fun row => row.2.1).Perm
      (List.range (ofMessage id rows).length))
    {pre post : List (String × ℕ × String)} {row : String × ℕ × String}
    (hsplit : rows = pre ++ row :: post) : row.2.1 = (ofMessage row.1 pre).length := by
  have hle : ((ofMessage row.1 rows).map fun row => row.2.1).Pairwise (· ≤ ·) := by
    rw [ofMessage, List.pairwise_map, List.pairwise_filter]
    refine hsorted.imp fun {a b} hab ha hb => ?_
    rw [decide_eq_true_eq] at ha hb
    rcases hab with hlt | ⟨-, hle⟩
    · exact absurd (ha.trans hb.symm) hlt.ne
    · exact hle
  have hrange := (hperm row.1).eq_of_pairwise (fun _ _ _ _ => le_antisymm) hle
    (List.pairwise_lt_range.imp le_of_lt)
  have hparts : ofMessage row.1 rows = ofMessage row.1 pre ++ row :: ofMessage row.1 post := by
    rw [hsplit, ofMessage, List.filter_append, List.filter_cons_of_pos (by simp)]
    rfl
  have hget := congrArg (fun xs => xs[(ofMessage row.1 pre).length]?) hrange
  rw [hparts] at hget
  simpa using hget

/-- The loop over the attachments reads them all. The induction keeps that the dictionary holds as
many attachments of each message as have been read. -/
theorem attachments_ok {db : Db} {rows post : List (String × ℕ × String)}
    (pre : List (String × ℕ × String)) (refs : Dict String (List String))
    (hready : ∀ row ∈ post, db.attachments.lookup row.2.2 = some "ready")
    (hordinal : ∀ pre row post, rows = pre ++ row :: post →
      row.2.1 = (ofMessage row.1 pre).length)
    (hsplit : rows = pre ++ post)
    (hrefs : ∀ id, ((refs.get? id).getD []).length = (ofMessage id pre).length) :
    ∃ refs', post.foldlM (attachmentStep db) refs = .ok refs' := by
  induction post generalizing pre refs with
  | nil => exact ⟨refs, rfl⟩
  | cons row post ih =>
      have hplace := (hordinal pre row post hsplit).trans (hrefs row.1).symm
      have hstep : attachmentStep db refs row
          = .ok (refs.set row.1 ((refs.get? row.1).getD [] ++ [row.2.2])) := by
        rw [attachmentStep, hready row List.mem_cons_self]
        simp [hplace]
      obtain ⟨refs', hrest⟩ := ih (pre ++ [row])
        (refs.set row.1 ((refs.get? row.1).getD [] ++ [row.2.2]))
        (fun x hx => hready x (List.mem_cons_of_mem row hx))
        (by rw [hsplit, List.append_assoc, List.singleton_append]) fun id => by
          rw [ofMessage, List.filter_append, List.length_append]
          by_cases hid : row.1 = id
          · subst hid
            rw [Dict.get?_set_self, Option.getD_some, List.length_append, hrefs, ofMessage]
            simp
          · rw [Dict.get?_set_of_ne _ _ (Ne.symm hid), hrefs, ofMessage]
            simp [hid]
      exact ⟨refs', by rw [List.foldlM_cons, hstep]; exact hrest⟩

/-- **Intact references are read.** -/
theorem Db.Referenced.pageReferences_ok {db : Db} {descriptor : String → Except PyError FrozenJson}
    (h : db.Referenced descriptor) (ids : List String) :
    ∃ references, db.pageReferences descriptor ids = .ok references := by
  have hperm := List.perm_insertionSort attachmentLe
    (db.messageAttachments.filter fun row => ids.contains row.1)
  have hsorted := List.pairwise_insertionSort attachmentLe
    (db.messageAttachments.filter fun row => ids.contains row.1)
  have hordinals : ∀ id, ((ofMessage id ((db.messageAttachments.filter fun row =>
      ids.contains row.1).insertionSort attachmentLe)).map fun row => row.2.1).Perm
      (List.range (ofMessage id ((db.messageAttachments.filter fun row =>
        ids.contains row.1).insertionSort attachmentLe)).length) := by
    intro id
    have hpart := hperm.filter fun row => decide (row.1 = id)
    rw [List.filter_filter] at hpart
    by_cases hid : id ∈ ids
    · have hall : (db.messageAttachments.filter fun row =>
          decide (row.1 = id) && ids.contains row.1) = ofMessage id db.messageAttachments :=
        List.filter_congr fun row _ => by
          by_cases hrow : row.1 = id
          · simp [hrow, hid]
          · simp [hrow]
      rw [hall] at hpart
      refine ((hpart.map _).trans (h.ordinals id)).trans (.of_eq ?_)
      rw [ofMessage, ofMessage, hpart.length_eq, ofMessage]
    · have hnone : (db.messageAttachments.filter fun row =>
          decide (row.1 = id) && ids.contains row.1) = [] :=
        List.filter_eq_nil_iff.mpr fun row _ => by
          rw [Bool.and_eq_true, decide_eq_true_eq, List.contains_iff_mem]
          rintro ⟨rfl, hmem⟩
          exact hid hmem
      rw [hnone] at hpart
      rw [ofMessage, hpart.eq_nil]
      exact .refl _
  obtain ⟨attachments, hattachments⟩ := attachments_ok []
    (ids.foldl (fun refs id => refs.set id []) .empty)
    (fun row hrow => h.ready row (List.mem_of_mem_filter (hperm.mem_iff.mp hrow)))
    (fun pre row post hsplit => ordinal_eq hsorted hordinals hsplit) rfl fun id => by
      rw [Dict.get?_foldl_set]
      split <;> rfl
  have hdescribed : ∀ id ∈ ((db.messageBindings.filter fun row => ids.contains row.1).map
      Prod.snd).dedup.insertionSort (fun a b => a ≤ b), ∃ binding, (do
        let value ← descriptor id
        return (id, value)) = Except.ok (ε := PyError) binding := by
    intro id hid
    rw [List.mem_insertionSort, List.mem_dedup, List.mem_map] at hid
    obtain ⟨row, hrow, rfl⟩ := hid
    obtain ⟨value, hvalue⟩ := h.described row (List.mem_of_mem_filter hrow)
    exact ⟨(row.2, value), by rw [hvalue]; rfl⟩
  obtain ⟨bindings, hbindings⟩ := mapM_ok hdescribed
  refine ⟨(attachments, bindings), ?_⟩
  rw [Db.pageReferences, hattachments]
  simp only [bind, Except.bind] at hbindings ⊢
  rw [hbindings]
  rfl

/-! ### One page -/

/-- A state in which a prefix of the session can be read: the session and the bound are known,
the rows up to the bound are these, and the rows and the references are intact. -/
structure PageRead.Offers (r : PageRead) (sessionId : String) (through : ℤ)
    (whole : List MessageRow) : Prop where
  limit : 1 ≤ r.limit ∧ r.limit ≤ 200
  known : ∃ row, r.log.db.sessions.lookup sessionId = some row
  bound : -1 ≤ through ∧ through ≤ r.log.db.head sessionId
  rows : upTo MessageRow.seq through (r.log.db.sessionRows sessionId) = whole
  decodes : ∀ row ∈ whole, ∃ m, messageOf row = .ok m
  references : r.log.db.Referenced r.descriptor

variable {through : ℤ}

theorem between_filter_before (rows : List MessageRow) {a before : ℤ} (h : before ≤ through + 1) :
    (between MessageRow.seq a through rows).filter (fun row => row.seq < before)
      = between MessageRow.seq a (before - 1) (upTo MessageRow.seq through rows) := by
  rw [between_upTo rows (by omega), between, between, List.filter_filter]
  refine List.filter_congr fun row _ => ?_
  rw [Bool.eq_iff_iff]
  simp only [Bool.and_eq_true, decide_eq_true_eq]
  omega

theorem pageRows_eq (rows : List MessageRow) (a : ℤ) {before : ℤ} (h : before ≤ through + 1)
    (limit : ℕ) (tail : Bool) :
    pageRows rows a through before limit tail =
      (if tail then (between MessageRow.seq a (before - 1)
          (upTo MessageRow.seq through rows)).reverse
        else between MessageRow.seq a (before - 1) (upTo MessageRow.seq through rows)).take
          (limit + 1) := by
  rw [pageRows, between_filter_before rows h]

/-- The rows of a page in the order of the log. -/
def pagePart (range : List MessageRow) (limit : ℕ) (tail : Bool) : List MessageRow :=
  if tail then range.drop (range.length - limit) else range.take limit

theorem pagePart_eq (range : List MessageRow) (limit : ℕ) (tail : Bool) :
    (if tail then (((if tail then range.reverse else range).take (limit + 1)).take limit).reverse
      else ((if tail then range.reverse else range).take (limit + 1)).take limit)
      = pagePart range limit tail ∧
    (limit < ((if tail then range.reverse else range).take (limit + 1)).length ↔
      limit < range.length) := by
  have htake : ∀ xs : List MessageRow, (xs.take (limit + 1)).take limit = xs.take limit := by
    intro xs
    rw [List.take_take, Nat.min_eq_left (Nat.le_succ limit)]
  cases tail with
  | true =>
      simp only [if_true, htake, pagePart, List.length_take, List.length_reverse]
      refine ⟨?_, by omega⟩
      rw [List.take_reverse, List.reverse_reverse]
  | false =>
      simp only [Bool.false_eq_true, if_false, htake, pagePart, List.length_take, true_and]
      omega

/-- **What one page holds**: the first messages of its range, or the last ones. -/
theorem page_eq {r : PageRead} {sessionId : String} {whole : List MessageRow}
    (h : r.Offers sessionId through whole) {afterSeq : ℤ} (hafter : -1 ≤ afterSeq)
    (hle : afterSeq ≤ through) (beforeSeq : Option ℤ)
    (hbefore : ∀ before, beforeSeq = some before → 0 ≤ before ∧ before ≤ through + 1)
    (tail : Bool) :
    ∃ page, r.log.db.page r.descriptor sessionId afterSeq beforeSeq (some through) r.limit tail
        = .ok page ∧
      Decodes (pagePart (between MessageRow.seq afterSeq (beforeSeq.getD (through + 1) - 1) whole)
        r.limit tail) page.messages ∧
      (page.hasMore = true ↔ r.limit <
        (between MessageRow.seq afterSeq (beforeSeq.getD (through + 1) - 1) whole).length) := by
  obtain ⟨row, hrow⟩ := h.known
  have hbound : beforeSeq.getD (through + 1) ≤ through + 1 := by
    cases beforeSeq with
    | none => exact le_rfl
    | some before => exact (hbefore before rfl).2
  have hnonneg : beforeSeq.any (fun before => decide (before < 0)) = false := by
    cases beforeSeq with
    | none => rfl
    | some before => simpa using (hbefore before rfl).1
  have hrows := pageRows_eq (r.log.db.sessionRows sessionId) afterSeq hbound r.limit tail
  rw [h.rows] at hrows
  have hmem : ∀ x ∈ between MessageRow.seq afterSeq (beforeSeq.getD (through + 1) - 1) whole,
      x ∈ whole := fun x hx => List.mem_of_mem_filter hx
  generalize between MessageRow.seq afterSeq (beforeSeq.getD (through + 1) - 1) whole = range
    at hrows hmem ⊢
  obtain ⟨hpart, hmore⟩ := pagePart_eq range r.limit tail
  rw [← hrows] at hpart hmore
  have hpart_mem : ∀ x ∈ pagePart range r.limit tail, x ∈ whole := by
    intro x hx
    rw [pagePart] at hx
    split at hx
    · exact hmem x (List.mem_of_mem_drop hx)
    · exact hmem x (List.mem_of_mem_take hx)
  obtain ⟨messages, hmessages⟩ := mapM_ok fun x hx => h.decodes x (hpart_mem x hx)
  have hdecodes : Decodes (pagePart range r.limit tail) messages := mapM_eq_ok_iff.mp hmessages
  obtain ⟨references, hreferences⟩ :=
    h.references.pageReferences_ok (messages.map Message.messageId)
  refine ⟨⟨messages, references.1, references.2, through, _⟩, ?_, hdecodes,
    decide_eq_true_iff.trans hmore⟩
  have hcheck : ¬(¬(1 ≤ r.limit ∧ r.limit ≤ 200) ∨ afterSeq < -1 ∨
      beforeSeq.any (fun before => decide (before < 0)) = true) := by
    rw [hnonneg]
    have := h.limit
    simp
    omega
  have hthrough : ¬(¬(-1 ≤ through ∧ through ≤ r.log.db.head sessionId) ∨ through < afterSeq) := by
    have := h.bound
    omega
  rw [Db.page, if_neg hcheck, hrow]
  simp only [Option.getD_some]
  rw [if_neg hthrough, if_neg (by omega), hpart, hmessages]
  simp only [bind, Except.bind]
  rw [hreferences]
  rfl

/-! ### All pages -/

/-- Pages that say whether more are left, of which the last says that none are. -/
structure Complete (pages : List MessagePage) : Prop where
  more : ∀ pre page post, pages = pre ++ page :: post →
    (page.hasMore = true ↔ post.flatMap MessagePage.messages ≠ [])
  done : pages.getLast?.map MessagePage.hasMore = some false

theorem Complete.single {page : MessagePage} (h : page.hasMore = false) : Complete [page] where
  more pre p post hsplit := by
    obtain ⟨rfl, rfl, rfl⟩ : pre = [] ∧ p = page ∧ post = [] := by
      cases pre with
      | nil =>
          obtain ⟨rfl, rfl⟩ := List.cons.inj hsplit
          exact ⟨rfl, rfl, rfl⟩
      | cons x pre => simp at hsplit
    simp [h]
  done := by simp [h]

theorem Complete.cons {page : MessagePage} {pages : List MessagePage} (h : Complete pages)
    (hmore : page.hasMore = true) (hne : pages.flatMap MessagePage.messages ≠ []) :
    Complete (page :: pages) where
  more pre p post hsplit := by
    cases pre with
    | nil =>
        obtain ⟨rfl, rfl⟩ := List.cons.inj hsplit
        exact iff_of_true hmore hne
    | cons x pre =>
        obtain ⟨rfl, hrest⟩ := List.cons.inj hsplit
        exact h.more pre p post hrest
  done := by
    cases pages with
    | nil => exact absurd rfl hne
    | cons next pages => exact h.done

section Follow

variable {sessionId : String} {through : ℤ} {whole : List MessageRow} {reads : List PageRead}

theorem Decodes.ne_nil {rows : List MessageRow} {messages : List Message}
    (h : Decodes rows messages) (hne : rows ≠ []) : messages ≠ [] := by
  rintro rfl
  exact hne (List.forall₂_nil_right_iff.mp h)

theorem Decodes.append {rows rows' : List MessageRow} {messages messages' : List Message}
    (h : Decodes rows messages) (h' : Decodes rows' messages') :
    Decodes (rows ++ rows') (messages ++ messages') :=
  List.rel_append h h'

/-- **The pages that a reader follows forwards** hold the messages after its number. The induction
is on the reads. -/
theorem forwardPages_spec (hsorted : Sorted MessageRow.seq whole)
    (hoffers : ∀ r ∈ reads, r.Offers sessionId through whole) (hne : reads ≠ []) {afterSeq : ℤ}
    (hafter : -1 ≤ afterSeq) (hle : afterSeq ≤ through)
    (hlen : (between MessageRow.seq afterSeq through whole).length ≤ reads.length) :
    ∃ pages, forwardPages sessionId through afterSeq reads = .ok pages ∧
      Decodes (between MessageRow.seq afterSeq through whole)
        (pages.flatMap MessagePage.messages) ∧ Complete pages := by
  induction reads generalizing afterSeq with
  | nil => exact absurd rfl hne
  | cons r reads ih =>
      have hr := hoffers r List.mem_cons_self
      obtain ⟨page, hpage, hdecodes, hmore⟩ := page_eq hr hafter hle none
        (fun _ h => by cases h) false
      have hread : r.log.db.readPage r.descriptor sessionId afterSeq (some through) r.limit
          = .ok page := hpage
      have hnext := between_lastKey_take hsorted (a := afterSeq) (b := through) (n := r.limit)
      rw [Option.getD_none, add_sub_cancel_right, pagePart, if_neg Bool.false_ne_true] at hdecodes
      rw [Option.getD_none, add_sub_cancel_right] at hmore
      have hbetween : ∀ row ∈ between MessageRow.seq afterSeq through whole,
          afterSeq < row.seq ∧ (row.seq : ℤ) ≤ through := by
        intro row hrow
        simpa using (List.mem_filter.mp hrow).2
      generalize between MessageRow.seq afterSeq through whole = range
        at hdecodes hmore hnext hlen hbetween ⊢
      rw [forwardPages, hread]
      by_cases hfew : range.length ≤ r.limit
      · have hlast : page.hasMore = false := by
          rw [← Bool.not_eq_true, hmore]
          omega
        refine ⟨[page], by simp [bind, Except.bind, hlast, pure, Except.pure], ?_, .single hlast⟩
        rwa [List.take_of_length_le hfew, ← List.flatMap_singleton MessagePage.messages] at hdecodes
      · have hlast : page.hasMore = true := hmore.mpr (not_le.mp hfew)
        have hlimit := hr.limit.1
        have htake : range.take r.limit ≠ [] := by
          rw [ne_eq, List.take_eq_nil_iff]
          rintro (hzero | rfl)
          · omega
          · exact hfew (Nat.zero_le _)
        replace hnext := hnext htake
        rw [← hdecodes.lastKey] at hnext
        have hcursor : lastKey Message.seq page.messages ≤ through := by
          obtain ⟨ys, y, hy⟩ := (List.eq_nil_or_concat' _).resolve_left htake
          have hmem : y ∈ range.take r.limit := by
            rw [hy]
            exact List.mem_append_right _ (List.mem_singleton_self y)
          rw [hdecodes.lastKey, hy, lastKey_concat]
          exact (hbetween y (List.mem_of_mem_take hmem)).2
        rw [List.length_cons] at hlen
        have hdrop : (range.drop r.limit).length ≤ reads.length ∧ range.drop r.limit ≠ [] := by
          rw [List.length_drop, ne_eq, List.drop_eq_nil_iff]
          omega
        have hreads : reads ≠ [] := by
          rintro rfl
          exact hdrop.2 (List.length_eq_zero_iff.mp (Nat.le_zero.mp hdrop.1))
        obtain ⟨pages, hpages, hrest, hcomplete⟩ := ih
          (fun x hx => hoffers x (List.mem_cons_of_mem r hx)) hreads
          (neg_one_le_lastKey page.messages) hcursor (by rw [hnext]; exact hdrop.1)
        rw [hnext] at hrest
        refine ⟨page :: pages, by simp [bind, Except.bind, hlast, hpages, pure, Except.pure], ?_,
          hcomplete.cons hlast (hrest.ne_nil hdrop.2)⟩
        have happend := hdecodes.append hrest
        rwa [List.take_append_drop] at happend

/-- **The pages that a reader follows backwards** hold the messages before its number, the earlier
page before the later one. -/
theorem tailPages_spec (hsorted : Sorted MessageRow.seq whole)
    (hoffers : ∀ r ∈ reads, r.Offers sessionId through whole) (hne : reads ≠ [])
    (hthrough : -1 ≤ through) (beforeSeq : Option ℤ)
    (hbefore : ∀ before, beforeSeq = some before → 0 ≤ before ∧ before ≤ through + 1)
    (hlen : (between MessageRow.seq (-1) (beforeSeq.getD (through + 1) - 1) whole).length
      ≤ reads.length) :
    ∃ pages, tailPages sessionId through beforeSeq reads = .ok pages ∧
      Decodes (between MessageRow.seq (-1) (beforeSeq.getD (through + 1) - 1) whole)
        (pages.reverse.flatMap MessagePage.messages) ∧ Complete pages := by
  induction reads generalizing beforeSeq with
  | nil => exact absurd rfl hne
  | cons r reads ih =>
      have hr := hoffers r List.mem_cons_self
      obtain ⟨page, hpage, hdecodes, hmore⟩ := page_eq hr le_rfl hthrough beforeSeq hbefore true
      have hread : r.log.db.readTail r.descriptor sessionId beforeSeq (some through) r.limit
          = .ok page := hpage
      rw [pagePart, if_pos rfl] at hdecodes
      have hbound : beforeSeq.getD (through + 1) ≤ through + 1 := by
        cases beforeSeq with
        | none => exact le_rfl
        | some before => exact (hbefore before rfl).2
      have hbetween : ∀ row ∈ between MessageRow.seq (-1) (beforeSeq.getD (through + 1) - 1) whole,
          (row.seq : ℤ) ≤ through := by
        intro row hrow
        have hrow' := (List.mem_filter.mp hrow).2
        simp only [Bool.and_eq_true, decide_eq_true_eq] at hrow'
        omega
      have hearlier : ∀ {ys zs : List MessageRow} {y : MessageRow},
          between MessageRow.seq (-1) (beforeSeq.getD (through + 1) - 1) whole = ys ++ y :: zs →
          between MessageRow.seq (-1) (y.seq - 1) whole = ys := between_before hsorted
      generalize between MessageRow.seq (-1) (beforeSeq.getD (through + 1) - 1) whole = range
        at hdecodes hmore hearlier hlen hbetween ⊢
      rw [tailPages, hread]
      by_cases hfew : range.length ≤ r.limit
      · have hlast : page.hasMore = false := by
          rw [← Bool.not_eq_true, hmore]
          omega
        refine ⟨[page], by simp [bind, Except.bind, hlast, pure, Except.pure], ?_, .single hlast⟩
        rw [Nat.sub_eq_zero_of_le hfew, List.drop_zero] at hdecodes
        rwa [List.reverse_singleton, List.flatMap_singleton]
      · have hlast : page.hasMore = true := hmore.mpr (not_le.mp hfew)
        have hlimit := hr.limit.1
        obtain ⟨y, zs, hdrop⟩ : ∃ y zs, range.drop (range.length - r.limit) = y :: zs := by
          refine List.exists_cons_of_ne_nil ?_
          rw [ne_eq, List.drop_eq_nil_iff]
          omega
        have hsplit : range = range.take (range.length - r.limit) ++ y :: zs := by
          rw [← hdrop, List.take_append_drop]
        have hy := hbetween y (by
          rw [hsplit]
          exact List.mem_append_right _ List.mem_cons_self)
        have hrange := hearlier hsplit
        have hfirst : page.messages.head?.map (fun m => (m.seq : ℤ)) = some (y.seq : ℤ) := by
          rw [hdrop] at hdecodes
          obtain ⟨m, ms, hm, -, hmessages⟩ := List.forall₂_cons_left_iff.mp hdecodes
          rw [hmessages, List.head?_cons, Option.map_some, (messageOf_fields hm).2.2]
        rw [List.length_cons] at hlen
        have htake : (range.take (range.length - r.limit)).length ≤ reads.length ∧
            range.take (range.length - r.limit) ≠ [] := by
          rw [List.length_take, ne_eq, List.take_eq_nil_iff]
          refine ⟨by omega, ?_⟩
          rintro (hzero | rfl)
          · omega
          · exact hfew (Nat.zero_le _)
        have hreads : reads ≠ [] := by
          rintro rfl
          exact htake.2 (List.length_eq_zero_iff.mp (Nat.le_zero.mp htake.1))
        obtain ⟨pages, hpages, hrest, hcomplete⟩ := ih
          (fun x hx => hoffers x (List.mem_cons_of_mem r hx)) hreads (some (y.seq : ℤ))
          (fun before hb => by
            obtain rfl := Option.some.inj hb
            omega)
          (by rw [Option.getD_some, hrange]; exact htake.1)
        rw [Option.getD_some, hrange] at hrest
        refine ⟨page :: pages, by simp [bind, Except.bind, hlast, hfirst, hpages, pure, Except.pure],
          ?_, hcomplete.cons hlast fun hnone => ?_⟩
        · have happend := hrest.append hdecodes
          rw [List.take_append_drop] at happend
          rwa [List.reverse_cons, List.flatMap_append, List.flatMap_singleton]
        · refine hrest.ne_nil htake.2 ?_
          rw [List.flatMap_eq_nil_iff] at hnone ⊢
          exact fun x hx => hnone x (List.mem_reverse.mp hx)

end Follow

/-! ### Paging -/

/-- A read of the log, some time after it was this one: the page has an admitted size, the session
is known, and the references of its messages are intact. -/
structure PageRead.After (r : PageRead) (log : Log) (sessionId : String) : Prop where
  run : ledger.Run log r.log
  limit : 1 ≤ r.limit ∧ r.limit ≤ 200
  known : ∃ row, r.log.db.sessions.lookup sessionId = some row
  references : r.log.db.Referenced r.descriptor

theorem PageRead.After.offers {r : PageRead} {log : Log} {sessionId : String}
    (h : r.After log sessionId) (hreach : ledger.Reachable log)
    (hthrough : -1 ≤ through ∧ through ≤ log.db.head sessionId) :
    r.Offers sessionId through (upTo MessageRow.seq through (log.db.sessionRows sessionId)) := by
  obtain ⟨messages, hledger⟩ := ledger_of_reachable hreach
  obtain ⟨messages', hledger'⟩ := ledger_of_reachable (hreach.run h.run)
  have hprefix : log.db.sessionRows sessionId <+: r.log.db.sessionRows sessionId := by
    rw [hledger.sessionRows_eq, hledger'.sessionRows_eq]
    exact (messages_prefix_of_run h.run hledger).filter _
  have hsorted := sorted_sessionRows hledger'.uniqueSeqs sessionId
  have hhead := head_eq_lastKey hledger.uniqueSeqs sessionId
  have hrows := upTo_of_prefix hsorted hprefix (hhead ▸ hthrough.2)
  have hmem : ∀ row ∈ upTo MessageRow.seq through (log.db.sessionRows sessionId),
      row ∈ r.log.db.sessionRows sessionId := by
    intro row hrow
    rw [← hrows] at hrow
    exact List.mem_of_mem_filter hrow
  refine ⟨h.limit, h.known, ⟨hthrough.1, hthrough.2.trans ?_⟩, hrows, fun row hrow => ?_,
    h.references⟩
  · rw [hhead, head_eq_lastKey hledger'.uniqueSeqs]
    exact hsorted.lastKey_le_of_prefix hprefix
  · obtain ⟨hstored, -⟩ := mem_sessionRows.mp (hmem row hrow)
    rw [hledger'.rows] at hstored
    obtain ⟨m, -, rfl⟩ := List.mem_map.mp hstored
    exact ⟨m, messageOf_row m⟩

/-- Pages of these messages that say of themselves whether messages remain. -/
structure SaysMore (messages : List Message) (pages : List MessagePage) : Prop where
  /-- `has_more` is true exactly when messages remain. -/
  more : ∀ pre page post, pages = pre ++ page :: post →
    (page.hasMore = true ↔
      ∃ m ∈ messages, m ∉ (pre ++ [page]).flatMap MessagePage.messages)
  /-- The last page says that none do. -/
  done : pages.getLast?.map MessagePage.hasMore = some false

theorem Complete.saysMore {pages : List MessagePage} (h : Complete pages)
    {messages : List Message} (hnodup : (pages.flatMap MessagePage.messages).Nodup)
    (hmem : ∀ m, m ∈ messages ↔ m ∈ pages.flatMap MessagePage.messages) :
    SaysMore messages pages where
  more pre page post hsplit := by
    rw [h.more pre page post hsplit]
    have hparts : pages.flatMap MessagePage.messages
        = (pre ++ [page]).flatMap MessagePage.messages ++ post.flatMap MessagePage.messages := by
      rw [hsplit, ← List.flatMap_append, List.append_assoc, List.singleton_append]
    rw [hparts] at hnodup
    have hdisjoint := List.disjoint_of_nodup_append hnodup
    constructor
    · intro hne
      obtain ⟨m, hm⟩ := List.exists_mem_of_ne_nil _ hne
      refine ⟨m, (hmem m).mpr ?_, fun hpre => hdisjoint hpre hm⟩
      rw [hparts]
      exact List.mem_append_right _ hm
    · rintro ⟨m, hm, hnot⟩ hnil
      have hall := (hmem m).mp hm
      rw [hparts, hnil, List.append_nil] at hall
      exact hnot hall
  done := h.done

/-- **Paging enumerates a fixed prefix exactly once**, forwards and backwards, whatever is appended
between the reads, which are at least as many as there are numbers. -/
theorem paging_enumerates {log : Log} (hreach : ledger.Reachable log) {sessionId : String}
    {through : ℤ} (hthrough : -1 ≤ through ∧ through ≤ log.db.head sessionId)
    {reads : List PageRead} (hreads : ∀ r ∈ reads, r.After log sessionId) (hne : reads ≠ [])
    (henough : (through + 1).toNat ≤ reads.length) :
    ∃ messages, Decodes (upTo MessageRow.seq through (log.db.sessionRows sessionId)) messages ∧
      messages.Nodup ∧
      (∃ pages, forwardPages sessionId through (-1) reads = .ok pages ∧
        pages.flatMap MessagePage.messages = messages ∧ SaysMore messages pages) ∧
      ∃ pages, tailPages sessionId through none reads = .ok pages ∧
        pages.reverse.flatMap MessagePage.messages = messages ∧ SaysMore messages pages := by
  obtain ⟨_, hledger⟩ := ledger_of_reachable hreach
  have hsorted : Sorted MessageRow.seq (upTo MessageRow.seq through (log.db.sessionRows sessionId)) :=
    (sorted_sessionRows hledger.uniqueSeqs sessionId).filter _
  have hlen := (sorted_sessionRows hledger.uniqueSeqs sessionId).length_upTo_le through
  have hoffers := fun r hr => (hreads r hr).offers hreach hthrough
  have hwhole : between MessageRow.seq (-1) through
      (upTo MessageRow.seq through (log.db.sessionRows sessionId))
        = upTo MessageRow.seq through (log.db.sessionRows sessionId) := by
    refine List.filter_eq_self.mpr fun row hrow => ?_
    have hle : (row.seq : ℤ) ≤ through := by simpa using (List.mem_filter.mp hrow).2
    simp only [Bool.and_eq_true, decide_eq_true_eq]
    omega
  generalize upTo MessageRow.seq through (log.db.sessionRows sessionId) = whole
    at hsorted hlen hoffers hwhole ⊢
  obtain ⟨pages, hpages, hdecodes, hcomplete⟩ := forwardPages_spec hsorted hoffers hne le_rfl
    hthrough.1 (by rw [hwhole]; exact hlen.trans henough)
  obtain ⟨earlier, hearlier, hdecodes', hcomplete'⟩ := tailPages_spec hsorted hoffers hne
    hthrough.1 none (fun _ h => by cases h)
    (by rw [Option.getD_none, add_sub_cancel_right, hwhole]; exact hlen.trans henough)
  rw [hwhole] at hdecodes
  rw [Option.getD_none, add_sub_cancel_right, hwhole] at hdecodes'
  -- Rows decode to one list of messages only.
  have heq : earlier.reverse.flatMap MessagePage.messages = pages.flatMap MessagePage.messages :=
    Except.ok.inj ((mapM_eq_ok_iff.mpr hdecodes').symm.trans (mapM_eq_ok_iff.mpr hdecodes))
  have hnodup : (pages.flatMap MessagePage.messages).Nodup := by
    refine List.Nodup.of_map Message.seq ?_
    rw [hdecodes.seqs]
    exact List.pairwise_map.mpr (hsorted.imp fun hlt => hlt.ne)
  have hperm : (earlier.flatMap MessagePage.messages).Perm
      (earlier.reverse.flatMap MessagePage.messages) :=
    (List.reverse_perm earlier).symm.flatMap_right _
  refine ⟨_, hdecodes, hnodup, ⟨pages, hpages, rfl, hcomplete.saysMore hnodup fun _ => Iff.rfl⟩,
    earlier, hearlier, heq, hcomplete'.saysMore ?_ fun m => ?_⟩
  · exact hperm.nodup_iff.mpr (heq ▸ hnodup)
  · rw [hperm.mem_iff, heq]

/-- The append of a second input. -/
def secondEvent : LedgerEvent :=
  .append (inputWriter []) ⟨⟨"2026-01-02T00:00:00+00:00"⟩, true, true, []⟩ "input-2"
    (.input ⟨[]⟩) none none

/-- A read after the second input. -/
def secondRead : PageRead where
  log := (firstLog.append (inputWriter []) ⟨⟨"2026-01-02T00:00:00+00:00"⟩, true, true, []⟩
    "input-2" (.input ⟨[]⟩) none none).2
  descriptor _ := valueError "binding 不存在"
  limit := 1

/-- The page of the first input, which was read after the second one was appended. -/
theorem paging_enumerates_secondRead : ∃ messages, Decodes firstLog.db.messages messages ∧
    messages.Nodup ∧ ∃ pages, forwardPages "session" 0 (-1) [secondRead] = .ok pages ∧
      pages.flatMap MessagePage.messages = messages := by
  have hinit : ledger.Reachable ⟨.fresh, .empty⟩ :=
    Transition.System.ReachableVia.init ⟨rfl, fun _ => rfl⟩
  have hstep : ledger.step ⟨.fresh, .empty⟩ firstInput firstLog := rfl
  have hnext : ledger.step firstLog secondEvent secondRead.log := rfl
  have hread : ∀ r ∈ [secondRead], r.After firstLog "session" := by
    intro r hr
    obtain rfl := List.mem_singleton.mp hr
    exact {
      run := .tail (.refl firstLog) trivial hnext
      limit := ⟨by decide, by decide⟩
      known := ⟨_, rfl⟩
      references := ⟨fun _ => .refl _, fun _ h => (by cases h), fun _ h => (by cases h)⟩ }
  have hbound : (-1 : ℤ) ≤ 0 ∧ 0 ≤ firstLog.db.head "session" := by decide +kernel
  have hrows : upTo MessageRow.seq 0 (firstLog.db.sessionRows "session") = firstLog.db.messages := by
    decide +kernel
  obtain ⟨messages, hdecodes, hnodup, ⟨pages, hpages, heq, -⟩, -⟩ :=
    paging_enumerates (hinit.step trivial hstep) hbound hread (List.cons_ne_nil _ _) (by decide)
  rw [hrows] at hdecodes
  exact ⟨messages, hdecodes, hnodup, pages, hpages, heq⟩

end Kirakira
