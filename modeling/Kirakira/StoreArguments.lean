import Kirakira.Lib.Exceptions
import Kirakira.Text
import Kirakira.Times

/-!
# Arguments of the SQLite Stores

The checks that the stores of `plugins/drift/store.py` and `plugins/eventmail/store.py` run
on their arguments before they open a transaction. Both modules have their own copies, which
differ in the text of one error.
-/

namespace Kirakira

/-- The errors of the stores. -/
def runtimeError {α : Type} (text : String) : Except PyError α :=
  .error ⟨.runtimeError, text⟩

/-- The error of a statement that breaks a unique index. -/
def uniqueError {α : Type} (columns : String) : Except PyError α :=
  .error ⟨.integrityError, "UNIQUE constraint failed: " ++ columns⟩

/-- Whether a text is an identity: not empty, no blanks at its ends. -/
def isIdentity (s : String) : Bool :=
  s ≠ "" && strip s = s

/-- `_identity(field, value)`. -/
def identity (field : String) (value : Option Json) : Except PyError String :=
  match value with
  | some (.str s) =>
      if isIdentity s then .ok s else valueError (field ++ " 必须是非空且无首尾空白的字符串")
  | _ => valueError (field ++ " 必须是非空且无首尾空白的字符串")

theorem identity_eq_ok {field : String} {value : Option Json} {s : String}
    (h : identity field value = .ok s) : value = some (.str s) ∧ isIdentity s = true := by
  match value with
  | some (.str text) =>
      rw [identity] at h
      split_ifs at h with htext
      · obtain rfl := Except.ok.inj h
        exact ⟨rfl, htext⟩
      · cases h
  | none => cases h
  | some .null | some (.bool _) | some (.int _) | some (.float _) | some (.arr _)
  | some (.obj _) => cases h

/-- `_aware_utc`, whose text for a naive time is the store's own. -/
def awareUtc (naive : String) (value : Datetime) : Except PyError String :=
  match value.offset with
  | none => valueError naive
  | some _ => do
      let utc ← utcTime value.utc
      return (Datetime.mk utc (some 0)).isoformat

theorem isIdentity_of_no_space {text : String} (hne : text ≠ "")
    (h : ∀ c ∈ text.toList, isSpace c = false) : isIdentity text = true := by
  rw [isIdentity, strip_of_no_space h]
  simp [hne]

theorem padded_no_space (width n : ℕ) : ∀ c ∈ (padded width n).toList, isSpace c = false := by
  intro c hc
  have hdigit : c.isDigit = true := by
    rw [padded, String.toList_append, String.toList_ofList, List.mem_append] at hc
    rcases hc with hc | hc
    · rw [List.eq_of_mem_replicate hc]
      rfl
    · have htext : (toString n).toList = Nat.toDigits 10 n := Nat.toList_repr
      rw [htext] at hc
      exact Nat.isDigit_of_mem_toDigits (by decide) (by decide) hc
  rw [Char.isDigit, Bool.and_eq_true, decide_eq_true_eq, decide_eq_true_eq] at hdigit
  have hlow : 48 ≤ c.toNat := hdigit.1
  have hhigh : c.toNat ≤ 57 := hdigit.2
  simp only [isSpace, List.contains_cons, List.contains_nil, Bool.or_false, Bool.or_eq_false_iff,
    Bool.and_eq_false_iff, decide_eq_false_iff_not, beq_eq_false_iff_ne]
  omega

theorem wallText_no_space (micros : ℕ) : ∀ c ∈ (wallText micros).toList, isSpace c = false := by
  have hfraction : ∀ us, ∀ c ∈ (fractionText us).toList, isSpace c = false := by
    intro us
    rw [fractionText]
    split_ifs
    · exact isSpace_of_all (by decide)
    · rw [String.toList_append, List.forall_mem_append]
      exact ⟨isSpace_of_all (by decide), padded_no_space _ _⟩
  have hdash : ∀ c ∈ "-".toList, isSpace c = false := isSpace_of_all (by decide)
  have hcolon : ∀ c ∈ ":".toList, isSpace c = false := isSpace_of_all (by decide)
  have htime : ∀ c ∈ "T".toList, isSpace c = false := isSpace_of_all (by decide)
  simp only [wallText, String.toList_append, List.forall_mem_append]
  exact ⟨⟨⟨⟨⟨⟨⟨⟨⟨⟨⟨padded_no_space _ _, hdash⟩, padded_no_space _ _⟩, hdash⟩,
    padded_no_space _ _⟩, htime⟩, padded_no_space _ _⟩, hcolon⟩, padded_no_space _ _⟩,
    hcolon⟩, padded_no_space _ _⟩, hfraction _⟩

theorem awareUtc_isIdentity {naive text : String} {value : Datetime}
    (h : awareUtc naive value = .ok text) : isIdentity text = true := by
  obtain ⟨utc, rfl⟩ : ∃ utc, text = (Datetime.mk utc (some 0)).isoformat := by
    rw [awareUtc] at h
    split at h
    · cases h
    · obtain ⟨utc, -, h⟩ := Exceptions.bind_eq_ok.mp h
      exact ⟨utc, (Except.ok.inj h).symm⟩
  have hoffset : ∀ c ∈ (offsetText 0).toList, isSpace c = false := isSpace_of_all (by decide)
  refine isIdentity_of_no_space (fun hempty => ?_) ?_
  · have hlist := congrArg String.toList hempty
    rw [Datetime.isoformat, String.toList_append] at hlist
    exact absurd (List.append_eq_nil_iff.mp hlist).2 (by decide)
  · rw [Datetime.isoformat, String.toList_append, List.forall_mem_append]
    exact ⟨wallText_no_space _, hoffset⟩

/-- The accepted turn a claim is bound to. -/
structure AcceptedTurn where
  sessionId : String
  turnId : String
  deriving DecidableEq

/-- The two fields of `_accepted_turn` and `_normalize_accepted_turn`. -/
def acceptedTurn (value : Json) : Except PyError AcceptedTurn := do
  let sessionId ← identity "accepted_turn.session_id" (value.get? "session_id")
  let turnId ← identity "accepted_turn.turn_id" (value.get? "turn_id")
  return ⟨sessionId, turnId⟩

end Kirakira
