import TwoPhase.Encoding.Program
import TwoPhase.Proofs.Reading

/-!
# Encoded values are decoded

Whatever is encoded as JSON is read back as it was. Words of the domain come back
because they fit the words they are decoded into, and a list comes back if its items do.
-/

namespace TwoPhase

namespace Json

theorem listOf?_ofList {α : Type} {encode : α → Json} {decode : Json → Option α}
    (h : ∀ a, decode (encode a) = some a) (items : List α) :
    (ofList encode items).listOf? decode = some items := by
  show (items.map encode).mapM decode = some items
  induction items with
  | nil => rfl
  | cons a rest ih =>
    rw [List.map_cons, List.mapM_cons, h, ih]
    rfl

theorem natBelow?_nat {n bound : Nat} (h : n < bound) : (nat n).natBelow? bound = some n := by
  have hrange : 0 ≤ (n : Int) ∧ (n : Int) < bound := ⟨Int.natCast_nonneg n, Int.ofNat_lt.2 h⟩
  simp only [nat, natBelow?]
  rw [if_pos hrange, Int.toNat_natCast]

theorem count?_nat {n : Nat} (h : n < UInt64.size) : (nat n).count? = some n :=
  natBelow?_nat h

theorem record64?_ofRecord (record : RecordId) : (ofRecord record).record64? = some record := by
  unfold record64? ofRecord
  rw [count?_nat record.toNat_lt]
  exact Text.recordOfNat?_eq_some.2 rfl

theorem value64?_ofValue (value : Value) : (ofValue value).value64? = some value := by
  have hfits : valueOfInt? value.toInt = some value := Text.valueOfInt?_eq_some.2 rfl
  rw [value64?, ofValue, int?, Option.bind_some, hfits]

end Json

namespace Operation

-- stated for any field that holds a word: a word's own encoding must not be unfolded down to its
-- bound, which is too large to count to
theorem ofJson?_read {j : Json} {record : RecordId} (h : j.record64? = some record) :
    ofJson? (.obj [("Read", .obj [("record", j)])]) = some (.read record) := by
  simp [ofJson?, Json.alternative?, Json.field?, h]

theorem ofJson?_write {j k : Json} {record : RecordId} {value : Value}
    (hj : j.record64? = some record) (hk : k.value64? = some value) :
    ofJson? (.obj [("Write", .obj [("record", j), ("value", k)])]) =
      some (.write record value) := by
  simp [ofJson?, Json.alternative?, Json.field?, List.lookup_cons, hj, hk]

theorem ofJson?_toJson (op : Operation) : ofJson? op.toJson = some op := by
  cases op with
  | read record => exact ofJson?_read (Json.record64?_ofRecord record)
  | write record value =>
    exact ofJson?_write (Json.record64?_ofRecord record) (Json.value64?_ofValue value)
  | commit => rfl

end Operation

/-- Encoded operations are decoded as a program if they are one. -/
theorem Program.ofJson?_operations (ops : List Operation) :
    ofJson? (.ofList Operation.toJson ops) = (ofOperations ops).toOption := by
  unfold ofJson?
  rw [Json.listOf?_ofList Operation.ofJson?_toJson]
  rfl

end TwoPhase
