import TwoPhase.Operation

/-!
# The store

A list of values addressed by record number. Its size never changes; every
access to a record outside it is an error.
-/

namespace TwoPhase

structure Store where
  values : List Value
deriving DecidableEq, Repr

namespace Store

def size (s : Store) : Nat := s.values.length

/-- The store of `n` records in which record `i` holds `i`. -/
def identity (n : Nat) : Store := ⟨(List.range n).map Int64.ofNat⟩

def check (s : Store) (record : RecordId) : Except Error Unit :=
  if record.toNat < s.size then .ok () else .error (.recordOutOfBounds record s.size)

def get (s : Store) (record : RecordId) : Except Error Value :=
  match s.values[record.toNat]? with
  | some value => .ok value
  | none => .error (.recordOutOfBounds record s.size)

/-- Puts `value` into `record` and hands back the value it replaces. -/
def set (s : Store) (record : RecordId) (value : Value) : Except Error (Store × Value) :=
  match s.values[record.toNat]? with
  | some old => .ok (⟨s.values.set record.toNat value⟩, old)
  | none => .error (.recordOutOfBounds record s.size)

end Store

end TwoPhase
