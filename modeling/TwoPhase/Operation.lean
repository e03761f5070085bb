/-!
# Operations on records

A store holds 64-bit signed values, addressed by 64-bit record numbers.
Transactions are numbered from 1; `T3` is the transaction with number 3. An
operation reads a record, writes a value into a record, or commits. An `Error`
says why a program, a request or a run is refused.
-/

namespace TwoPhase

/-- The number of a record, counted from 0. -/
abbrev RecordId := UInt64

abbrev Value := Int64

def recordOfNat? (n : Nat) : Option RecordId :=
  if n < UInt64.size then some (UInt64.ofNat n) else none

def valueOfInt? (n : Int) : Option Value :=
  if -9223372036854775808 ≤ n ∧ n ≤ 9223372036854775807 then some (Int64.ofInt n) else none

def transactionName (id : Nat) : String := "T" ++ id.repr

inductive Operation where
  | read (record : RecordId)
  | write (record : RecordId) (value : Value)
  | commit
deriving DecidableEq, Repr, Inhabited

namespace Operation

def record? : Operation → Option RecordId
  | read record => some record
  | write record _ => some record
  | commit => none

/-- The canonical text of an operation: `R(1)`, `W(1,-5)` or `C`. -/
def text : Operation → String
  | read record => "R(" ++ record.toNat.repr ++ ")"
  | write record value => "W(" ++ record.toNat.repr ++ "," ++ value.toInt.repr ++ ")"
  | commit => "C"

end Operation

inductive Error where
  /-- A record outside a store (or lock table) of `size` records. -/
  | recordOutOfBounds (record : RecordId) (size : Nat)
  /-- A list of `operations` operations whose last one is not a commit. -/
  | missingCommit (operations : Nat)
  /-- A commit at `position` that is not the last operation. -/
  | operationAfterCommit (position : Nat)
  | unknownTransaction (id : Nat)
deriving DecidableEq, Repr

def Error.message : Error → String
  | recordOutOfBounds record size =>
    "record " ++ record.toNat.repr ++ " is out of bounds for a store of " ++ size.repr ++ " records"
  | missingCommit operations =>
    "program of " ++ operations.repr ++ " operations does not end with a commit"
  | operationAfterCommit position =>
    "commit at position " ++ position.repr ++ " is followed by more operations"
  | unknownTransaction id => "unknown transaction " ++ transactionName id

end TwoPhase
