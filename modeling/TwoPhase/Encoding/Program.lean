import TwoPhase.Program
import TwoPhase.Json.Basic

/-!
# Programs and errors as JSON

Numbers that are words of the domain (records, values) are refused when they do
not fit the word. A commit is the bare name `Commit`; the other operations are
objects with one field, named for the operation.
-/

namespace TwoPhase

namespace Json

def ofRecord (record : RecordId) : Json := .nat record.toNat

def record64? (j : Json) : Option RecordId := j.count?.bind recordOfNat?

def ofValue (value : Value) : Json := .int value.toInt

def value64? (j : Json) : Option Value := j.int?.bind valueOfInt?

end Json

namespace Operation

def toJson : Operation → Json
  | read record => .obj [("Read", .obj [("record", .ofRecord record)])]
  | write record value =>
    .obj [("Write", .obj [("record", .ofRecord record), ("value", .ofValue value)])]
  | commit => .str "Commit"

def ofJson? (j : Json) : Option Operation :=
  match j.alternative? with
  | some ("Read", some body) => do
    return .read (← (← body.field? "record").record64?)
  | some ("Write", some body) => do
    return .write (← (← body.field? "record").record64?) (← (← body.field? "value").value64?)
  | some ("Commit", none) => some .commit
  | some ("Commit", some .null) => some .commit
  | _ => none

end Operation

namespace Program

def toJson (p : Program) : Json := .ofList Operation.toJson p.operations

/-- A list of operations, checked like any other. -/
def ofJson? (j : Json) : Option Program :=
  (j.listOf? Operation.ofJson?).bind fun ops => (ofOperations ops).toOption

end Program

namespace Error

def toJson : Error → Json
  | recordOutOfBounds record size =>
    .obj [("RecordOutOfBounds", .obj [("record", .ofRecord record), ("len", .nat size)])]
  | missingCommit operations => .obj [("MissingCommit", .obj [("operations", .nat operations)])]
  | operationAfterCommit position =>
    .obj [("OperationAfterCommit", .obj [("position", .nat position)])]
  | unknownTransaction id => .obj [("UnknownTransaction", .nat id)]

def ofJson? (j : Json) : Option Error :=
  match j.alternative? with
  | some ("RecordOutOfBounds", some body) => do
    return .recordOutOfBounds (← (← body.field? "record").record64?)
      (← (← body.field? "len").count?)
  | some ("MissingCommit", some body) => do
    return .missingCommit (← (← body.field? "operations").count?)
  | some ("OperationAfterCommit", some body) => do
    return .operationAfterCommit (← (← body.field? "position").count?)
  | some ("UnknownTransaction", some body) => do
    return .unknownTransaction (← body.count?)
  | _ => none

end Error

end TwoPhase
