import TwoPhase.Sample
import TwoPhase.Text.Workload
import TwoPhase.Encoding.Program

/-!
# Workloads as JSON

Generated workloads with their shape, and faults in a workload text. How a point
in time is written is left to whoever brings the clock.
-/

namespace TwoPhase

namespace Text.ParseError

def toJson (e : ParseError) : Json :=
  .obj [("message", .str e.message), ("line", .nat e.line), ("column", .nat e.column)]

def ofJson? (j : Json) : Option ParseError :=
  match j.record? ["message", "line", "column"] [] with
  | some [message, line, column] => do
    return ⟨← message.str?, ← line.count?, ← column.count?⟩
  | _ => none

end Text.ParseError

namespace Shape

def toJson (s : Shape) : Json :=
  .obj [
    ("id", .nat s.id),
    ("n_record", .nat s.records),
    ("n_transaction", .nat s.transactions),
    ("n_operation", .nat s.operations),
    ("max_value", .ofValue s.maxValue)]

def ofJson? (j : Json) : Option Shape :=
  match j.record? ["id", "n_record", "n_transaction", "n_operation", "max_value"] [] with
  | some [id, records, transactions, operations, maxValue] => do
    return ⟨← id.count?, ← records.count?, ← transactions.count?, ← operations.count?,
      ← maxValue.value64?⟩
  | _ => none

end Shape

/-- How points in time are written as JSON. -/
structure TimeForm (Time : Type) where
  toJson : Time → Json
  ofJson? : Json → Option Time

namespace Sample

variable {Time : Type}

def toJson (form : TimeForm Time) (s : Sample Time) : Json :=
  .obj [
    ("params", s.shape.toJson),
    ("info", .str s.info),
    ("start", form.toJson s.started),
    ("end", form.toJson s.finished),
    ("data", .ofList Program.toJson s.programs)]

def ofJson? (form : TimeForm Time) (j : Json) : Option (Sample Time) :=
  match j.record? ["params", "info", "start", "end", "data"] [] with
  | some [params, info, started, finished, data] => do
    return ⟨← Shape.ofJson? params, ← info.str?, ← form.ofJson? started, ← form.ofJson? finished,
      ← data.listOf? Program.ofJson?⟩
  | _ => none

end Sample

end TwoPhase
