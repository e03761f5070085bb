import TwoPhase.Ring
import TwoPhase.Encoding.Program
import TwoPhase.Text.Operation

/-!
# Reports and what they are made of as JSON

Each record is written as an object with all its fields, missing values as
null. It is read from such an object, whatever other fields it has, or from a
list of the fields in order.
-/

namespace TwoPhase

namespace EntryKind

def name : EntryKind → String
  | read => "Read"
  | write => "Write"
  | commit => "Commit"
  | abort => "Abort"

def toJson (kind : EntryKind) : Json := .str kind.name

def ofJson? (j : Json) : Option EntryKind :=
  match j.plainAlternative? with
  | some "Read" => some read
  | some "Write" => some write
  | some "Commit" => some commit
  | some "Abort" => some abort
  | _ => none

end EntryKind

namespace LockMode

def toJson : LockMode → Json
  | shared => .str "Shared"
  | exclusive => .str "Exclusive"

def ofJson? (j : Json) : Option LockMode :=
  match j.plainAlternative? with
  | some "Shared" => some shared
  | some "Exclusive" => some exclusive
  | _ => none

end LockMode

namespace Outcome

def toJson : Outcome → Json
  | committed => .str "Committed"
  | aborted => .str "Aborted"

def ofJson? (j : Json) : Option Outcome :=
  match j.plainAlternative? with
  | some "Committed" => some committed
  | some "Aborted" => some aborted
  | _ => none

end Outcome

namespace Entry

def toJson (e : Entry) : Json :=
  .obj [
    ("kind", e.kind.toJson),
    ("lsn", .nat e.lsn),
    ("transaction", .nat e.transaction),
    ("record", .ofOption .ofRecord e.record),
    ("old_value", .ofOption .ofValue e.old),
    ("new_value", .ofOption .ofValue e.new),
    ("prev_lsn", .ofOption .nat e.previous)]

/-- The fields that not every kind of entry has may be left out. -/
def ofJson? (j : Json) : Option Entry :=
  match j.record?
      ["kind", "lsn", "transaction", "record", "old_value", "new_value", "prev_lsn"]
      ["record", "old_value", "new_value", "prev_lsn"] with
  | some [kind, lsn, transaction, record, old, new, previous] => do
    return ⟨← EntryKind.ofJson? kind, ← lsn.count?, ← transaction.count?,
      ← record.optional? Json.record64?, ← old.optional? Json.value64?,
      ← new.optional? Json.value64?, ← previous.optional? Json.count?⟩
  | _ => none

end Entry

namespace Deadlock

def toJson (d : Deadlock) : Json :=
  .obj [("cycle", .ofList .nat d.cycle), ("victim", .nat d.victim)]

def ofJson? (j : Json) : Option Deadlock :=
  match j.record? ["cycle", "victim"] [] with
  | some [cycle, victim] => do return ⟨← cycle.listOf? Json.count?, ← victim.count?⟩
  | _ => none

end Deadlock

namespace Settings

def toJson (s : Settings) : Json := .obj [("deadlock_threshold", .nat s.threshold.toNat)]

def ofJson? (j : Json) : Option Settings :=
  match j.record? ["deadlock_threshold"] [] with
  | some [threshold] => do return ⟨UInt32.ofNat (← threshold.natBelow? UInt32.size)⟩
  | _ => none

end Settings

namespace WaitGraph

def toJson (g : WaitGraph) : Json :=
  .obj [("adj_map", .obj (g.rows.map fun (v, targets) => (v.repr, .ofList .nat targets.toList)))]

def vertexOfName? (name : String) : Option Nat :=
  match Text.natural? name.toList with
  | some (v, []) => if v < UInt64.size then some v else none
  | _ => none

def rowOfField? (field : String × Json) : Option Row := do
  return (← vertexOfName? field.1, IdSet.ofList (← field.2.listOf? Json.count?))

def ofJson? (j : Json) : Option WaitGraph :=
  match j.record? ["adj_map"] [] with
  | some [.obj fields] => (fields.mapM rowOfField?).map ofRows
  | _ => none

end WaitGraph

namespace Report

def outcomeToJson (outcome : Nat × Outcome) : Json := .arr [.nat outcome.1, outcome.2.toJson]

def outcomeOfJson? : Json → Option (Nat × Outcome)
  | .arr [id, outcome] => do return (← id.count?, ← Outcome.ofJson? outcome)
  | _ => none

def toJson (r : Report) : Json :=
  .obj [
    ("initial_store", .ofList .ofValue r.initialStore),
    ("final_store", .ofList .ofValue r.finalStore),
    ("log", .ofList Entry.toJson r.log),
    ("outcomes", .ofList outcomeToJson r.outcomes),
    ("deadlocks", .ofList Deadlock.toJson r.deadlocks),
    ("turns", .nat r.turns)]

def ofJson? (j : Json) : Option Report :=
  match j.record?
      ["initial_store", "final_store", "log", "outcomes", "deadlocks", "turns"] [] with
  | some [initialStore, finalStore, log, outcomes, deadlocks, turns] => do
    return ⟨← initialStore.listOf? Json.value64?, ← finalStore.listOf? Json.value64?,
      ← log.listOf? Entry.ofJson?, ← outcomes.listOf? outcomeOfJson?,
      ← deadlocks.listOf? Deadlock.ofJson?, ← turns.count?⟩
  | _ => none

end Report

end TwoPhase
