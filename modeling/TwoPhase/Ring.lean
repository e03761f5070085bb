import TwoPhase.Report

/-!
# The ring

Transactions take turns in a ring: T1, T2, ..., Tn, T1, ... until all have
finished. A finished transaction still gets its turn and leaves it unused. When
a transaction has been denied `threshold` times in a row (at least once), the
wait graph is searched for a cycle and the victim of the first one is aborted.
-/

namespace TwoPhase

structure Settings where
  /-- Denials in a row before deadlocks are looked for; 0 counts as 1. -/
  threshold : UInt32 := 10
deriving DecidableEq, Repr

structure Turn where
  transaction : Nat
  step : Step
  deadlock : Option Deadlock
deriving DecidableEq, Repr

structure Ring where
  initialStore : Store
  database : Database
  transactions : List Transaction
  settings : Settings
  next : Nat
  finished : Nat
  turns : Nat
  deadlocks : List Deadlock
deriving DecidableEq

namespace Ring

/-- Passes the programs that touch only records of the store; the largest record is blamed. -/
def checkProgram (store : Store) (program : Program) : Except Error Unit :=
  match program.maxRecord? with
  | some record => store.check record
  | none => .ok ()

def enlist (store : Store) : (first : Nat) → List Program → Except Error (List Transaction)
  | _, [] => .ok []
  | id, program :: rest => do
    checkProgram store program
    let later ← enlist store (id + 1) rest
    return { id, program } :: later

/-- A ring of `programs` over `store`, numbered from T1, before its first turn. -/
def start (store : Store) (programs : List Program) (settings : Settings) :
    Except Error Ring := do
  let transactions ← enlist store 1 programs
  return {
    initialStore := store
    database := .ofStore store
    transactions, settings
    next := 0, finished := 0, turns := 0, deadlocks := [] }

def size (ring : Ring) : Nat := ring.transactions.length

def isFinished (ring : Ring) : Bool := ring.finished = ring.size

/-- The transaction at the place of `id`. Place 0 is taken for the first. -/
def transaction? (ring : Ring) (id : Nat) : Option Transaction :=
  ring.transactions[id - 1]?

/-- Aborts `id`; the answer is the position of the abort, none if it had finished. -/
def abort (ring : Ring) (id : Nat) : Except Error (Ring × Option Nat) :=
  match ring.transaction? id with
  | none => .error (.unknownTransaction id)
  | some t =>
    if t.id = id then do
      let (t, database, lsn) ← t.abort ring.database
      return ({ ring with
        database
        transactions := ring.transactions.set (id - 1) t
        finished := if lsn.isSome then ring.finished + 1 else ring.finished }, lsn)
    else
      .error (.unknownTransaction id)

/-- Breaks the first deadlock of the wait graph, if there is one. -/
def detect (ring : Ring) : Except Error (Ring × Option Deadlock) :=
  match ring.database.waits.findDeadlock with
  | none => .ok (ring, none)
  | some deadlock => do
    let (ring, _) ← ring.abort deadlock.victim
    return ({ ring with deadlocks := ring.deadlocks ++ [deadlock] }, some deadlock)

def patience (ring : Ring) : Nat := max ring.settings.threshold.toNat 1

def react (ring : Ring) : Step → Except Error (Ring × Option Deadlock)
  | .denied denials _ => if ring.patience ≤ denials then ring.detect else .ok (ring, none)
  | _ => .ok (ring, none)

def attempt (ring : Ring) (position : Nat) (t : Transaction) : Except Error (Ring × Step) := do
  let (t', database, step) ← t.advance ring.database
  return ({ ring with
    database
    transactions := ring.transactions.set position t'
    next := (position + 1) % ring.size
    finished := if !t.isFinished && t'.isFinished then ring.finished + 1 else ring.finished
    turns := ring.turns + 1 }, step)

def turnOf (ring : Ring) (position : Nat) (t : Transaction) : Except Error (Ring × Turn) := do
  let (ring, step) ← ring.attempt position t
  let (ring, deadlock) ← ring.react step
  return (ring, ⟨t.id, step, deadlock⟩)

/-- Gives the next transaction its turn; nothing once all have finished. -/
def turn (ring : Ring) : Except Error (Ring × Option Turn) :=
  if ring.isFinished then
    .ok (ring, none)
  else
    match ring.transactions[ring.next]? with
    | none => .ok (ring, none)
    | some t => (ring.turnOf ring.next t).map fun (ring, turn) => (ring, some turn)

def operationCount (ring : Ring) : Nat :=
  ring.transactions.foldr (fun t total => t.program.length + total) 0

/-- Enough turns for any run: while some transaction is unfinished, that many rounds as the
first factor says see an operation done or a transaction aborted. -/
def turnLimit (ring : Ring) : Nat := (ring.patience + ring.size) * ring.size * ring.operationCount

/-- Takes turns until all have finished, at most `limit` of them. -/
def runFor : (limit : Nat) → Ring → Except Error Ring
  | 0, ring => .ok ring
  | limit + 1, ring =>
    match ring.turn with
    | .error e => .error e
    | .ok (ring, none) => .ok ring
    | .ok (ring, some _) => runFor limit ring

def report (ring : Ring) : Report where
  initialStore := ring.initialStore.values
  finalStore := ring.database.store.values
  log := ring.database.history.entries
  outcomes := ring.transactions.filterMap fun t => t.outcome.map (t.id, ·)
  deadlocks := ring.deadlocks
  turns := ring.turns

def run (ring : Ring) : Except Error Report := (runFor ring.turnLimit ring).map report

end Ring

def execute (store : Store) (programs : List Program) (settings : Settings) :
    Except Error Report :=
  (Ring.start store programs settings).bind Ring.run

end TwoPhase
