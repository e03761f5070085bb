import TwoPhase.Ring

/-!
# Calls part by part

A request is answered in several parts: a lock is taken before its record is read or
written, that happens before the history tells of it, and an abort puts old values back
one by one. `Stepwise` answers requests in this way, every part on what the part before it
left, and a part that fails leaves behind what was done before it. The calls of a ring are
done likewise, with the bits that their counters have: 32 for denials and 64 for turns. A
turn is counted before anybody makes use of it.
-/

namespace TwoPhase

/-- What a call leaves if a failure changes nothing: the new state, or the old one. -/
def settled {ε σ α : Type} (old : σ) : Except ε (σ × α) → EStateM.Result ε σ α
  | .ok (new, answer) => .ok answer new
  | .error e => .error e old

def stateLeft {ε σ α : Type} : EStateM.Result ε σ α → σ
  | .ok _ state => state
  | .error _ state => state

/-- A single part of a call. It fails before it changes anything. -/
def part {ε σ α : Type} (f : σ → Except ε (σ × α)) : EStateM ε σ α :=
  fun state => settled state (f state)

/-! ## Requests -/

namespace Stepwise

def request (t : Nat) (mode : LockMode) (record : RecordId) : EStateM Error Database Verdict :=
  part fun db =>
    (db.locks.request t mode record).map fun (locks, verdict) => ({ db with locks }, verdict)

def lock (t : Nat) (mode : LockMode) (record : RecordId) : EStateM Error Database Verdict := do
  match ← request t mode record with
  | .granted => return .granted
  | .denied blockers =>
    modify fun db => { db with waits := db.waits.addEdges t blockers.toList }
    return .denied blockers

def log (t : Nat) (event : Event) : EStateM Error Database Nat := do
  let lsn := (← get).history.length
  modify fun db => { db with history := db.history.append t event }
  return lsn

def fetch (record : RecordId) : EStateM Error Database Value :=
  part fun db => (db.store.get record).map fun value => (db, value)

def read (t : Nat) (record : RecordId) : EStateM Error Database Access := do
  match ← lock t .shared record with
  | .granted =>
    let value ← fetch record
    return .done (← log t (.read record value))
  | .denied blockers => return .denied blockers

def replace (record : RecordId) (value : Value) : EStateM Error Database Value :=
  part fun db => (db.store.set record value).map fun (store, old) => ({ db with store }, old)

def write (t : Nat) (record : RecordId) (value : Value) : EStateM Error Database Access := do
  match ← lock t .exclusive record with
  | .granted =>
    let old ← replace record value
    return .done (← log t (.write record old value))
  | .denied blockers => return .denied blockers

def finish (t : Nat) (event : Event) : EStateM Error Database Nat := do
  let lsn ← log t event
  modify fun db => { db with locks := db.locks.release t }
  modify fun db => { db with waits := db.waits.clearFrom t }
  return lsn

def undo (entry : Entry) : EStateM Error Database Unit :=
  part fun db => (Database.undo entry db.store).map fun store => ({ db with store }, ())

def undoAll : List Entry → EStateM Error Database Unit
  | [] => return ()
  | entry :: rest => do
    undo entry
    undoAll rest

def abort (t : Nat) : EStateM Error Database Nat := do
  undoAll ((← get).history.chain t)
  finish t .abort

/-- What a transaction does to its database. -/
def onDatabase {α : Type} (m : EStateM Error Database α) :
    EStateM Error (Transaction × Database) α := fun (t, db) =>
  match m.run db with
  | .ok answer db => .ok answer (t, db)
  | .error e db => .error e (t, db)

/-- Tries an operation. A commit is noted as the outcome. -/
def attempt (id : Nat) : Operation → EStateM Error (Transaction × Database) Access
  | .read record => onDatabase (read id record)
  | .write record value => onDatabase (write id record value)
  | .commit => do
    let lsn ← onDatabase (finish id .commit)
    modify fun (t, db) => ({ t with outcome := some .committed }, db)
    return .done lsn

def count : Access → EStateM Error (Transaction × Database) Step
  | .done lsn => do
    modify fun (t, db) => ({ t with cursor := t.cursor + 1, denials := 0 }, db)
    return .progressed lsn
  | .denied blockers => do
    modify fun (t, db) => ({ t with denials := t.denials + 1 }, db)
    return .denied (← get).1.denials blockers

def advance : EStateM Error (Transaction × Database) Step := do
  let (t, _) ← get
  match t.pending? with
  | none => return .idle
  | some op => count (← attempt t.id op)

def giveUp : EStateM Error (Transaction × Database) (Option Nat) := do
  let (t, _) ← get
  if t.isFinished then
    return none
  else
    let lsn ← onDatabase (abort t.id)
    modify fun (t, db) => ({ t with outcome := some .aborted, denials := 0 }, db)
    return some lsn

end Stepwise

/-- Why a call of a ring fails. After a refusal others can follow. -/
inductive Failure where
  | refused (error : Error)
  /-- There is no such place in the ring. -/
  | outOfRange
  /-- A counter has too few bits. -/
  | overflow
deriving DecidableEq, Repr

namespace Stepwise

/-! ## Turns -/

/-- Counts what became of an operation, denials with 32 bits. -/
def checkedCount : Access → EStateM Failure (Transaction × Database) Step
  | .done lsn => (count (.done lsn)).adaptExcept .refused
  | .denied blockers => do
    if UInt32.size ≤ (← get).1.denials + 1 then
      throw .overflow
    else
      (count (.denied blockers)).adaptExcept .refused

def checkedAdvance : EStateM Failure (Transaction × Database) Step := do
  let (t, _) ← get
  match t.pending? with
  | none => return .idle
  | some op => checkedCount (← (attempt t.id op).adaptExcept .refused)

/-- Tries the pending operation; the answer also tells who did, and if it has finished so. -/
def takeTurn : EStateM Failure (Transaction × Database) (Nat × Step × Bool) := do
  let (t, _) ← get
  let step ← checkedAdvance
  return (t.id, step, !t.isFinished && (← get).1.isFinished)

/-- The ring after the transaction at `position` did something to itself and the database. -/
def leave (ring : Ring) (position : Nat) (left : Transaction × Database) : Ring :=
  { ring with database := left.2, transactions := ring.transactions.set position left.1 }

def atPlace {α : Type} (position : Nat) (m : EStateM Failure (Transaction × Database) α) :
    EStateM Failure Ring α := fun ring =>
  match ring.transactions[position]? with
  | none => .error .outOfRange ring
  | some t =>
    match m.run (t, ring.database) with
    | .ok answer left => .ok answer (leave ring position left)
    | .error e left => .error e (leave ring position left)

def countFinished (ended : Bool) : EStateM Failure Ring Unit :=
  modify fun ring => if ended then { ring with finished := ring.finished + 1 } else ring

def abortById (id : Nat) : EStateM Failure Ring (Option Nat) := do
  match (← get).transaction? id with
  | none => throw (.refused (.unknownTransaction id))
  | some t =>
    if t.id = id then
      let lsn ← atPlace (id - 1) (giveUp.adaptExcept .refused)
      countFinished lsn.isSome
      return lsn
    else
      throw (.refused (.unknownTransaction id))

def detect : EStateM Failure Ring (Option Deadlock) := do
  match (← get).database.waits.findDeadlock with
  | none => return none
  | some deadlock =>
    let _ ← abortById deadlock.victim
    modify fun ring => { ring with deadlocks := ring.deadlocks ++ [deadlock] }
    return some deadlock

def react : Step → EStateM Failure Ring (Option Deadlock)
  | .denied denials _ => do
    if (← get).patience ≤ denials then detect else return none
  | _ => return none

/-- Turns the ring, and answers whose place it was. -/
def moveOn : EStateM Failure Ring Nat := do
  let ring ← get
  if ring.size = 0 then
    throw .outOfRange
  else if UInt64.size ≤ ring.turns + 1 then
    throw .overflow
  else
    set { ring with next := (ring.next + 1) % ring.size, turns := ring.turns + 1 }
    return ring.next

def tryNext : EStateM Failure Ring (Nat × Step) := do
  let position ← moveOn
  let (id, step, ended) ← atPlace position takeTurn
  countFinished ended
  return (id, step)

def turn : EStateM Failure Ring (Option Turn) := do
  if (← get).isFinished then
    return none
  else
    let (id, step) ← tryNext
    return some ⟨id, step, ← react step⟩

def runFor : (limit : Nat) → EStateM Failure Ring Unit
  | 0 => return ()
  | limit + 1 => do
    match ← turn with
    | none => return ()
    | some _ => runFor limit

def run : EStateM Failure Ring Report := do
  runFor (← get).turnLimit
  return (← get).report

end Stepwise

end TwoPhase
