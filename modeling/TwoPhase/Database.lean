import TwoPhase.Locking.Table
import TwoPhase.History.Basic
import TwoPhase.Waiting.Cycle

/-!
# The database

Store, locks, history and waits together. A read or write first takes its lock;
if the lock is denied nothing happens but that the requester now waits for the
blockers. Locks are kept until the transaction commits or aborts, and an abort
restores, newest first, the old values of everything the transaction wrote.

Transactions are known by number only: nothing stops a number from being used
again after it finished.
-/

namespace TwoPhase

structure Database where
  store : Store
  locks : LockTable
  history : History
  waits : WaitGraph
deriving DecidableEq, Repr

inductive Access where
  | done (lsn : Nat)
  | denied (blockers : IdSet)
deriving DecidableEq, Repr

namespace Database

def ofStore (store : Store) : Database := ⟨store, .ofSize store.size, .empty, .empty⟩

/-- Asks for a lock; a denied transaction waits for those in its way. -/
def lock (db : Database) (t : Nat) (mode : LockMode) (record : RecordId) :
    Except Error (Database × Verdict) := do
  let (locks, verdict) ← db.locks.request t mode record
  match verdict with
  | .granted => return ({ db with locks }, .granted)
  | .denied blockers =>
    return ({ db with waits := db.waits.addEdges t blockers.toList }, .denied blockers)

def read (db : Database) (t : Nat) (record : RecordId) :
    Except Error (Database × Access) := do
  let (db, verdict) ← db.lock t .shared record
  match verdict with
  | .granted =>
    let value ← db.store.get record
    return ({ db with history := db.history.append t (.read record value) },
      .done db.history.length)
  | .denied blockers => return (db, .denied blockers)

def write (db : Database) (t : Nat) (record : RecordId) (value : Value) :
    Except Error (Database × Access) := do
  let (db, verdict) ← db.lock t .exclusive record
  match verdict with
  | .granted =>
    let (store, old) ← db.store.set record value
    return ({ db with store, history := db.history.append t (.write record old value) },
      .done db.history.length)
  | .denied blockers => return (db, .denied blockers)

/-- Logs how `t` ended and takes its locks. It waits for nobody any more. -/
def finish (db : Database) (t : Nat) (event : Event) : Database :=
  { db with
    locks := db.locks.release t
    history := db.history.append t event
    waits := db.waits.clearFrom t }

def commit (db : Database) (t : Nat) : Database × Nat :=
  (db.finish t .commit, db.history.length)

/-- Takes one entry back: a write gives way to its old value. -/
def undo (entry : Entry) (store : Store) : Except Error Store :=
  match entry.kind, entry.record, entry.old with
  | .write, some record, some old => (store.set record old).map (·.1)
  | _, _, _ => .ok store

def undoAll : List Entry → Store → Except Error Store
  | [], store => .ok store
  | entry :: rest, store => (undo entry store).bind (undoAll rest)

def abort (db : Database) (t : Nat) : Except Error (Database × Nat) := do
  let store ← undoAll (db.history.chain t) db.store
  return ({ db with store }.finish t .abort, db.history.length)

end Database

end TwoPhase
