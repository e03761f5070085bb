import TwoPhase.Program
import TwoPhase.Database

/-!
# Transactions

A transaction works through its program one operation at a time. A denied
operation stays pending and is tried again; `denials` counts the denials since
the last success. It is exact here; in `Stepwise` it has 32 bits, and a denial
that does not fit makes a turn fail.
-/

namespace TwoPhase

inductive Outcome where
  | committed
  | aborted
deriving DecidableEq, Repr

inductive Step where
  | idle
  | progressed (lsn : Nat)
  | denied (denials : Nat) (blockers : IdSet)
deriving DecidableEq, Repr

structure Transaction where
  id : Nat
  program : Program
  /-- The number of operations done. -/
  cursor : Nat := 0
  denials : Nat := 0
  outcome : Option Outcome := none
deriving DecidableEq

namespace Transaction

def isFinished (t : Transaction) : Bool := t.outcome.isSome

/-- The operation to do next; a finished transaction has none. -/
def pending? (t : Transaction) : Option Operation :=
  if t.isFinished then none else t.program.operations[t.cursor]?

def answered (t : Transaction) : Access → Transaction × Step
  | .done lsn => ({ t with cursor := t.cursor + 1, denials := 0 }, .progressed lsn)
  | .denied blockers =>
    ({ t with denials := t.denials + 1 }, .denied (t.denials + 1) blockers)

def advance (t : Transaction) (db : Database) : Except Error (Transaction × Database × Step) :=
  match t.pending? with
  | none => .ok (t, db, .idle)
  | some (.read record) => do
    let (db, access) ← db.read t.id record
    let (t, step) := t.answered access
    return (t, db, step)
  | some (.write record value) => do
    let (db, access) ← db.write t.id record value
    let (t, step) := t.answered access
    return (t, db, step)
  | some .commit =>
    let (db, lsn) := db.commit t.id
    let (t, step) := { t with outcome := some .committed }.answered (.done lsn)
    .ok (t, db, step)

def abort (t : Transaction) (db : Database) :
    Except Error (Transaction × Database × Option Nat) :=
  if t.isFinished then
    .ok (t, db, none)
  else do
    let (db, lsn) ← db.abort t.id
    return ({ t with outcome := some .aborted, denials := 0 }, db, some lsn)

end Transaction

end TwoPhase
