import TwoPhase.Operation
import TwoPhase.Locking.IdSet

/-!
# Locks

A record is locked by any number of transactions that share it or by one that
has it for itself. A request is granted when nobody is in its way:
`Lock.blockers` says who is, `Lock.grant` what a grant makes of the lock. A
transaction that shares a record alone may take it for itself.
-/

namespace TwoPhase

inductive LockMode where
  | shared
  | exclusive
deriving DecidableEq, Repr

/-- How a record is locked. A record shared by nobody is free. -/
inductive Lock where
  | shared (holders : IdSet)
  | exclusive (holder : Nat)
deriving DecidableEq, Repr

namespace Lock

def free : Lock := .shared ∅

instance : Inhabited Lock := ⟨free⟩

def isFree : Lock → Bool
  | shared holders => holders.isEmpty
  | exclusive _ => false

def owner? : Lock → Option Nat
  | shared _ => none
  | exclusive holder => some holder

def sharers : Lock → IdSet
  | shared holders => holders
  | exclusive _ => ∅

def heldBy (lock : Lock) (t : Nat) : Bool :=
  match lock with
  | shared holders => t ∈ holders
  | exclusive holder => holder = t

/-- The transactions in the way of `t` taking the lock in `mode`. -/
def blockers (lock : Lock) (t : Nat) (mode : LockMode) : IdSet :=
  match lock, mode with
  | exclusive holder, _ => if holder = t then ∅ else .singleton holder
  | shared _, .shared => ∅
  | shared holders, .exclusive => holders.erase t

def grant (lock : Lock) (t : Nat) (mode : LockMode) : Lock :=
  match lock, mode with
  | exclusive holder, _ => exclusive holder
  | shared holders, .shared => shared (holders.insert t)
  | shared _, .exclusive => exclusive t

def release (lock : Lock) (t : Nat) : Lock :=
  match lock with
  | shared holders => shared (holders.erase t)
  | exclusive holder => if holder = t then free else exclusive holder

end Lock

inductive Verdict where
  | granted
  | denied (blockers : IdSet)
deriving DecidableEq, Repr

structure LockTable where
  locks : List Lock
deriving DecidableEq, Repr

namespace LockTable

def ofSize (n : Nat) : LockTable := ⟨List.replicate n .free⟩

def size (table : LockTable) : Nat := table.locks.length

/-- Asks for `record` on behalf of `t`. A denial changes nothing. -/
def request (table : LockTable) (t : Nat) (mode : LockMode) (record : RecordId) :
    Except Error (LockTable × Verdict) :=
  match table.locks[record.toNat]? with
  | none => .error (.recordOutOfBounds record table.size)
  | some lock =>
    let blockers := lock.blockers t mode
    if blockers.isEmpty then
      .ok (⟨table.locks.set record.toNat (lock.grant t mode)⟩, .granted)
    else
      .ok (table, .denied blockers)

def release (table : LockTable) (t : Nat) : LockTable :=
  ⟨table.locks.map (·.release t)⟩

/-- The positions of the records `t` holds, ascending. -/
def heldBy (table : LockTable) (t : Nat) : List Nat :=
  table.locks.zipIdx.filterMap fun (lock, position) =>
    if lock.heldBy t then some position else none

end LockTable

end TwoPhase
