import TwoPhase.Store
import TwoPhase.History.Entry

/-!
# The history

Everything that happened, oldest first. The links of a transaction's entries
form a chain from its newest entry back to its first (`chain`). `replay`
repeats the writes of the history on a store, `committedReplay` only those of
transactions that committed.
-/

namespace TwoPhase

structure History where
  entries : List Entry
deriving DecidableEq, Repr

namespace History

def empty : History := ⟨[]⟩

def length (h : History) : Nat := h.entries.length

def get? (h : History) (lsn : Nat) : Option Entry := h.entries[lsn]?

def last? (h : History) (t : Nat) : Option Nat :=
  (h.entries.reverse.find? (·.transaction = t)).map (·.lsn)

/-- Adds what `t` did at the end. Its position is the length so far. -/
def append (h : History) (t : Nat) (event : Event) : History :=
  ⟨h.entries ++ [.ofEvent h.length t (h.last? t) event]⟩

/-- Follows links from a position; `fuel` bounds the number of entries. -/
def chainFrom (h : History) : (fuel : Nat) → Option Nat → List Entry
  | 0, _ => []
  | _ + 1, none => []
  | fuel + 1, some lsn =>
    match h.get? lsn with
    | none => []
    | some entry => entry :: h.chainFrom fuel entry.previous

/-- The entries of `t`, newest first, found by following links. No chain is longer than the
history. -/
def chain (h : History) (t : Nat) : List Entry := h.chainFrom h.length (h.last? t)

def committed (h : History) (t : Nat) : Bool :=
  match (h.last? t).bind h.get? with
  | some entry => entry.kind = .commit
  | none => false

/-- Repeats one entry on a store: a write installs its new value. -/
def redo (entry : Entry) (store : Store) : Except Error Store :=
  match entry.kind, entry.record, entry.new with
  | .write, some record, some value => (store.set record value).map (·.1)
  | _, _, _ => .ok store

/-- Repeats, in order, the entries of the transactions that `counts`. -/
def replayWhere (counts : Nat → Bool) : List Entry → Store → Except Error Store
  | [], store => .ok store
  | entry :: rest, store =>
    if counts entry.transaction then
      (redo entry store).bind (replayWhere counts rest)
    else
      replayWhere counts rest store

def replay (h : History) (initial : Store) : Except Error Store :=
  replayWhere (fun _ => true) h.entries initial

def committedReplay (h : History) (initial : Store) : Except Error Store :=
  replayWhere h.committed h.entries initial

def trace (h : History) : String := traceText h.entries

end History

end TwoPhase
