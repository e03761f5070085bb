import TwoPhase.Operation

/-!
# Entries of the history

An event is something a transaction did: it read a record, wrote one,
committed or was aborted. Its entry adds the position in the history (`lsn`,
counted from 0), the transaction, and a link to that transaction's entry before it. The parts of an
event that not every kind has are optional in the entry, and its line leaves
out the missing ones.
-/

namespace TwoPhase

inductive Event where
  | read (record : RecordId) (value : Value)
  | write (record : RecordId) (old new : Value)
  | commit
  | abort
deriving DecidableEq, Repr

inductive EntryKind where
  | read
  | write
  | commit
  | abort
deriving DecidableEq, Repr, Inhabited

namespace EntryKind

def letter : EntryKind → String
  | read => "R"
  | write => "W"
  | commit => "C"
  | abort => "A"

def isTerminal : EntryKind → Bool
  | read | write => false
  | commit | abort => true

end EntryKind

structure Entry where
  kind : EntryKind
  lsn : Nat
  transaction : Nat
  record : Option RecordId
  old : Option Value
  new : Option Value
  /-- The transaction's entry before this one. -/
  previous : Option Nat
deriving DecidableEq, Repr, Inhabited

namespace Entry

/-- The entry of an event. What a read saw is its new value. -/
def ofEvent (lsn : Nat) (t : Nat) (previous : Option Nat) : Event → Entry
  | .read record value => ⟨.read, lsn, t, some record, none, some value, previous⟩
  | .write record old new => ⟨.write, lsn, t, some record, some old, some new, previous⟩
  | .commit => ⟨.commit, lsn, t, none, none, none, previous⟩
  | .abort => ⟨.abort, lsn, t, none, none, none, previous⟩

def fieldText : Option String → String
  | some text => "," ++ text
  | none => ""

/-- The trace line of an entry, such as `W:0,T1,1,1,5,-1`. The link is always written, `-1` if
there is none. -/
def line (e : Entry) : String :=
  e.kind.letter ++ ":" ++ e.lsn.repr ++ "," ++ transactionName e.transaction
    ++ fieldText (e.record.map (·.toNat.repr))
    ++ fieldText (e.old.map (·.toInt.repr))
    ++ fieldText (e.new.map (·.toInt.repr))
    ++ "," ++ (match e.previous with | some lsn => lsn.repr | none => "-1")

end Entry

def traceText (entries : List Entry) : String :=
  String.join (entries.map fun e => e.line ++ "\n")

end TwoPhase
