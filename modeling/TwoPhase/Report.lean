import TwoPhase.Transaction

/-!
# Reports

What is left of a run: the store before and after, everything that happened in
between, how each transaction ended and which deadlocks were broken.
-/

namespace TwoPhase

structure Report where
  initialStore : List Value
  finalStore : List Value
  log : List Entry
  outcomes : List (Nat × Outcome)
  deadlocks : List Deadlock
  turns : Nat
deriving DecidableEq, Repr

namespace Report

def trace (r : Report) : String := traceText r.log

def outcome? (r : Report) (id : Nat) : Option Outcome :=
  (r.outcomes.find? (·.1 = id)).map (·.2)

def count (r : Report) (outcome : Outcome) : Nat := r.outcomes.countP (·.2 = outcome)

/-- The line that tells of a broken deadlock: `deadlock: T2 -> T3 -> aborted T3`. -/
def deadlockLine (d : Deadlock) : String :=
  "deadlock: " ++ " -> ".intercalate (d.cycle.map transactionName) ++ " -> aborted "
    ++ transactionName d.victim ++ "\n"

/-- The report as shown to people: the trace, the deadlocks and the final store. -/
def text (r : Report) : String :=
  r.trace ++ String.join (r.deadlocks.map deadlockLine)
    ++ "final store: [" ++ ", ".intercalate (r.finalStore.map (·.toInt.repr)) ++ "]\n"

end Report

end TwoPhase
