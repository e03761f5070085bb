import TwoPhase.Ring
import TwoPhase.Text.Workload

/-!
# Built-in scenarios

Small workloads that show what the locks do, all over the store of ten records.
-/

namespace TwoPhase

inductive Scenario where
  /-- Two transactions, one waiting for the other for a short while. -/
  | handout
  | threeTransactions
  /-- T2 and T3 wait for each other and T1 waits for T2. -/
  | deadlocks
  | noConflicts
  /-- Several waits that overlap, one of them circular. -/
  | multipleDeadlocks
  /-- Four transactions in a circle. -/
  | largerCycle
deriving DecidableEq, Repr

namespace Scenario

def all : List Scenario :=
  [handout, threeTransactions, deadlocks, noConflicts, multipleDeadlocks, largerCycle]

def name : Scenario → String
  | handout => "handout"
  | threeTransactions => "three-transactions"
  | deadlocks => "deadlocks"
  | noConflicts => "no-conflicts"
  | multipleDeadlocks => "multiple-deadlocks"
  | largerCycle => "larger-cycle"

def ofName? (name : String) : Option Scenario := all.find? (·.name = name)

def text : Scenario → String
  | handout => "W(1,5);R(2);W(2,3);R(1);C\nR(1);W(1,2);C\n"
  | threeTransactions =>
    "R(6);W(7,2);W(5,8);W(6,2);C\nR(4);W(2,4);R(5);W(7,3);C\nR(9);R(6);W(1,9);C\n"
  | deadlocks => "W(4,1);R(1);W(1,2);C\nW(5,2);R(1);R(2);W(2,3);C\nW(6,3);R(2);W(2,4);C\n"
  | noConflicts => "R(1);R(2);R(3);W(4,1);C\nR(1);R(2);R(3);W(5,2);C\n"
  | multipleDeadlocks => "R(1);W(2,1);C\nR(2);R(3);W(1,2);C\nR(1);W(3,3);C\n"
  | largerCycle => "R(1);W(2,1);C\nR(2);W(3,2);C\nR(3);W(4,3);C\nR(4);W(1,4);C\n"

def store : Store := .identity 10

end Scenario

end TwoPhase
