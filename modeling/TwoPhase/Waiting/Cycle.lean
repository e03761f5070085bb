import TwoPhase.Waiting.Graph

/-!
# Circular waits

`WaitGraph.findCycle` looks for a cycle depth first: roots ascending,
successors ascending, keeping only the path from the root to where it stands. A
successor that is already on the path closes a cycle, which is the path from
there on. The victim of a deadlock is the youngest transaction of its cycle, the
one with the largest number.
-/

namespace TwoPhase

namespace WaitGraph

/-- The part of a path from `v` on, where the path is given last vertex first. -/
def pathFrom (v : Nat) (path : List Nat) : List Nat :=
  v :: (path.takeWhile (· ≠ v)).reverse

/-- Searches below the path `v :: path`, given last vertex first; `fuel` bounds how much longer the
path may grow. -/
def cycleBelow (g : WaitGraph) : (fuel : Nat) → Nat → List Nat →
    Option (List Nat)
  | 0, _, _ => none
  | fuel + 1, v, path =>
    (g.successors v).toList.findSome? fun next =>
      if next ∈ v :: path then some (pathFrom next (v :: path))
      else g.cycleBelow fuel next (v :: path)

/-- The first cycle of the graph. The vertices of a path differ and all but its last have a row, so
no path is longer than the number of rows by more than one. -/
def findCycle (g : WaitGraph) : Option (List Nat) :=
  g.vertices.findSome? fun root => g.cycleBelow (g.vertices.length + 1) root []

def hasCycle (g : WaitGraph) : Bool := g.findCycle.isSome

end WaitGraph

structure Deadlock where
  cycle : List Nat
  victim : Nat
deriving DecidableEq, Repr

def WaitGraph.findDeadlock (g : WaitGraph) : Option Deadlock :=
  g.findCycle.bind fun cycle => cycle.max?.map fun victim => ⟨cycle, victim⟩

end TwoPhase
