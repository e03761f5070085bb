import TwoPhase.Locking.IdSet

/-!
# Who waits for whom

A directed graph of transactions: an edge from `a` to `b` says that `a` was
refused a lock because of `b`. The graph is a list of rows, one for each
vertex in ascending order, each with the vertex's successors. A successor need
not have a row of its own; it then has no successors.
-/

namespace TwoPhase

abbrev Row := Nat × IdSet

/-- Changes the row of `v` by `f`, starting from an empty one if there is none. -/
def updateRow (v : Nat) (f : IdSet → IdSet) : List Row → List Row
  | [] => [(v, f ∅)]
  | row :: rest =>
    if v < row.1 then (v, f ∅) :: row :: rest
    else if v = row.1 then (v, f row.2) :: rest
    else row :: updateRow v f rest

theorem map_fst_updateRow (v : Nat) (f : IdSet → IdSet) (rows : List Row) :
    (updateRow v f rows).map (·.1) = insertAscending v (rows.map (·.1)) := by
  induction rows with
  | nil => rfl
  | cons row rest ih =>
    simp only [updateRow, List.map_cons, insertAscending]
    split
    · rfl
    · split
      · next h => simp [h]
      · simp [ih]

structure WaitGraph where
  rows : List Row
  ascending : (rows.map (·.1)).Pairwise (· < ·)
deriving DecidableEq, Repr

namespace WaitGraph

def empty : WaitGraph := ⟨[], by simp⟩

instance : Inhabited WaitGraph := ⟨empty⟩

def vertices (g : WaitGraph) : List Nat := g.rows.map (·.1)

def successors (g : WaitGraph) (v : Nat) : IdSet :=
  match g.rows.find? (·.1 = v) with
  | some row => row.2
  | none => ∅

def hasEdge (g : WaitGraph) (a b : Nat) : Bool := b ∈ g.successors a

/-- All edges, ascending by source and then by target. -/
def edges (g : WaitGraph) : List (Nat × Nat) :=
  g.rows.flatMap fun (a, targets) => targets.toList.map (a, ·)

def update (g : WaitGraph) (v : Nat) (f : IdSet → IdSet) : WaitGraph :=
  ⟨updateRow v f g.rows, by rw [map_fst_updateRow]; exact pairwise_insertAscending g.ascending⟩

def addVertex (g : WaitGraph) (v : Nat) : WaitGraph := g.update v id

/-- Adds an edge; both ends become vertices. -/
def addEdge (g : WaitGraph) (a b : Nat) : WaitGraph :=
  (g.addVertex b).update a (·.insert b)

def addEdges (g : WaitGraph) (a : Nat) (targets : List Nat) : WaitGraph :=
  targets.foldl (·.addEdge a) g

/-- Drops the edges that leave `v`; the vertex stays. -/
def clearFrom (g : WaitGraph) (v : Nat) : WaitGraph :=
  ⟨g.rows.map fun row => if row.1 = v then (row.1, ∅) else row, by
    have h : (g.rows.map fun row => if row.1 = v then (row.1, (∅ : IdSet)) else row).map (·.1)
        = g.rows.map (·.1) := by
      rw [List.map_map]
      refine List.map_congr_left fun row _ => ?_
      simp only [Function.comp_apply]
      split <;> rfl
    rw [h]
    exact g.ascending⟩

/-- A graph from rows in any order; of two rows of one vertex the later counts. -/
def ofRows (rows : List Row) : WaitGraph :=
  rows.foldl (fun g row => g.update row.1 fun _ => row.2) empty

end WaitGraph

end TwoPhase
