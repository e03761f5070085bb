import Mathlib.Logic.Function.Iterate
import Mathlib.Logic.Relation
import TwoPhase.Proofs.Waiting

/-!
# The search for a cycle, step by step

`WaitGraph.findCycle` follows a graph by recursion, as deep as its fuel lets it.
`Search.step` does the same with a stack: of the path to where the search stands and,
for each vertex of it, of the successors that are still to be looked at. A vertex that
was left is looked at again when it is met again, unless the search remembers it.

* `WaitGraph.cycleBelow_isSome_iff`: a search below a vertex finds something exactly if
  a cycle can be reached from the vertex. It does not depend on the path there.
* `Search.settles_below`: a search on the stack does what the recursion does, and what it
  has left behind reaches no cycle, so nothing is missed if it is remembered. The search
  ends (`Search.runs_findCycle`), whether it remembers anything or not.
* `cycle_search_correct`: the search ends, and finds a cycle exactly if there is one.
-/

namespace TwoPhase

namespace WaitGraph

def Points (g : WaitGraph) (a b : Nat) : Prop := g.hasEdge a b = true

/-- Some cycle can be reached from `v`; it may go through `v` itself. -/
def ReachesCycle (g : WaitGraph) (v : Nat) : Prop :=
  ∃ c, Relation.ReflTransGen g.Points v c ∧ Relation.TransGen g.Points c c

/-- The search stands at `v`, where `path` has led it, and its fuel outlasts every path. -/
structure Descent (g : WaitGraph) (fuel v : Nat) (path : List Nat) : Prop where
  isPath : g.IsPath (v :: path)
  inside : ∀ a ∈ path, a ∈ g.vertices
  roomy : g.vertices.length < fuel + path.length

section
variable {g : WaitGraph} {fuel a v next : Nat} {path : List Nat}

/-! ## Where cycles are reached from -/

theorem ReachesCycle.of_points (hedge : g.Points v next) (h : g.ReachesCycle next) :
    g.ReachesCycle v := by
  obtain ⟨c, hreach, hcycle⟩ := h
  exact ⟨c, .head hedge hreach, hcycle⟩

theorem ReachesCycle.exists_next (h : g.ReachesCycle v) :
    ∃ next, g.Points v next ∧ g.ReachesCycle next := by
  obtain ⟨c, hreach, hcycle⟩ := h
  rcases hreach.cases_head with rfl | ⟨next, hedge, hreach⟩
  · obtain ⟨next, hedge, hback⟩ := Relation.TransGen.head'_iff.1 hcycle
    exact ⟨next, hedge, v, hback, hcycle⟩
  · exact ⟨next, hedge, c, hreach, hcycle⟩

theorem IsPath.reaches (h : g.IsPath (v :: path)) (ha : a ∈ v :: path) :
    Relation.ReflTransGen g.Points a v := by
  induction path generalizing v with
  | nil => rw [List.mem_singleton.1 ha]
  | cons u rest ih =>
    rcases List.mem_cons.1 ha with rfl | ha
    · exact .refl
    · have hrest : g.IsPath (u :: rest) := ⟨(List.nodup_cons.1 h.nodup).2, h.chain.tail⟩
      exact (ih hrest ha).tail (List.isChain_cons_cons.1 h.chain).1

theorem IsPath.reachesCycle (h : g.IsPath (v :: path)) (hmem : next ∈ v :: path)
    (hedge : g.Points v next) : g.ReachesCycle next :=
  ⟨next, .refl, .tail' (h.reaches hmem) hedge⟩

theorem reachesCycle_of_cycleBelow {c : List Nat} (h : g.IsPath (v :: path))
    (hc : g.cycleBelow fuel v path = some c) : g.ReachesCycle v := by
  induction fuel generalizing v path with
  | zero => cases hc
  | succ fuel ih =>
    obtain ⟨next, hnext, hc⟩ := List.exists_of_findSome?_eq_some hc
    have hedge : g.Points v next := hasEdge_iff.2 hnext
    split at hc
    · next hmem => exact .of_points hedge (h.reachesCycle hmem hedge)
    · next hnew => exact .of_points hedge (ih (h.cons hnew hedge) hc)

theorem Descent.root (g : WaitGraph) (root : Nat) :
    g.Descent (g.vertices.length + 1) root [] :=
  ⟨⟨List.nodup_singleton root, .singleton root⟩, nofun, by simp⟩

theorem Descent.down (h : g.Descent (fuel + 1) v path) (hedge : g.Points v next)
    (hnew : next ∉ v :: path) : g.Descent fuel next (v :: path) := by
  refine ⟨h.isPath.cons hnew hedge, fun a ha => ?_, ?_⟩
  · rcases List.mem_cons.1 ha with rfl | ha
    · exact mem_vertices_of_hasEdge hedge
    · exact h.inside a ha
  · have := h.roomy
    rw [List.length_cons]
    omega

/-- Fuel is left, since there is no room for a path that is longer than all vertices. -/
theorem Descent.fuel_ne_zero (h : g.Descent fuel v path) : fuel ≠ 0 := by
  have hle := (List.subperm_of_subset (List.nodup_cons.1 h.isPath.nodup).2 h.inside).length_le
  have := h.roomy
  omega

theorem cycleBelow_isSome_iff (h : g.Descent fuel v path) :
    (g.cycleBelow fuel v path).isSome = true ↔ g.ReachesCycle v := by
  constructor
  · intro hsome
    obtain ⟨c, hc⟩ := Option.isSome_iff_exists.1 hsome
    exact reachesCycle_of_cycleBelow h.isPath hc
  · intro hv
    refine cycleBelow_isSome (fun a ha => ?_) hv h.isPath.nodup h.inside h.roomy
    obtain ⟨b, hedge, hb⟩ := ReachesCycle.exists_next ha
    exact ⟨b, hb, hedge⟩

theorem cycleBelow_eq_none_iff (h : g.Descent fuel v path) :
    g.cycleBelow fuel v path = none ↔ ¬ g.ReachesCycle v := by
  rw [← cycleBelow_isSome_iff h, Option.not_isSome_iff_eq_none]

def lookAt (g : WaitGraph) (fuel v : Nat) (path : List Nat) (next : Nat) : Option (List Nat) :=
  if next ∈ v :: path then some (pathFrom next (v :: path)) else g.cycleBelow fuel next (v :: path)

theorem lookAt_eq_none_iff (h : g.Descent (fuel + 1) v path) (hedge : g.Points v next) :
    g.lookAt fuel v path next = none ↔ ¬ g.ReachesCycle next := by
  unfold lookAt
  split
  · next hmem => exact iff_of_false nofun (not_not_intro (h.isPath.reachesCycle hmem hedge))
  · next hnew => exact cycleBelow_eq_none_iff (h.down hedge hnew)

end

end WaitGraph

/-! ## Searching on a stack -/

/-- A search under way, or the answer it came to. -/
inductive Search where
  /-- The roots still to start from, the vertices remembered as finished, the path, last vertex
  first, and for each of its vertices the successors still to be looked at. -/
  | ongoing (roots finished path : List Nat) (frontiers : List (List Nat))
  | done (cycle : Option (List Nat))
deriving DecidableEq, Repr

namespace Search

/-- Takes one successor from the top of the stack, or leaves a vertex that has none left. -/
def step (g : WaitGraph) (remembers : Bool) : Search → Search
  | done cycle => done cycle
  | ongoing [] _ _ [] => done none
  | ongoing (root :: roots) finished _ [] =>
    if root ∈ finished then ongoing roots finished [] []
    else ongoing roots finished [root] [(g.successors root).toList]
  | ongoing roots finished path ([] :: frontiers) =>
    ongoing roots (if remembers then path.take 1 ++ finished else finished) path.tail frontiers
  | ongoing roots finished path ((next :: more) :: frontiers) =>
    if next ∈ path then done (some (WaitGraph.pathFrom next path))
    else if next ∈ finished then ongoing roots finished path (more :: frontiers)
    else ongoing roots finished (next :: path) ((g.successors next).toList :: more :: frontiers)

def start (g : WaitGraph) : Search := ongoing g.vertices [] [] []

def Runs (g : WaitGraph) (remembers : Bool) (s s' : Search) : Prop :=
  ∃ n, (step g remembers)^[n] s = s'

/-- No cycle is reached from what the search has finished. -/
def Barren (g : WaitGraph) (finished : List Nat) : Prop := ∀ v ∈ finished, ¬ g.ReachesCycle v

/-- From `s` the search comes to `answer`; if that is no cycle, it goes on from `back`. -/
def Settles (g : WaitGraph) (remembers : Bool) (s : Search) (back : List Nat → Search) :
    (answer : Option (List Nat)) → Prop
  | some cycle => Runs g remembers s (done (some cycle))
  | none => ∃ finished, Barren g finished ∧ Runs g remembers s (back finished)

section
variable {g : WaitGraph} {remembers : Bool} {s s' s'' : Search} {fuel root v next : Nat}
  {roots finished path left more : List Nat} {frontiers : List (List Nat)}
  {answer answer' : Option (List Nat)} {back back' : List Nat → Search}

theorem step_close (hmem : next ∈ path) :
    (ongoing roots finished path ((next :: more) :: frontiers)).step g remembers =
      done (some (WaitGraph.pathFrom next path)) := by
  rw [step, if_pos hmem]

theorem step_skip (hnew : next ∉ path) (hmem : next ∈ finished) :
    (ongoing roots finished path ((next :: more) :: frontiers)).step g remembers =
      ongoing roots finished path (more :: frontiers) := by
  rw [step, if_neg hnew, if_pos hmem]

theorem step_push (hnew : next ∉ path) (hopen : next ∉ finished) :
    (ongoing roots finished path ((next :: more) :: frontiers)).step g remembers =
      ongoing roots finished (next :: path)
        ((g.successors next).toList :: more :: frontiers) := by
  rw [step, if_neg hnew, if_neg hopen]

theorem step_pop :
    (ongoing roots finished (v :: path) ([] :: frontiers)).step g remembers =
      ongoing roots (if remembers then v :: finished else finished) path frontiers := by
  cases roots <;> rfl

theorem step_pass (hmem : root ∈ finished) :
    (ongoing (root :: roots) finished path []).step g remembers =
      ongoing roots finished [] [] := by
  rw [step, if_pos hmem]

theorem step_root (hopen : root ∉ finished) :
    (ongoing (root :: roots) finished path []).step g remembers =
      ongoing roots finished [root] [(g.successors root).toList] := by
  rw [step, if_neg hopen]

theorem Runs.refl (s : Search) : Runs g remembers s s := ⟨0, rfl⟩

theorem Runs.single (h : s.step g remembers = s') : Runs g remembers s s' := ⟨1, h⟩

theorem Runs.trans (h : Runs g remembers s s') (h' : Runs g remembers s' s'') :
    Runs g remembers s s'' := by
  obtain ⟨m, rfl⟩ := h
  obtain ⟨n, rfl⟩ := h'
  exact ⟨n + m, Function.iterate_add_apply _ n m s⟩

theorem Runs.settles (h : Runs g remembers s s') (h' : Settles g remembers s' back answer) :
    Settles g remembers s back answer := by
  cases answer with
  | some cycle => exact h.trans h'
  | none =>
    obtain ⟨finished, hbarren, hruns⟩ := h'
    exact ⟨finished, hbarren, h.trans hruns⟩

theorem Settles.or (h : Settles g remembers s back answer)
    (h' : answer = none → ∀ finished, Barren g finished →
      Settles g remembers (back finished) back' answer') :
    Settles g remembers s back' (answer.or answer') := by
  cases answer with
  | some cycle => exact h
  | none =>
    obtain ⟨finished, hbarren, hruns⟩ := h
    exact hruns.settles (h' rfl finished hbarren)

theorem findSome?_cons_eq_or {α β : Type} (f : α → Option β) (a : α) (l : List α) :
    (a :: l).findSome? f = (f a).or (l.findSome? f) := by
  rw [List.findSome?_cons]
  cases f a <;> rfl

/-- The successors that are left are looked at one by one, if a search below each of them does
what the recursion does. -/
theorem settles_frontier (hdescent : g.Descent (fuel + 1) v path)
    (hbelow : ∀ next finished frontiers, g.Points v next → next ∉ v :: path → Barren g finished →
      Settles g remembers
        (ongoing roots finished (next :: v :: path) ((g.successors next).toList :: frontiers))
        (fun finished => ongoing roots finished (v :: path) frontiers)
        (g.cycleBelow fuel next (v :: path)))
    (hleft : ∀ next ∈ left, g.Points v next) (hbarren : Barren g finished) :
    Settles g remembers (ongoing roots finished (v :: path) (left :: frontiers))
      (fun finished => ongoing roots finished (v :: path) ([] :: frontiers))
      (left.findSome? (g.lookAt fuel v path)) := by
  induction left generalizing finished with
  | nil => exact ⟨finished, hbarren, .refl _⟩
  | cons next more ih =>
    have hedge := hleft next List.mem_cons_self
    have hmore : ∀ x ∈ more, g.Points v x := fun x hx => hleft x (List.mem_cons_of_mem _ hx)
    rw [findSome?_cons_eq_or]
    by_cases hmem : next ∈ v :: path
    · rw [WaitGraph.lookAt, if_pos hmem]
      exact .single (step_close hmem)
    · by_cases hfinished : next ∈ finished
      · -- a vertex that is remembered would be searched in vain
        rw [(WaitGraph.lookAt_eq_none_iff hdescent hedge).2 (hbarren next hfinished)]
        exact (Runs.single (step_skip hmem hfinished)).settles (ih hmore hbarren)
      · rw [WaitGraph.lookAt, if_neg hmem]
        refine (Runs.single (step_push hmem hfinished)).settles ?_
        refine (hbelow next finished (more :: frontiers) hedge hmem hbarren).or ?_
        exact fun _ finished' hbarren' => ih hmore hbarren'

/-- A search below a vertex on the stack does what the recursion does. -/
theorem settles_below (hdescent : g.Descent fuel v path) (hbarren : Barren g finished) :
    Settles g remembers
      (ongoing roots finished (v :: path) ((g.successors v).toList :: frontiers))
      (fun finished => ongoing roots finished path frontiers) (g.cycleBelow fuel v path) := by
  induction fuel generalizing v path finished frontiers with
  | zero => exact absurd rfl hdescent.fuel_ne_zero
  | succ fuel ih =>
    rw [← Option.or_none (o := g.cycleBelow (fuel + 1) v path)]
    refine Settles.or (settles_frontier hdescent (fun next finished frontiers hedge hnew hbarren =>
      ih (hdescent.down hedge hnew) hbarren) (fun next hnext => WaitGraph.hasEdge_iff.2 hnext)
      hbarren) fun hnone finished' hbarren' => ?_
    refine ⟨if remembers then v :: finished' else finished', ?_, .single step_pop⟩
    split
    · intro x hx
      rcases List.mem_cons.1 hx with rfl | hx
      · exact (WaitGraph.cycleBelow_eq_none_iff hdescent).1 hnone
      · exact hbarren' x hx
    · exact hbarren'

theorem settles_roots (hbarren : Barren g finished) :
    Settles g remembers (ongoing roots finished [] []) (fun _ => done none)
      (roots.findSome? fun root => g.cycleBelow (g.vertices.length + 1) root []) := by
  induction roots generalizing finished with
  | nil => exact ⟨finished, hbarren, .single rfl⟩
  | cons root roots ih =>
    have hdescent := WaitGraph.Descent.root g root
    rw [findSome?_cons_eq_or]
    by_cases hfinished : root ∈ finished
    · rw [(WaitGraph.cycleBelow_eq_none_iff hdescent).2 (hbarren root hfinished)]
      exact (Runs.single (step_pass hfinished)).settles (ih hbarren)
    · refine (Runs.single (step_root hfinished)).settles ?_
      exact (settles_below hdescent hbarren).or fun _ finished' hbarren' => ih hbarren'

/-- **The search ends**, with the cycle that the recursion finds. -/
theorem runs_findCycle (g : WaitGraph) (remembers : Bool) :
    Runs g remembers (start g) (done g.findCycle) := by
  have hsettles : Settles g remembers (start g) (fun _ => done none) g.findCycle :=
    settles_roots nofun
  revert hsettles
  cases g.findCycle with
  | some cycle => exact id
  | none =>
    rintro ⟨finished, -, hruns⟩
    exact hruns

end

end Search

/-! ## What is found -/

namespace WaitGraph

theorem findCycle_eq_none_iff {g : WaitGraph} :
    g.findCycle = none ↔ ∀ v, ¬ Relation.TransGen g.Points v v := by
  constructor
  · intro hnone v hcycle
    have hsome : g.findCycle.isSome = true :=
      findCycle_isSome (D := g.ReachesCycle) ⟨v, .refl, hcycle⟩ fun a ha => by
        obtain ⟨b, hedge, hb⟩ := ReachesCycle.exists_next ha
        exact ⟨b, hb, hedge⟩
    rw [hnone] at hsome
    cases hsome
  · intro hacyclic
    cases hfind : g.findCycle with
    | none => rfl
    | some c =>
      obtain ⟨root, -, hc⟩ := List.exists_of_findSome?_eq_some hfind
      obtain ⟨v, -, hcycle⟩ := reachesCycle_of_cycleBelow (Descent.root g root).isPath hc
      exact absurd hcycle (hacyclic v)

end WaitGraph

/-- **The search for a cycle is correct.** On every graph the search on a stack, which remembers
nothing but its path, ends, and its answer is that of the recursion. There is none exactly if no
vertex can be reached again from itself; else it is a list of different vertices, each of which
points to the next one and the last to the first. The victim of a deadlock is the largest of them.
-/
theorem cycle_search_correct (g : WaitGraph) :
    (∃ n, (Search.step g false)^[n] (Search.start g) = .done g.findCycle) ∧
    (g.findCycle = none ↔ ∀ v, ¬ Relation.TransGen g.Points v v) ∧
    (∀ c, g.findCycle = some c → g.IsCycle c) ∧
    g.findDeadlock.map (·.cycle) = g.findCycle ∧
    ∀ d, g.findDeadlock = some d → d.victim ∈ d.cycle ∧ ∀ u ∈ d.cycle, u ≤ d.victim := by
  refine ⟨Search.runs_findCycle g false, WaitGraph.findCycle_eq_none_iff,
    fun c => WaitGraph.isCycle_of_findCycle, ?_, fun d hd => ?_⟩
  · cases hfind : g.findCycle with
    | none => simp [WaitGraph.findDeadlock, hfind]
    | some c =>
      have hsome : g.findDeadlock.isSome = true :=
        WaitGraph.findDeadlock_isSome (by rw [hfind]; rfl)
      obtain ⟨d, hd⟩ := Option.isSome_iff_exists.1 hsome
      have hcycle := (WaitGraph.findDeadlock_eq_some.1 hd).1
      rw [hd, ← hfind, hcycle]
      rfl
  · have hmax := (WaitGraph.findDeadlock_eq_some.1 hd).2
    exact ⟨WaitGraph.victim_mem hd, (List.max?_eq_some_iff.1 hmax).2⟩

end TwoPhase
