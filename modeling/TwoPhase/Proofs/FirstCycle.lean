import Mathlib.Order.Nat
import TwoPhase.Proofs.Search

/-!
# Which cycle is found

A search that goes down and comes back in vain has shown that no cycle is reached from
where it was. So it is as if it had never gone there: the cycle that is found lies on
the walk that starts at the smallest vertex from which a cycle is reached and goes on to
the smallest such successor each time (`LeastWalk`).

* `LeastWalk.lookAt_eq_none`: what comes before the walk in the order of the search is
  searched in vain.
* `LeastWalk.cycleBelow_trail`: the search follows the walk up to its first repetition.
* `Search.fresh_iterate`: a search that remembers enters no vertex twice.
* `findCycle_follows_leastWalk`: the cycle is the part of the walk between the two
  occurrences, also for a search that remembers.
-/

namespace TwoPhase

/-- In an ascending list the first result is that of the smallest member with one. -/
theorem findSome?_of_ascending {β : Type} {f : Nat → Option β} {l : List Nat} {a : Nat} {b : β}
    (hl : l.Pairwise (· < ·)) (ha : a ∈ l) (hless : ∀ x ∈ l, x < a → f x = none)
    (hb : f a = some b) : l.findSome? f = some b := by
  induction l with
  | nil => cases ha
  | cons x rest ih =>
    obtain ⟨hx, hrest⟩ := List.pairwise_cons.1 hl
    rcases List.mem_cons.1 ha with rfl | ha
    · rw [List.findSome?_cons, hb]
    · rw [List.findSome?_cons, hless x List.mem_cons_self (hx a ha)]
      exact ih hrest ha fun y hy => hless y (List.mem_cons_of_mem _ hy)

namespace WaitGraph

/-- The walk along the smallest vertices from which a cycle is reached. -/
structure LeastWalk (g : WaitGraph) (walk : Nat → Nat) : Prop where
  first : IsLeast {v | g.ReachesCycle v} (walk 0)
  next : ∀ k, IsLeast {v | g.Points (walk k) v ∧ g.ReachesCycle v} (walk (k + 1))

/-- The first `k` vertices of a walk, last vertex first. -/
def trail (walk : Nat → Nat) : Nat → List Nat
  | 0 => []
  | k + 1 => walk k :: trail walk k

section
variable {g : WaitGraph} {walk : Nat → Nat} {fuel i j k v : Nat}

/-! ## Walks -/

theorem mem_trail : v ∈ trail walk k ↔ ∃ i, i < k ∧ walk i = v := by
  induction k with
  | zero => simp [trail]
  | succ k ih =>
    rw [trail, List.mem_cons, ih]
    constructor
    · rintro (rfl | ⟨i, hi, rfl⟩)
      · exact ⟨k, by omega, rfl⟩
      · exact ⟨i, by omega, rfl⟩
    · rintro ⟨i, hi, rfl⟩
      rcases Nat.lt_succ_iff_lt_or_eq.1 hi with hi | rfl
      · exact .inr ⟨i, hi, rfl⟩
      · exact .inl rfl

theorem walk_ne_of_nodup (h : (trail walk k).Nodup) (hij : i < j) (hj : j < k) :
    walk i ≠ walk j := by
  induction k with
  | zero => cases hj
  | succ k ih =>
    obtain ⟨hnew, hold⟩ := List.nodup_cons.1 h
    rcases Nat.lt_succ_iff_lt_or_eq.1 hj with hj | rfl
    · exact ih hold hj
    · exact fun he => hnew (mem_trail.2 ⟨i, hij, he⟩)

theorem pathFrom_trail (h : (trail walk k).Nodup) (hi : i < k) :
    pathFrom (walk i) (trail walk k) = (List.range' i (k - i)).map walk := by
  induction k with
  | zero => cases hi
  | succ k ih =>
    rcases Nat.lt_succ_iff_lt_or_eq.1 hi with hi | rfl
    · have hne : walk k ≠ walk i := (walk_ne_of_nodup h hi (Nat.lt_succ_self k)).symm
      have hrange : List.range' i (k + 1 - i) = List.range' i (k - i) ++ [k] := by
        rw [show k + 1 - i = (k - i) + 1 by omega, List.range'_1_concat]
        congr 2
        omega
      rw [hrange, List.map_append, ← ih (List.nodup_cons.1 h).2 hi, pathFrom, trail,
        List.takeWhile_cons_of_pos (by simpa using hne), List.reverse_cons]
      rfl
    · rw [Nat.succ_sub (Nat.le_refl i), Nat.sub_self, pathFrom, trail,
        List.takeWhile_cons_of_neg (by simp)]
      rfl

namespace LeastWalk

variable (h : g.LeastWalk walk)
include h

theorem reachesCycle (k : Nat) : g.ReachesCycle (walk k) := by
  cases k with
  | zero => exact h.first.1
  | succ k => exact (h.next k).1.2

/-- Successors before the next vertex of the walk are searched in vain. -/
theorem lookAt_eq_none (hdescent : g.Descent (fuel + 1) (walk k) (trail walk k))
    (hedge : g.Points (walk k) v) (hless : v < walk (k + 1)) :
    g.lookAt fuel (walk k) (trail walk k) v = none := by
  refine (lookAt_eq_none_iff hdescent hedge).2 fun hcycle => ?_
  have hle := (h.next k).2 ⟨hedge, hcycle⟩
  omega

/-- The search follows the walk until a vertex is repeated. -/
theorem cycleBelow_trail (hdescent : g.Descent fuel (walk k) (trail walk k)) :
    ∃ i j, i < j ∧ walk i = walk j ∧ (∀ a b, a < b → b < j → walk a ≠ walk b) ∧
      g.cycleBelow fuel (walk k) (trail walk k) = some ((List.range' i (j - i)).map walk) := by
  induction fuel generalizing k with
  | zero => exact absurd rfl hdescent.fuel_ne_zero
  | succ fuel ih =>
    have hedge := (h.next k).1.1
    have hnodup : (trail walk (k + 1)).Nodup := hdescent.isPath.nodup
    have hfirst : ∀ {cycle}, g.lookAt fuel (walk k) (trail walk k) (walk (k + 1)) = some cycle →
        g.cycleBelow (fuel + 1) (walk k) (trail walk k) = some cycle := fun hlook =>
      findSome?_of_ascending (g.successors (walk k)).ascending (hasEdge_iff.1 hedge)
        (fun v hv => h.lookAt_eq_none hdescent (hasEdge_iff.2 hv)) hlook
    by_cases hmem : walk (k + 1) ∈ trail walk (k + 1)
    · obtain ⟨i, hi, hwalk⟩ := mem_trail.1 hmem
      refine ⟨i, k + 1, hi, hwalk, fun a b => walk_ne_of_nodup hnodup, hfirst ?_⟩
      rw [lookAt, ← trail, if_pos hmem, ← hwalk, pathFrom_trail hnodup hi]
    · obtain ⟨i, j, hij, hwalk, hne, hcycle⟩ := ih (k := k + 1) (hdescent.down hedge hmem)
      refine ⟨i, j, hij, hwalk, hne, hfirst ?_⟩
      rw [lookAt, ← trail, if_neg hmem, hcycle]

theorem findCycle_eq : ∃ i j, i < j ∧ walk i = walk j ∧
    (∀ a b, a < b → b < j → walk a ≠ walk b) ∧
    g.findCycle = some ((List.range' i (j - i)).map walk) := by
  obtain ⟨i, j, hij, hwalk, hne, hcycle⟩ :=
    h.cycleBelow_trail (k := 0) (Descent.root g (walk 0))
  obtain ⟨next, hedge, -⟩ := (h.reachesCycle 0).exists_next
  refine ⟨i, j, hij, hwalk, hne, findSome?_of_ascending g.ascending
    (mem_vertices_of_hasEdge hedge) (fun v _ hless => ?_) hcycle⟩
  refine (cycleBelow_eq_none_iff (Descent.root g v)).2 fun hv => ?_
  have hle := h.first.2 hv
  omega

end LeastWalk

theorem exists_leastWalk (hv : g.ReachesCycle v) : ∃ walk, g.LeastWalk walk := by
  classical
  have hnext : ∀ v : {v // g.ReachesCycle v}, ∃ w : {v // g.ReachesCycle v},
      IsLeast {x | g.Points v x ∧ g.ReachesCycle x} w := fun v => by
    have hleast := Nat.isLeast_find v.2.exists_next
    exact ⟨⟨_, hleast.1.2⟩, hleast⟩
  choose next hleast using hnext
  have hfirst := Nat.isLeast_find ⟨v, hv⟩
  refine ⟨fun k => next^[k] ⟨_, hfirst.1⟩, hfirst, fun k => ?_⟩
  rw [Function.iterate_succ_apply']
  exact hleast _

end

end WaitGraph

/-! ## Searches that remember -/

namespace Search

/-- The vertices that are remembered and those of the path are all different. -/
def Fresh : Search → Prop
  | ongoing _ finished path _ => (path ++ finished).Nodup
  | done _ => True

/-- A vertex is entered only if it is neither on the path nor remembered, and when it is left it
goes from one to the other. -/
theorem Fresh.step {s : Search} (h : s.Fresh) (g : WaitGraph) (remembers : Bool) :
    (s.step g remembers).Fresh := by
  cases s with
  | done cycle => trivial
  | ongoing roots finished path frontiers =>
    have hpath : (path ++ finished).Nodup := h
    have hfinished : finished.Nodup := (List.nodup_append.1 hpath).2.1
    cases frontiers with
    | nil =>
      cases roots with
      | nil => trivial
      | cons root roots =>
        by_cases hmem : root ∈ finished
        · rw [step_pass hmem]
          exact hfinished
        · rw [step_root hmem]
          exact List.nodup_cons.2 ⟨hmem, hfinished⟩
    | cons left frontiers =>
      cases left with
      | nil =>
        cases path with
        | nil => cases remembers <;> cases roots <;> exact hfinished
        | cons v path =>
          rw [step_pop]
          cases remembers with
          | false => exact (List.nodup_cons.1 hpath).2
          | true => exact (List.perm_middle.nodup_iff).2 hpath
      | cons next more =>
        by_cases hmem : next ∈ path
        · rw [step_close hmem]
          trivial
        · by_cases hold : next ∈ finished
          · rw [step_skip hmem hold]
            exact hpath
          · rw [step_push hmem hold]
            refine List.nodup_cons.2 ⟨fun hnext => ?_, hpath⟩
            exact (List.mem_append.1 hnext).elim hmem hold

theorem fresh_iterate (g : WaitGraph) (remembers : Bool) (n : Nat) :
    ((step g remembers)^[n] (start g)).Fresh := by
  induction n with
  | zero => exact .nil
  | succ n ih =>
    rw [Function.iterate_succ_apply']
    exact ih.step g remembers

end Search

/-- **Which cycle is found.** In a graph with a cycle there is a walk from the smallest vertex from
which a cycle is reached, along the smallest such successors. For every such walk the search finds
the part from the first vertex that is repeated up to just before its repetition. A search that
remembers the vertices it has finished, and so enters none of them again, finds the same cycle. -/
theorem findCycle_follows_leastWalk (g : WaitGraph)
    (hcycle : ∃ v, Relation.TransGen g.Points v v) :
    (∃ walk, g.LeastWalk walk) ∧
    (∀ walk, g.LeastWalk walk → ∃ i j, i < j ∧ walk i = walk j ∧
      (∀ a b, a < b → b < j → walk a ≠ walk b) ∧
      g.findCycle = some ((List.range' i (j - i)).map walk)) ∧
    (∀ n, ((Search.step g true)^[n] (Search.start g)).Fresh) ∧
    ∃ n, (Search.step g true)^[n] (Search.start g) = .done g.findCycle := by
  obtain ⟨v, hv⟩ := hcycle
  exact ⟨WaitGraph.exists_leastWalk ⟨v, .refl, hv⟩, fun walk hwalk => hwalk.findCycle_eq,
    Search.fresh_iterate g true, Search.runs_findCycle g true⟩

/-- T1 waits for T2, which waits in vain for T4, and for T3, which waits for T4 and T5. T4 has no
row of its own. -/
def detour : WaitGraph :=
  ⟨[(1, .ofList [2, 3]), (2, .ofList [4]), (3, .ofList [4, 5]), (5, .ofList [3])], by decide⟩

/-- The walk is T1, T3, T5, T3 and so on. -/
theorem findCycle_follows_leastWalk_detour :
    (∃ v, Relation.TransGen detour.Points v v) ∧
    ∃ walk i j, detour.LeastWalk walk ∧ i < j ∧ walk i = walk j ∧
      (List.range' i (j - i)).map walk = [3, 5] := by
  have hdown : detour.Points 3 5 := by unfold WaitGraph.Points; decide
  have hup : detour.Points 5 3 := by unfold WaitGraph.Points; decide
  have hcycle : ∃ v, Relation.TransGen detour.Points v v := ⟨3, .tail (.single hdown) hup⟩
  have hfound : detour.findCycle = some [3, 5] := by decide
  obtain ⟨⟨walk, hwalk⟩, hall, -⟩ := findCycle_follows_leastWalk detour hcycle
  obtain ⟨i, j, hij, hrepeat, -, hfind⟩ := hall walk hwalk
  rw [hfound] at hfind
  exact ⟨hcycle, walk, i, j, hwalk, hij, hrepeat, (Option.some.inj hfind).symm⟩

end TwoPhase
