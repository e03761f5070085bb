import Mathlib.Data.List.Chain
import Mathlib.Data.List.Nodup
import Mathlib.Data.List.Perm.Subperm
import TwoPhase.Waiting.Cycle
import TwoPhase.Proofs.Locking

/-!
# Edges and cycles

What each change of a wait graph does to its edges, and what the search for a
cycle finds. `WaitGraph.IsCycle g c`: the vertices of `c` differ, each points to
the next one and the last to the first. The search is sound
(`isCycle_of_findCycle`): what it returns is a cycle. It is complete
(`findCycle_isSome`): if every member of a nonempty set points to a member of
the set, a cycle is returned.
-/

namespace TwoPhase

/-! ## Edges -/

theorem find?_updateRow (v : Nat) (f : IdSet → IdSet) (rows : List Row) (x : Nat)
    (h : (rows.map (·.1)).Pairwise (· < ·)) :
    (updateRow v f rows).find? (·.1 = x) =
      if x = v then some (v, f (((rows.find? (·.1 = v)).map (·.2)).getD ∅))
      else rows.find? (·.1 = x) := by
  induction rows with
  | nil => by_cases e : x = v <;> simp [updateRow, e, eq_comm]
  | cons row rest ih =>
    obtain ⟨hrow, hrest⟩ := List.pairwise_cons.1 h
    unfold updateRow
    by_cases h1 : v < row.1
    · -- `v` comes before all rows, so it has none
      have hnone : (row :: rest).find? (·.1 = v) = none := by
        rw [List.find?_eq_none]
        intro r hr
        rcases List.mem_cons.1 hr with rfl | hr
        · simpa using by omega
        · have : row.1 < r.1 := hrow r.1 (List.mem_map_of_mem hr)
          simpa using by omega
      rw [if_pos h1, hnone]
      by_cases e : x = v
      · simp [e]
      · simp [List.find?_cons, e, Ne.symm e]
    · rw [if_neg h1]
      by_cases h2 : v = row.1
      · rw [if_pos h2]
        by_cases e : x = v
        · simp [e, ← h2]
        · have : ¬ row.1 = x := by omega
          simp [e, Ne.symm e, this]
      · rw [if_neg h2, List.find?_cons, List.find?_cons, List.find?_cons]
        by_cases h3 : row.1 = x
        · have : ¬ x = v := by omega
          simp [h3, this]
        · simp [h3, Ne.symm h2, ih hrest]

namespace WaitGraph

theorem successors_eq (g : WaitGraph) (v : Nat) :
    g.successors v = ((g.rows.find? (·.1 = v)).map (·.2)).getD ∅ := by
  unfold successors
  cases g.rows.find? (·.1 = v) <;> rfl

theorem successors_update (g : WaitGraph) (v : Nat) (f : IdSet → IdSet) (x : Nat) :
    (g.update v f).successors x = if x = v then f (g.successors x) else g.successors x := by
  rw [successors_eq, update, find?_updateRow v f g.rows x g.ascending, successors_eq]
  split
  · next h => simp [h]
  · rfl

theorem hasEdge_iff {g : WaitGraph} {a b : Nat} : g.hasEdge a b = true ↔ b ∈ g.successors a :=
  decide_eq_true_iff

@[simp] theorem hasEdge_empty (a b : Nat) : empty.hasEdge a b = false := rfl

theorem hasEdge_addEdge {g : WaitGraph} {a b x y : Nat} :
    (g.addEdge a b).hasEdge x y = true ↔ g.hasEdge x y = true ∨ x = a ∧ y = b := by
  simp only [hasEdge_iff, addEdge, addVertex, successors_update, id, ite_self]
  by_cases h : x = a
  · simp [h, or_comm]
  · simp [h]

theorem hasEdge_addEdges {g : WaitGraph} {a x y : Nat} {targets : List Nat} :
    (g.addEdges a targets).hasEdge x y = true ↔ g.hasEdge x y = true ∨ x = a ∧ y ∈ targets := by
  induction targets generalizing g with
  | nil => simp [addEdges]
  | cons b rest ih =>
    have hstep : g.addEdges a (b :: rest) = (g.addEdge a b).addEdges a rest := rfl
    rw [hstep, ih, hasEdge_addEdge, or_assoc, ← and_or_left, List.mem_cons]

theorem hasEdge_clearFrom {g : WaitGraph} {v x y : Nat} :
    (g.clearFrom v).hasEdge x y = true ↔ x ≠ v ∧ g.hasEdge x y = true := by
  have hfind : (g.clearFrom v).rows.find? (·.1 = x) =
      (g.rows.find? (·.1 = x)).map fun row => if row.1 = v then (row.1, ∅) else row := by
    unfold clearFrom
    rw [List.find?_map]
    congr 2
    funext row
    simp only [Function.comp_apply]
    split <;> rfl
  rw [hasEdge_iff, hasEdge_iff, successors_eq, successors_eq, hfind]
  cases hx : g.rows.find? (·.1 = x) with
  | none => simp
  | some row =>
    have : row.1 = x := by simpa using List.find?_some hx
    by_cases h : x = v <;> simp [this, h]

theorem mem_vertices_of_hasEdge {g : WaitGraph} {a b : Nat} (h : g.hasEdge a b = true) :
    a ∈ g.vertices := by
  rw [hasEdge_iff, successors_eq] at h
  cases hf : g.rows.find? (·.1 = a) with
  | none => simp [hf] at h
  | some row =>
    have : row.1 = a := by simpa using List.find?_some hf
    exact List.mem_map.2 ⟨row, List.mem_of_find?_eq_some hf, this⟩

/-! ## Soundness of the search -/

/-- The members of `c` differ, each points to the next one and the last to the first. -/
structure IsCycle (g : WaitGraph) (c : List Nat) : Prop where
  nonempty : c ≠ []
  nodup : c.Nodup
  chain : c.IsChain fun a b => g.hasEdge a b = true
  closes : ∀ a ∈ c.getLast?, ∀ b ∈ c.head?, g.hasEdge a b = true

/-- A path, last vertex first: its vertices differ and each is pointed to by the one after it. -/
structure IsPath (g : WaitGraph) (path : List Nat) : Prop where
  nodup : path.Nodup
  chain : path.IsChain fun a b => g.hasEdge b a = true

theorem IsPath.cons {g : WaitGraph} {v next : Nat} {path : List Nat} (h : g.IsPath (v :: path))
    (hnew : next ∉ v :: path) (hedge : g.hasEdge v next = true) :
    g.IsPath (next :: v :: path) :=
  ⟨List.nodup_cons.2 ⟨hnew, h.nodup⟩, h.chain.cons_cons hedge⟩

/-- A successor that is already on the path closes a cycle. -/
theorem IsPath.isCycle_pathFrom {g : WaitGraph} {v next : Nat} {path : List Nat}
    (h : g.IsPath (v :: path)) (hmem : next ∈ v :: path) (hedge : g.hasEdge v next = true) :
    g.IsCycle (pathFrom next (v :: path)) := by
  obtain ⟨after, before, hsplit⟩ := List.append_of_mem hmem
  have hnodup := h.nodup
  have hchain := h.chain
  rw [hsplit] at hnodup hchain
  have hnew : next ∉ after := fun hn =>
    (List.nodup_append.1 hnodup).2.2 next hn next List.mem_cons_self rfl
  have htake : (v :: path).takeWhile (· ≠ next) = after := by
    have hpos : ∀ a ∈ after, decide (a ≠ next) = true := by
      intro a ha
      exact decide_eq_true fun e => hnew (e ▸ ha)
    rw [hsplit, List.takeWhile_append_of_pos hpos]
    simp
  have hcycle : pathFrom next (v :: path) = (after ++ [next]).reverse := by
    rw [pathFrom, htake, List.reverse_append]
    rfl
  rw [List.append_cons] at hnodup hchain
  rw [hcycle]
  refine ⟨by simp, List.nodup_reverse.2 (List.nodup_append.1 hnodup).1,
    List.isChain_reverse.2 hchain.left_of_append, fun a ha b hb => ?_⟩
  have hb' : b = next := by simpa [eq_comm] using hb
  have ha' : a = v := by
    rw [List.getLast?_reverse] at ha
    cases after with
    | nil => simp_all
    | cons x rest => simp_all
  rw [ha', hb']
  exact hedge

theorem isCycle_of_cycleBelow {g : WaitGraph} {fuel v : Nat} {path c : List Nat}
    (h : g.IsPath (v :: path)) (hc : g.cycleBelow fuel v path = some c) : g.IsCycle c := by
  induction fuel generalizing v path with
  | zero => simp [cycleBelow] at hc
  | succ fuel ih =>
    obtain ⟨next, hnext, hc⟩ := List.exists_of_findSome?_eq_some hc
    have hedge : g.hasEdge v next = true := hasEdge_iff.2 hnext
    split at hc
    · next hmem =>
      cases hc
      exact h.isCycle_pathFrom hmem hedge
    · next hnew => exact ih (h.cons hnew hedge) hc

/-- **The search is sound**: what it returns is a cycle. -/
theorem isCycle_of_findCycle {g : WaitGraph} {c : List Nat} (hc : g.findCycle = some c) :
    g.IsCycle c := by
  obtain ⟨root, -, hc⟩ := List.exists_of_findSome?_eq_some hc
  exact isCycle_of_cycleBelow ⟨List.nodup_singleton root, .singleton root⟩ hc

/-! ## Completeness of the search -/

/-- A search from a member of a closed set ends in a cycle: the path stays among the vertices, so
the fuel outlasts it. -/
theorem cycleBelow_isSome {g : WaitGraph} {D : Nat → Prop}
    (hD : ∀ a, D a → ∃ b, D b ∧ g.hasEdge a b = true) {fuel v : Nat} {path : List Nat}
    (hv : D v) (hnodup : (v :: path).Nodup) (hpath : ∀ a ∈ path, a ∈ g.vertices)
    (hfuel : g.vertices.length < fuel + path.length) :
    (g.cycleBelow fuel v path).isSome = true := by
  induction fuel generalizing v path with
  | zero =>
    have := (List.subperm_of_subset (List.nodup_cons.1 hnodup).2 hpath).length_le
    omega
  | succ fuel ih =>
    obtain ⟨next, hnext, hedge⟩ := hD v hv
    refine List.findSome?_isSome_iff.2 ⟨next, hasEdge_iff.1 hedge, ?_⟩
    split
    · rfl
    · next hnew =>
      refine ih hnext (List.nodup_cons.2 ⟨hnew, hnodup⟩) (fun a ha => ?_) ?_
      · rcases List.mem_cons.1 ha with rfl | ha
        · exact mem_vertices_of_hasEdge hedge
        · exact hpath a ha
      · simp only [List.length_cons]
        omega

/-- **The search is complete**: a nonempty set in which everybody points to a member of the set
holds a cycle, and one is found. -/
theorem findCycle_isSome {g : WaitGraph} {D : Nat → Prop} {root : Nat} (hroot : D root)
    (hD : ∀ a, D a → ∃ b, D b ∧ g.hasEdge a b = true) : g.findCycle.isSome = true := by
  obtain ⟨b, -, hedge⟩ := hD root hroot
  refine List.findSome?_isSome_iff.2 ⟨root, mem_vertices_of_hasEdge hedge, ?_⟩
  exact cycleBelow_isSome hD hroot (List.nodup_singleton root) (by simp) (by simp)

/-! ## The victim -/

theorem findDeadlock_eq_some {g : WaitGraph} {d : Deadlock} :
    g.findDeadlock = some d ↔ g.findCycle = some d.cycle ∧ d.cycle.max? = some d.victim := by
  unfold findDeadlock
  cases hc : g.findCycle with
  | none => simp
  | some c =>
    obtain ⟨cycle, victim⟩ := d
    cases hm : c.max? with
    | none =>
      simp only [Option.bind_some, hm, Option.map_none, Option.some.injEq]
      constructor
      · intro h
        cases h
      · rintro ⟨rfl, h⟩
        rw [hm] at h
        cases h
    | some m =>
      simp only [Option.bind_some, hm, Option.map_some, Option.some.injEq, Deadlock.mk.injEq]
      constructor
      · rintro ⟨rfl, rfl⟩
        exact ⟨rfl, hm⟩
      · rintro ⟨rfl, h⟩
        rw [hm] at h
        exact ⟨rfl, Option.some.inj h⟩

theorem isCycle_of_findDeadlock {g : WaitGraph} {d : Deadlock} (h : g.findDeadlock = some d) :
    g.IsCycle d.cycle := isCycle_of_findCycle (findDeadlock_eq_some.1 h).1

theorem victim_mem {g : WaitGraph} {d : Deadlock} (h : g.findDeadlock = some d) :
    d.victim ∈ d.cycle := List.max?_mem (findDeadlock_eq_some.1 h).2

/-- A cycle has a largest member, so a deadlock is found whenever a cycle is. -/
theorem findDeadlock_isSome {g : WaitGraph} (h : g.findCycle.isSome = true) :
    g.findDeadlock.isSome = true := by
  obtain ⟨c, hc⟩ := Option.isSome_iff_exists.1 h
  obtain ⟨m, hm⟩ : ∃ m, c.max? = some m := by
    cases hmax : c.max? with
    | some m => exact ⟨m, rfl⟩
    | none => exact absurd (List.max?_eq_none_iff.1 hmax) (isCycle_of_findCycle hc).nonempty
  simp [findDeadlock, hc, hm]

namespace IsCycle

variable {g : WaitGraph} {cycle : List Nat} {i a b : Nat}

theorem edge (h : g.IsCycle cycle) (ha : cycle[i]? = some a)
    (hb : cycle[(i + 1) % cycle.length]? = some b) : g.hasEdge a b = true := by
  obtain ⟨hi, rfl⟩ := List.getElem?_eq_some_iff.1 ha
  rcases Nat.lt_or_ge (i + 1) cycle.length with hlt | hge
  · rw [Nat.mod_eq_of_lt hlt] at hb
    obtain ⟨-, rfl⟩ := List.getElem?_eq_some_iff.1 hb
    exact List.isChain_iff_getElem.1 h.chain i hlt
  · have hlast : i + 1 = cycle.length := by omega
    rw [hlast, Nat.mod_self, ← List.head?_eq_getElem?] at hb
    refine h.closes _ ?_ b hb
    rw [List.getLast?_eq_getElem?, ← hlast]
    exact ha

theorem exists_edge (h : g.IsCycle cycle) (ha : a ∈ cycle) :
    ∃ b ∈ cycle, g.hasEdge a b = true := by
  obtain ⟨i, hi⟩ := List.mem_iff_getElem?.1 ha
  have hlt : (i + 1) % cycle.length < cycle.length :=
    Nat.mod_lt _ (List.length_pos_of_ne_nil h.nonempty)
  have hb := List.getElem?_eq_getElem hlt
  exact ⟨_, List.mem_of_getElem? hb, h.edge hi hb⟩

theorem exists_edge_to (h : g.IsCycle cycle) (hb : b ∈ cycle) :
    ∃ a ∈ cycle, g.hasEdge a b = true := by
  obtain ⟨i, hi⟩ := List.mem_iff_getElem?.1 hb
  have hpos : 0 < cycle.length := List.length_pos_of_ne_nil h.nonempty
  have hlt : (i + cycle.length - 1) % cycle.length < cycle.length := Nat.mod_lt _ hpos
  have hi' : ((i + cycle.length - 1) % cycle.length + 1) % cycle.length = i := by
    rw [Nat.mod_add_mod, show i + cycle.length - 1 + 1 = i + cycle.length by omega,
      Nat.add_mod_right, Nat.mod_eq_of_lt (List.getElem?_eq_some_iff.1 hi).1]
  have ha := List.getElem?_eq_getElem hlt
  exact ⟨_, List.mem_of_getElem? ha, h.edge ha (hi'.symm ▸ hi)⟩

end IsCycle

end WaitGraph

end TwoPhase
