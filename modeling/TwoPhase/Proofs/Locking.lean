import TwoPhase.Locking.Table

/-!
# Holders and blockers

`LockTable.lockOf` is the lock of a record, free where there is none. A
transaction conflicts with a mode (`Lock.Conflicts`) if it has the record for
itself, or shares it while the mode is exclusive; the blockers of a request are
exactly the others that conflict (`Lock.mem_blockers`). A grant or a release
changes what one transaction holds and nothing else.
-/

namespace TwoPhase

/-! ## Sets -/

namespace IdSet

theorem mem_toList {a : Nat} {s : IdSet} : a ∈ s.toList ↔ a ∈ s := Iff.rfl

@[simp] theorem notMem_empty (a : Nat) : a ∉ (∅ : IdSet) := List.not_mem_nil

@[simp] theorem mem_singleton {a b : Nat} : a ∈ singleton b ↔ a = b := List.mem_singleton

@[simp] theorem mem_insert {a b : Nat} {s : IdSet} : a ∈ s.insert b ↔ a = b ∨ a ∈ s :=
  mem_insertAscending

@[simp] theorem mem_erase {a b : Nat} {s : IdSet} : a ∈ s.erase b ↔ a ≠ b ∧ a ∈ s := by
  show a ∈ s.toList.filter (· ≠ b) ↔ _
  rw [List.mem_filter, decide_eq_true_eq, and_comm]
  exact Iff.rfl

theorem isEmpty_iff {s : IdSet} : s.isEmpty = true ↔ ∀ a, a ∉ s := by
  unfold isEmpty
  rw [List.isEmpty_iff, List.eq_nil_iff_forall_not_mem]
  exact Iff.rfl

theorem exists_mem {s : IdSet} (h : ¬ s.isEmpty = true) : ∃ a, a ∈ s := by
  rw [isEmpty_iff] at h
  exact Classical.not_forall_not.1 h

theorem ext_mem {s s' : IdSet} (h : ∀ a, a ∈ s ↔ a ∈ s') : s = s' := by
  have hperm : s.toList.Perm s'.toList :=
    (List.perm_ext_iff_of_nodup (s.ascending.imp Nat.ne_of_lt) (s'.ascending.imp Nat.ne_of_lt)).2 h
  have hlist : s.toList = s'.toList :=
    hperm.eq_of_pairwise (fun a b _ _ hab hba => absurd hab (Nat.lt_asymm hba)) s.ascending
      s'.ascending
  cases s
  cases s'
  simpa using hlist

end IdSet

/-! ## Locks -/

namespace Lock

/-- `u` holds the lock in a way that lets nobody else take it in `mode`. -/
def Conflicts (lock : Lock) (u : Nat) (mode : LockMode) : Prop :=
  lock.owner? = some u ∨ mode = .exclusive ∧ u ∈ lock.sharers

theorem mem_blockers {lock : Lock} {t u : Nat} {mode : LockMode} :
    u ∈ lock.blockers t mode ↔ u ≠ t ∧ lock.Conflicts u mode := by
  cases lock with
  | exclusive holder =>
    by_cases h : holder = t
    · subst h
      simp [blockers, Conflicts, owner?, sharers, eq_comm]
    · simp only [blockers, if_neg h, IdSet.mem_singleton, Conflicts, owner?, sharers,
        IdSet.notMem_empty, and_false, or_false, Option.some.injEq]
      constructor
      · rintro rfl
        exact ⟨h, rfl⟩
      · rintro ⟨-, rfl⟩
        rfl
  | shared holders => cases mode <;> simp [blockers, Conflicts, owner?, sharers]

/-- Whoever is in nobody's way conflicts with no other holder. -/
theorem not_conflicts {lock : Lock} {t u : Nat} {mode : LockMode}
    (h : (lock.blockers t mode).isEmpty = true) (hu : u ≠ t) : ¬ lock.Conflicts u mode :=
  fun hc => IdSet.isEmpty_iff.1 h u (mem_blockers.2 ⟨hu, hc⟩)

theorem owner?_grant {lock : Lock} {t u : Nat} {mode : LockMode}
    (h : (lock.blockers t mode).isEmpty = true) :
    (lock.grant t mode).owner? = some u ↔ lock.owner? = some u ∨ mode = .exclusive ∧ u = t := by
  cases lock with
  | exclusive holder =>
    have ht : holder = t := by
      by_cases e : holder = t
      · exact e
      · exact absurd (Or.inl rfl) (not_conflicts h e)
    subst ht
    simp only [grant, owner?, Option.some.injEq]
    constructor
    · exact Or.inl
    · rintro (rfl | ⟨-, rfl⟩) <;> rfl
  | shared holders => cases mode <;> simp [grant, owner?, eq_comm]

theorem mem_sharers_grant {lock : Lock} {t u : Nat} {mode : LockMode} :
    u ∈ (lock.grant t mode).sharers ↔
      mode = .shared ∧ lock.owner? = none ∧ (u = t ∨ u ∈ lock.sharers) := by
  cases lock with
  | exclusive holder => simp [grant, sharers, owner?]
  | shared holders => cases mode <;> simp [grant, sharers, owner?]

theorem owner?_release {lock : Lock} {t u : Nat} :
    (lock.release t).owner? = some u ↔ u ≠ t ∧ lock.owner? = some u := by
  cases lock with
  | exclusive holder =>
    by_cases h : holder = t
    · subst h
      simp [release, free, owner?, eq_comm]
    · simp only [release, if_neg h, owner?, Option.some.injEq]
      constructor
      · rintro rfl
        exact ⟨h, rfl⟩
      · exact And.right
  | shared holders => simp [release, owner?]

theorem mem_sharers_release {lock : Lock} {t u : Nat} :
    u ∈ (lock.release t).sharers ↔ u ≠ t ∧ u ∈ lock.sharers := by
  cases lock with
  | exclusive holder => by_cases h : holder = t <;> simp [release, free, sharers, h]
  | shared holders => simp [release, sharers]

/-- A lock has an owner or sharers, never both. -/
theorem sharers_of_owner {lock : Lock} {t u : Nat} (h : lock.owner? = some t) :
    u ∉ lock.sharers := by
  cases lock with
  | exclusive holder => simp [sharers]
  | shared holders => cases h

theorem ext_holders {lock lock' : Lock}
    (howner : ∀ u, lock.owner? = some u ↔ lock'.owner? = some u)
    (hsharers : ∀ u, u ∈ lock.sharers ↔ u ∈ lock'.sharers) : lock = lock' := by
  cases lock with
  | exclusive holder =>
    cases lock' with
    | exclusive holder' =>
      rw [Option.some.inj ((howner holder).1 rfl)]
    | shared holders => cases (howner holder).1 rfl
  | shared holders =>
    cases lock' with
    | exclusive holder => cases (howner holder).2 rfl
    | shared holders' => exact congrArg shared (IdSet.ext_mem hsharers)

theorem mem_sharers_grant_other {lock : Lock} {t u : Nat} {mode : LockMode}
    (h : (lock.blockers t mode).isEmpty = true) (hu : u ≠ t) :
    u ∈ (lock.grant t mode).sharers ↔ u ∈ lock.sharers := by
  rw [mem_sharers_grant, or_iff_right hu]
  constructor
  · exact fun hs => hs.2.2
  · intro hs
    refine ⟨?_, ?_, hs⟩
    · cases mode with
      | shared => rfl
      | exclusive => exact absurd (.inr ⟨rfl, hs⟩) (not_conflicts h hu)
    · cases ho : lock.owner? with
      | none => rfl
      | some v => exact absurd hs (sharers_of_owner ho)

/-- A granted request leaves the requester with what it asked for, or more. -/
theorem owner?_grant_self_or {lock : Lock} {t : Nat} {mode : LockMode}
    (h : (lock.blockers t mode).isEmpty = true) :
    (lock.grant t mode).owner? = some t ∨ mode = .shared ∧ t ∈ (lock.grant t mode).sharers := by
  cases mode with
  | exclusive => exact .inl ((owner?_grant h).2 (.inr ⟨rfl, rfl⟩))
  | shared =>
    cases ho : lock.owner? with
    | none => exact .inr ⟨rfl, mem_sharers_grant.2 ⟨rfl, ho, .inl rfl⟩⟩
    | some v =>
      by_cases hv : v = t
      · exact .inl ((owner?_grant h).2 (.inl (hv ▸ ho)))
      · exact absurd (.inl ho) (not_conflicts h hv)

theorem heldBy_iff {lock : Lock} {t : Nat} :
    lock.heldBy t = true ↔ lock.owner? = some t ∨ t ∈ lock.sharers := by
  cases lock <;> simp [heldBy, owner?, sharers]

/-- What `u` holds survives a grant to anybody, `u` included. -/
theorem Conflicts.grant {lock : Lock} {t u : Nat} {mode mode' : LockMode}
    (h : (lock.blockers t mode).isEmpty = true) (hc : lock.Conflicts u mode') :
    (lock.grant t mode).Conflicts u mode' := by
  rcases hc with ho | ⟨hm, hs⟩
  · exact Or.inl ((owner?_grant h).2 (Or.inl ho))
  · cases mode with
    | shared =>
      refine Or.inr ⟨hm, mem_sharers_grant.2 ⟨rfl, ?_, Or.inr hs⟩⟩
      cases lock with
      | exclusive holder => cases hs
      | shared holders => rfl
    | exclusive =>
      by_cases e : u = t
      · exact Or.inl ((owner?_grant h).2 (Or.inr ⟨rfl, e⟩))
      · exact absurd (Or.inr ⟨rfl, hs⟩) (not_conflicts h e)

theorem conflicts_release {lock : Lock} {t u : Nat} {mode : LockMode} :
    (lock.release t).Conflicts u mode ↔ u ≠ t ∧ lock.Conflicts u mode := by
  unfold Conflicts
  rw [owner?_release, mem_sharers_release, and_left_comm, ← and_or_left]

theorem Conflicts.release {lock : Lock} {t u : Nat} {mode : LockMode} (h : u ≠ t)
    (hc : lock.Conflicts u mode) : (lock.release t).Conflicts u mode :=
  conflicts_release.2 ⟨h, hc⟩

end Lock

/-! ## Tables -/

namespace LockTable

def lockOf (table : LockTable) (i : Nat) : Lock := table.locks[i]?.getD .free

def take (table : LockTable) (t : Nat) (mode : LockMode) (i : Nat) : LockTable :=
  ⟨table.locks.set i ((table.lockOf i).grant t mode)⟩

@[simp] theorem size_ofSize (n : Nat) : (ofSize n).size = n := by simp [ofSize, size]

@[simp] theorem size_take (table : LockTable) (t : Nat) (mode : LockMode) (i : Nat) :
    (table.take t mode i).size = table.size := by simp [take, size]

@[simp] theorem size_release (table : LockTable) (t : Nat) :
    (table.release t).size = table.size := by simp [release, size]

@[simp] theorem lockOf_ofSize (n i : Nat) : (ofSize n).lockOf i = .free := by
  unfold lockOf ofSize
  rw [List.getElem?_replicate]
  split <;> rfl

theorem lockOf_take {table : LockTable} {i : Nat} (hi : i < table.size) (t : Nat)
    (mode : LockMode) (j : Nat) :
    (table.take t mode i).lockOf j =
      if i = j then (table.lockOf j).grant t mode else table.lockOf j := by
  unfold size at hi
  by_cases h : i = j
  · subst h
    simp [lockOf, take, hi]
  · simp [lockOf, take, List.getElem?_set_ne h, h]

@[simp] theorem lockOf_release (table : LockTable) (t i : Nat) :
    (table.release t).lockOf i = (table.lockOf i).release t := by
  unfold lockOf release
  rw [List.getElem?_map]
  cases table.locks[i]? with
  | none => rfl
  | some lock => rfl

theorem ext_lockOf {table table' : LockTable} (hsize : table.size = table'.size)
    (h : ∀ i, table.lockOf i = table'.lockOf i) : table = table' := by
  cases table with | mk locks =>
  cases table' with | mk locks' =>
  refine congrArg LockTable.mk (List.ext_getElem hsize fun i hi hi' => ?_)
  have hi := h i
  simpa [lockOf, *] using hi

theorem mem_heldBy {table : LockTable} {t i : Nat} :
    i ∈ table.heldBy t ↔ (table.lockOf i).owner? = some t ∨ t ∈ (table.lockOf i).sharers := by
  unfold heldBy lockOf
  rw [← Lock.heldBy_iff]
  simp only [List.mem_filterMap, Prod.exists, List.mem_zipIdx_iff_getElem?]
  constructor
  · rintro ⟨lock, position, hget, hheld⟩
    split at hheld
    · next hl =>
      cases hheld
      rw [hget]
      exact hl
    · cases hheld
  · intro hheld
    cases hget : table.locks[i]? with
    | none =>
      rw [hget] at hheld
      cases hheld
    | some lock =>
      rw [hget] at hheld
      exact ⟨lock, i, hget, if_pos hheld⟩

theorem request_of_lt {table : LockTable} {record : RecordId} (h : record.toNat < table.size)
    (t : Nat) (mode : LockMode) :
    table.request t mode record =
      if ((table.lockOf record.toNat).blockers t mode).isEmpty then
        .ok (table.take t mode record.toNat, .granted)
      else
        .ok (table, .denied ((table.lockOf record.toNat).blockers t mode)) := by
  unfold size at h
  simp only [request, take, lockOf, List.getElem?_eq_getElem h, Option.getD_some]

theorem request_of_ge {table : LockTable} {record : RecordId} (h : table.size ≤ record.toNat)
    (t : Nat) (mode : LockMode) :
    table.request t mode record = .error (.recordOutOfBounds record table.size) := by
  simp only [request, List.getElem?_eq_none h]

end LockTable

end TwoPhase
