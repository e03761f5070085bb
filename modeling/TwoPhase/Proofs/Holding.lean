import TwoPhase.Proofs.Evolution

/-!
# Locks and events

The lock table says the same as the history: an unfinished transaction has for
itself exactly the records it wrote, and shares exactly those it read and did not
write; nobody else holds anything (`Evolves.locksMatch`). Both phases of two-phase
locking are in this: locks are taken before the event and kept to the end.
-/

namespace TwoPhase

structure LocksMatch (db : Database) (ts : List Transaction) : Prop where
  owner : ∀ i u, (db.locks.lockOf i).owner? = some u ↔
    Unfinished ts u ∧ Writes i (db.history.eventsOf u)
  sharer : ∀ i u, u ∈ (db.locks.lockOf i).sharers ↔
    Unfinished ts u ∧ Touches i (db.history.eventsOf u) ∧ ¬ Writes i (db.history.eventsOf u)

section
variable {store : Store} {programs : List Program} {db db' : Database} {ts : List Transaction}
  {p : Nat} {t t' : Transaction} {deed : Deed}

namespace LocksMatch

/-- Whoever is in the way of a request has a lock, so it is unfinished and touched the record. -/
theorem of_conflicts (h : LocksMatch db ts) {i u : Nat} {mode : LockMode}
    (hc : (db.locks.lockOf i).Conflicts u mode) :
    Unfinished ts u ∧ Touches i (db.history.eventsOf u) := by
  rcases hc with ho | ⟨-, hs⟩
  · exact ⟨((h.owner i u).1 ho).1, ((h.owner i u).1 ho).2.touches⟩
  · exact ⟨((h.sharer i u).1 hs).1, ((h.sharer i u).1 hs).2.1⟩

/-- An unfinished transaction conflicts with every exclusive request for a record it touched. -/
theorem conflicts_exclusive (h : LocksMatch db ts) {i u : Nat} (hu : Unfinished ts u)
    (ht : Touches i (db.history.eventsOf u)) : (db.locks.lockOf i).Conflicts u .exclusive := by
  by_cases hw : Writes i (db.history.eventsOf u)
  · exact .inl ((h.owner i u).2 ⟨hu, hw⟩)
  · exact .inr ⟨rfl, (h.sharer i u).2 ⟨hu, ht, hw⟩⟩

theorem congr (h : LocksMatch db ts) {ts' : List Transaction}
    (hunf : ∀ u, Unfinished ts' u ↔ Unfinished ts u) : LocksMatch db ts' :=
  ⟨fun i u => by rw [hunf]; exact h.owner i u, fun i u => by rw [hunf]; exact h.sharer i u⟩

theorem start (store : Store) (ts : List Transaction) : LocksMatch (.ofStore store) ts where
  owner i u := by
    rw [show (Database.ofStore store).locks = .ofSize store.size from rfl,
      LockTable.lockOf_ofSize]
    exact ⟨nofun, fun ⟨_, hw⟩ => absurd hw (writes_nil i)⟩
  sharer i u := by
    rw [show (Database.ofStore store).locks = .ofSize store.size from rfl,
      LockTable.lockOf_ofSize]
    exact ⟨fun h => absurd h (IdSet.notMem_empty u), fun ⟨_, ⟨_, he, _⟩, _⟩ => by cases he⟩

theorem finish (h : LocksMatch db ts) (hw : WellFormed store programs db ts)
    (ht : ts[p]? = some t) (ha : Acts db t deed db' t') (hout : t'.outcome ≠ none) {e : Event}
    (hlocks : db'.locks = db.locks.release t.id) (hhist : db'.history = db.history.append t.id e) :
    LocksMatch db' (ts.set p t') := by
  constructor
  case owner =>
    intro i u
    rw [hlocks, LockTable.lockOf_release, Lock.owner?_release, h.owner, hhist,
      hw.unfinished_drop ht ha hout, and_assoc]
    refine and_congr_right fun hu => ?_
    rw [History.eventsOf_append_other _ _ hu]
  case sharer =>
    intro i u
    rw [hlocks, LockTable.lockOf_release, Lock.mem_sharers_release, h.sharer, hhist,
      hw.unfinished_drop ht ha hout, and_assoc]
    refine and_congr_right fun hu => ?_
    rw [History.eventsOf_append_other _ _ hu]

theorem access (h : LocksMatch db ts) {mode : LockMode} {record : RecordId} {e : Event}
    (hlt : record.toNat < db.locks.size) (hu : Unfinished ts t.id)
    (free : (db.blockers t.id mode record).isEmpty = true)
    (htouch : ∀ i, e.Touches i ↔ record.toNat = i)
    (hwrite : ∀ i, e.Writes i ↔ mode = .exclusive ∧ record.toNat = i)
    (hlocks : db'.locks = db.locks.take t.id mode record.toNat)
    (hhist : db'.history = db.history.append t.id e) : LocksMatch db' ts := by
  constructor
  case owner =>
    intro i u
    rw [hlocks, LockTable.lockOf_take hlt, hhist]
    by_cases hi : record.toNat = i
    · subst hi
      rw [if_pos rfl, Lock.owner?_grant free, h.owner]
      by_cases hut : u = t.id
      · subst hut
        simp [hwrite, hu]
      · rw [History.eventsOf_append_other _ _ hut]
        simp [hut]
    · rw [if_neg hi, h.owner, History.eventsOf_append]
      split
      · simp [Writes, hwrite, hi]
      · rw [List.append_nil]
  case sharer =>
    intro i u
    rw [hlocks, LockTable.lockOf_take hlt, hhist]
    by_cases hi : record.toNat = i
    · subst hi
      rw [if_pos rfl]
      by_cases hut : u = t.id
      · -- the requester shares the record unless it has, or now takes, all of it
        subst hut
        rw [Lock.mem_sharers_grant]
        have howner : (db.locks.lockOf record.toNat).owner? = none ↔
            ¬ Writes record.toNat (db.history.eventsOf t.id) := by
          cases ho : (db.locks.lockOf record.toNat).owner? with
          | none =>
            refine ⟨fun _ hw => ?_, fun _ => rfl⟩
            rw [(h.owner _ _).2 ⟨hu, hw⟩] at ho
            cases ho
          | some v =>
            have hv : v = t.id := by
              by_cases hv : v = t.id
              · exact hv
              · exact absurd (.inl ho) (Lock.not_conflicts free hv)
            subst hv
            have hwrote := ((h.owner _ _).1 ho).2
            simp [hwrote]
        rw [howner, History.eventsOf_append_self]
        cases mode with
        | shared => simp [hu, htouch, hwrite, Writes, Touches]
        | exclusive => simp [hwrite, Writes]
      · rw [History.eventsOf_append_other _ _ hut, ← h.sharer]
        exact Lock.mem_sharers_grant_other free hut
    · rw [if_neg hi, h.sharer, History.eventsOf_append]
      split
      · simp [Writes, Touches, hwrite, htouch, hi]
      · rw [List.append_nil]

end LocksMatch

/-- **Locks are a function of the history**, in every state that deeds lead to. -/
theorem Evolves.locksMatch (h : Evolves store programs db ts) : LocksMatch db ts := by
  induction h with
  | start => exact .start _ _
  | @act db db' ts p t t' deed he ht ha ih =>
    have hw := he.wellFormed
    cases ha with
    | denied pending request blocked =>
      have hacts := Acts.denied pending request blocked
      refine LocksMatch.congr ?_ fun u => hw.unfinished_keep ht hacts hacts.outcome_eq_none
      exact ⟨ih.owner, ih.sharer⟩
    | access pending request free matched sees =>
      have hacts := Acts.access pending request free matched sees
      refine LocksMatch.congr ?_ fun u => hw.unfinished_keep ht hacts hacts.outcome_eq_none
      exact ih.access (hw.lockSize ▸ hw.record_lt ht pending request) (hacts.unfinished ht) free
        (Operation.touches_of_matches matched request)
        (Operation.writes_of_matches matched request) rfl rfl
    | commit pending => exact ih.finish hw ht (.commit pending) nofun rfl rfl
    | abort unfinished => exact ih.finish hw ht (.abort unfinished) nofun rfl rfl

end

end TwoPhase
