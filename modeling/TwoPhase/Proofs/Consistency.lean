import TwoPhase.Proofs.Holding

/-!
# The store between commits

`History.storeWith A initial` redoes, on the initial store, the events of the
committed transactions and of those in `A`. The invariant `Consistent` says how
these stores, the current store and the locks fit together: whatever set `A` of
unfinished transactions is taken, a record owned by a member of `A` holds what it
holds now, and any other record what it holds after the committed transactions
alone. With it come two facts about an unfinished transaction: its events see the
committed store, and what it wrote is what is stored.
-/

namespace TwoPhase

namespace History

/-- The store after the committed transactions and those in `A`. -/
def storeWith (h : History) (A : Nat → Bool) (initial : Store) : Store :=
  redoAll (h.eventsWhere fun u => h.committed u || A u) initial

def committedStore (h : History) (initial : Store) : Store :=
  h.storeWith (fun _ => false) initial

@[simp] theorem size_storeWith (h : History) (A : Nat → Bool) (initial : Store) :
    (h.storeWith A initial).size = initial.size := size_redoAll ..

theorem Built.committedReplay_eq {h : History} (hb : h.Built) {initial : Store}
    (hfits : ∀ t, ∀ e ∈ h.eventsOf t, e.Fits initial.size) :
    h.committedReplay initial = .ok (h.committedStore initial) := by
  unfold committedReplay committedStore storeWith
  rw [hb.replayWhere_eq h.committed hfits]
  simp only [Bool.or_false]

theorem Built.committed_append_of_ne {h : History} (hb : h.Built) {t : Nat} {e : Event}
    (ht : h.committed t = false) (he : e ≠ .commit) :
    (h.append t e).committed = h.committed := by
  funext u
  rw [hb.committed_append]
  split
  · next htu => rw [← htu, ht, decide_eq_false he]
  · rfl

theorem Built.storeWith_append {h : History} (hb : h.Built) {t : Nat} {e : Event}
    (ht : h.committed t = false) (he : e ≠ .commit) (A : Nat → Bool) (initial : Store) :
    (h.append t e).storeWith A initial =
      if A t then e.redo (h.storeWith A initial) else h.storeWith A initial := by
  unfold storeWith
  rw [hb.committed_append_of_ne ht he, eventsWhere_append, redoAll_append, ht, Bool.false_or]
  split <;> rfl

theorem Built.committedStore_append {h : History} (hb : h.Built) {t : Nat} {e : Event}
    (ht : h.committed t = false) (he : e ≠ .commit) (initial : Store) :
    (h.append t e).committedStore initial = h.committedStore initial :=
  hb.storeWith_append ht he ..

theorem Built.storeWith_commit {h : History} (hb : h.Built) (t : Nat) (A : Nat → Bool)
    (initial : Store) :
    (h.append t .commit).storeWith A initial =
      h.storeWith (fun u => A u || decide (u = t)) initial := by
  have hcounts : (fun u => (h.append t .commit).committed u || A u) =
      fun u => h.committed u || (A u || decide (u = t)) := by
    funext u
    rw [hb.committed_append]
    by_cases hu : t = u
    · simp [hu]
    · simp [hu, Ne.symm hu]
  unfold storeWith
  rw [hcounts, eventsWhere_append, redoAll_append]
  split <;> rfl

end History

def Database.owner? (db : Database) (i : Nat) : Option Nat := (db.locks.lockOf i).owner?

structure Consistent (store : Store) (db : Database) (ts : List Transaction) : Prop where
  uncommitted : ∀ u, Unfinished ts u → db.history.committed u = false
  owned : ∀ A, (∀ u, A u = true → Unfinished ts u) → ∀ i u, A u = true → db.owner? i = some u →
    (db.history.storeWith A store).value? i = db.store.value? i
  unowned : ∀ A, (∀ u, A u = true → Unfinished ts u) → ∀ i,
    (∀ u, A u = true → db.owner? i ≠ some u) →
    (db.history.storeWith A store).value? i = (db.history.committedStore store).value? i
  free : ∀ i, db.owner? i = none →
    db.store.value? i = (db.history.committedStore store).value? i
  sees : ∀ u, Unfinished ts u →
    SeesAll (db.history.committedStore store) (db.history.eventsOf u)
  wrote : ∀ u, Unfinished ts u → ∀ i, Writes i (db.history.eventsOf u) →
    db.store.value? i =
      (redoAll (db.history.eventsOf u) (db.history.committedStore store)).value? i

section
variable {store : Store} {programs : List Program} {db db' : Database}
  {ts ts' : List Transaction} {p : Nat} {t t' : Transaction} {deed : Deed}

/-! ## Owners -/

theorem LocksMatch.eq_of_touches (hl : LocksMatch db ts) {i u v : Nat} (hu : Unfinished ts u)
    (hi : Touches i (db.history.eventsOf u)) (ho : db.owner? i = some v) : u = v := by
  rcases hl.conflicts_exclusive hu hi with hou | ⟨-, hs⟩
  · exact Option.some.inj (hou.symm.trans ho)
  · exact absurd hs (Lock.sharers_of_owner ho)

theorem Database.owner?_ne_none {i u : Nat} (h : db.owner? i = some u) : ¬ db.owner? i = none := by
  rw [h]
  exact nofun

theorem Database.eq_of_owner? {mode : LockMode} {record : RecordId} {v : Nat}
    (free : (db.blockers t.id mode record).isEmpty = true)
    (hv : db.owner? record.toNat = some v) : v = t.id := by
  by_cases h : v = t.id
  · exact h
  · exact absurd (.inl hv) (Lock.not_conflicts free h)

theorem Database.owner?_access {mode : LockMode} {record : RecordId} {e : Event}
    (hlt : record.toNat < db.locks.size)
    (free : (db.blockers t.id mode record).isEmpty = true)
    (hwrite : ∀ i, e.Writes i ↔ mode = .exclusive ∧ record.toNat = i)
    (hlocks : db'.locks = db.locks.take t.id mode record.toNat) (i u : Nat) :
    db'.owner? i = some u ↔ db.owner? i = some u ∨ e.Writes i ∧ u = t.id := by
  unfold owner?
  rw [hlocks, LockTable.lockOf_take hlt, hwrite]
  by_cases hi : record.toNat = i
  · subst hi
    rw [if_pos rfl, Lock.owner?_grant free]
    simp
  · simp [hi]

theorem Database.owner?_release (hlocks : db'.locks = db.locks.release t.id) (i u : Nat) :
    db'.owner? i = some u ↔ u ≠ t.id ∧ db.owner? i = some u := by
  unfold owner?
  rw [hlocks, LockTable.lockOf_release, Lock.owner?_release]

/-- A record that becomes free was free or belonged to the one that ended. -/
theorem Database.owner?_eq_none_of_release (hlocks : db'.locks = db.locks.release t.id) {i : Nat}
    (h : db'.owner? i = none) : db.owner? i = none ∨ db.owner? i = some t.id := by
  cases ho : db.owner? i with
  | none => exact .inl rfl
  | some v =>
    by_cases hv : v = t.id
    · exact .inr (hv ▸ rfl)
    · exact absurd h (owner?_ne_none ((owner?_release hlocks i v).2 ⟨hv, ho⟩))

/-! ## The invariant is kept -/

theorem WellFormed.size_committedStore (hw : WellFormed store programs db ts) :
    (db.history.committedStore store).size = db.store.size := by
  rw [History.committedStore, History.size_storeWith, hw.storeSize]

namespace Consistent

theorem start (store : Store) (ts : List Transaction) :
    Consistent store (.ofStore store) ts := by
  have howner : ∀ i, (Database.ofStore store).owner? i = none := by
    intro i
    rw [Database.owner?, Database.ofStore, LockTable.lockOf_ofSize]
    rfl
  constructor
  case uncommitted =>
    intro u _
    rfl
  case owned =>
    intro A _ i u _ ho
    exact absurd (howner i) (Database.owner?_ne_none ho)
  case unowned =>
    intro A _ i _
    rfl
  case free =>
    intro i _
    rfl
  case sees =>
    intro u _
    trivial
  case wrote =>
    intro u _ i hw
    exact absurd hw (writes_nil i)

theorem congr (hc : Consistent store db ts) (hstore : db'.store = db.store)
    (hlocks : db'.locks = db.locks) (hhist : db'.history = db.history)
    (hunf : ∀ u, Unfinished ts' u ↔ Unfinished ts u) : Consistent store db' ts' := by
  have howner : db'.owner? = db.owner? := by
    funext i
    rw [Database.owner?, hlocks, Database.owner?]
  constructor
  case uncommitted =>
    intro u hu
    rw [hhist]
    exact hc.uncommitted u ((hunf u).1 hu)
  case owned =>
    intro A hA i u hu ho
    rw [hhist, hstore]
    exact hc.owned A (fun v hv => (hunf v).1 (hA v hv)) i u hu (howner ▸ ho)
  case unowned =>
    intro A hA i hi
    rw [hhist]
    exact hc.unowned A (fun v hv => (hunf v).1 (hA v hv)) i (howner ▸ hi)
  case free =>
    intro i hi
    rw [hhist, hstore]
    exact hc.free i (howner ▸ hi)
  case sees =>
    intro u hu
    rw [hhist]
    exact hc.sees u ((hunf u).1 hu)
  case wrote =>
    intro u hu i hi
    rw [hhist] at hi ⊢
    rw [hstore]
    exact hc.wrote u ((hunf u).1 hu) i hi

/-- A transaction finds in the store what the committed store and its own writes make of it. -/
theorem value?_of_touch (hc : Consistent store db ts) (hl : LocksMatch db ts) {mode : LockMode}
    {record : RecordId} (hu : Unfinished ts t.id)
    (free : (db.blockers t.id mode record).isEmpty = true) :
    db.store.value? record.toNat =
      (redoAll (db.history.eventsOf t.id)
        (db.history.committedStore store)).value? record.toNat := by
  by_cases hw : Writes record.toNat (db.history.eventsOf t.id)
  · exact hc.wrote t.id hu _ hw
  · rw [value?_redoAll_of_not_writes hw]
    apply hc.free
    cases ho : db.owner? record.toNat with
    | none => rfl
    | some v =>
      have hv := Database.eq_of_owner? free ho
      subst hv
      exact absurd ((hl.owner _ _).1 ho).2 hw

/-- What a transaction reads or overwrites next is what it sees after its own events. -/
theorem sees_append (hc : Consistent store db ts) (hw : WellFormed store programs db ts)
    (hl : LocksMatch db ts) {mode : LockMode} {record : RecordId} {e : Event}
    (hu : Unfinished ts t.id) (free : (db.blockers t.id mode record).isEmpty = true)
    (htouch : ∀ i, e.Touches i ↔ record.toNat = i) (sees : e.Sees db.store) :
    SeesAll (db.history.committedStore store) (db.history.eventsOf t.id ++ [e]) := by
  rw [seesAll_append]
  refine ⟨hc.sees t.id hu, seesAll_congr (s := db.store) ?_ (fun i hi => ?_) ⟨sees, trivial⟩⟩
  · rw [size_redoAll, hw.size_committedStore]
  · obtain ⟨e', he', hi⟩ := hi
    rw [List.mem_singleton.1 he', htouch] at hi
    rw [← hi]
    exact hc.value?_of_touch hl hu free

theorem wrote_append (hc : Consistent store db ts) (hw : WellFormed store programs db ts)
    (hu : Unfinished ts t.id) {e : Event} {i : Nat}
    (hi : Writes i (db.history.eventsOf t.id ++ [e])) :
    (e.redo db.store).value? i =
      (redoAll (db.history.eventsOf t.id ++ [e]) (db.history.committedStore store)).value? i := by
  rw [redoAll_append]
  refine Event.value?_redo_congr ?_ ?_
  · rw [size_redoAll, hw.size_committedStore]
  · rw [writes_append, or_comm] at hi
    refine hi.imp (fun ⟨e', he', h⟩ => ?_) (hc.wrote t.id hu i)
    rwa [List.mem_singleton.1 he'] at h

theorem access (hc : Consistent store db ts) (hw : WellFormed store programs db ts)
    (hl : LocksMatch db ts) {mode : LockMode} {record : RecordId} {e : Event}
    (hlt : record.toNat < db.locks.size) (hu : Unfinished ts t.id)
    (free : (db.blockers t.id mode record).isEmpty = true) (hne : e ≠ .commit)
    (htouch : ∀ i, e.Touches i ↔ record.toNat = i)
    (hwrite : ∀ i, e.Writes i ↔ mode = .exclusive ∧ record.toNat = i) (sees : e.Sees db.store)
    (hstore : db'.store = e.redo db.store)
    (hlocks : db'.locks = db.locks.take t.id mode record.toNat)
    (hhist : db'.history = db.history.append t.id e)
    (hunf : ∀ u, Unfinished ts' u ↔ Unfinished ts u) : Consistent store db' ts' := by
  have hT := hc.uncommitted t.id hu
  have howner := Database.owner?_access hlt free hwrite hlocks
  have hCS : db'.history.committedStore store = db.history.committedStore store := by
    rw [hhist]
    exact hw.built.committedStore_append hT hne store
  have hwith : ∀ A i, ¬ (A t.id = true ∧ e.Writes i) →
      (db'.history.storeWith A store).value? i = (db.history.storeWith A store).value? i := by
    intro A i hn
    rw [hhist, hw.built.storeWith_append hT hne]
    split
    · next hA => exact Event.value?_redo_of_not_writes fun he => hn ⟨hA, he⟩
    · rfl
  have hown : ∀ i v, e.Writes i → db.owner? i = some v → v = t.id := by
    intro i v hi hv
    rw [← ((hwrite i).1 hi).2] at hv
    exact Database.eq_of_owner? free hv
  constructor
  case uncommitted =>
    intro u hu'
    rw [hhist, hw.built.committed_append_of_ne hT hne]
    exact hc.uncommitted u ((hunf u).1 hu')
  case owned =>
    intro A hA i u hAu ho
    have hA' := fun v hv => (hunf v).1 (hA v hv)
    rw [hstore]
    by_cases hi : e.Writes i
    · have hut : u = t.id := ((howner i u).1 ho).elim (hown i u hi) And.right
      subst hut
      rw [hhist, hw.built.storeWith_append hT hne, if_pos hAu]
      have hsize : (db.history.storeWith A store).size = db.store.size := by
        rw [History.size_storeWith, hw.storeSize]
      exact Event.value?_redo_congr hsize (.inl hi)
    · have ho' := ((howner i u).1 ho).resolve_right fun h => hi h.1
      rw [hwith A i fun h => hi h.2, Event.value?_redo_of_not_writes hi]
      exact hc.owned A hA' i u hAu ho'
  case unowned =>
    intro A hA i hi
    rw [hCS, hwith A i fun h => hi t.id h.1 ((howner i t.id).2 (.inr ⟨h.2, rfl⟩))]
    exact hc.unowned A (fun v hv => (hunf v).1 (hA v hv)) i
      fun v hv ho => hi v hv ((howner i v).2 (.inl ho))
  case free =>
    intro i hi
    have hn : ¬ e.Writes i := fun he =>
      Database.owner?_ne_none ((howner i t.id).2 (.inr ⟨he, rfl⟩)) hi
    rw [hCS, hstore, Event.value?_redo_of_not_writes hn]
    apply hc.free
    cases ho : db.owner? i with
    | none => rfl
    | some v => exact absurd hi (Database.owner?_ne_none ((howner i v).2 (.inl ho)))
  case sees =>
    intro u hu'
    rw [hCS, hhist]
    by_cases hut : u = t.id
    · subst hut
      rw [History.eventsOf_append_self]
      exact hc.sees_append hw hl hu free htouch sees
    · rw [History.eventsOf_append_other _ _ hut]
      exact hc.sees u ((hunf u).1 hu')
  case wrote =>
    intro u hu' i hi
    rw [hCS, hstore, hhist]
    rw [hhist] at hi
    by_cases hut : u = t.id
    · subst hut
      rw [History.eventsOf_append_self] at hi ⊢
      exact hc.wrote_append hw hu hi
    · rw [History.eventsOf_append_other _ _ hut] at hi ⊢
      have hu'' := (hunf u).1 hu'
      have hn : ¬ e.Writes i := fun he => hut (hown i u he ((hl.owner i u).2 ⟨hu'', hi⟩))
      rw [Event.value?_redo_of_not_writes hn]
      exact hc.wrote u hu'' i hi

/-- What one unfinished transaction would leave behind if it committed now. -/
theorem storeWith_self (hc : Consistent store db ts) (hl : LocksMatch db ts)
    (hu : Unfinished ts t.id) :
    db.history.storeWith (fun u => decide (u = t.id)) store =
      redoAll (db.history.eventsOf t.id) (db.history.committedStore store) := by
  have hA : ∀ u, decide (u = t.id) = true → Unfinished ts u := fun u h =>
    of_decide_eq_true h ▸ hu
  refine Store.ext_value? fun i => ?_
  by_cases hi : Writes i (db.history.eventsOf t.id)
  · have ho : db.owner? i = some t.id := (hl.owner i t.id).2 ⟨hu, hi⟩
    rw [hc.owned _ hA i t.id (decide_eq_true rfl) ho]
    exact hc.wrote t.id hu i hi
  · rw [value?_redoAll_of_not_writes hi]
    refine hc.unowned _ hA i fun u h ho => hi ?_
    rw [of_decide_eq_true h] at ho
    exact ((hl.owner i t.id).1 ho).2

theorem commit (hc : Consistent store db ts) (hw : WellFormed store programs db ts)
    (hl : LocksMatch db ts) (hu : Unfinished ts t.id) (hstore : db'.store = db.store)
    (hlocks : db'.locks = db.locks.release t.id)
    (hhist : db'.history = db.history.append t.id .commit)
    (hunf : ∀ u, Unfinished ts' u ↔ u ≠ t.id ∧ Unfinished ts u) : Consistent store db' ts' := by
  have howner := Database.owner?_release hlocks
  have hwith : ∀ A, db'.history.storeWith A store =
      db.history.storeWith (fun u => A u || decide (u = t.id)) store := fun A => by
    rw [hhist]
    exact hw.built.storeWith_commit t.id A store
  have hself : ∀ u, decide (u = t.id) = true → Unfinished ts u := fun u h =>
    of_decide_eq_true h ▸ hu
  have hCS : db'.history.committedStore store =
      db.history.storeWith (fun u => decide (u = t.id)) store := by
    rw [History.committedStore, hwith]
    simp only [Bool.false_or]
  have hjoin : ∀ A : Nat → Bool, (∀ u, A u = true → Unfinished ts' u) →
      ∀ u, (A u || decide (u = t.id)) = true → Unfinished ts u := by
    intro A hA u h
    rcases Bool.or_eq_true_iff.1 h with h | h
    · exact ((hunf u).1 (hA u h)).2
    · exact hself u h
  have hkeep : ∀ i, db.owner? i ≠ some t.id →
      (db'.history.committedStore store).value? i =
        (db.history.committedStore store).value? i := by
    intro i hi
    rw [hCS]
    exact hc.unowned _ hself i fun u h ho => hi (of_decide_eq_true h ▸ ho)
  have hsize : (db.history.committedStore store).size =
      (db'.history.committedStore store).size := by
    simp only [History.committedStore, History.size_storeWith]
  constructor
  case uncommitted =>
    intro u hu'
    obtain ⟨hne, hu'⟩ := (hunf u).1 hu'
    rw [hhist, hw.built.committed_append, if_neg hne.symm]
    exact hc.uncommitted u hu'
  case owned =>
    intro A hA i u hAu ho
    rw [hwith, hstore]
    exact hc.owned _ (hjoin A hA) i u (by simp [hAu]) ((howner i u).1 ho).2
  case unowned =>
    intro A hA i hi
    rw [hwith]
    by_cases ho : db.owner? i = some t.id
    · rw [hCS, hc.owned _ hself i t.id (decide_eq_true rfl) ho,
        hc.owned _ (hjoin A hA) i t.id (by simp) ho]
    · rw [hkeep i ho]
      refine hc.unowned _ (hjoin A hA) i fun u h hou => ?_
      rcases Bool.or_eq_true_iff.1 h with h | h
      · exact hi u h ((howner i u).2 ⟨((hunf u).1 (hA u h)).1, hou⟩)
      · exact ho (of_decide_eq_true h ▸ hou)
  case free =>
    intro i hi
    rw [hstore]
    rcases Database.owner?_eq_none_of_release hlocks hi with ho | ho
    · rw [hkeep i (by rw [ho]; exact nofun)]
      exact hc.free i ho
    · rw [hCS]
      exact (hc.owned _ hself i t.id (decide_eq_true rfl) ho).symm
  case sees =>
    intro u hu'
    obtain ⟨hne, hu'⟩ := (hunf u).1 hu'
    rw [hhist, History.eventsOf_append_other _ _ hne, ← hhist]
    refine seesAll_congr hsize (fun i hi => ?_) (hc.sees u hu')
    exact (hkeep i fun ho => hne (hl.eq_of_touches hu' hi ho)).symm
  case wrote =>
    intro u hu' i hi
    obtain ⟨hne, hu'⟩ := (hunf u).1 hu'
    have hevents : db'.history.eventsOf u = db.history.eventsOf u := by
      rw [hhist, History.eventsOf_append_other _ _ hne]
    rw [hevents] at hi ⊢
    rw [hstore, hc.wrote u hu' i hi]
    exact value?_redoAll_congr hsize (.inl hi)

theorem abort (hc : Consistent store db ts) (hw : WellFormed store programs db ts)
    (hl : LocksMatch db ts) (hu : Unfinished ts t.id)
    (hstore : db'.store = undoAll (db.history.eventsOf t.id) db.store)
    (hlocks : db'.locks = db.locks.release t.id)
    (hhist : db'.history = db.history.append t.id .abort)
    (hunf : ∀ u, Unfinished ts' u ↔ u ≠ t.id ∧ Unfinished ts u) : Consistent store db' ts' := by
  have hT := hc.uncommitted t.id hu
  have hne : Event.abort ≠ .commit := nofun
  have howner := Database.owner?_release hlocks
  have hwith : ∀ A, db'.history.storeWith A store = db.history.storeWith A store := fun A => by
    rw [hhist, hw.built.storeWith_append hT hne]
    split <;> rfl
  have hCS : db'.history.committedStore store = db.history.committedStore store := hwith _
  have hback : ∀ i, db.owner? i = some t.id →
      db'.store.value? i = (db.history.committedStore store).value? i := by
    intro i ho
    rw [hstore]
    exact value?_undoAll hw.size_committedStore.symm (hc.sees t.id hu) ((hl.owner i t.id).1 ho).2
  have hkeep : ∀ i, db.owner? i ≠ some t.id → db'.store.value? i = db.store.value? i := by
    intro i ho
    rw [hstore]
    exact value?_undoAll_of_not_writes fun hi => ho ((hl.owner i t.id).2 ⟨hu, hi⟩)
  constructor
  case uncommitted =>
    intro u hu'
    rw [hhist, hw.built.committed_append_of_ne hT hne]
    exact hc.uncommitted u ((hunf u).1 hu').2
  case owned =>
    intro A hA i u hAu ho
    obtain ⟨hne, ho⟩ := (howner i u).1 ho
    rw [hwith, hkeep i (by rw [ho]; exact fun h => hne (Option.some.inj h))]
    exact hc.owned A (fun v hv => ((hunf v).1 (hA v hv)).2) i u hAu ho
  case unowned =>
    intro A hA i hi
    rw [hwith, hCS]
    refine hc.unowned A (fun v hv => ((hunf v).1 (hA v hv)).2) i fun v hv ho => ?_
    exact hi v hv ((howner i v).2 ⟨((hunf v).1 (hA v hv)).1, ho⟩)
  case free =>
    intro i hi
    rw [hCS]
    rcases Database.owner?_eq_none_of_release hlocks hi with ho | ho
    · rw [hkeep i (by rw [ho]; exact nofun)]
      exact hc.free i ho
    · exact hback i ho
  case sees =>
    intro u hu'
    obtain ⟨hne, hu'⟩ := (hunf u).1 hu'
    rw [hCS, hhist, History.eventsOf_append_other _ _ hne]
    exact hc.sees u hu'
  case wrote =>
    intro u hu' i hi
    obtain ⟨hne, hu'⟩ := (hunf u).1 hu'
    rw [hCS, hhist, History.eventsOf_append_other _ _ hne]
    rw [hhist, History.eventsOf_append_other _ _ hne] at hi
    have ho : db.owner? i = some u := (hl.owner i u).2 ⟨hu', hi⟩
    rw [hkeep i (by rw [ho]; exact fun h => hne (Option.some.inj h))]
    exact hc.wrote u hu' i hi

end Consistent

theorem Evolves.consistent (h : Evolves store programs db ts) : Consistent store db ts := by
  induction h with
  | start => exact .start _ _
  | @act db db' ts p t t' deed he ht ha ih =>
    have hw := he.wellFormed
    have hl := he.locksMatch
    have hu := ha.unfinished ht
    have hacts := ha
    cases ha with
    | denied pending =>
      exact ih.congr rfl rfl rfl fun u => hw.unfinished_keep ht hacts hacts.outcome_eq_none
    | access pending request free matched sees =>
      exact ih.access hw hl (hw.lockSize ▸ hw.record_lt ht pending request) hu free
        (Operation.ne_commit_of_matches matched request)
        (Operation.touches_of_matches matched request)
        (Operation.writes_of_matches matched request) sees rfl rfl rfl
        fun u => hw.unfinished_keep ht hacts hacts.outcome_eq_none
    | commit pending =>
      exact ih.commit hw hl hu rfl rfl rfl fun u => hw.unfinished_drop ht hacts nofun
    | abort unfinished =>
      exact ih.abort hw hl hu rfl rfl rfl fun u => hw.unfinished_drop ht hacts nofun

namespace Consistent

/-- Only a commit changes what replaying the committed transactions gives. -/
theorem committedStore_act (hc : Consistent store db ts) (hw : WellFormed store programs db ts)
    (ht : ts[p]? = some t) (ha : Acts db t deed db' t') (hdeed : deed ≠ .done .commit) :
    db'.history.committedStore store = db.history.committedStore store := by
  cases deed with
  | denied blockers => rw [ha.history_denied]
  | done e =>
    have he : e ≠ .commit := fun he => hdeed (he ▸ rfl)
    rw [ha.history_done]
    exact hw.built.committedStore_append (hc.uncommitted t.id (ha.unfinished ht)) he store

/-- Once nobody is unfinished, nobody owns a record, and the store is the committed one. -/
theorem store_eq (hc : Consistent store db ts) (hl : LocksMatch db ts)
    (hnone : ∀ u, ¬ Unfinished ts u) : db.store = db.history.committedStore store := by
  refine Store.ext_value? fun i => hc.free i ?_
  cases ho : db.owner? i with
  | none => rfl
  | some u => exact absurd ((hl.owner i u).1 ho).1 (hnone u)

end Consistent

end

end TwoPhase
