import TwoPhase.Proofs.Account
import TwoPhase.Proofs.Detection

/-!
# Survivors of a deadlock

A deadlock is broken by aborting its victim. The other members of the cycle survive: each
still has the operation pending that it was denied, and the victim is no longer in its way.
That the next turn of one of them is a success does not follow: others may be in its way as
well, and others may come first and take the record.

* `Plays.survivor`: what a turn that breaks a deadlock leaves of its cycle.
* `Evolves.conflicts_since`: in the way is who was before, or has taken the record since,
  and is unfinished.
* `Reached.exists_next_turn`: the next turn of an unfinished transaction comes within a
  round, unless it is aborted first.
* `survivor_runs_iff`: when the next turn of a survivor is a success.
* `no_survivor_runs`: a deadlock after which the next turn of no survivor is.
-/

namespace TwoPhase

/-- While its transaction is unfinished, the entry bars others from taking `record` in `mode`. -/
def Entry.Bars (entry : Entry) (mode : LockMode) (record : RecordId) : Prop :=
  entry.record = some record ∧ (entry.kind = .write ∨ mode = .exclusive)

section
variable {store : Store} {programs : List Program} {settings : Settings}
  {turns earlier : List Turn} {db db' : Database} {ts ts' : List Transaction}
  {p u a patience : Nat} {t : Transaction} {op : Operation} {mode : LockMode} {record : RecordId}
  {ring last broken : Ring} {turn : Turn} {d : Deadlock}

/-! ## Locks and later entries -/

theorem Evolves.conflicts_iff (h : Evolves store programs db ts) :
    (db.locks.lockOf record.toNat).Conflicts u mode ↔
      Unfinished ts u ∧
        ∃ entry ∈ db.history.entries, entry.transaction = u ∧ entry.Bars mode record := by
  have hl := h.locksMatch
  have hb := h.wellFormed.built
  constructor
  · rintro (howner | ⟨hmode, hsharer⟩)
    · obtain ⟨hu, entry, hmem, hkind, hid, hrecord⟩ := (hl.owner_iff hb).1 howner
      exact ⟨hu, entry, hmem, hid, hrecord, .inl hkind⟩
    · obtain ⟨hu, ⟨entry, hmem, -, hid, hrecord⟩, -⟩ := (hl.sharer_iff hb).1 hsharer
      exact ⟨hu, entry, hmem, hid, hrecord, .inr hmode⟩
  · rintro ⟨hu, entry, hmem, rfl, hrecord, hmode⟩
    obtain ⟨i, hi⟩ := List.mem_iff_getElem?.1 hmem
    exact hl.conflicts_of_entry hb hi hu hrecord hmode

/-- Who is in the way later was so before or has taken the record since. -/
theorem Evolves.conflicts_since (h : Evolves store programs db ts)
    (h' : Evolves store programs db' ts') {later : List Entry}
    (hlog : db'.history.entries = db.history.entries ++ later)
    (hunf : Unfinished ts' u → Unfinished ts u) :
    (db'.locks.lockOf record.toNat).Conflicts u mode ↔
      Unfinished ts' u ∧ ((db.locks.lockOf record.toNat).Conflicts u mode ∨
        ∃ entry ∈ later, entry.transaction = u ∧ entry.Bars mode record) := by
  rw [h'.conflicts_iff, h.conflicts_iff, hlog]
  refine and_congr_right fun hu => ?_
  rw [and_iff_right (hunf hu)]
  simp only [List.mem_append, or_and_right, exists_or]

theorem lasting_log (entries : List Entry) :
    Lasting store programs fun db _ => entries <+: db.history.entries := by
  intro db db' ts p t t' deed _ _ ha hlog
  cases deed with
  | denied blockers => rwa [ha.history_denied]
  | done e =>
    rw [ha.history_done]
    exact hlog.trans (List.prefix_append ..)

theorem lasting_not_unfinished (u : Nat) :
    Lasting store programs fun _ ts => ¬ Unfinished ts u := by
  intro db db' ts p t t' deed he ht ha hfin hu
  rcases (he.wellFormed.unfinished_set ht ha).1 hu with ⟨rfl, -⟩ | ⟨-, hu⟩
  · exact hfin (ha.unfinished ht)
  · exact hfin hu

theorem Ring.Turns.leadsTo (h : ring.Turns turns last) : ring.LeadsTo last := by
  induction h with
  | nil => exact .refl
  | cons _ hturn ih => exact .turn ih hturn

theorem Ring.Reached.conflicts_turns (h : Ring.Reached store programs settings earlier ring)
    (hturns : ring.Turns turns last) :
    (last.database.locks.lockOf record.toNat).Conflicts u mode ↔
      Unfinished last.transactions u ∧
        ((ring.database.locks.lockOf record.toNat).Conflicts u mode ∨
          ∃ entry ∈ last.database.history.entries.drop ring.database.history.length,
            entry.transaction = u ∧ entry.Bars mode record) := by
  obtain ⟨later, hlater⟩ := (lasting_log ring.database.history.entries).leadsTo h.evolves
    List.prefix_rfl hturns.leadsTo
  have hdrop : last.database.history.entries.drop ring.database.history.length = later := by
    rw [← hlater]
    exact List.drop_left
  rw [hdrop]
  refine h.evolves.conflicts_since (h.append hturns).evolves hlater.symm fun hu => ?_
  by_contra hfin
  exact (lasting_not_unfinished u).leadsTo h.evolves hfin hturns.leadsTo hu

/-! ## The turns of others -/

theorem Plays.mem_of_other (hp : Plays patience db ts p turn db' ts')
    (hw : WellFormed store programs db ts) (ht : t ∈ ts) (hother : turn.transaction ≠ t.id)
    (hspare : ∀ d, turn.deadlock = some d → d.victim ≠ t.id) : t ∈ ts' := by
  cases hp with
  | idle => exact ht
  | progress hpos => exact (hw.mem_set hpos).2 (.inr ⟨ht, hother.symm⟩)
  | denied hpos => exact (hw.mem_set hpos).2 (.inr ⟨ht, hother.symm⟩)
  | broken hpos ha hd hv hid hab =>
    refine ((hw.act hpos ha).mem_set hv).2 (.inr ⟨(hw.mem_set hpos).2 (.inr ⟨ht, ?_⟩), ?_⟩)
    · exact hother.symm
    · rw [hid]
      exact (hspare _ rfl).symm

theorem Ring.Reached.mem_of_others (h : Ring.Reached store programs settings earlier ring)
    (hturns : ring.Turns turns last) (ht : t ∈ ring.transactions)
    (hothers : ∀ turn ∈ turns, turn.transaction ≠ t.id) (hspare : Spares (· = t.id) turns) :
    t ∈ last.transactions := by
  induction hturns with
  | nil => exact ht
  | @cons turns mid last turn hturns hturn ih =>
    have hmid := (h.append hturns).evolves
    have hmem := ih (fun x hx => hothers x (List.mem_cons_of_mem _ hx))
      fun x hx => hspare x (List.mem_cons_of_mem _ hx)
    exact (hmid.plays hturn).mem_of_other hmid.wellFormed hmem (hothers turn List.mem_cons_self)
      (hspare turn List.mem_cons_self)

theorem Ring.Turns.first (h : ring.Turns turns last) (hmem : ∃ turn ∈ turns, turn.transaction = a) :
    ∃ sooner before after next, ring.Turns sooner before ∧ sooner.length < turns.length ∧
      (∀ turn ∈ sooner, turn.transaction ≠ a) ∧
      before.turn = .ok (after, some next) ∧ next.transaction = a := by
  induction h with
  | nil => cases hmem with | intro turn hturn => cases hturn.1
  | @cons turns mid last newest hturns hturn ih =>
    by_cases hsooner : ∃ turn ∈ turns, turn.transaction = a
    · obtain ⟨sooner, before, after, next, hbefore, hlt, hnext⟩ := ih hsooner
      exact ⟨sooner, before, after, next, hbefore, Nat.lt_succ_of_lt hlt, hnext⟩
    · obtain ⟨turn, hmem, ha⟩ := hmem
      have hnone : ∀ turn ∈ turns, turn.transaction ≠ a := fun x hx hxa => hsooner ⟨x, hx, hxa⟩
      rcases List.mem_cons.1 hmem with rfl | hmem
      · exact ⟨turns, mid, last, turn, hturns, Nat.lt_succ_self _, hnone, hturn, ha⟩
      · exact absurd ha (hnone turn hmem)

/-- The next turn of an unfinished transaction comes within a round, unless it is aborted first. -/
theorem Ring.Reached.exists_next_turn (h : Ring.Reached store programs settings earlier ring)
    (ht : t ∈ ring.transactions) (hout : t.outcome = none) :
    ∃ between before, ring.Turns between before ∧ between.length < programs.length ∧
      (∀ turn ∈ between, turn.transaction ≠ t.id) ∧
      (¬ Spares (· = t.id) between ∨
        ∃ after next, before.turn = .ok (after, some next) ∧ next.transaction = t.id) := by
  obtain ⟨turns, last, hturns, hle, hend⟩ := h.exists_turns programs.length
  by_cases hmem : ∃ turn ∈ turns, turn.transaction = t.id
  · obtain ⟨sooner, before, after, next, hsooner, hlt, hothers, hturn, hid⟩ := hturns.first hmem
    exact ⟨sooner, before, hsooner, by omega, hothers, .inr ⟨after, next, hturn, hid⟩⟩
  · have hothers : ∀ turn ∈ turns, turn.transaction ≠ t.id := fun x hx hid => hmem ⟨x, hx, hid⟩
    have hlen : turns.length ≠ programs.length := by
      intro hlen
      have hw := h.evolves.wellFormed
      obtain ⟨q, hq⟩ := List.mem_iff_getElem?.1 ht
      obtain ⟨turn, hturn, hid⟩ := h.exists_turn_mem hturns (Nat.le_of_eq hlen.symm)
        (hw.length_eq ▸ (List.getElem?_eq_some_iff.1 hq).1)
      exact hothers turn hturn (hid.trans (hw.ids q t hq).symm)
    refine ⟨turns, last, hturns, by omega, hothers, .inl fun hspare => ?_⟩
    have hlast := h.mem_of_others hturns ht hothers hspare
    have hfin := (h.append hturns).counted.isFinished_iff.1 (hend.resolve_left hlen)
    exact hfin t hlast hout

/-! ## Survivors -/

theorem Plays.progressed_iff (hp : Plays patience db ts p turn db' ts')
    (hw : WellFormed store programs db ts) (ht : t ∈ ts) (hid : turn.transaction = t.id)
    (hpending : t.pending? = some op) (hrequest : op.request? = some (mode, record)) :
    (∃ lsn, turn.step = .progressed lsn) ↔ (db.blockers t.id mode record).isEmpty = true := by
  have hself : ∀ {x : Transaction}, ts[p]? = some x → x.id = t.id → x = t := fun hx =>
    hw.eq_of_id (List.mem_of_getElem? hx) ht
  cases hp with
  | idle hx hnone =>
    obtain rfl := hself hx hid
    rw [hpending] at hnone
    cases hnone
  | progress hx ha hne =>
    obtain rfl := hself hx hid
    have hdeed : Deed.done _ ≠ .done .abort := fun h => hne (Deed.done.inj h)
    rcases ha.of_request hpending hrequest hdeed with ⟨hfree, -⟩ | ⟨-, hdenied⟩
    · exact iff_of_true ⟨_, rfl⟩ hfree
    · cases hdenied
  | denied hx ha =>
    obtain rfl := hself hx hid
    rcases ha.of_request hpending hrequest nofun with ⟨-, e, hdone⟩ | ⟨hblocked, -⟩
    · cases hdone
    · exact iff_of_false nofun hblocked
  | broken hx ha =>
    obtain rfl := hself hx hid
    rcases ha.of_request hpending hrequest nofun with ⟨-, e, hdone⟩ | ⟨hblocked, -⟩
    · cases hdone
    · exact iff_of_false nofun hblocked

/-- A member of a broken cycle other than the victim keeps its pending operation, and only the
victim is no longer in its way. -/
theorem Plays.survivor (hp : Plays patience db ts p turn db' ts')
    (he : Evolves store programs db ts) (hd : turn.deadlock = some d) (ha : a ∈ d.cycle)
    (hne : a ≠ d.victim) :
    ∃ t ∈ ts', t.id = a ∧ ∃ op mode record, t.pending? = some op ∧
      op.request? = some (mode, record) ∧
      ∀ u, u ∈ db'.blockers a mode record ↔ u ≠ d.victim ∧ u ∈ db.blockers a mode record := by
  cases hp with
  | broken hpos hacts hfind hv hid hab =>
    cases hd
    have hmid := he.act hpos hacts
    obtain ⟨b, -, t, ht, rfl, op, mode, record, hpending, hrequest, -⟩ := hmid.knotted hfind a ha
    refine ⟨t, ?_, rfl, op, mode, record, hpending, hrequest, fun u => ?_⟩
    · exact (hmid.wellFormed.mem_set hv).2 (.inr ⟨ht, hid ▸ hne⟩)
    · obtain ⟨rfl, -⟩ := hab.abort_inv
      obtain ⟨rfl, -⟩ := hacts.denied_inv
      show u ∈ ((db.locks.release _).lockOf record.toNat).blockers t.id mode ↔
        _ ∧ u ∈ (db.locks.lockOf record.toNat).blockers t.id mode
      rw [LockTable.lockOf_release, Lock.mem_blockers, Lock.mem_blockers, Lock.conflicts_release,
        hid, and_left_comm]
  | _ => cases hd

theorem Ring.Reached.isEmpty_blockers_iff (h : Ring.Reached store programs settings earlier ring)
    (hturns : ring.Turns turns last) :
    (last.database.blockers a mode record).isEmpty = true ↔
      (∀ u ∈ ring.database.blockers a mode record, ¬ Unfinished last.transactions u) ∧
      ∀ entry ∈ last.database.history.entries.drop ring.database.history.length,
        entry.Bars mode record → entry.transaction ≠ a →
        ¬ Unfinished last.transactions entry.transaction := by
  unfold Database.blockers
  simp only [IdSet.isEmpty_iff, Lock.mem_blockers, h.conflicts_turns hturns]
  constructor
  · intro hnone
    constructor
    · exact fun u hu hunf => hnone u ⟨hu.1, hunf, .inl hu.2⟩
    · exact fun entry hmem hbars hne hunf => hnone _ ⟨hne, hunf, .inr ⟨entry, hmem, rfl, hbars⟩⟩
  · rintro ⟨hformer, hlater⟩ u ⟨hne, hunf, hc | ⟨entry, hmem, rfl, hbars⟩⟩
    · exact hformer u ⟨hne, hc⟩ hunf
    · exact hlater entry hmem hbars hne hunf

theorem Plays.unfinished_of_progressed (hp : Plays patience db ts p turn db' ts') {lsn : Nat}
    (hstep : turn.step = .progressed lsn) : Unfinished ts turn.transaction := by
  cases hp with
  | progress ht ha => exact ha.unfinished ht
  | _ => cases hstep

/-- What lets `a` take `record` in `mode` after the turns `between`, which lead from `broken` to
`before`; `victim` was aborted by the turn that made `broken` of `ring`. -/
structure Ring.Cleared (ring broken before : Ring) (between : List Turn) (victim a : Nat)
    (mode : LockMode) (record : RecordId) : Prop where
  spared : Spares (· = a) between
  /-- Those who were in its way along with the victim have finished. -/
  others : ∀ u ∈ ring.database.blockers a mode record, u ≠ victim →
    ¬ Unfinished before.transactions u
  /-- Those who have taken the record since have finished. -/
  newcomers : ∀ entry ∈ before.database.history.entries.drop broken.database.history.length,
    entry.Bars mode record → entry.transaction ≠ a →
    ¬ Unfinished before.transactions entry.transaction

/-- **When a survivor runs.** Let a turn break a deadlock. A member of the cycle other than the
victim still has an operation pending that asks for a lock. Its next turn comes within a round
unless it is aborted before, and is a success exactly if it has not been aborted, all who were in
its way along with the victim have finished, and so have all who took the record in the meantime. -/
theorem survivor_runs_iff (h : Ring.Reached store programs settings earlier ring)
    (hturn : ring.turn = .ok (broken, some turn)) (hd : turn.deadlock = some d)
    (ha : a ∈ d.cycle) (hne : a ≠ d.victim) :
    ∃ t ∈ broken.transactions, t.id = a ∧ ∃ op mode record, t.pending? = some op ∧
      op.request? = some (mode, record) ∧
      (∃ between before, broken.Turns between before ∧ between.length < programs.length ∧
        (∀ turn ∈ between, turn.transaction ≠ a) ∧
        (¬ Spares (· = a) between ∨
          ∃ after next, before.turn = .ok (after, some next) ∧ next.transaction = a)) ∧
      ∀ between before after next, broken.Turns between before →
        (∀ turn ∈ between, turn.transaction ≠ a) → before.turn = .ok (after, some next) →
        next.transaction = a →
        ((∃ lsn, next.step = .progressed lsn) ↔
          ring.Cleared broken before between d.victim a mode record) := by
  have hbroken := h.turn hturn
  obtain ⟨t, ht, rfl, op, mode, record, hpending, hrequest, hblockers⟩ :=
    (h.evolves.plays hturn).survivor h.evolves hd ha hne
  have hout := (Transaction.pending?_eq_some.1 hpending).1
  refine ⟨t, ht, rfl, op, mode, record, hpending, hrequest, hbroken.exists_next_turn ht hout, ?_⟩
  intro between before after next hbetween hothers hnext hid
  have hbefore := (hbroken.append hbetween).evolves
  have hplays := hbefore.plays hnext
  have hclear : (before.database.blockers t.id mode record).isEmpty = true ↔ _ :=
    hbroken.isEmpty_blockers_iff hbetween
  simp only [hblockers, and_imp] at hclear
  constructor
  · rintro ⟨lsn, hstep⟩
    have hspared : Spares (· = t.id) between := by
      intro x hx d' hd' hvictim
      have habort := (hbroken.aborted_turns hbetween).2 (.inr ⟨x, hx, d', hd', hvictim⟩)
      have hunf := hid ▸ hplays.unfinished_of_progressed hstep
      exact hbefore.wellFormed.not_aborted_of_unfinished hunf habort
    have hmem := hbroken.mem_of_others hbetween ht hothers hspared
    obtain ⟨hformer, hlater⟩ := hclear.1
      ((hplays.progressed_iff hbefore.wellFormed hmem hid hpending hrequest).1 ⟨lsn, hstep⟩)
    exact ⟨hspared, fun u hu hv => hformer u hv hu, hlater⟩
  · rintro ⟨hspared, hformer, hlater⟩
    have hmem := hbroken.mem_of_others hbetween ht hothers hspared
    refine (hplays.progressed_iff hbefore.wellFormed hmem hid hpending hrequest).2 (hclear.2 ?_)
    exact ⟨fun u hv hu => hformer u hu hv, hlater⟩

/-- T1 and T2 deadlock and T2 is aborted. T3 is denied once more; then T1 gets its record. -/
theorem survivor_runs_iff_crossing :
    ∃ (earlier between : List Turn) (ring broken before after : Ring) (turn next : Turn)
      (mode : LockMode) (record : RecordId),
      Ring.Reached ⟨[5, 6]⟩ crossing ⟨1⟩ earlier ring ∧
      ring.turn = .ok (broken, some turn) ∧ turn.deadlock = some ⟨[1, 2], 2⟩ ∧
      broken.Turns between before ∧ between.map (·.transaction) = [3] ∧
      before.turn = .ok (after, some next) ∧ next.transaction = 1 ∧
      (∃ lsn, next.step = .progressed lsn) ∧
      ring.Cleared broken before between 2 1 mode record := by
  obtain ⟨earlier, ring, hr, hcheck⟩ :=
    Ring.exists_reached ⟨[5, 6]⟩ crossing ⟨1⟩ 4
      (fun ring => ring.nextTurns [(·.deadlock = some ⟨[1, 2], 2⟩), (·.transaction = 3),
        fun next => next.transaction = 1 ∧ next.step = .progressed 3])
      (by decide +kernel)
  obtain ⟨broken, turn, hturn, hd, hcheck⟩ := Ring.exists_of_nextTurns hcheck
  obtain ⟨before, other, hother, hthree, hcheck⟩ := Ring.exists_of_nextTurns hcheck
  obtain ⟨after, next, hnext, hlast, -⟩ := Ring.exists_of_nextTurns hcheck
  have hthree := of_decide_eq_true hthree
  obtain ⟨hone, hstep⟩ := of_decide_eq_true hlast
  have hbetween : broken.Turns [other] before := .cons .nil hother
  obtain ⟨t, -, -, op, mode, record, -, -, -, hiff⟩ :=
    survivor_runs_iff hr hturn (of_decide_eq_true hd) (a := 1) (by decide) (by decide)
  have hcleared := (hiff [other] before after next hbetween (by simp [hthree]) hnext hone).1
    ⟨3, hstep⟩
  exact ⟨earlier, [other], ring, broken, before, after, turn, next, mode, record, hr, hturn,
    of_decide_eq_true hd, hbetween, by simp [hthree], hnext, hone, ⟨3, hstep⟩, hcleared⟩

/-- T2 and T3 share the record that T1 wants for itself. When T1 and T2 deadlock, T3 has something
left to do. -/
def sharedRecord : List Program :=
  [⟨[.write 1 10, .write 0 11, .commit], by decide⟩,
    ⟨[.read 0, .write 1 20, .commit], by decide⟩,
    ⟨[.read 0, .read 0, .commit], by decide⟩]

/-- **A deadlock is broken in vain.** T1 and T2 deadlock and T2 is aborted, yet the next turn of T1
is denied, because T3 still shares the record. -/
theorem no_survivor_runs :
    ∃ (earlier : List Turn) (ring broken : Ring) (turn : Turn) (d : Deadlock),
      Ring.Reached ⟨[5, 6]⟩ sharedRecord ⟨1⟩ earlier ring ∧
      ring.turn = .ok (broken, some turn) ∧ turn.deadlock = some d ∧
      ∀ a ∈ d.cycle, a ≠ d.victim → ∃ between before after next,
        broken.Turns between before ∧ (∀ turn ∈ between, turn.transaction ≠ a) ∧
        before.turn = .ok (after, some next) ∧ next.transaction = a ∧
        ∀ lsn, next.step ≠ .progressed lsn := by
  obtain ⟨earlier, ring, hr, hcheck⟩ :=
    Ring.exists_reached ⟨[5, 6]⟩ sharedRecord ⟨1⟩ 4
      (fun ring => ring.nextTurns [(·.deadlock = some ⟨[1, 2], 2⟩), (·.transaction = 3),
        fun next => next.transaction = 1 ∧ next.step = .denied 2 (.singleton 3)])
      (by decide +kernel)
  obtain ⟨broken, turn, hturn, hd, hcheck⟩ := Ring.exists_of_nextTurns hcheck
  obtain ⟨before, other, hother, hthree, hcheck⟩ := Ring.exists_of_nextTurns hcheck
  obtain ⟨after, next, hnext, hlast, -⟩ := Ring.exists_of_nextTurns hcheck
  have hthree := of_decide_eq_true hthree
  obtain ⟨hone, hstep⟩ := of_decide_eq_true hlast
  refine ⟨earlier, ring, broken, turn, _, hr, hturn, of_decide_eq_true hd, fun a ha hne => ?_⟩
  obtain rfl : a = 1 := by
    rcases List.mem_pair.1 ha with rfl | rfl
    · rfl
    · exact absurd rfl hne
  refine ⟨[other], before, after, next, .cons .nil hother, by simp [hthree], hnext, hone, ?_⟩
  rw [hstep]
  exact nofun

end

end TwoPhase
