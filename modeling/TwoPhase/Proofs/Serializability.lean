import TwoPhase.Proofs.Calls
import TwoPhase.Proofs.Consistency

/-!
# Serializability in commit order

However the turns of the transactions interleave, the committed ones might as well
have run one after the other, in the order of their commits: the serial execution
of their programs leaves the store that replaying the committed transactions gives,
and every one of them saw exactly what it sees there.

* `Logged`: the history has one event for each operation a transaction has done.
* `Serialized`: the serial execution of the committed programs, as an invariant; a
  commit adds one program to it.
* `commit_order_serializable`: the statement for every reached ring.
-/

namespace TwoPhase

namespace History

def commits (h : History) : List Entry := h.entries.filter (·.kind = .commit)

theorem commits_append (h : History) (t : Nat) (e : Event) :
    (h.append t e).commits.map (·.transaction) =
      h.commits.map (·.transaction) ++ if e = .commit then [t] else [] := by
  unfold commits append
  by_cases he : e = .commit
  · simp [he]
  · simp [he]

theorem Built.commits_ascending {h : History} (hb : h.Built) :
    (h.commits.map (·.lsn)).Pairwise (· < ·) := by
  have hall : (h.entries.map (·.lsn)).Pairwise (· < ·) := by
    rw [hb.map_lsn]
    exact List.pairwise_lt_range
  exact hall.sublist (List.filter_sublist.map _)

end History

/-- The events of a transaction are those of the operations it has done, in order, and an abort if
it was aborted. -/
def Logged (db : Database) (t : Transaction) : Prop :=
  ∃ events, List.Forall₂ Operation.Matches (t.program.operations.take t.cursor) events ∧
    db.history.eventsOf t.id =
      events ++ if t.outcome = some .aborted then [.abort] else []

/-- The committed transactions, in the order of their commits, run serially to the committed
store, with the events they have in the history. -/
structure Serialized (store : Store) (db : Database) (ts order : List Transaction) : Prop where
  ids : order.map (·.id) = db.history.commits.map (·.transaction)
  committed : ∀ t, t ∈ order ↔ t ∈ ts ∧ t.outcome = some .committed
  nodup : order.Nodup
  serial : performPrograms (order.map (·.program)) store =
    .ok (db.history.committedStore store, order.map fun t => db.history.eventsOf t.id)

section
variable {store : Store} {programs : List Program} {settings : Settings} {db db' : Database}
  {ts order : List Transaction} {p : Nat} {t t' : Transaction} {deed : Deed}

theorem Logged.events {t : Transaction} (h : Logged db t) (hout : t.outcome = none) :
    List.Forall₂ Operation.Matches (t.program.operations.take t.cursor)
      (db.history.eventsOf t.id) := by
  obtain ⟨events, hm, he⟩ := h
  rw [hout, if_neg nofun, List.append_nil] at he
  exact he ▸ hm

theorem Logged.act (h : Logged db t) (ha : Acts db t deed db' t') : Logged db' t' := by
  have hm := h.events ha.outcome_eq_none
  cases ha with
  | denied pending => exact h
  | @access _ _ _ e pending request free matched sees =>
    have hout := (Transaction.pending?_eq_some.1 pending).1
    refine ⟨db.history.eventsOf t.id ++ [e], ?_, ?_⟩
    · rw [List.take_add_one, (Transaction.pending?_eq_some.1 pending).2]
      exact List.rel_append hm (.cons matched .nil)
    · simp [hout]
  | commit pending =>
    refine ⟨db.history.eventsOf t.id ++ [.commit], ?_, ?_⟩
    · rw [List.take_add_one, (Transaction.pending?_eq_some.1 pending).2]
      exact List.rel_append hm (.cons trivial .nil)
    · simp [Database.finish]
  | abort unfinished => exact ⟨db.history.eventsOf t.id, hm, by simp [Database.finish]⟩

theorem Evolves.logged (h : Evolves store programs db ts) : ∀ t ∈ ts, Logged db t := by
  induction h with
  | start hts =>
    intro t ht
    obtain ⟨p, hp⟩ := List.mem_iff_getElem?.1 ht
    rw [((Ring.enlist_spec hts).2 p t hp).2]
    exact ⟨[], .nil, rfl⟩
  | @act db db' ts p t t' deed he ht ha ih =>
    intro x hx
    rcases (he.wellFormed.mem_set ht).1 hx with rfl | ⟨hx, hne⟩
    · exact (ih t (List.mem_of_getElem? ht)).act ha
    · obtain ⟨events, hm, hev⟩ := ih x hx
      exact ⟨events, hm, (ha.eventsOf_other hne).trans hev⟩

theorem Serialized.id_ne (h : Serialized store db ts order) (hw : WellFormed store programs db ts)
    (ht : ts[p]? = some t) (hout : t.outcome = none) : ∀ x ∈ order, x.id ≠ t.id := by
  intro x hx hid
  obtain ⟨hx, hxout⟩ := (h.committed x).1 hx
  rw [hw.eq_of_id hx (List.mem_of_getElem? ht) hid, hout] at hxout
  cases hxout

/-- A deed that is not a commit leaves the committed transactions and all they did. -/
theorem Serialized.keep (h : Serialized store db ts order) (hw : WellFormed store programs db ts)
    (hc : Consistent store db ts) (ht : ts[p]? = some t) (ha : Acts db t deed db' t')
    (hdeed : deed ≠ .done .commit) : Serialized store db' (ts.set p t') order := by
  have hout := ha.outcome_eq_none
  have hout' : t'.outcome ≠ some .committed := by
    cases ha with
    | commit => exact absurd rfl hdeed
    | abort => exact nofun
    | denied => rw [show _ = t.outcome from rfl, hout]; exact nofun
    | access => rw [show _ = t.outcome from rfl, hout]; exact nofun
  have hother := h.id_ne hw ht hout
  have hcommits : db'.history.commits.map (·.transaction) =
      db.history.commits.map (·.transaction) := by
    cases deed with
    | denied blockers => rw [ha.history_denied]
    | done e =>
      have he : e ≠ .commit := fun he => hdeed (he ▸ rfl)
      rw [ha.history_done, History.commits_append, if_neg he, List.append_nil]
  constructor
  case ids =>
    rw [hcommits]
    exact h.ids
  case committed =>
    intro x
    rw [h.committed, hw.mem_set ht]
    constructor
    · rintro ⟨hx, hxout⟩
      exact ⟨.inr ⟨hx, hother x ((h.committed x).2 ⟨hx, hxout⟩)⟩, hxout⟩
    · rintro ⟨rfl | ⟨hx, -⟩, hxout⟩
      · exact absurd hxout hout'
      · exact ⟨hx, hxout⟩
  case nodup =>
    exact h.nodup
  case serial =>
    rw [hc.committedStore_act hw ht ha hdeed, h.serial]
    congr 2
    refine List.map_congr_left fun x hx => ?_
    exact (ha.eventsOf_other (hother x hx)).symm

theorem Serialized.commit (h : Serialized store db ts order) (hw : WellFormed store programs db ts)
    (hl : LocksMatch db ts) (hc : Consistent store db ts) (hlog : Logged db t)
    (ht : ts[p]? = some t) (ha : Acts db t (.done .commit) db' t') :
    Serialized store db' (ts.set p t') (order ++ [t']) := by
  have hout := ha.outcome_eq_none
  have hu := ha.unfinished ht
  have hnew : t'.outcome = some .committed ∧ t.program.operations[t.cursor]? = some .commit := by
    cases ha with
    | access pending request free matched =>
      exact absurd rfl (Operation.ne_commit_of_matches matched request)
    | commit pending => exact ⟨rfl, (Transaction.pending?_eq_some.1 pending).2⟩
  have hother := h.id_ne hw ht hout
  have hevents : db'.history.eventsOf t'.id = db.history.eventsOf t.id ++ [.commit] := by
    rw [ha.id_eq, ha.history_done, History.eventsOf_append_self]
  have hCS : db'.history.committedStore store =
      redoAll (db.history.eventsOf t.id) (db.history.committedStore store) := by
    rw [← hc.storeWith_self hl hu, ha.history_done, History.committedStore,
      hw.built.storeWith_commit]
    simp only [Bool.false_or]
  have hlast : performAll t'.program.operations (db.history.committedStore store) =
      .ok (db'.history.committedStore store, db'.history.eventsOf t'.id) := by
    rw [performAll_eq_ok_iff, ha.program_eq, hevents, hCS, seesAll_append, redoAll_append]
    refine ⟨?_, ⟨hc.sees t.id hu, trivial, trivial⟩, rfl⟩
    rw [← Program.take_append_commit hnew.2]
    exact List.rel_append (hlog.events hout) (.cons trivial .nil)
  constructor
  case ids =>
    rw [ha.history_done, History.commits_append, if_pos rfl, List.map_append, h.ids, ← ha.id_eq]
    rfl
  case committed =>
    intro x
    rw [List.mem_append, List.mem_singleton, h.committed, hw.mem_set ht]
    constructor
    · rintro (⟨hx, hxout⟩ | rfl)
      · exact ⟨.inr ⟨hx, hother x ((h.committed x).2 ⟨hx, hxout⟩)⟩, hxout⟩
      · exact ⟨.inl rfl, hnew.1⟩
    · rintro ⟨rfl | ⟨hx, -⟩, hxout⟩
      · exact .inr rfl
      · exact .inl ⟨hx, hxout⟩
  case nodup =>
    refine List.nodup_append.2 ⟨h.nodup, List.nodup_singleton t', fun x hx y hy hxy => ?_⟩
    rw [hxy, List.mem_singleton.1 hy] at hx
    exact hother t' hx ha.id_eq
  case serial =>
    rw [List.map_append, List.map_append]
    have hold : (order.map fun x => db'.history.eventsOf x.id) =
        order.map fun x => db.history.eventsOf x.id :=
      List.map_congr_left fun x hx => ha.eventsOf_other (hother x hx)
    rw [hold]
    exact performPrograms_concat h.serial hlast

theorem Evolves.serialized (h : Evolves store programs db ts) :
    ∃ order, Serialized store db ts order := by
  induction h with
  | start hts =>
    refine ⟨[], rfl, fun t => ⟨nofun, fun ⟨ht, hout⟩ => ?_⟩, List.nodup_nil, rfl⟩
    obtain ⟨p, hp⟩ := List.mem_iff_getElem?.1 ht
    rw [((Ring.enlist_spec hts).2 p t hp).2] at hout
    cases hout
  | @act db db' ts p t t' deed he ht ha ih =>
    obtain ⟨order, ih⟩ := ih
    by_cases hdeed : deed = .done .commit
    · subst hdeed
      have hlog := he.logged t (List.mem_of_getElem? ht)
      exact ⟨_, ih.commit he.wellFormed he.locksMatch he.consistent hlog ht ha⟩
    · exact ⟨order, ih.keep he.wellFormed he.consistent ht ha hdeed⟩

theorem WellFormed.nodup (hw : WellFormed store programs db ts) : ts.Nodup := by
  refine List.nodup_iff_getElem?_ne_getElem?.2 fun i j hij hj h => ?_
  obtain ⟨t, ht⟩ : ∃ t, ts[j]? = some t := ⟨_, List.getElem?_eq_getElem hj⟩
  have hi := hw.ids i t (h.trans ht)
  have hj := hw.ids j t ht
  omega

/-- **Commit-order serializability.** In every reached ring the committed transactions, run
serially in the order of their commits, give the committed replay of the history, and the entries
of each of them carry exactly the values it sees in the serial execution. -/
theorem commit_order_serializable {turns : List Turn} {ring : Ring}
    (h : Ring.Reached store programs settings turns ring) :
    ∃ (order : List Transaction) (final : Store) (traces : List (List Event)),
      order.Perm (ring.transactions.filter (·.outcome = some .committed)) ∧
      order.map (·.id) = ring.database.history.commits.map (·.transaction) ∧
      (ring.database.history.commits.map (·.lsn)).Pairwise (· < ·) ∧
      performPrograms (order.map (·.program)) store = .ok (final, traces) ∧
      ring.database.history.committedReplay store = .ok final ∧
      List.Forall₂ (fun t trace =>
        (ring.database.history.entriesOf t.id).map Entry.event? = trace.map some) order traces := by
  have he := h.evolves
  have hw := he.wellFormed
  obtain ⟨order, hs⟩ := he.serialized
  refine ⟨order, _, _, ?_, hs.ids, hw.built.commits_ascending, hs.serial,
    hw.built.committedReplay_eq hw.fits, ?_⟩
  · refine (List.perm_ext_iff_of_nodup hs.nodup (hw.nodup.filter _)).2 fun t => ?_
    rw [hs.committed, List.mem_filter, decide_eq_true_eq]
  · rw [List.forall₂_map_right_iff, List.forall₂_same]
    exact fun t _ => hw.built.map_event?_entriesOf t.id

/-- T2 is aborted, and T3 reads what T1 wrote. -/
theorem commit_order_serializable_crossing :
    ∃ (turns : List Turn) (ring : Ring) (order : List Transaction) (traces : List (List Event)),
      Ring.Reached ⟨[5, 6]⟩ crossing ⟨2⟩ turns ring ∧ order.map (·.id) = [1, 3] ∧
      performPrograms (order.map (·.program)) ⟨[5, 6]⟩ = .ok (⟨[7, 1]⟩, traces) := by
  obtain ⟨turns, ring, hr, hcommits, hreplay⟩ :=
    Ring.exists_reached ⟨[5, 6]⟩ crossing ⟨2⟩ 18
      (fun ring => ring.database.history.commits.map (·.transaction) = [1, 3] ∧
        (ring.database.history.committedReplay ⟨[5, 6]⟩).toOption = some ⟨[7, 1]⟩)
      (by decide +kernel)
  obtain ⟨order, final, traces, -, hids, -, hserial, hfinal, -⟩ := commit_order_serializable hr
  have : final = ⟨[7, 1]⟩ := by
    rw [hfinal] at hreplay
    exact Option.some.inj hreplay
  exact ⟨turns, ring, order, traces, hr, hids.trans hcommits, this ▸ hserial⟩

end

end TwoPhase
