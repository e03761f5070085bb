import TwoPhase.Proofs.RoundRobin

/-!
# Workloads without conflicts

If no program touches a record that another one writes, nobody ever has to wait, and the run
is known before it starts.

* `ConflictFree`: no record is written by one program and touched by another. Then nobody
  obstructs anybody (`ConflictFree.unhindered`), so the run is a round robin.
* `Program.lastWrite?`: what a program leaves in a record. The writes of others do not
  concern it, so this is also what the run leaves there (`ConflictFree.value?_store`).
* `conflictFree_runs_in_turn`: the log, the number of turns and the final store, in closed
  form.
-/

namespace TwoPhase

/-! ## Writers -/

def Operation.valueFor? (i : Nat) : Operation → Option Value
  | write record value => if record.toNat = i then some value else none
  | _ => none

def Event.valueFor? (i : Nat) : Event → Option Value
  | write record _ new => if record.toNat = i then some new else none
  | _ => none

namespace Program

def written (program : Program) : List RecordId :=
  program.operations.filterMap Operation.written?

def lastWrite? (program : Program) (i : Nat) : Option Value :=
  (program.operations.filterMap (Operation.valueFor? i)).getLast?

/-- Neither program touches what the other writes. -/
def Apart (p q : Program) : Prop :=
  (∀ r ∈ p.written, r ∉ q.records) ∧ ∀ r ∈ q.written, r ∉ p.records

-- by going through the lists, not through all records there could be
instance (p q : Program) : Decidable (p.Apart q) :=
  @instDecidableAnd _ _ (List.decidableBAll _ p.written) (List.decidableBAll _ q.written)

theorem Apart.symm {p q : Program} (h : p.Apart q) : q.Apart p := And.symm h

end Program

/-- No record that one program writes is touched by another. -/
def ConflictFree (programs : List Program) : Prop := programs.Pairwise Program.Apart

instance (programs : List Program) : Decidable (ConflictFree programs) :=
  inferInstanceAs (Decidable (List.Pairwise _ _))

theorem ConflictFree.apart {programs : List Program} (h : ConflictFree programs) {i j : Nat}
    {p q : Program} (hp : programs[i]? = some p) (hq : programs[j]? = some q) (hij : i ≠ j) :
    p.Apart q := by
  obtain ⟨hi, rfl⟩ := List.getElem?_eq_some_iff.1 hp
  obtain ⟨hj, rfl⟩ := List.getElem?_eq_some_iff.1 hq
  have hall := List.pairwise_iff_getElem.1 h
  rcases Nat.lt_or_gt_of_ne hij with hlt | hgt
  · exact hall i j hi hj hlt
  · exact (hall j i hj hi hgt).symm

/-! ## What events leave in a record -/

theorem Event.value?_redo {s : Store} {i : Nat} (h : i < s.size) (e : Event) :
    (e.redo s).value? i = (e.valueFor? i).or (s.value? i) := by
  cases e with
  | write record old new =>
    rw [redo, Store.value?_put, valueFor?, if_pos h]
    split <;> rfl
  | _ => rfl

theorem value?_redoAll {s : Store} {i : Nat} (h : i < s.size) (events : List Event) :
    (redoAll events s).value? i =
      (events.filterMap (Event.valueFor? i)).getLast?.or (s.value? i) := by
  induction events generalizing s with
  | nil => rfl
  | cons e rest ih =>
    rw [redoAll, ih (by simpa using h), Event.value?_redo h, List.filterMap_cons]
    cases e.valueFor? i with
    | none => rfl
    | some v =>
      rw [List.getLast?_cons]
      cases (rest.filterMap (Event.valueFor? i)).getLast? <;> rfl

theorem Operation.Matches.valueFor?_eq {op : Operation} {e : Event} (h : op.Matches e) (i : Nat) :
    e.valueFor? i = op.valueFor? i := by
  cases op with
  | read record =>
    cases e with
    | read => rfl
    | _ => cases h
  | write record value =>
    cases e with
    | write =>
      obtain ⟨rfl, rfl⟩ := h
      rfl
    | _ => cases h
  | commit =>
    cases e with
    | commit => rfl
    | _ => cases h

theorem filterMap_valueFor? {ops : List Operation} {events : List Event}
    (h : List.Forall₂ Operation.Matches ops events) (i : Nat) :
    events.filterMap (Event.valueFor? i) = ops.filterMap (Operation.valueFor? i) := by
  induction h with
  | nil => rfl
  | cons hm _ ih => rw [List.filterMap_cons, List.filterMap_cons, hm.valueFor?_eq, ih]

theorem Operation.written?_eq_some_iff {op : Operation} {record : RecordId} :
    op.written? = some record ↔ op.request? = some (.exclusive, record) := by
  cases op <;> simp [written?, request?]

theorem Program.mem_written {program : Program} {record : RecordId} :
    record ∈ program.written ↔
      ∃ op ∈ program.operations, op.request? = some (.exclusive, record) := by
  simp only [written, List.mem_filterMap, Operation.written?_eq_some_iff]

theorem Program.lastWrite?_eq_none_iff {program : Program} {i : Nat} :
    program.lastWrite? i = none ↔ ∀ r ∈ program.written, r.toNat ≠ i := by
  unfold lastWrite? written
  rw [List.getLast?_eq_none_iff, List.filterMap_eq_nil_iff]
  simp only [List.mem_filterMap, forall_exists_index, and_imp]
  refine ⟨fun h r op hop hr => ?_, fun h op hop => ?_⟩
  · have hnone := h op hop
    cases op with
    | write record value =>
      cases hr
      exact fun hi => by simp [Operation.valueFor?, hi] at hnone
    | _ => cases hr
  · cases op with
    | write record value => exact if_neg (h record _ hop rfl)
    | _ => rfl

theorem Event.valueFor?_eq_none_iff {e : Event} {i : Nat} :
    e.valueFor? i = none ↔ ¬ e.Writes i := by
  cases e <;> simp [valueFor?, Writes]

/-- If one transaction does all the writing of a record, the others may be left out. -/
theorem History.filterMap_valueFor?_eventsWhere {h : History} {i u : Nat}
    (hothers : ∀ x, x ≠ u → ¬ Writes i (h.eventsOf x)) :
    (h.eventsWhere fun _ => true).filterMap (Event.valueFor? i) =
      (h.eventsOf u).filterMap (Event.valueFor? i) := by
  unfold eventsWhere eventsOf entriesOf
  rw [List.filter_true, List.filterMap_filterMap, List.filterMap_filterMap, List.filterMap_filter]
  refine List.filterMap_congr fun entry hentry => ?_
  split
  · rfl
  · next hu =>
    rw [Option.bind_eq_none_iff]
    intro e he
    rw [Event.valueFor?_eq_none_iff]
    intro hwrites
    refine hothers entry.transaction (by simpa using hu) ⟨e, ?_, hwrites⟩
    exact List.mem_filterMap.2 ⟨entry, List.mem_filter.2 ⟨hentry, by simp⟩, he⟩

section
variable {store : Store} {programs : List Program} {settings : Settings} {turns : List Turn}
  {db : Database} {ts : List Transaction} {t u : Transaction} {i : Nat} {ring last : Ring}

/-! ## Nobody waits -/

theorem Evolves.exists_request (h : Evolves store programs db ts) (ht : t ∈ ts) {e : Event}
    (he : e ∈ db.history.eventsOf t.id) (hi : e.Touches i) :
    ∃ op ∈ t.program.operations, ∃ mode record, op.request? = some (mode, record) ∧
      record.toNat = i ∧ (e.Writes i ↔ mode = .exclusive) := by
  obtain ⟨events, hm, hev⟩ := h.logged t ht
  rw [hev, List.mem_append] at he
  rcases he with he | he
  · obtain ⟨op, hop, hmatch⟩ := forall₂_exists_left hm he
    have hmem := List.mem_of_mem_take hop
    cases op with
    | commit =>
      cases e with
      | commit => cases hi
      | _ => cases hmatch
    | _ =>
      have hrecord := (Operation.touches_of_matches hmatch rfl i).1 hi
      refine ⟨_, hmem, _, _, rfl, hrecord, ?_⟩
      rw [Operation.writes_of_matches hmatch rfl, and_iff_left hrecord]
  · split at he
    · cases List.mem_singleton.1 he
      cases hi
    · cases he

theorem Evolves.exists_written (h : Evolves store programs db ts) (ht : t ∈ ts)
    (hwrites : Writes i (db.history.eventsOf t.id)) : ∃ r ∈ t.program.written, r.toNat = i := by
  obtain ⟨e, he, hi⟩ := hwrites
  obtain ⟨op, hop, mode, record, hr, hrecord, hmode⟩ := h.exists_request ht he hi.touches
  rw [hmode.1 hi] at hr
  exact ⟨record, Program.mem_written.2 ⟨op, hop, hr⟩, hrecord⟩

theorem Evolves.exists_touched (h : Evolves store programs db ts) (ht : t ∈ ts)
    (htouches : Touches i (db.history.eventsOf t.id)) : ∃ r ∈ t.program.records, r.toNat = i := by
  obtain ⟨e, he, hi⟩ := htouches
  obtain ⟨op, hop, mode, record, hr, hrecord, -⟩ := h.exists_request ht he hi
  exact ⟨record, Program.mem_records.2 ⟨op, hop, mode, hr⟩, hrecord⟩

theorem Evolves.exists_of_event (h : Evolves store programs db ts) {x : Nat} {e : Event}
    (he : e ∈ db.history.eventsOf x) : ∃ u ∈ ts, u.id = x := by
  obtain ⟨lsn, previous, hmem⟩ := h.wellFormed.built.mem_eventsOf.1 he
  obtain ⟨u, hu, hid⟩ := h.exists_of_entry hmem
  exact ⟨u, hu, hid.trans (Entry.transaction_ofEvent ..)⟩

namespace ConflictFree

theorem apart_of_ne (h : ConflictFree programs) (hw : WellFormed store programs db ts) (ht : t ∈ ts)
    (hu : u ∈ ts) (hne : t.id ≠ u.id) : t.program.Apart u.program := by
  obtain ⟨p, hp⟩ := List.mem_iff_getElem?.1 ht
  obtain ⟨q, hq⟩ := List.mem_iff_getElem?.1 hu
  refine h.apart (hw.program_at hp) (hw.program_at hq) ?_
  rw [hw.ids p t hp, hw.ids q u hq] at hne
  omega

theorem unhindered (h : ConflictFree programs) : Unhindered store programs := by
  rintro db ts he _ _ ⟨t, ht, rfl, op, mode, record, hp, hr, hne, hc⟩
  have hw := he.wellFormed
  obtain ⟨⟨u, hu, rfl, -⟩, htouches⟩ := he.locksMatch.of_conflicts hc
  have hop := List.mem_of_getElem? (Transaction.pending?_eq_some.1 hp).2
  have hapart := h.apart_of_ne hw hu ht hne
  rcases hc with howner | ⟨rfl, -⟩
  · -- it wrote what is asked for
    obtain ⟨r, hmem, hr'⟩ := he.exists_written hu ((he.locksMatch.owner _ _).1 howner).2
    rw [UInt64.toNat_inj] at hr'
    exact hapart.1 r hmem (hr' ▸ Program.mem_records.2 ⟨op, hop, mode, hr⟩)
  · -- it touched what is to be written
    obtain ⟨r, hmem, hr'⟩ := he.exists_touched hu htouches
    rw [UInt64.toNat_inj] at hr'
    exact hapart.2 r (hr' ▸ Program.mem_written.2 ⟨op, hop, hr⟩) hmem

/-! ## The final store -/

theorem not_writes (h : ConflictFree programs) (he : Evolves store programs db ts) (ht : t ∈ ts)
    {r : RecordId} (hr : r ∈ t.program.written) {x : Nat} (hne : x ≠ t.id) :
    ¬ Writes r.toNat (db.history.eventsOf x) := by
  intro hwrites
  obtain ⟨u, hu, rfl⟩ := he.exists_of_event hwrites.choose_spec.1
  obtain ⟨r', hr', heq⟩ := he.exists_touched hu hwrites.touches
  rw [UInt64.toNat_inj.1 heq] at hr'
  exact (h.apart_of_ne he.wellFormed hu ht hne).2 r hr hr'

/-- After everybody has committed, each record holds what its writer left in it. -/
theorem value?_store (h : ConflictFree programs) (he : Evolves store programs db ts)
    (habreast : Abreast store programs turns db ts) (hall : ∀ t ∈ ts, t.outcome ≠ none)
    {program : Program} (hprogram : program ∈ programs) {v : Value}
    (hv : program.lastWrite? i = some v) : db.store.value? i = some v := by
  have hw := he.wellFormed
  rw [← hw.programs, List.mem_map] at hprogram
  obtain ⟨t, ht, rfl⟩ := hprogram
  obtain ⟨r, hr, rfl⟩ : ∃ r ∈ t.program.written, r.toNat = i := by
    by_contra hnone
    rw [Program.lastWrite?_eq_none_iff.2 fun r hr hi => hnone ⟨r, hr, hi⟩] at hv
    cases hv
  have hlt : r.toNat < store.size := by
    obtain ⟨op, hop, hr⟩ := Program.mem_written.1 hr
    exact hw.within t ht op hop _ r hr
  have hevents : List.Forall₂ Operation.Matches t.program.operations
      (db.history.eventsOf t.id) := by
    obtain ⟨events, hm, hev⟩ := he.logged t ht
    rcases habreast.outcome he ht with ⟨hnone, -⟩ | ⟨hout, hcursor⟩
    · exact absurd hnone (hall t ht)
    · rw [hout, if_neg nofun, List.append_nil] at hev
      rw [hcursor, Program.length, List.take_length] at hm
      exact hev ▸ hm
  rw [habreast.stored, value?_redoAll hlt,
    History.filterMap_valueFor?_eventsWhere fun x hne => h.not_writes he ht hr hne,
    filterMap_valueFor? hevents, ← Program.lastWrite?, hv]
  rfl

end ConflictFree

theorem Abreast.value?_store (h : Abreast store programs turns db ts)
    (he : Evolves store programs db ts)
    (hnone : ∀ program ∈ programs, program.lastWrite? i = none) :
    db.store.value? i = store.value? i := by
  rw [h.stored]
  refine value?_redoAll_of_not_writes ?_
  rintro ⟨e, hmem, hwrites⟩
  obtain ⟨entry, hentry, hev⟩ := List.mem_filterMap.1 hmem
  obtain ⟨t, ht, hid⟩ := he.exists_of_entry (List.mem_filter.1 hentry).1
  have hevent : e ∈ db.history.eventsOf t.id :=
    List.mem_filterMap.2
      ⟨entry, List.mem_filter.2 ⟨(List.mem_filter.1 hentry).1, by simp [hid]⟩, hev⟩
  obtain ⟨r, hr, hi⟩ := he.exists_written ht ⟨e, hevent, hwrites⟩
  exact Program.lastWrite?_eq_none_iff.1 (hnone _ (he.wellFormed.program_mem ht)) r hr hi

/-! ## Complete runs -/

theorem Evolves.findDeadlock_of_unhindered (h : Evolves store programs db ts)
    (hfree : Unhindered store programs) : db.waits.findDeadlock = none := by
  cases hd : db.waits.findDeadlock with
  | none => rfl
  | some d =>
    obtain ⟨b, -, hobs⟩ := h.knotted hd _ (WaitGraph.victim_mem hd)
    exact absurd hobs (hfree db ts h _ b)

/-- The run ends with the last turn of the last of the longest programs. -/
theorem Ring.lastLongest (h : Ring.start store programs settings = .ok ring)
    (hfree : Unhindered store programs) (hne : programs ≠ []) (hturns : ring.Turns turns last)
    (hfin : last.isFinished = true) :
    ∃ length p, LastLongest programs length p ∧
      turns.length = (length - 1) * programs.length + (p + 1) := by
  cases hturns with
  | nil =>
    obtain ⟨program, hprogram⟩ := List.exists_mem_of_ne_nil programs hne
    obtain ⟨p, hp⟩ := List.mem_iff_getElem?.1 hprogram
    have hle := (isFinished_iff_turnsOf h hfree .nil).1 hfin p program hp
    have hpos := List.length_pos_of_ne_nil program.operations_ne_nil
    simp only [List.length_nil, turnsOf, Nat.zero_div, Nat.zero_mod, Nat.not_lt_zero,
      if_false] at hle
    unfold Program.length at hle
    omega
  | @cons earlier mid _ turn hturns hturn =>
    have hopen : mid.isFinished ≠ true := by
      intro hfin'
      rw [turn_of_isFinished hfin'] at hturn
      cases hturn
    refine ⟨_, _, lastLongest_of_turnsOf
      (mt (isFinished_iff_turnsOf h hfree hturns).2 hopen)
      ((isFinished_iff_turnsOf h hfree (hturns.cons hturn)).1 hfin), ?_⟩
    have hm := Nat.div_add_mod' earlier.length programs.length
    rw [List.length_cons, Nat.add_sub_cancel]
    omega

/-- **Conflict-free runs in closed form.** If no program touches what another one writes, the run
is known in advance, whatever the threshold. No turn is denied and everybody commits. The `k`-th
operation of a program is logged in its `k`-th turn, so the log is all operations, round by round
and in order in each round. The run ends with the last turn of the last of the longest programs,
and leaves in each record what its only writer wrote to it last, or else what was there. -/
theorem conflictFree_runs_in_turn (h : Ring.start store programs settings = .ok ring)
    (hne : programs ≠ []) (hfree : ConflictFree programs) :
    ∃ turns last, ring.Turns turns last ∧ last.isFinished = true ∧
      execute store programs settings = .ok last.report ∧
      (∀ turn ∈ turns, ∀ denials blockers, turn.step ≠ .denied denials blockers) ∧
      last.report.outcomes = (List.range' 1 programs.length).map (·, .committed) ∧
      (∀ p program k op, programs[p]? = some program → program.operations[k]? = some op →
        ∃ later earlier lsn entry, turns = later ++ ⟨p + 1, .progressed lsn, none⟩ :: earlier ∧
          earlier.countP (·.transaction = p + 1) = k ∧ last.report.log[lsn]? = some entry ∧
          LoggedBy (p + 1, op) entry) ∧
      (∃ length p, LastLongest programs length p ∧
        List.Forall₂ LoggedBy (roundRobin programs length) last.report.log ∧
        last.report.turns = (length - 1) * programs.length + (p + 1)) ∧
      ∀ i, (∀ program ∈ programs, ∀ v, program.lastWrite? i = some v →
          last.report.finalStore[i]? = some v) ∧
        ((∀ program ∈ programs, program.lastWrite? i = none) →
          last.report.finalStore[i]? = store.values[i]?) := by
  have hun : Unhindered store programs := hfree.unhindered
  obtain ⟨turns, last, hturns, hfin, -⟩ := (Ring.Reached.start h).exists_finished
  have hlast := (Ring.Reached.start h).append hturns
  have habreast := Ring.abreast h hun hturns
  have henough := (Ring.isFinished_iff_turnsOf h hun hturns).1 hfin
  obtain ⟨length, p, hlongest, hlength⟩ := Ring.lastLongest h hun hne hturns hfin
  refine ⟨turns, last, hturns, hfin,
    bind_eq_ok.2 ⟨ring, h, Ring.run_of_turns h hturns hfin⟩, habreast.undenied, ?_, ?_, ?_, ?_⟩
  · exact Ring.outcomes_of_no_deadlocks h hturns hfin
      (Ring.deadlocks_eq_nil h hturns fun db ts he => he.findDeadlock_of_unhindered hun)
  · intro q program k op hprogram hop
    have hq : q < programs.length := (List.getElem?_eq_some_iff.1 hprogram).1
    have hlt : k < turnsOf programs.length turns.length q :=
      Nat.lt_of_lt_of_le (List.getElem?_eq_some_iff.1 hop).1 (henough q program hprogram)
    obtain ⟨later, earlier, lsn, entry, hsplit, -, hcount, hentry, hlogged⟩ :=
      Ring.exists_success h hun hturns hprogram hop ((lt_turnsOf_iff hq).1 hlt)
    exact ⟨later, earlier, lsn, entry, hsplit, hcount, hentry, hlogged⟩
  · refine ⟨length, p, hlongest, ?_, ?_⟩
    · rw [← inTurns_rounds, inTurns_of_le (hlength ▸ hlongest.le_rounds) henough]
      exact habreast.logged
    · rw [← hlength, ← List.append_nil turns]
      exact hlast.counted.turns_eq
  · have hall := hlast.counted.isFinished_iff.1 hfin
    intro i
    exact ⟨fun program hprogram v hv => hfree.value?_store hlast.evolves habreast hall hprogram hv,
      habreast.value?_store hlast.evolves⟩

/-- All share record 1, which nobody writes, and T3 is done before the others. -/
def sharing : List Program :=
  [⟨[.read 1, .write 0 7, .write 0 8, .commit], by decide⟩,
    ⟨[.read 1, .read 1, .read 1, .commit], by decide⟩, ⟨[.read 1, .commit], by decide⟩]

/-- T1 and T2 are equally long: three rounds, and their turns in the fourth. -/
theorem conflictFree_runs_in_turn_sharing :
    ∃ (ring : Ring) (report : Report), Ring.start ⟨[5, 6]⟩ sharing ⟨1⟩ = .ok ring ∧
      ConflictFree sharing ∧ execute ⟨[5, 6]⟩ sharing ⟨1⟩ = .ok report ∧
      report.outcomes = [(1, .committed), (2, .committed), (3, .committed)] ∧
      report.turns = 11 ∧ report.log.map (·.transaction) = [1, 2, 3, 1, 2, 3, 1, 2, 1, 2] ∧
      report.finalStore[0]? = some 8 ∧ report.finalStore[1]? = some 6 := by
  obtain ⟨ring, h⟩ : ∃ ring, Ring.start ⟨[5, 6]⟩ sharing ⟨1⟩ = .ok ring :=
    Ring.start_eq_ok_iff.2 (by decide)
  have hfree : ConflictFree sharing := by decide
  obtain ⟨turns, last, -, -, hrun, -, hout, -, ⟨length, p, hlongest, hlog, hturns⟩, hstore⟩ :=
    conflictFree_runs_in_turn h (by decide) hfree
  obtain ⟨rfl, rfl⟩ : length = 4 ∧ p = 1 := by
    refine hlongest.unique ⟨⟨_, rfl, rfl⟩, by decide, fun q program hq hlen => ?_⟩
    match q with
    | 0 | 1 => omega
    | 2 =>
      cases hq
      cases hlen
    | _ + 3 => cases hq
  refine ⟨ring, last.report, h, hfree, hrun, hout, hturns, ?_, ?_, ?_⟩
  · rw [map_transaction_of_loggedBy hlog]
    decide
  · exact (hstore 0).1 _ List.mem_cons_self 8 (by decide)
  · exact (hstore 1).2 (by decide)

end

end TwoPhase
