import TwoPhase.Proofs.Refusal

/-!
# Schedules do not depend on values

No decision of a ring looks at what the records hold. Two rings over different stores,
perhaps of different sizes, stay alike in all but the stored values, turn after turn:

* `Entry.Alike`, `Database.Alike`, `Ring.Alike`: what two rings have in common if they
  differ in stored values only. A write puts the same value in both, but replaces
  different ones.
* `Database.Alike.acts`: transactions on alike databases do the same, and what they
  leave is alike. From this it follows for each call of a ring, and for turns in a row
  (`Ring.Alike.exists_turns`).
* `Evolves.untouched`: what no program addresses keeps its value.
-/

namespace TwoPhase

/-- Entries that tell the same, but for the values that were found in the store. -/
structure Entry.Alike (entry entry' : Entry) : Prop where
  kind : entry'.kind = entry.kind
  lsn : entry'.lsn = entry.lsn
  transaction : entry'.transaction = entry.transaction
  record : entry'.record = entry.record
  previous : entry'.previous = entry.previous
  written : entry.kind = .write → entry'.new = entry.new

structure History.Alike (h h' : History) : Prop where
  entries : List.Forall₂ Entry.Alike h.entries h'.entries
  last? : ∀ t, h'.last? t = h.last? t

/-- Databases that differ in what they store, not in who holds what and who waits for whom. -/
structure Database.Alike (db db' : Database) : Prop where
  history : db.history.Alike db'.history
  locks : ∀ i, db'.locks.lockOf i = db.locks.lockOf i
  waits : db'.waits = db.waits

structure Ring.Alike (ring ring' : Ring) : Prop where
  database : ring.database.Alike ring'.database
  transactions : ring'.transactions = ring.transactions
  settings : ring'.settings = ring.settings
  next : ring'.next = ring.next
  finished : ring'.finished = ring.finished
  turns : ring'.turns = ring.turns
  deadlocks : ring'.deadlocks = ring.deadlocks

section
variable {store store' : Store} {programs : List Program} {settings : Settings}
  {t t₁ t₁' : Transaction} {db db' db₁ db₁' : Database} {ts : List Transaction}
  {deed deed' : Deed} {p : Nat}

/-! ## Histories -/

theorem Entry.alike_ofEvent {op : Operation} {e e' : Event} (hm : op.Matches e)
    (hm' : op.Matches e') (lsn t : Nat) (previous : Option Nat) :
    (Entry.ofEvent lsn t previous e).Alike (Entry.ofEvent lsn t previous e') := by
  cases op with
  | read record =>
    cases e with
    | read r v =>
      cases e' with
      | read r' v' =>
        cases hm
        cases hm'
        exact ⟨rfl, rfl, rfl, rfl, rfl, nofun⟩
      | _ => cases hm'
    | _ => cases hm
  | write record value =>
    cases e with
    | write r old new =>
      cases e' with
      | write r' old' new' =>
        obtain ⟨rfl, rfl⟩ := hm
        obtain ⟨rfl, rfl⟩ := hm'
        exact ⟨rfl, rfl, rfl, rfl, rfl, fun _ => rfl⟩
      | _ => cases hm'
    | _ => cases hm
  | commit =>
    cases e with
    | commit =>
      cases e' with
      | commit => exact ⟨rfl, rfl, rfl, rfl, rfl, nofun⟩
      | _ => cases hm'
    | _ => cases hm

theorem Entry.Alike.refl (entry : Entry) : entry.Alike entry :=
  ⟨rfl, rfl, rfl, rfl, rfl, fun _ => rfl⟩

namespace History.Alike

variable {h h' : History}

theorem length_eq (ha : h.Alike h') : h'.length = h.length := ha.entries.length_eq.symm

theorem append (ha : h.Alike h') {t : Nat} {e e' : Event}
    (he : ∀ lsn previous,
      (Entry.ofEvent lsn t previous e).Alike (Entry.ofEvent lsn t previous e')) :
    (h.append t e).Alike (h'.append t e') := by
  constructor
  case entries =>
    unfold History.append
    rw [ha.length_eq, ha.last? t]
    exact List.rel_append ha.entries (.cons (he _ _) .nil)
  case last? =>
    intro u
    rw [last?_append, last?_append, ha.length_eq, ha.last? u]

end History.Alike

/-! ## Databases -/

theorem Acts.pending?_ne_none (ha : Acts db t deed db₁ t₁) (hne : deed ≠ .done .abort) :
    t.pending? ≠ none := by
  cases ha with
  | denied pending => exact fun h => nomatch pending.symm.trans h
  | access pending => exact fun h => nomatch pending.symm.trans h
  | commit pending => exact fun h => nomatch pending.symm.trans h
  | abort => exact absurd rfl hne

namespace Database.Alike

theorem blockers (h : db.Alike db') (t : Nat) (mode : LockMode) (record : RecordId) :
    db'.blockers t mode record = db.blockers t mode record := by
  unfold Database.blockers
  rw [h.locks]

theorem finish (h : db.Alike db') (t : Nat) (e : Event) :
    (db.finish t e).Alike (db'.finish t e) := by
  constructor
  case history =>
    exact h.history.append fun _ _ => .refl _
  case locks =>
    intro i
    simp only [Database.finish, LockTable.lockOf_release, h.locks]
  case waits =>
    show db'.waits.clearFrom t = _
    rw [h.waits]
    rfl

theorem ofStore (store store' : Store) : (Database.ofStore store).Alike (.ofStore store') :=
  ⟨⟨.nil, fun _ => rfl⟩, fun i => by simp [Database.ofStore], rfl⟩

/-- **Transactions do not see values.** What a transaction does of its own accord is the same on
alike databases. -/
theorem acts (h : db.Alike db') (ha : Acts db t deed db₁ t₁) (ha' : Acts db' t deed' db₁' t₁')
    (hne : deed ≠ .done .abort) (hne' : deed' ≠ .done .abort)
    (hlt : ∀ op mode record, t.pending? = some op → op.request? = some (mode, record) →
      record.toNat < db.locks.size ∧ record.toNat < db'.locks.size) :
    deed'.step db' t = deed.step db t ∧ t₁' = t₁ ∧ db₁.Alike db₁' := by
  -- one operation is pending, and whether somebody is in its way is the same on both: only the
  -- cases in which both are denied, both get access or both commit can occur
  cases ha with
  | @denied op mode record pending request blocked =>
    cases ha' with
    | denied pending' request' blocked' =>
      cases pending.symm.trans pending'
      cases request.symm.trans request'
      rw [h.blockers]
      refine ⟨rfl, rfl, h.history, h.locks, ?_⟩
      show db'.waits.addEdges _ _ = _
      rw [h.waits]
    | access pending' request' free' =>
      cases pending.symm.trans pending'
      cases request.symm.trans request'
      rw [h.blockers] at free'
      exact absurd free' blocked
    | commit pending' =>
      cases pending.symm.trans pending'
      cases request
    | abort => exact absurd rfl hne'
  | @access op mode record e pending request free matched sees =>
    cases ha' with
    | denied pending' request' blocked' =>
      cases pending.symm.trans pending'
      cases request.symm.trans request'
      rw [h.blockers] at blocked'
      exact absurd free blocked'
    | access pending' request' free' matched' sees' =>
      cases pending.symm.trans pending'
      cases request.symm.trans request'
      obtain ⟨hin, hin'⟩ := hlt op mode record pending request
      refine ⟨congrArg Step.progressed h.history.length_eq, rfl, ?_, fun i => ?_, h.waits⟩
      · exact h.history.append fun _ _ => Entry.alike_ofEvent matched matched' _ _ _
      · simp only [LockTable.lockOf_take hin, LockTable.lockOf_take hin', h.locks]
    | commit pending' =>
      cases pending.symm.trans pending'
      cases request
    | abort => exact absurd rfl hne'
  | commit pending =>
    cases ha' with
    | denied pending' request' =>
      cases pending.symm.trans pending'
      cases request'
    | access pending' request' =>
      cases pending.symm.trans pending'
      cases request'
    | commit pending' =>
      exact ⟨congrArg Step.progressed h.history.length_eq, rfl, h.finish t.id .commit⟩
    | abort => exact absurd rfl hne'
  | abort => exact absurd rfl hne

theorem abort (h : db.Alike db') (ha : Acts db t (.done .abort) db₁ t₁)
    (ha' : Acts db' t (.done .abort) db₁' t₁') : t₁' = t₁ ∧ db₁.Alike db₁' := by
  obtain ⟨rfl, rfl⟩ := ha.abort_inv
  obtain ⟨rfl, rfl⟩ := ha'.abort_inv
  refine ⟨rfl, Database.Alike.finish ?_ t.id .abort⟩
  exact ⟨h.history, h.locks, h.waits⟩

end Database.Alike

/-! ## Rings -/

theorem Ring.enlist_eq {first : Nat} (h : Ring.enlist store first programs = .ok ts) :
    ts = programs.mapIdx fun p program => { id := first + p, program } := by
  obtain ⟨hmap, hspec⟩ := Ring.enlist_spec h
  apply List.ext_getElem?
  intro p
  rw [List.getElem?_mapIdx, ← hmap, List.getElem?_map]
  cases ht : ts[p]? with
  | none => rfl
  | some t => exact congrArg some (hspec p t ht).2

namespace Ring.Alike

variable {ring ring' next next' : Ring} {step step' : Step} {id : Nat} {lsn lsn' : Option Nat}
  {deadlock deadlock' : Option Deadlock} {turn turn' : Turn} {turns earlier earlier' : List Turn}
  {last : Ring}

theorem size_eq (h : ring.Alike ring') : ring'.size = ring.size := by
  unfold Ring.size
  rw [h.transactions]

theorem isFinished_eq (h : ring.Alike ring') : ring'.isFinished = ring.isFinished := by
  unfold Ring.isFinished
  rw [h.finished, h.size_eq]

theorem patience_eq (h : ring.Alike ring') : ring'.patience = ring.patience := by
  unfold Ring.patience
  rw [h.settings]

section
variable (h : ring.Alike ring') (hw : WellFormed store programs ring.database ring.transactions)
  (hw' : WellFormed store' programs ring'.database ring'.transactions)
include h hw hw'

theorem attempt (ht : ring.transactions[p]? = some t)
    (ha : ring.attempt p t = .ok (next, step)) (ha' : ring'.attempt p t = .ok (next', step')) :
    step' = step ∧ next.Alike next' := by
  have ht' : ring'.transactions[p]? = some t := h.transactions ▸ ht
  have hplace : (p + 1) % ring'.size = (p + 1) % ring.size := by rw [h.size_eq]
  have hturns : ring'.turns + 1 = ring.turns + 1 := by rw [h.turns]
  rcases attempt_cases hw ht ha with ⟨hp, rfl, rfl⟩ | ⟨deed, db₁, t₁, hacts, hne, rfl, rfl⟩
  · rcases attempt_cases hw' ht' ha' with ⟨-, rfl, rfl⟩ | ⟨_, _, _, hacts', hne', -, -⟩
    · exact ⟨rfl, h.database, h.transactions, h.settings, hplace, h.finished, hturns, h.deadlocks⟩
    · exact absurd hp (hacts'.pending?_ne_none hne')
  · rcases attempt_cases hw' ht' ha' with ⟨hp, -, -⟩ | ⟨deed', db₁', t₁', hacts', hne', rfl, rfl⟩
    · exact absurd hp (hacts.pending?_ne_none hne)
    · have hlt : ∀ op mode record, t.pending? = some op → op.request? = some (mode, record) →
          record.toNat < ring.database.locks.size ∧ record.toNat < ring'.database.locks.size := by
        intro op mode record hp hr
        rw [hw.lockSize, hw'.lockSize]
        exact ⟨hw.record_lt ht hp hr, hw'.record_lt ht' hp hr⟩
      obtain ⟨hstep, rfl, hdb⟩ := h.database.acts hacts hacts' hne hne' hlt
      refine ⟨hstep, hdb, ?_, h.settings, hplace, ?_, hturns, h.deadlocks⟩
      · show ring'.transactions.set p _ = _
        rw [h.transactions]
      · show (if _ then ring'.finished + 1 else ring'.finished) = _
        rw [h.finished]

theorem abort (ha : ring.abort id = .ok (next, lsn)) (ha' : ring'.abort id = .ok (next', lsn')) :
    next.Alike next' := by
  rcases abort_cases hw ha with ⟨-, rfl, hfin⟩ | ⟨t, db₁, t₁, ht, rfl, hacts, -, rfl⟩
  · rcases abort_cases hw' ha' with ⟨-, rfl, -⟩ | ⟨t, _, _, ht', rfl, hacts', -, -⟩
    · exact h
    · exact absurd (h.transactions ▸ hacts'.unfinished ht') hfin
  · rcases abort_cases hw' ha' with ⟨-, -, hfin⟩ | ⟨t', db₁', t₁', ht', -, hacts', -, rfl⟩
    · exact absurd (h.transactions ▸ hacts.unfinished ht) hfin
    · rw [h.transactions, ht] at ht'
      cases ht'
      obtain ⟨rfl, hdb⟩ := h.database.abort hacts hacts'
      refine ⟨hdb, ?_, h.settings, h.next, ?_, h.turns, h.deadlocks⟩
      · show ring'.transactions.set _ _ = _
        rw [h.transactions]
      · show ring'.finished + 1 = _
        rw [h.finished]

theorem detect (hd : ring.detect = .ok (next, deadlock))
    (hd' : ring'.detect = .ok (next', deadlock')) : deadlock' = deadlock ∧ next.Alike next' := by
  have hfind : ring'.database.waits.findDeadlock = ring.database.waits.findDeadlock := by
    rw [h.database.waits]
  rcases detect_cases hd with ⟨hnone, rfl, rfl⟩ | ⟨d, mid, lsn, hsome, rfl, ha, rfl⟩
  · rcases detect_cases hd' with ⟨-, rfl, rfl⟩ | ⟨d', -, -, hsome', -⟩
    · exact ⟨rfl, h⟩
    · rw [hfind, hnone] at hsome'
      cases hsome'
  · rcases detect_cases hd' with ⟨hnone', -, -⟩ | ⟨d', mid', lsn', hsome', rfl, ha', rfl⟩
    · rw [hfind, hsome] at hnone'
      cases hnone'
    · rw [hfind, hsome] at hsome'
      cases hsome'
      have hmid := h.abort hw hw' ha ha'
      refine ⟨rfl, hmid.database, hmid.transactions, hmid.settings, hmid.next, hmid.finished,
        hmid.turns, ?_⟩
      show mid'.deadlocks ++ [d] = _
      rw [hmid.deadlocks]

theorem react (hr : ring.react step = .ok (next, deadlock))
    (hr' : ring'.react step = .ok (next', deadlock')) :
    deadlock' = deadlock ∧ next.Alike next' := by
  rcases react_cases hr with ⟨rfl, rfl, hlt⟩ | ⟨denials, blockers, rfl, hle, hd⟩
  · rcases react_cases hr' with ⟨rfl, rfl, -⟩ | ⟨denials, blockers, rfl, hle, -⟩
    · exact ⟨rfl, h⟩
    · have := hlt denials blockers rfl
      rw [h.patience_eq] at hle
      omega
  · rcases react_cases hr' with ⟨-, -, hlt⟩ | ⟨_, _, -, -, hd'⟩
    · have := hlt denials blockers rfl
      rw [h.patience_eq] at this
      omega
    · exact h.detect hw hw' hd hd'

end

theorem next_turn (h : ring.Alike ring')
    (he : Evolves store programs ring.database ring.transactions)
    (he' : Evolves store' programs ring'.database ring'.transactions)
    (hturn : ring.turn = .ok (next, some turn)) (hturn' : ring'.turn = .ok (next', some turn')) :
    turn' = turn ∧ next.Alike next' := by
  obtain ⟨-, t, mid, ht, hid, ha, hr⟩ := turn_cases hturn
  obtain ⟨-, t', mid', ht', hid', ha', hr'⟩ := turn_cases hturn'
  obtain ⟨u, step, deadlock⟩ := turn
  obtain ⟨u', step', deadlock'⟩ := turn'
  cases hid
  cases hid'
  have hmid := he.attempt ht ha
  have hmid' := he'.attempt ht' ha'
  rw [h.transactions, h.next, ht] at ht'
  cases ht'
  rw [h.next] at ha'
  obtain ⟨rfl, halike⟩ := h.attempt he.wellFormed he'.wellFormed ht ha ha'
  obtain ⟨rfl, hnext⟩ := halike.react hmid.wellFormed hmid'.wellFormed hr hr'
  exact ⟨rfl, hnext⟩

/-- Alike rings take the same turns and stay alike. -/
theorem exists_turns (h : ring.Alike ring') (hr : Reached store programs settings earlier ring)
    (hr' : Reached store' programs settings earlier' ring') (hturns : ring.Turns turns last) :
    ∃ last', ring'.Turns turns last' ∧ last.Alike last' := by
  induction hturns with
  | nil => exact ⟨ring', .nil, h⟩
  | @cons turns mid last turn hturns hturn ih =>
    obtain ⟨mid', hturns', hmid⟩ := ih
    have hreached := hr.append hturns
    have hreached' := hr'.append hturns'
    have hfin : mid'.isFinished = false := by
      rw [hmid.isFinished_eq]
      exact (turn_cases hturn).1
    obtain ⟨last', turn', hturn'⟩ := hreached'.exists_turn hfin
    obtain ⟨rfl, hlast⟩ := hmid.next_turn hreached.evolves hreached'.evolves hturn hturn'
    exact ⟨last', .cons hturns' hturn', hlast⟩

theorem start (hs : Ring.start store programs settings = .ok ring)
    (hs' : Ring.start store' programs settings = .ok ring') : ring.Alike ring' := by
  obtain ⟨ts, hts, rfl⟩ := start_eq_ok hs
  obtain ⟨ts', hts', rfl⟩ := start_eq_ok hs'
  refine ⟨.ofStore store store', ?_, rfl, rfl, rfl, rfl, rfl⟩
  rw [enlist_eq hts, enlist_eq hts']

end Ring.Alike

/-! ## Records that nobody addresses -/

theorem Evolves.untouched {i : Nat} (h : Evolves store programs db ts)
    (hi : ∀ program ∈ programs, ∀ record ∈ program.records, record.toNat ≠ i) :
    db.store.value? i = store.value? i ∧ ∀ u, ∀ e ∈ db.history.eventsOf u, ¬ e.Writes i := by
  induction h with
  | start => exact ⟨rfl, fun u e he => by cases he⟩
  | @act db db' ts p t t' deed he ht ha ih =>
    obtain ⟨hvalue, hevents⟩ := ih
    cases ha with
    | denied => exact ⟨hvalue, hevents⟩
    | @access op mode record e pending request free matched sees =>
      have hnot : ¬ e.Writes i := by
        intro hwrites
        have hop := List.mem_of_getElem? (Transaction.pending?_eq_some.1 pending).2
        exact hi _ (he.wellFormed.program_mem (List.mem_of_getElem? ht)) record
          (Program.mem_records.2 ⟨op, hop, mode, request⟩)
          ((Operation.writes_of_matches matched request i).1 hwrites).2
      exact ⟨(Event.value?_redo_of_not_writes hnot).trans hvalue,
        History.forall_eventsOf_append hevents hnot t.id⟩
    | commit => exact ⟨hvalue, History.forall_eventsOf_append hevents id t.id⟩
    | abort =>
      have hnot : ¬ Writes i (db.history.eventsOf t.id) := fun ⟨e, hmem, hw⟩ =>
        hevents t.id e hmem hw
      exact ⟨(value?_undoAll_of_not_writes hnot).trans hvalue,
        History.forall_eventsOf_append hevents id t.id⟩

/-- **Stored values do not influence the schedule.** Of two rings of the same programs over
different stores, the complete runs take the same turns, end every transaction in the same way and
break the same deadlocks. Their histories agree in everything but the values that were found, and
records that no program addresses keep theirs. -/
theorem schedule_ignores_values {ring ring' : Ring}
    (h : Ring.start store programs settings = .ok ring)
    (h' : Ring.start store' programs settings = .ok ring') :
    ∃ turns last last', ring.Turns turns last ∧ ring'.Turns turns last' ∧
      last.isFinished = true ∧ last'.isFinished = true ∧
      ring.run = .ok last.report ∧ ring'.run = .ok last'.report ∧
      last'.report.turns = last.report.turns ∧ last'.report.outcomes = last.report.outcomes ∧
      last'.report.deadlocks = last.report.deadlocks ∧
      List.Forall₂ Entry.Alike last.report.log last'.report.log ∧
      ∀ i, (∀ program ∈ programs, ∀ record ∈ program.records, record.toNat ≠ i) →
        last.report.finalStore[i]? = store.values[i]? ∧
        last'.report.finalStore[i]? = store'.values[i]? := by
  have hr : Ring.Reached store programs settings [] ring := .start h
  have hr' : Ring.Reached store' programs settings [] ring' := .start h'
  obtain ⟨turns, last, hturns, hfin, -⟩ := hr.exists_finished
  obtain ⟨last', hturns', hlast⟩ := (Ring.Alike.start h h').exists_turns hr hr' hturns
  have hfin' : last'.isFinished = true := hlast.isFinished_eq.trans hfin
  have houtcomes : last'.report.outcomes = last.report.outcomes := by
    unfold Ring.report
    rw [hlast.transactions]
  refine ⟨turns, last, last', hturns, hturns', hfin, hfin', Ring.run_of_turns h hturns hfin,
    Ring.run_of_turns h' hturns' hfin', hlast.turns, houtcomes, hlast.deadlocks,
    hlast.database.history.entries, fun i hi => ⟨?_, ?_⟩⟩
  · exact ((hr.append hturns).evolves.untouched hi).1
  · exact ((hr'.append hturns').evolves.untouched hi).1

/-- The second store has other values and one record more, which keeps its value. -/
theorem schedule_ignores_values_crossing :
    ∃ ring ring' last last' : Ring, Ring.start ⟨[5, 6]⟩ crossing ⟨2⟩ = .ok ring ∧
      Ring.start ⟨[-1, 100, 9]⟩ crossing ⟨2⟩ = .ok ring' ∧
      ring.run = .ok last.report ∧ ring'.run = .ok last'.report ∧
      last'.report.outcomes = last.report.outcomes ∧
      last'.report.deadlocks = last.report.deadlocks ∧
      List.Forall₂ Entry.Alike last.report.log last'.report.log ∧
      last'.report.finalStore[2]? = some 9 := by
  obtain ⟨ring, h⟩ : ∃ ring, Ring.start ⟨[5, 6]⟩ crossing ⟨2⟩ = .ok ring :=
    Ring.start_eq_ok_iff.2 (by decide)
  obtain ⟨ring', h'⟩ : ∃ ring, Ring.start ⟨[-1, 100, 9]⟩ crossing ⟨2⟩ = .ok ring :=
    Ring.start_eq_ok_iff.2 (by decide)
  obtain ⟨turns, last, last', -, -, -, -, hrun, hrun', -, hout, hdead, hlog, hkeep⟩ :=
    schedule_ignores_values h h'
  refine ⟨ring, ring', last, last', h, h', hrun, hrun', hout, hdead, hlog, (hkeep 2 ?_).2⟩
  simp [crossing, Program.records, Operation.record?, forall_and]

end

end TwoPhase
