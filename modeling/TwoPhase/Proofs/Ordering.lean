import TwoPhase.Proofs.Account
import TwoPhase.Proofs.Detection
import TwoPhase.Proofs.Refusal

/-!
# Ordered acquisition

If every program touches its records in ascending order, and none of them writes a
record that it has so far only read, then no deadlock ever arises, whatever the
threshold, and everybody commits.

* `Program.Ascending`, `Program.Upgrades`: the order, and the write that turns a
  shared lock into an exclusive one.
* `Evolves.le_of_touches`: what a transaction holds comes no later in the order than
  what it asks for. So along a chain of waits the records never become smaller.
* `Evolves.notMem_sharers`: a transaction never asks for all of a record it shares. So
  they do not stay the same either, and a chain of waits cannot close to a knot
  (`Evolves.not_knotted`).
* `ordered_acquisition_commits`: the statement for complete runs.
-/

namespace TwoPhase

/-! ## Programs in order -/

def Operation.written? : Operation → Option RecordId
  | write record _ => some record
  | _ => none

namespace Program

/-- Records are touched in ascending order, each as often as needed. -/
def Ascending (program : Program) : Prop := program.records.Pairwise (· ≤ ·)

/-- The operation at `i` writes a record that was read before and not written before. -/
def UpgradesAt (program : Program) (i : Nat) : Prop :=
  ∃ record ∈ program.operations[i]?.bind Operation.written?,
    .read record ∈ program.operations.take i ∧
      record ∉ (program.operations.take i).filterMap Operation.written?

def Upgrades (program : Program) : Prop := ∃ i < program.length, program.UpgradesAt i

instance (program : Program) : Decidable program.Ascending :=
  inferInstanceAs (Decidable (List.Pairwise _ _))

instance (program : Program) : DecidablePred program.UpgradesAt := fun _ =>
  inferInstanceAs (Decidable (∃ _ ∈ _, _))

instance (program : Program) : Decidable program.Upgrades :=
  inferInstanceAs (Decidable (∃ i < _, _))

/-- What is touched before an operation comes no later in the order than what it touches. -/
theorem Ascending.le {program : Program} (h : program.Ascending) {c : Nat} {op sooner : Operation}
    {r record : RecordId} (hop : program.operations[c]? = some op) (hr : op.record? = some record)
    (hmem : sooner ∈ program.operations.take c) (hsooner : sooner.record? = some r) :
    r ≤ record := by
  unfold Ascending records at h
  rw [← List.take_append_drop c program.operations, List.filterMap_append,
    List.pairwise_append] at h
  obtain ⟨hlt, rfl⟩ := List.getElem?_eq_some_iff.1 hop
  refine h.2.2 r (List.mem_filterMap.2 ⟨sooner, hmem, hsooner⟩) record
    (List.mem_filterMap.2 ⟨_, ?_, hr⟩)
  rw [List.drop_eq_getElem_cons hlt]
  exact List.mem_cons_self

end Program

section
variable {store : Store} {programs : List Program} {settings : Settings} {db : Database}
  {ts : List Transaction} {a b : Nat} {t : Transaction} {op : Operation} {mode mode' : LockMode}
  {record record' : RecordId} {D : Nat → Prop} {ring : Ring}

/-! ## What is held and what is asked for -/

theorem Evolves.exists_done (h : Evolves store programs db ts) (ht : t ∈ ts)
    (hout : t.outcome = none) {e : Event} (he : e ∈ db.history.eventsOf t.id) :
    ∃ op ∈ t.program.operations.take t.cursor, op.Matches e :=
  forall₂_exists_left ((h.logged t ht).events hout) he

theorem Evolves.le_of_touches (h : Evolves store programs db ts) (ht : t ∈ ts)
    (hasc : t.program.Ascending) (hp : t.pending? = some op)
    (hr : op.request? = some (mode, record)) {r : RecordId}
    (htouch : Touches r.toNat (db.history.eventsOf t.id)) : r ≤ record := by
  obtain ⟨hout, hop⟩ := Transaction.pending?_eq_some.1 hp
  obtain ⟨e, he, hi⟩ := htouch
  obtain ⟨sooner, hmem, hm⟩ := h.exists_done ht hout he
  refine hasc.le hop (Operation.record?_eq_some_iff.2 ⟨mode, hr⟩) hmem ?_
  cases sooner with
  | commit =>
    cases e with
    | commit => cases hi
    | _ => cases hm
  | _ =>
    rw [Operation.touches_of_matches hm rfl, UInt64.toNat_inj] at hi
    exact congrArg some hi

/-- A transaction that never turns a shared lock into an exclusive one does not ask for all of a
record it shares. -/
theorem Evolves.notMem_sharers (h : Evolves store programs db ts) (ht : t ∈ ts)
    (hup : ¬ t.program.Upgrades) (hp : t.pending? = some op)
    (hr : op.request? = some (.exclusive, record)) :
    t.id ∉ (db.locks.lockOf record.toNat).sharers := by
  intro hshares
  obtain ⟨hout, hop⟩ := Transaction.pending?_eq_some.1 hp
  obtain ⟨-, ⟨e, he, hi⟩, hnw⟩ := (h.locksMatch.sharer _ _).1 hshares
  cases op with
  | read r => cases hr
  | commit => cases hr
  | write r value =>
    cases hr
    refine hup ⟨t.cursor, (List.getElem?_eq_some_iff.1 hop).1, record, by rw [hop]; rfl, ?_, ?_⟩
    · -- it touched the record and did not write it, so it read it
      obtain ⟨sooner, hmem, hm⟩ := h.exists_done ht hout he
      cases e with
      | read r v =>
        cases sooner with
        | read r' =>
          cases hm
          rwa [← UInt64.toNat_inj.1 hi]
        | _ => cases hm
      | write r old new => exact absurd ⟨_, he, hi⟩ hnw
      | _ => cases hi
    · intro hwritten
      obtain ⟨sooner, hmem, hs⟩ := List.mem_filterMap.1 hwritten
      obtain ⟨e', he', hm⟩ := forall₂_exists_left ((h.logged t ht).events hout).flip hmem
      cases sooner with
      | write r v =>
        cases hs
        exact hnw ⟨e', he', (Operation.writes_of_matches hm rfl _).2 ⟨rfl, rfl⟩⟩
      | _ => cases hs

/-! ## Chains of waits -/

def AsksFor (ts : List Transaction) (a : Nat) (mode : LockMode) (record : RecordId) : Prop :=
  ∃ t ∈ ts, t.id = a ∧ ∃ op, t.pending? = some op ∧ op.request? = some (mode, record)

theorem Obstructs.asksFor (h : Obstructs db ts b a) :
    ∃ mode record, AsksFor ts a mode record ∧ b ≠ a ∧
      (db.locks.lockOf record.toNat).Conflicts b mode := by
  obtain ⟨t, ht, hid, op, mode, record, hp, hr, hne, hc⟩ := h
  exact ⟨mode, record, ⟨t, ht, hid, op, hp, hr⟩, hne, hc⟩

/-- Without upgrades, nobody is in the way of a transaction at a record that it holds itself. -/
theorem Evolves.not_conflicts_both (h : Evolves store programs db ts) {c : Nat}
    (hup : ∀ t ∈ ts, ¬ t.program.Upgrades) (hasks : AsksFor ts b mode' record) (hne : c ≠ b)
    (hb : (db.locks.lockOf record.toNat).Conflicts b mode)
    (hc : (db.locks.lockOf record.toNat).Conflicts c mode') : False := by
  obtain ⟨t, ht, rfl, op, hp, hr⟩ := hasks
  rcases hc with howner | ⟨rfl, hsharer⟩
  · rcases hb with hb | ⟨-, hb⟩
    · exact hne (Option.some.inj (howner.symm.trans hb))
    · exact Lock.sharers_of_owner howner hb
  · rcases hb with hb | ⟨-, hb⟩
    · exact Lock.sharers_of_owner hb hsharer
    · exact h.notMem_sharers ht (hup t ht) hp hr hb

/-- **No knot.** Follow the waits of a knot: whoever is in the way asks for a larger record in turn,
since it holds the one in question and asks for no smaller one, nor for the same one again. But
there is a last record. -/
theorem Evolves.not_knotted (h : Evolves store programs db ts)
    (hasc : ∀ t ∈ ts, t.program.Ascending) (hup : ∀ t ∈ ts, ¬ t.program.Upgrades)
    (hD : Knotted D db ts) : ¬ D a := by
  -- by induction on the number of records after the one asked for
  suffices hall : ∀ n a mode record, AsksFor ts a mode record →
      store.size - record.toNat = n → ∀ b, D b →
      (db.locks.lockOf record.toNat).Conflicts b mode → False by
    intro ha
    obtain ⟨b, hb, hobs⟩ := hD a ha
    obtain ⟨mode, record, hasks, -, hc⟩ := hobs.asksFor
    exact hall _ a mode record hasks rfl b hb hc
  intro n
  induction n using Nat.strongRecOn with
  | ind n ih =>
    intro a mode record hasks hn b hb hc
    obtain ⟨c, hDc, hobs⟩ := hD b hb
    obtain ⟨mode', record', hasks', hne, hc'⟩ := hobs.asksFor
    obtain ⟨t, ht, hid, op, hp, hr⟩ := hasks'
    have hle : record ≤ record' :=
      h.le_of_touches ht (hasc t ht) hp hr (hid ▸ (h.locksMatch.of_conflicts hc).2)
    by_cases heq : record = record'
    · subst heq
      exact h.not_conflicts_both hup ⟨t, ht, hid, op, hp, hr⟩ hne hc hc'
    · obtain ⟨p, hpos⟩ := List.mem_iff_getElem?.1 ht
      have hlt := h.wellFormed.record_lt hpos hp hr
      have hne' : record.toNat ≠ record'.toNat := fun h => heq (UInt64.toNat_inj.1 h)
      rw [UInt64.le_iff_toNat_le] at hle
      exact ih _ (by omega) b mode' record' ⟨t, ht, hid, op, hp, hr⟩ rfl c hDc hc'

theorem Evolves.findDeadlock_eq_none (h : Evolves store programs db ts)
    (hasc : ∀ program ∈ programs, program.Ascending)
    (hup : ∀ program ∈ programs, ¬ program.Upgrades) : db.waits.findDeadlock = none := by
  have hmem : ∀ t ∈ ts, t.program ∈ programs := fun t ht => h.wellFormed.program_mem ht
  cases hd : db.waits.findDeadlock with
  | none => rfl
  | some d =>
    exact absurd (WaitGraph.victim_mem hd) (h.not_knotted (fun t ht => hasc _ (hmem t ht))
      (fun t ht => hup _ (hmem t ht)) (h.knotted hd))

/-! ## Complete runs -/

theorem Ring.deadlocks_eq_nil {turns : List Turn} {last : Ring}
    (h : Ring.start store programs settings = .ok ring) (hturns : ring.Turns turns last)
    (hnone : ∀ db ts, Evolves store programs db ts → db.waits.findDeadlock = none) :
    last.deadlocks = [] := by
  have hr : Reached store programs settings [] ring := .start h
  refine List.eq_nil_iff_forall_not_mem.2 fun d hd => ?_
  rw [hr.mem_deadlocks hturns, deadlocks_start h] at hd
  obtain ⟨turn, hmem, hd⟩ := hd.resolve_left List.not_mem_nil
  obtain ⟨later, sooner, before, after, -, hsooner, hturn⟩ := hturns.split hmem
  obtain ⟨t, mid, ht, ha, hfind⟩ := deadlock_of_turn hturn hd
  rw [hnone _ _ ((hr.append hsooner).evolves.attempt ht ha)] at hfind
  cases hfind

theorem Ring.outcomes_of_no_deadlocks {turns : List Turn} {last : Ring}
    (h : Ring.start store programs settings = .ok ring) (hturns : ring.Turns turns last)
    (hfin : last.isFinished = true) (hnone : last.deadlocks = []) :
    last.report.outcomes = (List.range' 1 programs.length).map (·, .committed) := by
  have hlast := (Reached.start h).append hturns
  rw [← hlast.map_outcomes hfin, List.map_map]
  refine (List.map_id _).symm.trans (List.map_congr_left fun pair hpair => ?_)
  obtain ⟨u, outcome⟩ := pair
  cases outcome with
  | committed => rfl
  | aborted =>
    have hvictim := (mem_victims h hturns).2 (mem_outcomes.1 hpair)
    rw [hnone] at hvictim
    cases hvictim

/-- **Ordered acquisition.** If all programs touch their records in ascending order and none turns
a shared lock into an exclusive one, the complete run reports no deadlock, whatever the threshold,
and every transaction commits. -/
theorem ordered_acquisition_commits (h : Ring.start store programs settings = .ok ring)
    (hasc : ∀ program ∈ programs, program.Ascending)
    (hup : ∀ program ∈ programs, ¬ program.Upgrades) :
    ∃ report, execute store programs settings = .ok report ∧ report.deadlocks = [] ∧
      report.outcomes = (List.range' 1 programs.length).map (·, .committed) := by
  obtain ⟨turns, last, hturns, hfin, -⟩ := (Ring.Reached.start h).exists_finished
  have hnone : last.deadlocks = [] :=
    Ring.deadlocks_eq_nil h hturns fun db ts he => he.findDeadlock_eq_none hasc hup
  refine ⟨last.report, bind_eq_ok.2 ⟨ring, h, Ring.run_of_turns h hturns hfin⟩, hnone, ?_⟩
  exact Ring.outcomes_of_no_deadlocks h hturns hfin hnone

/-- Everybody wants both records, T2 for reading only, and T1 reads what it has written. -/
def queueing : List Program :=
  [⟨[.write 0 1, .read 0, .write 1 1, .commit], by decide⟩,
    ⟨[.read 0, .read 1, .commit], by decide⟩,
    ⟨[.write 0 3, .write 1 3, .write 1 4, .commit], by decide⟩]

/-- They wait for each other in a line, and deadlocks are looked for at every denial. -/
theorem ordered_acquisition_commits_queueing :
    ∃ (ring : Ring) (report : Report), Ring.start ⟨[5, 6]⟩ queueing ⟨1⟩ = .ok ring ∧
      (∀ program ∈ queueing, program.Ascending ∧ ¬ program.Upgrades) ∧
      execute ⟨[5, 6]⟩ queueing ⟨1⟩ = .ok report ∧ report.deadlocks = [] ∧
      report.outcomes = [(1, .committed), (2, .committed), (3, .committed)] := by
  obtain ⟨ring, h⟩ : ∃ ring, Ring.start ⟨[5, 6]⟩ queueing ⟨1⟩ = .ok ring :=
    Ring.start_eq_ok_iff.2 (by decide)
  obtain ⟨report, hrun, hnone, hout⟩ := ordered_acquisition_commits h (by decide) (by decide)
  exact ⟨ring, report, h, by decide, hrun, hnone, hout⟩

end

end TwoPhase
