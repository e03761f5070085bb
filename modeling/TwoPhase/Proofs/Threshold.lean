import TwoPhase.Proofs.Detection

/-!
# The threshold and deadlocks

The threshold decides when deadlocks are looked for, not whether there are any. Two
rings that differ in their settings only (`Ring.under`) take the same turns as long as
there is nothing to find (`turn_under`), and along a run that ends without a deadlock
there never is: a cycle, once it is in the wait graph, is a knot that only an abort
unties (`Reached.findDeadlock_eq_none`).
-/

namespace TwoPhase

def Ring.under (ring : Ring) (settings : Settings) : Ring := { ring with settings }

section
variable {store : Store} {programs : List Program} {settings settings' : Settings}
  {turns later earlier : List Turn} {p : Nat} {t : Transaction} {ring ring' mid last : Ring}
  {turn : Turn} {step : Step} {report : Report}

namespace Ring

@[simp] theorem database_under : (ring.under settings).database = ring.database := rfl

@[simp] theorem transactions_under : (ring.under settings).transactions = ring.transactions := rfl

@[simp] theorem next_under : (ring.under settings).next = ring.next := rfl

@[simp] theorem isFinished_under : (ring.under settings).isFinished = ring.isFinished := rfl

@[simp] theorem report_under : (ring.under settings).report = ring.report := rfl

/-! ## Turns with nothing to find -/

theorem attempt_under (h : ring.attempt p t = .ok (mid, step)) :
    (ring.under settings).attempt p t = .ok (mid.under settings, step) := by
  unfold attempt at h ⊢
  rw [bind_eq_ok] at h
  obtain ⟨⟨t', db', step'⟩, hadvance, hmid⟩ := h
  cases hmid
  show t.advance ring.database >>= _ = _
  rw [hadvance]
  rfl

/-- With nothing to find it does not matter whether deadlocks are looked for. -/
theorem react_of_findDeadlock (h : ring.database.waits.findDeadlock = none) (step : Step) :
    ring.react step = .ok (ring, none) := by
  have hdetect : ring.detect = .ok (ring, none) := by simp only [detect, h]
  cases step with
  | denied denials blockers =>
    simp only [react, hdetect]
    split <;> rfl
  | _ => rfl

theorem eq_of_react (h : ring.react step = .ok (ring', none)) : ring' = ring := by
  rcases react_cases h with ⟨-, heq, -⟩ | ⟨-, -, -, -, hdetect⟩
  · exact heq
  · rcases detect_cases hdetect with ⟨-, -, heq⟩ | ⟨d, -, -, -, hsome, -⟩
    · exact heq
    · cases hsome

theorem turn_under (h : ring.turn = .ok (ring', some turn)) (hquiet : turn.deadlock = none)
    (hnone : ring'.database.waits.findDeadlock = none) :
    (ring.under settings).turn = .ok (ring'.under settings, some turn) := by
  obtain ⟨hfin, t, mid, ht, hid, ha, hr⟩ := turn_cases h
  obtain ⟨id, step, deadlock⟩ := turn
  cases hid
  cases hquiet
  cases eq_of_react hr
  have hfree : (ring'.under settings).database.waits.findDeadlock = none := hnone
  unfold Ring.turn turnOf
  simp only [isFinished_under, hfin, transactions_under, next_under, ht, attempt_under ha,
    react_of_findDeadlock hfree, bind, Except.bind, pure, Except.pure, Except.map]
  rfl

/-! ## Runs without deadlocks -/

/-- A cycle does not dissolve, so where a run ends without a deadlock there is none. -/
theorem Reached.findDeadlock_eq_none (h : Reached store programs settings earlier ring)
    (hturns : ring.Turns turns last) (hfin : last.isFinished = true)
    (hquiet : ∀ turn ∈ turns, turn.deadlock = none) :
    ring.database.waits.findDeadlock = none := by
  cases hd : ring.database.waits.findDeadlock with
  | none => rfl
  | some d =>
    have hknot := (h.knotted (h.evolves.knotted hd) hturns fun turn hturn d' hd' => by
      rw [hquiet turn hturn] at hd'
      cases hd').1
    have hopen := (h.append hturns).isFinished_of_knotted hknot (WaitGraph.victim_mem hd)
    rw [hfin] at hopen
    cases hopen

theorem Reached.turns_under (h : Reached store programs settings earlier ring)
    (hturns : ring.Turns turns mid) (hlater : mid.Turns later last) (hfin : last.isFinished = true)
    (hquiet : ∀ turn ∈ later ++ turns, turn.deadlock = none) :
    (ring.under settings').Turns turns (mid.under settings') := by
  induction hturns generalizing later with
  | nil => exact .nil
  | @cons turns before mid turn hturns hturn ih =>
    have hnext : before.Turns (later ++ [turn]) last := (Turns.cons .nil hturn).append hlater
    refine .cons (ih hnext fun x hx => hquiet x ?_) (turn_under hturn (hquiet turn (by simp)) ?_)
    · simpa [or_assoc] using hx
    · exact ((h.append hturns).turn hturn).findDeadlock_eq_none hlater hfin fun x hx =>
        hquiet x (List.mem_append_left _ hx)

theorem start_under (h : Ring.start store programs settings = .ok ring) (settings' : Settings) :
    Ring.start store programs settings' = .ok (ring.under settings') := by
  obtain ⟨ts, hts, rfl⟩ := start_eq_ok h
  unfold Ring.start
  rw [hts]
  rfl

end Ring

/-- **The threshold matters only if there is a deadlock.** If a complete run reports none, then
under any other threshold the complete run reports exactly the same. -/
theorem execute_eq_of_no_deadlocks (h : execute store programs settings = .ok report)
    (hnone : report.deadlocks = []) (settings' : Settings) :
    execute store programs settings' = .ok report := by
  obtain ⟨ring, hstart, hrun⟩ := bind_eq_ok.1 h
  have hr : Ring.Reached store programs settings [] ring := .start hstart
  obtain ⟨turns, last, hturns, hfin, -⟩ := hr.exists_finished
  rw [Ring.run_of_turns hstart hturns hfin] at hrun
  cases hrun
  have hquiet : ∀ turn ∈ turns, turn.deadlock = none := by
    intro turn hmem
    cases hd : turn.deadlock with
    | none => rfl
    | some d =>
      have hmem : d ∈ last.deadlocks := (hr.mem_deadlocks hturns).2 (.inr ⟨turn, hmem, hd⟩)
      rw [show last.deadlocks = [] from hnone] at hmem
      cases hmem
  have hstart' := Ring.start_under hstart settings'
  have hturns' : (ring.under settings').Turns turns (last.under settings') :=
    hr.turns_under hturns .nil hfin (by simpa using hquiet)
  have hrun' := Ring.run_of_turns hstart' hturns' (Ring.isFinished_under.trans hfin)
  rw [Ring.report_under] at hrun'
  exact bind_eq_ok.2 ⟨_, hstart', hrun'⟩

/-- T2 waits for T1, which waits for nobody. -/
def waitingLine : List Program :=
  [⟨[.write 0 8, .write 1 9, .commit], by decide⟩, ⟨[.write 0 2, .commit], by decide⟩]

/-- Looking for deadlocks at the first denial of T2 finds none and changes nothing. -/
theorem execute_eq_of_no_deadlocks_waitingLine :
    ∃ report, execute ⟨[5, 6]⟩ waitingLine ⟨10⟩ = .ok report ∧ report.deadlocks = [] ∧
      report.turns = 8 ∧ execute ⟨[5, 6]⟩ waitingLine ⟨1⟩ = .ok report := by
  have hrun : (execute ⟨[5, 6]⟩ waitingLine ⟨10⟩).toOption.any
      (fun report => report.deadlocks = [] ∧ report.turns = 8) = true := by decide +kernel
  cases h : execute ⟨[5, 6]⟩ waitingLine ⟨10⟩ with
  | error e => simp [h, Except.toOption] at hrun
  | ok report =>
    obtain ⟨hnone, hturns⟩ : report.deadlocks = [] ∧ report.turns = 8 := by
      simpa [h, Except.toOption] using hrun
    exact ⟨report, rfl, hnone, hturns, execute_eq_of_no_deadlocks h hnone ⟨1⟩⟩

end

end TwoPhase
