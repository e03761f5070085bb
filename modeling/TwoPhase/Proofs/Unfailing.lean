import TwoPhase.Proofs.Overflow
import TwoPhase.Proofs.Atomicity

/-!
# What makes a ring fail

The calls of a ring done part by part, each on what the one before left, with counters of so
many bits. They do what the calls at once do until a counter is full, so that is all that can
go wrong: nobody looks for a place that is not there, and a call that is refused leaves the
ring as it was.

* `Ring.run_abortById`, `Evolves.run_detect`: aborts and searches need no counter.
* `Reached.run_turn`, `Reached.run_turn_overflow`: a turn goes through, or a counter is full.
* `Reached.run_runFor`: a run takes the turns there are.
* `Reached.turns_lt`, `Ring.Slight`: what there is to do bounds what is counted.
* `Ring.Unfailing`: what becomes of the calls of a ring.
-/

namespace TwoPhase

namespace Ring

/-- The next turn cannot be counted, or it is a denial that cannot. -/
def Saturated (ring : Ring) : Prop :=
  ring.isFinished = false ∧ UInt64.size ≤ ring.turns + 1 ∨
    ∃ after turn a k, ring.turn = .ok (after, some turn) ∧ turn.Denies a k ∧ UInt32.size ≤ k

/-- There is too little to do, for so much patience, to fill a counter. -/
structure Slight (ring : Ring) : Prop where
  work : ring.operationCount < UInt32.size + 3
  patience : ring.patience + ring.operationCount < UInt32.size + 7
  turns : ring.patience * ring.size * ring.operationCount < UInt64.size

inductive Call where
  | turn
  | detect
  | abort (id : Nat)
deriving DecidableEq, Repr

/-- The ring to go on with. A call that failed, but was not refused, leaves none. -/
def remains {α : Type} : EStateM.Result Failure Ring α → Option Ring
  | .ok _ ring => some ring
  | .error (.refused _) ring => some ring
  | .error _ _ => none

def after (ring : Ring) : Call → Option Ring
  | .turn => remains (Stepwise.turn.run ring)
  | .detect => remains (Stepwise.detect.run ring)
  | .abort id => remains ((Stepwise.abortById id).run ring)

def leftBy (ring : Ring) (calls : List Call) : Option Ring := calls.foldlM after ring

/-- What becomes of the calls of a ring of `n` transactions. -/
structure Unfailing (n : Nat) (ring : Ring) : Prop where
  place : ring.isFinished = false → ring.next < ring.size
  turn : ¬ ring.Saturated → ∃ turn? ring', Stepwise.turn.run ring = .ok turn? ring' ∧
    ring.turn = .ok (ring', turn?) ∧ (turn? = none ↔ ring.isFinished = true)
  overflow : ring.Saturated → ∃ ring', Stepwise.turn.run ring = .error .overflow ring'
  detect : ∃ deadlock ring', Stepwise.detect.run ring = .ok deadlock ring'
  abort : ∀ id, 0 < id → id ≤ n → ∃ lsn ring', (Stepwise.abortById id).run ring = .ok lsn ring'
  refuse : ∀ id e ring', (Stepwise.abortById id).run ring = .error e ring' ↔
    (id = 0 ∨ n < id) ∧ e = .refused (.unknownTransaction id) ∧ ring' = ring
  run : (∀ turns mid, ring.Turns turns mid → ¬ mid.Saturated) →
    ∃ turns last, ring.Turns turns last ∧ last.isFinished = true ∧
      Stepwise.run.run ring = .ok last.report last
  runOverflow : ∀ turns mid, ring.Turns turns mid → mid.Saturated →
    ∃ ring', Stepwise.run.run ring = .error .overflow ring'

end Ring

section
variable {store : Store} {programs : List Program} {settings : Settings}
  {turns earlier : List Turn} {size id k a limit : Nat} {db db' : Database} {t t' : Transaction}
  {ring ring' mid last : Ring} {turn : Turn} {turn? : Option Turn} {step : Step}
  {deadlock : Option Deadlock} {lsn : Option Nat}

/-! ## Parts of calls -/

namespace Stepwise

theorem run_adaptExcept {σ α : Type} {m : EStateM Error σ α} {state : σ}
    {result : Except Error (σ × α)} (h : m.run state = settled state result) :
    (m.adaptExcept Failure.refused).run state =
      settled state (result.mapError Failure.refused) := by
  simp only [EStateM.run, EStateM.adaptExcept] at h ⊢
  rw [h]
  cases result with
  | error e => rfl
  | ok pair => rfl

/-- A step is counted exactly, or it is a denial that cannot be counted. -/
theorem run_checkedAdvance {state left : Transaction × Database}
    (h : advance.run state = .ok step left) :
    (checkedAdvance.run state = .ok step left ∧
      ∀ k blockers, step = .denied k blockers → k < UInt32.size) ∨
    ∃ k blockers failed, step = .denied k blockers ∧ UInt32.size ≤ k ∧
      checkedAdvance.run state = .error .overflow failed := by
  obtain ⟨t, db⟩ := state
  simp only [advance, checkedAdvance, EStateM.run_bind, EStateM.run_get] at h ⊢
  cases hp : t.pending? with
  | none =>
    rw [hp] at h
    cases h
    exact .inl ⟨rfl, fun k blockers hstep => by cases hstep⟩
  | some op =>
    simp only [hp, EStateM.run_bind] at h ⊢
    cases htry : (attempt t.id op).run (t, db) with
    | error e mid =>
      rw [htry] at h
      cases h
    | ok access mid =>
      have hsettled : (attempt t.id op).run (t, db) = settled (t, db) (.ok (mid, access)) := htry
      have hadapt : ((attempt t.id op).adaptExcept Failure.refused).run (t, db) = .ok access mid :=
        run_adaptExcept hsettled
      rw [htry] at h
      rw [hadapt]
      obtain ⟨t', db'⟩ := mid
      cases access with
      | done lsn =>
        cases h
        exact .inl ⟨rfl, fun k blockers hstep => by cases hstep⟩
      | denied blockers =>
        cases h
        simp only [checkedCount, EStateM.run_bind, EStateM.run_get]
        by_cases hfull : UInt32.size ≤ t'.denials + 1
        · rw [if_pos hfull]
          exact .inr ⟨_, _, _, rfl, hfull, rfl⟩
        · rw [if_neg hfull]
          refine .inl ⟨rfl, fun k blockers' hstep => ?_⟩
          cases hstep
          exact Nat.not_le.1 hfull

section
variable {α : Type} {p : Nat} {m : EStateM Failure (Transaction × Database) α} {answer : α}
  {left : Transaction × Database} {e : Failure}

theorem run_atPlace_ok (ht : ring.transactions[p]? = some t)
    (h : m.run (t, ring.database) = .ok answer left) :
    (atPlace p m).run ring = .ok answer (leave ring p left) := by
  simp only [EStateM.run, atPlace, ht] at h ⊢
  rw [h]

theorem run_atPlace_error (ht : ring.transactions[p]? = some t)
    (h : m.run (t, ring.database) = .error e left) :
    (atPlace p m).run ring = .error e (leave ring p left) := by
  simp only [EStateM.run, atPlace, ht] at h ⊢
  rw [h]

end

theorem leave_self {p : Nat} (ht : ring.transactions[p]? = some t) :
    leave ring p (t, ring.database) = ring := by
  simp only [leave, set_getElem?_self ht]

end Stepwise

theorem Database.Sound.run_giveUp (h : db.Sound size) (t : Transaction) :
    Stepwise.giveUp.run (t, db) =
      settled (t, db) ((t.abort db).map fun (new, db, lsn) => ((new, db), lsn)) := by
  simp only [Stepwise.giveUp, Transaction.abort, EStateM.run_bind, EStateM.run_get]
  by_cases hfin : t.isFinished = true
  · rw [if_pos hfin, if_pos hfin]
    rfl
  · rw [if_neg hfin, if_neg hfin, EStateM.run_bind, Stepwise.run_onDatabase (h.run_abort t.id) t,
      h.abort t.id]
    rfl

/-! ## Aborts and searches -/

namespace Ring

/-- An abort does the same part by part, and one that is refused changes nothing. -/
theorem run_abortById (hw : WellFormed store programs ring.database ring.transactions) (id : Nat) :
    (Stepwise.abortById id).run ring = settled ring ((ring.abort id).mapError .refused) := by
  simp only [Stepwise.abortById, abort, EStateM.run_bind, EStateM.run_get]
  cases ht : ring.transaction? id with
  | none => rfl
  | some t =>
    by_cases hid : t.id = id
    · have hrun := Stepwise.run_adaptExcept (hw.sound.run_giveUp t)
      cases hab : t.abort ring.database with
      | error e =>
        rw [hab] at hrun
        simp only [if_pos hid, EStateM.run_bind, Stepwise.run_atPlace_error ht hrun,
          Stepwise.leave_self ht, hab]
        rfl
      | ok result =>
        obtain ⟨t', db', lsn⟩ := result
        rw [hab] at hrun
        simp only [if_pos hid, EStateM.run_bind, Stepwise.run_atPlace_ok ht hrun, hab]
        cases lsn with
        | none => rfl
        | some lsn => rfl
    · simp only [if_neg hid]
      rfl

end Ring

namespace Evolves

theorem run_detect (he : Evolves store programs ring.database ring.transactions)
    (hd : ring.detect = .ok (ring', deadlock)) :
    Stepwise.detect.run ring = .ok deadlock ring' := by
  simp only [Stepwise.detect, EStateM.run_bind, EStateM.run_get]
  rcases Ring.detect_cases hd with ⟨hnone, rfl, rfl⟩ | ⟨d, mid, lsn, hsome, rfl, hab, rfl⟩
  · rw [hnone]
    rfl
  · simp only [hsome, EStateM.run_bind, Ring.run_abortById he.wellFormed, hab]
    rfl

theorem run_react (he : Evolves store programs ring.database ring.transactions)
    (hr : ring.react step = .ok (ring', deadlock)) :
    (Stepwise.react step).run ring = .ok deadlock ring' := by
  rcases Ring.react_cases hr with ⟨rfl, rfl, hearly⟩ | ⟨denials, blockers, rfl, hle, hd⟩
  · cases step with
    | denied denials blockers =>
      simp only [Stepwise.react, EStateM.run_bind, EStateM.run_get]
      rw [if_neg (Nat.not_le.2 (hearly denials blockers rfl))]
      rfl
    | _ => rfl
  · simp only [Stepwise.react, EStateM.run_bind, EStateM.run_get]
    rw [if_pos hle]
    exact he.run_detect hd

end Evolves

/-! ## Turns -/

theorem Database.Sound.run_takeTurn (h : db.Sound size)
    (hadv : t.advance db = .ok (t', db', step)) :
    (Stepwise.takeTurn.run (t, db) = .ok (t.id, step, !t.isFinished && t'.isFinished) (t', db') ∧
      ∀ k blockers, step = .denied k blockers → k < UInt32.size) ∨
    ∃ k blockers failed, step = .denied k blockers ∧ UInt32.size ≤ k ∧
      Stepwise.takeTurn.run (t, db) = .error .overflow failed := by
  have hrun : Stepwise.advance.run (t, db) = .ok step (t', db') := by
    rw [h.run_advance, hadv]
    rfl
  simp only [Stepwise.takeTurn, EStateM.run_bind, EStateM.run_get]
  rcases Stepwise.run_checkedAdvance hrun with
    ⟨hcounted, hfits⟩ | ⟨k, blockers, failed, hstep, hk, hfull⟩
  · rw [hcounted]
    exact .inl ⟨rfl, hfits⟩
  · rw [hfull]
    exact .inr ⟨k, blockers, failed, hstep, hk, rfl⟩

namespace Ring

theorem run_moveOn (hsize : ring.size ≠ 0) (hturns : ring.turns + 1 < UInt64.size) :
    Stepwise.moveOn.run ring =
      .ok ring.next { ring with next := (ring.next + 1) % ring.size, turns := ring.turns + 1 } := by
  simp only [Stepwise.moveOn, EStateM.run_bind, EStateM.run_get]
  rw [if_neg hsize, if_neg (Nat.not_le.2 hturns)]
  rfl

theorem run_moveOn_full (hsize : ring.size ≠ 0) (hturns : UInt64.size ≤ ring.turns + 1) :
    Stepwise.moveOn.run ring = .error .overflow ring := by
  simp only [Stepwise.moveOn, EStateM.run_bind, EStateM.run_get]
  rw [if_neg hsize, if_pos hturns]
  rfl

theorem run_tryNext (hsound : ring.database.Sound size) (hsize : ring.size ≠ 0)
    (hturns : ring.turns + 1 < UInt64.size) (ht : ring.transactions[ring.next]? = some t)
    (hattempt : ring.attempt ring.next t = .ok (mid, step)) :
    (Stepwise.tryNext.run ring = .ok (t.id, step) mid ∧
      ∀ k blockers, step = .denied k blockers → k < UInt32.size) ∨
    ∃ k blockers failed, step = .denied k blockers ∧ UInt32.size ≤ k ∧
      Stepwise.tryNext.run ring = .error .overflow failed := by
  simp only [attempt, bind_eq_ok] at hattempt
  obtain ⟨⟨t', db', step⟩, hadv, hmid⟩ := hattempt
  cases hmid
  have hplace : ({ ring with next := (ring.next + 1) % ring.size, turns := ring.turns + 1 } :
      Ring).transactions[ring.next]? = some t := ht
  simp only [Stepwise.tryNext, EStateM.run_bind, run_moveOn hsize hturns]
  rcases hsound.run_takeTurn hadv with ⟨hrun, hfits⟩ | ⟨k, blockers, failed, hstep, hk, hrun⟩
  · rw [Stepwise.run_atPlace_ok hplace hrun]
    refine .inl ⟨?_, hfits⟩
    cases hended : !t.isFinished && t'.isFinished with
    | false => rfl
    | true => rfl
  · rw [Stepwise.run_atPlace_error hplace hrun]
    exact .inr ⟨k, blockers, _, hstep, hk, rfl⟩

/-- A turn done part by part is the turn done at once, or its denial cannot be counted. -/
theorem Reached.run_turn_some (h : Reached store programs settings turns ring)
    (hturn : ring.turn = .ok (ring', some turn)) (hturns : ring.turns + 1 < UInt64.size) :
    (Stepwise.turn.run ring = .ok (some turn) ring' ∧
      ∀ a k, turn.Denies a k → k < UInt32.size) ∨
    ∃ a k failed, turn.Denies a k ∧ UInt32.size ≤ k ∧
      Stepwise.turn.run ring = .error .overflow failed := by
  obtain ⟨hfin, t, mid, ht, hid, hattempt, hreact⟩ := turn_cases hturn
  have hreacts := (h.evolves.attempt ht hattempt).run_react hreact
  simp only [Stepwise.turn, EStateM.run_bind, EStateM.run_get, hfin, Bool.false_eq_true, if_false]
  have hsize := h.counted.size_ne_zero hfin
  rcases run_tryNext h.evolves.wellFormed.sound hsize hturns ht hattempt with
    ⟨hrun, hfits⟩ | ⟨k, blockers, failed, hstep, hk, hrun⟩
  · rw [hrun, ← hid]
    refine .inl ⟨?_, fun a k ⟨_, blockers, hstep⟩ => hfits k blockers hstep⟩
    simp only [hreacts]
    rfl
  · rw [hrun]
    exact .inr ⟨turn.transaction, k, failed, ⟨rfl, blockers, hstep⟩, hk, rfl⟩

theorem Overflows.saturated (h : ring.Overflows) : ring.Saturated := by
  obtain ⟨t, -, -, -, after, turn, hturn, hd⟩ := h
  exact .inr ⟨after, turn, t.id, UInt32.size, hturn, hd, Nat.le_refl _⟩

theorem Saturated.isFinished_eq_false (h : ring.Saturated) : ring.isFinished = false := by
  rcases h with ⟨hfin, -⟩ | ⟨after, turn, a, k, hturn, -⟩
  · exact hfin
  · exact (turn_cases hturn).1

theorem Reached.run_turn (h : Reached store programs settings turns ring)
    (hfree : ¬ ring.Saturated) :
    ∃ turn? ring', Stepwise.turn.run ring = .ok turn? ring' ∧ ring.turn = .ok (ring', turn?) ∧
      (turn? = none ↔ ring.isFinished = true) := by
  cases hfin : ring.isFinished with
  | true =>
    refine ⟨none, ring, ?_, turn_of_isFinished hfin, iff_of_true rfl rfl⟩
    simp only [Stepwise.turn, EStateM.run_bind, EStateM.run_get, hfin, if_true]
    rfl
  | false =>
    obtain ⟨ring', turn, hturn⟩ := h.exists_turn hfin
    have hturns : ring.turns + 1 < UInt64.size :=
      Nat.not_le.1 fun hfull => hfree (.inl ⟨hfin, hfull⟩)
    rcases h.run_turn_some hturn hturns with ⟨hrun, -⟩ | ⟨a, k, failed, hd, hk, -⟩
    · exact ⟨some turn, ring', hrun, hturn, iff_of_false nofun nofun⟩
    · exact absurd (.inr ⟨ring', turn, a, k, hturn, hd, hk⟩) hfree

theorem Reached.run_turn_overflow (h : Reached store programs settings turns ring)
    (hfull : ring.Saturated) :
    ∃ failed, Stepwise.turn.run ring = .error .overflow failed := by
  have hfin := hfull.isFinished_eq_false
  by_cases hturns : ring.turns + 1 < UInt64.size
  · rcases hfull with ⟨-, hle⟩ | ⟨ring', turn, a, k, hturn, hd, hk⟩
    · exact absurd hturns (Nat.not_lt.2 hle)
    · rcases h.run_turn_some hturn hturns with ⟨-, hfits⟩ | ⟨_, _, failed, -, -, hrun⟩
      · exact absurd (hfits a k hd) (Nat.not_lt.2 hk)
      · exact ⟨failed, hrun⟩
  · have hmove := run_moveOn_full (h.counted.size_ne_zero hfin) (Nat.not_lt.1 hturns)
    refine ⟨ring, ?_⟩
    simp only [Stepwise.turn, Stepwise.tryNext, EStateM.run_bind, EStateM.run_get, hfin,
      Bool.false_eq_true, if_false, hmove]

/-! ## Runs -/

theorem Reached.run_runFor (h : Reached store programs settings earlier ring)
    (hturns : ring.Turns turns last)
    (hfree : ∀ sooner before, ring.Turns sooner before → sooner.length < turns.length →
      ¬ before.Saturated) (limit : Nat) :
    (Stepwise.runFor (turns.length + limit)).run ring = (Stepwise.runFor limit).run last := by
  induction hturns generalizing limit with
  | nil => rw [List.length_nil, Nat.zero_add]
  | @cons turns mid last turn hturns hturn ih =>
    rw [List.length_cons, Nat.add_assoc, Nat.add_comm 1, ih]
    · obtain ⟨turn?, ring', hrun, hturn', -⟩ :=
        (h.append hturns).run_turn (hfree turns mid hturns (Nat.lt_succ_self _))
      rw [hturn] at hturn'
      cases hturn'
      simp only [Stepwise.runFor, EStateM.run_bind, hrun]
    · exact fun sooner before hsooner hlt => hfree sooner before hsooner (Nat.lt_succ_of_lt hlt)

/-- No turns are left when a run has taken as many as it may. -/
theorem Reached.length_le_turnLimit (h : Reached store programs settings earlier ring)
    (hturns : ring.Turns turns mid) : turns.length ≤ ring.turnLimit := by
  obtain ⟨later, last, hlater, hfin, hlimit⟩ := h.exists_finished_within
  refine Nat.le_trans (Nat.not_lt.1 fun hlt => ?_) hlimit
  obtain ⟨more, hmore⟩ := Nat.le.dest (Nat.le_of_lt hlt)
  have h1 := hlater.runFor more
  have h2 := hturns.runFor 0
  rw [runFor_of_isFinished hfin, hmore] at h1
  rw [Nat.add_zero, h1] at h2
  cases h2
  have hcount := (h.append hlater).counted.turns_eq.symm.trans (h.append hturns).counted.turns_eq
  rw [List.length_append, List.length_append] at hcount
  omega

theorem Reached.run_run (h : Reached store programs settings earlier ring)
    (hfree : ∀ turns mid, ring.Turns turns mid → ¬ mid.Saturated) :
    ∃ turns last, ring.Turns turns last ∧ last.isFinished = true ∧
      Stepwise.run.run ring = .ok last.report last := by
  obtain ⟨turns, last, hturns, hfin, hlimit⟩ := h.exists_finished_within
  obtain ⟨more, hmore⟩ := Nat.le.dest hlimit
  have hlast : (Stepwise.runFor more).run last = .ok () last := by
    cases more with
    | zero => rfl
    | succ more =>
      obtain ⟨turn?, ring', hrun, hturn, hnone⟩ :=
        (h.append hturns).run_turn (hfree turns last hturns)
      obtain rfl := hnone.2 hfin
      obtain rfl := turn_none hturn
      simp only [Stepwise.runFor, EStateM.run_bind, hrun]
      rfl
  refine ⟨turns, last, hturns, hfin, ?_⟩
  simp only [Stepwise.run, EStateM.run_bind, EStateM.run_get, ← hmore,
    h.run_runFor hturns fun sooner before hsooner _ => hfree sooner before hsooner, hlast]
  rfl

theorem Reached.run_run_overflow (h : Reached store programs settings earlier ring)
    (hturns : ring.Turns turns mid) (hfull : mid.Saturated) :
    ∃ failed, Stepwise.run.run ring = .error .overflow failed := by
  generalize hn : turns.length = n
  induction n using Nat.strongRecOn generalizing turns mid with
  | ind n ih =>
    by_cases hsooner : ∃ sooner before, ring.Turns sooner before ∧ sooner.length < n ∧
        before.Saturated
    · obtain ⟨sooner, before, hsooner, hlt, hsat⟩ := hsooner
      exact ih _ hlt hsooner hsat rfl
    · have hmid := h.append hturns
      obtain ⟨failed, hrun⟩ := hmid.run_turn_overflow hfull
      obtain ⟨after, turn, hturn⟩ := hmid.exists_turn hfull.isFinished_eq_false
      obtain ⟨more, hmore⟩ := Nat.le.dest (h.length_le_turnLimit (hturns.cons hturn))
      rw [List.length_cons, Nat.add_assoc, Nat.add_comm 1] at hmore
      have hfirst := h.run_runFor hturns (fun sooner before hs hlt hsat =>
        hsooner ⟨sooner, before, hs, hn ▸ hlt, hsat⟩) (more + 1)
      have hlast : (Stepwise.runFor (more + 1)).run mid = .error .overflow failed := by
        simp only [Stepwise.runFor, EStateM.run_bind, hrun]
      refine ⟨failed, ?_⟩
      simp only [Stepwise.run, EStateM.run_bind, EStateM.run_get, ← hmore, hfirst, hlast]

/-! ## Too little to do -/

/-- Each window of so many turns leaves less to do, whatever else is called in between. -/
theorem Reached.remaining_add_le_of_turns (h : Reached store programs settings turns ring)
    (hpos : 0 < programs.length)
    (hle : max 1 settings.threshold.toNat * programs.length * k ≤ turns.length) :
    remaining ring.transactions + k ≤
      programs.foldr (fun program total => program.length + total) 0 := by
  induction k generalizing turns ring with
  | zero =>
    have := h.remaining_add_spent
    omega
  | succ k ih =>
    rw [Nat.mul_succ] at hle
    have hwindow : 0 < max 1 settings.threshold.toNat * programs.length :=
      Nat.mul_pos (by omega) hpos
    obtain ⟨round, turn, sooner, rfl, hlen⟩ :=
      exists_eq_append_cons hwindow (Nat.le_trans (Nat.le_add_left _ _) hle)
    rw [List.length_append, List.length_cons] at hle
    obtain ⟨before, mid, hbefore, hturn, hcourse⟩ := h.split
    have hplays := (hbefore.evolves.plays hturn).remaining hbefore.evolves.wellFormed
    have hless : remaining ring.transactions < remaining before.transactions := by
      rcases (hbefore.turn hturn).turns_or_less hcourse with hturns | hless
      · have hall := (Turns.cons .nil hturn).append hturns
        refine (hbefore.remaining_turns hall).2 ?_
        refine hbefore.exists_not_quiet (turn_cases hturn).1 hall (Nat.le_of_eq ?_)
        rw [List.length_append, List.length_singleton, hlen]
      · exact Nat.lt_of_lt_of_le hless hplays.1
    have := ih hbefore (by omega)
    omega

theorem Reached.turns_lt (h : Reached store programs settings turns ring)
    (hfin : ring.isFinished = false) :
    turns.length < ring.patience * ring.size * ring.operationCount := by
  have hw := h.evolves.wellFormed
  have hsize : 0 < ring.size := Nat.pos_of_ne_zero (h.counted.size_ne_zero hfin)
  rw [Ring.size, hw.length_eq] at hsize
  rw [h.counted.patience_eq, Ring.size, hw.length_eq, operationCount_eq hw]
  have hwindow : 0 < max 1 settings.threshold.toNat * programs.length :=
    Nat.mul_pos (by omega) hsize
  have hleft : remaining ring.transactions ≠ 0 := by
    rw [ne_eq, h.remaining_eq_zero_iff, hfin]
    exact Bool.false_ne_true
  have hle := h.remaining_add_le_of_turns hsize
    (Nat.mul_div_le turns.length (max 1 settings.threshold.toNat * programs.length))
  exact Nat.lt_of_lt_of_le (Nat.lt_mul_div_succ _ hwindow) (Nat.mul_le_mul_left _ (by omega))

theorem Reached.not_saturated (h : Reached store programs settings turns ring)
    (hslight : ring.Slight) : ¬ ring.Saturated := by
  rintro (⟨hfin, hfull⟩ | ⟨after, turn, a, k, hturn, hd, hk⟩)
  · rw [h.counted.turns_eq] at hfull
    have := Nat.lt_of_le_of_lt (Nat.succ_le_of_lt (h.turns_lt hfin)) hslight.turns
    omega
  · obtain ⟨j, rfl⟩ : ∃ j, k = j + 1 :=
      ⟨k - 1, (Nat.sub_add_cancel (Nat.le_trans (by decide) hk)).symm⟩
    have hbits : UInt32.size = 4294967296 := rfl
    have hthreshold := settings.threshold.toNat_lt
    have hwork := hslight.work
    have hpatience := hslight.patience
    rw [h.counted.patience_eq] at hpatience
    have hmany := h.operationCount_of_denies (k := j) (by omega) hturn hd
    omega

theorem Reached.slight (h : Reached store programs settings turns ring)
    (h' : Reached store programs settings earlier ring') (hslight : ring.Slight) :
    ring'.Slight := by
  have hcount : ring'.operationCount = ring.operationCount := by
    rw [operationCount_eq h.evolves.wellFormed, operationCount_eq h'.evolves.wellFormed]
  have hpatience : ring'.patience = ring.patience := by
    rw [h.counted.patience_eq, h'.counted.patience_eq]
  have hsize : ring'.size = ring.size := by
    rw [size, size, h.evolves.wellFormed.length_eq, h'.evolves.wellFormed.length_eq]
  refine ⟨?_, ?_, ?_⟩
  · rw [hcount]
    exact hslight.work
  · rw [hcount, hpatience]
    exact hslight.patience
  · rw [hcount, hpatience, hsize]
    exact hslight.turns

/-! ## All calls -/

theorem Reached.abort_refused_iff (h : Reached store programs settings turns ring) {e : Failure} :
    (Stepwise.abortById id).run ring = .error e ring' ↔
      (id = 0 ∨ programs.length < id) ∧ e = .refused (.unknownTransaction id) ∧ ring' = ring := by
  have hw := h.evolves.wellFormed
  rw [run_abortById hw, settled_eq_error_iff]
  by_cases hid : id = 0 ∨ programs.length < id
  · rw [abort_of_unknown hw hid]
    simp only [Except.mapError, Except.error.injEq, hid, true_and]
    exact and_congr_left' eq_comm
  · obtain ⟨ring₁, lsn, hab⟩ :=
      exists_abort_of_known hw (show 0 < id by omega) (show id ≤ programs.length by omega)
    rw [hab]
    exact iff_of_false (fun h => nomatch h.1) fun h => hid h.1

theorem Reached.unfailing (h : Reached store programs settings turns ring) :
    ring.Unfailing programs.length where
  place := h.counted.next_lt
  turn := h.run_turn
  overflow := h.run_turn_overflow
  detect := by
    obtain ⟨ring', deadlock, hd⟩ := h.evolves.exists_detect
    exact ⟨deadlock, ring', h.evolves.run_detect hd⟩
  abort id hpos hle := by
    have hw := h.evolves.wellFormed
    obtain ⟨ring', lsn, hab⟩ := exists_abort_of_known hw hpos hle
    rw [run_abortById hw, hab]
    exact ⟨lsn, ring', rfl⟩
  refuse _ _ _ := h.abort_refused_iff
  run := h.run_run
  runOverflow _ _ := h.run_run_overflow

theorem Reached.exists_after (h : Reached store programs settings turns ring) {call : Call}
    (hcounts : call = .turn → ¬ ring.Saturated) :
    ∃ turns ring', ring.after call = some ring' ∧ Reached store programs settings turns ring' := by
  cases call with
  | turn =>
    obtain ⟨turn?, ring', hrun, hturn, -⟩ := h.run_turn (hcounts rfl)
    rw [after, hrun]
    cases turn? with
    | none => exact ⟨turns, ring', rfl, turn_none hturn ▸ h⟩
    | some turn => exact ⟨turn :: turns, ring', rfl, h.turn hturn⟩
  | detect =>
    obtain ⟨ring', deadlock, hd⟩ := h.evolves.exists_detect
    rw [after, h.evolves.run_detect hd]
    exact ⟨turns, ring', rfl, h.detect hd⟩
  | abort id =>
    rw [after, run_abortById h.evolves.wellFormed]
    cases hab : ring.abort id with
    | error e => exact ⟨turns, ring, rfl, h⟩
    | ok result => exact ⟨turns, result.1, rfl, h.abort hab⟩

theorem Reached.after_of_saturated (h : Reached store programs settings turns ring)
    (hfull : ring.Saturated) : ring.after .turn = none := by
  obtain ⟨failed, hrun⟩ := h.run_turn_overflow hfull
  rw [after, hrun]
  rfl

theorem leftBy_cons (ring : Ring) (call : Call) (rest : List Call) :
    ring.leftBy (call :: rest) = (ring.after call).bind fun next => next.leftBy rest :=
  List.foldlM_cons

theorem Reached.leftBy (h : Reached store programs settings turns ring) {calls : List Call}
    (hleft : ring.leftBy calls = some ring') :
    ∃ turns, Reached store programs settings turns ring' := by
  induction calls generalizing turns ring with
  | nil =>
    cases hleft
    exact ⟨turns, h⟩
  | cons call rest ih =>
    rw [leftBy_cons] at hleft
    by_cases hfull : call = .turn ∧ ring.Saturated
    · obtain ⟨rfl, hfull⟩ := hfull
      rw [h.after_of_saturated hfull] at hleft
      cases hleft
    · obtain ⟨turns', mid, hafter, hmid⟩ := h.exists_after fun hcall hsat => hfull ⟨hcall, hsat⟩
      rw [hafter] at hleft
      exact ih hmid hleft

/-- Calls leave no ring if a turn among them cannot be counted. -/
theorem Reached.leftBy_eq_none_iff (h : Reached store programs settings turns ring)
    {calls : List Call} :
    ring.leftBy calls = none ↔ ∃ sooner later before, calls = sooner ++ .turn :: later ∧
      ring.leftBy sooner = some before ∧ before.Saturated := by
  constructor
  · intro hnone
    induction calls generalizing turns ring with
    | nil => cases hnone
    | cons call rest ih =>
      by_cases hfull : call = .turn ∧ ring.Saturated
      · exact ⟨[], rest, ring, congrArg (· :: rest) hfull.1, rfl, hfull.2⟩
      · obtain ⟨turns', mid, hafter, hmid⟩ := h.exists_after fun hcall hsat => hfull ⟨hcall, hsat⟩
        rw [leftBy_cons, hafter] at hnone
        obtain ⟨sooner, later, before, rfl, hsooner, hsat⟩ := ih hmid hnone
        refine ⟨call :: sooner, later, before, rfl, ?_, hsat⟩
        rw [leftBy_cons, hafter]
        exact hsooner
  · rintro ⟨sooner, later, before, rfl, hsooner, hfull⟩
    obtain ⟨turns', hbefore⟩ := h.leftBy hsooner
    unfold Ring.leftBy at hsooner ⊢
    rw [List.foldlM_append, hsooner]
    show before.leftBy (.turn :: later) = none
    rw [leftBy_cons, hbefore.after_of_saturated hfull]
    rfl

end Ring

/-- **What makes a ring fail.** A ring can be started over a store exactly if its programs stay
within the store; else the largest record of the first that does not is blamed. Whatever is called
then, part by part and in any order, all goes well until a turn is due that cannot be counted: an
abort is refused exactly if nobody has that number, and leaves the ring as it was, and no other call
fails; a run that meets no such turn comes to its end, and one that does fails. If there is too
little to do to fill a counter, nothing fails at all. -/
theorem started_ring_unfailing (store : Store) (programs : List Program) (settings : Settings) :
    ((∃ ring, Ring.start store programs settings = .ok ring) ↔
      ∀ program ∈ programs, program.Within store.size) ∧
    (∀ e, Ring.start store programs settings = .error e ↔
      ∃ record, BlamedRecord store.size programs record ∧
        e = .recordOutOfBounds record store.size) ∧
    ∀ ring, Ring.start store programs settings = .ok ring →
      (∀ calls ring', ring.leftBy calls = some ring' → ring'.Unfailing programs.length) ∧
      (∀ calls, ring.leftBy calls = none ↔ ∃ sooner later before,
        calls = sooner ++ .turn :: later ∧ ring.leftBy sooner = some before ∧ before.Saturated) ∧
      (ring.Slight → ∀ calls, ∃ ring', ring.leftBy calls = some ring' ∧
        ∀ turns mid, ring'.Turns turns mid → ¬ mid.Saturated) := by
  refine ⟨Ring.start_eq_ok_iff, fun e => Ring.start_eq_error_iff, fun ring hstart => ?_⟩
  have hr : Ring.Reached store programs settings [] ring := .start hstart
  refine ⟨fun calls ring' hleft => ?_, fun calls => hr.leftBy_eq_none_iff,
    fun hslight calls => ?_⟩
  · obtain ⟨turns, hr'⟩ := hr.leftBy hleft
    exact hr'.unfailing
  · have hcounts : ∀ {turns ring'}, Ring.Reached store programs settings turns ring' →
        ¬ ring'.Saturated := fun h => h.not_saturated (hr.slight h hslight)
    cases hleft : ring.leftBy calls with
    | none =>
      obtain ⟨sooner, later, before, -, hsooner, hfull⟩ := hr.leftBy_eq_none_iff.1 hleft
      obtain ⟨turns, hbefore⟩ := hr.leftBy hsooner
      exact absurd hfull (hcounts hbefore)
    | some ring' =>
      obtain ⟨turns, hr'⟩ := hr.leftBy hleft
      exact ⟨ring', rfl, fun later mid hlater => hcounts (hr'.append hlater)⟩

/-- Nobody has the number 4, and T2 is aborted by hand; T1 and T3 then run to the end. Over one
record the ring cannot be started: of the first program, record 1 is blamed. -/
theorem started_ring_unfailing_crossing :
    (∃ ring ring' last : Ring, Ring.start ⟨[5, 6]⟩ crossing ⟨2⟩ = .ok ring ∧
      ring.leftBy [.turn, .abort 4, .turn, .detect, .abort 2, .abort 0, .turn] = some ring' ∧
      ring'.Unfailing 3 ∧ Stepwise.run.run ring' = .ok last.report last) ∧
    Ring.start ⟨[5]⟩ crossing ⟨2⟩ = .error (.recordOutOfBounds 1 1) := by
  constructor
  · obtain ⟨hstart, -, hcalls⟩ := started_ring_unfailing ⟨[5, 6]⟩ crossing ⟨2⟩
    obtain ⟨ring, h⟩ := hstart.2 (by decide)
    obtain ⟨hunfailing, -, hslight⟩ := hcalls ring h
    have hfew : ring.Slight := by
      cases h
      constructor
      · decide
      · decide
      · decide
    obtain ⟨ring', hleft, hfree⟩ :=
      hslight hfew [.turn, .abort 4, .turn, .detect, .abort 2, .abort 0, .turn]
    obtain ⟨turns, last, -, -, hrun⟩ := (hunfailing _ ring' hleft).run hfree
    exact ⟨ring, ring', last, h, hleft, hunfailing _ ring' hleft, hrun⟩
  · refine ((started_ring_unfailing ⟨[5]⟩ crossing ⟨2⟩).2.1 _).2 ⟨1, ?_, rfl⟩
    refine ⟨[], _, _, rfl, by simp, ?_, by decide⟩
    simp [Program.Largest, Program.records, Operation.record?]

/-- **A run fails** in which T3 is denied more often than can be counted. -/
theorem started_ring_overflows :
    ∃ ring failed, Ring.start ⟨[0, 0, 0]⟩ doubleStandoff ⟨4294967295⟩ = .ok ring ∧
      Stepwise.run.run ring = .error .overflow failed := by
  obtain ⟨ring, hstart⟩ : ∃ ring,
      Ring.start ⟨[0, 0, 0]⟩ doubleStandoff ⟨4294967295⟩ = .ok ring := ⟨_, rfl⟩
  obtain ⟨turns, mid, hturns, hover⟩ := doubleStandoffAt.exists_overflows hstart (by decide)
  obtain ⟨failed, hrun⟩ := (Ring.Reached.start hstart).run_run_overflow hturns hover.saturated
  exact ⟨ring, failed, hstart, hrun⟩

end

end TwoPhase
