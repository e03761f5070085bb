import TwoPhase.Proofs.Progress

/-!
# Termination

The operations that the unfinished transactions have still to do are counted by
`remaining`. An operation done or a transaction aborted makes them fewer, and no turn
makes them more (`Plays.remaining`). Since there is progress again and again, the ring
comes to its end, after at most as many turns as the patience of a round for each
operation allows (`Reached.exists_finished`).
-/

namespace TwoPhase

def Transaction.remaining (t : Transaction) : Nat :=
  if t.isFinished then 0 else t.program.length - t.cursor

def remaining (ts : List Transaction) : Nat :=
  ts.foldr (fun t total => t.remaining + total) 0

section
variable {store : Store} {programs : List Program} {settings : Settings} {turns : List Turn}
  {db db' : Database} {ts ts' : List Transaction} {p : Nat} {t t' : Transaction} {deed : Deed}
  {ring ring' mid last : Ring} {turn : Turn}

/-! ## What is left to do -/

theorem Transaction.remaining_of_none (h : t.outcome = none) :
    t.remaining = t.program.length - t.cursor := by
  unfold remaining isFinished
  rw [h]
  rfl

theorem Transaction.remaining_le (t : Transaction) : t.remaining ≤ t.program.length := by
  unfold remaining
  split <;> omega

theorem remaining_set (ht : ts[p]? = some t) (t' : Transaction) :
    remaining (ts.set p t') + t.remaining = remaining ts + t'.remaining := by
  unfold remaining
  induction ts generalizing p with
  | nil => cases ht
  | cons x rest ih =>
    cases p with
    | zero =>
      cases ht
      simp only [List.set_cons_zero, List.foldr_cons]
      omega
    | succ p =>
      have := ih (p := p) ht
      simp only [List.set_cons_succ, List.foldr_cons]
      omega

theorem remaining_eq_zero_iff : remaining ts = 0 ↔ ∀ t ∈ ts, t.remaining = 0 := by
  unfold remaining
  induction ts with
  | nil => simp
  | cons t rest ih => rw [List.foldr_cons, Nat.add_eq_zero_iff, ih, List.forall_mem_cons]

theorem Acts.remaining_eq_succ {e : Event} (ha : Acts db t (.done e) db' t') (hne : e ≠ .abort) :
    t.remaining = t'.remaining + 1 := by
  have hout := ha.outcome_eq_none
  cases ha with
  | access pending request =>
    have hlt := t.succ_lt_of_request pending request
    have hthen : ({ t with cursor := t.cursor + 1, denials := 0 } : Transaction).remaining =
        t.program.length - (t.cursor + 1) := Transaction.remaining_of_none hout
    rw [hthen, Transaction.remaining_of_none hout]
    omega
  | commit pending =>
    have hlen := congrArg List.length
      (Program.take_append_commit (Transaction.pending?_eq_some.1 pending).2)
    rw [List.length_append, List.length_take, List.length_singleton] at hlen
    rw [Transaction.remaining_of_none hout]
    show t.program.operations.length - t.cursor = 0 + 1
    omega
  | abort => exact absurd rfl hne

theorem Acts.remaining_done {e : Event} (ha : Acts db t (.done e) db' t')
    (hw : WellFormed store programs db ts) (ht : ts[p]? = some t) :
    remaining (ts.set p t') < remaining ts := by
  have hsum := remaining_set ht t'
  have : t'.remaining < t.remaining := by
    by_cases he : e = .abort
    · subst he
      have hlt := hw.cursors t (List.mem_of_getElem? ht) ha.outcome_eq_none
      obtain ⟨-, rfl⟩ := ha.abort_inv
      rw [Transaction.remaining_of_none ha.outcome_eq_none]
      show 0 < _
      omega
    · rw [ha.remaining_eq_succ he]
      omega
  omega

theorem Acts.remaining_denied {blockers : IdSet} (ha : Acts db t (.denied blockers) db' t')
    (ht : ts[p]? = some t) : remaining (ts.set p t') = remaining ts := by
  have hsum := remaining_set ht t'
  obtain ⟨-, rfl, -⟩ := ha.denied_inv
  have : ({ t with denials := t.denials + 1 } : Transaction).remaining = t.remaining := rfl
  omega

/-- No turn adds to what is left to do, and one that is not quiet takes from it. -/
theorem Plays.remaining {patience : Nat} (hp : Plays patience db ts p turn db' ts')
    (hw : WellFormed store programs db ts) :
    remaining ts' ≤ remaining ts ∧ (¬ turn.Quiet → remaining ts' < remaining ts) := by
  cases hp with
  | idle => exact ⟨Nat.le_refl _, fun hloud => absurd ⟨nofun, rfl⟩ hloud⟩
  | progress ht ha =>
    have hlt := ha.remaining_done hw ht
    exact ⟨Nat.le_of_lt hlt, fun _ => hlt⟩
  | denied ht ha =>
    exact ⟨Nat.le_of_eq (ha.remaining_denied ht), fun hloud => absurd ⟨nofun, rfl⟩ hloud⟩
  | broken ht ha hd hv hid hab =>
    have hlt := hab.remaining_done (hw.act ht ha) hv
    rw [ha.remaining_denied ht] at hlt
    exact ⟨Nat.le_of_lt hlt, fun _ => hlt⟩

namespace Ring

variable {earlier : List Turn}

theorem Reached.remaining_turns (h : Reached store programs settings earlier ring)
    (hturns : ring.Turns turns last) :
    remaining last.transactions ≤ remaining ring.transactions ∧
      ((∃ turn ∈ turns, ¬ turn.Quiet) →
        remaining last.transactions < remaining ring.transactions) := by
  induction hturns with
  | nil => exact ⟨Nat.le_refl _, fun ⟨_, hmem, _⟩ => by cases hmem⟩
  | @cons turns mid last turn hturns hturn ih =>
    have hmid := (h.append hturns).evolves
    obtain ⟨hle, hlt⟩ := (hmid.plays hturn).remaining hmid.wellFormed
    refine ⟨Nat.le_trans hle ih.1, ?_⟩
    rintro ⟨x, hmem, hloud⟩
    rcases List.mem_cons.1 hmem with rfl | hmem
    · exact Nat.lt_of_lt_of_le (hlt hloud) ih.1
    · exact Nat.lt_of_le_of_lt hle (ih.2 ⟨x, hmem, hloud⟩)

/-! ## The end of a run -/

theorem Reached.exists_turns (h : Reached store programs settings earlier ring) (n : Nat) :
    ∃ turns last, ring.Turns turns last ∧ turns.length ≤ n ∧
      (turns.length = n ∨ last.isFinished = true) := by
  induction n with
  | zero => exact ⟨[], ring, .nil, Nat.le_refl _, .inl rfl⟩
  | succ n ih =>
    obtain ⟨turns, mid, hturns, hle, hn⟩ := ih
    cases hfin : mid.isFinished with
    | true => exact ⟨turns, mid, hturns, by omega, .inr hfin⟩
    | false =>
      rw [hfin] at hn
      have hlen : turns.length = n := hn.resolve_right nofun
      obtain ⟨last, turn, hturn⟩ := (h.append hturns).exists_turn hfin
      refine ⟨turn :: turns, last, .cons hturns hturn, ?_, .inl ?_⟩
      · rw [List.length_cons]
        omega
      · rw [List.length_cons]
        omega

theorem Reached.remaining_eq_zero_iff (h : Reached store programs settings earlier ring) :
    remaining ring.transactions = 0 ↔ ring.isFinished = true := by
  rw [h.counted.isFinished_iff, TwoPhase.remaining_eq_zero_iff]
  refine forall_congr' fun t => forall_congr' fun ht => ?_
  cases hout : t.outcome with
  | none =>
    have := h.evolves.wellFormed.cursors t ht hout
    rw [Transaction.remaining_of_none hout]
    simp only [ne_eq, not_true_eq_false, iff_false]
    omega
  | some outcome => simp [Transaction.remaining, Transaction.isFinished, hout]

/-- Within the patience of one round, something is done. -/
theorem Reached.exists_less (h : Reached store programs settings earlier ring)
    (hfin : ring.isFinished = false) :
    ∃ turns last, ring.Turns turns last ∧
      turns.length ≤ max 1 settings.threshold.toNat * programs.length ∧
      remaining last.transactions < remaining ring.transactions := by
  obtain ⟨turns, last, hturns, hle, hlen | hend⟩ :=
    h.exists_turns (max 1 settings.threshold.toNat * programs.length)
  · have hloud := h.exists_not_quiet hfin hturns (Nat.le_of_eq hlen.symm)
    exact ⟨turns, last, hturns, hle, (h.remaining_turns hturns).2 hloud⟩
  · refine ⟨turns, last, hturns, hle, ?_⟩
    have hzero := (h.append hturns).remaining_eq_zero_iff.2 hend
    have hpos : remaining ring.transactions ≠ 0 := by
      rw [ne_eq, h.remaining_eq_zero_iff, hfin]
      exact nofun
    omega

/-- **Every run ends**, after at most the patience of one round for each operation left. -/
theorem Reached.exists_finished (h : Reached store programs settings earlier ring) :
    ∃ turns last, ring.Turns turns last ∧ last.isFinished = true ∧
      turns.length ≤
        max 1 settings.threshold.toNat * programs.length * remaining ring.transactions := by
  generalize hr : remaining ring.transactions = r
  induction r using Nat.strongRecOn generalizing earlier ring with
  | ind r ih =>
    cases hfin : ring.isFinished with
    | true => exact ⟨[], ring, .nil, hfin, Nat.zero_le _⟩
    | false =>
      obtain ⟨turns, mid, hturns, hle, hless⟩ := h.exists_less hfin
      rw [hr] at hless
      obtain ⟨later, last, hlater, hend, hle'⟩ := ih _ hless (h.append hturns) rfl
      refine ⟨later ++ turns, last, hturns.append hlater, hend, ?_⟩
      have hmul := Nat.mul_le_mul_left (max 1 settings.threshold.toNat * programs.length)
        (Nat.succ_le_of_lt hless)
      rw [Nat.mul_succ] at hmul
      rw [List.length_append]
      omega

theorem Turns.runFor (h : ring.Turns turns last) (limit : Nat) :
    runFor (turns.length + limit) ring = runFor limit last := by
  induction h generalizing limit with
  | nil => rw [List.length_nil, Nat.zero_add]
  | @cons turns mid last turn hturns hturn ih =>
    rw [List.length_cons, Nat.add_assoc, Nat.add_comm 1, ih]
    simp only [Ring.runFor, hturn]

theorem turn_of_isFinished (h : ring.isFinished = true) : ring.turn = .ok (ring, none) := by
  unfold Ring.turn
  rw [if_pos h]

theorem runFor_of_isFinished (h : ring.isFinished = true) (limit : Nat) :
    runFor limit ring = .ok ring := by
  cases limit with
  | zero => rfl
  | succ limit => simp only [Ring.runFor, turn_of_isFinished h]

/-! ## What a run reports -/

theorem operationCount_eq (hw : WellFormed store programs ring.database ring.transactions) :
    ring.operationCount = programs.foldr (fun program total => program.length + total) 0 := by
  unfold operationCount
  rw [← hw.programs, List.foldr_map]

theorem remaining_start (h : Ring.start store programs settings = .ok ring) :
    remaining ring.transactions = ring.operationCount := by
  obtain ⟨ts, hts, rfl⟩ := start_eq_ok h
  refine List.foldr_ext _ _ _ fun t ht total => ?_
  obtain ⟨p, hp⟩ := List.mem_iff_getElem?.1 ht
  rw [((enlist_spec hts).2 p t hp).2]
  rfl

theorem remaining_le_operationCount (ring : Ring) :
    remaining ring.transactions ≤ ring.operationCount := by
  unfold remaining operationCount
  induction ring.transactions with
  | nil => exact Nat.le_refl 0
  | cons t rest ih =>
    have := t.remaining_le
    simp only [List.foldr_cons]
    omega

/-- A run may take as many turns as it needs. -/
theorem Reached.exists_finished_within (h : Reached store programs settings earlier ring) :
    ∃ turns last, ring.Turns turns last ∧ last.isFinished = true ∧
      turns.length ≤ ring.turnLimit := by
  obtain ⟨turns, last, hturns, hfin, hle⟩ := h.exists_finished
  refine ⟨turns, last, hturns, hfin, Nat.le_trans hle ?_⟩
  refine Nat.mul_le_mul ?_ ring.remaining_le_operationCount
  rw [h.counted.patience_eq, Ring.size, h.evolves.wellFormed.length_eq]
  exact Nat.mul_le_mul_right _ (Nat.le_add_right _ _)

/-- However the end was found, it is what a run reports. -/
theorem Reached.run_of_turns (h : Reached store programs settings earlier ring)
    (hturns : ring.Turns turns last) (hfin : last.isFinished = true) :
    ring.run = .ok last.report := by
  obtain ⟨sooner, last', hsooner, hfin', hlimit⟩ := h.exists_finished_within
  have hlast : last' = last := by
    have h1 := hturns.runFor sooner.length
    have h2 := hsooner.runFor turns.length
    rw [runFor_of_isFinished hfin, Nat.add_comm] at h1
    rw [runFor_of_isFinished hfin', h1] at h2
    exact (Except.ok.inj h2).symm
  obtain ⟨more, hmore⟩ := Nat.le.dest hlimit
  unfold Ring.run
  rw [← hmore, hsooner.runFor, runFor_of_isFinished hfin', hlast]
  rfl

theorem run_of_turns (h : Ring.start store programs settings = .ok ring)
    (hturns : ring.Turns turns last) (hfin : last.isFinished = true) :
    ring.run = .ok last.report := (Reached.start h).run_of_turns hturns hfin

theorem Reached.map_outcomes (h : Reached store programs settings earlier ring)
    (hfin : ring.isFinished = true) :
    ring.report.outcomes.map (·.1) = List.range' 1 programs.length := by
  have hw := h.evolves.wellFormed
  have hids : ring.report.outcomes.map (·.1) = ring.transactions.map (·.id) := by
    unfold report
    rw [List.map_filterMap, ← List.filterMap_eq_map]
    refine List.filterMap_congr fun t ht => ?_
    have hout := h.counted.isFinished_iff.1 hfin t ht
    obtain ⟨outcome, hsome⟩ := Option.ne_none_iff_exists'.1 hout
    simp [hsome]
  rw [hids, ← hw.length_eq]
  refine List.ext_getElem (by simp) fun i hi hi' => ?_
  rw [List.length_map] at hi
  rw [List.getElem_map, List.getElem_range', hw.ids i _ (List.getElem?_eq_getElem hi)]
  omega

end Ring

/-- **Termination with a bound.** A run ends by itself and without error, every transaction has
committed or aborted, and the turns are at most those of the patience of one round for each
operation. From any unfinished state on the way, as many turns as make up the patience of one round
see an operation done or a victim aborted. -/
theorem run_terminates (h : Ring.start store programs settings = .ok ring) :
    (∃ turns last, ring.Turns turns last ∧ last.isFinished = true ∧
      (∀ limit, turns.length ≤ limit → Ring.runFor limit ring = .ok last) ∧
      ring.run = .ok last.report ∧
      last.report.outcomes.map (·.1) = List.range' 1 programs.length ∧
      last.report.turns = turns.length ∧
      last.report.turns ≤
        programs.length * max 1 settings.threshold.toNat *
          programs.foldr (fun program total => program.length + total) 0) ∧
    ∀ earlier mid window last, ring.Turns earlier mid → mid.isFinished = false →
      mid.Turns window last →
      window.length = max 1 settings.threshold.toNat * programs.length →
      ∃ later turn before after sooner, window = later ++ turn :: sooner ∧
        mid.Turns sooner before ∧ before.turn = .ok (after, some turn) ∧
        ((∃ lsn, turn.step = .progressed lsn) ∨
          ∃ d, turn.deadlock = some d ∧ Unfinished before.transactions d.victim ∧
            ∃ t ∈ after.transactions, t.id = d.victim ∧ t.outcome = some .aborted) := by
  have hr : Ring.Reached store programs settings [] ring := .start h
  constructor
  · obtain ⟨turns, last, hturns, hfin, hle⟩ := hr.exists_finished
    have hlast := hr.append hturns
    have hw := hr.evolves.wellFormed
    rw [Ring.remaining_start h, Ring.operationCount_eq hw, Nat.mul_comm (max 1 _)] at hle
    have hrun : ∀ limit, turns.length ≤ limit → Ring.runFor limit ring = .ok last := by
      intro limit hlimit
      obtain ⟨more, rfl⟩ := Nat.le.dest hlimit
      rw [hturns.runFor, Ring.runFor_of_isFinished hfin]
    have hturned : last.report.turns = turns.length := by
      have := hlast.counted.turns_eq
      rw [List.append_nil] at this
      exact this
    refine ⟨turns, last, hturns, hfin, hrun, ?_, hlast.map_outcomes hfin, hturned, by omega⟩
    unfold Ring.run
    rw [hrun]
    · rfl
    · unfold Ring.turnLimit
      rw [hr.counted.patience_eq, Ring.size, hw.length_eq, Ring.operationCount_eq hw]
      refine Nat.le_trans hle (Nat.mul_le_mul_right _ ?_)
      rw [Nat.mul_comm]
      exact Nat.mul_le_mul_right _ (Nat.le_add_right _ _)
  · intro earlier mid window last hearlier hfin hwindow hlen
    have hmid := hr.append hearlier
    obtain ⟨turn, hmem, hloud⟩ := hmid.exists_not_quiet hfin hwindow (Nat.le_of_eq hlen.symm)
    obtain ⟨later, sooner, before, after, hsplit, hsooner, hturn⟩ := hwindow.split hmem
    have hbefore := (hmid.append hsooner).evolves
    exact ⟨later, turn, before, after, sooner, hsplit, hsooner, hturn,
      (hbefore.plays hturn).of_not_quiet hbefore.wellFormed hloud⟩

/-- The run is over within 54 turns, and the first six see something happen. -/
theorem run_terminates_crossing :
    ∃ (ring mid last : Ring) (turns window : List Turn),
      Ring.start ⟨[5, 6]⟩ crossing ⟨2⟩ = .ok ring ∧ ring.Turns turns last ∧
      ring.run = .ok last.report ∧ last.report.outcomes.map (·.1) = [1, 2, 3] ∧
      last.report.turns ≤ 54 ∧ ring.Turns window mid ∧ window.length = 6 ∧
      ∃ turn ∈ window, (∃ lsn, turn.step = .progressed lsn) ∨ ∃ d, turn.deadlock = some d := by
  have hshort : ((Ring.start ⟨[5, 6]⟩ crossing ⟨2⟩).bind (Ring.runFor 6)).toOption.any
      (·.isFinished) = false := by decide +kernel
  cases h : Ring.start ⟨[5, 6]⟩ crossing ⟨2⟩ with
  | error e =>
    have : (Ring.start ⟨[5, 6]⟩ crossing ⟨2⟩).toOption.isSome = true := by decide +kernel
    simp [h, Except.toOption] at this
  | ok ring =>
    obtain ⟨⟨turns, last, hturns, -, -, hrun, hout, -, hle⟩, hwindow⟩ := run_terminates h
    have hopen : ∀ (window : List Turn) (mid : Ring), ring.Turns window mid →
        window.length ≤ 6 → mid.isFinished = false := by
      intro window mid hmid hlen
      obtain ⟨more, hmore⟩ := Nat.le.dest hlen
      by_contra hfin
      rw [Bool.not_eq_false] at hfin
      rw [h, ← hmore, Except.bind, hmid.runFor, Ring.runFor_of_isFinished hfin] at hshort
      exact absurd hfin (by simpa [Except.toOption] using hshort)
    obtain ⟨window, mid, hmid, hlen, hsix⟩ := (Ring.Reached.start h).exists_turns 6
    have hsix : window.length = 6 := hsix.resolve_right (by simp [hopen window mid hmid hlen])
    obtain ⟨later, turn, before, after, sooner, hsplit, -, -, hloud⟩ :=
      hwindow [] ring window mid .nil (hopen [] ring .nil (Nat.zero_le 6)) hmid hsix
    refine ⟨ring, mid, last, turns, window, rfl, hturns, hrun, hout, hle, hmid, hsix, turn, ?_, ?_⟩
    · rw [hsplit]
      exact List.mem_append_right later List.mem_cons_self
    · rcases hloud with hdone | ⟨d, hd, -⟩
      · exact .inl hdone
      · exact .inr ⟨d, hd⟩

end

end TwoPhase
