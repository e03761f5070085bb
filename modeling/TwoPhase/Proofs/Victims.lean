import TwoPhase.Proofs.Termination

/-!
# Deadlocks and their victims

What a ring reports about deadlocks agrees with what became of its transactions.

* `Deadlock.Genuine`: the cycle has two members at least, all different and unfinished,
  and the victim is the largest. So the smallest unfinished transaction is never a
  victim (`Genuine.exists_lt`).
* `Plays.aborted_iff`: a turn aborts the victim of its deadlock and nobody else, so
  along turns the aborted transactions are the victims (`Reached.aborted_turns`).
* `deadlock_accounting`: victims and aborted transactions of a complete run, and the
  same law of victims for searches in any reached ring.
-/

namespace TwoPhase

def Aborted (ts : List Transaction) (u : Nat) : Prop :=
  ∃ t ∈ ts, t.id = u ∧ t.outcome = some .aborted

/-- What is found is a cycle of unfinished transactions, two at least, and the victim is the
largest. -/
structure Deadlock.Genuine (ts : List Transaction) (d : Deadlock) : Prop where
  two_le : 2 ≤ d.cycle.length
  nodup : d.cycle.Nodup
  unfinished : ∀ u ∈ d.cycle, Unfinished ts u
  mem : d.victim ∈ d.cycle
  largest : ∀ u ∈ d.cycle, u ≤ d.victim

section
variable {store : Store} {programs : List Program} {settings : Settings} {turns : List Turn}
  {db db' : Database} {ts ts' : List Transaction} {p u : Nat} {t t' : Transaction} {deed : Deed}
  {ring ring' mid last : Ring} {turn : Turn} {d : Deadlock} {lsn : Option Nat}

/-! ## Cycles that are found -/

theorem Waiting.ne_of_hasEdge (h : Waiting db ts) {a b : Nat}
    (hedge : db.waits.hasEdge a b = true) : b ≠ a := by
  rintro rfl
  obtain ⟨t, -, -, op, mode, record, -, -, hne, -⟩ :=
    h.obstructs b b hedge (h.source b b hedge)
  exact hne rfl

theorem Evolves.genuine (h : Evolves store programs db ts)
    (hd : db.waits.findDeadlock = some d) : d.Genuine ts := by
  have hcycle := WaitGraph.isCycle_of_findDeadlock hd
  have hmax := (WaitGraph.findDeadlock_eq_some.1 hd).2
  constructor
  case two_le =>
    have hpos := List.length_pos_of_ne_nil hcycle.nonempty
    by_contra hlt
    obtain ⟨a, ha⟩ := List.length_eq_one_iff.1 (show d.cycle.length = 1 by omega)
    have hself := hcycle.closes a (by simp [ha]) a (by simp [ha])
    exact h.waiting.ne_of_hasEdge hself rfl
  case nodup => exact hcycle.nodup
  case unfinished =>
    intro u hu
    obtain ⟨b, -, hedge⟩ := hcycle.exists_edge hu
    exact h.waiting.source u b hedge
  case mem => exact WaitGraph.victim_mem hd
  case largest => exact (List.max?_eq_some_iff.1 hmax).2

/-- The victim is not the smallest unfinished transaction. -/
theorem Deadlock.Genuine.exists_lt (h : d.Genuine ts) : ∃ u, u < d.victim ∧ Unfinished ts u := by
  obtain ⟨u, hu, hne⟩ : ∃ u ∈ d.cycle, u ≠ d.victim := by
    by_contra hnone
    have hsub : d.cycle ⊆ [d.victim] := fun u hu =>
      List.mem_singleton.2 (by_contra fun hne => hnone ⟨u, hu, hne⟩)
    have hlen := (List.subperm_of_subset h.nodup hsub).length_le
    have htwo := h.two_le
    rw [List.length_singleton] at hlen
    omega
  exact ⟨u, Nat.lt_of_le_of_ne (h.largest u hu) hne, h.unfinished u hu⟩

theorem WellFormed.pos_of_unfinished (hw : WellFormed store programs db ts)
    (hu : Unfinished ts u) : 0 < u := by
  obtain ⟨t, ht, rfl, -⟩ := hu
  obtain ⟨q, hq⟩ := List.mem_iff_getElem?.1 ht
  rw [hw.ids q t hq]
  omega

/-! ## Who is aborted -/

theorem WellFormed.not_aborted_of_unfinished (hw : WellFormed store programs db ts)
    (hu : Unfinished ts u) : ¬ Aborted ts u := by
  rintro ⟨x, hx, rfl, hxout⟩
  obtain ⟨y, hy, hid, hyout⟩ := hu
  rw [hw.eq_of_id hy hx hid, hxout] at hyout
  cases hyout

theorem WellFormed.aborted_set (hw : WellFormed store programs db ts) (ht : ts[p]? = some t)
    (ha : Acts db t deed db' t') :
    Aborted (ts.set p t') u ↔ Aborted ts u ∨ u = t.id ∧ t'.outcome = some .aborted := by
  constructor
  · rintro ⟨x, hx, rfl, hout⟩
    rcases (hw.mem_set ht).1 hx with rfl | ⟨hx, -⟩
    · exact .inr ⟨ha.id_eq, hout⟩
    · exact .inl ⟨x, hx, rfl, hout⟩
  · rintro (⟨x, hx, rfl, hout⟩ | ⟨rfl, hout⟩)
    · refine ⟨x, (hw.mem_set ht).2 (.inr ⟨hx, fun hid => ?_⟩), rfl, hout⟩
      rw [hw.eq_of_id hx (List.mem_of_getElem? ht) hid, ha.outcome_eq_none] at hout
      cases hout
    · exact ⟨t', (hw.mem_set ht).2 (.inl rfl), ha.id_eq, hout⟩

theorem Acts.outcome_ne_aborted {e : Event} (ha : Acts db t (.done e) db' t') (he : e ≠ .abort) :
    t'.outcome ≠ some .aborted := by
  have hnone := ha.outcome_eq_none
  cases ha with
  | access =>
    show t.outcome ≠ _
    rw [hnone]
    exact nofun
  | commit => exact nofun
  | abort => exact absurd rfl he

/-- A turn aborts the victim of its deadlock and nobody else. -/
theorem Plays.aborted_iff {patience : Nat} (hp : Plays patience db ts p turn db' ts')
    (hw : WellFormed store programs db ts) :
    Aborted ts' u ↔ Aborted ts u ∨ ∃ d, turn.deadlock = some d ∧ d.victim = u := by
  cases hp with
  | idle => simp
  | progress ht ha hne =>
    rw [hw.aborted_set ht ha]
    simp [ha.outcome_ne_aborted hne]
  | denied ht ha =>
    rw [hw.aborted_set ht ha]
    simp [ha.outcome_denied]
  | broken ht ha hd hv hid hab =>
    rw [(hw.act ht ha).aborted_set hv hab, hw.aborted_set ht ha, ha.outcome_denied, hid]
    obtain ⟨-, rfl⟩ := hab.abort_inv
    simp [eq_comm]

namespace Ring

variable {earlier : List Turn}

/-- Along turns, the victims of the deadlocks are aborted and nobody else. -/
theorem Reached.aborted_turns (h : Reached store programs settings earlier ring)
    (hturns : ring.Turns turns last) :
    Aborted last.transactions u ↔ Aborted ring.transactions u ∨
      ∃ turn ∈ turns, ∃ d, turn.deadlock = some d ∧ d.victim = u := by
  induction hturns with
  | nil => simp
  | cons hturns hturn ih =>
    have hmid := (h.append hturns).evolves
    rw [(hmid.plays hturn).aborted_iff hmid.wellFormed, ih]
    simp only [List.mem_cons, exists_eq_or_imp, ← or_assoc]
    exact or_right_comm

/-! ## The list of deadlocks -/

theorem abort_deadlocks (hw : WellFormed store programs ring.database ring.transactions) {id : Nat}
    (h : ring.abort id = .ok (ring', lsn)) : ring'.deadlocks = ring.deadlocks := by
  rcases abort_cases hw h with ⟨-, rfl, -⟩ | ⟨t, db', t', -, -, -, -, rfl⟩
  · rfl
  · rfl

theorem turn_deadlocks (he : Evolves store programs ring.database ring.transactions)
    (h : ring.turn = .ok (ring', some turn)) :
    ring'.deadlocks = ring.deadlocks ++ turn.deadlock.toList := by
  obtain ⟨-, t, mid, ht, -, ha, hr⟩ := turn_cases h
  have hmid : mid.deadlocks = ring.deadlocks := by
    rcases attempt_cases he.wellFormed ht ha with ⟨-, -, rfl⟩ | ⟨deed, db', t', -, -, -, rfl⟩
    · rfl
    · rfl
  rw [← hmid]
  rcases react_cases hr with ⟨hnone, rfl, -⟩ | ⟨-, -, -, -, hdetect⟩
  · rw [hnone]
    exact (List.append_nil _).symm
  · rcases detect_cases hdetect with ⟨-, hnone, rfl⟩ | ⟨d, ring₁, lsn, -, hsome, hab, rfl⟩
    · rw [hnone]
      exact (List.append_nil _).symm
    · rw [hsome, ← abort_deadlocks (he.attempt ht ha).wellFormed hab]
      rfl

theorem Reached.mem_deadlocks (h : Reached store programs settings earlier ring)
    (hturns : ring.Turns turns last) :
    d ∈ last.deadlocks ↔ d ∈ ring.deadlocks ∨ ∃ turn ∈ turns, turn.deadlock = some d := by
  induction hturns with
  | nil => simp
  | cons hturns hturn ih =>
    rw [turn_deadlocks (h.append hturns).evolves hturn, List.mem_append, ih, Option.mem_toList]
    simp only [List.mem_cons, exists_eq_or_imp, ← or_assoc]
    exact or_right_comm

end Ring

/-! ## Complete runs -/

section
variable (h : Ring.start store programs settings = .ok ring) (hturns : ring.Turns turns last)
include h

theorem Ring.not_aborted_start : ¬ Aborted ring.transactions u := by
  rintro ⟨t, ht, -, hout⟩
  obtain ⟨ts, hts, rfl⟩ := start_eq_ok h
  obtain ⟨p, hp⟩ := List.mem_iff_getElem?.1 ht
  rw [((enlist_spec hts).2 p t hp).2] at hout
  cases hout

theorem Ring.deadlocks_start : ring.deadlocks = [] := by
  obtain ⟨ts, -, rfl⟩ := start_eq_ok h
  rfl

include hturns

theorem Ring.mem_victims : u ∈ last.deadlocks.map (·.victim) ↔ Aborted last.transactions u := by
  have hr : Reached store programs settings [] ring := .start h
  rw [hr.aborted_turns hturns, or_iff_right (not_aborted_start h), List.mem_map]
  simp only [hr.mem_deadlocks hturns, deadlocks_start h, List.not_mem_nil, false_or]
  constructor
  · rintro ⟨d, ⟨turn, hmem, hd⟩, hvictim⟩
    exact ⟨turn, hmem, d, hd, hvictim⟩
  · rintro ⟨turn, hmem, d, hd, hvictim⟩
    exact ⟨d, ⟨turn, hmem, hd⟩, hvictim⟩

theorem Ring.nodup_victims : (last.deadlocks.map (·.victim)).Nodup := by
  have hr : Reached store programs settings [] ring := .start h
  induction hturns with
  | nil =>
    rw [deadlocks_start h]
    exact .nil
  | @cons turns mid last turn hturns hturn ih =>
    have hmid := (hr.append hturns).evolves
    rw [turn_deadlocks hmid hturn, List.map_append]
    cases hd : turn.deadlock with
    | none => simpa using ih
    | some d =>
      have hnew : d.victim ∉ mid.deadlocks.map (·.victim) := by
        rw [mem_victims h hturns]
        have hunf := (hmid.plays hturn).victim_unfinished hmid.wellFormed hd
        exact hmid.wellFormed.not_aborted_of_unfinished hunf
      refine List.nodup_append.2 ⟨ih, List.nodup_singleton _, fun u hu v hv => ?_⟩
      rw [List.mem_singleton.1 hv]
      rintro rfl
      exact hnew hu

theorem Ring.one_lt_victim {d : Deadlock} (hd : d ∈ last.deadlocks) : 1 < d.victim := by
  have hr : Reached store programs settings [] ring := .start h
  rw [hr.mem_deadlocks hturns, deadlocks_start h] at hd
  obtain ⟨turn, hmem, hd⟩ := hd.resolve_left List.not_mem_nil
  obtain ⟨later, sooner, before, after, -, hsooner, hturn⟩ := hturns.split hmem
  obtain ⟨t, mid, ht, ha, hfind⟩ := deadlock_of_turn hturn hd
  have hmid := (hr.append hsooner).evolves.attempt ht ha
  obtain ⟨u, hlt, hunf⟩ := (hmid.genuine hfind).exists_lt
  have hpos := hmid.wellFormed.pos_of_unfinished hunf
  omega

/-- Victims differ and T1 is none of them. -/
theorem Ring.length_deadlocks_le : last.deadlocks.length ≤ programs.length - 1 := by
  have hw := ((Reached.start h).append hturns).evolves.wellFormed
  have hsub : last.deadlocks.map (·.victim) ⊆ List.range' 2 (programs.length - 1) := by
    intro u hu
    obtain ⟨t, ht, hid, -⟩ := (mem_victims h hturns).1 hu
    obtain ⟨d, hd, rfl⟩ := List.mem_map.1 hu
    obtain ⟨q, hq⟩ := List.mem_iff_getElem?.1 ht
    have hlt := one_lt_victim h hturns hd
    have hlast := (List.getElem?_eq_some_iff.1 hq).1
    rw [hw.ids q t hq] at hid
    rw [hw.length_eq] at hlast
    rw [List.mem_range'_1]
    omega
  have hle := (List.subperm_of_subset (nodup_victims h hturns) hsub).length_le
  rw [List.length_map, List.length_range'] at hle
  exact hle

end

theorem Ring.mem_outcomes {outcome : Outcome} :
    (u, outcome) ∈ ring.report.outcomes ↔
      ∃ t ∈ ring.transactions, t.id = u ∧ t.outcome = some outcome := by
  unfold report
  simp only [List.mem_filterMap, Option.map_eq_some_iff, Prod.mk.injEq]
  constructor
  · rintro ⟨t, ht, o, ho, rfl, rfl⟩
    exact ⟨t, ht, rfl, ho⟩
  · rintro ⟨t, ht, rfl, ho⟩
    exact ⟨t, ht, outcome, ho, rfl, rfl⟩

/-- The first transaction is never a victim, so it commits. -/
theorem Ring.first_commits (h : Ring.start store programs settings = .ok ring)
    (hturns : ring.Turns turns last) (hfin : last.isFinished = true) (hne : programs ≠ []) :
    (1, .committed) ∈ last.report.outcomes := by
  have hlast := (Reached.start h).append hturns
  have hw := hlast.evolves.wellFormed
  have hpos : 0 < last.transactions.length := by
    rw [hw.length_eq]
    exact List.length_pos_of_ne_nil hne
  have ht : last.transactions[0]? = some _ := List.getElem?_eq_getElem hpos
  have hid := hw.ids 0 _ ht
  refine mem_outcomes.2 ⟨_, List.mem_of_getElem? ht, hid, ?_⟩
  cases hout : last.transactions[0].outcome with
  | none => exact absurd hout (hlast.counted.isFinished_iff.1 hfin _ (List.mem_of_getElem? ht))
  | some outcome =>
    cases outcome with
    | committed => rfl
    | aborted =>
      have hvictim := (mem_victims h hturns).2 ⟨_, List.mem_of_getElem? ht, hid, hout⟩
      obtain ⟨d, hd, hone⟩ := List.mem_map.1 hvictim
      have := one_lt_victim h hturns hd
      omega

/-- **Deadlock accounting.** A complete run reports deadlocks whose victims differ and are exactly
the transactions that were aborted. Each was found, in the turn that reports it, as a cycle of at
least two transactions, all different and unfinished, with the largest as the victim, so never the
smallest that is unfinished. T1 commits, and there are fewer deadlocks than transactions. In every
reached ring, also after aborts by hand, a search costs the life of an unfinished transaction that
is not the smallest one. -/
theorem deadlock_accounting (h : Ring.start store programs settings = .ok ring) :
    (∃ turns last, ring.Turns turns last ∧ last.isFinished = true ∧ ring.run = .ok last.report ∧
      (last.report.deadlocks.map (·.victim)).Nodup ∧
      (∀ u, u ∈ last.report.deadlocks.map (·.victim) ↔ (u, .aborted) ∈ last.report.outcomes) ∧
      (∀ d ∈ last.report.deadlocks, ∃ later turn sooner before after t mid,
        turns = later ++ turn :: sooner ∧ ring.Turns sooner before ∧
        before.turn = .ok (after, some turn) ∧ turn.deadlock = some d ∧
        before.transactions[before.next]? = some t ∧
        before.attempt before.next t = .ok (mid, turn.step) ∧
        mid.database.waits.findDeadlock = some d ∧ d.Genuine mid.transactions ∧
        ∃ u, u < d.victim ∧ Unfinished mid.transactions u) ∧
      (programs ≠ [] → (1, .committed) ∈ last.report.outcomes) ∧
      last.report.deadlocks.length ≤ programs.length - 1) ∧
    ∀ turns mid last d, Ring.Reached store programs settings turns mid →
      mid.detect = .ok (last, some d) →
      d.Genuine mid.transactions ∧ (∃ u, u < d.victim ∧ Unfinished mid.transactions u) ∧
      Aborted last.transactions d.victim := by
  have hr : Ring.Reached store programs settings [] ring := .start h
  constructor
  · obtain ⟨turns, last, hturns, hfin, -⟩ := hr.exists_finished
    refine ⟨turns, last, hturns, hfin, Ring.run_of_turns h hturns hfin,
      Ring.nodup_victims h hturns, fun u => ?_, fun d hd => ?_, Ring.first_commits h hturns hfin,
      Ring.length_deadlocks_le h hturns⟩
    · exact (Ring.mem_victims h hturns).trans Ring.mem_outcomes.symm
    · rw [show last.report.deadlocks = last.deadlocks from rfl, hr.mem_deadlocks hturns,
        Ring.deadlocks_start h] at hd
      obtain ⟨turn, hmem, hd⟩ := hd.resolve_left List.not_mem_nil
      obtain ⟨later, sooner, before, after, hsplit, hsooner, hturn⟩ := hturns.split hmem
      obtain ⟨t, mid, ht, ha, hfind⟩ := Ring.deadlock_of_turn hturn hd
      have hgenuine := ((hr.append hsooner).evolves.attempt ht ha).genuine hfind
      exact ⟨later, turn, sooner, before, after, t, mid, hsplit, hsooner, hturn, hd, ht, ha, hfind,
        hgenuine, hgenuine.exists_lt⟩
  · intro turns mid last d hmid hdetect
    have hw := hmid.evolves.wellFormed
    rcases Ring.detect_cases hdetect with ⟨-, hnone, -⟩ | ⟨d', ring₁, lsn, hfind, hsome, hab, rfl⟩
    · cases hnone
    · cases hsome
      have hgenuine := hmid.evolves.genuine hfind
      refine ⟨hgenuine, hgenuine.exists_lt, ?_⟩
      rcases Ring.abort_cases hw hab with
        ⟨-, -, hfin⟩ | ⟨v, db', v', hv, hid, hacts, -, rfl⟩
      · exact absurd (hgenuine.unfinished _ hgenuine.mem) hfin
      · obtain ⟨-, rfl⟩ := hacts.abort_inv
        exact (hw.aborted_set hv hacts).2 (.inr ⟨hid.symm, rfl⟩)

/-- T2 is the one victim of the run, also when deadlocks are looked for after five turns. -/
theorem deadlock_accounting_crossing :
    ∃ (turns : List Turn) (ring last mid mid' : Ring),
      Ring.start ⟨[5, 6]⟩ crossing ⟨2⟩ = .ok ring ∧ ring.run = .ok last.report ∧
      last.report.deadlocks.map (·.victim) = [2] ∧ (2, .aborted) ∈ last.report.outcomes ∧
      (1, .committed) ∈ last.report.outcomes ∧
      Ring.Reached ⟨[5, 6]⟩ crossing ⟨2⟩ turns mid ∧ mid.detect = .ok (mid', some ⟨[1, 2], 2⟩) ∧
      Aborted mid'.transactions 2 := by
  have hvictims : (execute ⟨[5, 6]⟩ crossing ⟨2⟩).toOption.any
      (·.deadlocks.map (·.victim) = [2]) = true := by decide +kernel
  obtain ⟨turns, mid, hmid, hdetect⟩ :=
    Ring.exists_reached ⟨[5, 6]⟩ crossing ⟨2⟩ 5
      (fun ring => ring.detect.toOption.any (·.2 = some ⟨[1, 2], 2⟩) = true) (by decide +kernel)
  cases h : Ring.start ⟨[5, 6]⟩ crossing ⟨2⟩ with
  | error e => simp [execute, h, Except.bind, Except.toOption] at hvictims
  | ok ring =>
    obtain ⟨⟨-, last, -, -, hrun, -, haborted, -, hfirst, -⟩, hsearch⟩ := deadlock_accounting h
    have hvictims : last.report.deadlocks.map (·.victim) = [2] := by
      simpa [execute, h, Except.bind, hrun, Except.toOption] using hvictims
    cases hres : mid.detect with
    | error e => simp [hres, Except.toOption] at hdetect
    | ok result =>
      obtain ⟨mid', deadlock⟩ := result
      have hsome : deadlock = some ⟨[1, 2], 2⟩ := by
        simpa [hres, Except.toOption] using hdetect
      rw [hsome] at hres
      obtain ⟨-, -, hab⟩ := hsearch turns mid mid' _ hmid hres
      exact ⟨turns, ring, last, mid, mid', rfl, hrun, hvictims,
        (haborted 2).1 (by simp [hvictims]), hfirst (List.cons_ne_nil _ _), hmid, hres, hab⟩

end

end TwoPhase
