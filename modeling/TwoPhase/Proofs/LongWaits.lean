import TwoPhase.Proofs.Denials

/-!
# Long waits

How long a transaction can be made to wait. In each of its turns a transaction that is not
aborted does one operation or none, so T1, which is never a victim, is unfinished as long as
it has had fewer turns than it has operations. Whoever wants to read what T1 has written, and
begins with that, is denied in all its turns until then.

* `Plays.self_cases`: what a turn does to somebody who is not aborted in it.
* `Reached.waits`: a first operation is denied as long as the one in its way is unfinished.
* `Reached.exists_granted`: a first operation on a record that nobody has touched is done.
* `Ring.exists_denies_of_waits`: a wait of so many turns comes to all the numbers of denials.
* `Ring.exists_denies_of_reader`: T2 waits for all that T1 has to do after its first operation.
-/

namespace TwoPhase

section
variable {store : Store} {programs : List Program} {settings : Settings}
  {turns sooner later earlier : List Turn} {db db' : Database} {ts ts' : List Transaction}
  {p u a c k patience : Nat} {t t' x : Transaction} {op : Operation} {mode : LockMode}
  {record : RecordId} {v : Value} {first ring mid last : Ring} {turn : Turn} {d : Deadlock}

/-! ## Own turns -/

/-- Whoever is not aborted in a turn has done an operation of its own, or only its denials have
changed. -/
theorem Plays.self_cases (hp : Plays patience db ts p turn db' ts')
    (he : Evolves store programs db ts) (ht : t ∈ ts)
    (hspare : ∀ d, turn.deadlock = some d → d.victim ≠ t.id) :
    (∃ k, { t with denials := k } ∈ ts') ∨
      turn.transaction = t.id ∧ (∃ lsn, turn.step = .progressed lsn) ∧
        ∃ t' ∈ ts', t'.id = t.id ∧ t.remaining = t'.remaining + 1 := by
  have hw := he.wellFormed
  by_cases hid : turn.transaction = t.id
  · cases hp with
    | idle => exact .inl ⟨t.denials, ht⟩
    | @progress x t' e db' hx ha hne =>
      obtain rfl := hw.eq_of_id (List.mem_of_getElem? hx) ht hid
      exact .inr ⟨rfl, ⟨_, rfl⟩, t', (hw.mem_set hx).2 (.inl rfl), ha.id_eq,
        ha.remaining_eq_succ hne⟩
    | @denied x t' blockers db' hx ha =>
      obtain rfl := hw.eq_of_id (List.mem_of_getElem? hx) ht hid
      obtain ⟨-, rfl, -⟩ := ha.denied_inv
      exact .inl ⟨_, (hw.mem_set hx).2 (.inl rfl)⟩
    | @broken x t' v v' blockers mid db' d hx ha hd hv hvid hab =>
      obtain rfl := hw.eq_of_id (List.mem_of_getElem? hx) ht hid
      obtain ⟨-, rfl, -⟩ := ha.denied_inv
      refine .inl ⟨_, ((hw.act hx ha).mem_set hv).2 (.inr ⟨(hw.mem_set hx).2 (.inl rfl), ?_⟩)⟩
      rw [hvid]
      exact (hspare _ rfl).symm
  · exact .inl ⟨t.denials, hp.mem_of_other hw ht hid hspare⟩

/-- Whoever is not aborted in a turn, and denied if it is its own, stays where it is. -/
theorem Plays.mem_of_denied (hp : Plays patience db ts p turn db' ts')
    (he : Evolves store programs db ts) (ht : t ∈ ts)
    (hspare : ∀ d, turn.deadlock = some d → d.victim ≠ t.id)
    (hdenied : turn.transaction = t.id → ∃ k, turn.Denies t.id k) :
    ∃ k, { t with denials := k } ∈ ts' := by
  rcases hp.self_cases he ht hspare with hsame | ⟨hown, ⟨lsn, hstep⟩, -⟩
  · exact hsame
  · obtain ⟨_, _, blockers, hdenies⟩ := hdenied hown
    rw [hstep] at hdenies
    cases hdenies

theorem Plays.denies_of_obstructs (hp : Plays patience db ts p turn db' ts')
    (hw : WellFormed store programs db ts) (hobs : Obstructs db ts u a)
    (hid : turn.transaction = a) : ∃ k, turn.Denies a k := by
  obtain ⟨t, ht, rfl, op, mode, record, hpending, hrequest, hne, hc⟩ := hobs
  cases hstep : turn.step with
  | idle =>
    have hout := (Transaction.pending?_eq_some.1 hpending).1
    exact absurd ⟨t, ht, hid.symm, hout⟩ (hp.finished_of_idle hw hstep)
  | progressed lsn =>
    have hfree := (hp.progressed_iff hw ht hid hpending hrequest).1 ⟨lsn, hstep⟩
    exact absurd (Lock.mem_blockers.2 ⟨hne, hc⟩) (IdSet.isEmpty_iff.1 hfree u)
  | denied k blockers => exact ⟨k, hid, blockers, hstep⟩

theorem Plays.victim_ne (hp : Plays patience db ts p turn db' ts')
    (he : Evolves store programs db ts) (ht : t ∈ ts) (hzero : t.cursor = 0)
    (hd : turn.deadlock = some d) : d.victim ≠ t.id := by
  cases hp with
  | @broken y t' v v' blockers mid db' d hy ha hfind hv hid hab =>
    cases hd
    intro heq
    have hmid := he.act hy ha
    obtain ⟨x, hx, hxid, -, hpos, -⟩ := hmid.member hfind (WaitGraph.victim_mem hfind)
    obtain ⟨-, rfl, -⟩ := ha.denied_inv
    rcases (he.wellFormed.mem_set hy).1 hx with rfl | ⟨hx, -⟩
    · rw [he.wellFormed.eq_of_id ht (List.mem_of_getElem? hy) (heq.symm.trans hxid.symm)] at hzero
      exact absurd hzero hpos.ne'
    · rw [he.wellFormed.eq_of_id hx ht (hxid.trans heq)] at hpos
      exact absurd hzero hpos.ne'
  | _ => cases hd

theorem length_streak_le_countP (a : Nat) (turns : List Turn) :
    (streak a turns).length ≤ turns.countP (·.transaction = a) := by
  induction turns with
  | nil => exact Nat.le_refl _
  | cons turn rest ih =>
    obtain ⟨id, step, deadlock⟩ := turn
    by_cases hid : id = a
    · subst hid
      cases step with
      | denied k blockers => simpa using ih
      | _ => simp [streak]
    · rw [streak_other (Ne.symm hid)]
      simpa [hid] using ih

namespace Ring

/-- Whoever is not aborted does no more operations than it has turns. -/
theorem Reached.remaining_le (h : Reached store programs settings earlier ring)
    (hturns : ring.Turns turns last) (ht : t ∈ ring.transactions)
    (hspare : Spares (· = t.id) turns) :
    ∃ t' ∈ last.transactions, t'.id = t.id ∧
      t.remaining ≤ t'.remaining + turns.countP (·.transaction = t.id) := by
  induction hturns with
  | nil => exact ⟨t, ht, rfl, Nat.le_add_right _ _⟩
  | @cons turns mid last turn hturns hturn ih =>
    obtain ⟨x, hx, hid, hle⟩ := ih fun y hy => hspare y (List.mem_cons_of_mem _ hy)
    have hmid := (h.append hturns).evolves
    rw [List.countP_cons]
    rcases (hmid.plays hturn).self_cases hmid hx (hid ▸ hspare turn List.mem_cons_self) with
      ⟨k, hk⟩ | ⟨hown, -, x', hx', hid', hx'le⟩
    · refine ⟨_, hk, hid, ?_⟩
      have hsame : ({ x with denials := k } : Transaction).remaining = x.remaining := rfl
      omega
    · refine ⟨x', hx', hid'.trans hid, ?_⟩
      rw [if_pos (by simpa using hown.trans hid)]
      omega

theorem Reached.mem_of_denied (h : Reached store programs settings earlier ring)
    (hturns : ring.Turns turns last) (ht : t ∈ ring.transactions)
    (hspare : Spares (· = t.id) turns)
    (hdenied : ∀ turn ∈ turns, turn.transaction = t.id → ∃ k, turn.Denies t.id k) :
    ∃ k, { t with denials := k } ∈ last.transactions := by
  induction hturns with
  | nil => exact ⟨t.denials, ht⟩
  | @cons turns mid last turn hturns hturn ih =>
    obtain ⟨k, hk⟩ := ih (fun y hy => hspare y (List.mem_cons_of_mem _ hy))
      fun y hy => hdenied y (List.mem_cons_of_mem _ hy)
    have hmid := (h.append hturns).evolves
    have hsame := (hmid.plays hturn).mem_of_denied hmid hk (hspare turn List.mem_cons_self)
      (hdenied turn List.mem_cons_self)
    exact hsame

/-- Whoever waits with its first operation is denied as long as the one in its way is
unfinished. -/
theorem Reached.waits (h : Reached store programs settings earlier ring)
    (hturns : ring.Turns turns last) (ht : t ∈ ring.transactions) (hzero : t.cursor = 0)
    (hobs : Obstructs ring.database ring.transactions u t.id)
    (hu : Unfinished last.transactions u) :
    (∃ k, { t with denials := k } ∈ last.transactions) ∧
      ∀ turn ∈ turns, turn.transaction = t.id → ∃ k, turn.Denies t.id k := by
  obtain ⟨x, hx, hid, op, mode, record, hpending, hrequest, hne, hc⟩ := hobs
  obtain rfl := h.evolves.wellFormed.eq_of_id hx ht hid
  induction hturns with
  | nil => exact ⟨⟨x.denials, hx⟩, nofun⟩
  | @cons turns mid last turn hturns hturn ih =>
    have hmid := (h.append hturns).evolves
    have hplays := hmid.plays hturn
    have hu' : Unfinished mid.transactions u := by_contra fun hfin =>
      (lasting_not_unfinished u).turn hmid hfin hturn hu
    obtain ⟨⟨k, hk⟩, hdenied⟩ := ih hu'
    have hnow := hplays.denies_of_obstructs hmid.wellFormed ⟨_, hk, rfl, op, mode, record, hpending,
      hrequest, hne, (h.conflicts_turns hturns).2 ⟨hu', .inl hc⟩⟩
    have hsame := hplays.mem_of_denied hmid hk (fun d hd => hplays.victim_ne hmid hk hzero hd) hnow
    exact ⟨hsame, List.forall_mem_cons.2 ⟨hnow, hdenied⟩⟩

/-! ## Counting turns and denials -/

theorem exists_denies_of_lt (h : Ring.start store programs settings = .ok first)
    (hturns : first.Turns turns last) (hu : Unfinished last.transactions a)
    (hlt : c < (streak a turns).length) :
    ∃ sooner ring after turn, first.Turns sooner ring ∧
      ring.turn = .ok (after, some turn) ∧ turn.Denies a (c + 1) := by
  induction hturns with
  | nil => cases hlt
  | @cons turns mid last turn hturns hturn ih =>
    have hmid := hturns.reached h
    have ih := ih (by_contra fun hfin => (lasting_not_unfinished a).turn hmid.evolves hfin hturn hu)
    by_cases hid : turn.transaction = a
    · obtain ⟨id, step, deadlock⟩ := turn
      cases hid
      cases step with
      | idle => simp [streak] at hlt
      | progressed lsn => simp at hlt
      | denied k blockers =>
        have hdenies : Turn.Denies ⟨id, .denied k blockers, deadlock⟩ id k := ⟨rfl, _, rfl⟩
        rw [streak_denied, List.length_cons] at hlt
        rcases Nat.lt_or_eq_of_le (Nat.le_of_lt_succ hlt) with hless | heq
        · exact ih hless
        · obtain ⟨x, x', db, _, hx, hxid, rfl, ha⟩ :=
            (hmid.evolves.plays hturn).exists_denied hdenies
          have hcount := hmid.traced.denials x (List.mem_of_getElem? hx) ha.outcome_eq_none
          rw [hxid, ← heq] at hcount
          exact ⟨turns, mid, last, _, hturns, hturn, hcount ▸ hdenies⟩
    · rw [streak_other (Ne.symm hid)] at hlt
      exact ih hlt

/-- A transaction that waits for `u` with its first operation, from its first turn on, is denied in
all its turns. -/
theorem exists_denies_of_waits (h : Ring.start store programs settings = .ok first)
    (hsooner : first.Turns sooner ring) (ht : ring.transactions[p]? = some t)
    (hfirst : sooner.length ≤ p) (hzero : t.cursor = 0)
    (hobs : Obstructs ring.database ring.transactions u t.id)
    (hlater : ring.Turns later last) (hu : Unfinished last.transactions u)
    (hlt : c < turnsOf programs.length (later ++ sooner).length p) :
    ∃ sooner ring after turn, first.Turns sooner ring ∧
      ring.turn = .ok (after, some turn) ∧ turn.Denies (p + 1) (c + 1) := by
  have hr := hsooner.reached h
  have hw := hr.evolves.wellFormed
  have hplace : p < programs.length := hw.length_eq ▸ (List.getElem?_eq_some_iff.1 ht).1
  have hid := hw.ids p t ht
  obtain ⟨⟨k, hk⟩, hdenied⟩ := hr.waits hlater (List.mem_of_getElem? ht) hzero hobs hu
  obtain ⟨x, hx, hxid, hout⟩ := hobs.unfinished
  obtain rfl := hw.eq_of_id hx (List.mem_of_getElem? ht) hxid
  refine exists_denies_of_lt h (hsooner.append hlater) ⟨_, hk, hid, hout⟩ ?_
  have hall := (hr.append hlater).countP_turns hplace
  have hnone : turnsOf programs.length sooner.length p = 0 := by
    by_contra hsome
    have := (lt_turnsOf_iff hplace).1 (Nat.pos_of_ne_zero hsome)
    omega
  rw [List.countP_append, hr.countP_turns hplace, hnone] at hall
  have hstep : ∀ turn ∈ later, turn.transaction = p + 1 →
      ∃ denials blockers, turn.step = .denied denials blockers := by
    intro turn hmem hown
    obtain ⟨k, -, blockers, hstep⟩ := hdenied turn hmem (hown.trans hid.symm)
    exact ⟨k, blockers, hstep⟩
  have hstreak : later.countP (·.transaction = p + 1) ≤ (streak (p + 1) (later ++ sooner)).length :=
    countP_le_length_streak hstep
  omega

theorem spares_one (h : Ring.start store programs settings = .ok first)
    (hturns : first.Turns turns last) : Spares (· = 1) turns := by
  intro turn hmem d hd hone
  have hlist := ((Reached.start h).mem_deadlocks hturns).2 (.inr ⟨turn, hmem, hd⟩)
  have := one_lt_victim h hturns hlist
  omega

theorem unfinished_one (h : Ring.start store programs settings = .ok first)
    (hsooner : first.Turns sooner ring) (ht : t ∈ ring.transactions) (hid : t.id = 1)
    (hlater : ring.Turns later last)
    (hlt : turnsOf programs.length (later ++ sooner).length 0 <
      turnsOf programs.length sooner.length 0 + t.remaining) :
    Unfinished last.transactions 1 := by
  have hr := hsooner.reached h
  have hplace : 0 < programs.length :=
    hr.evolves.wellFormed.length_eq ▸ List.length_pos_of_mem ht
  have hspare := spares_one h (hsooner.append hlater)
  obtain ⟨t', ht', hid', hle⟩ := hr.remaining_le hlater ht fun turn hmem d hd hv =>
    hspare turn (List.mem_append_left _ hmem) d hd (hv.trans hid)
  have hall := (hr.append hlater).countP_turns hplace
  rw [List.countP_append, hr.countP_turns hplace, Nat.zero_add] at hall
  rw [hid] at hle
  refine ⟨t', ht', hid'.trans hid, ?_⟩
  by_contra hout
  have hdone : t'.remaining = 0 := by
    unfold Transaction.remaining Transaction.isFinished
    rw [if_pos (Option.isSome_iff_ne_none.2 hout)]
  omega

/-- Before everybody has had as many turns as patience lasts, no deadlock is broken. -/
theorem deadlock_eq_none_of_early (h : Ring.start store programs settings = .ok first)
    (hturns : first.Turns turns last)
    (hlen : turns.length ≤ (max 1 settings.threshold.toNat - 1) * programs.length) :
    ∀ turn ∈ turns, turn.deadlock = none := by
  induction hturns with
  | nil => exact nofun
  | @cons turns mid last turn hturns hturn ih =>
    rw [List.length_cons] at hlen
    refine List.forall_mem_cons.2 ⟨?_, ih (by omega)⟩
    have hmid := hturns.reached h
    obtain ⟨-, t, middle, ht, hid, ha, hreact⟩ := turn_cases hturn
    rcases react_cases hreact with ⟨hnone, -⟩ | ⟨k, blockers, hstep, hle, -⟩
    · exact hnone
    · -- there were fewer turns than patience lasts, so fewer denials
      have hpatience := (hmid.counted.attempt hmid.evolves.wellFormed ht ha).patience_eq
      obtain ⟨x, x', db, _, hx, hxid, hk, hacts⟩ :=
        (hmid.evolves.plays hturn).exists_denied ⟨rfl, blockers, hstep⟩
      have hcount := hmid.traced.denials x (List.mem_of_getElem? hx) hacts.outcome_eq_none
      have hstreak := length_streak_le_countP turn.transaction turns
      have hpos : 0 < programs.length :=
        hmid.evolves.wellFormed.length_eq ▸ List.length_pos_of_mem (List.mem_of_getElem? hx)
      rw [hxid] at hcount
      rw [hmid.turn_transaction hturn, hmid.countP_turns (Nat.mod_lt _ hpos), turnsOf_mod,
        ← hmid.turn_transaction hturn] at hstreak
      have hdiv := (Nat.div_lt_iff_lt_mul hpos).2 (Nat.lt_of_succ_le hlen)
      omega

end Ring

/-! ## Granted requests -/

theorem Program.mem_take_one {program : Program} {op op' : Operation}
    (h : program.operations[0]? = some op) : op' ∈ program.operations.take 1 ↔ op' = op := by
  rw [List.take_one, List.head?_eq_getElem?, h]
  exact List.mem_singleton

theorem Evolves.conflicts_of_write (h : Evolves store programs db ts) (ht : t ∈ ts)
    (hout : t.outcome = none) (hop : .write record v ∈ t.program.operations.take t.cursor) :
    (db.locks.lockOf record.toNat).Conflicts t.id mode := by
  obtain ⟨e, he, hmatch⟩ := forall₂_exists_left ((h.logged t ht).events hout).flip hop
  refine .inl ((h.locksMatch.owner _ _).2 ⟨⟨t, ht, rfl, hout⟩, e, he, ?_⟩)
  exact (Operation.writes_of_matches hmatch rfl _).2 ⟨rfl, rfl⟩

theorem Plays.granted (hp : Plays patience db ts p turn db' ts') (ht : ts[p]? = some t)
    (hpending : t.pending? = some op) (hrequest : op.request? = some (mode, record))
    (hfree : (db.blockers t.id mode record).isEmpty = true) :
    ts' = ts.set p { t with cursor := t.cursor + 1, denials := 0 } := by
  cases hp with
  | idle hx hnone =>
    cases ht.symm.trans hx
    rw [hpending] at hnone
    cases hnone
  | progress hx ha hne =>
    cases ht.symm.trans hx
    cases ha with
    | access => rfl
    | commit hcommit =>
      cases hpending.symm.trans hcommit
      cases hrequest
    | abort => exact absurd rfl hne
  | denied hx ha =>
    cases ht.symm.trans hx
    rcases ha.of_request hpending hrequest nofun with ⟨-, e, hdone⟩ | ⟨hblocked, -⟩
    · cases hdone
    · exact absurd hfree hblocked
  | broken hx ha =>
    cases ht.symm.trans hx
    rcases ha.of_request hpending hrequest nofun with ⟨-, e, hdone⟩ | ⟨hblocked, -⟩
    · cases hdone
    · exact absurd hfree hblocked

namespace Ring

/-- A first operation on a record that nobody has touched is done in its turn. -/
theorem Reached.exists_granted (h : Reached store programs settings turns ring)
    (hplace : turns.length = p) (ht : ring.transactions[p]? = some t)
    (hpending : t.pending? = some op) (hrequest : op.request? = some (mode, record))
    (hfree : ∀ x ∈ ring.transactions, ∀ op' ∈ x.program.operations.take x.cursor,
      op'.record? ≠ some record) :
    ∃ after turn, ring.turn = .ok (after, some turn) ∧
      after.transactions =
        ring.transactions.set p { t with cursor := t.cursor + 1, denials := 0 } := by
  have hout := (Transaction.pending?_eq_some.1 hpending).1
  have hmem := List.mem_of_getElem? ht
  obtain ⟨after, turn, hturn⟩ :=
    h.exists_turn (h.counted.isFinished_eq_false_iff.2 ⟨t.id, t, hmem, rfl, hout⟩)
  have hnext : ring.next = p := by
    rw [h.counted.next_eq, hplace]
    exact Nat.mod_eq_of_lt (List.getElem?_eq_some_iff.1 ht).1
  have hplays := h.evolves.plays hturn
  rw [hnext] at hplays
  refine ⟨after, turn, hturn, hplays.granted ht hpending hrequest (IdSet.isEmpty_iff.2 ?_)⟩
  intro u hu
  obtain ⟨x, hx, -, -, op', hop', hrecord⟩ :=
    h.evolves.exists_done_of_conflicts (Lock.mem_blockers.1 hu).2
  exact hfree x hx op' hop' hrecord

theorem start_at (h : Ring.start store programs settings = .ok first) {program : Program}
    (hp : programs[p]? = some program) :
    first.transactions[p]? = some { id := p + 1, program } := by
  obtain ⟨ts, hts, rfl⟩ := start_eq_ok h
  obtain ⟨hmap, hnew⟩ := enlist_spec hts
  rw [← hmap, List.getElem?_map, Option.map_eq_some_iff] at hp
  obtain ⟨t, ht, rfl⟩ := hp
  show ts[p]? = _
  rw [ht, (hnew p t ht).2, Nat.add_comm]

theorem cursor_start (h : Ring.start store programs settings = .ok first)
    (ht : t ∈ first.transactions) : t.cursor = 0 := by
  obtain ⟨ts, hts, rfl⟩ := start_eq_ok h
  obtain ⟨p, hp⟩ := List.mem_iff_getElem?.1 ht
  rw [((enlist_spec hts).2 p t hp).2]

theorem exists_first_write (h : Ring.start store programs settings = .ok first)
    {program : Program} (hprogram : programs[0]? = some program)
    (hop : program.operations[0]? = some (.write record v)) :
    ∃ after turn, first.turn = .ok (after, some turn) ∧
      after.transactions = first.transactions.set 0 { id := 1, program, cursor := 1 } := by
  refine (Reached.start h).exists_granted rfl (start_at h hprogram)
    (Transaction.pending?_eq_some.2 ⟨rfl, hop⟩) rfl fun x hx op hmem => ?_
  rw [cursor_start h hx, List.take_zero] at hmem
  cases hmem

theorem exists_rounds (h : Ring.start store programs settings = .ok first)
    (hsooner : first.Turns sooner ring) (ht : t ∈ ring.transactions) (hid : t.id = 1)
    {rounds : Nat} (hle : sooner.length ≤ rounds * programs.length)
    (hlt : rounds < turnsOf programs.length sooner.length 0 + t.remaining) :
    ∃ later last, ring.Turns later last ∧ (later ++ sooner).length = rounds * programs.length ∧
      Unfinished last.transactions 1 := by
  have hr := hsooner.reached h
  have hplace : 0 < programs.length :=
    hr.evolves.wellFormed.length_eq ▸ List.length_pos_of_mem ht
  obtain ⟨later, last, hlater, hfew, hend⟩ :=
    hr.exists_turns (rounds * programs.length - sooner.length)
  have hu : Unfinished last.transactions 1 := by
    refine unfinished_one h hsooner ht hid hlater (Nat.lt_of_le_of_lt ?_ hlt)
    by_contra hmore
    have := (lt_turnsOf_iff hplace).1 (Nat.not_le.1 hmore)
    rw [List.length_append] at this
    omega
  have hopen : last.isFinished ≠ true := by
    rw [(hr.append hlater).counted.isFinished_eq_false_iff.2 ⟨1, hu⟩]
    exact nofun
  have := hend.resolve_right hopen
  refine ⟨later, last, hlater, ?_, hu⟩
  rw [List.length_append]
  omega

/-- A transaction that waits for T1 with its first operation is denied in all the rounds that T1
takes. -/
theorem exists_denies_behind_one (h : Ring.start store programs settings = .ok first)
    (hsooner : first.Turns sooner ring) (ht : ring.transactions[p]? = some t)
    (hfirst : sooner.length ≤ p) (hzero : t.cursor = 0)
    (hobs : Obstructs ring.database ring.transactions 1 t.id) (hlater : ring.Turns later last)
    (hx : x ∈ last.transactions) (hid : x.id = 1) {rounds : Nat}
    (hle : (later ++ sooner).length ≤ rounds * programs.length)
    (hlt : rounds < turnsOf programs.length (later ++ sooner).length 0 + x.remaining)
    (hcount : c < rounds) :
    ∃ sooner ring after turn, first.Turns sooner ring ∧
      ring.turn = .ok (after, some turn) ∧ turn.Denies (p + 1) (c + 1) := by
  obtain ⟨rest, final, hrest, hlen, hu⟩ := exists_rounds h (hsooner.append hlater) hx hid hle hlt
  refine exists_denies_of_waits h hsooner ht hfirst hzero hobs (hlater.append hrest) hu ?_
  have hsize := (hsooner.reached h).evolves.wellFormed.length_eq
  have hplace : p < programs.length := hsize ▸ (List.getElem?_eq_some_iff.1 ht).1
  have hrounds := Nat.mul_le_mul_right programs.length (Nat.succ_le_of_lt hcount)
  rw [Nat.succ_mul] at hrounds
  rw [List.append_assoc, hlen, lt_turnsOf_iff hplace]
  omega

/-- T2 waits for all that T1 has to do after its first operation. -/
theorem exists_denies_of_reader (h : Ring.start store programs settings = .ok first)
    {one two : Program} (hone : programs[0]? = some one) (htwo : programs[1]? = some two)
    (hwrite : one.operations[0]? = some (.write record v))
    (hread : two.operations[0]? = some (.read record)) (hlt : c + 1 < one.length) :
    ∃ sooner ring after turn, first.Turns sooner ring ∧
      ring.turn = .ok (after, some turn) ∧ turn.Denies 2 (c + 1) := by
  have hn : 1 < programs.length := (List.getElem?_eq_some_iff.1 htwo).1
  obtain ⟨opened, opening, hopening, hts⟩ := exists_first_write h hone hwrite
  have hsooner : first.Turns [opening] opened := .cons .nil hopening
  have hr := (Reached.start h).turn hopening
  have hsize := (Reached.start h).evolves.wellFormed.length_eq
  have hfirst : { id := 1, program := one, cursor := 1 } ∈ opened.transactions :=
    List.mem_of_getElem? (i := 0) (by rw [hts, List.getElem?_set_self (by omega)])
  have hsecond : opened.transactions[1]? = some { id := 2, program := two } := by
    rw [hts, List.getElem?_set_ne (by decide)]
    exact start_at h htwo
  have hobs : Obstructs opened.database opened.transactions 1 2 :=
    ⟨_, List.mem_of_getElem? hsecond, rfl, _, _, _,
      Transaction.pending?_eq_some.2 ⟨rfl, hread⟩, rfl, by decide,
      hr.evolves.conflicts_of_write hfirst rfl ((Program.mem_take_one hwrite).2 rfl)⟩
  have hturn : 0 < turnsOf programs.length 1 0 := by
    rw [lt_turnsOf_iff (by omega)]
    omega
  have hround := Nat.mul_le_mul_right programs.length (show 1 ≤ one.length - 1 by omega)
  refine exists_denies_behind_one h hsooner hsecond (Nat.le_refl 1) rfl hobs .nil hfirst rfl
    (show 1 ≤ (one.length - 1) * programs.length by omega) ?_ (by omega)
  rw [Transaction.remaining_of_none rfl]
  show one.length - 1 < turnsOf programs.length 1 0 + (one.length - 1)
  omega

end Ring

end

end TwoPhase
