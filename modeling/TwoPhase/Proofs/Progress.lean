import TwoPhase.Proofs.CircularWait

/-!
# Progress

A turn never fails (`Reached.exists_turn`), and `Evolves.plays` says all it can do:
the transaction has nothing to do, does something, is denied, or is denied and a
deadlock is broken. A turn is quiet if nothing is done and nobody is aborted in it.
While turns are quiet, denials add up and edges are drawn; `Stalled` counts them, and
since the search for deadlocks is complete, it follows that there are fewer quiet
turns in a row than rounds of the ring would take to wear out the patience of every
transaction (`Stalled.lt`).
-/

namespace TwoPhase

/-- Nothing is done in the turn, and nobody is aborted. -/
structure Turn.Quiet (turn : Turn) : Prop where
  step : ∀ lsn, turn.step ≠ .progressed lsn
  deadlock : turn.deadlock = none

/-- What a turn of the transaction at `p` does. -/
inductive Plays (patience : Nat) (db : Database) (ts : List Transaction) (p : Nat) :
    Turn → Database → List Transaction → Prop where
  | idle {t : Transaction} : ts[p]? = some t → t.pending? = none →
      Plays patience db ts p ⟨t.id, .idle, none⟩ db ts
  | progress {t t' : Transaction} {e : Event} {db' : Database} : ts[p]? = some t →
      Acts db t (.done e) db' t' → e ≠ .abort →
      Plays patience db ts p ⟨t.id, .progressed db.history.length, none⟩ db' (ts.set p t')
  | denied {t t' : Transaction} {blockers : IdSet} {db' : Database} : ts[p]? = some t →
      Acts db t (.denied blockers) db' t' →
      (patience ≤ t'.denials → db'.waits.findDeadlock = none) →
      Plays patience db ts p ⟨t.id, .denied t'.denials blockers, none⟩ db' (ts.set p t')
  | broken {t t' v v' : Transaction} {blockers : IdSet} {mid db' : Database} {d : Deadlock} :
      ts[p]? = some t → Acts db t (.denied blockers) mid t' →
      mid.waits.findDeadlock = some d → (ts.set p t')[d.victim - 1]? = some v →
      v.id = d.victim → Acts mid v (.done .abort) db' v' →
      Plays patience db ts p ⟨t.id, .denied t'.denials blockers, some d⟩ db'
        ((ts.set p t').set (d.victim - 1) v')

namespace Ring

/-- Consecutive turns, newest first. -/
inductive Turns (ring : Ring) : List Turn → Ring → Prop where
  | nil : Turns ring [] ring
  | cons {turns : List Turn} {mid last : Ring} {turn : Turn} : Turns ring turns mid →
      mid.turn = .ok (last, some turn) → Turns ring (turn :: turns) last

end Ring

section
variable {store : Store} {programs : List Program} {settings : Settings} {turns : List Turn}
  {db db' : Database} {ts ts' : List Transaction} {p : Nat} {t t' : Transaction}
  {ring ring' mid last : Ring} {turn : Turn} {step : Step}

/-! ## What a turn does -/

theorem Evolves.exists_detect (he : Evolves store programs ring.database ring.transactions) :
    ∃ ring' deadlock, ring.detect = .ok (ring', deadlock) := by
  unfold Ring.detect
  cases hd : ring.database.waits.findDeadlock with
  | none => exact ⟨ring, none, rfl⟩
  | some d =>
    obtain ⟨t, ht, hid, -⟩ := he.victim_unfinished hd
    obtain ⟨ring', lsn, ha⟩ := Ring.exists_abort he.wellFormed ht
    rw [hid] at ha
    simp only [ha, bind, Except.bind, pure, Except.pure]
    exact ⟨_, _, rfl⟩

theorem Evolves.exists_react (he : Evolves store programs ring.database ring.transactions)
    (step : Step) : ∃ ring' deadlock, ring.react step = .ok (ring', deadlock) := by
  cases step with
  | denied denials blockers =>
    by_cases hle : ring.patience ≤ denials
    · simp only [Ring.react, if_pos hle]
      exact he.exists_detect
    · exact ⟨_, _, if_neg hle⟩
  | _ => exact ⟨_, _, rfl⟩

theorem Ring.Reached.exists_turn (h : Ring.Reached store programs settings turns ring)
    (hfin : ring.isFinished = false) : ∃ ring' turn, ring.turn = .ok (ring', some turn) := by
  have hnext := h.counted.next_lt hfin
  have ht : ring.transactions[ring.next]? = some _ := List.getElem?_eq_getElem hnext
  obtain ⟨mid, step, ha⟩ := Ring.exists_attempt h.evolves.wellFormed ht
  obtain ⟨ring', deadlock, hr⟩ := (h.evolves.attempt ht ha).exists_react step
  unfold Ring.turn Ring.turnOf
  simp only [hfin, ht, ha, hr, bind, Except.bind, pure, Except.pure, Except.map]
  exact ⟨_, _, rfl⟩

theorem Evolves.plays (he : Evolves store programs ring.database ring.transactions)
    (h : ring.turn = .ok (ring', some turn)) :
    Plays ring.patience ring.database ring.transactions ring.next turn ring'.database
      ring'.transactions := by
  obtain ⟨-, t, mid, ht, hid, ha, hr⟩ := Ring.turn_cases h
  obtain ⟨id, step, deadlock⟩ := turn
  cases hid
  have hmid := he.attempt ht ha
  rcases Ring.attempt_cases he.wellFormed ht ha with
    ⟨hp, hstep, rfl⟩ | ⟨deed, db', t', hacts, hne, hstep, rfl⟩
  · cases hstep
    rcases Ring.react_cases hr with ⟨rfl, rfl, -⟩ | ⟨_, _, hstep, -⟩
    · exact .idle ht hp
    · cases hstep
  · cases deed with
    | done e =>
      cases hstep
      rcases Ring.react_cases hr with ⟨rfl, rfl, -⟩ | ⟨_, _, hstep, -⟩
      · exact .progress ht hacts fun he => hne (he ▸ rfl)
      · cases hstep
    | denied blockers =>
      obtain ⟨-, rfl, -⟩ := hacts.denied_inv
      cases hstep
      rcases Ring.react_cases hr with ⟨rfl, rfl, hlt⟩ | ⟨denials, _, hstep, -, hdetect⟩
      · refine .denied ht hacts fun hle => ?_
        exact absurd (hlt _ _ rfl) (Nat.not_lt.2 hle)
      · rcases Ring.detect_cases hdetect with ⟨hnone, rfl, rfl⟩ | ⟨d, ring₁, lsn, hd, rfl, hab, rfl⟩
        · exact .denied ht hacts fun _ => hnone
        · rcases Ring.abort_cases hmid.wellFormed hab with
            ⟨-, -, hfin⟩ | ⟨v, db₁, v', hv, hvid, habort, -, rfl⟩
          · exact absurd (hmid.victim_unfinished hd) hfin
          · exact .broken ht hacts hd hv hvid habort

theorem Ring.Reached.append {earlier : List Turn}
    (h : Ring.Reached store programs settings earlier ring) (hturns : ring.Turns turns last) :
    Ring.Reached store programs settings (turns ++ earlier) last := by
  induction hturns with
  | nil => exact h
  | cons _ hturn ih => exact ih.turn hturn

theorem Ring.Turns.reached (h : Ring.start store programs settings = .ok ring)
    (hturns : ring.Turns turns last) : Ring.Reached store programs settings turns last := by
  rw [← List.append_nil turns]
  exact (Ring.Reached.start h).append hturns

/-! ## Quiet turns -/

/-- After `k` turns, the first of which was turn number `start`, an unfinished transaction that
had more than `c` of them was denied in each and waits for somebody unfinished. -/
def Served (start k : Nat) (db : Database) (ts : List Transaction) : Prop :=
  ∀ j c t, ts[(start + j) % ts.length]? = some t → t.outcome = none → j + c * ts.length < k →
    c < t.denials ∧ ∃ b, Unfinished ts b ∧ db.waits.hasEdge t.id b = true

/-- `k` quiet turns in a row, and somebody whose patience has yet to wear out. -/
structure Stalled (patience start k : Nat) (db : Database) (ts : List Transaction) : Prop where
  served : Served start k db ts
  unworn : ∃ j t, j < ts.length ∧ ts[(start + j) % ts.length]? = some t ∧ t.outcome = none ∧
    k ≤ j + (patience - 1) * ts.length

theorem exists_turn_of_place {n q : Nat} (start : Nat) (hq : q < n) :
    ∃ j, j < n ∧ (start + j) % n = q := by
  have hstart : start % n < n := Nat.mod_lt start (by omega)
  have hmod : ∀ j, (start + j) % n = (start % n + j) % n := fun j =>
    (Nat.mod_add_mod start n j).symm
  rcases Nat.lt_or_ge q (start % n) with hlt | hge
  · refine ⟨q + n - start % n, by omega, ?_⟩
    rw [hmod, show start % n + (q + n - start % n) = q + n by omega, Nat.add_mod_right,
      Nat.mod_eq_of_lt hq]
  · refine ⟨q - start % n, by omega, ?_⟩
    rw [hmod, show start % n + (q - start % n) = q by omega, Nat.mod_eq_of_lt hq]

theorem turn_of_rounds (start j c n : Nat) : (start + (j + c * n)) % n = (start + j) % n := by
  rw [← Nat.add_assoc, Nat.add_mul_mod_self_right]

section
variable {patience start k : Nat}

/-- If everybody unfinished has had its turn, everybody waits for somebody: a deadlock is found. -/
theorem Served.findDeadlock_isSome (h : Served start k db ts) {u : Nat} (hu : Unfinished ts u)
    (hall : ∀ j t, j < ts.length → ts[(start + j) % ts.length]? = some t → t.outcome = none →
      j < k) : db.waits.findDeadlock.isSome = true := by
  apply WaitGraph.findDeadlock_isSome
  apply WaitGraph.findCycle_isSome hu
  rintro a ⟨t, ht, rfl, hout⟩
  obtain ⟨q, hq⟩ := List.mem_iff_getElem?.1 ht
  obtain ⟨j, hj, rfl⟩ := exists_turn_of_place start (List.getElem?_eq_some_iff.1 hq).1
  have hlt := hall j t hj hq hout
  exact (h j 0 t hq hout (by omega)).2

/-- A denied transaction waits for whoever is in its way, and that one holds a lock, so it is
unfinished. -/
theorem Served.denied (h : Served start k db ts) (he : Evolves store programs db ts)
    (ht : ts[(start + k) % ts.length]? = some t) {blockers : IdSet}
    (ha : Acts db t (.denied blockers) db' t') :
    Served start (k + 1) db' (ts.set ((start + k) % ts.length) t') := by
  have hout := ha.outcome_eq_none
  obtain ⟨rfl, rfl, mode, record, rfl, b, hb⟩ := ha.denied_inv
  have hunf : ∀ u, Unfinished (ts.set ((start + k) % ts.length) _) u ↔ Unfinished ts u := fun u =>
    he.wellFormed.unfinished_keep ht ha hout
  intro j c x hx hxout hlt
  rw [List.length_set] at hx hlt
  simp only [hunf, WaitGraph.hasEdge_addEdges]
  rcases getElem?_set_eq_some hx with ⟨hp, rfl⟩ | ⟨hne, hx⟩
  · -- its own turn: one denial more
    refine ⟨?_, b, (he.locksMatch.of_conflicts (Lock.mem_blockers.1 hb).2).1, .inr ⟨rfl, hb⟩⟩
    show c < t.denials + 1
    cases c with
    | zero => omega
    | succ c =>
      have hpos : 0 < ts.length := List.length_pos_of_mem (List.mem_of_getElem? ht)
      rw [Nat.succ_mul] at hlt
      have := (h j c t (hp ▸ ht) hout (by omega)).1
      omega
  · -- the turn of another one, which was counted before
    have hk : j + c * ts.length ≠ k := by
      rintro rfl
      exact hne (turn_of_rounds start j c ts.length).symm
    obtain ⟨hc, b', hb', hedge⟩ := h j c x hx hxout (by omega)
    exact ⟨hc, b', hb', .inl hedge⟩

theorem WellFormed.turn_ne (hw : WellFormed store programs db ts)
    (ht : ts[(start + k) % ts.length]? = some t) (hp : t.pending? = none) {j : Nat}
    {x : Transaction} (hx : ts[(start + j) % ts.length]? = some x) (hout : x.outcome = none)
    (c : Nat) : j + c * ts.length ≠ k := by
  rintro rfl
  rw [turn_of_rounds, hx] at ht
  obtain ⟨op, hop⟩ := hw.exists_pending (List.mem_of_getElem? hx) hout
  rw [Option.some.inj ht, hp] at hop
  cases hop

namespace Stalled

theorem zero {u : Nat} (hu : Unfinished ts u) (start : Nat) : Stalled patience start 0 db ts := by
  refine ⟨fun j c t _ _ hlt => absurd hlt (Nat.not_lt_zero _), ?_⟩
  obtain ⟨t, ht, -, hout⟩ := hu
  obtain ⟨q, hq⟩ := List.mem_iff_getElem?.1 ht
  obtain ⟨j, hj, rfl⟩ := exists_turn_of_place start (List.getElem?_eq_some_iff.1 hq).1
  exact ⟨j, t, hj, hq, hout, Nat.zero_le _⟩

/-- The quiet turn of a transaction whose patience has worn out shows that somebody else has not
had a turn yet: else a deadlock would have been found. -/
theorem denied (h : Stalled patience start k db ts) (he : Evolves store programs db ts)
    (ht : ts[(start + k) % ts.length]? = some t) {blockers : IdSet}
    (ha : Acts db t (.denied blockers) db' t')
    (hsearch : patience ≤ t'.denials → db'.waits.findDeadlock = none) :
    Stalled patience start (k + 1) db' (ts.set ((start + k) % ts.length) t') := by
  have hserved := h.served.denied he ht ha
  refine ⟨hserved, ?_⟩
  obtain ⟨j, x, hj, hx, hxout, hk⟩ := h.unworn
  obtain ⟨y, hy, hyout, hyt⟩ : ∃ y,
      (ts.set ((start + k) % ts.length) t')[(start + j) % ts.length]? = some y ∧
      y.outcome = none ∧ ((start + j) % ts.length = (start + k) % ts.length → y = t') := by
    rw [List.getElem?_set]
    split
    · next hp =>
      rw [if_pos (hp ▸ (List.getElem?_eq_some_iff.1 hx).1)]
      exact ⟨t', rfl, ha.outcome_denied, fun _ => rfl⟩
    · next hp => exact ⟨x, hx, hxout, fun h => absurd h.symm hp⟩
  rw [List.length_set]
  rcases Nat.lt_or_eq_of_le hk with hlt | heq
  · exact ⟨j, y, hj, hy, hyout, hlt⟩
  · by_contra hnone
    have hplace : (start + j) % ts.length = (start + k) % ts.length := by
      rw [heq, turn_of_rounds]
    have hpatience : patience ≤ t'.denials := by
      rw [← hyt hplace]
      have := (hserved j (patience - 1) y (by rw [List.length_set]; exact hy) hyout
        (by rw [List.length_set]; omega)).1
      omega
    have hfound := hserved.findDeadlock_isSome
      ⟨y, List.mem_of_getElem? hy, rfl, hyout⟩ fun i z hi hz hzout => by
        rw [List.length_set] at hi hz
        by_contra hge
        exact hnone ⟨i, z, hi, hz, hzout, by omega⟩
    rw [hsearch hpatience] at hfound
    cases hfound

theorem idle (h : Stalled patience start k db ts) (hw : WellFormed store programs db ts)
    (ht : ts[(start + k) % ts.length]? = some t) (hp : t.pending? = none) :
    Stalled patience start (k + 1) db ts := by
  constructor
  case served =>
    intro j c x hx hout hlt
    have := hw.turn_ne ht hp hx hout c
    exact h.served j c x hx hout (by omega)
  case unworn =>
    obtain ⟨j, x, hj, hx, hout, hk⟩ := h.unworn
    have := hw.turn_ne ht hp hx hout (patience - 1)
    exact ⟨j, x, hj, hx, hout, by omega⟩

theorem plays (h : Stalled patience start k db ts) (he : Evolves store programs db ts)
    (hp : Plays patience db ts ((start + k) % ts.length) turn db' ts') (hquiet : turn.Quiet) :
    Stalled patience start (k + 1) db' ts' := by
  cases hp with
  | idle ht hp => exact h.idle he.wellFormed ht hp
  | progress => exact absurd rfl (hquiet.step _)
  | denied ht ha hsearch => exact h.denied he ht ha hsearch
  | broken => cases hquiet.deadlock

/-- **Patience has an end.** -/
theorem lt (h : Stalled patience start k db ts) (hpos : 0 < patience) :
    k < patience * ts.length := by
  obtain ⟨j, -, hj, -, -, hk⟩ := h.unworn
  obtain ⟨m, rfl⟩ : ∃ m, patience = m + 1 := ⟨patience - 1, by omega⟩
  rw [Nat.succ_mul]
  rw [Nat.add_sub_cancel] at hk
  omega

end Stalled

end

/-! ## Turns in a row -/

theorem Plays.victim_unfinished {patience : Nat} (hp : Plays patience db ts p turn db' ts')
    (hw : WellFormed store programs db ts) {d : Deadlock} (hd : turn.deadlock = some d) :
    Unfinished ts d.victim := by
  cases hp with
  | broken ht ha _ hv hid hab =>
    cases hd
    rw [← hid, ← hw.unfinished_keep ht ha ha.outcome_denied]
    exact hab.unfinished hv
  | _ => cases hd

/-- A turn that is not quiet sees an operation done or a victim aborted. -/
theorem Plays.of_not_quiet {patience : Nat} (hp : Plays patience db ts p turn db' ts')
    (hw : WellFormed store programs db ts) (hloud : ¬ turn.Quiet) :
    (∃ lsn, turn.step = .progressed lsn) ∨
      ∃ d, turn.deadlock = some d ∧ Unfinished ts d.victim ∧
        ∃ t ∈ ts', t.id = d.victim ∧ t.outcome = some .aborted := by
  have hplays := hp
  cases hp with
  | idle => exact absurd ⟨nofun, rfl⟩ hloud
  | progress => exact .inl ⟨_, rfl⟩
  | denied => exact absurd ⟨nofun, rfl⟩ hloud
  | @broken t t' v v' blockers mid db' d ht ha hd hv hid hab =>
    refine .inr ⟨d, rfl, hplays.victim_unfinished hw rfl, v', ?_, hab.id_eq.trans hid, ?_⟩
    · exact ((hw.act ht ha).mem_set hv).2 (.inl rfl)
    · obtain ⟨-, rfl⟩ := hab.abort_inv
      rfl

namespace Ring

theorem Turns.append {later : List Turn} (h : ring.Turns turns mid) (h' : mid.Turns later last) :
    ring.Turns (later ++ turns) last := by
  induction h' with
  | nil => exact h
  | cons _ hturn ih => exact .cons ih hturn

theorem Turns.split (h : ring.Turns turns last) (hmem : turn ∈ turns) :
    ∃ later earlier before after, turns = later ++ turn :: earlier ∧
      ring.Turns earlier before ∧ before.turn = .ok (after, some turn) := by
  induction h with
  | nil => cases hmem
  | @cons turns mid last newest hturns hturn ih =>
    rcases List.mem_cons.1 hmem with rfl | hmem
    · exact ⟨[], turns, mid, last, rfl, hturns, hturn⟩
    · obtain ⟨later, earlier, before, after, rfl, hbefore, hturn⟩ := ih hmem
      exact ⟨newest :: later, earlier, before, after, rfl, hbefore, hturn⟩

variable {earlier : List Turn}

theorem Reached.stalled (h : Reached store programs settings earlier ring)
    (hfin : ring.isFinished = false) (hturns : ring.Turns turns last)
    (hquiet : ∀ turn ∈ turns, turn.Quiet) :
    Stalled (max 1 settings.threshold.toNat) earlier.length turns.length last.database
      last.transactions := by
  induction hturns with
  | nil =>
    obtain ⟨u, hu⟩ := h.counted.isFinished_eq_false_iff.1 hfin
    exact .zero hu _
  | @cons turns mid last turn hturns hturn ih =>
    have hmid := h.append hturns
    have hplays := hmid.evolves.plays hturn
    rw [hmid.counted.next_eq, hmid.counted.patience_eq, List.length_append, Nat.add_comm] at hplays
    exact (ih fun x hx => hquiet x (List.mem_cons_of_mem _ hx)).plays hmid.evolves hplays
      (hquiet turn List.mem_cons_self)

/-- **Progress.** As many turns as it takes to wear out everybody's patience are not all quiet. -/
theorem Reached.exists_not_quiet (h : Reached store programs settings earlier ring)
    (hfin : ring.isFinished = false) (hturns : ring.Turns turns last)
    (hlen : max 1 settings.threshold.toNat * programs.length ≤ turns.length) :
    ∃ turn ∈ turns, ¬ turn.Quiet := by
  by_contra hnone
  have hquiet : ∀ turn ∈ turns, turn.Quiet := by
    intro turn hmem
    by_contra hloud
    exact hnone ⟨turn, hmem, hloud⟩
  have hlt := (h.stalled hfin hturns hquiet).lt (by omega)
  rw [(h.append hturns).evolves.wellFormed.length_eq] at hlt
  omega

end Ring

end

end TwoPhase
