import TwoPhase.Proofs.RoundRobin
import TwoPhase.Proofs.Survivors

/-!
# Denials in a row

How often in a row a transaction can be denied, whatever is called in between. If nothing
happens for a round, everybody waits for somebody, so there is a cycle, and a denial that is
due to search for deadlocks finds it. From the patience on, each denial therefore takes an
operation done or a transaction aborted in the round before it, and of those there are no
more than operations.

* `Reached.exists_previous_denial`: a denial that is not the first one in a row comes a round
  after the one before it.
* `Knotted.four_le_spent`, `Reached.four_le_spent`: a cycle that is gone has cost four
  operations.
* `Reached.remaining_lt_of_denies`: what is left to do gets less from denial to denial.
* `Reached.operationCount_of_denies`: so many operations are needed for so many denials.
-/

namespace TwoPhase

/-- The turn is denial number `k` in a row of `a`. -/
structure Turn.Denies (turn : Turn) (a k : Nat) : Prop where
  transaction : turn.transaction = a
  step : ∃ blockers, turn.step = .denied k blockers

/-- The operations that are done, or never will be. -/
def spent (ts : List Transaction) : Nat :=
  ts.foldr (fun t total => (t.program.length - t.remaining) + total) 0

/-- Calls of any kind, with the turns among them, newest first. -/
inductive Ring.Course (ring : Ring) : List Turn → Ring → Prop where
  | nil : Course ring [] ring
  | turn {turns : List Turn} {mid last : Ring} {turn : Turn} :
      Course ring turns mid → mid.turn = .ok (last, some turn) → Course ring (turn :: turns) last
  | detect {turns : List Turn} {mid last : Ring} {deadlock : Option Deadlock} :
      Course ring turns mid → mid.detect = .ok (last, deadlock) → Course ring turns last
  | abort {turns : List Turn} {mid last : Ring} {id : Nat} {lsn : Option Nat} :
      Course ring turns mid → mid.abort id = .ok (last, lsn) → Course ring turns last

section
variable {store : Store} {programs : List Program} {settings : Settings}
  {turns round earlier : List Turn} {db db' : Database} {ts ts' : List Transaction}
  {p u a k patience : Nat} {t t' x y : Transaction} {mode : LockMode} {record : RecordId}
  {ring mid last before : Ring} {turn : Turn} {d : Deadlock} {blockers : IdSet} {deed : Deed}
  {D : Nat → Prop}

/-! ## Sums over transactions -/

theorem le_total (f : Transaction → Nat) (hx : x ∈ ts) :
    f x ≤ ts.foldr (fun t total => f t + total) 0 := by
  induction ts with
  | nil => cases hx
  | cons t rest ih =>
    rw [List.foldr_cons]
    rcases List.mem_cons.1 hx with rfl | hx
    · omega
    · have := ih hx
      omega

theorem add_le_total (f : Transaction → Nat) (hx : x ∈ ts) (hy : y ∈ ts) (hne : x ≠ y) :
    f x + f y ≤ ts.foldr (fun t total => f t + total) 0 := by
  induction ts with
  | nil => cases hx
  | cons t rest ih =>
    rw [List.foldr_cons]
    rcases List.mem_cons.1 hx with rfl | hxrest <;> rcases List.mem_cons.1 hy with rfl | hyrest
    · exact absurd rfl hne
    · have := le_total f hyrest
      omega
    · have := le_total f hxrest
      omega
    · have := ih hxrest hyrest
      omega

theorem total_length_eq (hw : WellFormed store programs db ts) :
    ts.foldr (fun t total => t.program.length + total) 0 =
      programs.foldr (fun program total => program.length + total) 0 := by
  rw [← hw.programs, List.foldr_map]

theorem remaining_add_spent (ts : List Transaction) :
    remaining ts + spent ts = ts.foldr (fun t total => t.program.length + total) 0 := by
  unfold remaining spent
  induction ts with
  | nil => rfl
  | cons t rest ih =>
    have hle := t.remaining_le
    simp only [List.foldr_cons]
    omega

/-! ## Members of a cycle -/

theorem Evolves.exists_done_of_conflicts (h : Evolves store programs db ts)
    (hc : (db.locks.lockOf record.toNat).Conflicts u mode) :
    ∃ t ∈ ts, t.id = u ∧ t.outcome = none ∧
      ∃ op ∈ t.program.operations.take t.cursor, op.record? = some record := by
  obtain ⟨⟨t, ht, rfl, hout⟩, e, he, htouch⟩ := h.locksMatch.of_conflicts hc
  obtain ⟨op, hop, hmatch⟩ := h.exists_done ht hout he
  refine ⟨t, ht, rfl, hout, op, hop, ?_⟩
  cases op with
  | commit =>
    cases e with
    | commit => cases htouch
    | _ => cases hmatch
  | _ =>
    rw [Operation.touches_of_matches hmatch rfl, UInt64.toNat_inj] at htouch
    exact congrArg some htouch

theorem Evolves.cursor_pos_of_conflicts (h : Evolves store programs db ts)
    (hc : (db.locks.lockOf record.toNat).Conflicts u mode) :
    ∃ t ∈ ts, t.id = u ∧ t.outcome = none ∧ 0 < t.cursor := by
  obtain ⟨t, ht, hid, hout, op, hop, -⟩ := h.exists_done_of_conflicts hc
  refine ⟨t, ht, hid, hout, Nat.pos_of_ne_zero fun hzero => ?_⟩
  rw [hzero, List.take_zero] at hop
  cases hop

/-- A member of a cycle that is found has done an operation, and has at least two to do. -/
theorem Evolves.member (h : Evolves store programs db ts)
    (hd : db.waits.findDeadlock = some d) (hu : u ∈ d.cycle) :
    ∃ t ∈ ts, t.id = u ∧ t.outcome = none ∧ 0 < t.cursor ∧ t.cursor + 1 < t.program.length := by
  obtain ⟨b, -, hedge⟩ := (WaitGraph.isCycle_of_findDeadlock hd).exists_edge_to hu
  obtain ⟨_, _, _, _, _, _, _, _, _, hc⟩ :=
    h.waiting.obstructs b u hedge ((h.genuine hd).unfinished u hu)
  obtain ⟨t, ht, rfl, hout, hpos⟩ := h.cursor_pos_of_conflicts hc
  obtain ⟨c, -, x, hx, hid, op, mode, record, hp, hr, -⟩ := h.knotted hd t.id hu
  rw [h.wellFormed.eq_of_id hx ht hid] at hp
  exact ⟨t, ht, rfl, hout, hpos, t.succ_lt_of_request hp hr⟩

/-! ## What is left to do at a denial -/

theorem Transaction.le_remaining {m : Nat} (hout : t.outcome = none)
    (h : t.cursor + m ≤ t.program.length) : m ≤ t.remaining := by
  rw [Transaction.remaining_of_none hout]
  omega

/-- Whoever is denied has two operations to do, and whoever is in its way has one. -/
theorem Acts.three_le_remaining (ha : Acts db t (.denied blockers) db' t')
    (he : Evolves store programs db ts) (ht : ts[p]? = some t) : 3 ≤ remaining ts := by
  cases ha with
  | @denied op mode record hp hr hblocked =>
    obtain ⟨b, hb⟩ := IdSet.exists_mem hblocked
    obtain ⟨hne, hc⟩ := Lock.mem_blockers.1 hb
    obtain ⟨x, hx, rfl, hxout⟩ := (he.locksMatch.of_conflicts hc).1
    have hsum := add_le_total Transaction.remaining hx (List.mem_of_getElem? ht)
      fun heq => hne (congrArg _ heq)
    have hwaits := t.le_remaining (m := 2) (Transaction.pending?_eq_some.1 hp).1
      (t.succ_lt_of_request hp hr)
    have hblocks := x.le_remaining (m := 1) hxout (he.wellFormed.cursors x hx hxout)
    unfold TwoPhase.remaining
    omega

theorem Acts.spent_pos (ha : Acts db t (.denied blockers) db' t')
    (he : Evolves store programs db ts) : 0 < spent ts := by
  cases ha with
  | @denied op mode record hp hr hblocked =>
    obtain ⟨b, hb⟩ := IdSet.exists_mem hblocked
    obtain ⟨x, hx, -, hout, hpos⟩ := he.cursor_pos_of_conflicts (Lock.mem_blockers.1 hb).2
    have hlt := he.wellFormed.cursors x hx hout
    have hle := le_total (fun t => t.program.length - t.remaining) hx
    rw [Transaction.remaining_of_none hout] at hle
    unfold spent
    omega

theorem Evolves.four_le_remaining (h : Evolves store programs db ts)
    (hd : db.waits.findDeadlock = some d) : 4 ≤ remaining ts := by
  have hvictim := WaitGraph.victim_mem hd
  obtain ⟨b, hb, _, _, _, _, _, _, _, _, hne, _⟩ := h.knotted hd d.victim hvictim
  obtain ⟨x, hx, rfl, hxout, -, hxlt⟩ := h.member hd hb
  obtain ⟨y, hy, hyid, hyout, -, hylt⟩ := h.member hd hvictim
  have hsum := add_le_total Transaction.remaining hx hy fun heq => hne (heq ▸ hyid)
  have hother := x.le_remaining (m := 2) hxout hxlt
  have hmine := y.le_remaining (m := 2) hyout hylt
  unfold TwoPhase.remaining
  omega

/-! ## What a broken cycle costs -/

theorem spent_le_of_remaining_le (hw : WellFormed store programs db ts)
    (hw' : WellFormed store programs db' ts') (h : remaining ts' ≤ remaining ts) :
    spent ts ≤ spent ts' := by
  have hcount : remaining ts' + spent ts' = remaining ts + spent ts := by
    rw [remaining_add_spent, remaining_add_spent, total_length_eq hw, total_length_eq hw']
  omega

theorem Acts.remaining_le (ha : Acts db t deed db' t') (hw : WellFormed store programs db ts)
    (ht : ts[p]? = some t) : remaining (ts.set p t') ≤ remaining ts := by
  cases deed with
  | done e => exact Nat.le_of_lt (ha.remaining_done hw ht)
  | denied blockers => exact Nat.le_of_eq (ha.remaining_denied ht)

def Advanced (D : Nat → Prop) (ts : List Transaction) : Prop :=
  ∀ a, D a → ∃ t ∈ ts, t.id = a ∧ 0 < t.cursor

/-- The aborted member has given up three operations, and one in its way has done one. -/
theorem Knotted.four_le_spent (h : Knotted D db ts) (hw : WellFormed store programs db ts)
    (hpos : Advanced D ts) (ht : ts[p]? = some t) (ha : Acts db t (.done .abort) db' t')
    (hD : D t.id) : 4 ≤ spent (ts.set p t') := by
  obtain ⟨b, hb, x, hx, hxid, op, mode, record, hpending, hrequest, hne, -⟩ := h t.id hD
  obtain rfl := hw.eq_of_id hx (List.mem_of_getElem? ht) hxid
  have hlt := x.succ_lt_of_request hpending hrequest
  obtain ⟨z, hz, hzid, hzpos⟩ := hpos x.id hD
  obtain rfl := hw.eq_of_id hz hx hzid
  obtain ⟨y, hy, rfl, hypos⟩ := hpos b hb
  obtain ⟨y', hy', hyid, hyout⟩ := h.unfinished hb
  obtain rfl := hw.eq_of_id hy' hy hyid
  have hylt := hw.cursors y' hy hyout
  have hgone : t'.remaining = 0 := by
    obtain ⟨-, rfl⟩ := ha.abort_inv
    rfl
  have hsum := add_le_total (fun t => t.program.length - t.remaining)
    ((hw.mem_set ht).2 (.inr ⟨hy, hne⟩)) ((hw.mem_set ht).2 (.inl rfl))
    fun heq => hne (heq ▸ ha.id_eq)
  rw [Transaction.remaining_of_none hyout, hgone, ha.program_eq] at hsum
  unfold spent
  omega

/-- Either the members stay in each other's way, or four operations are spent. -/
theorem lasting_knot (D : Nat → Prop) : Lasting store programs fun db ts =>
    4 ≤ spent ts ∨ Knotted D db ts ∧ Advanced D ts := by
  intro db db' ts p t t' deed he ht ha hold
  have hw := he.wellFormed
  rcases hold with hspent | ⟨hknot, hpos⟩
  · exact .inl (Nat.le_trans hspent
      (spent_le_of_remaining_le hw (hw.act ht ha) (ha.remaining_le hw ht)))
  by_cases hbreaks : deed = .done .abort ∧ D t.id
  · obtain ⟨rfl, hD⟩ := hbreaks
    exact .inl (hknot.four_le_spent hw hpos ht ha hD)
  · refine .inr ⟨hknot.act hw ht ha fun hdeed hD => hbreaks ⟨hdeed, hD⟩, fun a hDa => ?_⟩
    obtain ⟨x, hx, rfl, hxpos⟩ := hpos a hDa
    by_cases hid : x.id = t.id
    · obtain rfl := hw.eq_of_id hx (List.mem_of_getElem? ht) hid
      obtain ⟨blockers, -, rfl, -⟩ :=
        hknot.denied_of_mem hw ht ha hDa fun hdeed => hbreaks ⟨hdeed, hDa⟩
      obtain ⟨-, rfl, -⟩ := ha.denied_inv
      exact ⟨_, (hw.mem_set ht).2 (.inl rfl), rfl, hxpos⟩
    · exact ⟨x, (hw.mem_set ht).2 (.inr ⟨hx, hid⟩), rfl, hxpos⟩

theorem lasting_edge (a b : Nat) : Lasting store programs fun db ts =>
    Unfinished ts a → db.waits.hasEdge a b = true := by
  intro db db' ts p t t' deed he ht ha hedge hu
  have hold : Unfinished ts a := by_contra fun hfin =>
    lasting_not_unfinished a he ht ha hfin hu
  have hw := he.wellFormed
  have hacts := ha
  cases ha with
  | denied => exact WaitGraph.hasEdge_addEdges.2 (.inl (hedge hold))
  | access => exact hedge hold
  | commit =>
    exact WaitGraph.hasEdge_clearFrom.2 ⟨((hw.unfinished_drop ht hacts nofun).1 hu).1, hedge hold⟩
  | abort =>
    exact WaitGraph.hasEdge_clearFrom.2 ⟨((hw.unfinished_drop ht hacts nofun).1 hu).1, hedge hold⟩

/-- A cycle that is gone was broken by an abort of a member. -/
theorem Ring.LeadsTo.four_le_spent (h : ring.LeadsTo last)
    (he : Evolves store programs ring.database ring.transactions)
    (hd : ring.database.waits.findDeadlock = some d)
    (hnone : last.database.waits.findDeadlock = none) : 4 ≤ spent last.transactions := by
  have hpos : Advanced (· ∈ d.cycle) ring.transactions := by
    intro a ha
    obtain ⟨t, ht, hid, -, hcursor, -⟩ := he.member hd ha
    exact ⟨t, ht, hid, hcursor⟩
  rcases (lasting_knot _).leadsTo he (.inr ⟨he.knotted hd, hpos⟩) h with hspent | ⟨hknot, -⟩
  · exact hspent
  · have hfound : last.database.waits.findDeadlock.isSome = true := by
      apply WaitGraph.findDeadlock_isSome
      apply WaitGraph.findCycle_isSome (WaitGraph.victim_mem hd)
      intro a ha
      obtain ⟨b, hb, hedge⟩ := (WaitGraph.isCycle_of_findDeadlock hd).exists_edge ha
      exact ⟨b, hb, (lasting_edge a b).leadsTo he (fun _ => hedge) h (hknot.unfinished ha)⟩
    rw [hnone] at hfound
    cases hfound

theorem Plays.four_le_spent (hp : Plays patience db ts p turn db' ts')
    (he : Evolves store programs db ts) (hd : turn.deadlock = some d) : 4 ≤ spent ts' := by
  cases hp with
  | @broken t t' v v' blockers mid db' d hpos ha hfind hv hid hab =>
    have hmid := he.act hpos ha
    refine (hmid.knotted hfind).four_le_spent hmid.wellFormed (fun a hmem => ?_) hv hab ?_
    · obtain ⟨x, hx, hxid, -, hcursor, -⟩ := hmid.member hfind hmem
      exact ⟨x, hx, hxid, hcursor⟩
    · rw [hid]
      exact WaitGraph.victim_mem hfind
  | _ => cases hd

theorem Plays.four_le_remaining (hp : Plays patience db ts p turn db' ts')
    (he : Evolves store programs db ts) (hd : turn.deadlock = some d) :
    4 ≤ TwoPhase.remaining ts := by
  cases hp with
  | broken hpos ha hfind =>
    rw [← ha.remaining_denied hpos]
    exact (he.act hpos ha).four_le_remaining hfind
  | _ => cases hd

/-! ## The denial before -/

theorem Plays.exists_denied (hp : Plays patience db ts p turn db' ts') (h : turn.Denies a k) :
    ∃ t t' mid blockers, ts[p]? = some t ∧ t.id = a ∧ t.denials + 1 = k ∧
      Acts db t (.denied blockers) mid t' := by
  obtain ⟨rfl, blockers, hstep⟩ := h
  cases hp with
  | denied ht ha =>
    cases hstep
    obtain ⟨-, rfl, -⟩ := ha.denied_inv
    exact ⟨_, _, _, _, ht, rfl, rfl, ha⟩
  | broken ht ha =>
    cases hstep
    obtain ⟨-, rfl, -⟩ := ha.denied_inv
    exact ⟨_, _, _, _, ht, rfl, rfl, ha⟩
  | _ => cases hstep

theorem exists_eq_append_cons {α : Type} {l : List α} {n : Nat} (hpos : 0 < n)
    (hle : n ≤ l.length) : ∃ newer x older, l = newer ++ x :: older ∧ newer.length + 1 = n := by
  have hlt : n - 1 < l.length := by omega
  refine ⟨l.take (n - 1), l[n - 1], l.drop (n - 1 + 1), ?_, ?_⟩
  · rw [← List.drop_eq_getElem_cons hlt, List.take_append_drop]
  · rw [List.length_take]
    omega

theorem streak_append (h : ∀ turn ∈ round, turn.transaction ≠ a) (turns : List Turn) :
    streak a (round ++ turns) = streak a turns := by
  induction round with
  | nil => rfl
  | cons turn rest ih =>
    obtain ⟨hturn, hrest⟩ := List.forall_mem_cons.1 h
    rw [List.cons_append, streak_other hturn.symm, ih hrest]

namespace Ring

theorem Course.leadsTo (h : ring.Course turns last) : ring.LeadsTo last := by
  induction h with
  | nil => exact .refl
  | turn _ hturn ih => exact ih.turn hturn
  | detect _ hd ih => exact ih.detect hd
  | abort _ ha ih => exact ih.abort ha

theorem Reached.course (h : Reached store programs settings earlier ring)
    (hc : ring.Course turns last) : Reached store programs settings (turns ++ earlier) last := by
  induction hc with
  | nil => exact h
  | turn _ hturn ih => exact ih.turn hturn
  | detect _ hd ih => exact ih.detect hd
  | abort _ ha ih => exact ih.abort ha

theorem Reached.split {sooner : List Turn}
    (h : Reached store programs settings (round ++ turn :: sooner) ring) :
    ∃ before mid, Reached store programs settings sooner before ∧
      before.turn = .ok (mid, some turn) ∧ mid.Course round ring := by
  generalize hall : round ++ turn :: sooner = all at h
  induction h generalizing round with
  | start => cases round <;> cases hall
  | @turn turns before after newest h hturn ih =>
    cases round with
    | nil =>
      cases hall
      exact ⟨before, after, h, hturn, .nil⟩
    | cons first round =>
      cases hall
      obtain ⟨start, mid, hstart, hmid, hcourse⟩ := ih rfl
      exact ⟨start, mid, hstart, hmid, hcourse.turn hturn⟩
  | detect _ hd ih =>
    obtain ⟨start, mid, hstart, hmid, hcourse⟩ := ih hall
    exact ⟨start, mid, hstart, hmid, hcourse.detect hd⟩
  | abort _ ha ih =>
    obtain ⟨start, mid, hstart, hmid, hcourse⟩ := ih hall
    exact ⟨start, mid, hstart, hmid, hcourse.abort ha⟩

theorem Reached.transaction_ne (h : Reached store programs settings (round ++ turns) ring)
    (hlen : round.length < programs.length) :
    ∀ turn ∈ round, turn.transaction ≠ (round ++ turns).length % programs.length + 1 := by
  intro turn hmem heq
  obtain ⟨i, hi⟩ := List.mem_iff_getElem?.1 hmem
  have hlt := (List.getElem?_eq_some_iff.1 hi).1
  have hle : round.length ≤ (round ++ turns).length := by simp
  have hplace := h.turn_at ((round ++ turns).length - 1 - i) turn (by
    rw [List.getElem?_reverse (by omega),
      show (round ++ turns).length - 1 - ((round ++ turns).length - 1 - i) = i by omega,
      List.getElem?_append_left hlt]
    exact hi)
  have hzero := Nat.sub_mod_eq_zero_of_mod_eq (Nat.succ.inj (heq.symm.trans hplace))
  rw [show (round ++ turns).length - ((round ++ turns).length - 1 - i) = i + 1 by omega,
    Nat.mod_eq_of_lt (by omega)] at hzero
  omega

/-- **The denial before.** A denial that is not the first one in a row comes a round after the one
before it. -/
theorem Reached.exists_previous_denial (h : Reached store programs settings turns before)
    (hturn : before.turn = .ok (ring, some turn)) (hd : turn.Denies a (k + 2)) :
    ∃ round previous sooner start mid, (turn :: round).length = programs.length ∧
      Reached store programs settings sooner start ∧ start.turn = .ok (mid, some previous) ∧
      mid.Course round before ∧ previous.Denies a (k + 1) := by
  obtain ⟨t, t', db, blockers, ht, hid, hk, ha⟩ := (h.evolves.plays hturn).exists_denied hd
  have hpos : 0 < programs.length := by
    rw [← h.evolves.wellFormed.length_eq]
    exact List.length_pos_of_mem (List.mem_of_getElem? ht)
  have hstreak : (streak a turns).length = k + 1 := by
    have := h.traced.denials t (List.mem_of_getElem? ht) ha.outcome_eq_none
    rw [hid] at this
    omega
  have hplace := h.turn_transaction hturn
  rw [hd.transaction] at hplace
  have hlen : programs.length ≤ turns.length := by
    by_contra hlt
    rw [← List.append_nil turns] at h hstreak
    have hother := h.transaction_ne (Nat.not_le.1 hlt)
    rw [List.append_nil, ← hplace] at hother
    rw [streak_append hother] at hstreak
    cases hstreak
  obtain ⟨round, previous, sooner, rfl, hround⟩ := exists_eq_append_cons hpos hlen
  have hother := h.transaction_ne (by omega)
  rw [← hplace] at hother
  rw [streak_append hother] at hstreak
  obtain ⟨start, mid, hstart, hprevious, hcourse⟩ := h.split
  have hid' : previous.transaction = a := by
    rw [hstart.turn_transaction hprevious, hplace, List.length_append, List.length_cons,
      show round.length + (sooner.length + 1) = sooner.length + programs.length by omega,
      Nat.add_mod_right]
  -- the row was not over, so the turn a round ago was a denial, and one less was counted
  obtain ⟨id, step, deadlock⟩ := previous
  cases hid'
  cases step with
  | idle => simp [streak] at hstreak
  | progressed lsn => simp at hstreak
  | denied j blockers' =>
    have hdenies : Turn.Denies ⟨id, .denied j blockers', deadlock⟩ id j := ⟨rfl, _, rfl⟩
    obtain ⟨x, x', db₁, _, hx, hxid, rfl, hxa⟩ :=
      (hstart.evolves.plays hprevious).exists_denied hdenies
    have hj := hstart.traced.denials x (List.mem_of_getElem? hx) hxa.outcome_eq_none
    rw [hxid] at hj
    rw [streak_denied, List.length_cons, ← hj] at hstreak
    exact ⟨round, _, sooner, start, mid, hround, hstart, hprevious, hcourse, hstreak ▸ hdenies⟩

end Ring

/-! ## Rounds in which nothing happens -/

theorem Plays.findDeadlock_eq_none (hp : Plays patience db ts p turn db' ts')
    (h : turn.Denies a k) (hk : patience ≤ k) (hquiet : turn.deadlock = none) :
    db'.waits.findDeadlock = none := by
  obtain ⟨rfl, blockers, hstep⟩ := h
  cases hp with
  | denied ht ha hnone =>
    cases hstep
    exact hnone hk
  | broken => cases hquiet
  | _ => cases hstep

theorem Plays.remaining_of_denies (hp : Plays patience db ts p turn db' ts')
    (h : turn.Denies a k) (hquiet : turn.deadlock = none) :
    TwoPhase.remaining ts' = TwoPhase.remaining ts := by
  obtain ⟨rfl, blockers, hstep⟩ := h
  cases hp with
  | denied ht ha => exact ha.remaining_denied ht
  | broken => cases hquiet
  | _ => cases hstep

namespace Ring

theorem Turns.isFinished_eq_false (h : ring.Turns (turn :: turns) last) :
    ring.isFinished = false := by
  induction turns generalizing turn last with
  | nil =>
    cases h with
    | cons hnil hturn =>
      cases hnil
      exact (turn_cases hturn).1
  | cons sooner turns ih =>
    cases h with
    | cons hturns hturn => exact ih hturns

/-- If nothing happens for a round, there is a cycle at its end. -/
theorem Reached.isSome_of_round (h : Reached store programs settings earlier ring)
    (hturns : ring.Turns (turn :: turns) last) (hlen : (turn :: turns).length = programs.length)
    (hquiet : ∀ x ∈ turn :: turns, x.Quiet) :
    last.database.waits.findDeadlock.isSome = true := by
  have hstalled := h.stalled hturns.isFinished_eq_false hturns hquiet
  obtain ⟨j, t, hj, ht, hout, -⟩ := hstalled.unworn
  have hsize := (h.append hturns).evolves.wellFormed.length_eq
  refine hstalled.served.findDeadlock_isSome ⟨t, List.mem_of_getElem? ht, rfl, hout⟩ ?_
  intro i x hi _ _
  omega

theorem Reached.remaining_abort (h : Reached store programs settings earlier ring) {id : Nat}
    {lsn : Option Nat} (ha : ring.abort id = .ok (last, lsn)) :
    last = ring ∨ remaining last.transactions < remaining ring.transactions := by
  rcases abort_cases h.evolves.wellFormed ha with ⟨-, rfl, -⟩ | ⟨t, db', t', ht, -, hacts, -, rfl⟩
  · exact .inl rfl
  · exact .inr (hacts.remaining_done h.evolves.wellFormed ht)

theorem Reached.remaining_detect (h : Reached store programs settings earlier ring)
    {deadlock : Option Deadlock} (hd : ring.detect = .ok (last, deadlock)) :
    last = ring ∨ remaining last.transactions < remaining ring.transactions := by
  rcases detect_cases hd with ⟨-, -, rfl⟩ | ⟨d, ring₁, lsn, hfind, -, ha, rfl⟩
  · exact .inl rfl
  · rcases abort_cases h.evolves.wellFormed ha with
      ⟨-, -, hfin⟩ | ⟨t, db', t', ht, -, hacts, -, rfl⟩
    · exact absurd (h.evolves.victim_unfinished hfind) hfin
    · exact .inr (hacts.remaining_done h.evolves.wellFormed ht)

theorem Reached.remaining_le_of_turns_or_less (h : Reached store programs settings earlier ring)
    (hor : ring.Turns turns last ∨ remaining last.transactions < remaining ring.transactions) :
    remaining last.transactions ≤ remaining ring.transactions := by
  rcases hor with hturns | hless
  · exact (h.remaining_turns hturns).1
  · exact Nat.le_of_lt hless

/-- Calls that are no turns do nothing, or they abort somebody. -/
theorem Reached.turns_or_less (h : Reached store programs settings earlier ring)
    (hc : ring.Course turns last) :
    ring.Turns turns last ∨ remaining last.transactions < remaining ring.transactions := by
  induction hc with
  | nil => exact .inl .nil
  | turn hc hturn ih =>
    rcases ih with hturns | hless
    · exact .inl (hturns.cons hturn)
    · have he := (h.course hc).evolves
      exact .inr (Nat.lt_of_le_of_lt ((he.plays hturn).remaining he.wellFormed).1 hless)
  | detect hc hd ih =>
    rcases (h.course hc).remaining_detect hd with rfl | hnow
    · exact ih
    · exact .inr (Nat.lt_of_lt_of_le hnow (h.remaining_le_of_turns_or_less ih))
  | abort hc ha ih =>
    rcases (h.course hc).remaining_abort ha with rfl | hnow
    · exact ih
    · exact .inr (Nat.lt_of_lt_of_le hnow (h.remaining_le_of_turns_or_less ih))

theorem Reached.remaining_course (h : Reached store programs settings earlier ring)
    (hc : ring.Course turns last) : remaining last.transactions ≤ remaining ring.transactions :=
  h.remaining_le_of_turns_or_less (h.turns_or_less hc)

/-! ## From denial to denial -/

/-- Something happens in a round whose last turn is no cause to find a deadlock or breaks one. -/
theorem Reached.remaining_lt_of_round (h : Reached store programs settings earlier mid)
    (hc : mid.Course round before) (hturn : before.turn = .ok (ring, some turn))
    (hlen : (turn :: round).length = programs.length)
    (hnone : turn.deadlock = none → ring.database.waits.findDeadlock = none) :
    remaining ring.transactions < remaining mid.transactions := by
  rcases h.turns_or_less hc with hturns | hless
  · apply (h.remaining_turns (hturns.cons hturn)).2
    by_contra hall
    have hquiet : ∀ x ∈ turn :: round, x.Quiet := by
      intro x hx
      by_contra hloud
      exact hall ⟨x, hx, hloud⟩
    have hfound := h.isSome_of_round (hturns.cons hturn) hlen hquiet
    rw [hnone (hquiet turn List.mem_cons_self).deadlock] at hfound
    cases hfound
  · have he := (h.course hc).evolves
    exact Nat.lt_of_le_of_lt ((he.plays hturn).remaining he.wellFormed).1 hless

/-- A denial with something happening in the round before it leaves three operations to do, or
breaks a deadlock where there were four. -/
theorem Reached.four_le_remaining (h : Reached store programs settings earlier mid)
    (hc : mid.Course round before) (hturn : before.turn = .ok (ring, some turn))
    (hd : turn.Denies a k) (hlt : remaining ring.transactions < remaining mid.transactions) :
    4 ≤ remaining mid.transactions := by
  have he := (h.course hc).evolves
  have hplays := he.plays hturn
  cases hdeadlock : turn.deadlock with
  | none =>
    obtain ⟨t, t', db, blockers, ht, -, -, ha⟩ := hplays.exists_denied hd
    have hthree := ha.three_le_remaining he ht
    have hsame := hplays.remaining_of_denies hd hdeadlock
    omega
  | some d => exact Nat.le_trans (hplays.four_le_remaining he hdeadlock) (h.remaining_course hc)

theorem Reached.remaining_add_spent (h : Reached store programs settings turns ring) :
    remaining ring.transactions + spent ring.transactions =
      programs.foldr (fun program total => program.length + total) 0 := by
  rw [TwoPhase.remaining_add_spent, total_length_eq h.evolves.wellFormed]

/-- From denial to denial, less is left to do. -/
theorem Reached.remaining_lt_of_denies (h : Reached store programs settings turns before)
    (hturn : before.turn = .ok (ring, some turn)) (hd : turn.Denies a (k + 2))
    (hnone : turn.deadlock = none → ring.database.waits.findDeadlock = none) :
    ∃ previous sooner start mid, Reached store programs settings sooner start ∧
      start.turn = .ok (mid, some previous) ∧ mid.LeadsTo ring ∧ previous.Denies a (k + 1) ∧
      remaining ring.transactions < remaining mid.transactions ∧
      4 ≤ remaining mid.transactions := by
  obtain ⟨round, previous, sooner, start, mid, hlen, hstart, hmid, hcourse, hprevious⟩ :=
    h.exists_previous_denial hturn hd
  have hr := hstart.turn hmid
  have hlt := hr.remaining_lt_of_round hcourse hturn hlen hnone
  exact ⟨previous, sooner, start, mid, hstart, hmid, (hcourse.turn hturn).leadsTo, hprevious, hlt,
    hr.four_le_remaining hcourse hturn hd hlt⟩

/-- No denial from the patience on leaves a cycle without breaking a deadlock. -/
theorem Reached.findDeadlock_of_denies (h : Reached store programs settings turns before)
    (hturn : before.turn = .ok (ring, some turn)) (hd : turn.Denies a k)
    (hk : max 1 settings.threshold.toNat ≤ k) (hquiet : turn.deadlock = none) :
    ring.database.waits.findDeadlock = none := by
  refine (h.evolves.plays hturn).findDeadlock_eq_none hd ?_ hquiet
  rwa [h.counted.patience_eq]

/-- From the patience on, each denial takes something that happens. -/
theorem Reached.exists_denial_of_le (h : Reached store programs settings turns before) {m : Nat}
    (hm : max 1 settings.threshold.toNat ≤ m) (hmk : m ≤ k)
    (hturn : before.turn = .ok (ring, some turn)) (hd : turn.Denies a k) :
    ∃ previous sooner start mid, Reached store programs settings sooner start ∧
      start.turn = .ok (mid, some previous) ∧ previous.Denies a m ∧
      remaining ring.transactions + k ≤ remaining mid.transactions + m := by
  induction k, hmk using Nat.le_induction generalizing turn turns before ring with
  | base => exact ⟨turn, turns, before, ring, h, hturn, hd, Nat.le_refl _⟩
  | succ k hmk ih =>
    obtain ⟨j, rfl⟩ : ∃ j, k = j + 1 := ⟨k - 1, by omega⟩
    obtain ⟨previous, sooner, start, mid, hstart, hmid, -, hprevious, hlt, -⟩ :=
      h.remaining_lt_of_denies hturn hd (h.findDeadlock_of_denies hturn hd (by omega))
    obtain ⟨first, rest, start', mid', hstart', hmid', hfirst, hle⟩ := ih hstart hmid hprevious
    exact ⟨first, rest, start', mid', hstart', hmid', hfirst, by omega⟩

/-- As long as no cycle was broken, each denial takes something that happens from the first one
on. -/
theorem Reached.remaining_add_le (h : Reached store programs settings turns before)
    (hturn : before.turn = .ok (ring, some turn)) (hd : turn.Denies a (k + 1))
    (hnone : ring.database.waits.findDeadlock = none) (hfew : spent ring.transactions < 4) :
    remaining ring.transactions + (k + 1) ≤
      programs.foldr (fun program total => program.length + total) 0 := by
  induction k generalizing turn turns before ring with
  | zero =>
    have hplays := h.evolves.plays hturn
    obtain ⟨t, t', db, blockers, -, -, -, ha⟩ := hplays.exists_denied hd
    have hpos := ha.spent_pos h.evolves
    have hle := (hplays.remaining h.evolves.wellFormed).1
    have hcount := h.remaining_add_spent
    omega
  | succ k ih =>
    obtain ⟨previous, sooner, start, mid, hstart, hmid, hleads, hprevious, hlt, -⟩ :=
      h.remaining_lt_of_denies hturn hd fun _ => hnone
    have hr := hstart.turn hmid
    have hnone' : mid.database.waits.findDeadlock = none := by
      by_contra hsome
      obtain ⟨d, hfind⟩ := Option.ne_none_iff_exists'.1 hsome
      exact absurd (hleads.four_le_spent hr.evolves hfind hnone) (Nat.not_le.2 hfew)
    have hfew' : spent mid.transactions < 4 := by
      have hbefore := hr.remaining_add_spent
      have hafter := (h.turn hturn).remaining_add_spent
      omega
    have hle := ih hstart hmid hprevious hnone' hfew'
    omega

/-- **What it takes to be denied in vain.** For a denial after as many in a row as the patience
lasts and `k` at least, the programs need four operations more than `k`; or a cycle is broken, and
they need eight more than the denials beyond the patience. -/
theorem Reached.operationCount_of_denies (h : Reached store programs settings turns before)
    (hk : max 1 settings.threshold.toNat ≤ k) (hturn : before.turn = .ok (ring, some turn))
    (hd : turn.Denies a (k + 1)) :
    k + 4 ≤ before.operationCount ∨
      k + 8 ≤ max 1 settings.threshold.toNat + before.operationCount := by
  rw [operationCount_eq h.evolves.wellFormed]
  obtain ⟨j, rfl⟩ : ∃ j, k = j + 1 := ⟨k - 1, by omega⟩
  obtain ⟨previous, sooner, start, mid, hstart, hmid, -, hprevious, -, hfour⟩ :=
    h.remaining_lt_of_denies hturn hd (h.findDeadlock_of_denies hturn hd (by omega))
  obtain ⟨worn, rest, fresh, tired, hfresh, htired, hworn, hle⟩ :=
    hstart.exists_denial_of_le (Nat.le_refl _) hk hmid hprevious
  have hcount := (hfresh.turn htired).remaining_add_spent
  by_cases hspent : 4 ≤ spent tired.transactions
  · omega
  · have hquiet : worn.deadlock = none := by
      by_contra hloud
      obtain ⟨d, hdeadlock⟩ := Option.ne_none_iff_exists'.1 hloud
      exact hspent ((hfresh.evolves.plays htired).four_le_spent hfresh.evolves hdeadlock)
    have hnone := hfresh.findDeadlock_of_denies htired hworn (Nat.le_refl _) hquiet
    obtain ⟨p, hp⟩ := Nat.exists_eq_add_one_of_ne_zero
      (show max 1 settings.threshold.toNat ≠ 0 by omega)
    rw [hp] at hworn hle
    have := hfresh.remaining_add_le htired hworn hnone (Nat.not_le.1 hspent)
    omega

end Ring

end

end TwoPhase
