import TwoPhase.Proofs.Victims

/-!
# Real deadlocks are found

A set of transactions is knotted if each member has an operation pending that a lock of
another member is in the way of. Nothing but an abort unties a knot, and the search
always takes the first cycle of the whole graph, which may be another one; yet some
member is aborted in the end.

* `Knotted.plays`, `Knotted.turn_denied`: a knot stays, and the turns of its members are
  denied, until a member is aborted.
* `Reached.le_countP`: everybody has a turn in each round.
* `Reached.worn`: after as many rounds as patience lasts every member points to a member
  and has lost patience, so from then on each of its turns breaks a deadlock.
* `Reached.exists_victim`: every deadlock costs a life, so the knot is broken before as
  many rounds have passed as there are transactions.
-/

namespace TwoPhase

/-- Every member of `D` has an operation pending that a lock of another member is in the way of. -/
def Knotted (D : Nat → Prop) (db : Database) (ts : List Transaction) : Prop :=
  ∀ a, D a → ∃ b, D b ∧ Obstructs db ts b a

/-- No member of `D` is a victim in these turns. -/
def Spares (D : Nat → Prop) (turns : List Turn) : Prop :=
  ∀ turn ∈ turns, ∀ d, turn.deadlock = some d → ¬ D d.victim

section
variable {store : Store} {programs : List Program} {settings : Settings} {turns earlier : List Turn}
  {db db' : Database} {ts ts' : List Transaction} {p a b patience : Nat} {t t' : Transaction}
  {deed : Deed} {ring ring' mid last : Ring} {turn : Turn} {D : Nat → Prop}

/-! ## Knots -/

theorem Obstructs.unfinished (h : Obstructs db ts b a) : Unfinished ts a := by
  obtain ⟨t, ht, hid, op, mode, record, hp, -⟩ := h
  exact ⟨t, ht, hid, (Transaction.pending?_eq_some.1 hp).1⟩

theorem Knotted.unfinished (h : Knotted D db ts) (ha : D a) : Unfinished ts a := by
  obtain ⟨b, -, hobs⟩ := h a ha
  exact hobs.unfinished

theorem Acts.conflicts_other (ha : Acts db t deed db' t') (hw : WellFormed store programs db ts)
    (ht : ts[p]? = some t) (hb : b ≠ t.id) {i : Nat} {mode : LockMode}
    (hc : (db.locks.lockOf i).Conflicts b mode) : (db'.locks.lockOf i).Conflicts b mode := by
  cases ha with
  | denied => exact hc
  | @access op mode' record e pending request free =>
    show ((db.locks.take t.id mode' record.toNat).lockOf i).Conflicts b mode
    rw [LockTable.lockOf_take (hw.lockSize ▸ hw.record_lt ht pending request)]
    split
    · next hi =>
      subst hi
      exact hc.grant free
    · exact hc
  | commit =>
    show ((db.locks.release t.id).lockOf i).Conflicts b mode
    rw [LockTable.lockOf_release]
    exact hc.release hb
  | abort =>
    show ((db.locks.release t.id).lockOf i).Conflicts b mode
    rw [LockTable.lockOf_release]
    exact hc.release hb

namespace Knotted

/-- All that a member can do of its own is to be denied, with a member among the blockers. -/
theorem denied_of_mem (h : Knotted D db ts) (hw : WellFormed store programs db ts)
    (ht : ts[p]? = some t) (ha : Acts db t deed db' t') (hmem : D t.id)
    (hdeed : deed ≠ .done .abort) : ∃ blockers b, deed = .denied blockers ∧ D b ∧ b ∈ blockers := by
  obtain ⟨b, hb, hobs⟩ := h t.id hmem
  cases ha with
  | denied pending request =>
    exact ⟨_, b, rfl, hb, hobs.mem_blockers hw ht pending request⟩
  | access pending request free =>
    exact absurd (hobs.mem_blockers hw ht pending request) (IdSet.isEmpty_iff.1 free b)
  | commit pending =>
    obtain ⟨x, hx, hid, op, mode, record, hp, hr, -⟩ := hobs
    rw [hw.eq_of_id hx (List.mem_of_getElem? ht) hid, pending] at hp
    cases hp
    cases hr
  | abort => exact absurd rfl hdeed

/-- A knot stays as long as no member is aborted. -/
theorem act (h : Knotted D db ts) (hw : WellFormed store programs db ts) (ht : ts[p]? = some t)
    (ha : Acts db t deed db' t') (hspare : deed = .done .abort → ¬ D t.id) :
    Knotted D db' (ts.set p t') := by
  intro a hDa
  obtain ⟨b, hDb, hobs⟩ := h a hDa
  refine ⟨b, hDb, ?_⟩
  by_cases hmem : D t.id
  · -- a member is denied, which changes neither locks nor what is pending
    obtain ⟨blockers, -, rfl, -⟩ :=
      h.denied_of_mem hw ht ha hmem fun habort => hspare habort hmem
    have hid := ha.id_eq
    obtain ⟨rfl, rfl, -⟩ := ha.denied_inv
    exact hobs.keep hw ht hid (fun _ => rfl) fun i mode hc => hc
  · refine hobs.keep hw ht ha.id_eq (fun hat => ?_) fun i mode hc => ?_
    · exact absurd (hat ▸ hDa) hmem
    · refine ha.conflicts_other hw ht ?_ hc
      rintro rfl
      exact hmem hDb

theorem plays (h : Knotted D db ts) (hw : WellFormed store programs db ts)
    (hp : Plays patience db ts p turn db' ts')
    (hspare : ∀ d, turn.deadlock = some d → ¬ D d.victim) : Knotted D db' ts' := by
  cases hp with
  | idle => exact h
  | progress ht ha hne =>
    refine h.act hw ht ha fun hdeed => ?_
    cases hdeed
    exact absurd rfl hne
  | denied ht ha => exact h.act hw ht ha nofun
  | broken ht ha hd hv hid hab =>
    refine (h.act hw ht ha nofun).act (hw.act ht ha) hv hab fun _ => ?_
    rw [hid]
    exact hspare _ rfl

theorem turn_denied (h : Knotted D db ts) (hw : WellFormed store programs db ts)
    (hp : Plays patience db ts p turn db' ts') (hmem : D turn.transaction) :
    ∃ denials blockers b, turn.step = .denied denials blockers ∧ D b ∧ b ∈ blockers := by
  cases hp with
  | @idle t ht hp =>
    obtain ⟨x, hx, hid, hout⟩ := h.unfinished hmem
    obtain ⟨op, hop⟩ := hw.exists_pending hx hout
    rw [hw.eq_of_id hx (List.mem_of_getElem? ht) hid, hp] at hop
    cases hop
  | progress ht ha hne =>
    obtain ⟨blockers, b, hdeed, -⟩ := h.denied_of_mem hw ht ha hmem fun hdeed => by
      cases hdeed
      exact hne rfl
    cases hdeed
  | denied ht ha =>
    obtain ⟨blockers, b, hdeed, hb⟩ := h.denied_of_mem hw ht ha hmem nofun
    cases hdeed
    exact ⟨_, _, b, rfl, hb⟩
  | broken ht ha =>
    obtain ⟨blockers, b, hdeed, hb⟩ := h.denied_of_mem hw ht ha hmem nofun
    cases hdeed
    exact ⟨_, _, b, rfl, hb⟩

/-- The turn of a member that has lost patience breaks a deadlock, since members point to
members. -/
theorem deadlock_isSome (h : Knotted D db ts) (hw : WellFormed store programs db ts)
    (hp : Plays patience db ts p turn db' ts') (hmem : D turn.transaction)
    (hedges : ∀ a, D a → ∃ b, D b ∧ db.waits.hasEdge a b = true)
    (hworn : ∀ t ∈ ts, D t.id → patience ≤ t.denials) : turn.deadlock.isSome = true := by
  obtain ⟨denials, blockers, b, hstep, -⟩ := h.turn_denied hw hp hmem
  cases hp with
  | idle => cases hstep
  | progress => cases hstep
  | @denied t t' blockers db' ht ha hsearch =>
    have hle := hworn t (List.mem_of_getElem? ht) hmem
    obtain ⟨rfl, rfl, -⟩ := ha.denied_inv
    have hfound : (db.waits.addEdges t.id blockers.toList).findDeadlock.isSome = true := by
      apply WaitGraph.findDeadlock_isSome
      apply WaitGraph.findCycle_isSome hmem
      intro a hDa
      obtain ⟨b, hb, hedge⟩ := hedges a hDa
      exact ⟨b, hb, WaitGraph.hasEdge_addEdges.2 (.inl hedge)⟩
    rw [hsearch (Nat.le_succ_of_le hle)] at hfound
    cases hfound
  | broken => rfl

end Knotted

theorem Evolves.knotted (h : Evolves store programs db ts) {d : Deadlock}
    (hd : db.waits.findDeadlock = some d) : Knotted (· ∈ d.cycle) db ts := by
  intro a ha
  obtain ⟨b, hb, hedge⟩ := (WaitGraph.isCycle_of_findDeadlock hd).exists_edge ha
  exact ⟨b, hb, h.waiting.obstructs a b hedge ((h.genuine hd).unfinished b hb)⟩

namespace Ring

/-- Along turns that abort no member, a knot stays and its members are denied. -/
theorem Reached.knotted (h : Reached store programs settings earlier ring)
    (hD : Knotted D ring.database ring.transactions) (hturns : ring.Turns turns last)
    (hspare : Spares D turns) :
    Knotted D last.database last.transactions ∧
      ∀ turn ∈ turns, D turn.transaction →
        ∃ denials blockers b, turn.step = .denied denials blockers ∧ D b ∧ b ∈ blockers := by
  induction hturns with
  | nil => exact ⟨hD, nofun⟩
  | @cons turns mid last turn hturns hturn ih =>
    have hmid := (h.append hturns).evolves
    obtain ⟨hknot, hdenied⟩ := ih fun x hx => hspare x (List.mem_cons_of_mem _ hx)
    have hplays := hmid.plays hturn
    refine ⟨hknot.plays hmid.wellFormed hplays (hspare turn List.mem_cons_self), ?_⟩
    intro x hx hmem
    rcases List.mem_cons.1 hx with rfl | hx
    · exact hknot.turn_denied hmid.wellFormed hplays hmem
    · exact hdenied x hx hmem

theorem Reached.isFinished_of_knotted (h : Reached store programs settings earlier ring)
    (hD : Knotted D ring.database ring.transactions) (ha : D a) : ring.isFinished = false :=
  h.counted.isFinished_eq_false_iff.2 ⟨a, hD.unfinished ha⟩

/-! ## Rounds -/

theorem Turns.of_append {later sooner : List Turn} (h : ring.Turns (later ++ sooner) last) :
    ∃ mid, ring.Turns sooner mid ∧ mid.Turns later last := by
  induction later generalizing last with
  | nil => exact ⟨last, h, .nil⟩
  | cons turn later ih =>
    cases h with
    | cons hturns hturn =>
      obtain ⟨mid, hsooner, hlater⟩ := ih hturns
      exact ⟨mid, hsooner, .cons hlater hturn⟩

theorem Reached.turn_transaction (h : Reached store programs settings turns ring)
    (hturn : ring.turn = .ok (ring', some turn)) :
    turn.transaction = turns.length % programs.length + 1 := by
  have hw := h.evolves.wellFormed
  obtain ⟨-, t, mid, ht, hid, -⟩ := turn_cases hturn
  rw [hid, hw.ids _ t ht, h.counted.next_eq, Ring.size, hw.length_eq]

theorem Reached.exists_turn_mem (h : Reached store programs settings earlier ring)
    (hturns : ring.Turns turns last) (hlen : programs.length ≤ turns.length) {q : Nat}
    (hq : q < programs.length) : ∃ turn ∈ turns, turn.transaction = q + 1 := by
  obtain ⟨j, hj, hplace⟩ := exists_turn_of_place earlier.length hq
  have hk : turns.length - (j + 1) < turns.length := by omega
  refine ⟨_, List.getElem_mem hk, ?_⟩
  rw [← List.take_append_drop (turns.length - (j + 1)) turns] at hturns
  obtain ⟨mid, hround, -⟩ := hturns.of_append
  rw [List.drop_eq_getElem_cons hk] at hround
  cases hround with
  | cons hsooner hturn =>
    rw [(h.append hsooner).turn_transaction hturn, ← hplace, List.length_append, List.length_drop,
      show turns.length - (turns.length - (j + 1) + 1) + earlier.length = earlier.length + j by
        omega]

theorem Reached.le_countP (h : Reached store programs settings earlier ring)
    (hturns : ring.Turns turns last) {rounds q : Nat}
    (hlen : rounds * programs.length ≤ turns.length) (hq : q < programs.length) :
    rounds ≤ turns.countP (·.transaction = q + 1) := by
  induction rounds generalizing turns last with
  | zero => exact Nat.zero_le _
  | succ rounds ih =>
    rw [Nat.succ_mul] at hlen
    rw [← List.take_append_drop programs.length turns] at hturns
    obtain ⟨mid, hsooner, hround⟩ := hturns.of_append
    have hmany := ih hsooner (by rw [List.length_drop]; omega)
    obtain ⟨turn, hmem, hturn⟩ := (h.append hsooner).exists_turn_mem hround
      (by rw [List.length_take]; omega) hq
    have hone : 0 < (turns.take programs.length).countP (·.transaction = q + 1) :=
      List.countP_pos_iff.2 ⟨turn, hmem, decide_eq_true hturn⟩
    rw [← List.take_append_drop programs.length turns, List.countP_append]
    omega

end Ring

/-! ## Patience -/

theorem countP_le_length_streak
    (h : ∀ turn ∈ turns, turn.transaction = a →
      ∃ denials blockers, turn.step = .denied denials blockers) :
    turns.countP (·.transaction = a) ≤ (streak a (turns ++ earlier)).length := by
  induction turns with
  | nil => simp
  | cons turn rest ih =>
    have hrest := ih fun x hx => h x (List.mem_cons_of_mem _ hx)
    obtain ⟨id, step, deadlock⟩ := turn
    by_cases hid : id = a
    · subst hid
      obtain ⟨denials, blockers, hstep⟩ := h _ List.mem_cons_self rfl
      cases hstep
      simpa using hrest
    · rw [List.cons_append, streak_other (Ne.symm hid)]
      simpa [hid] using hrest

theorem mem_streak_of_denied
    (h : ∀ turn ∈ turns, turn.transaction = a →
      ∃ denials blockers, turn.step = .denied denials blockers)
    (hmem : turn ∈ turns) (hturn : turn.transaction = a) {denials : Nat} {blockers : IdSet}
    (hstep : turn.step = .denied denials blockers) : blockers ∈ streak a (turns ++ earlier) := by
  induction turns with
  | nil => cases hmem
  | cons newest rest ih =>
    have hrest := ih fun x hx => h x (List.mem_cons_of_mem _ hx)
    obtain ⟨id, step, deadlock⟩ := newest
    by_cases hid : id = a
    · subst hid
      obtain ⟨k, newer, hk⟩ := h _ List.mem_cons_self rfl
      cases hk
      rw [List.cons_append, streak_denied]
      rcases List.mem_cons.1 hmem with rfl | hmem
      · cases hstep
        exact List.mem_cons_self
      · exact List.mem_cons_of_mem _ (hrest hmem)
    · rw [List.cons_append, streak_other (Ne.symm hid)]
      rcases List.mem_cons.1 hmem with rfl | hmem
      · exact absurd hturn hid
      · exact hrest hmem

namespace Ring

/-- After some rounds every member has been denied in each of them, and points to a member. -/
theorem Reached.worn (h : Reached store programs settings earlier ring)
    (hD : Knotted D ring.database ring.transactions) (hturns : ring.Turns turns last)
    (hspare : Spares D turns) {rounds : Nat}
    (hpos : 0 < rounds) (hlen : rounds * programs.length ≤ turns.length)
    (ht : t ∈ last.transactions) (hmem : D t.id) :
    rounds ≤ t.denials ∧ ∃ b, D b ∧ last.database.waits.hasEdge t.id b = true := by
  obtain ⟨hknot, hdenied⟩ := h.knotted hD hturns hspare
  have hlast := h.append hturns
  have hw := hlast.evolves.wellFormed
  obtain ⟨q, hq⟩ := List.mem_iff_getElem?.1 ht
  have hid := hw.ids q t hq
  have hcount := h.le_countP hturns hlen (hw.length_eq ▸ (List.getElem?_eq_some_iff.1 hq).1)
  have hstep : ∀ turn ∈ turns, turn.transaction = t.id →
      ∃ denials blockers, turn.step = .denied denials blockers := by
    intro turn hturn he
    obtain ⟨denials, blockers, -, hs, -⟩ := hdenied turn hturn (he ▸ hmem)
    exact ⟨denials, blockers, hs⟩
  rw [← hid] at hcount
  constructor
  · obtain ⟨x, hx, hxid, hout⟩ := hknot.unfinished hmem
    rw [hw.eq_of_id hx ht hxid] at hout
    rw [hlast.traced.denials t ht hout]
    exact Nat.le_trans hcount (countP_le_length_streak hstep)
  · obtain ⟨turn, hturn, he⟩ := List.countP_pos_iff.1 (Nat.lt_of_lt_of_le hpos hcount)
    have he := of_decide_eq_true he
    obtain ⟨denials, blockers, b, hs, hb, hbmem⟩ := hdenied turn hturn (he ▸ hmem)
    refine ⟨b, hb, ?_⟩
    rw [hlast.traced.edges t.id b (hknot.unfinished hmem) (hknot.unfinished hb)]
    exact ⟨blockers, mem_streak_of_denied hstep hturn he hs, hbmem⟩

/-- Once patience is worn out, every turn of a member breaks a deadlock. -/
theorem Reached.deadlock_isSome (h : Reached store programs settings earlier ring)
    (hD : Knotted D ring.database ring.transactions) (hturns : ring.Turns turns mid)
    (hspare : Spares D turns)
    (hlen : max 1 settings.threshold.toNat * programs.length ≤ turns.length)
    (hturn : mid.turn = .ok (last, some turn)) (hmem : D turn.transaction) :
    turn.deadlock.isSome = true := by
  have hmid := h.append hturns
  have hplays := hmid.evolves.plays hturn
  rw [hmid.counted.patience_eq] at hplays
  have hknot := (h.knotted hD hturns hspare).1
  have hworn : ∀ t ∈ mid.transactions, D t.id → max 1 settings.threshold.toNat ≤ t.denials ∧
      ∃ b, D b ∧ mid.database.waits.hasEdge t.id b = true :=
    fun t ht hDt => h.worn hD hturns hspare (by omega) hlen ht hDt
  refine hknot.deadlock_isSome hmid.evolves.wellFormed hplays hmem (fun a ha => ?_)
    fun t ht hDt => (hworn t ht hDt).1
  obtain ⟨t, ht, rfl, -⟩ := hknot.unfinished ha
  exact (hworn t ht ha).2

theorem Reached.countP_le_countP_deadlock (h : Reached store programs settings earlier ring)
    (hD : Knotted D ring.database ring.transactions) {sooner later : List Turn}
    (hsooner : ring.Turns sooner mid) (hlater : mid.Turns later last)
    (hspare : Spares D (later ++ sooner))
    (hlen : max 1 settings.threshold.toNat * programs.length ≤ sooner.length) (ha : D a) :
    later.countP (·.transaction = a) ≤ later.countP (·.deadlock.isSome) := by
  refine List.countP_mono_left fun turn hmem hturn => ?_
  obtain ⟨newer, older, before, after, rfl, hbefore, hstep⟩ := hlater.split hmem
  refine h.deadlock_isSome hD (hsooner.append hbefore) (fun x hx => hspare x ?_) ?_ hstep ?_
  · simp only [List.mem_append, List.mem_cons] at hx ⊢
    rcases hx with hx | hx
    · exact .inl (.inr (.inr hx))
    · exact .inr hx
  · rw [List.length_append]
    omega
  · rw [of_decide_eq_true hturn]
    exact ha

end Ring

/-! ## Lives -/

theorem Plays.countP_isFinished (hp : Plays patience db ts p turn db' ts') :
    ts.countP (·.isFinished) + (if turn.deadlock.isSome then 1 else 0) ≤
      ts'.countP (·.isFinished) := by
  cases hp with
  | idle => exact Nat.le_refl _
  | progress ht ha =>
    rw [ha.countP_isFinished ht]
    exact Nat.le_add_right _ _
  | denied ht ha =>
    rw [ha.countP_isFinished ht]
    exact Nat.le_add_right _ _
  | broken ht ha hd hv hid hab =>
    rw [hab.countP_isFinished hv, ha.countP_isFinished ht]
    obtain ⟨-, rfl⟩ := hab.abort_inv
    exact Nat.add_le_add_right (Nat.le_add_right _ _) _

namespace Ring

theorem Reached.finished_turns (h : Reached store programs settings earlier ring)
    (hturns : ring.Turns turns last) :
    ring.finished + turns.countP (·.deadlock.isSome) ≤ last.finished := by
  induction hturns with
  | nil => exact Nat.le_refl _
  | @cons turns mid last turn hturns hturn ih =>
    have hmid := h.append hturns
    have hle := (hmid.evolves.plays hturn).countP_isFinished
    rw [← hmid.counted.finished_eq, ← (hmid.turn hturn).counted.finished_eq] at hle
    rw [List.countP_cons]
    omega

/-- **A knot is broken** before it has outlasted everybody's patience and everybody else. -/
theorem Reached.exists_victim (h : Reached store programs settings earlier ring)
    (hD : Knotted D ring.database ring.transactions) (ha : D a) (hturns : ring.Turns turns last)
    (hlen : (max 1 settings.threshold.toNat + programs.length) * programs.length ≤ turns.length) :
    ∃ turn ∈ turns, ∃ d, turn.deadlock = some d ∧ D d.victim := by
  by_contra hnone
  have hspare : Spares D turns :=
    fun turn hturn d hd hvictim => hnone ⟨turn, hturn, d, hd, hvictim⟩
  have hopen := (h.append hturns).isFinished_of_knotted (h.knotted hD hturns hspare).1 ha
  obtain ⟨t, ht, rfl, -⟩ := hD.unfinished ha
  obtain ⟨q, hq⟩ := List.mem_iff_getElem?.1 ht
  have hw := h.evolves.wellFormed
  have hid := hw.ids q t hq
  rw [Nat.add_mul] at hlen
  -- the older turns wear out patience, in the later ones deadlocks are broken
  obtain ⟨later, sooner, rfl, hsooner⟩ : ∃ later sooner, turns = later ++ sooner ∧
      sooner.length = max 1 settings.threshold.toNat * programs.length :=
    ⟨_, _, (List.take_append_drop (turns.length -
      max 1 settings.threshold.toNat * programs.length) turns).symm, by
        rw [List.length_drop]
        omega⟩
  obtain ⟨mid, hturns₁, hturns₂⟩ := hturns.of_append
  rw [List.length_append] at hlen
  have hmany : programs.length ≤ later.countP (·.transaction = q + 1) :=
    (h.append hturns₁).le_countP hturns₂ (by omega)
      (hw.length_eq ▸ (List.getElem?_eq_some_iff.1 hq).1)
  have hlives := h.countP_le_countP_deadlock hD hturns₁ hturns₂ hspare hsooner.ge (hid ▸ ha)
  have hfinished := (h.append hturns₁).finished_turns hturns₂
  -- not everybody has finished, yet as many deadlocks were broken as there are transactions
  have hlast := (h.append hturns).counted.finished_eq
  have hle := List.countP_le_length (p := (·.isFinished)) (l := last.transactions)
  rw [(h.append hturns).evolves.wellFormed.length_eq] at hle
  have hne : last.finished ≠ programs.length := by
    rw [← (h.append hturns).evolves.wellFormed.length_eq]
    exact of_decide_eq_false hopen
  omega

end Ring

/-- **A real deadlock is never hidden.** Take a nonempty set of transactions in a reached ring, each
with an operation pending that a lock of another member is in the way of. As long as no member has
been aborted, each turn of a member is denied; and within the turns that wear out the patience of
everybody and the lives of everybody else, a member is aborted as the victim of a deadlock. -/
theorem deadlock_never_hidden (h : Ring.Reached store programs settings earlier ring)
    (hne : ∃ a, D a) (hD : Knotted D ring.database ring.transactions) :
    (∀ turns mid last turn, ring.Turns turns mid → (∀ a, D a → ¬ Aborted mid.transactions a) →
      mid.turn = .ok (last, some turn) → D turn.transaction →
      ∃ denials blockers, turn.step = .denied denials blockers) ∧
    ∃ turns before after turn d, ring.Turns turns before ∧
      before.turn = .ok (after, some turn) ∧
      turns.length + 1 ≤
        (max 1 settings.threshold.toNat + programs.length) * programs.length ∧
      turn.deadlock = some d ∧ D d.victim ∧ Unfinished before.transactions d.victim ∧
      Aborted after.transactions d.victim := by
  obtain ⟨a, ha⟩ := hne
  constructor
  · intro turns mid last turn hturns halive hturn hmem
    have hspare : Spares D turns :=
      fun x hx d hd hvictim => halive d.victim hvictim
        ((h.aborted_turns hturns).2 (.inr ⟨x, hx, d, hd, rfl⟩))
    have hmid := (h.append hturns).evolves
    obtain ⟨denials, blockers, b, hstep, -⟩ :=
      (h.knotted hD hturns hspare).1.turn_denied hmid.wellFormed (hmid.plays hturn) hmem
    exact ⟨denials, blockers, hstep⟩
  · obtain ⟨turns, last, hturns, hle, hend⟩ :=
      h.exists_turns ((max 1 settings.threshold.toNat + programs.length) * programs.length)
    obtain ⟨turn, hmem, d, hd, hvictim⟩ :
        ∃ turn ∈ turns, ∃ d, turn.deadlock = some d ∧ D d.victim := by
      rcases hend with hlen | hfin
      · exact h.exists_victim hD ha hturns (Nat.le_of_eq hlen.symm)
      · -- a finished ring has no knot left
        by_contra hnone
        have hknot := (h.knotted hD hturns fun x hx d hd hv => hnone ⟨x, hx, d, hd, hv⟩).1
        have hopen := (h.append hturns).isFinished_of_knotted hknot ha
        rw [hfin] at hopen
        cases hopen
    obtain ⟨later, sooner, before, after, rfl, hsooner, hturn⟩ := hturns.split hmem
    have hbefore := (h.append hsooner).evolves
    have hplays := hbefore.plays hturn
    refine ⟨sooner, before, after, turn, d, hsooner, hturn, ?_, hd, hvictim,
      hplays.victim_unfinished hbefore.wellFormed hd,
      (hplays.aborted_iff hbefore.wellFormed).2 (.inr ⟨d, hd, rfl⟩)⟩
    rw [List.length_append, List.length_cons] at hle
    omega

/-- T1 and T2 write two records in opposite orders, and T3 and T4 two others. -/
def twoCrossings : List Program :=
  [⟨[.write 0 10, .write 1 11, .commit], by decide⟩,
    ⟨[.write 1 21, .write 0 20, .commit], by decide⟩,
    ⟨[.write 2 32, .write 3 33, .commit], by decide⟩,
    ⟨[.write 3 43, .write 2 42, .commit], by decide⟩]

/-- After four turns T3 and T4 are knotted; T1 and T2 come first in the search, yet T3 or T4 is
aborted in time. -/
theorem deadlock_never_hidden_twoCrossings :
    ∃ (earlier turns : List Turn) (ring before after : Ring) (turn : Turn) (d : Deadlock),
      Ring.Reached ⟨[5, 6, 7, 8]⟩ twoCrossings ⟨1⟩ earlier ring ∧
      Knotted (fun a => a = 3 ∨ a = 4) ring.database ring.transactions ∧
      ring.Turns turns before ∧ before.turn = .ok (after, some turn) ∧ turns.length + 1 ≤ 20 ∧
      turn.deadlock = some d ∧ (d.victim = 3 ∨ d.victim = 4) := by
  obtain ⟨earlier, ring, hr, ⟨t₃, ht₃, hid₃, hp₃⟩, ⟨t₄, ht₄, hid₄, hp₄⟩, hlock₂, hlock₃⟩ :=
    Ring.exists_reached ⟨[5, 6, 7, 8]⟩ twoCrossings ⟨1⟩ 4
      (fun ring =>
        (∃ t ∈ ring.transactions, t.id = 3 ∧ t.pending? = some (.write 3 33)) ∧
        (∃ t ∈ ring.transactions, t.id = 4 ∧ t.pending? = some (.write 2 42)) ∧
        ring.database.locks.lockOf 2 = .exclusive 3 ∧ ring.database.locks.lockOf 3 = .exclusive 4)
      (by decide +kernel)
  have hknot : Knotted (fun a => a = 3 ∨ a = 4) ring.database ring.transactions := by
    rintro a (rfl | rfl)
    · refine ⟨4, .inr rfl, t₃, ht₃, hid₃, _, .exclusive, 3, hp₃, rfl, by decide, .inl ?_⟩
      show (ring.database.locks.lockOf 3).owner? = some 4
      rw [hlock₃]
      rfl
    · refine ⟨3, .inl rfl, t₄, ht₄, hid₄, _, .exclusive, 2, hp₄, rfl, by decide, .inl ?_⟩
      show (ring.database.locks.lockOf 2).owner? = some 3
      rw [hlock₂]
      rfl
  obtain ⟨-, turns, before, after, turn, d, hturns, hturn, hle, hd, hvictim, -⟩ :=
    deadlock_never_hidden hr ⟨3, .inl rfl⟩ hknot
  exact ⟨earlier, turns, ring, before, after, turn, d, hr, hknot, hturns, hturn,
    Nat.le_trans hle (by decide), hd, hvictim⟩

end

end TwoPhase
