import TwoPhase.Proofs.Requests

/-!
# Calls on a ring

`Ring.Reached store programs settings turns ring`: a ring that was started over
`store` and then called any number of times, each time for a turn, a search for
deadlocks or an abort; `turns` are the turns taken, newest first. For each
function of the ring there is one lemma that says what a successful call can have
done (`attempt_cases`, `abort_cases`, `detect_cases`, `react_cases`, `turn_cases`)
and, in a well-formed state, one that says that it succeeds. A turn is an attempt
and perhaps an abort, so all that evolves keeps holds of reached rings
(`Reached.evolves`), and in the middle of a turn, between attempt and search
(`Evolves.attempt`). What deeds keep, any further calls keep (`Lasting.leadsTo`).
-/

namespace TwoPhase

section
variable {store : Store} {programs : List Program} {db db' : Database} {ts : List Transaction}
  {p : Nat} {t t' : Transaction}

/-! ## Transactions on a database -/

theorem WellFormed.sound (hw : WellFormed store programs db ts) : db.Sound store.size :=
  ⟨hw.storeSize, hw.lockSize, hw.built, hw.fits⟩

/-- A transaction with a pending operation acts, and its turn says so. -/
theorem Transaction.advance_acts (hw : WellFormed store programs db ts) (ht : ts[p]? = some t) :
    (t.pending? = none ∧ t.advance db = .ok (t, db, .idle)) ∨
      ∃ deed db' t', Acts db t deed db' t' ∧ deed ≠ .done .abort ∧
        t.advance db = .ok (t', db', deed.step db t) := by
  cases hp : t.pending? with
  | none => exact .inl ⟨rfl, by simp only [advance, hp]⟩
  | some op =>
    right
    cases op with
    | read record =>
      rcases hw.sound.read (hw.record_lt ht hp rfl) t.id with ⟨hb, hr⟩ | ⟨v, hb, hv, hr⟩
      · refine ⟨_, _, _, .denied hp rfl hb, by simp, ?_⟩
        simp only [advance, hp, hr, bind, Except.bind, pure, Except.pure, answered, Deed.step]
      · refine ⟨_, _, _, .access hp rfl hb (e := .read record v) rfl hv, by simp, ?_⟩
        simp only [advance, hp, hr, bind, Except.bind, pure, Except.pure, answered, Deed.step,
          Event.redo]
    | write record value =>
      rcases hw.sound.write (hw.record_lt ht hp rfl) t.id value with
        ⟨hb, hr⟩ | ⟨old, hb, hv, hr⟩
      · refine ⟨_, _, _, .denied hp rfl hb, by simp, ?_⟩
        simp only [advance, hp, hr, bind, Except.bind, pure, Except.pure, answered, Deed.step]
      · refine ⟨_, _, _, .access hp rfl hb (e := .write record old value) ⟨rfl, rfl⟩ hv, by simp,
          ?_⟩
        simp only [advance, hp, hr, bind, Except.bind, pure, Except.pure, answered, Deed.step,
          Event.redo]
    | commit =>
      refine ⟨_, _, _, .commit hp, by simp, ?_⟩
      simp only [advance, hp, Database.commit, answered, Deed.step]

theorem Transaction.abort_acts (hw : WellFormed store programs db ts) :
    (t.outcome ≠ none ∧ t.abort db = .ok (t, db, none)) ∨
      ∃ db' t', Acts db t (.done .abort) db' t' ∧
        t.abort db = .ok (t', db', some db.history.length) := by
  cases hout : t.outcome with
  | some outcome =>
    exact .inl ⟨nofun, by simp [abort, isFinished, hout]⟩
  | none =>
    refine .inr ⟨_, _, .abort hout, ?_⟩
    simp [abort, isFinished, hout, hw.sound.abort, bind, Except.bind, pure, Except.pure]

/-! ## Rings -/

theorem set_getElem?_self (h : ts[p]? = some t) : ts.set p t = ts := by
  obtain ⟨hlt, rfl⟩ := List.getElem?_eq_some_iff.1 h
  exact List.set_getElem_self hlt

namespace Ring

variable {ring ring' mid : Ring} {id : Nat} {step : Step} {turn : Turn}
  {deadlock : Option Deadlock} {lsn : Option Nat}

theorem attempt_cases (hw : WellFormed store programs ring.database ring.transactions)
    (ht : ring.transactions[p]? = some t) (h : ring.attempt p t = .ok (mid, step)) :
    (t.pending? = none ∧ step = .idle ∧
      mid = { ring with next := (p + 1) % ring.size, turns := ring.turns + 1 }) ∨
    ∃ deed db' t', Acts ring.database t deed db' t' ∧ deed ≠ .done .abort ∧
      step = deed.step ring.database t ∧
      mid = { ring with
        database := db'
        transactions := ring.transactions.set p t'
        next := (p + 1) % ring.size
        finished := if t'.isFinished then ring.finished + 1 else ring.finished
        turns := ring.turns + 1 } := by
  rcases Transaction.advance_acts hw ht with ⟨hp, had⟩ | ⟨deed, db', t', ha, hne, had⟩
  · simp only [attempt, had, bind, Except.bind, pure, Except.pure, Except.ok.injEq,
      Prod.mk.injEq, set_getElem?_self ht, Bool.not_and_self] at h
    exact .inl ⟨hp, h.2.symm, h.1.symm⟩
  · have hout : t.isFinished = false := by simp [Transaction.isFinished, ha.outcome_eq_none]
    simp only [attempt, had, bind, Except.bind, pure, Except.pure, Except.ok.injEq,
      Prod.mk.injEq, hout, Bool.not_false, Bool.true_and] at h
    exact .inr ⟨deed, db', t', ha, hne, h.2.symm, h.1.symm⟩

theorem exists_attempt (hw : WellFormed store programs ring.database ring.transactions)
    (ht : ring.transactions[p]? = some t) : ∃ mid step, ring.attempt p t = .ok (mid, step) := by
  rcases Transaction.advance_acts hw ht with ⟨-, had⟩ | ⟨deed, db', t', -, -, had⟩
  · exact ⟨_, _, by simp only [attempt, had, bind, Except.bind, pure, Except.pure]; rfl⟩
  · exact ⟨_, _, by simp only [attempt, had, bind, Except.bind, pure, Except.pure]; rfl⟩

/-- What an abort does: nothing to a finished transaction, else what `Acts.abort` says. -/
theorem abort_cases (hw : WellFormed store programs ring.database ring.transactions)
    (h : ring.abort id = .ok (ring', lsn)) :
    (lsn = none ∧ ring' = ring ∧ ¬ Unfinished ring.transactions id) ∨
    ∃ t db' t', ring.transactions[id - 1]? = some t ∧ t.id = id ∧
      Acts ring.database t (.done .abort) db' t' ∧ lsn = some ring.database.history.length ∧
      ring' = { ring with
        database := db'
        transactions := ring.transactions.set (id - 1) t'
        finished := ring.finished + 1 } := by
  unfold abort transaction? at h
  cases ht : ring.transactions[id - 1]? with
  | none => simp [ht] at h
  | some t =>
    simp only [ht] at h
    split at h
    · next hid =>
      rcases Transaction.abort_acts (t := t) hw with ⟨hout, had⟩ | ⟨db', t', ha, had⟩
      · simp only [had, bind, Except.bind, pure, Except.pure, Except.ok.injEq, Prod.mk.injEq,
          set_getElem?_self ht] at h
        refine .inl ⟨h.2.symm, h.1.symm, ?_⟩
        rintro ⟨x, hx, hxid, hxout⟩
        rw [hw.eq_of_id hx (List.mem_of_getElem? ht) (hxid.trans hid.symm)] at hxout
        exact hout hxout
      · simp only [had, bind, Except.bind, pure, Except.pure, Except.ok.injEq, Prod.mk.injEq] at h
        exact .inr ⟨t, db', t', rfl, hid, ha, h.2.symm, h.1.symm⟩
    · cases h

theorem getElem?_of_id (hw : WellFormed store programs ring.database ring.transactions)
    (ht : t ∈ ring.transactions) : ring.transactions[t.id - 1]? = some t := by
  obtain ⟨q, hq⟩ := List.mem_iff_getElem?.1 ht
  rw [hw.ids q t hq]
  exact hq

theorem exists_abort (hw : WellFormed store programs ring.database ring.transactions)
    (ht : t ∈ ring.transactions) : ∃ ring' lsn, ring.abort t.id = .ok (ring', lsn) := by
  unfold abort transaction?
  simp only [getElem?_of_id hw ht, if_pos]
  rcases Transaction.abort_acts (t := t) hw with ⟨-, had⟩ | ⟨db', t', -, had⟩
  · exact ⟨_, _, by simp only [had, bind, Except.bind, pure, Except.pure]; rfl⟩
  · exact ⟨_, _, by simp only [had, bind, Except.bind, pure, Except.pure]; rfl⟩

theorem detect_cases (h : ring.detect = .ok (ring', deadlock)) :
    (ring.database.waits.findDeadlock = none ∧ deadlock = none ∧ ring' = ring) ∨
    ∃ d ring₁ lsn, ring.database.waits.findDeadlock = some d ∧ deadlock = some d ∧
      ring.abort d.victim = .ok (ring₁, lsn) ∧
      ring' = { ring₁ with deadlocks := ring₁.deadlocks ++ [d] } := by
  unfold detect at h
  cases hd : ring.database.waits.findDeadlock with
  | none =>
    simp only [hd, Except.ok.injEq, Prod.mk.injEq] at h
    exact .inl ⟨rfl, h.2.symm, h.1.symm⟩
  | some d =>
    simp only [hd, bind_eq_ok] at h
    obtain ⟨⟨ring₁, lsn⟩, habort, hring⟩ := h
    simp only [pure, Except.pure, Except.ok.injEq, Prod.mk.injEq] at hring
    exact .inr ⟨d, ring₁, lsn, rfl, hring.2.symm, habort, hring.1.symm⟩

/-- Deadlocks are looked for after one denial too many, and only then. -/
theorem react_cases (h : ring.react step = .ok (ring', deadlock)) :
    (deadlock = none ∧ ring' = ring ∧
      ∀ denials blockers, step = .denied denials blockers → denials < ring.patience) ∨
    ∃ denials blockers, step = .denied denials blockers ∧ ring.patience ≤ denials ∧
      ring.detect = .ok (ring', deadlock) := by
  cases step with
  | denied denials blockers =>
    simp only [react] at h
    split at h
    · next hle => exact .inr ⟨denials, blockers, rfl, hle, h⟩
    · next hlt =>
      simp only [Except.ok.injEq, Prod.mk.injEq] at h
      refine .inl ⟨h.2.symm, h.1.symm, fun d b hd => ?_⟩
      cases hd
      omega
  | _ =>
    simp only [react, Except.ok.injEq, Prod.mk.injEq] at h
    exact .inl ⟨h.2.symm, h.1.symm, nofun⟩

theorem turn_cases (h : ring.turn = .ok (ring', some turn)) :
    ring.isFinished = false ∧ ∃ t mid, ring.transactions[ring.next]? = some t ∧
      turn.transaction = t.id ∧ ring.attempt ring.next t = .ok (mid, turn.step) ∧
      mid.react turn.step = .ok (ring', turn.deadlock) := by
  unfold Ring.turn at h
  split at h
  · cases h
  · next hfin =>
    refine ⟨by simpa using hfin, ?_⟩
    cases ht : ring.transactions[ring.next]? with
    | none => simp [ht] at h
    | some t =>
      simp only [ht] at h
      cases hturn : ring.turnOf ring.next t with
      | error e => simp [hturn, Except.map] at h
      | ok result =>
        simp only [hturn, Except.map, Except.ok.injEq, Prod.mk.injEq, Option.some.injEq] at h
        obtain ⟨rfl, rfl⟩ := h
        simp only [turnOf, bind_eq_ok] at hturn
        obtain ⟨⟨mid, step⟩, hattempt, ⟨ring₂, deadlock⟩, hreact, hres⟩ := hturn
        cases hres
        exact ⟨t, mid, rfl, rfl, hattempt, hreact⟩

theorem turn_none {ring ring' : Ring} (h : ring.turn = .ok (ring', none)) : ring' = ring := by
  unfold Ring.turn at h
  split at h
  · cases h
    rfl
  · split at h
    · cases h
      rfl
    · next t _ => cases hturn : ring.turnOf ring.next t <;> simp [hturn, Except.map] at h

/-! ## Reached states -/

/-- The rings a caller can have in hand, with the turns taken so far, newest first. -/
inductive Reached (store : Store) (programs : List Program) (settings : Settings) :
    List Turn → Ring → Prop where
  | start {ring : Ring} : Ring.start store programs settings = .ok ring →
      Reached store programs settings [] ring
  | turn {turns : List Turn} {ring ring' : Ring} {turn : Turn} :
      Reached store programs settings turns ring → ring.turn = .ok (ring', some turn) →
      Reached store programs settings (turn :: turns) ring'
  | detect {turns : List Turn} {ring ring' : Ring} {deadlock : Option Deadlock} :
      Reached store programs settings turns ring → ring.detect = .ok (ring', deadlock) →
      Reached store programs settings turns ring'
  | abort {turns : List Turn} {ring ring' : Ring} {id : Nat} {lsn : Option Nat} :
      Reached store programs settings turns ring → ring.abort id = .ok (ring', lsn) →
      Reached store programs settings turns ring'

theorem start_eq_ok {settings : Settings} (h : Ring.start store programs settings = .ok ring) :
    ∃ ts, Ring.enlist store 1 programs = .ok ts ∧
      ring = ⟨store, .ofStore store, ts, settings, 0, 0, 0, []⟩ := by
  simp only [Ring.start, bind_eq_ok] at h
  obtain ⟨ts, hts, hring⟩ := h
  cases hring
  exact ⟨ts, hts, rfl⟩

end Ring

/-! ## What lasts -/

/-- Deeds keep `P`. -/
def Lasting (store : Store) (programs : List Program)
    (P : Database → List Transaction → Prop) : Prop :=
  ∀ ⦃db db' : Database⦄ ⦃ts : List Transaction⦄ ⦃p : Nat⦄ ⦃t t' : Transaction⦄ ⦃deed : Deed⦄,
    Evolves store programs db ts → ts[p]? = some t → Acts db t deed db' t' → P db ts →
    P db' (ts.set p t')

namespace Lasting

variable {P : Database → List Transaction → Prop} {ring ring' mid : Ring} {id : Nat}
  {step : Step} {lsn : Option Nat} {deadlock : Option Deadlock}

theorem attempt (hP : Lasting store programs P)
    (he : Evolves store programs ring.database ring.transactions)
    (h : P ring.database ring.transactions) (ht : ring.transactions[p]? = some t)
    (ha : ring.attempt p t = .ok (mid, step)) : P mid.database mid.transactions := by
  rcases Ring.attempt_cases he.wellFormed ht ha with ⟨-, -, rfl⟩ | ⟨deed, db', t', hacts, -, -, rfl⟩
  · exact h
  · exact hP he ht hacts h

theorem abort (hP : Lasting store programs P)
    (he : Evolves store programs ring.database ring.transactions)
    (h : P ring.database ring.transactions) (ha : ring.abort id = .ok (ring', lsn)) :
    P ring'.database ring'.transactions := by
  rcases Ring.abort_cases he.wellFormed ha with ⟨-, rfl, -⟩ | ⟨t, db', t', ht, -, hacts, -, rfl⟩
  · exact h
  · exact hP he ht hacts h

theorem detect (hP : Lasting store programs P)
    (he : Evolves store programs ring.database ring.transactions)
    (h : P ring.database ring.transactions) (hd : ring.detect = .ok (ring', deadlock)) :
    P ring'.database ring'.transactions := by
  rcases Ring.detect_cases hd with ⟨-, -, rfl⟩ | ⟨d, ring₁, lsn, -, -, ha, rfl⟩
  · exact h
  · have := hP.abort he h ha
    exact this

theorem react (hP : Lasting store programs P)
    (he : Evolves store programs ring.database ring.transactions)
    (h : P ring.database ring.transactions) (hr : ring.react step = .ok (ring', deadlock)) :
    P ring'.database ring'.transactions := by
  rcases Ring.react_cases hr with ⟨-, rfl, -⟩ | ⟨denials, blockers, -, -, hd⟩
  · exact h
  · exact hP.detect he h hd

end Lasting

namespace Evolves

variable {ring ring' mid : Ring} {id : Nat} {step : Step} {lsn : Option Nat}
  {deadlock : Option Deadlock}

theorem lasting : Lasting store programs (Evolves store programs) := by
  intro db db' ts p t t' deed he ht ha _
  exact he.act ht ha

theorem attempt (h : Evolves store programs ring.database ring.transactions)
    (ht : ring.transactions[p]? = some t) (ha : ring.attempt p t = .ok (mid, step)) :
    Evolves store programs mid.database mid.transactions := lasting.attempt h h ht ha

theorem abort (h : Evolves store programs ring.database ring.transactions)
    (ha : ring.abort id = .ok (ring', lsn)) :
    Evolves store programs ring'.database ring'.transactions := lasting.abort h h ha

theorem detect (h : Evolves store programs ring.database ring.transactions)
    (hd : ring.detect = .ok (ring', deadlock)) :
    Evolves store programs ring'.database ring'.transactions := lasting.detect h h hd

theorem react (h : Evolves store programs ring.database ring.transactions)
    (hr : ring.react step = .ok (ring', deadlock)) :
    Evolves store programs ring'.database ring'.transactions := lasting.react h h hr

end Evolves

theorem Ring.Reached.evolves {settings : Settings} {turns : List Turn} {ring : Ring}
    (h : Ring.Reached store programs settings turns ring) :
    Evolves store programs ring.database ring.transactions := by
  induction h with
  | start hs =>
    obtain ⟨ts, hts, rfl⟩ := Ring.start_eq_ok hs
    exact .start hts
  | turn _ hturn ih =>
    obtain ⟨-, t, mid, ht, -, ha, hr⟩ := Ring.turn_cases hturn
    exact (ih.attempt ht ha).react hr
  | detect _ hd ih => exact ih.detect hd
  | abort _ ha ih => exact ih.abort ha

/-- The rings that any number of further calls make of a ring. -/
inductive Ring.LeadsTo (ring : Ring) : Ring → Prop where
  | refl : LeadsTo ring ring
  | turn {mid last : Ring} {turn? : Option Turn} :
      LeadsTo ring mid → mid.turn = .ok (last, turn?) → LeadsTo ring last
  | detect {mid last : Ring} {deadlock : Option Deadlock} :
      LeadsTo ring mid → mid.detect = .ok (last, deadlock) → LeadsTo ring last
  | abort {mid last : Ring} {id : Nat} {lsn : Option Nat} :
      LeadsTo ring mid → mid.abort id = .ok (last, lsn) → LeadsTo ring last

namespace Lasting

variable {P : Database → List Transaction → Prop} {ring ring' last : Ring} {turn? : Option Turn}

theorem turn (hP : Lasting store programs P)
    (he : Evolves store programs ring.database ring.transactions)
    (h : P ring.database ring.transactions) (hturn : ring.turn = .ok (ring', turn?)) :
    P ring'.database ring'.transactions := by
  cases turn? with
  | none => exact Ring.turn_none hturn ▸ h
  | some turn =>
    obtain ⟨-, t, mid, ht, -, ha, hr⟩ := Ring.turn_cases hturn
    exact hP.react (he.attempt ht ha) (hP.attempt he h ht ha) hr

/-- What deeds keep, calls keep, whatever they are. -/
theorem leadsTo (hP : Lasting store programs P)
    (he : Evolves store programs ring.database ring.transactions)
    (h : P ring.database ring.transactions) (hl : ring.LeadsTo last) :
    P last.database last.transactions := by
  suffices Evolves store programs last.database last.transactions ∧
      P last.database last.transactions from this.2
  induction hl with
  | refl => exact ⟨he, h⟩
  | turn _ hturn ih => exact ⟨Evolves.lasting.turn ih.1 ih.1 hturn, hP.turn ih.1 ih.2 hturn⟩
  | detect _ hd ih => exact ⟨ih.1.detect hd, hP.detect ih.1 ih.2 hd⟩
  | abort _ ha ih => exact ⟨ih.1.abort ha, hP.abort ih.1 ih.2 ha⟩

end Lasting

/-! ## Bookkeeping -/

theorem Acts.abort_inv (ha : Acts db t (.done .abort) db' t') :
    db' = { db with store := undoAll (db.history.eventsOf t.id) db.store }.finish t.id .abort ∧
      t' = { t with outcome := some .aborted, denials := 0 } := by
  cases ha with
  | access pending request free matched =>
    exact absurd rfl (Operation.ne_abort_of_matches matched)
  | abort => exact ⟨rfl, rfl⟩

theorem Acts.denied_inv {blockers : IdSet} (ha : Acts db t (.denied blockers) db' t') :
    db' = { db with waits := db.waits.addEdges t.id blockers.toList } ∧
      t' = { t with denials := t.denials + 1 } ∧
      ∃ mode record, blockers = db.blockers t.id mode record ∧ ∃ b, b ∈ blockers := by
  cases ha with
  | denied pending request blocked => exact ⟨rfl, rfl, _, _, rfl, IdSet.exists_mem blocked⟩

theorem Acts.outcome_denied {blockers : IdSet} (ha : Acts db t (.denied blockers) db' t') :
    t'.outcome = none := by
  obtain ⟨-, rfl, -⟩ := ha.denied_inv
  exact ha.outcome_eq_none

theorem Acts.countP_isFinished {deed : Deed} (ha : Acts db t deed db' t') (ht : ts[p]? = some t) :
    (ts.set p t').countP (·.isFinished) =
      ts.countP (·.isFinished) + if t'.isFinished then 1 else 0 := by
  obtain ⟨hlt, rfl⟩ := List.getElem?_eq_some_iff.1 ht
  have hout : ts[p].isFinished = false := by simp [Transaction.isFinished, ha.outcome_eq_none]
  rw [List.countP_set hlt]
  simp [hout]

namespace Ring

/-- After `taken` turns the counters of a ring say what they are meant to say. -/
structure Counted (settings : Settings) (taken : Nat) (ring : Ring) : Prop where
  settings_eq : ring.settings = settings
  finished_eq : ring.finished = ring.transactions.countP (·.isFinished)
  turns_eq : ring.turns = taken
  next_eq : ring.next = taken % ring.size

namespace Counted

variable {settings : Settings} {taken : Nat} {ring ring' mid : Ring} {id : Nat} {step : Step}
  {turn : Turn} {lsn : Option Nat} {deadlock : Option Deadlock}

theorem isFinished_iff (hc : ring.Counted settings taken) :
    ring.isFinished = true ↔ ∀ t ∈ ring.transactions, t.outcome ≠ none := by
  unfold Ring.isFinished size
  rw [decide_eq_true_eq, hc.finished_eq, List.countP_eq_length]
  simp only [Transaction.isFinished, Option.isSome_iff_ne_none]

theorem isFinished_eq_false_iff (hc : ring.Counted settings taken) :
    ring.isFinished = false ↔ ∃ u, Unfinished ring.transactions u := by
  rw [Bool.eq_false_iff, ne_eq, hc.isFinished_iff]
  constructor
  · intro h
    obtain ⟨t, h⟩ := Classical.not_forall.1 h
    obtain ⟨ht, hout⟩ := Classical.not_imp.1 h
    exact ⟨t.id, t, ht, rfl, Classical.not_not.1 hout⟩
  · rintro ⟨u, t, ht, -, hout⟩ h
    exact h t ht hout

theorem next_lt (hc : ring.Counted settings taken) (h : ring.isFinished = false) :
    ring.next < ring.size := by
  obtain ⟨u, t, ht, -⟩ := hc.isFinished_eq_false_iff.1 h
  rw [hc.next_eq]
  exact Nat.mod_lt _ (List.length_pos_of_mem ht)

theorem size_ne_zero (hc : ring.Counted settings taken) (h : ring.isFinished = false) :
    ring.size ≠ 0 :=
  Nat.ne_of_gt (Nat.zero_lt_of_lt (hc.next_lt h))

theorem patience_eq (hc : ring.Counted settings taken) :
    ring.patience = max 1 settings.threshold.toNat := by
  unfold patience
  rw [hc.settings_eq, Nat.max_comm]

theorem start (h : Ring.start store programs settings = .ok ring) : ring.Counted settings 0 := by
  obtain ⟨ts, hts, rfl⟩ := start_eq_ok h
  refine ⟨rfl, ?_, rfl, (Nat.zero_mod _).symm⟩
  refine (List.countP_eq_zero.2 fun t ht => ?_).symm
  obtain ⟨p, hp⟩ := List.mem_iff_getElem?.1 ht
  rw [((enlist_spec hts).2 p t hp).2]
  exact nofun

theorem attempt (hc : ring.Counted settings taken)
    (hw : WellFormed store programs ring.database ring.transactions)
    (ht : ring.transactions[ring.next]? = some t)
    (h : ring.attempt ring.next t = .ok (mid, step)) : mid.Counted settings (taken + 1) := by
  have hnext : (ring.next + 1) % ring.size = (taken + 1) % ring.size := by
    rw [hc.next_eq, Nat.mod_add_mod]
  rcases attempt_cases hw ht h with ⟨-, -, rfl⟩ | ⟨deed, db', t', ha, -, -, rfl⟩
  · exact ⟨hc.settings_eq, hc.finished_eq, congrArg (· + 1) hc.turns_eq, hnext⟩
  · refine ⟨hc.settings_eq, ?_, congrArg (· + 1) hc.turns_eq, ?_⟩
    · show (if t'.isFinished then ring.finished + 1 else ring.finished) = _
      rw [ha.countP_isFinished ht, hc.finished_eq]
      split <;> rfl
    · unfold size
      rw [List.length_set]
      exact hnext

theorem abort (hc : ring.Counted settings taken)
    (hw : WellFormed store programs ring.database ring.transactions)
    (h : ring.abort id = .ok (ring', lsn)) : ring'.Counted settings taken := by
  rcases abort_cases hw h with ⟨-, rfl, -⟩ | ⟨t, db', t', ht, -, ha, -, rfl⟩
  · exact hc
  · refine ⟨hc.settings_eq, ?_, hc.turns_eq, ?_⟩
    · show ring.finished + 1 = _
      obtain ⟨-, rfl⟩ := ha.abort_inv
      rw [ha.countP_isFinished ht, hc.finished_eq]
      rfl
    · unfold size
      rw [List.length_set]
      exact hc.next_eq

theorem detect (hc : ring.Counted settings taken)
    (hw : WellFormed store programs ring.database ring.transactions)
    (h : ring.detect = .ok (ring', deadlock)) : ring'.Counted settings taken := by
  rcases detect_cases h with ⟨-, -, rfl⟩ | ⟨d, ring₁, lsn, -, -, ha, rfl⟩
  · exact hc
  · obtain ⟨hset, hfin, hturns, hnext⟩ := hc.abort hw ha
    exact ⟨hset, hfin, hturns, hnext⟩

theorem react (hc : ring.Counted settings taken)
    (hw : WellFormed store programs ring.database ring.transactions)
    (h : ring.react step = .ok (ring', deadlock)) : ring'.Counted settings taken := by
  rcases react_cases h with ⟨-, rfl, -⟩ | ⟨denials, blockers, -, -, hd⟩
  · exact hc
  · exact hc.detect hw hd

end Counted

theorem Reached.counted {settings : Settings} {turns : List Turn} {ring : Ring}
    (h : Reached store programs settings turns ring) : ring.Counted settings turns.length := by
  induction h with
  | start hs => exact .start hs
  | turn hr hturn ih =>
    obtain ⟨-, t, mid, ht, -, ha, hre⟩ := turn_cases hturn
    exact (ih.attempt hr.evolves.wellFormed ht ha).react (hr.evolves.attempt ht ha).wellFormed hre
  | detect hr hd ih => exact ih.detect hr.evolves.wellFormed hd
  | abort hr ha ih => exact ih.abort hr.evolves.wellFormed ha

/-! ## Runs -/

theorem Reached.runFor {settings : Settings} {turns : List Turn} {ring last : Ring} {limit : Nat}
    (h : Reached store programs settings turns ring) (hrun : runFor limit ring = .ok last) :
    ∃ turns, Reached store programs settings turns last := by
  induction limit generalizing turns ring with
  | zero =>
    cases hrun
    exact ⟨turns, h⟩
  | succ limit ih =>
    unfold Ring.runFor at hrun
    split at hrun
    · cases hrun
    · next hturn =>
      cases hrun
      rw [turn_none hturn]
      exact ⟨turns, h⟩
    · next hturn => exact ih (h.turn hturn) hrun

/-- A reached ring, by running one and looking at it. -/
theorem exists_reached (store : Store) (programs : List Program) (settings : Settings)
    (limit : Nat) (P : Ring → Prop) [DecidablePred P]
    (h : ((Ring.start store programs settings).bind (Ring.runFor limit)).toOption.any
      (fun ring => decide (P ring)) = true) :
    ∃ turns ring, Reached store programs settings turns ring ∧ P ring := by
  cases hs : Ring.start store programs settings with
  | error e => simp [hs, Except.bind, Except.toOption] at h
  | ok first =>
    cases hrun : Ring.runFor limit first with
    | error e => simp [hs, hrun, Except.bind, Except.toOption] at h
    | ok last =>
      obtain ⟨turns, hr⟩ := (Reached.start hs).runFor hrun
      refine ⟨turns, last, hr, ?_⟩
      simpa [hs, hrun, Except.bind, Except.toOption] using h

/-- Whether turns are taken that pass the tests, one after the other. -/
def nextTurns : List (Turn → Bool) → Ring → Bool
  | [], _ => true
  | test :: tests, ring =>
    ring.turn.toOption.any fun (ring', turn?) =>
      turn?.any fun turn => test turn && nextTurns tests ring'

theorem exists_of_nextTurns {ring : Ring} {test : Turn → Bool} {tests : List (Turn → Bool)}
    (h : nextTurns (test :: tests) ring = true) :
    ∃ ring' turn, ring.turn = .ok (ring', some turn) ∧ test turn = true ∧
      nextTurns tests ring' = true := by
  rw [nextTurns] at h
  cases hturn : ring.turn with
  | error e =>
    rw [hturn] at h
    cases h
  | ok result =>
    obtain ⟨ring', turn?⟩ := result
    rw [hturn] at h
    cases turn? with
    | none => cases h
    | some turn => exact ⟨ring', turn, rfl, Bool.and_eq_true_iff.1 h⟩

end Ring

/-- T1 and T2 write two records in opposite orders, so that they deadlock; T3 reads and then
writes one of them. -/
def crossing : List Program :=
  [⟨[.write 0 1, .write 1 1, .commit], by decide⟩,
    ⟨[.write 1 2, .write 0 2, .commit], by decide⟩,
    ⟨[.read 0, .write 0 7, .commit], by decide⟩]

end

end TwoPhase
