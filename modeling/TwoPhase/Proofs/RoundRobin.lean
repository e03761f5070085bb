import TwoPhase.Proofs.Bookkeeping
import TwoPhase.Proofs.Ordering

/-!
# Runs in which nobody waits

If nobody ever obstructs anybody, every turn of an unfinished transaction is a success,
and the whole run can be written down in advance.

* `turnsOf`: how many turns a place of the ring has had after so many turns in all
  (`lt_turnsOf_iff` gives the number of each of them).
* `roundRobin`: the operations of some programs, round by round.
* `Abreast`: after each turn, everybody has done as many operations as it had turns, or
  all it has to do, and the history is `roundRobin` so far. One turn keeps it
  (`Abreast.plays`), so every turn of such a run does (`Ring.abreast`).
* `lastLongest_of_turnsOf`: the run ends with the commit of the last of the longest programs.
-/

namespace TwoPhase

/-! ## Turns of a place -/

/-- How many of the first `m` turns in a ring of `n` fall to place `p`. -/
def turnsOf (n m p : Nat) : Nat := m / n + if p < m % n then 1 else 0

/-- Turns come round by round, and place by place in each round. -/
theorem round_lt_iff {n k l p q : Nat} (hp : p < n) (hq : q < n) :
    k * n + p < l * n + q ↔ k < l ∨ k = l ∧ p < q := by
  rcases Nat.lt_trichotomy k l with hkl | rfl | hkl
  · have := Nat.mul_le_mul_right n hkl
    rw [Nat.succ_mul] at this
    omega
  · omega
  · have := Nat.mul_le_mul_right n hkl
    rw [Nat.succ_mul] at this
    omega

theorem lt_turnsOf_iff {n m p l : Nat} (hp : p < n) : l < turnsOf n m p ↔ l * n + p < m := by
  have hm : l * n + p < m / n * n + m % n ↔ _ := round_lt_iff hp (Nat.mod_lt m (by omega))
  rw [Nat.div_add_mod'] at hm
  rw [hm, turnsOf]
  split <;> omega

theorem turnsOf_mod (n m : Nat) : turnsOf n m (m % n) = m / n := by simp [turnsOf]

theorem turnsOf_succ {n p : Nat} (m : Nat) (hp : p < n) :
    turnsOf n (m + 1) p = turnsOf n m p + if p = m % n then 1 else 0 := by
  refine eq_of_forall_lt_iff fun l => ?_
  have hsucc := lt_turnsOf_iff (m := m + 1) (l := l) hp
  have hold := lt_turnsOf_iff (m := m) (l := l) hp
  split
  · next hturn =>
    subst hturn
    have hm : m / n * n + m % n < l * n + m % n ↔ _ := round_lt_iff hp hp
    rw [Nat.div_add_mod'] at hm
    rw [turnsOf_mod]
    omega
  · next hturn =>
    have hne : l * n + p ≠ m := by
      rintro rfl
      exact hturn (by rw [Nat.mul_add_mod', Nat.mod_eq_of_lt hp])
    omega

/-! ## Operations round by round -/

/-- What the program at place `p` does in round `k`, with the number of its transaction. -/
def slot (programs : List Program) (k p : Nat) : List (Nat × Operation) :=
  ((programs[p]?.bind (·.operations[k]?)).map (p + 1, ·)).toList

/-- The operations of some rounds: those of the first round, then those of the second, and so on,
each round in the order of the programs. -/
def roundRobin (programs : List Program) (rounds : Nat) : List (Nat × Operation) :=
  (List.range rounds).flatMap fun k => (List.range programs.length).flatMap (slot programs k)

def inTurns (programs : List Program) (m : Nat) : List (Nat × Operation) :=
  (List.range m).flatMap fun j => slot programs (j / programs.length) (j % programs.length)

def LoggedBy (done : Nat × Operation) (entry : Entry) : Prop :=
  entry.transaction = done.1 ∧ done.2.LoggedAs entry

theorem map_transaction_of_loggedBy {done : List (Nat × Operation)} {entries : List Entry}
    (h : List.Forall₂ LoggedBy done entries) : entries.map (·.transaction) = done.map (·.1) := by
  induction h with
  | nil => rfl
  | cons hentry _ ih => rw [List.map_cons, List.map_cons, hentry.1, ih]

section
variable {programs : List Program} {program : Program} {k p m : Nat} {op : Operation}

theorem slot_of_some (h : programs[p]? = some program) (hop : program.operations[k]? = some op) :
    slot programs k p = [(p + 1, op)] := by
  simp [slot, h, hop]

theorem slot_of_length_le (h : programs[p]? = some program) (hle : program.length ≤ k) :
    slot programs k p = [] := by
  simp [slot, h, List.getElem?_eq_none hle]

theorem inTurns_succ (programs : List Program) (m : Nat) :
    inTurns programs (m + 1) =
      inTurns programs m ++ slot programs (m / programs.length) (m % programs.length) := by
  simp [inTurns, List.range_succ]

theorem inTurns_rounds (programs : List Program) (rounds : Nat) :
    inTurns programs (rounds * programs.length) = roundRobin programs rounds := by
  induction rounds with
  | zero => simp [inTurns, roundRobin]
  | succ rounds ih =>
    unfold inTurns roundRobin at ih ⊢
    rw [Nat.succ_mul, List.range_add, List.flatMap_append, ih, List.range_succ, List.flatMap_append,
      List.flatMap_map, List.flatMap_singleton]
    refine congrArg _ (List.flatMap_congr fun p hp => ?_)
    have hlt : p < programs.length := List.mem_range.1 hp
    rw [Nat.mul_add_mod', Nat.mod_eq_of_lt hlt, Nat.mul_comm,
      Nat.mul_add_div (by omega), Nat.div_eq_of_lt hlt, Nat.add_zero]

/-- Once everybody has had as many turns as it has operations, further turns add nothing. -/
theorem inTurns_of_le {m' : Nat} (hle : m ≤ m')
    (h : ∀ p program, programs[p]? = some program →
      program.length ≤ turnsOf programs.length m p) :
    inTurns programs m' = inTurns programs m := by
  induction m', hle using Nat.le_induction with
  | base => rfl
  | succ j hj ih =>
    rw [inTurns_succ, ih]
    cases hprogram : programs[j % programs.length]? with
    | none => simp [slot, hprogram]
    | some program =>
      have hlt := (List.getElem?_eq_some_iff.1 hprogram).1
      have hdone : program.length ≤ j / programs.length := by
        by_contra hmore
        have hm := (lt_turnsOf_iff hlt).1 (Nat.lt_of_lt_of_le (Nat.not_le.1 hmore) (h _ _ hprogram))
        rw [Nat.div_add_mod'] at hm
        omega
      rw [slot_of_length_le hprogram hdone, List.append_nil]

end

/-! ## Nobody in the way -/

/-- Nobody ever obstructs anybody. -/
def Unhindered (store : Store) (programs : List Program) : Prop :=
  ∀ db ts, Evolves store programs db ts → ∀ a b, ¬ Obstructs db ts b a

/-- Where everybody stands after some turns in which nobody had to wait. -/
structure Abreast (store : Store) (programs : List Program) (turns : List Turn) (db : Database)
    (ts : List Transaction) : Prop where
  /-- An operation was done in each turn, as long as there were any. -/
  cursors : ∀ p t, ts[p]? = some t →
    t.cursor = min t.program.length (turnsOf programs.length turns.length p)
  spared : ∀ t ∈ ts, t.outcome ≠ some .aborted
  undenied : ∀ turn ∈ turns, ∀ denials blockers, turn.step ≠ .denied denials blockers
  logged : List.Forall₂ LoggedBy (inTurns programs turns.length) db.history.entries
  /-- Nothing was taken back. -/
  stored : db.store = redoAll (db.history.eventsWhere fun _ => true) store

section
variable {store : Store} {programs : List Program} {settings : Settings} {turns : List Turn}
  {db db' : Database} {ts ts' : List Transaction} {p patience : Nat} {t t' : Transaction}
  {ring last : Ring} {turn : Turn} {e : Event}

theorem Acts.obstructs_of_denied {blockers : IdSet} (ha : Acts db t (.denied blockers) db' t')
    (ht : t ∈ ts) : ∃ b, Obstructs db ts b t.id := by
  cases ha with
  | denied pending request blocked =>
    obtain ⟨b, hb⟩ := IdSet.exists_mem blocked
    obtain ⟨hne, hc⟩ := Lock.mem_blockers.1 hb
    exact ⟨b, t, ht, rfl, _, _, _, pending, request, hne, hc⟩

theorem Acts.success (ha : Acts db t (.done e) db' t') (hne : e ≠ .abort) :
    ∃ op, t.program.operations[t.cursor]? = some op ∧ op.Matches e ∧ t'.cursor = t.cursor + 1 ∧
      db'.store = e.redo db.store := by
  cases ha with
  | access pending request free matched =>
    exact ⟨_, (Transaction.pending?_eq_some.1 pending).2, matched, rfl, rfl⟩
  | commit pending => exact ⟨_, (Transaction.pending?_eq_some.1 pending).2, trivial, rfl, rfl⟩
  | abort => exact absurd rfl hne

theorem WellFormed.program_at (hw : WellFormed store programs db ts) (ht : ts[p]? = some t) :
    programs[p]? = some t.program := by
  rw [← hw.programs, List.getElem?_map, ht]
  rfl

/-- Where nobody is in the way, a turn is a success, unless nothing is left to do. -/
theorem Unhindered.plays_cases (hfree : Unhindered store programs)
    (he : Evolves store programs db ts) (hp : Plays patience db ts p turn db' ts') :
    ∃ t, ts[p]? = some t ∧
      ((t.pending? = none ∧ turn = ⟨t.id, .idle, none⟩ ∧ db' = db ∧ ts' = ts) ∨
        ∃ e t', Acts db t (.done e) db' t' ∧ e ≠ .abort ∧
          turn = ⟨t.id, .progressed db.history.length, none⟩ ∧ ts' = ts.set p t') := by
  cases hp with
  | idle ht hp => exact ⟨_, ht, .inl ⟨hp, rfl, rfl, rfl⟩⟩
  | progress ht ha hne => exact ⟨_, ht, .inr ⟨_, _, ha, hne, rfl, rfl⟩⟩
  | denied ht ha =>
    obtain ⟨b, hb⟩ := ha.obstructs_of_denied (List.mem_of_getElem? ht)
    exact absurd hb (hfree db ts he _ b)
  | broken ht ha =>
    obtain ⟨b, hb⟩ := ha.obstructs_of_denied (List.mem_of_getElem? ht)
    exact absurd hb (hfree db ts he _ b)

namespace Abreast

theorem outcome (h : Abreast store programs turns db ts) (he : Evolves store programs db ts)
    (ht : t ∈ ts) : (t.outcome = none ∧ t.cursor < t.program.length) ∨
      (t.outcome = some .committed ∧ t.cursor = t.program.length) := by
  rcases he.cursor t ht with hdone | ⟨hout, hlt⟩
  · exact .inr hdone
  · refine .inl ⟨?_, hlt⟩
    cases hsome : t.outcome with
    | none => rfl
    | some outcome =>
      cases outcome with
      | committed => exact absurd hsome hout
      | aborted => exact absurd hsome (h.spared t ht)

theorem start (h : Ring.start store programs settings = .ok ring) :
    Abreast store programs [] ring.database ring.transactions := by
  obtain ⟨ts, hts, rfl⟩ := Ring.start_eq_ok h
  have hnew := (Ring.enlist_spec hts).2
  constructor
  case cursors =>
    intro p t ht
    rw [(hnew p t ht).2]
    simp [turnsOf]
  case spared =>
    intro t ht
    obtain ⟨p, hp⟩ := List.mem_iff_getElem?.1 ht
    rw [(hnew p t hp).2]
    exact nofun
  case undenied => exact nofun
  case logged => exact .nil
  case stored => rfl

theorem idle (h : Abreast store programs turns db ts) (he : Evolves store programs db ts)
    (ht : ts[turns.length % ts.length]? = some t) (hp : t.pending? = none) {id : Nat} :
    Abreast store programs (⟨id, .idle, none⟩ :: turns) db ts := by
  have hw := he.wellFormed
  have hmem := List.mem_of_getElem? ht
  have hplace := hw.program_at ht
  rw [hw.length_eq] at hplace
  have hdone : t.program.length ≤ turns.length / programs.length := by
    have hcursor := h.cursors _ t ht
    rw [hw.length_eq, turnsOf_mod] at hcursor
    rcases h.outcome he hmem with ⟨hnone, -⟩ | ⟨-, hlen⟩
    · obtain ⟨op, hop⟩ := hw.exists_pending hmem hnone
      rw [hp] at hop
      cases hop
    · omega
  constructor
  case cursors =>
    intro q x hx
    have hlt : q < programs.length := hw.length_eq ▸ (List.getElem?_eq_some_iff.1 hx).1
    rw [List.length_cons, turnsOf_succ _ hlt, h.cursors q x hx]
    split
    · next hq =>
      rw [hq, ← hw.length_eq, ht] at hx
      cases hx
      rw [hq, turnsOf_mod]
      omega
    · rfl
  case spared => exact h.spared
  case undenied =>
    rw [List.forall_mem_cons]
    exact ⟨nofun, h.undenied⟩
  case logged =>
    rw [List.length_cons, inTurns_succ, slot_of_length_le hplace hdone, List.append_nil]
    exact h.logged
  case stored => exact h.stored

theorem progress (h : Abreast store programs turns db ts) (he : Evolves store programs db ts)
    (ht : ts[turns.length % ts.length]? = some t) (ha : Acts db t (.done e) db' t')
    (hne : e ≠ .abort) {id lsn : Nat} :
    Abreast store programs (⟨id, .progressed lsn, none⟩ :: turns) db'
      (ts.set (turns.length % ts.length) t') := by
  have hw := he.wellFormed
  obtain ⟨op, hop, hmatch, hcursor', hstore⟩ := ha.success hne
  have hcursor := h.cursors _ t ht
  have hlt : t.cursor < t.program.length := (List.getElem?_eq_some_iff.1 hop).1
  rw [hw.length_eq, turnsOf_mod] at hcursor
  have hround : t.cursor = turns.length / programs.length := by omega
  have hplace := hw.program_at ht
  rw [hw.length_eq] at hplace
  constructor
  case cursors =>
    intro q x hx
    have hq : q < programs.length := by
      have := (List.getElem?_eq_some_iff.1 hx).1
      rwa [List.length_set, hw.length_eq] at this
    rw [List.length_cons, turnsOf_succ _ hq]
    rcases getElem?_set_eq_some hx with ⟨rfl, rfl⟩ | ⟨hqne, hx⟩
    · rw [hw.length_eq, if_pos rfl, turnsOf_mod, hcursor', ha.program_eq]
      omega
    · rw [if_neg (hw.length_eq ▸ hqne), h.cursors q x hx]
      rfl
  case spared =>
    intro x hx
    rcases (hw.mem_set ht).1 hx with rfl | ⟨hx, -⟩
    · exact ha.outcome_ne_aborted hne
    · exact h.spared x hx
  case undenied =>
    rw [List.forall_mem_cons]
    exact ⟨nofun, h.undenied⟩
  case logged =>
    rw [List.length_cons, inTurns_succ, slot_of_some hplace (hround ▸ hop), ha.history_done]
    refine List.rel_append h.logged (.cons ⟨?_, hmatch.loggedAs ..⟩ .nil)
    rw [Entry.transaction_ofEvent, hw.ids _ t ht, hw.length_eq]
  case stored =>
    rw [hstore, ha.history_done, History.eventsWhere_append, if_pos rfl, redoAll_append, ← h.stored]
    rfl

theorem plays (h : Abreast store programs turns db ts) (he : Evolves store programs db ts)
    (hfree : Unhindered store programs)
    (hp : Plays patience db ts (turns.length % ts.length) turn db' ts') :
    Abreast store programs (turn :: turns) db' ts' := by
  obtain ⟨t, ht, ⟨hnone, rfl, rfl, rfl⟩ | ⟨e, t', ha, hne, rfl, rfl⟩⟩ := hfree.plays_cases he hp
  · exact h.idle he ht hnone
  · exact h.progress he ht ha hne

theorem turn_success (h : Abreast store programs turns db ts) (he : Evolves store programs db ts)
    (hfree : Unhindered store programs)
    (hp : Plays patience db ts (turns.length % ts.length) turn db' ts') {program : Program}
    {op : Operation} (hprogram : programs[turns.length % programs.length]? = some program)
    (hop : program.operations[turns.length / programs.length]? = some op) :
    turn = ⟨turns.length % programs.length + 1, .progressed db.history.length, none⟩ ∧
      ∃ entry, db'.history.get? db.history.length = some entry ∧
        LoggedBy (turns.length % programs.length + 1, op) entry := by
  have hw := he.wellFormed
  rw [← hw.length_eq] at hprogram ⊢
  obtain ⟨t, ht, hcases⟩ := hfree.plays_cases he hp
  obtain rfl : t.program = program := Option.some.inj ((hw.program_at ht).symm.trans hprogram)
  have hnext : t.outcome = none ∧ t.program.operations[t.cursor]? = some op := by
    have hcursor := h.cursors _ t ht
    have hlt : _ < t.program.length := (List.getElem?_eq_some_iff.1 hop).1
    rw [hw.length_eq, turnsOf_mod] at hcursor
    have hround : t.cursor = turns.length / programs.length := by omega
    rcases h.outcome he (List.mem_of_getElem? ht) with ⟨hout, -⟩ | ⟨-, hdone⟩
    · exact ⟨hout, hround ▸ hop⟩
    · omega
  rcases hcases with ⟨hnone, -⟩ | ⟨e, t', ha, hne, rfl, -⟩
  · rw [Transaction.pending?_eq_some.2 hnext] at hnone
    cases hnone
  · obtain ⟨op', hop', hmatch, -⟩ := ha.success hne
    rw [hnext.2] at hop'
    cases hop'
    refine ⟨by rw [hw.ids _ t ht],
      .ofEvent db.history.length t.id (db.history.last? t.id) e, ?_, ?_, hmatch.loggedAs ..⟩
    · rw [ha.history_done]
      exact History.get?_append_length ..
    · rw [Entry.transaction_ofEvent, hw.ids _ t ht]

end Abreast

namespace Ring

/-! ## Complete runs -/

theorem Turns.split_at (h : ring.Turns turns last) {j : Nat} (hj : j < turns.length) :
    ∃ later turn earlier before after, turns = later ++ turn :: earlier ∧ earlier.length = j ∧
      ring.Turns earlier before ∧ before.turn = .ok (after, some turn) ∧
      after.Turns later last := by
  induction h with
  | nil => cases hj
  | @cons turns mid last turn hturns hturn ih =>
    rcases Nat.lt_succ_iff_lt_or_eq.1 hj with hj | rfl
    · obtain ⟨later, x, earlier, before, after, rfl, hlen, hbefore, hx, hlater⟩ := ih hj
      exact ⟨turn :: later, x, earlier, before, after, rfl, hlen, hbefore, hx, hlater.cons hturn⟩
    · exact ⟨[], turn, turns, mid, last, rfl, rfl, hturns, hturn, .nil⟩

theorem Reached.countP_turns (h : Reached store programs settings turns ring)
    (hp : p < programs.length) :
    turns.countP (·.transaction = p + 1) = turnsOf programs.length turns.length p := by
  induction h with
  | start => simp [turnsOf]
  | turn hr hturn ih =>
    rw [List.countP_cons, ih, List.length_cons, turnsOf_succ _ hp, hr.turn_transaction hturn]
    simp [eq_comm]
  | detect _ _ ih => exact ih
  | abort _ _ ih => exact ih

variable (h : Ring.start store programs settings = .ok ring) (hfree : Unhindered store programs)
  (hturns : ring.Turns turns last)
include h hfree hturns

theorem abreast : Abreast store programs turns last.database last.transactions := by
  induction hturns with
  | nil => exact .start h
  | cons hturns hturn ih =>
    have hmid := hturns.reached h
    have hplays := hmid.evolves.plays hturn
    rw [hmid.counted.next_eq] at hplays
    exact ih.plays hmid.evolves hfree hplays

/-- The run is over when everybody has had as many turns as it has operations. -/
theorem isFinished_iff_turnsOf : last.isFinished = true ↔ ∀ p program,
    programs[p]? = some program → program.length ≤ turnsOf programs.length turns.length p := by
  have hlast := (Reached.start h).append hturns
  have habreast := abreast h hfree hturns
  have hw := hlast.evolves.wellFormed
  rw [hlast.counted.isFinished_iff]
  constructor
  · intro hall p program hprogram
    rw [← hw.programs, List.getElem?_map, Option.map_eq_some_iff] at hprogram
    obtain ⟨t, ht, rfl⟩ := hprogram
    have hcursor := habreast.cursors p t ht
    rcases habreast.outcome hlast.evolves (List.mem_of_getElem? ht) with ⟨hnone, -⟩ | ⟨-, hlen⟩
    · exact absurd hnone (hall t (List.mem_of_getElem? ht))
    · omega
  · intro hall t ht hnone
    obtain ⟨p, hp⟩ := List.mem_iff_getElem?.1 ht
    have hcursor := habreast.cursors p t hp
    have hle := hall p _ (hw.program_at hp)
    have hlt := hw.cursors t ht hnone
    omega

theorem exists_success {program : Program} {op : Operation} {k : Nat}
    (hprogram : programs[p]? = some program) (hop : program.operations[k]? = some op)
    (hlt : k * programs.length + p < turns.length) :
    ∃ later earlier lsn entry, turns = later ++ ⟨p + 1, .progressed lsn, none⟩ :: earlier ∧
      earlier.length = k * programs.length + p ∧ earlier.countP (·.transaction = p + 1) = k ∧
      last.database.history.get? lsn = some entry ∧ LoggedBy (p + 1, op) entry := by
  obtain ⟨later, turn, earlier, before, after, hsplit, hlen, hbefore, hturn, hlater⟩ :=
    hturns.split_at hlt
  have hr := hbefore.reached h
  have hp : p < programs.length := (List.getElem?_eq_some_iff.1 hprogram).1
  have hplace : earlier.length % programs.length = p := by
    rw [hlen, Nat.mul_add_mod', Nat.mod_eq_of_lt hp]
  have hround : earlier.length / programs.length = k := by
    rw [hlen, Nat.mul_comm, Nat.mul_add_div (by omega), Nat.div_eq_of_lt hp, Nat.add_zero]
  have hplays := hr.evolves.plays hturn
  rw [hr.counted.next_eq] at hplays
  obtain ⟨rfl, entry, hentry, hlogged⟩ := (abreast h hfree hbefore).turn_success hr.evolves hfree
    hplays (hplace.symm ▸ hprogram) (hround.symm ▸ hop)
  rw [hplace] at hsplit hlogged
  refine ⟨later, earlier, _, entry, hsplit, hlen, ?_, ?_, hlogged⟩
  · rw [hr.countP_turns hp, ← hplace, turnsOf_mod, hround]
  · -- what is logged stays logged
    obtain ⟨rest, hrest⟩ := (lasting_log after.database.history.entries).leadsTo
      (hr.turn hturn).evolves List.prefix_rfl hlater.leadsTo
    rw [History.get?, ← hrest, List.getElem?_append_left (List.getElem?_eq_some_iff.1 hentry).1]
    exact hentry

end Ring

end

/-! ## The end of the run -/

/-- The program at `p` has `length` operations; no program has more, and none after it as many. -/
structure LastLongest (programs : List Program) (length p : Nat) : Prop where
  here : ∃ program, programs[p]? = some program ∧ program.length = length
  longest : ∀ program ∈ programs, program.length ≤ length
  last : ∀ q program, programs[q]? = some program → program.length = length → q ≤ p

theorem LastLongest.unique {programs : List Program} {length length' p p' : Nat}
    (h : LastLongest programs length p) (h' : LastLongest programs length' p') :
    length = length' ∧ p = p' := by
  obtain ⟨program, hp, hlen⟩ := h.here
  obtain ⟨program', hp', hlen'⟩ := h'.here
  have hle := h.longest program' (List.mem_of_getElem? hp')
  have hge := h'.longest program (List.mem_of_getElem? hp)
  obtain rfl : length = length' := by omega
  exact ⟨rfl, Nat.le_antisymm (h'.last p program hp hlen) (h.last p' program' hp' hlen')⟩

/-- In as many rounds as its longest program has operations, a run has enough turns. -/
theorem LastLongest.le_rounds {programs : List Program} {length p : Nat}
    (h : LastLongest programs length p) :
    (length - 1) * programs.length + (p + 1) ≤ length * programs.length := by
  obtain ⟨program, hprogram, hlen⟩ := h.here
  have hp : p < programs.length := (List.getElem?_eq_some_iff.1 hprogram).1
  have hpos : 0 < length := hlen ▸ List.length_pos_of_ne_nil program.operations_ne_nil
  obtain ⟨rounds, rfl⟩ : ∃ rounds, length = rounds + 1 := ⟨length - 1, by omega⟩
  rw [Nat.add_sub_cancel, Nat.succ_mul]
  omega

/-- The turn with which everybody has had enough turns is the last one of the last of the longest
programs. -/
theorem lastLongest_of_turnsOf {programs : List Program} {m : Nat}
    (hopen : ¬ ∀ p program, programs[p]? = some program →
      program.length ≤ turnsOf programs.length m p)
    (hdone : ∀ p program, programs[p]? = some program →
      program.length ≤ turnsOf programs.length (m + 1) p) :
    LastLongest programs (m / programs.length + 1) (m % programs.length) := by
  simp only [not_forall, Nat.not_le] at hopen
  obtain ⟨p, program, hprogram, hmore⟩ := hopen
  have hp : p < programs.length := (List.getElem?_eq_some_iff.1 hprogram).1
  have henough := hdone p program hprogram
  have hm := Nat.div_add_mod' m programs.length
  have hmod : m % programs.length < programs.length := Nat.mod_lt _ (by omega)
  have hturn : p = m % programs.length := by
    rw [turnsOf_succ m hp] at henough
    split at henough
    · assumption
    · omega
  subst hturn
  rw [turnsOf_succ m hp, if_pos rfl, turnsOf_mod] at henough
  rw [turnsOf_mod] at hmore
  constructor
  case here => exact ⟨program, hprogram, by omega⟩
  case longest =>
    intro program' hmem
    obtain ⟨q, hq⟩ := List.mem_iff_getElem?.1 hmem
    by_contra hlonger
    have hlt := Nat.lt_of_lt_of_le (Nat.not_le.1 hlonger) (hdone q program' hq)
    rw [lt_turnsOf_iff (List.getElem?_eq_some_iff.1 hq).1, Nat.succ_mul] at hlt
    omega
  case last =>
    intro q program' hq hlen
    have hlt : m / programs.length < turnsOf programs.length (m + 1) q := by
      have := hdone q program' hq
      omega
    rw [lt_turnsOf_iff (List.getElem?_eq_some_iff.1 hq).1] at hlt
    omega

end TwoPhase
