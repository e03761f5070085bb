import TwoPhase.Proofs.LongWaits
import TwoPhase.Proofs.Refusal
import TwoPhase.Proofs.SinglePrograms

/-!
# The counter of denials

The denials of an operation in a row are counted with 32 bits, and patience lasts for at most
`2 ^ 32 - 1` of them. But a transaction whose patience has worn out is denied further, as long
as those in its way have something to do. The longest wait is that of T3 in a `Standoff`: T1
and T2 deadlock, so nothing happens for as long as patience lasts, and T3 waits all the while;
then T2 is aborted, and T3 waits for the rest of T1. By `Reached.operationCount_of_denies` no
workload of as many operations makes anybody wait longer, unless it takes more operations than
can be counted.

* `Standoff.exists_denies`: how long T3 waits.
* `exists_denies_iff`: how many denials in a row there can be, for so many operations and so
  much patience.
* `counter_overflows_iff`: when the counter overflows.
-/

namespace TwoPhase

/-! ## Standoffs -/

/-- T1 and T2 write two records in opposite orders, and T3 begins with a read of the first. -/
structure Standoff (programs : List Program) where
  one : Program
  two : Program
  three : Program
  record : RecordId
  other : RecordId
  first : programs[0]? = some one
  second : programs[1]? = some two
  third : programs[2]? = some three
  apart : record ≠ other
  write_one : ∃ v, one.operations[0]? = some (.write record v)
  cross_one : ∃ v, one.operations[1]? = some (.write other v)
  write_two : ∃ v, two.operations[0]? = some (.write other v)
  cross_two : ∃ v, two.operations[1]? = some (.write record v)
  read_three : three.operations[0]? = some (.read record)

/-- T1 and T2 have done their first operation, and T3 nothing. -/
structure Standoff.Opened {programs : List Program} (s : Standoff programs) (ring : Ring) :
    Prop where
  one : { id := 1, program := s.one, cursor := 1 } ∈ ring.transactions
  two : { id := 2, program := s.two, cursor := 1 } ∈ ring.transactions
  three : ring.transactions[2]? = some { id := 3, program := s.three }

namespace Standoff

variable {store : Store} {programs : List Program} {settings : Settings}
  {turns sooner earlier : List Turn} {first ring : Ring} {c : Nat}

theorem two_lt_length (s : Standoff programs) : 2 < programs.length :=
  (List.getElem?_eq_some_iff.1 s.third).1

theorem exists_opened (s : Standoff programs) (h : Ring.start store programs settings = .ok first) :
    ∃ sooner ring, first.Turns sooner ring ∧ sooner.length = 2 ∧ s.Opened ring := by
  have hn := s.two_lt_length
  have hsize := (Ring.Reached.start h).evolves.wellFormed.length_eq
  obtain ⟨v, hwrite⟩ := s.write_one
  obtain ⟨w, hcross⟩ := s.write_two
  obtain ⟨mid, turn, hturn, hts⟩ := Ring.exists_first_write h s.first hwrite
  have hmid := (Ring.Reached.start h).turn hturn
  have hsecond : mid.transactions[1]? = some { id := 2, program := s.two } := by
    rw [hts, List.getElem?_set_ne (by decide)]
    exact Ring.start_at h s.second
  have hfree : ∀ x ∈ mid.transactions, ∀ op ∈ x.program.operations.take x.cursor,
      op.record? ≠ some s.other := by
    intro x hx op hop hrecord
    rw [hts] at hx
    rcases List.mem_or_eq_of_mem_set hx with hx | rfl
    · rw [Ring.cursor_start h hx, List.take_zero] at hop
      cases hop
    · obtain rfl := (Program.mem_take_one hwrite).1 hop
      exact s.apart (Option.some.inj hrecord)
  obtain ⟨ring, next, hnext, hring⟩ := hmid.exists_granted (p := 1) rfl hsecond
    (Transaction.pending?_eq_some.2 ⟨rfl, hcross⟩) rfl hfree
  refine ⟨[next, turn], ring, (Ring.Turns.cons .nil hturn).cons hnext, rfl, ?_, ?_, ?_⟩
  · refine List.mem_of_getElem? (i := 0) ?_
    rw [hring, hts, List.getElem?_set_ne (by decide), List.getElem?_set_self (by omega)]
  · refine List.mem_of_getElem? (i := 1) ?_
    rw [hring, hts, List.getElem?_set_self (by rw [List.length_set]; omega)]
  · rw [hring, hts, List.getElem?_set_ne (by decide), List.getElem?_set_ne (by decide)]
    exact Ring.start_at h s.third

namespace Opened

variable {s : Standoff programs}

theorem conflicts_one (ho : s.Opened ring) (h : Ring.Reached store programs settings turns ring)
    (mode : LockMode) : (ring.database.locks.lockOf s.record.toNat).Conflicts 1 mode := by
  obtain ⟨v, hwrite⟩ := s.write_one
  exact h.evolves.conflicts_of_write ho.one rfl ((Program.mem_take_one hwrite).2 rfl)

theorem conflicts_two (ho : s.Opened ring) (h : Ring.Reached store programs settings turns ring)
    (mode : LockMode) : (ring.database.locks.lockOf s.other.toNat).Conflicts 2 mode := by
  obtain ⟨v, hwrite⟩ := s.write_two
  exact h.evolves.conflicts_of_write ho.two rfl ((Program.mem_take_one hwrite).2 rfl)

theorem knotted (ho : s.Opened ring) (h : Ring.Reached store programs settings turns ring) :
    Knotted (fun a => a = 1 ∨ a = 2) ring.database ring.transactions := by
  obtain ⟨v, hone⟩ := s.cross_one
  obtain ⟨w, htwo⟩ := s.cross_two
  rintro a (rfl | rfl)
  · exact ⟨2, .inr rfl, _, ho.one, rfl, _, _, _, Transaction.pending?_eq_some.2 ⟨rfl, hone⟩, rfl,
      by decide, ho.conflicts_two h _⟩
  · exact ⟨1, .inl rfl, _, ho.two, rfl, _, _, _, Transaction.pending?_eq_some.2 ⟨rfl, htwo⟩, rfl,
      by decide, ho.conflicts_one h _⟩

/-- T1 and T2 stay in each other's way until everybody has had one turn less than it takes for
patience to wear out. -/
theorem exists_knotted (ho : s.Opened ring) (h : Ring.start store programs settings = .ok first)
    (hsooner : first.Turns sooner ring) (hlen : sooner.length = 2)
    (hp : 2 ≤ settings.threshold.toNat) :
    ∃ later mid, ring.Turns later mid ∧
      (later ++ sooner).length = (settings.threshold.toNat - 1) * programs.length ∧
      Knotted (fun a => a = 1 ∨ a = 2) mid.database mid.transactions ∧
      ∀ turn ∈ later, turn.transaction = 1 → ∃ k, turn.Denies 1 k := by
  have hr := hsooner.reached h
  have hn := s.two_lt_length
  have hrounds := Nat.mul_le_mul_right programs.length (Nat.le_sub_one_of_lt hp)
  rw [Nat.one_mul] at hrounds
  obtain ⟨later, mid, hlater, hfew, hend⟩ :=
    hr.exists_turns ((settings.threshold.toNat - 1) * programs.length - 2)
  have hquiet := Ring.deadlock_eq_none_of_early h (hsooner.append hlater) (by
    rw [List.length_append, Nat.max_eq_right (by omega)]
    omega)
  have hspare : Spares (fun a => a = 1 ∨ a = 2) later := by
    intro turn hmem d hd
    rw [hquiet turn (List.mem_append_left _ hmem)] at hd
    cases hd
  obtain ⟨hknot, hdenied⟩ := hr.knotted (ho.knotted hr) hlater hspare
  have hopen := (hr.append hlater).isFinished_of_knotted hknot (.inl rfl)
  have hlength := hend.resolve_right (by simp [hopen])
  refine ⟨later, mid, hlater, ?_, hknot, fun turn hmem hown => ?_⟩
  · rw [List.length_append]
    omega
  · obtain ⟨k, blockers, b, hstep, -⟩ := hdenied turn hmem (.inl hown)
    exact ⟨k, hown, blockers, hstep⟩

theorem exists_held (ho : s.Opened ring) (h : Ring.start store programs settings = .ok first)
    (hsooner : first.Turns sooner ring) (hlen : sooner.length = 2)
    (hp : 2 ≤ settings.threshold.toNat) :
    ∃ later last k, ring.Turns later last ∧
      (later ++ sooner).length = (settings.threshold.toNat - 1) * programs.length + 1 ∧
      { id := 1, program := s.one, cursor := 1, denials := k } ∈ last.transactions := by
  have hr := hsooner.reached h
  obtain ⟨later, mid, hlater, hlength, hknot, hdenied⟩ := ho.exists_knotted h hsooner hlen hp
  have hmid := hr.append hlater
  obtain ⟨last, turn, hturn⟩ := hmid.exists_turn (hmid.isFinished_of_knotted hknot (.inl rfl))
  have hnow : turn.transaction = 1 → ∃ k, turn.Denies 1 k := by
    intro hown
    obtain ⟨k, blockers, b, hstep, -⟩ :=
      hknot.turn_denied hmid.evolves.wellFormed (hmid.evolves.plays hturn) (.inl hown)
    exact ⟨k, hown, blockers, hstep⟩
  have hspare := Ring.spares_one h ((hsooner.append hlater).cons hturn)
  obtain ⟨k, hk⟩ := hr.mem_of_denied (hlater.cons hturn) ho.one
    (fun x hx => hspare x (List.mem_append_left sooner hx))
    (List.forall_mem_cons.2 ⟨hnow, hdenied⟩)
  refine ⟨turn :: later, last, k, hlater.cons hturn, ?_, hk⟩
  rw [List.cons_append, List.length_cons, hlength]

end Opened

/-- T3 waits as long as patience lasts, and then for all that T1 has to do after its first
operation. -/
theorem exists_denies (s : Standoff programs) (h : Ring.start store programs settings = .ok first)
    (hp : 2 ≤ settings.threshold.toNat)
    (hlt : c + 2 < settings.threshold.toNat + s.one.length) :
    ∃ sooner ring after turn, first.Turns sooner ring ∧
      ring.turn = .ok (after, some turn) ∧ turn.Denies 3 (c + 1) := by
  have hn := s.two_lt_length
  obtain ⟨sooner, ring, hsooner, hlen, ho⟩ := s.exists_opened h
  obtain ⟨later, last, k, hlater, hheld, hone⟩ := ho.exists_held h hsooner hlen hp
  have hcross : 1 < s.one.length := by
    obtain ⟨v, hv⟩ := s.cross_one
    exact (List.getElem?_eq_some_iff.1 hv).1
  obtain ⟨p, hthreshold⟩ : ∃ p, settings.threshold.toNat = p + 1 :=
    Nat.exists_eq_add_one_of_ne_zero (by omega)
  rw [hthreshold] at hlt hheld
  rw [Nat.add_sub_cancel] at hheld
  have hobs : Obstructs ring.database ring.transactions 1 3 :=
    ⟨_, List.mem_of_getElem? ho.three, rfl, _, _, _,
      Transaction.pending?_eq_some.2 ⟨rfl, s.read_three⟩, rfl, by decide,
      ho.conflicts_one (hsooner.reached h) _⟩
  have hturns : p < turnsOf programs.length (later ++ sooner).length 0 := by
    rw [hheld, lt_turnsOf_iff (by omega)]
    omega
  have hrounds := Nat.mul_le_mul_right programs.length (show p + 1 ≤ p + s.one.length - 1 by omega)
  rw [Nat.succ_mul] at hrounds
  refine Ring.exists_denies_behind_one h hsooner ho.three (Nat.le_of_eq hlen) rfl hobs hlater hone
    rfl (show _ ≤ (p + s.one.length - 1) * programs.length by omega) ?_ (by omega)
  rw [Transaction.remaining_of_none rfl]
  show _ < _ + (s.one.length - 1)
  omega

end Standoff

/-! ## The longest waits -/

/-- Some operations, then `m` reads of record 0, and the commit. -/
def lingering (body : List Operation) (hbody : .commit ∉ body) (m : Nat) : Program :=
  ⟨body ++ List.replicate m (.read 0) ++ [.commit], Program.commitsLast_iff.2 ⟨_, rfl, by
    simp [hbody, List.mem_replicate]⟩⟩

theorem length_lingering (body : List Operation) (hbody : .commit ∉ body) (m : Nat) :
    (lingering body hbody m).length = body.length + m + 1 := by
  simp [lingering, Program.length, Nat.add_assoc]

theorem within_lingering {body : List Operation} (hbody : .commit ∉ body) (m : Nat) {size : Nat}
    (hsize : 0 < size) (h : (body.filterMap Operation.record?).all (·.toNat < size) = true) :
    (lingering body hbody m).Within size := by
  rw [Program.within_iff]
  intro record hmem
  unfold Program.records lingering at hmem
  simp only [List.filterMap_append, List.mem_append] at hmem
  rcases hmem with (hmem | hmem) | hmem
  · exact of_decide_eq_true (List.all_eq_true.1 h record hmem)
  · obtain ⟨op, hop, hrecord⟩ := List.mem_filterMap.1 hmem
    cases List.eq_of_mem_replicate hop
    cases hrecord
    exact hsize
  · cases hmem

def crosser : Program := ⟨[.write 1 2, .write 0 3, .commit], by decide⟩

def reader : Program := ⟨[.read 0, .commit], by decide⟩

theorem within_crosser : crosser.Within 2 :=
  Ring.within_of_checkProgram (show Ring.checkProgram ⟨[0, 0]⟩ crosser = .ok () by decide)

theorem within_reader : reader.Within 2 :=
  Ring.within_of_checkProgram (show Ring.checkProgram ⟨[0, 0]⟩ reader = .ok () by decide)

def queue (m : Nat) : List Program := [lingering [.write 0 1] (by decide) m, reader]

/-- T1 and T2 deadlock, and T3 waits for the deadlock to be broken and then for T1 to the end. -/
def standoff (m : Nat) : List Program :=
  [lingering [.write 0 1, .write 1 1] (by decide) m, crosser, reader]

def standoffAt (m : Nat) : Standoff (standoff m) where
  one := lingering [.write 0 1, .write 1 1] (by decide) m
  two := crosser
  three := reader
  record := 0
  other := 1
  first := rfl
  second := rfl
  third := rfl
  apart := by decide
  write_one := ⟨1, rfl⟩
  cross_one := ⟨1, rfl⟩
  write_two := ⟨2, rfl⟩
  cross_two := ⟨3, rfl⟩
  read_three := rfl

theorem length_standoffAt (m : Nat) : (standoffAt m).one.length = m + 3 := by
  refine (length_lingering [.write 0 1, .write 1 1] (by decide) m).trans ?_
  show 2 + m + 1 = m + 3
  omega

theorem exists_start {store : Store} {programs : List Program} (settings : Settings)
    (h : ∀ program ∈ programs, program.Within store.size) :
    ∃ first, Ring.start store programs settings = .ok first ∧
      first.operationCount = programs.foldr (fun program total => program.length + total) 0 := by
  obtain ⟨first, hfirst⟩ : ∃ first, Ring.start store programs settings = .ok first :=
    Ring.start_eq_ok_iff.2 h
  exact ⟨first, hfirst, Ring.operationCount_eq (Ring.Reached.start hfirst).evolves.wellFormed⟩

theorem exists_denies_queue (settings : Settings) {m k : Nat} (hk : k ≤ m) :
    ∃ first turns ring after turn, Ring.start ⟨[0, 0]⟩ (queue m) settings = .ok first ∧
      first.operationCount = m + 4 ∧ first.Turns turns ring ∧
      ring.turn = .ok (after, some turn) ∧ turn.Denies 2 (k + 1) := by
  have hwithin : ∀ program ∈ queue m, program.Within (Store.size ⟨[0, 0]⟩) := by
    simp only [queue, List.forall_mem_cons]
    exact ⟨within_lingering _ m (by decide) (by decide), within_reader, nofun⟩
  obtain ⟨first, hfirst, hcount⟩ := exists_start settings hwithin
  have hlength : (lingering [.write 0 1] (by decide) m).length = 1 + m + 1 :=
    length_lingering _ _ m
  obtain ⟨turns, ring, after, turn, hturns, hturn, hd⟩ :=
    Ring.exists_denies_of_reader hfirst rfl rfl (v := 1) (c := k) rfl rfl (by omega)
  refine ⟨first, turns, ring, after, turn, hfirst, hcount.trans ?_, hturns, hturn, hd⟩
  show (lingering _ _ m).length + 2 = m + 4
  omega

theorem exists_denies_standoff (settings : Settings) {m k : Nat}
    (hp : 2 ≤ settings.threshold.toNat) (hk : k ≤ settings.threshold.toNat + m) :
    ∃ first turns ring after turn, Ring.start ⟨[0, 0]⟩ (standoff m) settings = .ok first ∧
      first.operationCount = m + 8 ∧ first.Turns turns ring ∧
      ring.turn = .ok (after, some turn) ∧ turn.Denies 3 (k + 1) := by
  have hwithin : ∀ program ∈ standoff m, program.Within (Store.size ⟨[0, 0]⟩) := by
    simp only [standoff, List.forall_mem_cons]
    exact ⟨within_lingering _ m (by decide) (by decide), within_crosser, within_reader, nofun⟩
  obtain ⟨first, hfirst, hcount⟩ := exists_start settings hwithin
  have hlength := length_standoffAt m
  obtain ⟨turns, ring, after, turn, hturns, hturn, hd⟩ :=
    (standoffAt m).exists_denies hfirst (c := k) hp (by omega)
  refine ⟨first, turns, ring, after, turn, hfirst, hcount.trans ?_, hturns, hturn, hd⟩
  show (standoffAt m).one.length + (3 + 2) = m + 8
  omega

/-- **How often in a row.** In workloads of so many operations, a transaction that has been denied
`k` times in a row, and as often as patience lasts, can be denied once more exactly if the
operations are four more than `k`, or eight more than the denials beyond the patience. -/
theorem exists_denies_iff (settings : Settings) (operations : Nat) {k : Nat}
    (hk : max 1 settings.threshold.toNat ≤ k) :
    (∃ store programs first turns ring after turn a,
      Ring.start store programs settings = .ok first ∧ first.operationCount = operations ∧
      first.Turns turns ring ∧ ring.turn = .ok (after, some turn) ∧ turn.Denies a (k + 1)) ↔
      k + 4 ≤ operations ∨ k + 8 ≤ max 1 settings.threshold.toNat + operations := by
  constructor
  · rintro ⟨store, programs, first, turns, ring, after, turn, a, hstart, rfl, hturns, hturn, hd⟩
    have hr := hturns.reached hstart
    rw [Ring.operationCount_eq (Ring.Reached.start hstart).evolves.wellFormed,
      ← Ring.operationCount_eq hr.evolves.wellFormed]
    exact hr.operationCount_of_denies hk hturn hd
  · intro h
    by_cases hmany : k + 4 ≤ operations
    · obtain ⟨first, turns, ring, after, turn, hstart, hcount, hturns⟩ :=
        exists_denies_queue settings (show k ≤ operations - 4 by omega)
      exact ⟨_, _, first, turns, ring, after, turn, 2, hstart, by omega, hturns⟩
    · obtain ⟨first, turns, ring, after, turn, hstart, hcount, hturns⟩ :=
        exists_denies_standoff settings (m := operations - 8) (k := k) (by omega) (by omega)
      exact ⟨_, _, first, turns, ring, after, turn, 3, hstart, by omega, hturns⟩

/-! ## The counter -/

/-- A transaction is denied its operation when its counter of denials, of 32 bits, can count no
further. -/
def Ring.Overflows (ring : Ring) : Prop :=
  ∃ t ∈ ring.transactions, t.outcome = none ∧ t.denials = UInt32.size - 1 ∧
    ∃ after turn, ring.turn = .ok (after, some turn) ∧ turn.Denies t.id UInt32.size

theorem Ring.Reached.overflows_iff {store : Store} {programs : List Program} {settings : Settings}
    {turns : List Turn} {ring : Ring} (h : Ring.Reached store programs settings turns ring) :
    ring.Overflows ↔
      ∃ after turn a, ring.turn = .ok (after, some turn) ∧ turn.Denies a UInt32.size := by
  constructor
  · rintro ⟨t, -, -, -, after, turn, hturn, hd⟩
    exact ⟨after, turn, t.id, hturn, hd⟩
  · rintro ⟨after, turn, a, hturn, hd⟩
    obtain ⟨t, t', db, blockers, ht, rfl, hk, ha⟩ := (h.evolves.plays hturn).exists_denied hd
    exact ⟨t, List.mem_of_getElem? ht, ha.outcome_eq_none, Nat.eq_sub_of_add_eq hk, after, turn,
      hturn, hd⟩

/-- **When the counter of denials overflows.** Some workload of so many operations has a run in
which a transaction is denied once more when its counter can count no further, exactly if the
operations are at least `2 ^ 32 + 3`, or at least `2 ^ 32 + 7` together with the patience. -/
theorem counter_overflows_iff (settings : Settings) (operations : Nat) :
    (∃ store programs first turns ring, Ring.start store programs settings = .ok first ∧
      first.operationCount = operations ∧ first.Turns turns ring ∧ ring.Overflows) ↔
      UInt32.size + 3 ≤ operations ∨
        UInt32.size + 7 ≤ max 1 settings.threshold.toNat + operations := by
  have hpatience : max 1 settings.threshold.toNat ≤ UInt32.size - 1 := by
    have hlt := settings.threshold.toNat_lt
    show _ ≤ 4294967295
    omega
  have hiff := exists_denies_iff settings operations hpatience
  rw [show UInt32.size - 1 + 1 = UInt32.size from rfl,
    show UInt32.size - 1 + 4 = UInt32.size + 3 from rfl,
    show UInt32.size - 1 + 8 = UInt32.size + 7 from rfl] at hiff
  rw [← hiff]
  constructor
  · rintro ⟨store, programs, first, turns, ring, hstart, hcount, hturns, hover⟩
    have hr := hturns.reached hstart
    obtain ⟨after, turn, a, hturn, hd⟩ := hr.overflows_iff.1 hover
    exact ⟨store, programs, first, turns, ring, after, turn, a, hstart, hcount, hturns, hturn, hd⟩
  · rintro ⟨store, programs, first, turns, ring, after, turn, a, hstart, hcount, hturns, hturn, hd⟩
    have hr := hturns.reached hstart
    exact ⟨store, programs, first, turns, ring, hstart, hcount, hturns,
      hr.overflows_iff.2 ⟨after, turn, a, hturn, hd⟩⟩

/-- Under the largest threshold the counter of T3 overflows: the deadlock is broken with its last
denial that can be counted, and T1 is not done yet. -/
theorem Standoff.exists_overflows {store : Store} {programs : List Program} {settings : Settings}
    {first : Ring} (s : Standoff programs) (h : Ring.start store programs settings = .ok first)
    (hp : UInt32.size ≤ settings.threshold.toNat + 1) :
    ∃ turns ring, first.Turns turns ring ∧ ring.Overflows := by
  obtain ⟨v, hcross⟩ := s.cross_one
  have hlong := Program.succ_lt_length hcross nofun
  have hbits : UInt32.size = 4294967296 := rfl
  obtain ⟨turns, ring, after, turn, hturns, hturn, hd⟩ :=
    s.exists_denies h (c := UInt32.size - 1) (by omega) (by omega)
  exact ⟨turns, ring, hturns, (hturns.reached h).overflows_iff.2 ⟨after, turn, 3, hturn, hd⟩⟩

/-- T1 and T2 deadlock, T3 waits for T1, and T4 is in a second deadlock with T1 after the first. -/
def doubleStandoff : List Program :=
  [⟨[.write 0 1, .write 1 1, .write 2 1, .commit], by decide⟩, crosser, reader,
    ⟨[.write 2 4, .write 0 4, .commit], by decide⟩]

def doubleStandoffAt : Standoff doubleStandoff where
  one := _
  two := _
  three := _
  record := 0
  other := 1
  first := rfl
  second := rfl
  third := rfl
  apart := by decide
  write_one := ⟨1, rfl⟩
  cross_one := ⟨1, rfl⟩
  write_two := ⟨2, rfl⟩
  cross_two := ⟨3, rfl⟩
  read_three := rfl

/-- **The counter overflows** for T3. -/
theorem counter_overflows :
    ∃ first turns ring, Ring.start ⟨[0, 0, 0]⟩ doubleStandoff ⟨4294967295⟩ = .ok first ∧
      first.Turns turns ring ∧ ring.Overflows := by
  obtain ⟨first, hstart⟩ : ∃ first,
      Ring.start ⟨[0, 0, 0]⟩ doubleStandoff ⟨4294967295⟩ = .ok first := ⟨_, rfl⟩
  obtain ⟨turns, ring, hturns, hover⟩ := doubleStandoffAt.exists_overflows hstart (by decide)
  exact ⟨first, turns, ring, hstart, hturns, hover⟩

end TwoPhase
