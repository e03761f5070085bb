import TwoPhase.Proofs.Termination

/-!
# What a ring refuses

A ring refuses two things: to be started over a store that lacks a record of one of its
programs, and to abort a number that it never gave.

* `Ring.start_eq_ok_iff`, `Ring.start_eq_error_iff`: which programs can be started, and
  which record is blamed if they cannot.
* `Ring.abort_of_unknown`, `Ring.exists_abort_of_known`: the numbers are those from 1 on,
  one for each transaction.
-/

namespace TwoPhase

instance (program : Program) (size : Nat) : Decidable (program.Within size) :=
  decidable_of_iff (program.records.all (·.toNat < size) = true) (by
    rw [List.all_eq_true, Program.within_iff]
    simp only [decide_eq_true_eq])

/-- `record` is the largest of the first program that goes beyond a store of `size` records. -/
def BlamedRecord (size : Nat) (programs : List Program) (record : RecordId) : Prop :=
  ∃ before program after, programs = before ++ program :: after ∧
    (∀ earlier ∈ before, earlier.Within size) ∧ program.Largest record ∧ size ≤ record.toNat

section
variable {store : Store} {programs : List Program} {settings : Settings} {size id : Nat}
  {program : Program} {record record' : RecordId} {e : Error} {ring : Ring}

/-! ## Starting -/

theorem Program.Largest.unique (h : program.Largest record) (h' : program.Largest record') :
    record' = record := UInt64.le_antisymm (h.2 record' h'.1) (h'.2 record h.1)

theorem Program.Largest.not_within (h : program.Largest record) (hge : size ≤ record.toNat) :
    ¬ program.Within size := by
  intro hwithin
  have := Program.within_iff.1 hwithin record h.1
  omega

theorem not_blamedRecord_nil : ¬ BlamedRecord size [] record := by
  rintro ⟨before, program, after, heq, -⟩
  cases before <;> cases heq

theorem blamedRecord_cons_of_within (h : program.Within size) :
    BlamedRecord size (program :: programs) record ↔ BlamedRecord size programs record := by
  constructor
  · rintro ⟨before, guilty, after, heq, hbefore, hlargest, hge⟩
    cases before with
    | nil =>
      cases heq
      exact absurd h (hlargest.not_within hge)
    | cons first before =>
      cases heq
      exact ⟨before, guilty, after, rfl, (List.forall_mem_cons.1 hbefore).2, hlargest, hge⟩
  · rintro ⟨before, guilty, after, rfl, hbefore, hlargest, hge⟩
    exact ⟨program :: before, guilty, after, rfl, List.forall_mem_cons.2 ⟨h, hbefore⟩, hlargest,
      hge⟩

theorem blamedRecord_cons_of_largest (h : program.Largest record) (hge : size ≤ record.toNat) :
    BlamedRecord size (program :: programs) record' ↔ record' = record := by
  constructor
  · rintro ⟨before, guilty, after, heq, hbefore, hlargest, -⟩
    cases before with
    | nil =>
      cases heq
      exact h.unique hlargest
    | cons first before =>
      cases heq
      exact absurd (hbefore program List.mem_cons_self) (h.not_within hge)
  · rintro rfl
    exact ⟨[], program, programs, rfl, by simp, h, hge⟩

namespace Ring

theorem enlist_eq_error_iff (first : Nat) :
    enlist store first programs = .error e ↔
      ∃ record, BlamedRecord store.size programs record ∧
        e = .recordOutOfBounds record store.size := by
  induction programs generalizing first with
  | nil =>
    constructor
    · intro h
      cases h
    · rintro ⟨record, hblamed, -⟩
      exact absurd hblamed not_blamedRecord_nil
  | cons program rest ih =>
    unfold enlist
    rcases checkProgram_cases store program with ⟨hwithin, hok⟩ | ⟨record, hlargest, hge, herror⟩
    · simp only [blamedRecord_cons_of_within hwithin, hok, bind, Except.bind]
      rw [← ih (first + 1)]
      cases enlist store (first + 1) rest with
      | error e' => exact Iff.rfl
      | ok later => simp only [pure, Except.pure, reduceCtorEq]
    · simp only [blamedRecord_cons_of_largest hlargest hge, herror, bind, Except.bind,
        exists_eq_left, Except.error.injEq]
      exact eq_comm

theorem start_eq_error_iff :
    Ring.start store programs settings = .error e ↔
      ∃ record, BlamedRecord store.size programs record ∧
        e = .recordOutOfBounds record store.size := by
  rw [← enlist_eq_error_iff 1]
  simp only [Ring.start, bind, Except.bind]
  cases enlist store 1 programs with
  | error e' => simp only [Except.error.injEq]
  | ok ts => simp only [pure, Except.pure, reduceCtorEq]

/-- If nobody is to blame, all programs stay within the store. -/
theorem start_eq_ok_iff :
    (∃ ring, Ring.start store programs settings = .ok ring) ↔
      ∀ program ∈ programs, program.Within store.size := by
  constructor
  · rintro ⟨ring, h⟩ program hmem
    obtain ⟨ts, hts, -⟩ := start_eq_ok h
    have hw := WellFormed.start hts
    rw [← hw.programs] at hmem
    obtain ⟨t, ht, rfl⟩ := List.mem_map.1 hmem
    exact hw.within t ht
  · intro h
    cases hs : Ring.start store programs settings with
    | ok ring => exact ⟨ring, rfl⟩
    | error e =>
      obtain ⟨record, ⟨before, program, after, rfl, -, hlargest, hge⟩, -⟩ :=
        start_eq_error_iff.1 hs
      exact absurd (h program (by simp)) (hlargest.not_within hge)

/-! ## Aborts -/

theorem abort_of_unknown (hw : WellFormed store programs ring.database ring.transactions)
    (hid : id = 0 ∨ programs.length < id) : ring.abort id = .error (.unknownTransaction id) := by
  unfold abort transaction?
  cases ht : ring.transactions[id - 1]? with
  | none => rfl
  | some t =>
    have hlt := (List.getElem?_eq_some_iff.1 ht).1
    rw [hw.length_eq] at hlt
    have hne : t.id ≠ id := by
      rw [hw.ids _ t ht]
      omega
    simp only [if_neg hne]

theorem exists_abort_of_known (hw : WellFormed store programs ring.database ring.transactions)
    (hpos : 0 < id) (hle : id ≤ programs.length) :
    ∃ ring' lsn, ring.abort id = .ok (ring', lsn) := by
  have hlt : id - 1 < ring.transactions.length := by
    rw [hw.length_eq]
    omega
  have hid := hw.ids _ _ (List.getElem?_eq_getElem hlt)
  have habort := exists_abort hw (List.getElem_mem hlt)
  rwa [hid, Nat.sub_add_cancel hpos] at habort

end Ring

end

end TwoPhase
