import TwoPhase.Proofs.Decoding
import TwoPhase.Proofs.Unfailing
import TwoPhase.Proofs.Writing

/-!
# Generated workloads

A generated workload can be run, whatever was drawn, and it can be stored as text or as
JSON in between. Nothing is left to chance but which operations there are.

* `Shape.allows_drawn`: what is drawn stays in range, also at the corners of a shape.
* `Shape.makes_drawn`: a draw that is in range is taken as it is.
* `Shape.drawnPrograms_eq`: the operations drawn, and a commit after them, are programs.
* `Sample.read?_pretty`: a workload comes back from its JSON, with its shape.
-/

namespace TwoPhase

/-- What can be drawn for a shape: one of its records, and for a write one of its values. -/
structure Draw.Possible (shape : Shape) (draw : Draw) : Prop where
  record : draw.record < shape.records
  value : draw.reads = false → (draw.value : Int) ≤ max shape.maxValue.toInt 0

/-- The operation has the numbers that were drawn. -/
inductive Draw.Makes (draw : Draw) : Operation → Prop where
  | read {record : RecordId} : draw.reads = true → record.toNat = draw.record →
      Makes draw (.read record)
  | write {record : RecordId} {value : Value} : draw.reads = false →
      record.toNat = draw.record → value.toInt = draw.value → Makes draw (.write record value)

namespace Shape

structure InRange (shape : Shape) : Prop where
  id : shape.id < UInt64.size
  records : shape.records < UInt64.size
  transactions : shape.transactions < UInt64.size
  operations : shape.operations < UInt64.size

/-! ## Drawn operations -/

theorem toNat_drawnRecord (shape : Shape) (hpos : 0 < shape.records) (n : Nat) :
    (UInt64.ofNat (n % shape.records)).toNat < shape.records := by
  have hlt := Nat.mod_lt n hpos
  have hle : (UInt64.ofNat (n % shape.records)).toNat ≤ n % shape.records := by
    rw [UInt64.toNat_ofNat']
    exact Nat.mod_le ..
  omega

theorem toInt_drawnValue (shape : Shape) (n : Nat) :
    (Int64.ofNat (n % (shape.maxValue.toInt.toNat + 1))).toInt =
      (n % (shape.maxValue.toInt.toNat + 1) : Nat) := by
  have hmax := shape.maxValue.toInt_lt
  have hlt : n % (shape.maxValue.toInt.toNat + 1) < shape.maxValue.toInt.toNat + 1 :=
    Nat.mod_lt n (Nat.succ_pos _)
  exact Int64.toInt_ofNat_of_lt (by omega)

theorem allows_drawn (shape : Shape) (hpos : 0 < shape.records) (draw : Draw) :
    shape.allows (shape.drawn draw) = true := by
  have hrecord := shape.toNat_drawnRecord hpos draw.record
  unfold drawn
  split
  · simpa only [allows, decide_eq_true_eq] using hrecord
  · have hlt : draw.value % (shape.maxValue.toInt.toNat + 1) < shape.maxValue.toInt.toNat + 1 :=
      Nat.mod_lt draw.value (Nat.succ_pos _)
    simp only [allows, Bool.and_eq_true, decide_eq_true_eq, toInt_drawnValue]
    exact ⟨⟨hrecord, by omega⟩, by omega⟩

theorem drawn_ne_commit (shape : Shape) (draw : Draw) : shape.drawn draw ≠ .commit := by
  unfold drawn
  split <;> exact nofun

/-- A draw in range is taken as it is. -/
theorem makes_drawn {shape : Shape} (hrange : shape.InRange) {draw : Draw}
    (hdraw : draw.Possible shape) : draw.Makes (shape.drawn draw) := by
  have hrecord : (UInt64.ofNat (draw.record % shape.records)).toNat = draw.record := by
    rw [Nat.mod_eq_of_lt hdraw.record]
    exact UInt64.toNat_ofNat_of_lt' (Nat.lt_trans hdraw.record hrange.records)
  cases hreads : draw.reads with
  | true =>
    rw [drawn, if_pos hreads]
    exact .read hreads hrecord
  | false =>
    have hvalue := hdraw.value hreads
    rw [drawn, if_neg (by simp [hreads])]
    refine .write hreads hrecord ?_
    rw [toInt_drawnValue, Nat.mod_eq_of_lt (by omega)]

/-! ## Drawn programs -/

def drawnBody (shape : Shape) (draws : Nat → Draw) : List Operation :=
  if shape.records = 0 then [] else (List.range shape.operations).map fun k => shape.drawn (draws k)

theorem drawnOperations_eq (shape : Shape) (draws : Nat → Draw) :
    shape.drawnOperations draws = shape.drawnBody draws ++ [.commit] := by
  unfold drawnOperations drawnBody
  split <;> rfl

theorem exists_of_mem_drawnBody {shape : Shape} {draws : Nat → Draw} {op : Operation}
    (h : op ∈ shape.drawnBody draws) : 0 < shape.records ∧ ∃ k, op = shape.drawn (draws k) := by
  unfold drawnBody at h
  split at h
  · cases h
  · next hne =>
    obtain ⟨k, -, rfl⟩ := List.mem_map.1 h
    exact ⟨Nat.pos_of_ne_zero hne, k, rfl⟩

theorem commitsLast_drawnOperations (shape : Shape) (draws : Nat → Draw) :
    CommitsLast (shape.drawnOperations draws) := by
  rw [drawnOperations_eq]
  refine ⟨List.getLast?_concat, fun hmem => ?_⟩
  rw [List.dropLast_concat] at hmem
  obtain ⟨-, k, hk⟩ := exists_of_mem_drawnBody hmem
  exact shape.drawn_ne_commit (draws k) hk.symm

def drawnProgram (shape : Shape) (draws : Nat → Draw) : Program :=
  ⟨shape.drawnOperations draws, shape.commitsLast_drawnOperations draws⟩

theorem operations_drawnProgram (shape : Shape) (draws : Nat → Draw) :
    (shape.drawnProgram draws).operations = shape.drawnBody draws ++ [.commit] :=
  shape.drawnOperations_eq draws

def madePrograms (shape : Shape) (draws : Nat → Nat → Draw) : List Program :=
  (List.range shape.transactions).map fun i => shape.drawnProgram (draws i)

theorem drawnPrograms_eq (shape : Shape) (draws : Nat → Nat → Draw) :
    shape.drawnPrograms draws = .ok (shape.madePrograms draws) := by
  have hprogram : ∀ i, Program.ofOperations (shape.drawnOperations (draws i)) =
      .ok (shape.drawnProgram (draws i)) := fun i => Program.ofOperations_eq_ok.2 rfl
  unfold drawnPrograms
  simp only [hprogram]
  exact List.mapM_pure

theorem length_drawnProgram (shape : Shape) (draws : Nat → Draw) :
    (shape.drawnProgram draws).length =
      if shape.records = 0 then 1 else shape.operations + 1 := by
  rw [Program.length, operations_drawnProgram, drawnBody]
  split <;> simp

theorem allows_of_mem {shape : Shape} {draws : Nat → Draw} {op : Operation}
    (h : op ∈ (shape.drawnProgram draws).operations) : shape.allows op = true := by
  rw [operations_drawnProgram, List.mem_append, List.mem_singleton] at h
  rcases h with h | rfl
  · obtain ⟨hpos, k, rfl⟩ := exists_of_mem_drawnBody h
    exact shape.allows_drawn hpos (draws k)
  · rfl

theorem getElem?_drawnProgram {shape : Shape} (draws : Nat → Draw) (hpos : 0 < shape.records)
    {k : Nat} (hk : k < shape.operations) :
    (shape.drawnProgram draws).operations[k]? = some (shape.drawn (draws k)) := by
  rw [operations_drawnProgram, drawnBody, if_neg (by omega),
    List.getElem?_append_left (by simpa using hk)]
  simp [hk]

theorem within_drawnProgram (shape : Shape) (draws : Nat → Draw) :
    (shape.drawnProgram draws).Within (Store.identity shape.records).size := by
  intro op hop mode record hrequest
  have hallows := allows_of_mem hop
  have hsize : (Store.identity shape.records).size = shape.records := by
    simp [Store.identity, Store.size]
  rw [hsize]
  cases op with
  | read r =>
    cases hrequest
    simpa [allows] using hallows
  | write r v =>
    cases hrequest
    simp only [allows, Bool.and_eq_true, decide_eq_true_eq] at hallows
    exact hallows.1.1
  | commit => cases hrequest

theorem getElem?_madePrograms {shape : Shape} {draws : Nat → Nat → Draw} {i : Nat}
    {program : Program} (h : (shape.madePrograms draws)[i]? = some program) :
    program = shape.drawnProgram (draws i) := by
  unfold madePrograms at h
  rw [List.getElem?_map, Option.map_eq_some_iff] at h
  obtain ⟨place, hplace, rfl⟩ := h
  obtain ⟨-, rfl⟩ := List.getElem?_eq_some_iff.1 hplace
  rw [List.getElem_range]

theorem length_madePrograms (shape : Shape) (draws : Nat → Nat → Draw) :
    (shape.madePrograms draws).length = shape.transactions := by
  simp [madePrograms]

theorem total_length_madePrograms (shape : Shape) (draws : Nat → Nat → Draw) :
    (shape.madePrograms draws).foldr (fun program total => program.length + total) 0 =
      shape.transactions * (if shape.records = 0 then 1 else shape.operations + 1) := by
  have hsum : ∀ places : List Nat,
      (places.map fun i => shape.drawnProgram (draws i)).foldr
        (fun program total => program.length + total) 0 =
      places.length * (if shape.records = 0 then 1 else shape.operations + 1) := by
    intro places
    induction places with
    | nil => simp
    | cons i rest ih =>
      rw [List.map_cons, List.foldr_cons, ih, length_drawnProgram, List.length_cons, Nat.succ_mul,
        Nat.add_comm]
  rw [madePrograms, hsum, List.length_range]

/-! ## Workloads as JSON -/

theorem ofJson?_fields {j₁ j₂ j₃ j₄ j₅ : Json} {s : Shape} (hid : j₁.count? = some s.id)
    (hrecords : j₂.count? = some s.records) (htransactions : j₃.count? = some s.transactions)
    (hoperations : j₄.count? = some s.operations) (hmax : j₅.value64? = some s.maxValue) :
    ofJson? (.obj [("id", j₁), ("n_record", j₂), ("n_transaction", j₃), ("n_operation", j₄),
      ("max_value", j₅)]) = some s := by
  simp [ofJson?, Json.record?, List.lookup_cons, hid, hrecords, htransactions, hoperations, hmax]

theorem inverts : Json.Inverts toJson ofJson? InRange where
  regular {s} _ := by
    refine .obj (by simp) ?_
    simp only [List.forall_mem_cons]
    exact ⟨Json.regular_nat _, Json.regular_nat _, Json.regular_nat _, Json.regular_nat _,
      Json.regular_ofValue _, List.forall_mem_nil _⟩
  decode_encode {s} h :=
    ofJson?_fields (Json.count?_nat h.id) (Json.count?_nat h.records)
      (Json.count?_nat h.transactions) (Json.count?_nat h.operations)
      (Json.value64?_ofValue s.maxValue)
  of_decode {j s} h := by
    unfold ofJson? at h
    split at h
    · simp only [Option.bind_eq_bind, Option.pure_def, Option.bind_eq_some_iff] at h
      obtain ⟨id, hid, records, hrecords, transactions, htransactions, operations, hoperations,
        _, -, hs⟩ := h
      cases hs
      exact ⟨Json.inverts_nat.of_decode hid, Json.inverts_nat.of_decode hrecords,
        Json.inverts_nat.of_decode htransactions, Json.inverts_nat.of_decode hoperations⟩
    · cases h

end Shape

/-- A point in time comes back from its JSON. -/
structure TimeForm.Keeps {Time : Type} (form : TimeForm Time) (time : Time) : Prop where
  regular : (form.toJson time).Regular
  decode : form.ofJson? (form.toJson time) = some time

namespace Sample

variable {Time : Type} {form : TimeForm Time} {s : Sample Time}

theorem ofJson?_fields {j₁ j₂ j₃ j₄ j₅ : Json} (hshape : Shape.ofJson? j₁ = some s.shape)
    (hinfo : j₂.str? = some s.info) (hstarted : form.ofJson? j₃ = some s.started)
    (hfinished : form.ofJson? j₄ = some s.finished)
    (hprograms : j₅.listOf? Program.ofJson? = some s.programs) :
    ofJson? form (.obj [("params", j₁), ("info", j₂), ("start", j₃), ("end", j₄), ("data", j₅)]) =
      some s := by
  simp [ofJson?, Json.record?, List.lookup_cons, hshape, hinfo, hstarted, hfinished, hprograms]

theorem read?_pretty (hshape : s.shape.InRange) (hstarted : form.Keeps s.started)
    (hfinished : form.Keeps s.finished) :
    (Json.read? (s.toJson form).pretty).bind (ofJson? form) = some s := by
  have hregular : (s.toJson form).Regular := by
    refine .obj (by simp) ?_
    simp only [List.forall_mem_cons]
    exact ⟨Shape.inverts.regular hshape, .str _, hstarted.regular, hfinished.regular,
      Program.inverts.list.regular fun _ _ => trivial, List.forall_mem_nil _⟩
  refine Option.bind_eq_some_iff.2 ⟨_, Json.read?_pretty hregular, ?_⟩
  exact ofJson?_fields (Shape.inverts.decode_encode hshape) rfl hstarted.decode hfinished.decode
    (Program.inverts.list.decode_encode fun _ _ => trivial)

end Sample

theorem Sample.generate_eq {Time : Type} (shape : Shape) (draws : Nat → Nat → Draw)
    (started finished : Time) :
    Sample.generate shape draws started finished =
      .ok ⟨shape, "generated", started, finished, shape.madePrograms draws⟩ := by
  rw [generate, Shape.drawnPrograms_eq]
  rfl

theorem Shape.exists_start (shape : Shape) (draws : Nat → Nat → Draw) (settings : Settings) :
    ∃ ring, Ring.start (.identity shape.records) (shape.madePrograms draws) settings = .ok ring ∧
      ring.operationCount =
        shape.transactions * (if shape.records = 0 then 1 else shape.operations + 1) := by
  have hwithin : ∀ program ∈ shape.madePrograms draws,
      program.Within (Store.identity shape.records).size := by
    intro program hmem
    obtain ⟨i, -, rfl⟩ := List.mem_map.1 hmem
    exact shape.within_drawnProgram (draws i)
  obtain ⟨ring, hring, hcount⟩ := TwoPhase.exists_start settings hwithin
  exact ⟨ring, hring, hcount.trans (shape.total_length_madePrograms draws)⟩

/-- **Generated workloads can be run.** For every shape and whatever is drawn, a workload is made.
It has as many programs as the shape says, each with as many operations and a commit, or the commit
alone if there are no records, and stays within the records and values of the shape; what can be
drawn is taken as it is. The programs come back from their text and from their JSON, and so does the
whole workload if its times do. Over the store that comes with it, it is accepted under any
threshold. It runs to the end, with one outcome for each transaction, if all turns can be counted,
as is so if there is too little to do to fill a counter; and it fails if they cannot. -/
theorem generated_workload_runs {Time : Type} (form : TimeForm Time) (shape : Shape)
    (draws : Nat → Nat → Draw) (started finished : Time) :
    ∃ sample, Sample.generate shape draws started finished = .ok sample ∧
      sample.shape = shape ∧ sample.programs.length = shape.transactions ∧
      (∀ i program, sample.programs[i]? = some program →
        program.length = (if shape.records = 0 then 1 else shape.operations + 1) ∧
        (shape.records = 0 → program.operations = [.commit]) ∧
        (∀ op ∈ program.operations, shape.allows op = true) ∧
        ∀ k, k < shape.operations → shape.InRange → (draws i k).Possible shape →
          ∃ op, program.operations[k]? = some op ∧ (draws i k).Makes op) ∧
      Text.readWorkload (Text.workloadText sample.programs) = .ok sample.programs ∧
      (Json.ofList Program.toJson sample.programs).listOf? Program.ofJson? = some sample.programs ∧
      (shape.InRange → form.Keeps started → form.Keeps finished →
        (Json.read? (sample.toJson form).pretty).bind (Sample.ofJson? form) = some sample) ∧
      ∀ settings, ∃ ring,
        Ring.start sample.initialStore sample.programs settings = .ok ring ∧
        ring.operationCount =
          shape.transactions * (if shape.records = 0 then 1 else shape.operations + 1) ∧
        ((∀ turns mid, ring.Turns turns mid → ¬ mid.Saturated) →
          ∃ report last, Stepwise.run.run ring = .ok report last ∧
            report.outcomes.map (·.1) = List.range' 1 shape.transactions) ∧
        (ring.Slight → ∀ turns mid, ring.Turns turns mid → ¬ mid.Saturated) ∧
        ∀ turns mid, ring.Turns turns mid → mid.Saturated →
          ∃ failed, Stepwise.run.run ring = .error .overflow failed := by
  refine ⟨⟨shape, "generated", started, finished, shape.madePrograms draws⟩,
    Sample.generate_eq shape draws started finished, rfl, shape.length_madePrograms draws,
    fun i program hi => ?_, Text.readWorkload_workloadText _,
    Program.inverts.list.decode_encode fun _ _ => trivial,
    fun hrange hstarted hfinished => Sample.read?_pretty hrange hstarted hfinished,
    fun settings => ?_⟩
  · obtain rfl := Shape.getElem?_madePrograms hi
    refine ⟨shape.length_drawnProgram _, fun hzero => ?_, fun op => Shape.allows_of_mem,
      fun k hk hrange hdraw => ⟨_, Shape.getElem?_drawnProgram _ ?_ hk,
        Shape.makes_drawn hrange hdraw⟩⟩
    · rw [Shape.operations_drawnProgram, Shape.drawnBody, if_pos hzero]
      rfl
    · exact Nat.zero_lt_of_lt hdraw.record
  · obtain ⟨ring, hring, hcount⟩ := shape.exists_start draws settings
    have hr : Ring.Reached _ _ settings [] ring := .start hring
    refine ⟨ring, hring, hcount, fun hfree => ?_, fun hslight turns mid hturns => ?_,
      fun turns mid hturns => hr.run_run_overflow hturns⟩
    · obtain ⟨turns, last, hturns, hfin, hrun⟩ := hr.run_run hfree
      refine ⟨last.report, last, hrun, ?_⟩
      rw [(hr.append hturns).map_outcomes hfin, shape.length_madePrograms]
    · have hmid := hr.append hturns
      exact hmid.not_saturated (hr.slight hmid hslight)

/-- T1 reads and T2 writes record 1. The largest value is the least there is, so 0 is the only one
that can be drawn. Times are kept as their text. -/
theorem generated_workload_runs_leastValue :
    ∃ (sample : Sample String) (report : Report) (ring last : Ring),
      Sample.generate ⟨7, 2, 2, 1, -9223372036854775808⟩ (fun i _ => ⟨1, i = 0, 0⟩)
        "2026-01-02T03:04:05+00:00" "2026-01-02T03:04:06+00:00" = .ok sample ∧
      sample.programs.length = 2 ∧
      (∀ i program, sample.programs[i]? = some program →
        program.length = 2 ∧
        ∃ op, program.operations[0]? = some op ∧ Draw.Makes ⟨1, i = 0, 0⟩ op) ∧
      (Json.read? (sample.toJson ⟨.str, Json.str?⟩).pretty).bind
        (Sample.ofJson? ⟨.str, Json.str?⟩) = some sample ∧
      Ring.start sample.initialStore sample.programs ⟨10⟩ = .ok ring ∧
      Stepwise.run.run ring = .ok report last ∧
      report.outcomes.map (·.1) = [1, 2] := by
  have hrange : Shape.InRange ⟨7, 2, 2, 1, -9223372036854775808⟩ :=
    ⟨by decide, by decide, by decide, by decide⟩
  have hpossible : ∀ i : Nat,
      Draw.Possible ⟨7, 2, 2, 1, -9223372036854775808⟩ ⟨1, i = 0, 0⟩ :=
    fun _ => ⟨Nat.one_lt_two, fun _ => Int.le_max_right ..⟩
  have hkeeps : ∀ time, TimeForm.Keeps ⟨.str, Json.str?⟩ time := fun time => ⟨.str time, rfl⟩
  obtain ⟨sample, hsample, -, hlength, hprograms, -, -, hjson, hrun⟩ :=
    generated_workload_runs ⟨.str, Json.str?⟩ ⟨7, 2, 2, 1, -9223372036854775808⟩
      (fun i _ => ⟨1, i = 0, 0⟩) "2026-01-02T03:04:05+00:00" "2026-01-02T03:04:06+00:00"
  obtain ⟨ring, hring, -, hreport, hslight, -⟩ := hrun ⟨10⟩
  have hfew : ring.Slight := by
    cases hsample
    cases hring
    constructor
    · decide
    · decide
    · decide
  obtain ⟨report, last, hlast, houtcomes⟩ := hreport (hslight hfew)
  refine ⟨sample, report, ring, last, hsample, hlength, fun i program hi => ?_,
    hjson hrange (hkeeps _) (hkeeps _), hring, hlast, houtcomes⟩
  obtain ⟨hoperations, -, -, hdraws⟩ := hprograms i program hi
  exact ⟨hoperations, hdraws 0 (by decide) hrange (hpossible i)⟩

/-- Draws for three records: T1 and T2 deadlock, T3 waits for T1, and T4 is in a second deadlock
with T1 after the first. -/
def standoffDraws : Nat → Nat → Draw
  | 0, k => ⟨k % 3, false, 1⟩
  | 1, 0 => ⟨1, false, 2⟩
  | 1, 1 => ⟨0, false, 3⟩
  | 3, 0 => ⟨2, false, 4⟩
  | 3, 1 => ⟨0, false, 4⟩
  | _, _ => ⟨0, true, 0⟩

def drawnStandoffAt : Standoff (Shape.madePrograms ⟨0, 3, 4, 3, 4⟩ standoffDraws) where
  one := _
  two := _
  three := _
  record := 0
  other := 1
  first := rfl
  second := rfl
  third := rfl
  apart := doubleStandoffAt.apart
  write_one := ⟨1, rfl⟩
  cross_one := ⟨1, rfl⟩
  write_two := ⟨2, rfl⟩
  cross_two := ⟨3, rfl⟩
  read_three := rfl

/-- **A generated workload that fails**: T3 is denied more often than can be counted. -/
theorem generated_workload_overflows :
    (∀ i k, (standoffDraws i k).Possible ⟨0, 3, 4, 3, 4⟩) ∧
    ∃ (sample : Sample String) (ring failed : Ring),
      Sample.generate ⟨0, 3, 4, 3, 4⟩ standoffDraws "2026-01-02T03:04:05+00:00"
        "2026-01-02T03:04:05+00:00" = .ok sample ∧
      Ring.start sample.initialStore sample.programs ⟨4294967295⟩ = .ok ring ∧
      Stepwise.run.run ring = .error .overflow failed := by
  constructor
  · intro i k
    unfold standoffDraws
    split
    · exact ⟨Nat.mod_lt k (by decide), fun _ => show (1 : Int) ≤ max 4 0 by decide⟩
    all_goals exact ⟨by decide, fun _ => by decide⟩
  · obtain ⟨ring, hring, -⟩ :=
      Shape.exists_start ⟨0, 3, 4, 3, 4⟩ standoffDraws ⟨4294967295⟩
    obtain ⟨turns, mid, hturns, hover⟩ := drawnStandoffAt.exists_overflows hring (by decide)
    obtain ⟨failed, hrun⟩ := (Ring.Reached.start hring).run_run_overflow hturns hover.saturated
    exact ⟨_, ring, failed, Sample.generate_eq _ _ _ _, hring, hrun⟩

end TwoPhase
