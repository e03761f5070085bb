import TwoPhase.Proofs.Workload

/-!
# Writing workloads

The canonical text of programs is one that the grammar allows, token by token:

* `natural_repr`, `integer_repr`: numbers are written without leading zero.
* `operationForm_text`, `programForm_text`: operations and lines, without any blank.
* `workloadForm_text`: a whole workload, by induction on its programs.

Reading accepts all that the grammar allows, so `workloadText_roundTrip` follows:
what was written is read back, and writing that again changes nothing.
-/

namespace TwoPhase.Text

/-! ## Numbers -/

theorem head?_toDigits {n : Nat} (h : 10 ≤ n) :
    (Nat.toDigits 10 n).head? = (Nat.toDigits 10 (n / 10)).head? := by
  rw [Nat.toDigits_eq_if (by decide), if_neg (by omega)]
  exact List.head?_append_of_ne_nil _ Nat.toDigits_ne_nil

theorem head?_toDigits_ne_zero {n : Nat} (h : 0 < n) : (Nat.toDigits 10 n).head? ≠ some '0' := by
  induction n using Nat.strong_induction_on with
  | _ n ih =>
    by_cases hn : n < 10
    · have hdigit : ∀ d < 10, 0 < d → [Nat.digitChar d].head? ≠ some '0' := by decide
      rw [Nat.toDigits_of_lt_base hn]
      exact hdigit n hn h
    · rw [head?_toDigits (by omega)]
      exact ih (n / 10) (by omega) (by omega)

theorem positive_toDigits {n : Nat} (h : 0 < n) : Positive (Nat.toDigits 10 n) n where
  nonempty := Nat.toDigits_ne_nil
  digits _ hc := Nat.isDigit_of_mem_toDigits (by decide) (by decide) hc
  leading := head?_toDigits_ne_zero h
  value := Nat.ofDigitChars_toDigits (by decide) (by decide)

theorem toList_repr (n : Nat) : n.repr.toList = Nat.toDigits 10 n := by
  rw [Nat.repr_eq_ofList_toDigits, String.toList_ofList]

theorem natural_repr (n : Nat) : Natural n.repr.toList n := by
  rw [toList_repr]
  rcases Nat.eq_zero_or_pos n with rfl | h
  · exact .zero
  · exact .positive (positive_toDigits h)

theorem integer_repr (n : Int) : Integer n.repr.toList n := by
  cases n with
  | ofNat n => exact (natural_repr n).integer
  | negSucc n =>
    have h : (Int.negSucc n).repr.toList = ['-'] ++ Nat.toDigits 10 (n + 1) := by
      rw [← toList_repr]
      exact String.toList_append
    rw [h, Int.negSucc_eq]
    exact .minus (positive_toDigits n.succ_pos)

/-! ## Lines -/

theorem operationForm_text (op : Operation) : OperationForm op.text.toList op := by
  cases op with
  | read record =>
    have hform := OperationForm.read blanks_nil blanks_nil (natural_repr record.toNat) blanks_nil
    simpa [Operation.text] using hform
  | write record value =>
    have hform := OperationForm.write blanks_nil blanks_nil (natural_repr record.toNat) blanks_nil
      blanks_nil (integer_repr value.toInt) blanks_nil
    simpa [Operation.text] using hform
  | commit => exact .commit

theorem operationsForm_text {ops : List Operation} (h : ops ≠ []) :
    OperationsForm (";".intercalate (ops.map Operation.text)).toList ops := by
  induction ops with
  | nil => exact absurd rfl h
  | cons op ops ih =>
    cases ops with
    | nil => exact .one (operationForm_text op)
    | cons next ops =>
      have hform := OperationsForm.more (operationForm_text op) blanks_nil blanks_nil
        (ih (List.cons_ne_nil next ops))
      simpa [String.intercalate_cons_cons] using hform

theorem programForm_text (program : Program) :
    ProgramForm program.text.toList program.operations := by
  have hform :=
    ProgramForm.line blanks_nil (operationsForm_text program.operations_ne_nil) blanks_nil
  simpa [Program.text] using hform

/-! ## Workloads -/

theorem toList_workloadText_cons (program : Program) (programs : List Program) :
    (workloadText (program :: programs)).toList =
      program.text.toList ++ ['\n'] ++ (workloadText programs).toList := by
  simp [workloadText]

theorem workloadForm_text (programs : List Program) :
    WorkloadForm (workloadText programs).toList programs := by
  induction programs with
  | nil => exact .blanks blanks_nil
  | cons program programs ih =>
    rw [toList_workloadText_cons]
    exact .program (programForm_text program) (.inl .newline) ih

theorem readWorkload_workloadText (programs : List Program) :
    readWorkload (workloadText programs) = .ok programs := by
  rw [readWorkload_eq]
  exact readLines_of_form (workloadForm_text programs) 1

/-- **Round trip.** Programs that are written are read back as they were. So the canonical text of
what was read is a fixed point: reading it and writing it again gives the same text. -/
theorem workloadText_roundTrip :
    (∀ programs, readWorkload (workloadText programs) = .ok programs) ∧
    ∀ text programs, readWorkload text = .ok programs →
      (readWorkload (workloadText programs)).map workloadText = .ok (workloadText programs) := by
  refine ⟨readWorkload_workloadText, fun text programs _ => ?_⟩
  rw [readWorkload_workloadText]
  rfl

/-- A program with the largest record and the least and largest value there are. -/
def limits : Program :=
  ⟨[.read 18446744073709551615, .write 0 (-9223372036854775808), .write 7 9223372036854775807,
    .commit], by decide⟩

/-- The same program with blanks, a sign, a comment before it and no line ending after it. -/
def limitsText : String :=
  " // limits\r\n\tR ( 18446744073709551615 ) ;W(0,-9223372036854775808);" ++
    " W(7 , +9223372036854775807);C  "

theorem workloadText_roundTrip_limits :
    readWorkload limitsText = .ok [limits] ∧
    workloadText [limits] =
      "R(18446744073709551615);W(0,-9223372036854775808);W(7,9223372036854775807);C\n" ∧
    (readWorkload (workloadText [limits])).map workloadText = .ok (workloadText [limits]) := by
  have hread : readWorkload limitsText = .ok [limits] := by decide +kernel
  exact ⟨hread, by decide +kernel, workloadText_roundTrip.2 limitsText [limits] hread⟩

end TwoPhase.Text
