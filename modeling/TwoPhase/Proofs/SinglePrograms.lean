import TwoPhase.Proofs.Encoding
import TwoPhase.Proofs.Writing

/-!
# Reading one program

A text of one line can be read as one program or as a workload. Both read the line as a
draft first and check its commit afterwards, so they find the same program or the same
fault (`readWorkload_of_line`). Blanks and comments aside: they are a workload without
programs, but no program.

The operations of a program can also come as a list, or encoded as JSON. Every list of
operations is read back from its text, whether it is a program or not, so all three ways
refuse the same lists (`readProgram_operations`).
-/

namespace TwoPhase

namespace Program

theorem commitsLast_iff {ops : List Operation} :
    CommitsLast ops ↔ ∃ before, ops = before ++ [.commit] ∧ .commit ∉ before := by
  constructor
  · rintro ⟨hlast, honly⟩
    exact ⟨ops.dropLast, (List.dropLast_append_getLast? Operation.commit hlast).symm, honly⟩
  · rintro ⟨before, rfl, honly⟩
    exact ⟨List.getLast?_concat, by rwa [List.dropLast_concat]⟩

theorem exists_ofOperations_iff {ops : List Operation} :
    (∃ program, ofOperations ops = .ok program) ↔
      ∃ before, ops = before ++ [.commit] ∧ .commit ∉ before := by
  rw [← commitsLast_iff]
  constructor
  · rintro ⟨program, h⟩
    rw [← ofOperations_eq_ok.1 h]
    exact program.commitsLast
  · intro h
    exact ⟨⟨ops, h⟩, ofOperations_eq_ok.2 rfl⟩

end Program

namespace Text

/-! ## Where a draft starts -/

theorem byteLength_append (a s : List Char) :
    byteLength (a ++ s) = byteLength a + byteLength s := by
  induction a with
  | nil => rw [List.nil_append, byteLength, Nat.zero_add]
  | cons c a ih => rw [List.cons_append, byteLength, byteLength, ih, Nat.add_assoc]

theorem cutAt_append {mark : Char} {a : List Char} (h : mark ∉ a) (s : List Char) :
    cutAt mark (a ++ s) = (a ++ (cutAt mark s).1, (cutAt mark s).2) := by
  induction a with
  | nil => rfl
  | cons c a ih =>
    rw [List.mem_cons, not_or] at h
    simp only [List.cons_append, cutAt, ih h.2, if_neg (Ne.symm h.1)]

theorem readDraft_offset {a s : List Char} {c : Char} {draft : Draft} (ha : Blanks a)
    (hc : isBlank c = false) (h : readDraft (a ++ c :: s) = .ok draft) :
    draft.offset = byteLength a := by
  have hmark : ';' ∉ a := ha.plain.notMem (by decide)
  have hfirst : skipBlanks (cutAt ';' (c :: s)).1 = (cutAt ';' (c :: s)).1 := by
    simp only [cutAt]
    split
    · rfl
    · exact skipBlanks_cons hc _
  unfold readDraft at h
  simp only [cutAt_append hmark] at h
  split at h
  · cases h
  · obtain ⟨ops, -, rfl⟩ := map_eq_ok.1 h
    simp only [skipBlanks_append ha, hfirst, byteLength_append, Nat.add_sub_cancel_right]

/-! ## Texts of one line -/

theorem lines_of_notMem {s : List Char} (h : '\n' ∉ s) : lines s = [s] := by
  obtain ⟨first, -, ⟨rfl, hone⟩ | ⟨e, rest, he, rfl, -⟩⟩ := lines_cases s
  · exact hone
  · refine absurd ?_ h
    cases he <;> simp

theorem readProgram_of_line {text : String} (h : '\n' ∉ text.toList) :
    readProgram text = ((readDraft text.toList).mapError (.ofFault 1)).bind (checkDraft 1) := by
  have hcut : cutLines text.toList = (text.toList, []) := by
    have hlines := lines_of_notMem h
    unfold lines at hlines
    rw [List.cons.injEq] at hlines
    exact Prod.ext hlines.1 hlines.2
  unfold readProgram
  rw [hcut]
  rfl

theorem readLine_of_visible {line : List Char} (hline : '\n' ∉ line) (hvisible : ¬ Blanks line)
    (hcomment : ¬ CommentForm line) : readLine line = (readDraft line).map some := by
  unfold readLine
  rw [← all_isBlank_iff] at hvisible
  rw [← isComment_iff hline] at hcomment
  rw [if_neg (by simp [hvisible, hcomment])]

/-- Read as a workload, a text of one line holds the program that it is read as, or has the same
fault. -/
theorem readWorkload_of_line {text : String} (hline : '\n' ∉ text.toList)
    (hvisible : ¬ Blanks text.toList) (hcomment : ¬ CommentForm text.toList) :
    readWorkload text = (readProgram text).map fun program => [program] := by
  rw [readWorkload_eq, lines_of_notMem hline, readProgram_of_line hline, readLines, readDrafts,
    readLine_of_visible hline hvisible hcomment]
  cases readDraft text.toList with
  | error fault => rfl
  | ok draft =>
    show checkDrafts [(1, draft)] = (checkDraft 1 draft).map _
    rw [checkDrafts]
    cases checkDraft 1 draft with
    | error e => rfl
    | ok program => rfl

theorem readWorkload_of_readProgram {text : String} {program : Program}
    (h : readProgram text = .ok program) : readWorkload text = .ok [program] := by
  rw [readWorkload_eq, lines]
  unfold readProgram at h
  generalize cutLines text.toList = cut at h ⊢
  obtain ⟨line, others⟩ := cut
  obtain ⟨draft, hdraft, hothers⟩ := bind_eq_ok.1 h
  have hform (hcheck : checkDraft 1 draft = .ok program) : ProgramForm line program.operations :=
    readDraft_eq_ok_iff.1
      ⟨draft, mapError_eq_ok.1 hdraft, (checkDraft_eq_ok_iff.1 hcheck).symm⟩
  split at hothers
  · exact readLines_program (hform hothers) rfl
  · exact readLines_program (hform hothers) rfl
  · cases hothers

/-- **Programs and workloads are read alike.** A text that is read as one program is read as the
workload of that program. A text of one line that is neither blank nor a comment is read as a
program if and only if it is read as a workload, and if not both have the same fault at the same
place. -/
theorem program_workload_agree (text : String) :
    (∀ program, readProgram text = .ok program → readWorkload text = .ok [program]) ∧
    ('\n' ∉ text.toList → (∃ c ∈ text.toList, c ≠ ' ' ∧ c ≠ '\t') →
      (∀ a rest, text.toList = a ++ ['/', '/'] ++ rest → ¬ Blanks a) →
      readWorkload text = (readProgram text).map fun program => [program]) := by
  refine ⟨fun program h => readWorkload_of_readProgram h, fun hline hvisible hstart => ?_⟩
  refine readWorkload_of_line hline ?_ ?_
  · obtain ⟨c, hc, hspace, htab⟩ := hvisible
    exact fun hblanks => (hblanks c hc).elim hspace htab
  · generalize text.toList = s at hstart
    rintro ⟨ha, -, -⟩
    exact hstart _ _ rfl ha

/-- A program on a line with an ending, a comment after an operation and a commit too many. -/
theorem program_workload_agree_faults :
    readWorkload "\tR(1) ; C \r\n" = .ok [⟨[.read 1, .commit], by decide⟩] ∧
    readWorkload "C // C" = (readProgram "C // C").map (fun program => [program]) ∧
    readProgram "C // C" = .error ⟨"expected `;` or end of line", 1, 3⟩ ∧
    readWorkload "C;C" = (readProgram "C;C").map (fun program => [program]) ∧
    readProgram "C;C" =
      .error ⟨"commit at position 0 is followed by more operations", 1, 1⟩ := by
  have hprogram : readProgram "\tR(1) ; C \r\n" = .ok ⟨[.read 1, .commit], by decide⟩ := by
    decide +kernel
  have hstart : ∀ s a rest : List Char, 'C' :: s = a ++ ['/', '/'] ++ rest → ¬ Blanks a := by
    intro s a rest h hblanks
    cases a with
    | nil => cases h
    | cons c a =>
      cases h
      exact absurd (hblanks 'C' List.mem_cons_self) (by decide)
  refine ⟨(program_workload_agree _).1 _ hprogram, ?_, by decide +kernel, ?_, by decide +kernel⟩
  · exact (program_workload_agree _).2 (by decide) ⟨'C', by decide⟩
      (hstart [' ', '/', '/', ' ', 'C'])
  · exact (program_workload_agree _).2 (by decide) ⟨'C', by decide⟩ (hstart [';', 'C'])

/-! ## Lists of operations -/

def operationsText (ops : List Operation) : String := ";".intercalate (ops.map Operation.text)

/-- The text of operations is refused if the operations are, and blamed from its first character
on. -/
theorem readProgram_operations {ops : List Operation} (h : ops ≠ []) :
    readProgram (operationsText ops) =
      (Program.ofOperations ops).mapError fun e => ⟨e.message, 1, 1⟩ := by
  have hform : OperationsForm (operationsText ops).toList ops := operationsForm_text h
  obtain ⟨c, rest, hstart, hc, -⟩ := hform.exists_cons
  have hline : ProgramForm (operationsText ops).toList ops := by
    simpa using ProgramForm.line blanks_nil hform blanks_nil
  obtain ⟨draft, hdraft, hops⟩ := readDraft_eq_ok_iff.2 hline
  have hoffset : draft.offset = 0 := readDraft_offset blanks_nil hc (hstart ▸ hdraft)
  rw [readProgram_of_line hform.inline.1, hdraft]
  show checkDraft 1 draft = _
  rw [checkDraft, hops, hoffset]
  rfl

theorem readProgram_operations_eq_ok {ops : List Operation} {program : Program} :
    readProgram (operationsText ops) = .ok program ↔ Program.ofOperations ops = .ok program := by
  cases ops with
  | nil =>
    have hempty : readProgram (operationsText []) = .error (.ofFault 1 ⟨0, .noOperation⟩) := by
      decide +kernel
    rw [hempty]
    exact iff_of_false nofun nofun
  | cons op ops => rw [readProgram_operations (List.cons_ne_nil op ops), mapError_eq_ok]

/-- **Three ways in.** Operations are accepted as a list, as a text and as JSON alike: if the last
one is a commit and no other one is, and then as the program that has them. Others are refused, in a
text with the words for what is wrong with the list, at its first character. -/
theorem ways_in_agree (ops : List Operation) :
    ((∃ program, Program.ofOperations ops = .ok program) ↔
      ∃ before, ops = before ++ [.commit] ∧ .commit ∉ before) ∧
    (∀ program, Program.ofOperations ops = .ok program → program.operations = ops) ∧
    (∀ program, readProgram (operationsText ops) = .ok program ↔
      Program.ofOperations ops = .ok program) ∧
    (∀ program, Program.ofJson? (.ofList Operation.toJson ops) = some program ↔
      Program.ofOperations ops = .ok program) ∧
    (ops ≠ [] → ∀ e, Program.ofOperations ops = .error e →
      readProgram (operationsText ops) = .error ⟨e.message, 1, 1⟩) := by
  refine ⟨Program.exists_ofOperations_iff, fun program h => Program.ofOperations_eq_ok.1 h,
    fun program => readProgram_operations_eq_ok, fun program => ?_, fun h e he => ?_⟩
  · rw [Program.ofJson?_operations]
    cases Program.ofOperations ops with
    | error e => exact iff_of_false nofun nofun
    | ok p => simp [Except.toOption]
  · rw [readProgram_operations h, he]
    rfl

/-- Two commits, of which the first is blamed. -/
theorem ways_in_agree_twoCommits :
    Program.ofOperations [.write 0 (-5), .commit, .commit] = .error (.operationAfterCommit 1) ∧
    operationsText [.write 0 (-5), .commit, .commit] = "W(0,-5);C;C" ∧
    readProgram (operationsText [.write 0 (-5), .commit, .commit]) =
      .error ⟨"commit at position 1 is followed by more operations", 1, 1⟩ := by
  have herror : Program.ofOperations [.write 0 (-5), .commit, .commit] =
    .error (.operationAfterCommit 1) := by decide
  refine ⟨herror, by decide +kernel, ?_⟩
  exact (ways_in_agree _).2.2.2.2 (by decide) _ herror

end Text

end TwoPhase
