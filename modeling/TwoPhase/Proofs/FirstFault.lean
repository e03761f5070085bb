import TwoPhase.Proofs.Concatenation

/-!
# Which fault is reported

A text can be at fault in two ways: a line is not written as the grammar has it, or the
operations on a line that is are no program. All lines are read before any program is
checked, so a line of the first kind is blamed even if a program before it is of the
second kind. For text that is read up to the end of a line, and then on:

* a badly written line is blamed whatever follows it,
* a bad program is blamed as long as all that follows is well written,
* else the first badly written line after it is blamed (`fault_stays_iff`).
-/

namespace TwoPhase.Text

/-! ## Lines of a text and more text -/

theorem notMem_of_mem_lines {s line : List Char} (h : line ∈ lines s) : '\n' ∉ line := by
  unfold lines at h
  fun_induction cutLines s generalizing line with
  | case1 => simp_all
  | case2 rest first others hcut ih =>
    rw [hcut] at ih
    rcases List.mem_cons.1 h with rfl | h
    · exact List.not_mem_nil
    · exact ih h
  | case3 rest first others hcut _ ih =>
    rw [hcut] at ih
    rcases List.mem_cons.1 h with rfl | h
    · exact List.not_mem_nil
    · exact ih h
  | case4 c rest hne first others hcut hc ih =>
    rw [hcut] at ih
    rcases List.mem_cons.1 h with rfl | h
    · have hfirst := ih List.mem_cons_self
      simp [Ne.symm hc, hfirst]
    · exact ih (List.mem_cons_of_mem _ h)

/-- A newline at the end of a text ends its last line, so more text starts on a new line. -/
theorem exists_cutLines_append {s : List Char} (h : s.getLast? = some '\n') :
    ∃ first others, ∀ b, cutLines (s ++ b) = (first, others ++ lines b) := by
  fun_induction cutLines s with
  | case1 => cases h
  | case2 rest _ _ _ ih =>
    cases rest with
    | nil => exact ⟨[], [], fun b => by simp [cutLines, lines]⟩
    | cons d rest =>
      obtain ⟨first, others, hcut⟩ := ih (by simpa using h)
      refine ⟨[], first :: others, fun b => ?_⟩
      rw [List.cons_append, List.cons_append, cutLines, hcut b]
      rfl
  | case3 rest _ _ _ _ ih =>
    cases rest with
    | nil => exact ⟨[], [], fun b => by simp [cutLines, lines]⟩
    | cons d rest =>
      obtain ⟨first, others, hcut⟩ := ih (by simpa using h)
      refine ⟨[], first :: others, fun b => ?_⟩
      rw [List.cons_append, cutLines, hcut b]
      · exact if_pos rfl
      · exact fun after hr => absurd hr (by decide)
  | case4 c rest hne _ _ _ hc ih =>
    cases rest with
    | nil => exact absurd (Option.some.inj h) hc
    | cons d rest =>
      obtain ⟨first, others, hcut⟩ := ih (by simpa using h)
      refine ⟨c :: first, others, fun b => ?_⟩
      rw [List.cons_append, cutLines, hcut b]
      · exact if_neg hc
      · -- the text after `c` goes on with its own next character
        intro after hr heq
        cases heq
        exact hne rest hr rfl

theorem exists_lines_append {s : List Char} (h : s.getLast? = some '\n') :
    ∃ front, front.length = s.count '\n' ∧ lines s = front ++ [[]] ∧
      ∀ b, lines (s ++ b) = front ++ lines b := by
  obtain ⟨first, others, hcut⟩ := exists_cutLines_append h
  have hlines (b : List Char) : lines (s ++ b) = (first :: others) ++ lines b := by
    rw [lines, hcut b]
    rfl
  have hself : lines s = (first :: others) ++ [[]] := by
    have hnil := hlines []
    rwa [List.append_nil] at hnil
  refine ⟨first :: others, ?_, hself, hlines⟩
  have hlength := length_lines s
  rw [hself] at hlength
  simpa using hlength

/-! ## Well-written lines -/

/-- A line that may stand in a workload as far as the writing goes: its operations need not be a
program. -/
inductive LineForm : List Char → Prop where
  | blanks {s : List Char} : Blanks s → LineForm s
  | comment {s : List Char} : CommentForm s → LineForm s
  | operations {s : List Char} {ops : List Operation} : ProgramForm s ops → LineForm s

theorem exists_readLine_iff {line : List Char} (hline : '\n' ∉ line) :
    (∃ draft?, readLine line = .ok draft?) ↔ LineForm line := by
  constructor
  · rintro ⟨draft?, h⟩
    cases draft? with
    | none => exact ((readLine_eq_none_iff hline).1 h).elim .blanks .comment
    | some draft => exact .operations (readLine_eq_some_iff.1 ⟨draft, h, rfl⟩)
  · rintro (h | h | h)
    · exact ⟨none, (readLine_eq_none_iff hline).2 (.inl h)⟩
    · exact ⟨none, (readLine_eq_none_iff hline).2 (.inr h)⟩
    · obtain ⟨draft, hdraft, -⟩ := readLine_eq_some_iff.2 h
      exact ⟨some draft, hdraft⟩

theorem exists_readDrafts_iff {texts : List (List Char)} (htexts : ∀ line ∈ texts, '\n' ∉ line)
    (n : Nat) : (∃ drafts, readDrafts n texts = .ok drafts) ↔ ∀ line ∈ texts, LineForm line := by
  induction texts generalizing n with
  | nil => simp [readDrafts]
  | cons first rest ih =>
    rw [List.forall_mem_cons] at htexts ⊢
    rw [← exists_readLine_iff htexts.1, ← ih htexts.2 (n + 1), readDrafts]
    cases readLine first with
    | error fault => simp [Except.mapError, bind, Except.bind]
    | ok draft? =>
      cases readDrafts (n + 1) rest with
      | error e => simp [Except.mapError, bind, Except.bind]
      | ok drafts => cases draft? <;> simp [Except.mapError, bind, Except.bind, pure, Except.pure]

/-! ## Where faults are -/

theorem readDrafts_line_lt {n : Nat} {texts : List (List Char)} {drafts : List (Nat × Draft)}
    (h : readDrafts n texts = .ok drafts) : ∀ draft ∈ drafts, draft.1 < n + texts.length := by
  induction texts generalizing n drafts with
  | nil =>
    cases h
    simp
  | cons first rest ih =>
    simp only [readDrafts, bind_eq_ok] at h
    obtain ⟨draft?, -, later, hlater, heq⟩ := h
    have hrest : ∀ draft ∈ later, draft.1 < n + (first :: rest).length := by
      intro draft hmem
      have := ih hlater draft hmem
      rw [List.length_cons]
      omega
    cases draft? with
    | none =>
      cases heq
      exact hrest
    | some draft =>
      cases heq
      rw [List.forall_mem_cons]
      exact ⟨by simp, hrest⟩

theorem le_line_of_readDrafts {n : Nat} {texts : List (List Char)} {e : ParseError}
    (h : readDrafts n texts = .error e) : n ≤ e.line := by
  induction texts generalizing n with
  | nil => cases h
  | cons first rest ih =>
    rw [readDrafts] at h
    cases hfirst : readLine first with
    | error fault =>
      rw [hfirst] at h
      cases h
      exact Nat.le_refl n
    | ok draft? =>
      cases hrest : readDrafts (n + 1) rest with
      | error e' =>
        rw [hfirst, hrest] at h
        cases h
        exact Nat.le_of_succ_le (ih hrest)
      | ok drafts =>
        rw [hfirst, hrest] at h
        cases draft? <;> cases h

theorem exists_line_of_checkDrafts {drafts : List (Nat × Draft)} {e : ParseError}
    (h : checkDrafts drafts = .error e) : ∃ draft ∈ drafts, e.line = draft.1 := by
  induction drafts with
  | nil => cases h
  | cons numbered rest ih =>
    obtain ⟨n, draft⟩ := numbered
    rw [checkDrafts] at h
    cases hfirst : Program.ofOperations draft.operations with
    | error error =>
      rw [checkDraft, hfirst] at h
      cases h
      exact ⟨(n, draft), List.mem_cons_self, rfl⟩
    | ok program =>
      cases hrest : checkDrafts rest with
      | error e' =>
        rw [checkDraft, hfirst, hrest] at h
        cases h
        obtain ⟨later, hmem, hline⟩ := ih hrest
        exact ⟨later, List.mem_cons_of_mem _ hmem, hline⟩
      | ok programs =>
        rw [checkDraft, hfirst, hrest] at h
        cases h

/-! ## Reading on after a fault -/

theorem readLines_append_of_malformed {n : Nat} {front : List (List Char)} {e : ParseError}
    (h : readDrafts n front = .error e) (later : List (List Char)) :
    readLines n (front ++ later) = .error e := by
  rw [readLines, readDrafts_append, h]
  rfl

/-- Behind lines that are well written, a badly written line is what is blamed; if there is none,
the fault is the one that the programs had before. -/
theorem readLines_append_of_written {n : Nat} {front : List (List Char)}
    {drafts : List (Nat × Draft)} {e : ParseError} (h : readDrafts n front = .ok drafts)
    (hcheck : checkDrafts drafts = .error e) (later : List (List Char)) :
    readLines n (front ++ later) =
      (readDrafts (n + front.length) later).bind fun _ => .error e := by
  rw [readLines, readDrafts_append, h]
  cases readDrafts (n + front.length) later with
  | error e' => rfl
  | ok others =>
    show checkDrafts (drafts ++ others) = .error e
    rw [checkDrafts_append, hcheck]
    rfl

/-- What a fault of a text becomes when the text goes on: nothing, if a line was badly written, and
else it depends on the lines that follow. -/
theorem readWorkload_append_cases {a : String} {e : ParseError}
    (hend : a.toList.getLast? = some '\n') (ha : readWorkload a = .error e) :
    ((∃ line ∈ lines a.toList, ¬ LineForm line) ∧ ∀ b, readWorkload (a ++ b) = .error e) ∨
    ((∀ line ∈ lines a.toList, LineForm line) ∧ e.line ≤ a.toList.count '\n' ∧
      ∀ b, readWorkload (a ++ b) =
        (readDrafts (1 + a.toList.count '\n') (lines b.toList)).bind fun _ => .error e) := by
  obtain ⟨front, hlength, hself, happend⟩ := exists_lines_append hend
  have hread (b : String) : readWorkload (a ++ b) = readLines 1 (front ++ lines b.toList) := by
    rw [readWorkload_eq, String.toList_append, happend]
  rw [readWorkload_eq, hself] at ha
  have hfront : ∀ line ∈ front, '\n' ∉ line := by
    intro line hmem
    refine notMem_of_mem_lines (s := a.toList) ?_
    rw [hself]
    exact List.mem_append_left _ hmem
  cases hdrafts : readDrafts 1 front with
  | error e' =>
    rw [readLines_append_of_malformed hdrafts] at ha
    cases ha
    have hbad : ¬ ∀ line ∈ front, LineForm line := by
      rw [← exists_readDrafts_iff hfront 1, hdrafts]
      simp
    simp only [not_forall] at hbad
    obtain ⟨line, hmem, hline⟩ := hbad
    refine .inl ⟨⟨line, ?_, hline⟩, fun b => ?_⟩
    · rw [hself]
      exact List.mem_append_left _ hmem
    · rw [hread, readLines_append_of_malformed hdrafts]
  | ok drafts =>
    have hcheck : checkDrafts drafts = .error e := by
      rw [readLines, readDrafts_append, hdrafts] at ha
      simpa [readDrafts, readLine, isComment, Except.mapError, bind, Except.bind, pure, Except.pure,
        Except.map] using ha
    refine .inr ⟨?_, ?_, fun b => ?_⟩
    · rw [hself, List.forall_mem_append]
      refine ⟨(exists_readDrafts_iff hfront 1).1 ⟨drafts, hdrafts⟩, ?_⟩
      simpa using LineForm.blanks blanks_nil
    · obtain ⟨draft, hmem, hline⟩ := exists_line_of_checkDrafts hcheck
      have := readDrafts_line_lt hdrafts draft hmem
      omega
    · rw [hread, readLines_append_of_written hdrafts hcheck, hlength]

/-- **Which fault is reported.** A text with a fault stays faulty when more text follows its last
line, and the fault stays the same exactly if one of its own lines is badly written or no line that
follows is. Else a bad program was blamed, and the first badly written line that follows is blamed
instead. -/
theorem fault_stays_iff {a : String} {e : ParseError} (hend : a.toList.getLast? = some '\n')
    (ha : readWorkload a = .error e) (b : String) :
    (readWorkload (a ++ b) = .error e ↔
      (∃ line ∈ lines a.toList, ¬ LineForm line) ∨ ∀ line ∈ lines b.toList, LineForm line) ∧
    (readWorkload (a ++ b) ≠ .error e → ∃ e', readWorkload b = .error e' ∧
      readWorkload (a ++ b) = .error { e' with line := e'.line + a.toList.count '\n' }) := by
  rcases readWorkload_append_cases hend ha with ⟨hbad, hall⟩ | ⟨hgood, hline, hall⟩
  · rw [hall b]
    exact ⟨iff_of_true rfl (.inl hbad), fun hne => absurd rfl hne⟩
  · have hnone : ¬ ∃ line ∈ lines a.toList, ¬ LineForm line :=
      fun ⟨line, hmem, hbad⟩ => hbad (hgood line hmem)
    rw [hall b, or_iff_right hnone,
      ← exists_readDrafts_iff (fun _ => notMem_of_mem_lines) (1 + a.toList.count '\n')]
    cases hb : readDrafts (1 + a.toList.count '\n') (lines b.toList) with
    | ok drafts => exact ⟨iff_of_true rfl ⟨drafts, rfl⟩, fun hne => absurd rfl hne⟩
    | error e' =>
      have hbelow := le_line_of_readDrafts hb
      refine ⟨iff_of_false (fun h => ?_) (by simp), fun _ => ?_⟩
      · cases h
        omega
      · rw [readDrafts_shift] at hb
        cases hfirst : readDrafts 1 (lines b.toList) with
        | ok drafts =>
          rw [hfirst] at hb
          cases hb
        | error first =>
          rw [hfirst] at hb
          cases hb
          refine ⟨first, ?_, rfl⟩
          rw [readWorkload_eq, readLines, hfirst]
          rfl

/-- A program without commit is blamed before a good program, and an operation that breaks off is
blamed before a program without commit. -/
theorem fault_stays_iff_mixed :
    readWorkload ("C\n R(1)\n" ++ "C\n") =
      .error ⟨"program of 1 operations does not end with a commit", 2, 2⟩ ∧
    readWorkload ("R(\n" ++ "R(1)") =
      .error ⟨"expected record id, R(record), W(record,value) or C", 1, 3⟩ := by
  have hcommit : readWorkload "C\n R(1)\n" =
    .error ⟨"program of 1 operations does not end with a commit", 2, 2⟩ := by decide +kernel
  have hrecord : readWorkload "R(\n" =
    .error ⟨"expected record id, R(record), W(record,value) or C", 1, 3⟩ := by decide +kernel
  constructor
  · refine (fault_stays_iff (by decide) hcommit "C\n").1.2 (.inr ?_)
    have hlines : lines "C\n".toList = [['C'], []] := by decide
    have hprogram : ProgramForm ['C'] [.commit] := .line blanks_nil (.one .commit) blanks_nil
    rw [hlines]
    simpa using ⟨LineForm.operations hprogram, LineForm.blanks blanks_nil⟩
  · refine (fault_stays_iff (by decide) hrecord "R(1)").1.2 (.inl ⟨['R', '('], by decide, ?_⟩)
    rw [← exists_readLine_iff (by decide)]
    have hbroken : readLine ['R', '('] = .error ⟨2, .broken .record⟩ := by decide +kernel
    simp [hbroken]

/-- A program without commit is no longer blamed once a line after it is badly written. -/
theorem fault_moves :
    ¬ ∀ (a b : String) (e : ParseError), a.toList.getLast? = some '\n' →
      readWorkload a = .error e → readWorkload (a ++ b) = .error e := by
  intro h
  have hcommit : readWorkload "R(1)\n" =
    .error ⟨"program of 1 operations does not end with a commit", 1, 1⟩ := by decide +kernel
  have hmoved : readWorkload ("R(1)\n" ++ "X") =
    .error ⟨"expected R(record), W(record,value) or C", 2, 1⟩ := by decide +kernel
  have hstays := h "R(1)\n" "X" _ (by decide) hcommit
  rw [hmoved] at hstays
  simp at hstays

end TwoPhase.Text
