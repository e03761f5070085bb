import TwoPhase.Text.Workload
import TwoPhase.Proofs.Reading

/-!
# Reading workloads

A line is cut at its semicolons before anything is read. No operation holds one, so
the parts are the operations (`programForm_iff`), and each is read by itself. In the
same way a text is cut into lines before any is read: no line that the grammar
allows holds a part of a line ending (`Inline`), so the cuts are where lines end
(`lines_append`, `lines_cases`).

* `readLine_eq_none_iff`, `readLine_eq_some_iff`: what one line holds.
* `readLines_of_form`, `form_of_readLines`: the two directions for a whole text, by
  induction on its form and on its lines.
* `readWorkload_eq_ok_iff`: a workload is read exactly as the grammar says.
-/

namespace TwoPhase

theorem Program.ofOperations_eq_ok {ops : List Operation} {program : Program} :
    Program.ofOperations ops = .ok program ↔ program.operations = ops := by
  unfold ofOperations
  constructor
  · intro h
    split at h
    · split at h
      · cases h
        rfl
      · cases h
    · cases h
  · rintro rfl
    rw [dif_pos program.commitsLast.1, dif_pos program.commitsLast.2]

end TwoPhase

namespace TwoPhase.Text

/-! ## Lines of operations -/

def PartForm (s : List Char) (op : Operation) : Prop :=
  ∃ a form b, Blanks a ∧ OperationForm form op ∧ Blanks b ∧ s = a ++ form ++ b

theorem readPart_eq_ok_iff {s : List Char} {op : Operation} :
    readPart s = .ok op ↔ PartForm s op := by
  constructor
  · intro h
    obtain ⟨⟨op', rest⟩, hop, hrest⟩ := bind_eq_ok.1 h
    obtain ⟨a, ha, hs⟩ := exists_skipBlanks s
    obtain ⟨form, hform, hskip⟩ := readOperation_sound hop
    cases hb : skipBlanks rest with
    | nil =>
      simp only [hb] at hrest
      cases hrest
      exact ⟨a, form, rest, ha, hform, skipBlanks_eq_nil.1 hb,
        by rw [List.append_assoc, ← hskip]; exact hs⟩
    | cons c after =>
      simp only [hb] at hrest
      cases hrest
  · rintro ⟨a, form, b, ha, hform, hb, rfl⟩
    obtain ⟨c, rest, hcons, hc, -⟩ := hform.exists_cons
    have hskip : skipBlanks (a ++ form ++ b) = form ++ b := by
      rw [List.append_assoc, skipBlanks_append ha, hcons]
      exact skipBlanks_cons hc _
    refine bind_eq_ok.2 ⟨(op, b), hskip ▸ readOperation_append hform b, ?_⟩
    simp only [skipBlanks_eq_nil.2 hb]
    rfl

theorem PartForm.notMem {s : List Char} {op : Operation} (h : PartForm s op) {c : Char}
    (hc : ¬ Plain [c]) : c ∉ s := by
  obtain ⟨a, form, b, ha, hform, hb, rfl⟩ := h
  exact ((ha.plain.append hform.plain).append hb.plain).notMem hc

def parts (mark : Char) (s : List Char) : List (List Char) :=
  (cutAt mark s).1 :: (cutAt mark s).2

theorem parts_of_notMem {mark : Char} {s : List Char} (h : mark ∉ s) : parts mark s = [s] := by
  induction s with
  | nil => rfl
  | cons c rest ih =>
    rw [List.mem_cons, not_or] at h
    have hrest := ih h.2
    unfold parts at hrest ⊢
    rw [List.cons.injEq] at hrest
    simp only [cutAt, if_neg (Ne.symm h.1), hrest]

theorem parts_append {mark : Char} {s : List Char} (h : mark ∉ s) (rest : List Char) :
    parts mark (s ++ [mark] ++ rest) = s :: parts mark rest := by
  induction s with
  | nil => simp [parts, cutAt]
  | cons c s ih =>
    rw [List.mem_cons, not_or] at h
    have hs := ih h.2
    unfold parts at hs ⊢
    rw [List.cons.injEq] at hs
    simp only [List.cons_append, cutAt, if_neg (Ne.symm h.1), hs]

theorem parts_cases (mark : Char) (s : List Char) :
    parts mark s = [s] ∨
      ∃ first rest, s = first ++ [mark] ++ rest ∧ parts mark s = first :: parts mark rest := by
  by_cases h : mark ∈ s
  · obtain ⟨first, rest, rfl, hfirst⟩ := List.eq_append_cons_of_mem h
    refine .inr ⟨first, rest, by simp, ?_⟩
    rw [← parts_append hfirst rest]
    simp
  · exact .inl (parts_of_notMem h)

theorem PartForm.programForm {s : List Char} {op : Operation} (h : PartForm s op) :
    ProgramForm s [op] := by
  obtain ⟨a, form, b, ha, hform, hb, rfl⟩ := h
  exact .line ha (.one hform) hb

theorem PartForm.programForm_append {s rest : List Char} {op : Operation} {ops : List Operation}
    (h : PartForm s op) (hrest : ProgramForm rest ops) :
    ProgramForm (s ++ [';'] ++ rest) (op :: ops) := by
  obtain ⟨a, form, b, ha, hform, hb, rfl⟩ := h
  cases hrest with
  | @line c body d _ hc hbody hd =>
    have hline : a ++ form ++ b ++ [';'] ++ (c ++ body ++ d) =
        a ++ (form ++ b ++ [';'] ++ c ++ body) ++ d := by simp
    rw [hline]
    exact .line ha (.more hform hb hc hbody) hd

theorem programForm_iff {s : List Char} {ops : List Operation} :
    ProgramForm s ops ↔ List.Forall₂ PartForm (parts ';' s) ops := by
  constructor
  · rintro ⟨ha, hbody, hb⟩
    rename_i a body b
    induction hbody generalizing a with
    | one hop =>
      have hpart : PartForm _ _ := ⟨_, _, _, ha, hop, hb, rfl⟩
      rw [parts_of_notMem (hpart.notMem (by decide))]
      exact .cons hpart .nil
    | @more form c d rest op ops hop hc hd _ ih =>
      have hpart : PartForm (a ++ form ++ c) op := ⟨_, _, _, ha, hop, hc, rfl⟩
      have hline : a ++ (form ++ c ++ [';'] ++ d ++ rest) ++ b =
          a ++ form ++ c ++ [';'] ++ (d ++ rest ++ b) := by simp
      rw [hline, parts_append (hpart.notMem (by decide))]
      exact .cons hpart (ih hd)
  · intro h
    induction ops generalizing s with
    | nil => cases h
    | cons op ops ih =>
      rcases parts_cases ';' s with hone | ⟨first, rest, rfl, hmore⟩
      · rw [hone] at h
        cases h with
        | cons hpart hnil =>
          cases hnil
          exact hpart.programForm
      · rw [hmore] at h
        cases h with
        | cons hpart hrest => exact hpart.programForm_append (ih hrest)

theorem readParts_eq_ok_iff {offset : Nat} {texts : List (List Char)} {ops : List Operation} :
    readParts offset texts = .ok ops ↔ List.Forall₂ PartForm texts ops := by
  induction texts generalizing offset ops with
  | nil =>
    simp only [readParts, Except.ok.injEq, List.forall₂_nil_left_iff]
    exact eq_comm
  | cons part rest ih =>
    unfold readParts
    rw [List.forall₂_cons_left_iff]
    constructor
    · intro h
      split at h
      · cases h
      · cases h
      · next op hop =>
        obtain ⟨later, hlater, rfl⟩ := map_eq_ok.1 h
        exact ⟨op, later, readPart_eq_ok_iff.1 hop, ih.1 hlater, rfl⟩
    · rintro ⟨op, later, hop, hlater, rfl⟩
      rw [readPart_eq_ok_iff.2 hop]
      exact map_eq_ok.2 ⟨later, ih.2 hlater, rfl⟩

theorem readDraft_eq_ok_iff {line : List Char} {ops : List Operation} :
    (∃ draft, readDraft line = .ok draft ∧ draft.operations = ops) ↔ ProgramForm line ops := by
  rw [programForm_iff, parts, List.forall₂_cons_left_iff]
  unfold readDraft
  obtain ⟨part, rest⟩ := cutAt ';' line
  simp only
  constructor
  · rintro ⟨draft, h, rfl⟩
    split at h
    · cases h
    · next op hop =>
      obtain ⟨later, hlater, rfl⟩ := map_eq_ok.1 h
      exact ⟨op, later, readPart_eq_ok_iff.1 hop, readParts_eq_ok_iff.1 hlater, rfl⟩
  · rintro ⟨op, later, hop, hlater, rfl⟩
    simp only [readPart_eq_ok_iff.2 hop]
    exact ⟨_, map_eq_ok.2 ⟨later, readParts_eq_ok_iff.2 hlater, rfl⟩, rfl⟩

theorem isComment_iff {line : List Char} (hline : '\n' ∉ line) :
    isComment line = true ↔ CommentForm line := by
  unfold isComment
  constructor
  · intro h
    obtain ⟨a, ha, hs⟩ := exists_skipBlanks line
    split at h
    · next body hskip =>
      rw [hskip] at hs
      have hbody : '\n' ∉ body := fun hmem => hline (by rw [hs]; simp [hmem])
      have hform := CommentForm.line ha hbody (by simpa using h)
      rw [List.append_assoc] at hform
      exact hs ▸ hform
    · cases h
  · rintro ⟨ha, -, hbody⟩
    rw [List.append_assoc, skipBlanks_append ha]
    simpa [skipBlanks, isBlank] using hbody

theorem OperationsForm.exists_cons {s : List Char} {ops : List Operation}
    (h : OperationsForm s ops) : ∃ c rest, s = c :: rest ∧ isBlank c = false ∧ c ≠ '/' := by
  cases h with
  | one hop => exact hop.exists_cons
  | more hop =>
    obtain ⟨c, rest, rfl, hc⟩ := hop.exists_cons
    exact ⟨c, _, rfl, hc⟩

theorem ProgramForm.skipBlanks {s : List Char} {ops : List Operation} (h : ProgramForm s ops) :
    ∃ c rest, skipBlanks s = c :: rest ∧ c ≠ '/' := by
  cases h with
  | @line a body b _ ha hbody hb =>
    obtain ⟨c, rest, rfl, hc, hslash⟩ := hbody.exists_cons
    rw [List.append_assoc, skipBlanks_append ha, List.cons_append, skipBlanks_cons hc]
    exact ⟨c, _, rfl, hslash⟩

theorem all_isBlank_iff {s : List Char} : s.all isBlank = true ↔ Blanks s := by
  rw [List.all_eq_true]
  exact forall₂_congr fun c _ => isBlank_iff

theorem readLine_eq_none_iff {line : List Char} (hline : '\n' ∉ line) :
    readLine line = .ok none ↔ Blanks line ∨ CommentForm line := by
  rw [← all_isBlank_iff, ← isComment_iff hline, ← Bool.or_eq_true]
  unfold readLine
  split
  · next h => exact iff_of_true rfl h
  · next h =>
    refine iff_of_false (fun hmap => ?_) h
    obtain ⟨draft, -, hnone⟩ := map_eq_ok.1 hmap
    cases hnone

theorem readLine_eq_some_iff {line : List Char} {ops : List Operation} :
    (∃ draft, readLine line = .ok (some draft) ∧ draft.operations = ops) ↔
      ProgramForm line ops := by
  rw [← readDraft_eq_ok_iff]
  unfold readLine
  constructor
  · rintro ⟨draft, h, rfl⟩
    split at h
    · cases h
    · obtain ⟨draft', hdraft, heq⟩ := map_eq_ok.1 h
      cases heq
      exact ⟨draft, hdraft, rfl⟩
  · rintro ⟨draft, h, rfl⟩
    obtain ⟨c, rest, hskip, hc⟩ := (readDraft_eq_ok_iff.1 ⟨draft, h, rfl⟩).skipBlanks
    have hblank : ¬ line.all isBlank = true := fun hall => by
      rw [skipBlanks_eq_nil.2 (all_isBlank_iff.1 hall)] at hskip
      cases hskip
    have hcomment : ¬ isComment line = true := fun hcomment => by
      unfold isComment at hcomment
      split at hcomment
      · next heq =>
        rw [hskip] at heq
        exact hc (List.cons.inj heq).1
      · cases hcomment
    rw [if_neg (by simp [hblank, hcomment])]
    exact ⟨draft, map_eq_ok.2 ⟨draft, h, rfl⟩, rfl⟩

/-! ## Lines of a text -/

/-- The text has no part of a line ending in it. -/
def Inline (s : List Char) : Prop := '\n' ∉ s ∧ '\r' ∉ s

theorem Plain.inline {s : List Char} (h : Plain s) : Inline s :=
  ⟨h.notMem (by decide), h.notMem (by decide)⟩

theorem Inline.append {s s' : List Char} (h : Inline s) (h' : Inline s') : Inline (s ++ s') := by
  unfold Inline
  simp only [List.mem_append, not_or]
  exact ⟨⟨h.1, h'.1⟩, h.2, h'.2⟩

theorem CommentForm.inline {s : List Char} (h : CommentForm s) : Inline s := by
  cases h with
  | line ha hn hr => exact (ha.plain.inline.append (by unfold Inline; decide)).append ⟨hn, hr⟩

theorem OperationsForm.inline {s : List Char} {ops : List Operation} (h : OperationsForm s ops) :
    Inline s := by
  induction h with
  | one hop => exact hop.plain.inline
  | more hop ha hb _ ih =>
    have hmark : Inline [';'] := by unfold Inline; decide
    exact (((hop.plain.inline.append ha.plain.inline).append hmark).append
      hb.plain.inline).append ih

theorem ProgramForm.inline {s : List Char} {ops : List Operation} (h : ProgramForm s ops) :
    Inline s := by
  cases h with
  | line ha hbody hb => exact (ha.plain.inline.append hbody.inline).append hb.plain.inline

def lines (s : List Char) : List (List Char) := (cutLines s).1 :: (cutLines s).2

theorem cutLines_cons {c : Char} (hn : c ≠ '\n') (hr : c ≠ '\r') (s : List Char) :
    cutLines (c :: s) = (c :: (cutLines s).1, (cutLines s).2) := by
  rw [cutLines]
  · exact if_neg hn
  · intro rest hc
    exact absurd hc hr

theorem lines_of_inline {s : List Char} (h : Inline s) : lines s = [s] := by
  induction s with
  | nil => rfl
  | cons c s ih =>
    obtain ⟨hn, hr⟩ := h
    rw [List.mem_cons, not_or] at hn hr
    have hs := ih ⟨hn.2, hr.2⟩
    unfold lines at hs ⊢
    rw [List.cons.injEq] at hs
    rw [cutLines_cons (Ne.symm hn.1) (Ne.symm hr.1), hs.1, hs.2]

theorem lines_append {s e : List Char} (h : Inline s) (he : LineEnd e) (rest : List Char) :
    lines (s ++ e ++ rest) = s :: lines rest := by
  induction s with
  | nil => cases he <;> simp [lines, cutLines]
  | cons c s ih =>
    obtain ⟨hn, hr⟩ := h
    rw [List.mem_cons, not_or] at hn hr
    have hs := ih ⟨hn.2, hr.2⟩
    unfold lines at hs ⊢
    rw [List.cons.injEq] at hs
    rw [List.cons_append, List.cons_append, cutLines_cons (Ne.symm hn.1) (Ne.symm hr.1), hs.1, hs.2]

theorem lines_cases (s : List Char) : ∃ first, '\n' ∉ first ∧
    (s = first ∧ lines s = [first] ∨
      ∃ e rest, LineEnd e ∧ s = first ++ e ++ rest ∧ lines s = first :: lines rest) := by
  unfold lines
  fun_induction cutLines s with
  | case1 => exact ⟨[], by simp, .inl ⟨rfl, rfl⟩⟩
  | case2 rest first others hcut ih =>
    refine ⟨[], by simp, .inr ⟨_, rest, .return_newline, rfl, ?_⟩⟩
    rw [hcut]
  | case3 rest first others hcut _ ih =>
    refine ⟨[], by simp, .inr ⟨_, rest, .newline, rfl, ?_⟩⟩
    rw [hcut]
  | case4 c rest hne first others hcut hc ih =>
    rw [hcut] at ih
    obtain ⟨first', hn, hcases⟩ := ih
    refine ⟨c :: first', by simp [Ne.symm hc, hn], ?_⟩
    rcases hcases with ⟨rfl, hone⟩ | ⟨e, after, he, rfl, hmore⟩
    · cases hone
      exact .inl ⟨rfl, rfl⟩
    · cases hmore
      exact .inr ⟨e, after, he, rfl, rfl⟩

/-! ## Workloads -/

def readLines (line : Nat) (texts : List (List Char)) : Except ParseError (List Program) := do
  checkDrafts (← readDrafts line texts)

theorem readWorkload_eq (text : String) : readWorkload text = readLines 1 (lines text.toList) := rfl

theorem checkDraft_eq_ok_iff {line : Nat} {draft : Draft} {program : Program} :
    checkDraft line draft = .ok program ↔ program.operations = draft.operations := by
  unfold checkDraft
  rw [mapError_eq_ok, Program.ofOperations_eq_ok]

/-- The first line holds no program, or one that comes before those of the other lines. -/
theorem readLines_cons {line : Nat} {first : List Char} {rest : List (List Char)}
    {programs : List Program} :
    readLines line (first :: rest) = .ok programs ↔
      (readLine first = .ok none ∧ readLines (line + 1) rest = .ok programs) ∨
      ∃ draft program later, readLine first = .ok (some draft) ∧
        program.operations = draft.operations ∧ readLines (line + 1) rest = .ok later ∧
        programs = program :: later := by
  unfold readLines
  simp only [readDrafts, bind_eq_ok, mapError_eq_ok]
  constructor
  · rintro ⟨drafts, ⟨draft?, hfirst, later, hrest, hdrafts⟩, hcheck⟩
    cases draft? with
    | none =>
      cases hdrafts
      exact .inl ⟨hfirst, drafts, hrest, hcheck⟩
    | some draft =>
      cases hdrafts
      simp only [checkDrafts, bind_eq_ok, checkDraft_eq_ok_iff] at hcheck
      obtain ⟨program, hprogram, others, hothers, heq⟩ := hcheck
      cases heq
      exact .inr ⟨draft, program, others, hfirst, hprogram, ⟨later, hrest, hothers⟩, rfl⟩
  · rintro (⟨hfirst, drafts, hrest, hcheck⟩ | ⟨draft, program, others, hfirst, hprogram,
      ⟨later, hrest, hothers⟩, rfl⟩)
    · exact ⟨drafts, ⟨none, hfirst, drafts, hrest, rfl⟩, hcheck⟩
    · refine ⟨(line, draft) :: later, ⟨some draft, hfirst, later, hrest, rfl⟩, ?_⟩
      simp only [checkDrafts, bind_eq_ok, checkDraft_eq_ok_iff]
      exact ⟨program, hprogram, others, hothers, rfl⟩

theorem readLines_skip {line : Nat} {first : List Char} {rest : List (List Char)}
    {programs : List Program} (hfirst : readLine first = .ok none)
    (h : readLines (line + 1) rest = .ok programs) :
    readLines line (first :: rest) = .ok programs := readLines_cons.2 (.inl ⟨hfirst, h⟩)

theorem readLines_program {line : Nat} {first : List Char} {rest : List (List Char)}
    {program : Program} {programs : List Program} (hfirst : ProgramForm first program.operations)
    (h : readLines (line + 1) rest = .ok programs) :
    readLines line (first :: rest) = .ok (program :: programs) := by
  obtain ⟨draft, hdraft, hops⟩ := readLine_eq_some_iff.2 hfirst
  exact readLines_cons.2 (.inr ⟨draft, program, programs, hdraft, hops.symm, h, rfl⟩)

theorem readLines_ends {line : Nat} {s e rest : List Char} {programs : List Program}
    (hs : Inline s) (he : Ends e rest) :
    readLines line (lines (s ++ e ++ rest)) = .ok programs ↔
      readLines line (s :: lines rest) = .ok programs := by
  rcases he with he | ⟨rfl, rfl⟩
  · rw [lines_append hs he]
  · rw [List.append_nil, List.append_nil, lines_of_inline hs, readLines_cons, readLines_cons]
    rfl

/-- Reading accepts all that the grammar allows. -/
theorem readLines_of_form {s : List Char} {programs : List Program} (h : WorkloadForm s programs)
    (line : Nat) : readLines line (lines s) = .ok programs := by
  induction h generalizing line with
  | blanks hs =>
    have hskip := (readLine_eq_none_iff hs.plain.inline.1).2 (.inl hs)
    rw [lines_of_inline hs.plain.inline]
    exact readLines_skip hskip rfl
  | comment hs he _ ih =>
    have hskip := (readLine_eq_none_iff hs.inline.1).2 (.inr hs)
    exact (readLines_ends hs.inline he).2 (readLines_skip hskip (ih _))
  | empty hs he _ ih =>
    have hskip := (readLine_eq_none_iff hs.plain.inline.1).2 (.inl hs)
    exact (readLines_ends hs.plain.inline (.inl he)).2 (readLines_skip hskip (ih _))
  | program hs he _ ih => exact (readLines_ends hs.inline he).2 (readLines_program hs (ih _))

theorem WorkloadForm.eq_nil {programs : List Program} (h : WorkloadForm [] programs) :
    programs = [] := (Except.ok.inj (readLines_of_form h 1)).symm

theorem WorkloadForm.line {line : Nat} {first e rest : List Char} {texts : List (List Char)}
    {programs : List Program} (hn : '\n' ∉ first) (he : Ends e rest)
    (hrest : ∀ later, readLines (line + 1) texts = .ok later → WorkloadForm rest later)
    (h : readLines line (first :: texts) = .ok programs) :
    WorkloadForm (first ++ e ++ rest) programs := by
  rcases readLines_cons.1 h with ⟨hnone, hlater⟩ | ⟨draft, program, later, hsome, hops, hlater, rfl⟩
  · rcases (readLine_eq_none_iff hn).1 hnone with hblanks | hcomment
    · rcases he with he | ⟨rfl, rfl⟩
      · exact .empty hblanks he (hrest _ hlater)
      · rw [(hrest _ hlater).eq_nil, List.append_nil, List.append_nil]
        exact .blanks hblanks
    · exact .comment hcomment he (hrest _ hlater)
  · exact .program (readLine_eq_some_iff.1 ⟨draft, hsome, hops.symm⟩) he (hrest _ hlater)

/-- Reading accepts nothing else. -/
theorem form_of_readLines {line : Nat} {s : List Char} {texts : List (List Char)}
    {programs : List Program} (htexts : lines s = texts)
    (h : readLines line texts = .ok programs) : WorkloadForm s programs := by
  induction texts generalizing line s programs with
  | nil => cases htexts
  | cons first texts ih =>
    obtain ⟨first', hn, ⟨rfl, hone⟩ | ⟨e, rest, he, rfl, hmore⟩⟩ := lines_cases s
    · rw [hone] at htexts
      cases htexts
      have hend : ∀ later, readLines (line + 1) [] = .ok later → WorkloadForm [] later := by
        intro later hlater
        cases hlater
        exact .blanks blanks_nil
      have hline := WorkloadForm.line hn (.inr ⟨rfl, rfl⟩) hend h
      rwa [List.append_nil, List.append_nil] at hline
    · rw [hmore] at htexts
      cases htexts
      exact .line hn (.inl he) (fun later hlater => ih rfl hlater) h

/-- **Reading accepts exactly the grammar.** A text is read as a list of programs exactly if it
consists of comments, empty lines and lines with these programs, in this order, and of blanks at
the end. -/
theorem readWorkload_eq_ok_iff {text : String} {programs : List Program} :
    readWorkload text = .ok programs ↔ WorkloadForm text.toList programs := by
  rw [readWorkload_eq]
  exact ⟨form_of_readLines rfl, fun h => readLines_of_form h 1⟩

end TwoPhase.Text
