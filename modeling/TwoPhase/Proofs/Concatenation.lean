import TwoPhase.Proofs.Workload

/-!
# Texts one after the other

A newline between two texts ends the last line of the first one, so the lines of both
together are the lines of the one and then those of the other (`lines_newline`). For this
the first text must not end with a carriage return, which would become part of the line
ending; no text that can be read does (`WorkloadForm.getLast?_ne`).

Lines are read one by one, and a fault knows only its line and a place in it. So reading
more lines after others adds their programs (`readLines_append`), and a fault in them is
the same fault further down (`readLines_shift`).
-/

namespace TwoPhase.Text

/-! ## Lines -/

theorem getLast?_ne_of_cons {c x : Char} {s : List Char} (h : (c :: s).getLast? ≠ some x) :
    s.getLast? ≠ some x := by
  intro hs
  rw [List.getLast?_cons, hs] at h
  exact h rfl

/-- The newline ends the last line, unless a carriage return before it is to do so. -/
theorem cutLines_newline {a : List Char} (h : a.getLast? ≠ some '\r') (b : List Char) :
    cutLines (a ++ '\n' :: b) = ((cutLines a).1, (cutLines a).2 ++ lines b) := by
  fun_induction cutLines a with
  | case1 => rfl
  | case2 rest first others hcut ih =>
    have hrest := ih (getLast?_ne_of_cons (getLast?_ne_of_cons h))
    rw [hcut] at hrest
    simp only [List.cons_append, cutLines, hrest]
  | case3 rest first others hcut _ ih =>
    have hrest := ih (getLast?_ne_of_cons h)
    rw [hcut] at hrest
    rw [List.cons_append, cutLines, hrest]
    · exact if_pos rfl
    · exact fun after hr => absurd hr (by decide)
  | case4 c rest hne first others hcut hc ih =>
    have hrest := ih (getLast?_ne_of_cons h)
    rw [hcut] at hrest
    rw [List.cons_append, cutLines, hrest]
    · exact if_neg hc
    · -- a carriage return here is followed by the text's own next character, which is no newline
      intro after hr heq
      cases rest with
      | nil => exact h (congrArg some hr)
      | cons d rest =>
        cases heq
        exact hne rest hr rfl

theorem lines_newline {a : List Char} (h : a.getLast? ≠ some '\r') (b : List Char) :
    lines (a ++ '\n' :: b) = lines a ++ lines b := by
  unfold lines
  rw [cutLines_newline h]
  rfl

theorem length_lines (s : List Char) : (lines s).length = s.count '\n' + 1 := by
  unfold lines
  fun_induction cutLines s with
  | case1 => rfl
  | case2 rest first others hcut ih =>
    rw [hcut] at ih
    simpa using ih
  | case3 rest first others hcut _ ih =>
    rw [hcut] at ih
    simpa using ih
  | case4 c rest hne first others hcut hc ih =>
    rw [hcut] at ih
    simpa [hc] using ih

/-! ## Ends of texts that can be read -/

theorem Inline.getLast?_ne {s : List Char} (h : Inline s) : s.getLast? ≠ some '\r' :=
  fun hlast => h.2 (List.mem_of_getLast? hlast)

theorem Ends.getLast?_ne {s e rest : List Char} (he : Ends e rest) (hs : Inline s)
    (hrest : rest.getLast? ≠ some '\r') : (s ++ e ++ rest).getLast? ≠ some '\r' := by
  rcases he with he | ⟨rfl, rfl⟩
  · cases hlast : rest.getLast? with
    | none =>
      rw [List.getLast?_eq_none_iff.1 hlast, List.append_nil]
      cases he <;> simp
    | some c =>
      rw [List.getLast?_append, hlast]
      rwa [hlast] at hrest
  · rw [List.append_nil, List.append_nil]
    exact hs.getLast?_ne

theorem WorkloadForm.getLast?_ne {s : List Char} {programs : List Program}
    (h : WorkloadForm s programs) : s.getLast? ≠ some '\r' := by
  induction h with
  | blanks hs => exact hs.plain.inline.getLast?_ne
  | comment hs he _ ih => exact he.getLast?_ne hs.inline ih
  | empty hs he _ ih => exact Ends.getLast?_ne (.inl he) hs.plain.inline ih
  | program hs he _ ih => exact he.getLast?_ne hs.inline ih

/-! ## Reading on -/

theorem readDrafts_append (line : Nat) (texts later : List (List Char)) :
    readDrafts line (texts ++ later) =
      (readDrafts line texts).bind fun drafts =>
        (readDrafts (line + texts.length) later).map (drafts ++ ·) := by
  induction texts generalizing line with
  | nil =>
    show readDrafts line later = (readDrafts line later).map _
    cases readDrafts line later <;> rfl
  | cons first rest ih =>
    have hlength : line + 1 + rest.length = line + (first :: rest).length := by
      rw [List.length_cons]
      omega
    rw [List.cons_append, readDrafts, readDrafts, ih, hlength]
    cases readLine first with
    | error fault => rfl
    | ok draft? =>
      cases readDrafts (line + 1) rest with
      | error e => rfl
      | ok drafts =>
        cases readDrafts (line + (first :: rest).length) later with
        | error e => cases draft? <;> rfl
        | ok others => cases draft? <;> rfl

theorem checkDrafts_append (drafts later : List (Nat × Draft)) :
    checkDrafts (drafts ++ later) =
      (checkDrafts drafts).bind fun programs => (checkDrafts later).map (programs ++ ·) := by
  induction drafts with
  | nil =>
    show checkDrafts later = (checkDrafts later).map _
    cases checkDrafts later <;> rfl
  | cons numbered rest ih =>
    obtain ⟨line, draft⟩ := numbered
    rw [List.cons_append, checkDrafts, checkDrafts, ih]
    cases checkDraft line draft with
    | error e => rfl
    | ok program =>
      cases checkDrafts rest with
      | error e => rfl
      | ok programs => cases checkDrafts later <;> rfl

/-- After lines that can be read, the others add their programs or bring in their fault. -/
theorem readLines_append {line : Nat} {texts : List (List Char)} {programs : List Program}
    (h : readLines line texts = .ok programs) (later : List (List Char)) :
    readLines line (texts ++ later) =
      (readLines (line + texts.length) later).map (programs ++ ·) := by
  obtain ⟨drafts, hdrafts, hcheck⟩ := bind_eq_ok.1 h
  unfold readLines
  rw [readDrafts_append, hdrafts]
  cases readDrafts (line + texts.length) later with
  | error e => rfl
  | ok others =>
    show checkDrafts (drafts ++ others) = (checkDrafts others).map _
    rw [checkDrafts_append, hcheck]
    rfl

/-! ## Further down -/

def ParseError.below (n : Nat) (e : ParseError) : ParseError := { e with line := e.line + n }

theorem readDrafts_shift (line n : Nat) (texts : List (List Char)) :
    readDrafts (line + n) texts =
      ((readDrafts line texts).map (·.map fun (line, draft) => (line + n, draft))).mapError
        (.below n) := by
  induction texts generalizing line with
  | nil => rfl
  | cons first rest ih =>
    rw [readDrafts, readDrafts, Nat.add_right_comm, ih]
    cases readLine first with
    | error fault => rfl
    | ok draft? =>
      cases readDrafts (line + 1) rest with
      | error e => rfl
      | ok drafts => cases draft? <;> rfl

theorem checkDrafts_shift (n : Nat) (drafts : List (Nat × Draft)) :
    checkDrafts (drafts.map fun (line, draft) => (line + n, draft)) =
      (checkDrafts drafts).mapError (.below n) := by
  induction drafts with
  | nil => rfl
  | cons numbered rest ih =>
    obtain ⟨line, draft⟩ := numbered
    have hcheck : checkDraft (line + n) draft = (checkDraft line draft).mapError (.below n) := by
      unfold checkDraft
      cases Program.ofOperations draft.operations <;> rfl
    rw [List.map_cons, checkDrafts, checkDrafts, hcheck, ih]
    cases checkDraft line draft with
    | error e => rfl
    | ok program => cases checkDrafts rest <;> rfl

/-- The number of the first line matters only for where a fault is. -/
theorem readLines_shift (line n : Nat) (texts : List (List Char)) :
    readLines (line + n) texts = (readLines line texts).mapError (.below n) := by
  unfold readLines
  rw [readDrafts_shift]
  cases readDrafts line texts with
  | error e => rfl
  | ok drafts => exact checkDrafts_shift n drafts

theorem readWorkload_newline {a : String} {programs : List Program}
    (ha : readWorkload a = .ok programs) (b : String) :
    readWorkload (a ++ "\n" ++ b) =
      ((readWorkload b).mapError (.below (1 + a.toList.count '\n'))).map (programs ++ ·) := by
  rw [readWorkload_eq] at ha
  have htext : (a ++ "\n" ++ b).toList = a.toList ++ '\n' :: b.toList := by simp
  have hform : WorkloadForm a.toList programs := form_of_readLines rfl ha
  have hlength : (lines a.toList).length = 1 + a.toList.count '\n' := by
    rw [length_lines, Nat.add_comm]
  rw [readWorkload_eq, htext, lines_newline hform.getLast?_ne, readLines_append ha, hlength,
    readLines_shift]
  rfl

/-- **Workload texts compose.** If a text can be read, it can be put in front of another one with a
newline between them: the programs of the other come after its own, or the fault of the other is
found where it was, as many lines further down as there are in front. -/
theorem workloads_compose {a : String} {programs : List Program}
    (ha : readWorkload a = .ok programs) (b : String) :
    (∀ later, readWorkload b = .ok later →
      readWorkload (a ++ "\n" ++ b) = .ok (programs ++ later)) ∧
    (∀ e, readWorkload b = .error e →
      readWorkload (a ++ "\n" ++ b) =
        .error { e with line := e.line + (1 + a.toList.count '\n') }) := by
  rw [readWorkload_newline ha]
  constructor
  · intro later hlater
    rw [hlater]
    rfl
  · intro e he
    rw [he]
    rfl

/-- A text with two kinds of line endings and blanks on its last line, before a text with a fault
on its second line. -/
theorem workloads_compose_faults :
    readWorkload "// first\r\nR(0);C\n\t" = .ok [⟨[.read 0, .commit], by decide⟩] ∧
    readWorkload "// first\r\nR(0);C\n\t\n\n C" =
      .ok [⟨[.read 0, .commit], by decide⟩, ⟨[.commit], by decide⟩] ∧
    readWorkload "C\n  W(1,x);C" =
      .error ⟨"expected integer value, R(record), W(record,value) or C", 2, 7⟩ ∧
    readWorkload "// first\r\nR(0);C\n\t\nC\n  W(1,x);C" =
      .error ⟨"expected integer value, R(record), W(record,value) or C", 5, 7⟩ := by
  have hfirst : readWorkload "// first\r\nR(0);C\n\t" =
    .ok [⟨[.read 0, .commit], by decide⟩] := by decide +kernel
  have hcommit : readWorkload "\n C" = .ok [⟨[.commit], by decide⟩] := by decide +kernel
  have hfault : readWorkload "C\n  W(1,x);C" =
    .error ⟨"expected integer value, R(record), W(record,value) or C", 2, 7⟩ := by decide +kernel
  refine ⟨hfirst, ?_, hfault, ?_⟩
  · exact (workloads_compose hfirst "\n C").1 _ hcommit
  · exact (workloads_compose hfirst "C\n  W(1,x);C").2 _ hfault

end TwoPhase.Text
