import TwoPhase.Proofs.Viability

/-!
# Where a workload is at fault

The line and the column of a fault stand for one byte of the text. Columns count bytes, so
this is said on the UTF-8 bytes of the text: newlines are the bytes 10 (`count_bytes`), and
no two bytes have the same line and column (`eq_of_placeAfter`).

* `placeOf`: the line and the column of a byte.
* `exists_head`: the text before a line whose predecessors are well written.
* `readDrafts_eq_error`, `checkDrafts_eq_error`: which line is blamed, for its writing and
  for its program.
* `fault_place_viable`: the place of a fault, and what stands before it.
-/

namespace TwoPhase.Text

/-! ## Bytes -/

/-- The line and the column at the end of some bytes: the newlines in them, and the bytes since the
last one, both counted from 1. -/
def placeAfter (before : List UInt8) : Nat × Nat :=
  (before.count 10 + 1, (before.reverse.takeWhile (· ≠ 10)).length + 1)

def placeOf (text : String) (o : Nat) : Nat × Nat :=
  placeAfter (text.toUTF8.data.toList.take o)

def bytes (s : List Char) : List UInt8 := s.flatMap String.utf8EncodeChar

theorem bytes_toList (text : String) : bytes text.toList = text.toUTF8.data.toList := by
  have h : text.toList.utf8Encode = text.toUTF8 := String.utf8Encode_toList
  rw [← h, List.utf8Encode, List.data_toByteArray]
  rfl

theorem bytes_append (s s' : List Char) : bytes (s ++ s') = bytes s ++ bytes s' :=
  List.flatMap_append

theorem length_bytes (s : List Char) : (bytes s).length = byteLength s := by
  induction s with
  | nil => rfl
  | cons c s ih =>
    rw [bytes, List.flatMap_cons, List.length_append, String.length_utf8EncodeChar, ← bytes, ih]
    rfl

theorem ofNat_ne_newline {n : Nat} (h : n ≠ 10) (hlt : n < 256) :
    (10 : UInt8) ≠ UInt8.ofNat n := by
  intro heq
  have hn := congrArg UInt8.toNat heq
  rw [UInt8.toNat_ofNat_of_lt' hlt] at hn
  exact h hn.symm

theorem count_utf8EncodeChar (c : Char) :
    (String.utf8EncodeChar c).count 10 = if c = '\n' then 1 else 0 := by
  split
  · next hc =>
    subst hc
    decide
  · next hc =>
    have hne : c.val.toNat ≠ 10 := fun h => hc (Char.ext (UInt32.toNat_inj.1 h))
    rw [List.count_eq_zero]
    unfold String.utf8EncodeChar
    simp only
    generalize c.val.toNat = v at hne
    split_ifs
    all_goals
      simp only [List.mem_cons, List.not_mem_nil, or_false, not_or]
      and_intros <;> exact ofNat_ne_newline (by omega) (by omega)

theorem count_bytes (s : List Char) : (bytes s).count 10 = s.count '\n' := by
  induction s with
  | nil => rfl
  | cons c s ih =>
    rw [bytes, List.flatMap_cons, List.count_append, count_utf8EncodeChar, ← bytes, ih,
      List.count_cons, Nat.add_comm]
    simp only [beq_iff_eq]

theorem utf8ByteSize_eq (text : String) : text.utf8ByteSize = byteLength text.toList := by
  rw [← length_bytes, bytes_toList]
  rfl

theorem placeAfter_append {before more : List UInt8} (h : 10 ∉ more) :
    placeAfter (before ++ more) =
      ((placeAfter before).1, (placeAfter before).2 + more.length) := by
  have hall : ∀ x ∈ more.reverse, decide (x ≠ 10) = true := by
    intro x hx
    rw [decide_eq_true_eq]
    rintro rfl
    exact h (List.mem_reverse.1 hx)
  unfold placeAfter
  rw [List.count_append, List.count_eq_zero_of_not_mem h, List.reverse_append,
    List.takeWhile_append_of_pos hall, List.length_append, List.length_reverse]
  simp only [Nat.add_zero, Prod.mk.injEq, true_and]
  omega

/-- Line and column determine the byte. -/
theorem eq_of_placeAfter {text : List UInt8} {o o' : Nat} (ho : o ≤ text.length)
    (ho' : o' ≤ text.length) (h : placeAfter (text.take o) = placeAfter (text.take o')) :
    o = o' := by
  wlog hle : o ≤ o'
  · exact (this ho' ho h.symm (by omega)).symm
  obtain ⟨d, rfl⟩ := Nat.exists_eq_add_of_le hle
  rw [List.take_add] at h
  have hnone : 10 ∉ (text.drop o).take d := by
    have hline := congrArg Prod.fst h
    simp only [placeAfter, List.count_append] at hline
    exact List.count_eq_zero.1 (by omega)
  rw [placeAfter_append hnone] at h
  have hcolumn := congrArg Prod.snd h
  rw [List.length_take, List.length_drop] at hcolumn
  simp only at hcolumn
  omega

/-! ## The text before a line -/

/-- The text ends where a line starts. -/
def AtLineStart (head : List Char) : Prop := head = [] ∨ head.getLast? = some '\n'

theorem placeAfter_bytes {head front : List Char} (hhead : AtLineStart head) (h : '\n' ∉ front) :
    placeAfter (bytes (head ++ front)) = (head.count '\n' + 1, byteLength front + 1) := by
  have hfront : 10 ∉ bytes front := by
    rw [← List.count_eq_zero, count_bytes, List.count_eq_zero]
    exact h
  have hstart : (bytes head).reverse.takeWhile (· ≠ 10) = [] := by
    rcases hhead with rfl | hlast
    · rfl
    · rw [← List.dropLast_append_getLast? _ hlast, bytes_append, List.reverse_append]
      rfl
  rw [bytes_append, placeAfter_append hfront, placeAfter, hstart, count_bytes, length_bytes,
    List.length_nil, Nat.zero_add, Nat.add_comm 1]

theorem exists_head {s line : List Char} {front rest : List (List Char)}
    (hs : lines s = front ++ line :: rest) (hfront : ∀ l ∈ front, LineForm l) :
    ∃ head ending tail, s = head ++ line ++ ending ++ tail ∧ Ends ending tail ∧
      AtLineStart head ∧ ∀ more, lines (head ++ more) = front ++ lines more := by
  induction front generalizing s with
  | nil =>
    obtain ⟨first, -, ⟨rfl, hone⟩ | ⟨e, tail, he, rfl, hmore⟩⟩ := lines_cases s
    · rw [hone] at hs
      cases hs
      exact ⟨[], [], [], by simp, .inr ⟨rfl, rfl⟩, .inl rfl, fun _ => rfl⟩
    · rw [hmore] at hs
      cases hs
      exact ⟨[], e, tail, rfl, .inl he, .inl rfl, fun _ => rfl⟩
  | cons l front ih =>
    rw [List.forall_mem_cons] at hfront
    obtain ⟨first, -, ⟨rfl, hone⟩ | ⟨e, after, he, rfl, hmore⟩⟩ := lines_cases s
    · rw [hone] at hs
      simp at hs
    · rw [hmore] at hs
      obtain ⟨rfl, hafter⟩ := List.cons.inj hs
      obtain ⟨head, ending, tail, rfl, hends, hstart, hlines⟩ := ih hafter hfront.2
      refine ⟨first ++ e ++ head, ending, tail, by simp, hends, ?_, fun more => ?_⟩
      · refine .inr ?_
        rcases hstart with rfl | hlast
        · cases he <;> simp
        · rw [List.getLast?_append, hlast]
          rfl
      · rw [List.append_assoc _ head, lines_append hfront.1.inline he, hlines]
        rfl

/-! ## The line that is blamed -/

section
variable {n : Nat} {texts : List (List Char)} {e : ParseError}

/-- The first line that cannot be read is blamed. -/
theorem readDrafts_eq_error (h : readDrafts n texts = .error e) :
    ∃ front line rest fault, texts = front ++ line :: rest ∧
      (∀ l ∈ front, ∃ draft?, readLine l = .ok draft?) ∧ readLine line = .error fault ∧
      e = .ofFault (n + front.length) fault := by
  induction texts generalizing n with
  | nil => cases h
  | cons first texts ih =>
    rw [readDrafts] at h
    rcases bind_eq_error.1 h with hfirst | ⟨draft?, hfirst, h⟩
    · obtain ⟨fault, hfault, rfl⟩ := mapError_eq_error.1 hfirst
      exact ⟨[], first, texts, fault, rfl, List.forall_mem_nil _, hfault, rfl⟩
    rcases bind_eq_error.1 h with hlater | ⟨drafts, -, h⟩
    · obtain ⟨front, line, rest, fault, rfl, hfront, hline, rfl⟩ := ih hlater
      refine ⟨first :: front, line, rest, fault, rfl, ?_, hline, ?_⟩
      · exact List.forall_mem_cons.2 ⟨⟨draft?, mapError_eq_ok.1 hfirst⟩, hfront⟩
      · rw [List.length_cons, Nat.add_right_comm, Nat.add_assoc]
    · cases draft? <;> cases h

/-- If all lines can be read, the first one whose operations are no program is blamed. -/
theorem checkDrafts_eq_error {drafts : List (Nat × Draft)} (hread : readDrafts n texts = .ok drafts)
    (h : checkDrafts drafts = .error e) :
    ∃ front line rest programs draft error, texts = front ++ line :: rest ∧
      readLines n front = .ok programs ∧ readLine line = .ok (some draft) ∧
      Program.ofOperations draft.operations = .error error ∧
      e = .ofFault (n + front.length) ⟨draft.offset, .invalid error⟩ := by
  induction texts generalizing n drafts with
  | nil =>
    cases hread
    cases h
  | cons first texts ih =>
    simp only [readDrafts, bind_eq_ok, mapError_eq_ok] at hread
    obtain ⟨draft?, hfirst, later, hlater, heq⟩ := hread
    have hcount (front : List (List Char)) :
        n + 1 + front.length = n + (first :: front).length := by
      rw [List.length_cons]
      omega
    cases draft? with
    | none =>
      cases heq
      obtain ⟨front, line, rest, programs, draft, error, rfl, hfront, hline, herror, rfl⟩ :=
        ih hlater h
      refine ⟨first :: front, line, rest, programs, draft, error, rfl, ?_, hline, herror, ?_⟩
      · exact readLines_skip hfirst hfront
      · rw [hcount]
    | some draft =>
      cases heq
      rw [checkDrafts] at h
      rcases bind_eq_error.1 h with hdraft | ⟨program, hprogram, h⟩
      · obtain ⟨error, herror, rfl⟩ := mapError_eq_error.1 hdraft
        exact ⟨[], first, texts, [], draft, error, rfl, rfl, hfirst, herror, rfl⟩
      rcases bind_eq_error.1 h with hcheck | ⟨programs, -, h⟩
      · obtain ⟨front, line, rest, programs, draft', error, rfl, hfront, hline, herror, rfl⟩ :=
          ih hlater hcheck
        refine ⟨first :: front, line, rest, program :: programs, draft', error, rfl, ?_, hline,
          herror, by rw [hcount]⟩
        exact readLines_cons.2 (.inr ⟨draft, program, programs, hfirst,
          checkDraft_eq_ok_iff.1 hprogram, hfront, rfl⟩)
      · cases h

end

/-! ## Places of faults -/

/-- A text in two parts. The second one starts with the operations of a line, which are refused for
the reason `error`; on the lines before there are only programs that are accepted. -/
inductive Rejected (error : Error) : List Char → List Char → Prop where
  | line {head a body b ending rest : List Char} {programs : List Program} {ops : List Operation} :
      WorkloadForm head programs → AtLineStart head → Blanks a → OperationsForm body ops →
      Program.ofOperations ops = .error error → Blanks b → Ends ending rest →
      Rejected error (head ++ a) (body ++ b ++ ending ++ rest)

section
variable {s head : List Char} {front : List (List Char)} {e : ParseError}

theorem lines_of_lines_append (h : ∀ more, lines (head ++ more) = front ++ lines more) :
    lines head = front ++ [[]] := by
  have hnil := h []
  rwa [List.append_nil] at hnil

theorem count_of_lines_append (h : ∀ more, lines (head ++ more) = front ++ lines more) :
    head.count '\n' = front.length := by
  have hlength := length_lines head
  rw [lines_of_lines_append h, List.length_append] at hlength
  exact (Nat.succ_inj.1 hlength).symm

/-- A badly written line is blamed where the text so far can be completed. -/
theorem exists_viable (h : readDrafts 1 (lines s) = .error e) :
    ∃ before after, s = before ++ after ∧ placeAfter (bytes before) = (e.line, e.column) ∧
      ∃ more, WrittenForm (before ++ more) := by
  obtain ⟨front, line, rest, fault, hlines, hread, hline, rfl⟩ := readDrafts_eq_error h
  have hnewline : ∀ l ∈ front ++ line :: rest, '\n' ∉ l :=
    fun l hl => notMem_of_mem_lines (hlines ▸ hl)
  have hfront : ∀ l ∈ front, LineForm l := fun l hl =>
    (exists_readLine_iff (hnewline l (List.mem_append_left _ hl))).1 (hread l hl)
  obtain ⟨head, ending, tail, rfl, -, hstart, hhead⟩ := exists_head hlines hfront
  obtain ⟨pre, post, rfl, hoffset, more, ops, hform⟩ := readLine_viable hline
  have hpre : '\n' ∉ pre := by
    have := hnewline (pre ++ post) (by simp)
    exact fun hmem => this (List.mem_append_left _ hmem)
  refine ⟨head ++ pre, post ++ ending ++ tail, by simp, ?_, more, ?_⟩
  · rw [placeAfter_bytes hstart hpre, count_of_lines_append hhead, hoffset,
      Nat.add_comm front.length]
    rfl
  · rw [List.append_assoc, writtenForm_iff, hhead, lines_of_inline hform.inline,
      List.forall_mem_append, List.forall_mem_singleton]
    exact ⟨hfront, .operations hform⟩

theorem readDraft_of_readLine {line : List Char} {draft : Draft}
    (h : readLine line = .ok (some draft)) : readDraft line = .ok draft := by
  unfold readLine at h
  split at h
  · cases h
  · obtain ⟨draft', hdraft, heq⟩ := map_eq_ok.1 h
    cases heq
    exact hdraft

/-- A program that is none is blamed at its first operation. -/
theorem exists_rejected {drafts : List (Nat × Draft)} (hread : readDrafts 1 (lines s) = .ok drafts)
    (h : checkDrafts drafts = .error e) :
    ∃ before after, s = before ++ after ∧ placeAfter (bytes before) = (e.line, e.column) ∧
      ∃ error, e.message = error.message ∧ Rejected error before after := by
  obtain ⟨front, line, rest, programs, draft, error, hlines, hfront, hline, herror, rfl⟩ :=
    checkDrafts_eq_error hread h
  have hwritten : ∀ l ∈ front, LineForm l := by
    have hall := writtenForm_iff.1 (exists_readDrafts_lines_iff.1 ⟨drafts, hread⟩)
    rw [hlines] at hall
    exact fun l hl => hall l (List.mem_append_left _ hl)
  obtain ⟨head, ending, tail, rfl, hends, hstart, hhead⟩ := exists_head hlines hwritten
  have hprograms : WorkloadForm head programs := by
    have hread : readLines 1 (front ++ [[]]) = .ok programs := by
      rw [readLines_append hfront]
      show Except.ok (programs ++ []) = _
      rw [List.append_nil]
    exact form_of_readLines (lines_of_lines_append hhead) hread
  cases readLine_eq_some_iff.1 ⟨draft, hline, rfl⟩ with
  | @line a body b _ ha hbody hb =>
    have hoffset : draft.offset = byteLength a := by
      obtain ⟨c, after, rfl, hc, -⟩ := hbody.exists_cons
      refine readDraft_offset ha hc (s := after ++ b) ?_
      simpa using readDraft_of_readLine hline
    refine ⟨head ++ a, body ++ b ++ ending ++ tail, by simp, ?_, error, rfl,
      .line hprograms hstart ha hbody herror hb hends⟩
    rw [placeAfter_bytes hstart ha.plain.inline.1, count_of_lines_append hhead, ← hoffset,
      Nat.add_comm front.length]
    rfl

end

/-- Line and column as those of one byte, at which the text can be cut. -/
theorem exists_unique_byte {text : String} {before after : List Char} {place : Nat × Nat}
    (htext : text.toList = before ++ after) (hplace : placeAfter (bytes before) = place) :
    text = .ofList before ++ .ofList after ∧
      placeOf text (String.ofList before).utf8ByteSize = place ∧
      ∀ o ≤ text.utf8ByteSize, placeOf text o = place →
        o = (String.ofList before).utf8ByteSize := by
  have hbytes : text.toUTF8.data.toList = bytes before ++ bytes after := by
    rw [← bytes_toList, htext, bytes_append]
  have hsize : (String.ofList before).utf8ByteSize = (bytes before).length := by
    rw [utf8ByteSize_eq, String.toList_ofList, length_bytes]
  have hself : placeOf text (String.ofList before).utf8ByteSize = place := by
    rw [placeOf, hbytes, hsize, List.take_left, hplace]
  refine ⟨?_, hself, fun o ho hsame => ?_⟩
  · rw [← String.ofList_append, ← htext, String.ofList_toList]
  · have hle : (String.ofList before).utf8ByteSize ≤ text.toUTF8.data.toList.length := by
      rw [hbytes, hsize, List.length_append]
      omega
    exact eq_of_placeAfter ho hle (hsame.trans hself.symm)

/-- **Places of faults.** A text that cannot be read is blamed at one byte, on a boundary between
two characters, and no other byte has its line and column. If a line of the text is badly written,
the text before that byte is the start of a text whose lines are all well written. Else it is the
first byte of the first operation of the first program that is rejected. -/
theorem fault_place_viable {text : String} {e : ParseError} (h : readWorkload text = .error e) :
    ∃ before after : String, text = before ++ after ∧
      placeOf text before.utf8ByteSize = (e.line, e.column) ∧
      (∀ o ≤ text.utf8ByteSize, placeOf text o = (e.line, e.column) → o = before.utf8ByteSize) ∧
      (¬ WrittenForm text.toList → ∃ more, WrittenForm (before.toList ++ more)) ∧
      (WrittenForm text.toList →
        ∃ error, e.message = error.message ∧ Rejected error before.toList after.toList) := by
  rw [readWorkload_eq] at h
  rcases bind_eq_error.1 h with h | ⟨drafts, hread, h⟩
  · have hbad : ¬ WrittenForm text.toList := by
      rw [← exists_readDrafts_lines_iff, h]
      exact nofun
    obtain ⟨before, after, htext, hplace, more, hmore⟩ := exists_viable h
    obtain ⟨hcut, hself, hunique⟩ := exists_unique_byte htext hplace
    refine ⟨_, _, hcut, hself, hunique, fun _ => ⟨more, ?_⟩, fun hgood => absurd hgood hbad⟩
    rwa [String.toList_ofList]
  · have hgood : WrittenForm text.toList := exists_readDrafts_lines_iff.1 ⟨drafts, hread⟩
    obtain ⟨before, after, htext, hplace, error, hmessage, hrejected⟩ := exists_rejected hread h
    obtain ⟨hcut, hself, hunique⟩ := exists_unique_byte htext hplace
    refine ⟨_, _, hcut, hself, hunique, fun hbad => absurd hgood hbad, fun _ =>
      ⟨error, hmessage, ?_⟩⟩
    rwa [String.toList_ofList, String.toList_ofList]

/-- A value is missing in the second line, behind a comment with a character of two bytes. And a
program without commit, behind one that has nothing else. -/
theorem fault_place_viable_mixed :
    (∃ before after : String, "// é\r\nR(1);W(2,é" = before ++ after ∧
      placeOf "// é\r\nR(1);W(2,é" before.utf8ByteSize = (2, 10) ∧
      ∃ more, WrittenForm (before.toList ++ more)) ∧
    ∃ (before after : String) (error : Error), "C\n\t R(7)\n" = before ++ after ∧
      placeOf "C\n\t R(7)\n" before.utf8ByteSize = (2, 3) ∧
      Rejected error before.toList after.toList := by
  constructor
  · have hfault : readWorkload "// é\r\nR(1);W(2,é" = .error
        ⟨"expected integer value, R(record), W(record,value) or C", 2, 10⟩ := by decide +kernel
    have hbad : ¬ WrittenForm "// é\r\nR(1);W(2,é".toList := by
      rw [← exists_readDrafts_lines_iff]
      rintro ⟨drafts, hread⟩
      have herror : readDrafts 1 (lines "// é\r\nR(1);W(2,é".toList) = .error
          ⟨"expected integer value, R(record), W(record,value) or C", 2, 10⟩ := by decide +kernel
      rw [herror] at hread
      cases hread
    obtain ⟨before, after, htext, hplace, -, hmore, -⟩ := fault_place_viable hfault
    exact ⟨before, after, htext, hplace, hmore hbad⟩
  · have hfault : readWorkload "C\n\t R(7)\n" = .error
        ⟨(Error.missingCommit 1).message, 2, 3⟩ := by decide +kernel
    have hgood : WrittenForm "C\n\t R(7)\n".toList :=
      exists_readDrafts_lines_iff.1
        ⟨[(1, ⟨0, [.commit]⟩), (2, ⟨2, [.read 7]⟩)], by decide +kernel⟩
    obtain ⟨before, after, htext, hplace, -, -, hrejected⟩ := fault_place_viable hfault
    obtain ⟨error, -, hrejected⟩ := hrejected hgood
    exact ⟨before, after, error, htext, hplace, hrejected⟩

end TwoPhase.Text
