import TwoPhase.Proofs.FirstFault
import TwoPhase.Proofs.SinglePrograms

/-!
# How far a bad line is good

A line that cannot be read is blamed at some point. Up to there it might still have become
a line that is well written: the text before a fault can be completed.

* `readOperation_viable`: inside an operation, by what was due there and the rest of the
  operation.
* `readPart_viable`: a part of a line, by an operation where none starts.
* `readDraft_viable`: a line, by induction on its parts. If no operation starts after a
  `;`, the line is blamed at the `;`, before which it is complete.
* `WrittenForm`: texts of well-written lines, whether their operations are programs or not.
-/

namespace TwoPhase.Text

/-! ## Operations -/

/-- Where reading stops, in a text that is read from `s` on. -/
def Refusal.rest (s : List Char) : Refusal → List Char
  | start => skipBlanks s
  | within rest _ => rest
  | leftover rest => rest

section
variable {s : List Char} {refusal : Refusal}

theorem readMark_eq_error {mark : Char} {due : Due} (h : readMark mark due s = .error refusal) :
    refusal = .within (skipBlanks s) due := by
  unfold readMark at h
  cases hskip : skipBlanks s with
  | nil =>
    rw [hskip] at h
    cases h
    rfl
  | cons c rest =>
    simp only [hskip] at h
    split at h
    · cases h
    · cases h
      rfl

theorem readRecord_eq_error (h : readRecord s = .error refusal) :
    refusal = .within (skipBlanks s) .record := by
  unfold readRecord at h
  split at h
  · split at h <;> cases h
    rfl
  · cases h
    rfl

theorem readValue_eq_error (h : readValue s = .error refusal) :
    refusal = .within (skipBlanks s) .value := by
  unfold readValue at h
  split at h
  · split at h <;> cases h
    rfl
  · cases h
    rfl

/-- What stands before the rest can be completed to an operation. -/
def Refusal.Viable (s : List Char) (refusal : Refusal) : Prop :=
  ∃ front more op, s = front ++ refusal.rest s ∧ OperationForm (front ++ more) op

theorem readOperation_read_viable {s₁ : List Char}
    (h : readOperation ('R' :: s₁) = .error refusal) : refusal.Viable ('R' :: s₁) := by
  -- one case for each token that may be missing, which is then put in; any number can be 0
  have hzero : Natural ['0'] (0 : RecordId).toNat := .zero
  simp only [readOperation, bind_eq_error] at h
  rcases h with h | ⟨s₂, hopen, h | ⟨⟨record, s₃⟩, hrecord, h | ⟨s₄, -, h⟩⟩⟩
  · obtain rfl := readMark_eq_error h
    obtain ⟨a, ha, hs⟩ := exists_skipBlanks s₁
    refine ⟨['R'] ++ a, ['(', '0', ')'], .read 0, congrArg ('R' :: ·) hs, ?_⟩
    simpa using OperationForm.read ha blanks_nil hzero blanks_nil
  · obtain rfl := readRecord_eq_error h
    obtain ⟨a, ha, rfl⟩ := (readMark_eq_ok_iff (by decide)).1 hopen
    obtain ⟨b, hb, hs⟩ := exists_skipBlanks s₂
    refine ⟨['R'] ++ a ++ ['('] ++ b, ['0', ')'], .read 0, ?_, ?_⟩
    · simpa [Refusal.rest] using hs
    · simpa using OperationForm.read ha hb hzero blanks_nil
  · obtain rfl := readMark_eq_error h
    obtain ⟨a, ha, rfl⟩ := (readMark_eq_ok_iff (by decide)).1 hopen
    obtain ⟨b, number, hb, hn, rfl⟩ := readRecord_sound hrecord
    obtain ⟨c, hc, hs⟩ := exists_skipBlanks s₃
    refine ⟨['R'] ++ a ++ ['('] ++ b ++ number ++ c, [')'], .read record, ?_, .read ha hb hn hc⟩
    simpa [Refusal.rest] using hs
  · cases h

theorem readOperation_write_viable {s₁ : List Char}
    (h : readOperation ('W' :: s₁) = .error refusal) : refusal.Viable ('W' :: s₁) := by
  have hzero : Natural ['0'] (0 : RecordId).toNat := .zero
  have hvalue : Integer ['0'] (0 : Value).toInt := .zero
  simp only [readOperation, bind_eq_error] at h
  rcases h with h | ⟨s₂, hopen, h | ⟨⟨record, s₃⟩, hrecord, h | ⟨s₄, hcomma, h |
    ⟨⟨value, s₅⟩, hv, h | ⟨s₆, -, h⟩⟩⟩⟩⟩
  · obtain rfl := readMark_eq_error h
    obtain ⟨a, ha, hs⟩ := exists_skipBlanks s₁
    refine ⟨['W'] ++ a, ['(', '0', ',', '0', ')'], .write 0 0, congrArg ('W' :: ·) hs, ?_⟩
    simpa using OperationForm.write ha blanks_nil hzero blanks_nil blanks_nil hvalue blanks_nil
  all_goals obtain ⟨a, ha, rfl⟩ := (readMark_eq_ok_iff (by decide)).1 hopen
  · obtain rfl := readRecord_eq_error h
    obtain ⟨b, hb, hs⟩ := exists_skipBlanks s₂
    refine ⟨['W'] ++ a ++ ['('] ++ b, ['0', ',', '0', ')'], .write 0 0, ?_, ?_⟩
    · simpa [Refusal.rest] using hs
    · simpa using OperationForm.write ha hb hzero blanks_nil blanks_nil hvalue blanks_nil
  all_goals obtain ⟨b, number, hb, hn, rfl⟩ := readRecord_sound hrecord
  · obtain rfl := readMark_eq_error h
    obtain ⟨c, hc, hs⟩ := exists_skipBlanks s₃
    refine ⟨['W'] ++ a ++ ['('] ++ b ++ number ++ c, [',', '0', ')'], .write record 0, ?_, ?_⟩
    · simpa [Refusal.rest] using hs
    · simpa using OperationForm.write ha hb hn hc blanks_nil hvalue blanks_nil
  all_goals obtain ⟨c, hc, rfl⟩ := (readMark_eq_ok_iff (by decide)).1 hcomma
  · obtain rfl := readValue_eq_error h
    obtain ⟨d, hd, hs⟩ := exists_skipBlanks s₄
    refine ⟨['W'] ++ a ++ ['('] ++ b ++ number ++ c ++ [','] ++ d, ['0', ')'], .write record 0,
      ?_, ?_⟩
    · simpa [Refusal.rest] using hs
    · simpa using OperationForm.write ha hb hn hc hd hvalue blanks_nil
  · obtain rfl := readMark_eq_error h
    obtain ⟨d, signed, hd, hsigned, rfl⟩ := readValue_sound hv
    obtain ⟨e, he, hs⟩ := exists_skipBlanks s₅
    refine ⟨['W'] ++ a ++ ['('] ++ b ++ number ++ c ++ [','] ++ d ++ signed ++ e, [')'],
      .write record value, ?_, .write ha hb hn hc hd hsigned he⟩
    simpa [Refusal.rest] using hs
  · cases h

/-- Reading an operation stops where none starts, or where the one that started can be
completed. -/
theorem readOperation_viable (h : readOperation s = .error refusal) :
    refusal = .start ∨ refusal.Viable s := by
  cases s with
  | nil =>
    cases h
    exact .inl rfl
  | cons c s =>
    by_cases hR : c = 'R'
    · subst hR
      exact .inr (readOperation_read_viable h)
    by_cases hW : c = 'W'
    · subst hW
      exact .inr (readOperation_write_viable h)
    · unfold readOperation at h
      split at h
      · next heq => exact absurd (List.cons.inj heq).1 hR
      · next heq => exact absurd (List.cons.inj heq).1 hW
      · cases h
      · cases h
        exact .inl rfl

theorem Refusal.rest_skipBlanks (refusal : Refusal) (s : List Char) :
    refusal.rest (skipBlanks s) = refusal.rest s := by
  cases refusal with
  | start =>
    obtain ⟨a, ha, hs⟩ := exists_skipBlanks s
    show skipBlanks (skipBlanks s) = skipBlanks s
    rw [← skipBlanks_append ha (skipBlanks s), ← hs]
  | _ => rfl

theorem readPart_viable (h : readPart s = .error refusal) :
    ∃ front more op, s = front ++ refusal.rest s ∧ PartForm (front ++ more) op := by
  obtain ⟨a, ha, hs⟩ := exists_skipBlanks s
  rcases bind_eq_error.1 h with h | ⟨⟨op, rest⟩, hop, h⟩
  · rcases readOperation_viable h with rfl | ⟨front, more, op, hfront, hform⟩
    · exact ⟨a, ['C'], .commit, hs, a, ['C'], [], ha, .commit, blanks_nil, by simp⟩
    · rw [Refusal.rest_skipBlanks] at hfront
      refine ⟨a ++ front, more, op, ?_, a, front ++ more, [], ha, hform, blanks_nil, by simp⟩
      rw [List.append_assoc, ← hfront]
      exact hs
  · -- the operation is complete, and something follows it
    obtain ⟨form, hform, hskip⟩ := readOperation_sound hop
    obtain ⟨b, hb, hrest⟩ := exists_skipBlanks rest
    have hleft : refusal = .leftover (skipBlanks rest) := by
      cases hnext : skipBlanks rest with
      | nil =>
        simp only [hnext] at h
        cases h
      | cons c after =>
        simp only [hnext] at h
        cases h
        rfl
    subst hleft
    refine ⟨a ++ form ++ b, [], op, ?_, a, form, b, ha, hform, hb, by simp⟩
    rw [List.append_assoc, List.append_assoc, Refusal.rest, ← hrest, ← hskip]
    exact hs

end

/-! ## Lines -/

/-- Up to `offset`, the text can be completed to a line of operations. -/
def ViableAt (s : List Char) (offset : Nat) : Prop :=
  ∃ front after, s = front ++ after ∧ byteLength front = offset ∧
    ∃ more ops, ProgramForm (front ++ more) ops

section
variable {part rest line : List Char} {op : Operation} {fault : Fault} {offset : Nat}

theorem PartForm.viableAt (h : PartForm part op) (rest : List Char) :
    ViableAt (part ++ [';'] ++ rest) (byteLength part) := by
  refine ⟨part, [';'] ++ rest, List.append_assoc .., rfl, [], [op], ?_⟩
  rw [List.append_nil]
  exact h.programForm

theorem PartForm.viableAt_append (h : PartForm part op) (hrest : ViableAt rest offset) :
    ViableAt (part ++ [';'] ++ rest) (byteLength part + 1 + offset) := by
  obtain ⟨front, after, rfl, rfl, more, ops, hform⟩ := hrest
  refine ⟨part ++ [';'] ++ front, after, (List.append_assoc ..).symm, ?_, more, op :: ops, ?_⟩
  · rw [byteLength_append, byteLength_append]
    rfl
  · rw [List.append_assoc]
    exact h.programForm_append hform

theorem viableAt_of_readPart {refusal : Refusal} (h : readPart part = .error refusal)
    (offset : Nat) (after : List Char) :
    ∃ o, (refusal.toFault offset part).offset = offset + o ∧ ViableAt (part ++ after) o := by
  obtain ⟨front, more, op, hfront, hform⟩ := readPart_viable h
  refine ⟨byteLength front, ?_, front, refusal.rest part ++ after, ?_, rfl, more, [op],
    hform.programForm⟩
  · have hpart := congrArg byteLength hfront
    rw [byteLength_append] at hpart
    have hfault : (refusal.toFault offset part).offset =
        offset + byteLength part - byteLength (refusal.rest part) := by cases refusal <;> rfl
    omega
  · rw [← List.append_assoc, ← hfront]

theorem exists_append_of_parts {s : List Char} {texts : List (List Char)}
    (h : parts ';' s = part :: texts) : ∃ after, s = part ++ after := by
  rcases parts_cases ';' s with hone | ⟨first, rest, rfl, hmore⟩
  · rw [hone] at h
    cases h
    exact ⟨[], (List.append_nil _).symm⟩
  · rw [hmore] at h
    cases h
    exact ⟨[';'] ++ rest, List.append_assoc ..⟩

/-- Parts of a text that starts at `offset` are blamed where they can be completed, or at the `;`
before them if no operation starts there. -/
theorem readParts_viable {s : List Char} {texts : List (List Char)} (htexts : parts ';' s = texts)
    (h : readParts offset texts = .error fault) :
    fault.offset = offset - 1 ∨ ∃ o, fault.offset = offset + o ∧ ViableAt s o := by
  induction texts generalizing s offset with
  | nil => cases htexts
  | cons part texts ih =>
    unfold readParts at h
    split at h
    · cases h
      exact .inl rfl
    · next refusal _ hpart =>
      cases h
      obtain ⟨after, rfl⟩ := exists_append_of_parts htexts
      exact .inr (viableAt_of_readPart hpart offset after)
    · next op hop =>
      have hpart := readPart_eq_ok_iff.1 hop
      have hlater := map_eq_error.1 h
      rcases parts_cases ';' s with hone | ⟨first, rest, rfl, hmore⟩
      · rw [hone] at htexts
        cases htexts
        cases hlater
      · rw [hmore] at htexts
        cases htexts
        rcases ih rfl hlater with ho | ⟨o, ho, hviable⟩
        · exact .inr ⟨byteLength part, by omega, hpart.viableAt rest⟩
        · exact .inr ⟨byteLength part + 1 + o, by omega, hpart.viableAt_append hviable⟩

/-- The first part is read like the others, except that there is no `;` to be blamed. -/
theorem readDraft_eq_error (h : readDraft line = .error fault) :
    (∃ part after, line = part ++ after ∧ readPart part = .error .start ∧
      fault = Refusal.start.toFault 0 part) ∨ readParts 0 (parts ';' line) = .error fault := by
  unfold readDraft at h
  simp only at h
  rw [parts, readParts]
  split at h
  · next refusal hpart =>
    cases h
    cases refusal with
    | start =>
      obtain ⟨after, hline⟩ := exists_append_of_parts (s := line) rfl
      exact .inl ⟨_, after, hline, hpart, rfl⟩
    | _ =>
      rw [hpart]
      exact .inr rfl
  · next op hop =>
    rw [hop, Nat.zero_add]
    exact .inr (map_eq_error.2 (map_eq_error.1 h))

theorem readDraft_viable (h : readDraft line = .error fault) : ViableAt line fault.offset := by
  rcases readDraft_eq_error h with ⟨part, after, rfl, hpart, rfl⟩ | h
  · obtain ⟨o, ho, hviable⟩ := viableAt_of_readPart hpart 0 after
    rwa [ho, Nat.zero_add]
  · rcases readParts_viable rfl h with ho | ⟨o, ho, hviable⟩
    · -- nothing stands before the fault
      have hcommit : PartForm ['C'] .commit :=
        ⟨[], ['C'], [], blanks_nil, .commit, blanks_nil, rfl⟩
      exact ⟨[], line, rfl, ho.symm, ['C'], [.commit], hcommit.programForm⟩
    · rwa [ho, Nat.zero_add]

theorem readLine_viable (h : readLine line = .error fault) : ViableAt line fault.offset := by
  unfold readLine at h
  split at h
  · cases h
  · exact readDraft_viable (map_eq_error.1 h)

end

/-! ## Texts -/

/-- Well-written lines one after the other. This is what may be written before the programs are
checked. -/
inductive WrittenForm : List Char → Prop where
  | last {s : List Char} : LineForm s → WrittenForm s
  | line {s e rest : List Char} : LineForm s → LineEnd e → WrittenForm rest →
      WrittenForm (s ++ e ++ rest)

theorem LineForm.inline {s : List Char} (h : LineForm s) : Inline s := by
  cases h with
  | blanks h => exact h.plain.inline
  | comment h => exact h.inline
  | operations h => exact h.inline

theorem writtenForm_iff {s : List Char} : WrittenForm s ↔ ∀ line ∈ lines s, LineForm line := by
  constructor
  · intro h
    induction h with
    | last hs =>
      rw [lines_of_inline hs.inline]
      exact List.forall_mem_singleton.2 hs
    | line hs he _ ih =>
      rw [lines_append hs.inline he]
      exact List.forall_mem_cons.2 ⟨hs, ih⟩
  · generalize htexts : lines s = texts
    intro h
    induction texts generalizing s with
    | nil => cases htexts
    | cons first texts ih =>
      rw [List.forall_mem_cons] at h
      obtain ⟨first', -, ⟨rfl, hone⟩ | ⟨e, rest, he, rfl, hmore⟩⟩ := lines_cases s
      · rw [hone] at htexts
        cases htexts
        exact .last h.1
      · rw [hmore] at htexts
        cases htexts
        exact .line h.1 he (ih rfl h.2)

/-- Exactly these texts are read, programs aside. -/
theorem exists_readDrafts_lines_iff {s : List Char} :
    (∃ drafts, readDrafts 1 (lines s) = .ok drafts) ↔ WrittenForm s := by
  rw [writtenForm_iff]
  exact exists_readDrafts_iff (fun _ => notMem_of_mem_lines) 1

end TwoPhase.Text
