import Mathlib.Data.List.TakeWhile
import TwoPhase.Proofs.Serial
import TwoPhase.Proofs.Grammar

/-!
# Reading operations

What the readers of blanks, numbers and operations accept, each said by the grammar.
A number ends where no digit follows, so a reader that takes all digits there are
takes the number that was written (`natural?_append`, `integer?_append`). An
operation ends by itself: reading one takes its form off the front of a text,
whatever follows (`readOperation_sound`, `readOperation_append`).
-/

namespace TwoPhase.Text

/-! ## Blanks and marks -/

theorem exists_skipBlanks (s : List Char) : ∃ a, Blanks a ∧ s = a ++ skipBlanks s := by
  refine ⟨s.takeWhile isBlank, fun c hc => ?_, List.takeWhile_append_dropWhile.symm⟩
  exact isBlank_iff.1 (List.mem_takeWhile_imp hc)

theorem skipBlanks_append {a : List Char} (ha : Blanks a) (s : List Char) :
    skipBlanks (a ++ s) = skipBlanks s :=
  List.dropWhile_append_of_pos fun _ hc => ha.isBlank hc

theorem skipBlanks_cons {c : Char} (hc : isBlank c = false) (s : List Char) :
    skipBlanks (c :: s) = c :: s := by
  simp [skipBlanks, hc]

theorem skipBlanks_eq_nil {s : List Char} : skipBlanks s = [] ↔ Blanks s := by
  unfold skipBlanks Blanks
  rw [List.dropWhile_eq_nil_iff]
  exact forall₂_congr fun c _ => isBlank_iff

theorem readMark_eq_ok_iff {mark : Char} (hmark : isBlank mark = false) {due : Due}
    {s rest : List Char} :
    readMark mark due s = .ok rest ↔ ∃ a, Blanks a ∧ s = a ++ [mark] ++ rest := by
  constructor
  · intro h
    obtain ⟨a, ha, hs⟩ := exists_skipBlanks s
    unfold readMark at h
    cases hskip : skipBlanks s with
    | nil =>
      rw [hskip] at h
      cases h
    | cons c after =>
      simp only [hskip] at h
      split at h
      · next hc =>
        cases h
        exact ⟨a, ha, by rw [hs, hskip, hc, List.append_assoc]; rfl⟩
      · cases h
  · rintro ⟨a, ha, rfl⟩
    unfold readMark
    rw [List.append_assoc, skipBlanks_append ha, List.singleton_append, skipBlanks_cons hmark]
    exact if_pos rfl

/-! ## Numbers -/

def NoDigit (s : List Char) : Prop := ∀ c rest, s = c :: rest → c.isDigit = false

theorem Blanks.noDigit {a : List Char} (ha : Blanks a) {c : Char} (hc : c.isDigit = false)
    (s : List Char) : NoDigit (a ++ [c] ++ s) := by
  intro d rest h
  cases a with
  | nil =>
    cases h
    exact hc
  | cons b a =>
    cases h
    rcases ha d List.mem_cons_self with rfl | rfl <;> decide

theorem dropWhile_isDigit {s : List Char} (h : NoDigit s) : s.dropWhile Char.isDigit = s := by
  cases s with
  | nil => rfl
  | cons c rest => rw [List.dropWhile_cons, if_neg (by simp [h c rest rfl])]

theorem takeWhile_isDigit {s : List Char} (h : NoDigit s) : s.takeWhile Char.isDigit = [] := by
  cases s with
  | nil => rfl
  | cons c rest => rw [List.takeWhile_cons, if_neg (by simp [h c rest rfl])]

theorem positive?_sound {s rest : List Char} {n : Nat} (h : positive? s = some (n, rest)) :
    ∃ number, Positive number n ∧ s = number ++ rest := by
  unfold positive? at h
  split at h
  · cases h
  · next c after =>
    split at h
    · next hc =>
      cases h
      refine ⟨(c :: after).takeWhile Char.isDigit, ⟨?_, ?_, ?_, rfl⟩,
        List.takeWhile_append_dropWhile.symm⟩
      · simp [hc.1]
      · exact fun d hd => List.mem_takeWhile_imp hd
      · simp [hc.1, hc.2]
    · cases h

theorem positive?_append {number : List Char} {n : Nat} (h : Positive number n)
    {rest : List Char} (hrest : NoDigit rest) : positive? (number ++ rest) = some (n, rest) := by
  obtain ⟨hne, hdigits, hlead, hvalue⟩ := h
  have htake : (number ++ rest).takeWhile Char.isDigit = number := by
    rw [List.takeWhile_append_of_pos hdigits, takeWhile_isDigit hrest, List.append_nil]
  have hdrop : (number ++ rest).dropWhile Char.isDigit = rest := by
    rw [List.dropWhile_append_of_pos hdigits, dropWhile_isDigit hrest]
  cases number with
  | nil => exact absurd rfl hne
  | cons c ds =>
    have hc : c.isDigit = true ∧ c ≠ '0' :=
      ⟨hdigits c List.mem_cons_self, fun h0 => hlead (h0 ▸ rfl)⟩
    unfold positive?
    simp only [List.cons_append] at htake hdrop ⊢
    rw [if_pos hc, htake, hdrop, hvalue]

theorem natural?_sound {s rest : List Char} {n : Nat} (h : natural? s = some (n, rest)) :
    ∃ number, Natural number n ∧ s = number ++ rest := by
  unfold natural? at h
  split at h
  · cases h
    exact ⟨['0'], .zero, rfl⟩
  · obtain ⟨number, hn, hs⟩ := positive?_sound h
    exact ⟨number, .positive hn, hs⟩

theorem natural?_append {number : List Char} {n : Nat} (h : Natural number n)
    {rest : List Char} (hrest : NoDigit rest) : natural? (number ++ rest) = some (n, rest) := by
  cases h with
  | zero => rfl
  | positive h =>
    unfold natural?
    split
    · next after heq =>
      refine absurd ?_ h.leading
      cases number with
      | nil => exact absurd rfl h.nonempty
      | cons c ds =>
        cases heq
        rfl
    · exact positive?_append h hrest

theorem integer?_sound {s rest : List Char} {n : Int} (h : integer? s = some (n, rest)) :
    ∃ number, Integer number n ∧ s = number ++ rest := by
  unfold integer? at h
  split at h
  · cases h
    exact ⟨['0'], .zero, rfl⟩
  all_goals
    obtain ⟨⟨m, after⟩, hm, heq⟩ := Option.map_eq_some_iff.1 h
    cases heq
    obtain ⟨number, hn, rfl⟩ := positive?_sound hm
  · exact ⟨'+' :: number, .plus hn, rfl⟩
  · exact ⟨'-' :: number, .minus hn, rfl⟩
  · exact ⟨number, .unsigned hn, rfl⟩

theorem integer?_append {number : List Char} {n : Int} (h : Integer number n)
    {rest : List Char} (hrest : NoDigit rest) : integer? (number ++ rest) = some (n, rest) := by
  cases h with
  | zero => rfl
  | @plus digits _ h =>
    show (positive? (digits ++ rest)).map _ = _
    rw [positive?_append h hrest]
    rfl
  | @minus digits _ h =>
    show (positive? (digits ++ rest)).map _ = _
    rw [positive?_append h hrest]
    rfl
  | @unsigned _ m h =>
    obtain ⟨c, ds, rfl⟩ : ∃ c ds, number = c :: ds := List.exists_cons_of_ne_nil h.nonempty
    have hc : c ≠ '0' := fun h0 => h.leading (h0 ▸ rfl)
    have hdigit := h.digits c List.mem_cons_self
    unfold integer?
    split
    · next heq =>
      cases heq
      exact absurd rfl hc
    · next heq =>
      cases heq
      exact absurd hdigit (by decide)
    · next heq =>
      cases heq
      exact absurd hdigit (by decide)
    · rw [positive?_append h hrest]
      rfl

theorem recordOfNat?_eq_some {n : Nat} {record : RecordId} :
    recordOfNat? n = some record ↔ record.toNat = n := by
  unfold recordOfNat?
  constructor
  · intro h
    split at h
    · next hn =>
      cases h
      exact UInt64.toNat_ofNat_of_lt' hn
    · cases h
  · rintro rfl
    rw [if_pos record.toNat_lt, UInt64.ofNat_toNat]

theorem valueOfInt?_eq_some {n : Int} {value : Value} :
    valueOfInt? n = some value ↔ value.toInt = n := by
  unfold valueOfInt?
  constructor
  · intro h
    split at h
    · next hn =>
      cases h
      exact Int64.toInt_ofInt_of_le hn.1 (by omega)
    · cases h
  · rintro rfl
    have hlow := value.le_toInt
    have hhigh := value.toInt_lt
    rw [if_pos (by omega), Int64.ofInt_toInt]

/-! ## Operations -/

theorem readRecord_sound {s rest : List Char} {record : RecordId}
    (h : readRecord s = .ok (record, rest)) :
    ∃ a number, Blanks a ∧ Natural number record.toNat ∧ s = a ++ number ++ rest := by
  obtain ⟨a, ha, hs⟩ := exists_skipBlanks s
  unfold readRecord at h
  split at h
  · next n after hn =>
    split at h
    · next r hr =>
      cases h
      obtain ⟨number, hnumber, hskip⟩ := natural?_sound hn
      rw [← recordOfNat?_eq_some.1 hr] at hnumber
      exact ⟨a, number, ha, hnumber, by rw [List.append_assoc, ← hskip]; exact hs⟩
    · cases h
  · cases h

theorem Natural.integer {s : List Char} {n : Nat} (h : Natural s n) : Integer s n := by
  cases h with
  | zero => exact .zero
  | positive h => exact .unsigned h

/-- A number starts with no blank, so blanks before it end where it starts. -/
theorem Integer.skipBlanks_append {number : List Char} {n : Int} (h : Integer number n)
    {a : List Char} (ha : Blanks a) (s : List Char) :
    skipBlanks (a ++ number ++ s) = number ++ s := by
  rw [List.append_assoc, Text.skipBlanks_append ha]
  cases h with
  | zero => rfl
  | plus => rfl
  | minus => rfl
  | unsigned h =>
    obtain ⟨c, ds, rfl⟩ := List.exists_cons_of_ne_nil h.nonempty
    refine skipBlanks_cons ?_ _
    have hdigit := h.digits c List.mem_cons_self
    refine Bool.eq_false_iff.2 fun hblank => ?_
    rcases isBlank_iff.1 hblank with rfl | rfl <;> cases hdigit

theorem readRecord_append {a number rest : List Char} {record : RecordId} (ha : Blanks a)
    (hn : Natural number record.toNat) (hrest : NoDigit rest) :
    readRecord (a ++ number ++ rest) = .ok (record, rest) := by
  unfold readRecord
  simp only [hn.integer.skipBlanks_append ha, natural?_append hn hrest,
    recordOfNat?_eq_some.2 rfl]

theorem readValue_sound {s rest : List Char} {value : Value}
    (h : readValue s = .ok (value, rest)) :
    ∃ a number, Blanks a ∧ Integer number value.toInt ∧ s = a ++ number ++ rest := by
  obtain ⟨a, ha, hs⟩ := exists_skipBlanks s
  unfold readValue at h
  split at h
  · next n after hn =>
    split at h
    · next v hv =>
      cases h
      obtain ⟨number, hnumber, hskip⟩ := integer?_sound hn
      rw [← valueOfInt?_eq_some.1 hv] at hnumber
      exact ⟨a, number, ha, hnumber, by rw [List.append_assoc, ← hskip]; exact hs⟩
    · cases h
  · cases h

theorem readValue_append {a number rest : List Char} {value : Value} (ha : Blanks a)
    (hn : Integer number value.toInt) (hrest : NoDigit rest) :
    readValue (a ++ number ++ rest) = .ok (value, rest) := by
  unfold readValue
  simp only [hn.skipBlanks_append ha, integer?_append hn hrest, valueOfInt?_eq_some.2 rfl]

theorem readOperation_sound {s rest : List Char} {op : Operation}
    (h : readOperation s = .ok (op, rest)) : ∃ form, OperationForm form op ∧ s = form ++ rest := by
  unfold readOperation at h
  split at h
  · simp only [bind_eq_ok, pure, Except.pure, Except.ok.injEq, Prod.mk.injEq] at h
    obtain ⟨s₁, hopen, ⟨record, s₂⟩, hrecord, s₃, hclose, rfl, rfl⟩ := h
    obtain ⟨a, ha, rfl⟩ := (readMark_eq_ok_iff (by decide)).1 hopen
    obtain ⟨b, number, hb, hn, rfl⟩ := readRecord_sound hrecord
    obtain ⟨c, hc, rfl⟩ := (readMark_eq_ok_iff (by decide)).1 hclose
    exact ⟨_, .read ha hb hn hc, by simp⟩
  · simp only [bind_eq_ok, pure, Except.pure, Except.ok.injEq, Prod.mk.injEq] at h
    obtain ⟨s₁, hopen, ⟨record, s₂⟩, hrecord, s₃, hcomma, ⟨value, s₄⟩, hvalue, s₅, hclose, rfl,
      rfl⟩ := h
    obtain ⟨a, ha, rfl⟩ := (readMark_eq_ok_iff (by decide)).1 hopen
    obtain ⟨b, number, hb, hn, rfl⟩ := readRecord_sound hrecord
    obtain ⟨c, hc, rfl⟩ := (readMark_eq_ok_iff (by decide)).1 hcomma
    obtain ⟨d, signed, hd, hv, rfl⟩ := readValue_sound hvalue
    obtain ⟨e, he, rfl⟩ := (readMark_eq_ok_iff (by decide)).1 hclose
    exact ⟨_, .write ha hb hn hc hd hv he, by simp⟩
  · cases h
    exact ⟨['C'], .commit, rfl⟩
  · cases h

theorem readMark_append {a : List Char} (ha : Blanks a) {mark : Char} (hmark : isBlank mark = false)
    (due : Due) (rest : List Char) : readMark mark due (a ++ [mark] ++ rest) = .ok rest :=
  (readMark_eq_ok_iff hmark).2 ⟨a, ha, rfl⟩

theorem readOperation_append {form : List Char} {op : Operation} (h : OperationForm form op)
    (rest : List Char) : readOperation (form ++ rest) = .ok (op, rest) := by
  cases h with
  | @read a b c number record ha hb hn hc =>
    have hform : ['R'] ++ a ++ ['('] ++ b ++ number ++ c ++ [')'] ++ rest =
        'R' :: (a ++ ['('] ++ (b ++ number ++ (c ++ [')'] ++ rest))) := by simp
    have hrecord := readRecord_append hb hn (hc.noDigit (c := ')') (by decide) rest)
    rw [hform]
    exact bind_eq_ok.2 ⟨_, readMark_append ha (by decide) _ _,
      bind_eq_ok.2 ⟨_, hrecord, bind_eq_ok.2 ⟨_, readMark_append hc (by decide) _ _, rfl⟩⟩⟩
  | @write a b c d e number signed record value ha hb hn hc hd hv he =>
    have hform : ['W'] ++ a ++ ['('] ++ b ++ number ++ c ++ [','] ++ d ++ signed ++ e ++ [')'] ++
        rest = 'W' :: (a ++ ['('] ++ (b ++ number ++ (c ++ [','] ++
          (d ++ signed ++ (e ++ [')'] ++ rest))))) := by simp
    have hrecord := readRecord_append hb hn
      (hc.noDigit (c := ',') (by decide) (d ++ signed ++ (e ++ [')'] ++ rest)))
    have hvalue := readValue_append hd hv (he.noDigit (c := ')') (by decide) rest)
    rw [hform]
    exact bind_eq_ok.2 ⟨_, readMark_append ha (by decide) _ _,
      bind_eq_ok.2 ⟨_, hrecord, bind_eq_ok.2 ⟨_, readMark_append hc (by decide) _ _,
        bind_eq_ok.2 ⟨_, hvalue, bind_eq_ok.2 ⟨_, readMark_append he (by decide) _ _, rfl⟩⟩⟩⟩⟩
  | commit => rfl

theorem OperationForm.exists_cons {form : List Char} {op : Operation} (h : OperationForm form op) :
    ∃ c rest, form = c :: rest ∧ isBlank c = false ∧ c ≠ '/' := by
  cases h with
  | read => exact ⟨'R', _, rfl, by decide, by decide⟩
  | write => exact ⟨'W', _, rfl, by decide, by decide⟩
  | commit => exact ⟨'C', [], rfl, by decide, by decide⟩

end TwoPhase.Text
