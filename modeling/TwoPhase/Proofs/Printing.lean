import Mathlib.Data.List.DropRight
import TwoPhase.Json.Printer
import TwoPhase.Json.Reader
import TwoPhase.Proofs.Writing

/-!
# Printed JSON is read back

A printed value is followed by nothing, a comma or a line break (`Follow`), so a reader
sees where a number ends. Characters come back one by one (`readString_escape`), lists
and objects by induction on what they hold: `Reads j` says that the text of `j` is read
as `j` at every level and in front of everything that may follow.

Objects whose names repeat do not come back, nor do numbers that are kept as text
(`Regular` leaves both out).
-/

namespace TwoPhase.Json

open Text (Positive Natural NoDigit)

variable {rest : List Char} {fuel depth : Nat}

/-! ## Blanks -/

theorem skipSpace_append {a : List Char} (ha : ∀ c ∈ a, isSpace c = true) (s : List Char) :
    skipSpace (a ++ s) = skipSpace s :=
  List.dropWhile_append_of_pos ha

theorem skipSpace_cons {c : Char} (hc : isSpace c = false) (s : List Char) :
    skipSpace (c :: s) = c :: s := by
  simp [skipSpace, hc]

theorem skipSpace_skipSpace (s : List Char) : skipSpace (skipSpace s) = skipSpace s :=
  List.dropWhile_idempotent isSpace s

theorem isSpace_lineBreak (depth : Nat) : ∀ c ∈ (lineBreak depth).toList, isSpace c = true := by
  intro c hc
  rw [lineBreak, String.toList_ofList, List.mem_cons, List.mem_replicate] at hc
  rcases hc with rfl | ⟨-, rfl⟩ <;> rfl

theorem isSpace_blank : ∀ c ∈ [' '], isSpace c = true := by
  intro c hc
  rw [List.mem_singleton.1 hc]
  rfl

theorem length_lineBreak (depth : Nat) : (lineBreak depth).toList.length = 2 * depth + 1 := by
  simp [lineBreak]

theorem readValue_skipSpace (fuel : Nat) (s : List Char) :
    readValue fuel (skipSpace s) = readValue fuel s := by
  cases fuel with
  | zero => rfl
  | succ fuel => simp only [readValue, skipSpace_skipSpace]

theorem readItems_skipSpace (fuel : Nat) (s : List Char) :
    readItems fuel (skipSpace s) = readItems fuel s := by
  cases fuel with
  | zero => rfl
  | succ fuel => simp only [readItems, readValue_skipSpace]

theorem readFields_skipSpace (fuel : Nat) (s : List Char) :
    readFields fuel (skipSpace s) = readFields fuel s := by
  cases fuel with
  | zero => rfl
  | succ fuel => simp only [readFields, skipSpace_skipSpace]

/-! ## Strings -/

theorem hexDigits?_digitChar : ∀ n < 32,
    hexDigits? '0' '0' (Nat.digitChar (n / 16)) (Nat.digitChar (n % 16)) = some n := by
  decide

theorem readString_escape (c : Char) (s : List Char) :
    readString ((escape c).toList ++ s) = (readString s).map fun (t, rest) => (c :: t, rest) := by
  unfold escape
  split_ifs with h₁ h₂ h₃ h₄ h₅ h₆ h₇ h₈
  case pos => subst h₁; rfl
  case pos => subst h₂; rfl
  case pos => subst h₃; rfl
  case pos => subst h₄; rfl
  case pos => subst h₅; rfl
  case pos => subst h₆; rfl
  case pos => subst h₇; rfl
  case pos =>
    have hhex := hexDigits?_digitChar c.toNat h₈
    have hlow : ¬ (0xD800 ≤ c.toNat ∧ c.toNat < 0xDC00) := by omega
    have hhigh : ¬ (0xDC00 ≤ c.toNat ∧ c.toNat < 0xE000) := by omega
    simp [readString, hhex, hlow, hhigh, Char.ofNat_toNat]
  case neg =>
    simp [readString, h₂, h₈]

theorem readString_escapes (s rest : List Char) :
    readString ((String.join (s.map escape)).toList ++ '"' :: rest) = some (s, rest) := by
  induction s with
  | nil => rfl
  | cons c s ih =>
    rw [List.map_cons, String.join_cons, String.toList_append, List.append_assoc,
      readString_escape, ih]
    rfl

theorem toList_quote (s : String) (rest : List Char) :
    (quote s).toList ++ rest =
      '"' :: ((String.join (s.toList.map escape)).toList ++ '"' :: rest) := by
  simp [quote]

/-! ## Numbers -/

inductive Follow : List Char → Prop where
  | nothing : Follow []
  | lineBreak (rest : List Char) : Follow ('\n' :: rest)
  | comma (rest : List Char) : Follow (',' :: rest)

theorem follow_lineBreak (depth : Nat) (s : List Char) :
    Follow ((lineBreak depth).toList ++ s) := by
  rw [lineBreak, String.toList_ofList]
  exact .lineBreak _

theorem Follow.noDigit (h : Follow rest) : NoDigit rest := by
  intro c s hs
  cases h with
  | nothing => cases hs
  | lineBreak => cases hs; rfl
  | comma => cases hs; rfl

theorem Follow.readFraction (h : Follow rest) : readFraction rest = some ([], rest) := by
  cases h <;> rfl

theorem Follow.readExponent (h : Follow rest) : readExponent rest = some ([], rest) := by
  cases h <;> rfl

theorem readDigits_append {digits : List Char} (hne : digits ≠ [])
    (hdigits : ∀ c ∈ digits, c.isDigit = true) (hrest : NoDigit rest) :
    readDigits (digits ++ rest) = some (digits, rest) := by
  have htake : (digits ++ rest).takeWhile Char.isDigit = digits := by
    rw [List.takeWhile_append_of_pos hdigits, Text.takeWhile_isDigit hrest, List.append_nil]
  have hdrop : (digits ++ rest).dropWhile Char.isDigit = rest := by
    rw [List.dropWhile_append_of_pos hdigits, Text.dropWhile_isDigit hrest]
  unfold readDigits
  rw [htake, hdrop]
  split
  · next => contradiction
  · rfl

theorem readWhole_append {number : List Char} {n : Nat} (h : Natural number n)
    (hrest : NoDigit rest) : readWhole (number ++ rest) = some (number, rest) := by
  cases h with
  | zero => rfl
  | positive h =>
    unfold readWhole
    split
    · next after heq =>
      refine absurd ?_ h.leading
      cases number with
      | nil => exact absurd rfl h.nonempty
      | cons c ds =>
        cases heq
        rfl
    · exact readDigits_append h.nonempty h.digits hrest

theorem ofDigitChars_of_natural {number : List Char} {n : Nat} (h : Natural number n) :
    Nat.ofDigitChars 10 number 0 = n := by
  cases h with
  | zero => rfl
  | positive h => exact h.value

theorem readNumber_append {number : List Char} {n : Nat} (negative : Bool) (h : Natural number n)
    (hsign : ¬ (negative = true ∧ n = 0)) (hrest : Follow rest) :
    readNumber negative (number ++ rest) =
      some (.int (if negative then -(n : Int) else n), rest) := by
  simp [readNumber, readWhole_append h hrest.noDigit, hrest.readFraction, hrest.readExponent,
    ofDigitChars_of_natural h, hsign]

theorem isDigit_of_natural {number : List Char} {n : Nat} (h : Natural number n) :
    ∃ c s, number = c :: s ∧ c.isDigit = true := by
  cases h with
  | zero => exact ⟨'0', [], rfl, rfl⟩
  | positive h =>
    obtain ⟨c, s, rfl⟩ := List.exists_cons_of_ne_nil h.nonempty
    exact ⟨c, s, rfl, h.digits c List.mem_cons_self⟩

theorem readValue_digit {c : Char} (hc : c.isDigit = true) (s : List Char) :
    readValue (fuel + 1) (c :: s) = readNumber false (c :: s) := by
  have hspace : isSpace c = false := by
    unfold isSpace
    simp only [Bool.or_eq_false_iff, decide_eq_false_iff_not]
    refine ⟨⟨⟨?_, ?_⟩, ?_⟩, ?_⟩ <;> (rintro rfl; cases hc)
  rw [readValue, skipSpace_cons hspace]
  split <;> simp_all

theorem readValue_int (n : Int) (hrest : Follow rest) :
    readValue (fuel + 1) (n.repr.toList ++ rest) = some (.int n, rest) := by
  cases n with
  | ofNat n =>
    have hnumber := readNumber_append false (Text.natural_repr n) (by simp) hrest
    obtain ⟨c, s, hs, hc⟩ := isDigit_of_natural (Text.natural_repr n)
    show readValue (fuel + 1) (n.repr.toList ++ rest) = _
    rw [hs] at hnumber ⊢
    rw [List.cons_append, readValue_digit hc]
    exact hnumber
  | negSucc n =>
    have hnumber := readNumber_append true (Text.natural_repr (n + 1)) (by simp) hrest
    have hrepr : (Int.negSucc n).repr.toList = '-' :: (n + 1).repr.toList := String.toList_append
    rw [hrepr, List.cons_append, readValue, skipSpace_cons rfl]
    simpa [Int.negSucc_eq] using hnumber

/-! ## Lists and objects -/

/-- The text of `j` is read as `j`, on every level and whatever follows. -/
def Reads (j : Json) : Prop :=
  ∀ depth fuel rest, (prettyAt depth j).toList.length ≤ fuel → Follow rest →
    readValue (fuel + 1) ((prettyAt depth j).toList ++ rest) = some (j, rest)

theorem Reads.space {j : Json} (h : Reads j) {a : List Char} (ha : ∀ c ∈ a, isSpace c = true)
    (hfuel : (prettyAt depth j).toList.length ≤ fuel) (hrest : Follow rest) :
    readValue (fuel + 1) (a ++ ((prettyAt depth j).toList ++ rest)) = some (j, rest) := by
  rw [← readValue_skipSpace, skipSpace_append ha, readValue_skipSpace]
  exact h depth fuel rest hfuel hrest

theorem Reads.blank {j : Json} (h : Reads j) (hfuel : (prettyAt depth j).toList.length ≤ fuel)
    (hrest : Follow rest) :
    readValue (fuel + 1) (' ' :: ((prettyAt depth j).toList ++ rest)) = some (j, rest) :=
  h.space isSpace_blank hfuel hrest

section
variable {j : Json} (h : Reads j) (hfuel : (prettyAt depth j).toList.length ≤ fuel)
include h hfuel

theorem readItems_more (s : List Char) :
    readItems (fuel + 2) ((lineBreak depth).toList ++ ((prettyAt depth j).toList ++ ',' :: s)) =
      (readItems (fuel + 1) s).map fun (items, rest) => (j :: items, rest) := by
  rw [readItems, h.space (isSpace_lineBreak depth) hfuel (.comma s)]
  simp only [skipSpace_cons (show isSpace ',' = false from rfl)]

theorem readItems_last (outer : Nat) (rest : List Char) :
    readItems (fuel + 2) ((lineBreak depth).toList ++ ((prettyAt depth j).toList ++
      ((lineBreak outer).toList ++ ']' :: rest))) = some ([j], rest) := by
  rw [readItems, h.space (isSpace_lineBreak depth) hfuel (follow_lineBreak outer _)]
  simp only [skipSpace_append (isSpace_lineBreak outer),
    skipSpace_cons (show isSpace ']' = false from rfl)]

theorem readFields_more (name : String) (s : List Char) :
    readFields (fuel + 2) ((lineBreak depth).toList ++ ((quote name).toList ++
        (':' :: ' ' :: ((prettyAt depth j).toList ++ ',' :: s)))) =
      (readFields (fuel + 1) s).map fun (fields, rest) => ((name, j) :: fields, rest) := by
  have hvalue := h.blank hfuel (.comma s)
  rw [readFields, skipSpace_append (isSpace_lineBreak depth), toList_quote]
  simp only [skipSpace_cons (show isSpace '"' = false from rfl), readString_escapes,
    skipSpace_cons (show isSpace ':' = false from rfl), hvalue,
    skipSpace_cons (show isSpace ',' = false from rfl), String.ofList_toList]

theorem readFields_last (name : String) (outer : Nat) (rest : List Char) :
    readFields (fuel + 2) ((lineBreak depth).toList ++ ((quote name).toList ++
        (':' :: ' ' :: ((prettyAt depth j).toList ++
          ((lineBreak outer).toList ++ '\x7d' :: rest))))) =
      some ([(name, j)], rest) := by
  have hvalue := h.blank hfuel (follow_lineBreak outer ('\x7d' :: rest))
  rw [readFields, skipSpace_append (isSpace_lineBreak depth), toList_quote]
  simp only [skipSpace_cons (show isSpace '"' = false from rfl), readString_escapes,
    skipSpace_cons (show isSpace ':' = false from rfl), hvalue,
    skipSpace_append (isSpace_lineBreak outer),
    skipSpace_cons (show isSpace '\x7d' = false from rfl), String.ofList_toList]

end

/-- Reading goes through the items of a list, each of which takes at least its line break. -/
theorem readItems_pretty {items : List Json} (hne : items ≠ []) (h : ∀ j ∈ items, Reads j)
    (outer : Nat) (hfuel : (prettyItems depth items).toList.length ≤ fuel) :
    readItems (fuel + 1)
        ((prettyItems depth items).toList ++ ((lineBreak outer).toList ++ ']' :: rest)) =
      some (items, rest) := by
  induction items generalizing fuel with
  | nil => exact absurd rfl hne
  | cons item items ih =>
    rw [List.forall_mem_cons] at h
    cases items with
    | nil =>
      simp only [prettyItems, String.toList_append, List.length_append, length_lineBreak] at hfuel
      obtain ⟨fuel, rfl⟩ : ∃ n, fuel = n + 1 := ⟨fuel - 1, by omega⟩
      simp only [prettyItems, String.toList_append, List.append_assoc]
      exact readItems_last h.1 (by omega) outer rest
    | cons next items =>
      rw [prettyItems] at hfuel ⊢
      · simp only [String.toList_append, List.length_append, length_lineBreak] at hfuel
        obtain ⟨fuel, rfl⟩ : ∃ n, fuel = n + 1 := ⟨fuel - 1, by omega⟩
        simp only [String.toList_append, List.append_assoc]
        refine (readItems_more h.1 (by omega)
          ((prettyItems depth (next :: items)).toList ++ _)).trans ?_
        rw [ih (List.cons_ne_nil next items) h.2 (by omega)]
        rfl
      all_goals exact List.cons_ne_nil next items

theorem readFields_pretty {fields : List (String × Json)} (hne : fields ≠ [])
    (h : ∀ field ∈ fields, Reads field.2) (outer : Nat)
    (hfuel : (prettyFields depth fields).toList.length ≤ fuel) :
    readFields (fuel + 1)
        ((prettyFields depth fields).toList ++ ((lineBreak outer).toList ++ '\x7d' :: rest)) =
      some (fields, rest) := by
  induction fields generalizing fuel with
  | nil => exact absurd rfl hne
  | cons field fields ih =>
    rw [List.forall_mem_cons] at h
    cases fields with
    | nil =>
      simp only [prettyFields, String.toList_append, List.length_append, length_lineBreak] at hfuel
      obtain ⟨fuel, rfl⟩ : ∃ n, fuel = n + 1 := ⟨fuel - 1, by omega⟩
      simp only [prettyFields, String.toList_append, List.append_assoc]
      exact readFields_last h.1 (by omega) field.1 outer rest
    | cons next fields =>
      rw [prettyFields] at hfuel ⊢
      · simp only [String.toList_append, List.length_append, length_lineBreak] at hfuel
        obtain ⟨fuel, rfl⟩ : ∃ n, fuel = n + 1 := ⟨fuel - 1, by omega⟩
        simp only [String.toList_append, List.append_assoc]
        refine (readFields_more h.1 (by omega) field.1
          ((prettyFields depth (next :: fields)).toList ++ _)).trans ?_
        rw [ih (List.cons_ne_nil next fields) h.2 (by omega)]
        rfl
      all_goals exact List.cons_ne_nil next fields

theorem readItems_bracket (fuel : Nat) (s : List Char) : readItems fuel (']' :: s) = none := by
  match fuel with
  | 0 => rfl
  | 1 => rfl
  | _ + 2 => rfl

theorem readFields_brace (fuel : Nat) (s : List Char) : readFields fuel ('\x7d' :: s) = none := by
  cases fuel <;> rfl

/-- What is read as items has no closing bracket in front. -/
theorem readValue_items {body : List Char} {items : List Json}
    (h : readItems fuel body = some (items, rest)) :
    readValue (fuel + 1) ('[' :: body) = some (.arr items, rest) := by
  rw [readValue, skipSpace_cons rfl]
  rw [← readItems_skipSpace] at h
  simp only
  split
  · next hbody =>
    rw [hbody, readItems_bracket] at h
    cases h
  · rw [h]
    rfl

theorem readValue_fields {body : List Char} {fields : List (String × Json)}
    (h : readFields fuel body = some (fields, rest)) :
    readValue (fuel + 1) ('\x7b' :: body) = some (.obj (keepLast fields), rest) := by
  rw [readValue, skipSpace_cons rfl]
  rw [← readFields_skipSpace] at h
  simp only
  split
  · next hbody =>
    rw [hbody, readFields_brace] at h
    cases h
  · rw [h]
    rfl

theorem keepLast_of_nodup {fields : List (String × Json)} (h : (fields.map (·.1)).Nodup) :
    keepLast fields = fields := by
  induction fields with
  | nil => rfl
  | cons field fields ih =>
    rw [List.map_cons, List.nodup_cons] at h
    have hnone : ¬ fields.any (·.1 = field.1) = true := by
      intro hany
      obtain ⟨later, hmem, hname⟩ := List.any_eq_true.1 hany
      exact h.1 (List.mem_map.2 ⟨later, hmem, of_decide_eq_true hname⟩)
    rw [keepLast, if_neg hnone, ih h.2]

/-! ## Values -/

/-- Values of which nothing is lost by printing them: without numbers that are kept as text, and
with each name once in an object. -/
inductive Regular : Json → Prop where
  | null : Regular .null
  | bool (b : Bool) : Regular (.bool b)
  | int (n : Int) : Regular (.int n)
  | str (s : String) : Regular (.str s)
  | arr {items : List Json} (h : ∀ j ∈ items, Regular j) : Regular (.arr items)
  | obj {fields : List (String × Json)} (names : (fields.map (·.1)).Nodup)
      (h : ∀ field ∈ fields, Regular field.2) : Regular (.obj fields)

theorem reads_arr {items : List Json} (h : ∀ j ∈ items, Reads j) : Reads (.arr items) := by
  intro depth fuel rest hfuel _
  cases items with
  | nil =>
    rw [prettyAt]
    rfl
  | cons item items =>
    have hne := List.cons_ne_nil item items
    have hlength : (prettyItems (depth + 1) (item :: items)).toList.length + 1 ≤ fuel := by
      simp only [prettyAt, String.toList_append, List.length_append] at hfuel
      have hopen : "[".toList.length = 1 := rfl
      omega
    obtain ⟨fuel, rfl⟩ : ∃ n, fuel = n + 1 := ⟨fuel - 1, by omega⟩
    rw [prettyAt]
    · simp only [String.toList_append, List.append_assoc]
      exact readValue_items (readItems_pretty hne h depth (Nat.le_of_succ_le_succ hlength))
    · exact hne

theorem reads_obj {fields : List (String × Json)} (hnames : (fields.map (·.1)).Nodup)
    (h : ∀ field ∈ fields, Reads field.2) : Reads (.obj fields) := by
  intro depth fuel rest hfuel _
  cases fields with
  | nil =>
    rw [prettyAt]
    rfl
  | cons field fields =>
    have hne := List.cons_ne_nil field fields
    have hlength : (prettyFields (depth + 1) (field :: fields)).toList.length + 1 ≤ fuel := by
      simp only [prettyAt, String.toList_append, List.length_append] at hfuel
      have hopen : "\x7b".toList.length = 1 := rfl
      omega
    obtain ⟨fuel, rfl⟩ : ∃ n, fuel = n + 1 := ⟨fuel - 1, by omega⟩
    rw [prettyAt]
    · simp only [String.toList_append, List.append_assoc]
      refine (readValue_fields
        (readFields_pretty hne h depth (Nat.le_of_succ_le_succ hlength))).trans ?_
      rw [keepLast_of_nodup hnames]
      rfl
    · exact hne

theorem Regular.reads {j : Json} (h : Regular j) : Reads j := by
  induction h with
  | null =>
    intro depth fuel rest _ _
    rw [prettyAt]
    rfl
  | bool b =>
    intro depth fuel rest _ _
    rw [prettyAt]
    cases b <;> rfl
  | int n =>
    intro depth fuel rest _ hrest
    rw [prettyAt]
    exact readValue_int n hrest
  | str s =>
    intro depth fuel rest _ _
    rw [prettyAt, toList_quote, readValue, skipSpace_cons rfl]
    simp only [readString_escapes, Option.map_some, String.ofList_toList]
  | arr _ ih => exact reads_arr ih
  | obj hnames _ ih => exact reads_obj hnames ih

theorem read?_pretty_append {j : Json} (h : Regular j) (tail : String)
    (htail : Follow tail.toList) (hspace : tail.toList.all isSpace = true) :
    read? (j.pretty ++ tail) = some j := by
  have hlength : (prettyAt 0 j).toList.length ≤ ((prettyAt 0 j).toList ++ tail.toList).length := by
    simp
  have hread := h.reads 0 _ tail.toList hlength htail
  unfold read? pretty
  rw [String.toList_append, hread]
  exact if_pos hspace

theorem read?_pretty {j : Json} (h : Regular j) : read? j.pretty = some j := by
  have hread := read?_pretty_append h "" .nothing rfl
  rwa [String.append_empty] at hread

end TwoPhase.Json
