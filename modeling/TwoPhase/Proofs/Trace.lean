import TwoPhase.Proofs.Decoding
import TwoPhase.Proofs.History

/-!
# What a trace tells

Different histories have different traces. A trace is cut at its newlines and a line at its
commas, which stand in no field (`Entry.unmarked_of_mem_fields`). So equal traces have the
same fields, and it remains to see that the fields of an entry determine it.

* `Entry.fields`: the fields of a line. Their number depends on the kind of the entry, which
  is told by the first one.
* `linkValue`: a missing link is written as the number -1, which is no link.
* `Entry.ofEvent_line_injective`, `trace_determines_history`: the results for lines and traces.
-/

namespace TwoPhase

namespace Text

theorem int_repr_injective {m n : Int} (h : m.repr = n.repr) : m = n := by
  have hnone : NoDigit [] := nofun
  have hm := integer?_append (integer_repr m) hnone
  rw [h, integer?_append (integer_repr n) hnone] at hm
  cases hm
  rfl

theorem Integer.mem_cases {s : List Char} {n : Int} (h : Integer s n) {c : Char} (hc : c ∈ s) :
    c.isDigit = true ∨ c = '+' ∨ c = '-' := by
  cases h with
  | zero =>
    rw [List.mem_singleton.1 hc]
    decide
  | unsigned h => exact .inl (h.digits c hc)
  | plus h =>
    rcases List.mem_cons.1 hc with rfl | hc
    · exact .inr (.inl rfl)
    · exact .inl (h.digits c hc)
  | minus h =>
    rcases List.mem_cons.1 hc with rfl | hc
    · exact .inr (.inr rfl)
    · exact .inl (h.digits c hc)

/-- A text without the marks that end fields and lines. -/
def Unmarked (s : List Char) : Prop := ∀ c ∈ s, c ≠ ',' ∧ c ≠ '\n'

instance (s : List Char) : Decidable (Unmarked s) := List.decidableBAll _ s

theorem Unmarked.append {s s' : List Char} (h : Unmarked s) (h' : Unmarked s') :
    Unmarked (s ++ s') := List.forall_mem_append.2 ⟨h, h'⟩

theorem unmarked_repr (n : Int) : Unmarked n.repr.toList := by
  intro c hc
  rcases (integer_repr n).mem_cases hc with hdigit | rfl | rfl
  · constructor <;> rintro rfl <;> cases hdigit
  · decide
  · decide

theorem length_field {α : Type} (f : α → List Char) {o o' : Option α} (h : o.isSome = o'.isSome) :
    (o.map f).toList.length = (o'.map f).toList.length := by
  cases o <;> cases o' <;> trivial

theorem field_injective {α : Type} {f : α → List Char} (hf : Function.Injective f)
    {o o' : Option α} (h : (o.map f).toList = (o'.map f).toList) : o = o' := by
  cases o <;> cases o' <;> simp_all [hf.eq_iff]

theorem intercalate_cons (mark : Char) (first : List Char) (rest : List (List Char)) :
    [mark].intercalate (first :: rest) = first ++ rest.flatMap (mark :: ·) := by
  induction rest generalizing first with
  | nil => simp
  | cons second rest ih => simp [List.intercalate_cons_cons, ih]

/-- Texts with a mark between them tell the texts, if the mark is in none of them. -/
theorem intercalate_injective {mark : Char} {pieces others : List (List Char)} (hne : pieces ≠ [])
    (hne' : others ≠ []) (h : ∀ s ∈ pieces, mark ∉ s) (h' : ∀ s ∈ others, mark ∉ s)
    (heq : [mark].intercalate pieces = [mark].intercalate others) : pieces = others := by
  rw [← List.splitOn_intercalate mark h hne, heq, List.splitOn_intercalate mark h' hne']

end Text

open Text

/-! ## Fields -/

def linkValue : Option Nat → Int
  | some lsn => lsn
  | none => -1

theorem linkValue_injective {link link' : Option Nat} (h : linkValue link = linkValue link') :
    link = link' := by
  cases link <;> cases link' <;> grind [linkValue]

theorem EntryKind.letter_injective {kind kind' : EntryKind} (h : kind.letter = kind'.letter) :
    kind = kind' := by
  revert h
  cases kind <;> cases kind' <;> decide

namespace Entry

def fields (e : Entry) : List (List Char) :=
  [(e.kind.letter ++ ":" ++ e.lsn.repr).toList, (transactionName e.transaction).toList]
    ++ (e.record.map (·.toNat.repr.toList)).toList
    ++ (e.old.map (·.toInt.repr.toList)).toList
    ++ (e.new.map (·.toInt.repr.toList)).toList
    ++ [(linkValue e.previous).repr.toList]

theorem fields_ne_nil (e : Entry) : e.fields ≠ [] := by simp [fields]

theorem line_eq (e : Entry) :
    e.line = e.kind.letter ++ ":" ++ e.lsn.repr ++ "," ++ transactionName e.transaction
      ++ fieldText (e.record.map (·.toNat.repr)) ++ fieldText (e.old.map (·.toInt.repr))
      ++ fieldText (e.new.map (·.toInt.repr)) ++ "," ++ (linkValue e.previous).repr := by
  obtain ⟨kind, lsn, t, record, old, new, previous⟩ := e
  cases previous <;> rfl

theorem toList_fieldText (text : Option String) :
    (fieldText text).toList = (text.map String.toList).toList.flatMap (',' :: ·) := by
  cases text <;> simp [fieldText]

theorem toList_line (e : Entry) : e.line.toList = [','].intercalate e.fields := by
  have hcomma : ",".toList = [','] := rfl
  rw [line_eq, fields]
  simp only [String.toList_append, toList_fieldText, hcomma, Option.map_map, Function.comp_def,
    List.cons_append, List.nil_append, intercalate_cons, List.flatMap_cons, List.flatMap_append,
    List.flatMap_nil, List.append_nil, List.append_assoc]

theorem unmarked_of_mem_fields (e : Entry) : ∀ field ∈ e.fields, Unmarked field := by
  intro field hfield
  simp only [fields, List.mem_append, List.mem_cons, List.not_mem_nil, or_false,
    Option.mem_toList, Option.map_eq_some_iff] at hfield
  rcases hfield with ((((rfl | rfl) | ⟨record, -, rfl⟩) | ⟨old, -, rfl⟩) | ⟨new, -, rfl⟩) | rfl
  · have hletter : Unmarked e.kind.letter.toList := by cases e.kind <;> decide
    rw [String.toList_append, String.toList_append]
    exact (hletter.append (by decide)).append (unmarked_repr e.lsn)
  · rw [transactionName, String.toList_append]
    exact .append (by decide) (unmarked_repr e.transaction)
  · exact unmarked_repr record.toNat
  · exact unmarked_repr old.toInt
  · exact unmarked_repr new.toInt
  · exact unmarked_repr _

theorem kind_lsn_of_fields {e e' : Entry} (h : e.fields = e'.fields) :
    e.kind = e'.kind ∧ e.lsn = e'.lsn := by
  have hfirst : e.kind.letter.toList ++ (":".toList ++ e.lsn.repr.toList) =
      e'.kind.letter.toList ++ (":".toList ++ e'.lsn.repr.toList) := by
    simpa only [String.toList_append, List.append_assoc] using (List.cons.inj h).1
  have hlength (kind : EntryKind) : kind.letter.toList.length = 1 := by cases kind <;> rfl
  obtain ⟨hletter, hlsn⟩ := List.append_inj hfirst ((hlength _).trans (hlength _).symm)
  constructor
  · exact EntryKind.letter_injective (String.toList_injective hletter)
  · exact repr_injective (String.toList_injective (List.append_cancel_left hlsn))

theorem eq_of_fields {e e' : Entry} (h : e.fields = e'.fields)
    (hold : e.old.isSome = e'.old.isSome) (hnew : e.new.isSome = e'.new.isSome) : e = e' := by
  obtain ⟨hkind, hlsn⟩ := kind_lsn_of_fields h
  obtain ⟨hfields, hlinks⟩ := List.append_inj' h rfl
  obtain ⟨hfields, hnews⟩ := List.append_inj' hfields (length_field _ hnew)
  obtain ⟨hfields, holds⟩ := List.append_inj' hfields (length_field _ hold)
  obtain ⟨hnames, hrecords⟩ := List.append_inj hfields rfl
  have ht : e.transaction = e'.transaction := by
    have hname : "T".toList ++ e.transaction.repr.toList =
        "T".toList ++ e'.transaction.repr.toList := by
      simpa only [transactionName, String.toList_append] using
        (List.cons.inj (List.cons.inj hnames).2).1
    exact repr_injective (String.toList_injective (List.append_cancel_left hname))
  obtain ⟨kind, lsn, t, record, old, new, previous⟩ := e
  obtain ⟨kind', lsn', t', record', old', new', previous'⟩ := e'
  rw [mk.injEq]
  refine ⟨hkind, hlsn, ht, field_injective ?_ hrecords, field_injective ?_ holds,
    field_injective ?_ hnews, ?_⟩
  · exact fun _ _ hr => UInt64.toNat_inj.1 (repr_injective (String.toList_injective hr))
  · exact fun _ _ hv => Int64.toInt_inj.1 (int_repr_injective (String.toList_injective hv))
  · exact fun _ _ hv => Int64.toInt_inj.1 (int_repr_injective (String.toList_injective hv))
  · have hlink := String.toList_injective (List.singleton_inj.1 hlinks)
    exact linkValue_injective (int_repr_injective hlink)

theorem isSome_ofEvent (lsn t : Nat) (previous : Option Nat) (e : Event) :
    (ofEvent lsn t previous e).old.isSome = decide ((ofEvent lsn t previous e).kind = .write) ∧
      (ofEvent lsn t previous e).new.isSome = !(ofEvent lsn t previous e).kind.isTerminal := by
  cases e <;> exact ⟨rfl, rfl⟩

/-- A line tells everything about its entry. -/
theorem ofEvent_line_injective {lsn lsn' t t' : Nat} {previous previous' : Option Nat}
    {e e' : Event} (h : (ofEvent lsn t previous e).line = (ofEvent lsn' t' previous' e').line) :
    ofEvent lsn t previous e = ofEvent lsn' t' previous' e' := by
  have hfields : (ofEvent lsn t previous e).fields = (ofEvent lsn' t' previous' e').fields := by
    refine intercalate_injective (fields_ne_nil _) (fields_ne_nil _)
      (fun s hs hc => (unmarked_of_mem_fields _ s hs _ hc).1 rfl)
      (fun s hs hc => (unmarked_of_mem_fields _ s hs _ hc).1 rfl) ?_
    rw [← toList_line, ← toList_line, h]
  have hkind := (kind_lsn_of_fields hfields).1
  refine eq_of_fields hfields ?_ ?_
  · rw [(isSome_ofEvent ..).1, (isSome_ofEvent ..).1, hkind]
  · rw [(isSome_ofEvent ..).2, (isSome_ofEvent ..).2, hkind]

theorem newline_notMem_line (e : Entry) : '\n' ∉ e.line.toList := by
  obtain ⟨first, rest, hfields⟩ := List.exists_cons_of_ne_nil e.fields_ne_nil
  have hfree := e.unmarked_of_mem_fields
  rw [hfields, List.forall_mem_cons] at hfree
  rw [toList_line, hfields, intercalate_cons, List.mem_append, List.mem_flatMap]
  rintro (hc | ⟨field, hfield, hc⟩)
  · exact (hfree.1 _ hc).2 rfl
  · rcases List.mem_cons.1 hc with hcomma | hc
    · cases hcomma
    · exact (hfree.2 field hfield _ hc).2 rfl

end Entry

/-! ## Traces -/

theorem toList_traceText_cons (e : Entry) (rest : List Entry) :
    (traceText (e :: rest)).toList = e.line.toList ++ '\n' :: (traceText rest).toList := by
  simp [traceText]

/-- The first line of a trace ends at its first newline. -/
theorem traceText_cons_inj {e e' : Entry} {rest rest' : List Entry}
    (h : traceText (e :: rest) = traceText (e' :: rest')) :
    e.line = e'.line ∧ traceText rest = traceText rest' := by
  have hcut := congrArg (List.splitOn '\n' ·.toList) h
  simp only [toList_traceText_cons,
    List.splitOn_append_cons_self_of_not_mem (Entry.newline_notMem_line _)] at hcut
  obtain ⟨hline, hrest⟩ := List.cons.inj hcut
  refine ⟨String.toList_injective hline, String.toList_injective ?_⟩
  calc (traceText rest).toList
    _ = ['\n'].intercalate (List.splitOn '\n' (traceText rest).toList) :=
      (List.intercalate_splitOn '\n').symm
    _ = ['\n'].intercalate (List.splitOn '\n' (traceText rest').toList) := by rw [hrest]
    _ = (traceText rest').toList := List.intercalate_splitOn '\n'

theorem traceText_cons_ne_nil (e : Entry) (rest : List Entry) :
    traceText (e :: rest) ≠ traceText [] := by
  intro h
  have := congrArg String.toList h
  rw [toList_traceText_cons] at this
  simp [traceText] at this

/-- Lines that tell their entries make a trace that tells them. -/
theorem eq_of_traceText {entries others : List Entry}
    (hline : ∀ e ∈ entries, ∀ e' ∈ others, e.line = e'.line → e = e')
    (h : traceText entries = traceText others) : entries = others := by
  induction entries generalizing others with
  | nil =>
    cases others with
    | nil => rfl
    | cons e' rest' => exact absurd h.symm (traceText_cons_ne_nil e' rest')
  | cons e rest ih =>
    cases others with
    | nil => exact absurd h (traceText_cons_ne_nil e rest)
    | cons e' rest' =>
      obtain ⟨hfirst, hrest⟩ := traceText_cons_inj h
      rw [hline e List.mem_cons_self e' List.mem_cons_self hfirst,
        ih (fun x hx y hy => hline x (.tail _ hx) y (.tail _ hy)) hrest]

/-- **A trace determines the history.** Two histories, however they were built, have the same trace
only if they agree entry by entry in every field. -/
theorem trace_determines_history {h h' : History} (hb : h.Built) (hb' : h'.Built) :
    h.trace = h'.trace ↔ h = h' := by
  constructor
  · intro htrace
    refine congrArg History.mk (eq_of_traceText (fun e he e' he' hline => ?_) htrace)
    obtain ⟨lsn, previous, event, -, heq⟩ := hb.eq_ofEvent he
    obtain ⟨lsn', previous', event', -, heq'⟩ := hb'.eq_ofEvent he'
    rw [heq, heq'] at hline ⊢
    exact Entry.ofEvent_line_injective hline
  · rintro rfl
    rfl

/-- A read of -1, and a write of -1 over -1, each without a link. -/
theorem trace_determines_history_minusOne :
    ∃ h h' : History, h = History.empty.append 1 (.read 1 (-1)) ∧
      h' = History.empty.append 1 (.write 1 (-1) (-1)) ∧ h.Built ∧ h'.Built ∧
      h.trace ≠ h'.trace := by
  have hb := History.Built.empty.append 1 (.read 1 (-1))
  have hb' := History.Built.empty.append 1 (.write 1 (-1) (-1))
  refine ⟨_, _, rfl, rfl, hb, hb', fun htrace => ?_⟩
  exact absurd ((trace_determines_history hb hb').1 htrace) (by decide)

end TwoPhase
