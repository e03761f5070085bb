import TwoPhase.Database
import TwoPhase.Proofs.Serial

/-!
# The history as a list of events

`History.Built`: the histories that grow from nothing, one event at a time. In
these an entry's `lsn` is its position and its link leads to the entry of the
same transaction before it, so a chain is a transaction's entries backwards
(`Built.chain_eq`). `eventsWhere` reads off the events of the transactions that
count; replaying a history is redoing these events (`Built.replayWhere_eq`), and
aborting a transaction is undoing its own (`Built.undoAll_chain`).
-/

namespace TwoPhase

/-! ## Entries and their events -/

namespace Entry

def event? (e : Entry) : Option Event :=
  match e.kind, e.record, e.old, e.new with
  | .read, some record, _, some value => some (.read record value)
  | .write, some record, some old, some new => some (.write record old new)
  | .commit, _, _, _ => some .commit
  | .abort, _, _, _ => some .abort
  | _, _, _, _ => none

@[simp] theorem event?_ofEvent (lsn t : Nat) (previous : Option Nat) (e : Event) :
    (ofEvent lsn t previous e).event? = some e := by
  cases e <;> rfl

@[simp] theorem lsn_ofEvent (lsn t : Nat) (previous : Option Nat) (e : Event) :
    (ofEvent lsn t previous e).lsn = lsn := by
  cases e <;> rfl

@[simp] theorem transaction_ofEvent (lsn t : Nat) (previous : Option Nat) (e : Event) :
    (ofEvent lsn t previous e).transaction = t := by
  cases e <;> rfl

@[simp] theorem previous_ofEvent (lsn t : Nat) (previous : Option Nat) (e : Event) :
    (ofEvent lsn t previous e).previous = previous := by
  cases e <;> rfl

@[simp] theorem kind_ofEvent_eq_commit {lsn t : Nat} {previous : Option Nat} {e : Event} :
    (ofEvent lsn t previous e).kind = .commit ↔ e = .commit := by
  cases e <;> simp [ofEvent]

end Entry

/-- The event touches only records of a store of `size` records. -/
def Event.Fits (size : Nat) (e : Event) : Prop := ∀ i, e.Touches i → i < size

theorem Event.fits_commit {size : Nat} : Event.commit.Fits size := fun _ hi => hi.elim

theorem Event.fits_abort {size : Nat} : Event.abort.Fits size := fun _ hi => hi.elim

theorem History.redo_ofEvent {lsn t : Nat} {previous : Option Nat} {e : Event} {s : Store}
    (h : e.Fits s.size) : History.redo (.ofEvent lsn t previous e) s = .ok (e.redo s) := by
  cases e with
  | write record old new =>
    obtain ⟨v, hv⟩ := Store.exists_value? (h _ rfl)
    simp only [History.redo, Entry.ofEvent, Event.redo, Store.set_eq_ok_iff.2 ⟨hv, rfl⟩,
      Except.map]
  | _ => rfl

theorem Database.undo_ofEvent {lsn t : Nat} {previous : Option Nat} {e : Event} {s : Store}
    (h : e.Fits s.size) : Database.undo (.ofEvent lsn t previous e) s = .ok (e.undo s) := by
  cases e with
  | write record old new =>
    obtain ⟨v, hv⟩ := Store.exists_value? (h _ rfl)
    simp only [Database.undo, Entry.ofEvent, Event.undo, Store.set_eq_ok_iff.2 ⟨hv, rfl⟩,
      Except.map]
  | _ => rfl

theorem Database.undoAll_append (entries later : List Entry) (s : Store) :
    Database.undoAll (entries ++ later) s =
      (Database.undoAll entries s).bind (Database.undoAll later) := by
  induction entries generalizing s with
  | nil => rfl
  | cons entry rest ih =>
    simp only [List.cons_append, Database.undoAll]
    cases Database.undo entry s with
    | error e => rfl
    | ok s' => exact ih s'

namespace History

/-! ## Histories that grow -/

inductive Built : History → Prop where
  | empty : Built .empty
  | append {h : History} (t : Nat) (e : Event) : Built h → Built (h.append t e)

def entriesOf (h : History) (t : Nat) : List Entry := h.entries.filter (·.transaction = t)

def eventsWhere (h : History) (counts : Nat → Bool) : List Event :=
  (h.entries.filter (counts ·.transaction)).filterMap Entry.event?

def eventsOf (h : History) (t : Nat) : List Event := (h.entriesOf t).filterMap Entry.event?

@[simp] theorem length_append (h : History) (t : Nat) (e : Event) :
    (h.append t e).length = h.length + 1 := by simp [append, length]

theorem eventsWhere_append (h : History) (counts : Nat → Bool) (t : Nat) (e : Event) :
    (h.append t e).eventsWhere counts =
      h.eventsWhere counts ++ if counts t then [e] else [] := by
  unfold eventsWhere append
  by_cases hc : counts t = true <;> simp [hc]

theorem entriesOf_append (h : History) (t : Nat) (e : Event) (u : Nat) :
    (h.append t e).entriesOf u =
      h.entriesOf u ++ if t = u then [.ofEvent h.length t (h.last? t) e] else [] := by
  unfold entriesOf append
  by_cases hu : t = u <;> simp [hu]

theorem eventsOf_eq (h : History) (t : Nat) : h.eventsOf t = h.eventsWhere (· = t) := rfl

theorem eventsOf_append (h : History) (t : Nat) (e : Event) (u : Nat) :
    (h.append t e).eventsOf u = h.eventsOf u ++ if t = u then [e] else [] := by
  rw [eventsOf_eq, eventsWhere_append, eventsOf_eq]
  simp only [decide_eq_true_eq]

@[simp] theorem eventsOf_append_self (h : History) (t : Nat) (e : Event) :
    (h.append t e).eventsOf t = h.eventsOf t ++ [e] := by
  rw [eventsOf_append, if_pos rfl]

theorem eventsOf_append_other (h : History) {t u : Nat} (e : Event) (hu : u ≠ t) :
    (h.append t e).eventsOf u = h.eventsOf u := by
  rw [eventsOf_append, if_neg hu.symm, List.append_nil]

theorem forall_eventsOf_append {h : History} {P : Event → Prop}
    (hold : ∀ u, ∀ e ∈ h.eventsOf u, P e) {e : Event} (he : P e) (t : Nat) :
    ∀ u, ∀ e' ∈ (h.append t e).eventsOf u, P e' := by
  intro u e' hmem
  rw [eventsOf_append, List.mem_append] at hmem
  rcases hmem with hmem | hmem
  · exact hold u e' hmem
  · split at hmem
    · exact List.mem_singleton.1 hmem ▸ he
    · cases hmem

theorem last?_append (h : History) (t : Nat) (e : Event) (u : Nat) :
    (h.append t e).last? u = if t = u then some h.length else h.last? u := by
  unfold last? append
  by_cases hu : t = u <;> simp [hu]

theorem get?_append_of_lt {h : History} {lsn : Nat} (hlt : lsn < h.length) (t : Nat) (e : Event) :
    (h.append t e).get? lsn = h.get? lsn := List.getElem?_append_left hlt

theorem get?_append_length (h : History) (t : Nat) (e : Event) :
    (h.append t e).get? h.length = some (.ofEvent h.length t (h.last? t) e) := by
  simp [get?, append, length]

theorem get?_append_eq_some {h : History} {lsn t : Nat} {e : Event} {entry : Entry}
    (hget : (h.append t e).get? lsn = some entry) :
    (lsn = h.length ∧ entry = .ofEvent h.length t (h.last? t) e) ∨
      (lsn < h.length ∧ h.get? lsn = some entry) := by
  have hlt : lsn < h.length + 1 := by
    rw [← length_append h t e]
    exact (List.getElem?_eq_some_iff.1 hget).1
  rcases Nat.lt_succ_iff_lt_or_eq.1 hlt with hl | rfl
  · exact .inr ⟨hl, get?_append_of_lt hl t e ▸ hget⟩
  · rw [get?_append_length] at hget
    exact .inl ⟨rfl, (Option.some.inj hget).symm⟩

namespace Built

variable {h : History}

theorem map_lsn (hb : Built h) : h.entries.map (·.lsn) = List.range h.length := by
  induction hb with
  | empty => rfl
  | append t e _ ih =>
    rw [length_append, List.range_succ, ← ih]
    simp [History.append]

theorem last?_lt (hb : Built h) {t lsn : Nat} (hlast : h.last? t = some lsn) :
    lsn < h.length := by
  induction hb with
  | empty => cases hlast
  | append u e _ ih =>
    rw [last?_append] at hlast
    rw [length_append]
    split at hlast
    · cases hlast
      omega
    · have := ih hlast
      omega

theorem previous_lt (hb : Built h) {i p : Nat} {entry : Entry} (hget : h.get? i = some entry)
    (hp : entry.previous = some p) : p < i := by
  induction hb with
  | empty => cases hget
  | append t e hb ih =>
    rcases get?_append_eq_some hget with ⟨rfl, rfl⟩ | ⟨-, hold⟩
    · rw [Entry.previous_ofEvent] at hp
      exact hb.last?_lt hp
    · exact ih hold

/-- Every entry tells of an event of its transaction. -/
theorem eq_ofEvent (hb : Built h) {entry : Entry} (hmem : entry ∈ h.entries) :
    ∃ lsn previous, ∃ e ∈ h.eventsOf entry.transaction,
      entry = .ofEvent lsn entry.transaction previous e := by
  induction hb with
  | empty => cases hmem
  | @append h t e _ ih =>
    rcases List.mem_append.1 hmem with hold | hnew
    · obtain ⟨lsn, previous, e', he', heq⟩ := ih hold
      exact ⟨lsn, previous, e', by rw [eventsOf_append]; exact List.mem_append_left _ he', heq⟩
    · rw [List.mem_singleton.1 hnew]
      exact ⟨h.length, h.last? t, e, by simp, by simp⟩

theorem map_event?_entriesOf (hb : Built h) (t : Nat) :
    (h.entriesOf t).map Entry.event? = (h.eventsOf t).map some := by
  unfold eventsOf
  have hall : ∀ entry ∈ h.entriesOf t, entry.event?.isSome = true := by
    intro entry hentry
    obtain ⟨lsn, previous, e, -, he⟩ := hb.eq_ofEvent (List.mem_filter.1 hentry).1
    rw [he, Entry.event?_ofEvent]
    rfl
  generalize h.entriesOf t = entries at hall
  induction entries with
  | nil => rfl
  | cons entry rest ih =>
    obtain ⟨e, he⟩ := Option.isSome_iff_exists.1 (hall entry List.mem_cons_self)
    rw [List.map_cons, List.filterMap_cons_some he, List.map_cons, he,
      ih fun x hx => hall x (List.mem_cons_of_mem _ hx)]

/-! ## Chains -/

/-- Links lead backwards, so a chain from an old entry does not see newer ones. -/
theorem chainFrom_append (hb : Built h) (t : Nat) (e : Event) {fuel : Nat} {start : Option Nat}
    (hstart : ∀ lsn ∈ start, lsn < h.length) :
    (h.append t e).chainFrom fuel start = h.chainFrom fuel start := by
  induction fuel generalizing start with
  | zero => rfl
  | succ fuel ih =>
    cases start with
    | none => rfl
    | some lsn =>
      have hlt := hstart lsn rfl
      rw [chainFrom, chainFrom, get?_append_of_lt hlt]
      cases hget : h.get? lsn with
      | none => rfl
      | some entry =>
        refine congrArg (entry :: ·) (ih fun p hp => ?_)
        have := hb.previous_lt hget hp
        omega

/-- Fuel beyond the position a chain starts from makes no difference. -/
theorem chainFrom_fuel (hb : Built h) {fuel : Nat} {start : Option Nat}
    (hstart : ∀ lsn ∈ start, lsn < fuel) :
    h.chainFrom (fuel + 1) start = h.chainFrom fuel start := by
  induction fuel generalizing start with
  | zero =>
    cases start with
    | none => rfl
    | some lsn => exact absurd (hstart lsn rfl) (Nat.not_lt_zero lsn)
  | succ fuel ih =>
    cases start with
    | none => rfl
    | some lsn =>
      rw [chainFrom, chainFrom]
      cases hget : h.get? lsn with
      | none => rfl
      | some entry =>
        refine congrArg (entry :: ·) (ih fun p hp => ?_)
        have := hb.previous_lt hget hp
        have := hstart lsn rfl
        omega

/-- A chain is the transaction's entries backwards. -/
theorem chain_eq (hb : Built h) (t : Nat) : h.chain t = (h.entriesOf t).reverse := by
  induction hb with
  | empty => rfl
  | @append h u e hb ih =>
    have hstart : ∀ v, ∀ lsn ∈ h.last? v, lsn < h.length := fun v lsn hl => hb.last?_lt hl
    unfold chain
    rw [last?_append, length_append]
    by_cases hu : u = t
    · subst hu
      rw [if_pos rfl, chainFrom, get?_append_length]
      simp only [Entry.previous_ofEvent]
      rw [hb.chainFrom_append u e (hstart u), ← chain, ih]
      rw [entriesOf_append, if_pos rfl, List.reverse_append]
      rfl
    · rw [if_neg hu, hb.chainFrom_append u e (hstart t), hb.chainFrom_fuel (hstart t), ← chain, ih]
      rw [entriesOf_append, if_neg hu, List.append_nil]

/-! ## Replay and undo -/

/-- The newest entry decides whether a transaction counts as committed. -/
theorem committed_append (hb : Built h) (t : Nat) (e : Event) (u : Nat) :
    (h.append t e).committed u = if t = u then decide (e = .commit) else h.committed u := by
  unfold committed
  rw [last?_append]
  by_cases hu : t = u
  · rw [if_pos hu, if_pos hu, Option.bind_some, get?_append_length]
    simp only [Entry.kind_ofEvent_eq_commit]
  · rw [if_neg hu, if_neg hu]
    cases hlast : h.last? u with
    | none => rfl
    | some lsn => rw [Option.bind_some, Option.bind_some, get?_append_of_lt (hb.last?_lt hlast)]

theorem tells (hb : Built h) {size : Nat} (hfits : ∀ t, ∀ e ∈ h.eventsOf t, e.Fits size) :
    ∀ entry ∈ h.entries,
      ∃ lsn t previous e, entry = .ofEvent lsn t previous e ∧ e.Fits size := by
  intro entry hmem
  obtain ⟨lsn, previous, e, he, heq⟩ := hb.eq_ofEvent hmem
  exact ⟨lsn, entry.transaction, previous, e, heq, hfits _ e he⟩

/-- Replaying a history redoes the events of the transactions that count. -/
theorem replayWhere_eq (hb : Built h) (counts : Nat → Bool) {s : Store}
    (hfits : ∀ t, ∀ e ∈ h.eventsOf t, e.Fits s.size) :
    replayWhere counts h.entries s = .ok (redoAll (h.eventsWhere counts) s) := by
  have hall := hb.tells hfits
  unfold eventsWhere
  generalize h.entries = entries at hall
  clear hfits
  induction entries generalizing s with
  | nil => rfl
  | cons entry rest ih =>
    obtain ⟨lsn, t, previous, e, rfl, hfit⟩ := hall entry List.mem_cons_self
    have hrest := fun x hx => hall x (List.mem_cons_of_mem _ hx)
    by_cases hc : counts t = true
    · simp only [replayWhere, Entry.transaction_ofEvent, if_pos hc, redo_ofEvent hfit,
        Except.bind, List.filter_cons, List.filterMap_cons, Entry.event?_ofEvent, redoAll]
      exact ih (by simpa using hrest)
    · simp only [replayWhere, Entry.transaction_ofEvent, if_neg hc, List.filter_cons]
      exact ih hrest

/-- Following the chain of `t` undoes its events, newest first. -/
theorem undoAll_chain (hb : Built h) (t : Nat) {s : Store}
    (hfits : ∀ t, ∀ e ∈ h.eventsOf t, e.Fits s.size) :
    Database.undoAll (h.chain t) s = .ok (undoAll (h.eventsOf t) s) := by
  have hall := fun entry (hmem : entry ∈ h.entriesOf t) =>
    hb.tells hfits entry (List.mem_filter.1 hmem).1
  rw [hb.chain_eq]
  unfold eventsOf
  generalize h.entriesOf t = entries at hall
  induction entries with
  | nil => rfl
  | cons entry rest ih =>
    obtain ⟨lsn, u, previous, e, rfl, hfit⟩ := hall entry List.mem_cons_self
    rw [List.reverse_cons, Database.undoAll_append,
      ih fun x hx => hall x (List.mem_cons_of_mem _ hx)]
    simp only [Except.bind, Database.undoAll, List.filterMap_cons, Entry.event?_ofEvent, undoAll]
    rw [Database.undo_ofEvent (by simpa using hfit)]

end Built

end History

end TwoPhase
