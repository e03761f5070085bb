import Mathlib.Data.List.AList
import Mathlib.Data.List.Induction
import Mathlib.Order.Bounds.Basic
import TwoPhase.Proofs.History

/-!
# Chains

A history looks for the newest entry of a transaction from the end. A log that is to be
fast keeps a table of them instead, the tails: a new entry links to the tail it replaces,
and nobody looks at the other entries. `Log` is such a log, and it is as good as a history
(`Log.after_eq`).

Links are then followed blindly, from position to position (`Follows`). They never lead
astray:

* `Built.link`: a link leads to the newest entry of the same transaction before it.
* `Built.follows`: links lead backwards, so following them comes to an end.
* `chain_runs_backwards`: after any calls, the chain of a transaction is its entries,
  newest first, and it starts at the tail.
-/

namespace TwoPhase

/-- A history with the position of each transaction's newest entry, its tail. -/
structure Log where
  entries : List Entry
  tails : AList fun _ : Nat => Nat

namespace Log

def empty : Log := ⟨[], ∅⟩

/-- Adds what `t` did at the end, linked to the tail of `t`, which it replaces. -/
def append (log : Log) (t : Nat) (event : Event) : Log where
  entries := log.entries ++ [.ofEvent log.entries.length t (log.tails.lookup t) event]
  tails := log.tails.insert t log.entries.length

def after (calls : List (Nat × Event)) : Log :=
  calls.foldl (fun log call => log.append call.1 call.2) empty

end Log

/-- Following links from `start` finds exactly the entries `found`, in this order, and ends. -/
inductive Follows (entries : List Entry) : Option Nat → List Entry → Prop where
  | done {start : Option Nat} : start.bind (entries[·]?) = none → Follows entries start []
  | step {start : Option Nat} {entry : Entry} {found : List Entry} :
      start.bind (entries[·]?) = some entry → Follows entries entry.previous found →
      Follows entries start (entry :: found)

theorem Follows.unique {entries found others : List Entry} {start : Option Nat}
    (h : Follows entries start found) (h' : Follows entries start others) : found = others := by
  induction h generalizing others with
  | done hnone =>
    cases h' with
    | done => rfl
    | step hsome => rw [hnone] at hsome; cases hsome
  | step hsome _ ih =>
    cases h' with
    | done hnone => rw [hsome] at hnone; cases hnone
    | step hsome' hrest =>
      rw [hsome] at hsome'
      cases hsome'
      rw [ih hrest]

namespace History

def after (calls : List (Nat × Event)) : History :=
  calls.foldl (fun h call => h.append call.1 call.2) empty

/-- The positions before `i` that hold an entry of `t`. -/
def before (h : History) (i t : Nat) : Set Nat :=
  {j | j < i ∧ ∃ entry, h.get? j = some entry ∧ entry.transaction = t}

/-- `link` is the greatest of these positions, and missing if there are none. -/
def Newest (positions : Set Nat) : (link : Option Nat) → Prop
  | some j => IsGreatest positions j
  | none => positions = ∅

theorem Built.after (calls : List (Nat × Event)) : (History.after calls).Built := by
  induction calls using List.reverseRecOn with
  | nil => exact .empty
  | append_singleton calls call ih =>
    rw [History.after, List.foldl_concat]
    exact ih.append call.1 call.2

/-! ## Links -/

variable {h : History}

theorem before_append_of_le {i : Nat} (hi : i ≤ h.length) (t : Nat) (e : Event) (u : Nat) :
    (h.append t e).before i u = h.before i u := by
  ext j
  refine and_congr_right fun hj => ?_
  rw [get?_append_of_lt (by omega)]

theorem before_append_length (t : Nat) (e : Event) (u : Nat) :
    (h.append t e).before (h.length + 1) u =
      {j | j ∈ h.before h.length u ∨ t = u ∧ j = h.length} := by
  ext j
  constructor
  · rintro ⟨-, entry, hget, hu⟩
    rcases get?_append_eq_some hget with ⟨rfl, rfl⟩ | ⟨hlt, hold⟩
    · exact .inr ⟨by rwa [Entry.transaction_ofEvent] at hu, rfl⟩
    · exact .inl ⟨hlt, entry, hold, hu⟩
  · rintro (⟨hlt, entry, hold, hu⟩ | ⟨rfl, rfl⟩)
    · exact ⟨by omega, entry, by rwa [get?_append_of_lt hlt], hu⟩
    · exact ⟨by omega, _, get?_append_length h t e, Entry.transaction_ofEvent ..⟩

theorem Built.newest_last? (hb : h.Built) (t : Nat) :
    Newest (h.before h.length t) (h.last? t) := by
  induction hb with
  | empty => exact Set.eq_empty_of_forall_notMem fun j hj => Nat.not_lt_zero j hj.1
  | @append h u e _ ih =>
    rw [length_append, last?_append, before_append_length]
    by_cases hu : u = t
    · rw [if_pos hu]
      refine ⟨.inr ⟨hu, rfl⟩, ?_⟩
      rintro j (⟨hlt, -⟩ | ⟨-, rfl⟩)
      · exact Nat.le_of_lt hlt
      · exact Nat.le_refl _
    · rw [if_neg hu]
      simpa [hu] using ih

/-- A link leads to the newest entry of the same transaction before it. -/
theorem Built.link (hb : h.Built) {i : Nat} {entry : Entry} (hget : h.get? i = some entry) :
    Newest (h.before i entry.transaction) entry.previous := by
  induction hb with
  | empty => cases hget
  | append t e hb ih =>
    rcases get?_append_eq_some hget with ⟨rfl, rfl⟩ | ⟨hlt, hold⟩
    · rw [before_append_of_le (Nat.le_refl _), Entry.transaction_ofEvent, Entry.previous_ofEvent]
      exact hb.newest_last? t
    · rw [before_append_of_le (Nat.le_of_lt hlt)]
      exact ih hold

theorem Built.lsn_eq (hb : h.Built) {i : Nat} {entry : Entry} (hget : h.get? i = some entry) :
    entry.lsn = i := by
  have hmap : (h.entries.map (·.lsn))[i]? = some entry.lsn := by
    rw [List.getElem?_map, show h.entries[i]? = some entry from hget]
    rfl
  rw [hb.map_lsn] at hmap
  obtain ⟨hlt, heq⟩ := List.getElem?_eq_some_iff.1 hmap
  rw [← heq, List.getElem_range]

/-! ## Following links -/

/-- Links lead backwards, so as many steps as there are positions before the start are enough. -/
theorem Built.follows (hb : h.Built) {fuel : Nat} {start : Option Nat}
    (hstart : ∀ lsn ∈ start, lsn < fuel) : Follows h.entries start (h.chainFrom fuel start) := by
  induction fuel generalizing start with
  | zero =>
    cases start with
    | none => exact .done rfl
    | some lsn => exact absurd (hstart lsn rfl) (Nat.not_lt_zero lsn)
  | succ fuel ih =>
    cases start with
    | none => exact .done rfl
    | some lsn =>
      rw [chainFrom]
      cases hget : h.get? lsn with
      | none => exact .done hget
      | some entry =>
        refine .step hget (ih fun p hp => ?_)
        have := hb.previous_lt hget hp
        have := hstart lsn rfl
        omega

theorem Built.follows_iff (hb : h.Built) {t : Nat} {found : List Entry} :
    Follows h.entries (h.last? t) found ↔ found = (h.entriesOf t).reverse := by
  have hchain : Follows h.entries (h.last? t) (h.entriesOf t).reverse := by
    rw [← hb.chain_eq]
    exact hb.follows fun lsn hlast => hb.last?_lt hlast
  constructor
  · exact fun hfound => hfound.unique hchain
  · rintro rfl
    exact hchain

theorem Built.descending (hb : h.Built) (t : Nat) :
    (h.entriesOf t).reverse.Pairwise fun newer older => older.lsn < newer.lsn := by
  have hall : (h.entries.map (·.lsn)).Pairwise (· < ·) := by
    rw [hb.map_lsn]
    exact List.pairwise_lt_range
  rw [List.pairwise_reverse]
  exact (List.pairwise_map.1 hall).sublist List.filter_sublist

theorem last?_eq (h : History) (t : Nat) :
    h.last? t = (h.entriesOf t).reverse.head?.map (·.lsn) := by
  unfold last? entriesOf
  rw [← List.filter_reverse, List.head?_filter]

end History

/-! ## Tails -/

namespace Log

theorem lookup_append (log : Log) (t : Nat) (e : Event) (u : Nat) :
    (log.append t e).tails.lookup u =
      if t = u then some log.entries.length else log.tails.lookup u := by
  unfold append
  split
  · next hu => rw [← hu, AList.lookup_insert]
  · next hu => rw [AList.lookup_insert_ne (Ne.symm hu)]

/-- Looking up tails and looking for the newest entries come to the same. -/
theorem after_eq (calls : List (Nat × Event)) :
    (after calls).entries = (History.after calls).entries ∧
      ∀ t, (after calls).tails.lookup t = (History.after calls).last? t := by
  induction calls using List.reverseRecOn with
  | nil => exact ⟨rfl, fun t => AList.lookup_empty t⟩
  | append_singleton calls call ih =>
    obtain ⟨hentries, htails⟩ := ih
    rw [after, List.foldl_concat, History.after, List.foldl_concat, ← after, ← History.after]
    constructor
    · show _ ++ [_] = _ ++ [_]
      rw [hentries, htails]
      rfl
    · intro t
      rw [lookup_append, History.last?_append, hentries, htails]
      rfl

end Log

/-- **A chain is the transaction's history backwards.** Keep a log by any calls, whoever makes them.
It has the entries of the history, and its tails are where the newest entries are. An entry's number
is its position, and its link is the greatest smaller position with an entry of the same
transaction, if there is one. Following links from the tail of `t` ends, and what is found are the
entries of `t`, each once and from the last position to the first; the tail is where the first one
found is. -/
theorem chain_runs_backwards (calls : List (Nat × Event)) :
    (Log.after calls).entries = (History.after calls).entries ∧
    (∀ t, (Log.after calls).tails.lookup t = (History.after calls).last? t) ∧
    (∀ i entry, (History.after calls).get? i = some entry → entry.lsn = i ∧
      History.Newest ((History.after calls).before i entry.transaction) entry.previous) ∧
    ∀ t,
      (∀ found, Follows (Log.after calls).entries ((Log.after calls).tails.lookup t) found ↔
        found = ((History.after calls).entries.filter (·.transaction = t)).reverse) ∧
      (History.after calls).chain t =
        ((History.after calls).entries.filter (·.transaction = t)).reverse ∧
      ((History.after calls).chain t).Pairwise (fun newer older => older.lsn < newer.lsn) ∧
      (History.after calls).last? t = ((History.after calls).chain t).head?.map (·.lsn) := by
  have hb := History.Built.after calls
  obtain ⟨hentries, htails⟩ := Log.after_eq calls
  refine ⟨hentries, htails, fun i entry hget => ⟨hb.lsn_eq hget, hb.link hget⟩, fun t => ?_⟩
  rw [hentries, htails, hb.chain_eq]
  exact ⟨fun _ => hb.follows_iff, rfl, hb.descending t, History.last?_eq _ t⟩

/-- T1 and T2 in turn: each links past the other. -/
example :
    let h := History.after [(1, .write 0 0 5), (2, .read 1 1), (1, .read 1 1), (2, .commit)]
    h.entries.map (·.previous) = [none, none, some 0, some 1] ∧
      (h.chain 1).map (·.lsn) = [2, 0] := by decide

end TwoPhase
