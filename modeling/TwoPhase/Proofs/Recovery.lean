import TwoPhase.Proofs.Calls
import TwoPhase.Proofs.Consistency

/-!
# The recoverable store

At any moment the unfinished transactions can all be aborted, in any order, and what
is left is the store that replaying the committed transactions gives. Aborts neither
add to the committed transactions nor take from them, so it does not matter whether
the history is replayed before or after.
-/

namespace TwoPhase

def Ring.abortAll : List Nat → Ring → Except Error Ring
  | [], ring => .ok ring
  | id :: rest, ring => (ring.abort id).bind fun (ring, _) => abortAll rest ring

section
variable {store : Store} {programs : List Program} {settings : Settings} {turns : List Turn}
  {ring ring' : Ring} {id : Nat} {lsn : Option Nat}

/-- An abort ends its transaction and leaves the others and the committed store. -/
theorem Evolves.abort_frame (h : Evolves store programs ring.database ring.transactions)
    (ha : ring.abort id = .ok (ring', lsn)) :
    ring'.transactions.map (·.id) = ring.transactions.map (·.id) ∧
      (∀ u, Unfinished ring'.transactions u ↔ u ≠ id ∧ Unfinished ring.transactions u) ∧
      ring'.database.history.committedStore store = ring.database.history.committedStore store := by
  have hw := h.wellFormed
  rcases Ring.abort_cases hw ha with ⟨-, rfl, hfin⟩ | ⟨t, db', t', ht, rfl, hacts, -, rfl⟩
  · refine ⟨rfl, fun u => ?_, rfl⟩
    refine (and_iff_right_of_imp fun hu => ?_).symm
    rintro rfl
    exact hfin hu
  · obtain ⟨-, rfl⟩ := hacts.abort_inv
    refine ⟨map_set_of_eq ht hacts.id_eq, fun u => hw.unfinished_drop ht hacts nofun, ?_⟩
    exact h.consistent.committedStore_act hw ht hacts nofun

theorem Ring.Reached.exists_abortAll (h : Ring.Reached store programs settings turns ring)
    {ids : List Nat} (hids : ∀ u ∈ ids, u ∈ ring.transactions.map (·.id)) :
    ∃ last, ring.abortAll ids = .ok last ∧ Ring.Reached store programs settings turns last ∧
      (∀ u, Unfinished last.transactions u ↔ u ∉ ids ∧ Unfinished ring.transactions u) ∧
      last.database.history.committedStore store = ring.database.history.committedStore store := by
  induction ids generalizing ring with
  | nil => exact ⟨ring, rfl, h, fun u => by simp, rfl⟩
  | cons id rest ih =>
    obtain ⟨t, ht, rfl⟩ := List.mem_map.1 (hids id List.mem_cons_self)
    obtain ⟨ring', lsn, ha⟩ := Ring.exists_abort h.evolves.wellFormed ht
    obtain ⟨hmap, hunf, hstore⟩ := h.evolves.abort_frame ha
    have hrest : ∀ u ∈ rest, u ∈ ring'.transactions.map (·.id) := by
      intro u hu
      rw [hmap]
      exact hids u (List.mem_cons_of_mem _ hu)
    obtain ⟨last, hlast, hr, hunf', hstore'⟩ := ih (h.abort ha) hrest
    refine ⟨last, ?_, hr, fun u => ?_, hstore'.trans hstore⟩
    · rw [Ring.abortAll, ha]
      exact hlast
    · rw [hunf', hunf, List.mem_cons, not_or]
      exact ⟨fun ⟨hn, hne, hu⟩ => ⟨⟨hne, hn⟩, hu⟩, fun ⟨⟨hne, hn⟩, hu⟩ => ⟨hn, hne, hu⟩⟩

theorem Ring.Reached.committedReplay_of_isFinished
    (h : Ring.Reached store programs settings turns ring) (hfin : ring.isFinished = true) :
    ring.database.history.committedReplay store = .ok ring.database.store := by
  have he := h.evolves
  have hnone : ∀ u, ¬ Unfinished ring.transactions u := by
    rintro u ⟨t, ht, -, hout⟩
    exact h.counted.isFinished_iff.1 hfin t ht hout
  rw [he.wellFormed.built.committedReplay_eq he.wellFormed.fits,
    ← he.consistent.store_eq he.locksMatch hnone]

/-- **Committed replay is the recoverable state.** Aborting whoever is unfinished, in any order,
succeeds and leaves the committed replay of the history as it was before, which is also that of
the history after. A finished ring needs no aborts for that. -/
theorem committedReplay_recoverable (h : Ring.Reached store programs settings turns ring) :
    (∀ order : List Nat,
      order.Perm ((ring.transactions.filter (·.outcome = none)).map (·.id)) →
      ∃ last, ring.abortAll order = .ok last ∧ last.isFinished = true ∧
        ring.database.history.committedReplay store = .ok last.database.store ∧
        last.database.history.committedReplay store = .ok last.database.store) ∧
    (ring.isFinished = true →
      ring.database.history.committedReplay store = .ok ring.database.store) := by
  refine ⟨fun order hperm => ?_, h.committedReplay_of_isFinished⟩
  have hmem : ∀ u, u ∈ order ↔ Unfinished ring.transactions u := by
    intro u
    rw [hperm.mem_iff, List.mem_map]
    simp only [List.mem_filter, decide_eq_true_eq, Unfinished]
    exact ⟨fun ⟨t, ⟨ht, hout⟩, hid⟩ => ⟨t, ht, hid, hout⟩,
      fun ⟨t, ht, hid, hout⟩ => ⟨t, ⟨ht, hout⟩, hid⟩⟩
  have hids : ∀ u ∈ order, u ∈ ring.transactions.map (·.id) := by
    intro u hu
    obtain ⟨t, ht, rfl, -⟩ := (hmem u).1 hu
    exact List.mem_map_of_mem ht
  obtain ⟨last, hlast, hr, hunf, hstore⟩ := h.exists_abortAll hids
  have hfin : last.isFinished = true := by
    refine hr.counted.isFinished_iff.2 fun t ht hout => ?_
    obtain ⟨hnot, hu⟩ := (hunf t.id).1 ⟨t, ht, rfl, hout⟩
    exact hnot ((hmem t.id).2 hu)
  have hreplay := hr.committedReplay_of_isFinished hfin
  refine ⟨last, hlast, hfin, ?_, hreplay⟩
  have hw := h.evolves.wellFormed
  have hw' := hr.evolves.wellFormed
  rw [← hreplay, hw.built.committedReplay_eq hw.fits, hw'.built.committedReplay_eq hw'.fits, hstore]

/-- After four turns both records are overwritten and nobody has finished. -/
theorem committedReplay_recoverable_crossing :
    ∃ (turns : List Turn) (ring last : Ring),
      Ring.Reached ⟨[5, 6]⟩ crossing ⟨2⟩ turns ring ∧ ring.database.store = ⟨[1, 2]⟩ ∧
      ring.abortAll [3, 1, 2] = .ok last ∧ last.database.store = ⟨[5, 6]⟩ := by
  obtain ⟨turns, ring, hr, hperm, hstore, hreplay⟩ :=
    Ring.exists_reached ⟨[5, 6]⟩ crossing ⟨2⟩ 4
      (fun ring =>
        [3, 1, 2].Perm ((ring.transactions.filter (·.outcome = none)).map (·.id)) ∧
        ring.database.store = ⟨[1, 2]⟩ ∧
        (ring.database.history.committedReplay ⟨[5, 6]⟩).toOption = some ⟨[5, 6]⟩)
      (by decide +kernel)
  obtain ⟨last, hlast, -, hbefore, -⟩ := (committedReplay_recoverable hr).1 [3, 1, 2] hperm
  rw [hbefore] at hreplay
  exact ⟨turns, ring, last, hr, hstore, hlast, Option.some.inj hreplay⟩

end

end TwoPhase
