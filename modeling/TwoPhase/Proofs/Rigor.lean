import TwoPhase.Proofs.Calls
import TwoPhase.Proofs.Holding

/-!
# Rigorous histories

Two entries clash if different transactions touch one record in them and at least
one of them writes it. A history is rigorous if between clashing entries the
transaction of the earlier one has ended.

* `Evolves.ends`: whoever is not unfinished has an end in the history, after
  everything else it did.
* `LocksMatch.conflicts_of_entry`: while a transaction is unfinished, its entries are
  backed by locks, so nobody else gets as far as a clashing entry.
* `history_rigorous`: the history of every reached ring is rigorous.
-/

namespace TwoPhase

/-- The entries touch one record for different transactions, and one of them writes it. -/
structure Entry.Clashes (a b : Entry) : Prop where
  transaction : a.transaction ≠ b.transaction
  record : ∃ r, a.record = some r ∧ b.record = some r
  write : a.kind = .write ∨ b.kind = .write

namespace History

def EndsAt (h : History) (k u : Nat) : Prop :=
  ∃ e, h.get? k = some e ∧ e.transaction = u ∧ e.kind.isTerminal = true

/-- Between clashing entries the transaction of the earlier one has ended. -/
def Rigorous (h : History) : Prop :=
  ∀ i j a b, i < j → h.get? i = some a → h.get? j = some b → a.Clashes b →
    ∃ k, i < k ∧ k < j ∧ h.EndsAt k a.transaction

theorem EndsAt.append {h : History} {k u : Nat} (hend : h.EndsAt k u) (t : Nat) (e : Event) :
    (h.append t e).EndsAt k u := by
  obtain ⟨entry, hget, hu⟩ := hend
  have hlt : k < h.length := (List.getElem?_eq_some_iff.1 hget).1
  exact ⟨entry, (get?_append_of_lt hlt t e).trans hget, hu⟩

theorem endsAt_append_length (h : History) {t : Nat} {e : Event} (he : e = .commit ∨ e = .abort) :
    (h.append t e).EndsAt h.length t := by
  refine ⟨_, get?_append_length h t e, Entry.transaction_ofEvent .., ?_⟩
  rcases he with rfl | rfl <;> rfl

theorem EndsAt.lt {h : History} {k u : Nat} (hend : h.EndsAt k u) : k < h.length := by
  obtain ⟨entry, hget, -⟩ := hend
  exact (List.getElem?_eq_some_iff.1 hget).1

end History

section
variable {store : Store} {programs : List Program} {settings : Settings} {turns : List Turn}
  {db db' : Database} {ts : List Transaction} {p : Nat} {t t' : Transaction} {ring : Ring}

/-! ## Entries and events -/

theorem Entry.touches_of_record {lsn u : Nat} {previous : Option Nat} {e : Event} {r : RecordId}
    (h : (Entry.ofEvent lsn u previous e).record = some r) : e.Touches r.toNat := by
  cases e with
  | read record value =>
    cases h
    rfl
  | write record old new =>
    cases h
    rfl
  | commit => cases h
  | abort => cases h

theorem Entry.writes_of_kind {lsn u : Nat} {previous : Option Nat} {e : Event} {r : RecordId}
    (h : (Entry.ofEvent lsn u previous e).record = some r)
    (hkind : (Entry.ofEvent lsn u previous e).kind = .write) : e.Writes r.toNat := by
  cases e with
  | write record old new =>
    cases h
    rfl
  | _ => cases hkind

theorem History.Built.kind_of_record {h : History} (hb : h.Built) {i : Nat} {a : Entry}
    {r : RecordId} (hget : h.get? i = some a) (hr : a.record = some r) :
    a.kind = .read ∨ a.kind = .write := by
  obtain ⟨lsn, previous, e, -, ha⟩ := hb.eq_ofEvent (List.mem_of_getElem? hget)
  rw [ha] at hr ⊢
  cases e with
  | read => exact .inl rfl
  | write => exact .inr rfl
  | commit => cases hr
  | abort => cases hr

/-! ## Ends -/

theorem Acts.eq_end {e : Event} (ha : Acts db t (.done e) db' t') (hout : t'.outcome ≠ none) :
    e = .commit ∨ e = .abort := by
  have hnone := ha.outcome_eq_none
  cases ha with
  | access => exact absurd hnone hout
  | commit => exact .inl rfl
  | abort => exact .inr rfl

/-- The transaction of an entry is unfinished, or its end is logged at that entry or later. -/
theorem Evolves.ends (h : Evolves store programs db ts) {i : Nat} {a : Entry}
    (hget : db.history.get? i = some a) :
    Unfinished ts a.transaction ∨ ∃ k, i ≤ k ∧ db.history.EndsAt k a.transaction := by
  induction h with
  | start => cases hget
  | @act db db' ts p t t' deed he ht ha ih =>
    have hw := he.wellFormed
    cases deed with
    | denied blockers =>
      rw [ha.history_denied] at hget ⊢
      rw [hw.unfinished_keep ht ha ha.outcome_denied]
      exact ih hget
    | done e =>
      rw [ha.history_done] at hget ⊢
      rw [hw.unfinished_set ht ha]
      by_cases hat : a.transaction = t.id
      · -- its own deed either leaves it unfinished or is the end
        by_cases hout : t'.outcome = none
        · exact .inl (.inl ⟨hat, hout⟩)
        · refine .inr ⟨db.history.length, ?_, ?_⟩
          · rcases History.get?_append_eq_some hget with ⟨rfl, -⟩ | ⟨hlt, -⟩
            · exact Nat.le_refl _
            · exact Nat.le_of_lt hlt
          · rw [hat]
            exact db.history.endsAt_append_length (ha.eq_end hout)
      · rcases History.get?_append_eq_some hget with ⟨-, rfl⟩ | ⟨-, hold⟩
        · exact absurd (Entry.transaction_ofEvent ..) hat
        · rcases ih hold with hu | ⟨k, hk, hend⟩
          · exact .inl (.inr ⟨hat, hu⟩)
          · exact .inr ⟨k, hk, hend.append t.id e⟩

/-! ## Clashes -/

theorem LocksMatch.conflicts_of_entry (h : LocksMatch db ts) (hb : db.history.Built) {i : Nat}
    {a : Entry} {r : RecordId} {mode : LockMode} (hget : db.history.get? i = some a)
    (hu : Unfinished ts a.transaction) (hr : a.record = some r)
    (hmode : a.kind = .write ∨ mode = .exclusive) :
    (db.locks.lockOf r.toNat).Conflicts a.transaction mode := by
  obtain ⟨lsn, previous, e, he, ha⟩ := hb.eq_ofEvent (List.mem_of_getElem? hget)
  rw [ha] at hr hmode
  rcases hmode with hkind | rfl
  · exact .inl ((h.owner _ _).2 ⟨hu, e, he, Entry.writes_of_kind hr hkind⟩)
  · exact h.conflicts_exclusive hu ⟨e, he, Entry.touches_of_record hr⟩

/-- Whoever reads or writes a record clashes with no entry of an unfinished transaction. -/
theorem Acts.not_unfinished_of_clashes {e : Event} (ha : Acts db t (.done e) db' t')
    (he : Evolves store programs db ts) {i : Nat} {a : Entry}
    (hget : db.history.get? i = some a)
    (hclash : a.Clashes (.ofEvent db.history.length t.id (db.history.last? t.id) e)) :
    ¬ Unfinished ts a.transaction := by
  intro hu
  obtain ⟨hne, ⟨r, hr, hr'⟩, hwrite⟩ := hclash
  rw [Entry.transaction_ofEvent] at hne
  cases ha with
  | commit => cases hr'
  | abort => cases hr'
  | @access op mode record e pending request free matched sees =>
    have hmode : record = r ∧ (a.kind = .write ∨ mode = .exclusive) := by
      rcases Operation.matches_request matched request with ⟨v, -, rfl⟩ | ⟨old, new, rfl, rfl⟩
      · exact ⟨Option.some.inj hr', .inl (hwrite.resolve_right nofun)⟩
      · exact ⟨Option.some.inj hr', .inr rfl⟩
    obtain ⟨rfl, hmode⟩ := hmode
    have hconflicts := he.locksMatch.conflicts_of_entry he.wellFormed.built hget hu hr hmode
    exact Lock.not_conflicts free hne hconflicts

theorem Acts.rigorous {e : Event} (ha : Acts db t (.done e) db' t')
    (he : Evolves store programs db ts) (h : db.history.Rigorous) :
    (db.history.append t.id e).Rigorous := by
  intro i j a b hij hi hj hclash
  have hlt : i < db.history.length := by
    rcases History.get?_append_eq_some hj with ⟨rfl, -⟩ | ⟨hlt, -⟩ <;> omega
  rw [History.get?_append_of_lt hlt] at hi
  rcases History.get?_append_eq_some hj with ⟨rfl, rfl⟩ | ⟨-, hj⟩
  · obtain ⟨k, hik, hend⟩ :=
      (he.ends hi).resolve_left (ha.not_unfinished_of_clashes he hi hclash)
    refine ⟨k, ?_, hend.lt, hend.append t.id e⟩
    refine Nat.lt_of_le_of_ne hik ?_
    rintro rfl
    obtain ⟨entry, hget, -, hterminal⟩ := hend
    rw [hi] at hget
    cases hget
    obtain ⟨-, ⟨r, hr, -⟩, -⟩ := hclash
    rcases he.wellFormed.built.kind_of_record hi hr with hk | hk
    · rw [hk] at hterminal
      cases hterminal
    · rw [hk] at hterminal
      cases hterminal
  · obtain ⟨k, hik, hkj, hend⟩ := h i j a b hij hi hj hclash
    exact ⟨k, hik, hkj, hend.append t.id e⟩

theorem Evolves.rigorous (h : Evolves store programs db ts) : db.history.Rigorous := by
  induction h with
  | start =>
    intro i j a b _ hi
    cases hi
  | @act db db' ts p t t' deed he ht ha ih =>
    cases deed with
    | denied blockers =>
      rw [ha.history_denied]
      exact ih
    | done e =>
      rw [ha.history_done]
      exact ha.rigorous he ih

/-- **Rigorous schedules.** Between clashing entries of a reached ring, also those of transactions
that are aborted later, the transaction of the earlier one has committed or aborted. So whoever
touches a record after a transaction that has not ended yet only reads what that one only read:
nobody reads or overwrites an uncommitted write, nor overwrites what an unfinished transaction has
read. -/
theorem history_rigorous (h : Ring.Reached store programs settings turns ring) :
    ring.database.history.Rigorous ∧
    ∀ i j a b r, i < j → ring.database.history.get? i = some a →
      ring.database.history.get? j = some b → a.record = some r → b.record = some r →
      a.transaction ≠ b.transaction →
      (∀ k, k < j → ¬ ring.database.history.EndsAt k a.transaction) →
      a.kind = .read ∧ b.kind = .read := by
  have he := h.evolves
  refine ⟨he.rigorous, fun i j a b r hij hi hj hr hr' hne hopen => ?_⟩
  have hnone : ¬ a.Clashes b := by
    intro hclash
    obtain ⟨k, -, hkj, hend⟩ := he.rigorous i j a b hij hi hj hclash
    exact hopen k hkj hend
  have hread : ¬ (a.kind = .write ∨ b.kind = .write) := fun hw => hnone ⟨hne, ⟨r, hr, hr'⟩, hw⟩
  rw [not_or] at hread
  have hb := he.wellFormed.built
  exact ⟨(hb.kind_of_record hi hr).resolve_right hread.1,
    (hb.kind_of_record hj hr').resolve_right hread.2⟩

/-- T1 overwrites what T2 wrote, but only after T2 was aborted. -/
theorem history_rigorous_crossing :
    ∃ (turns : List Turn) (ring : Ring) (a b : Entry),
      Ring.Reached ⟨[5, 6]⟩ crossing ⟨2⟩ turns ring ∧
      ring.database.history.get? 1 = some a ∧ ring.database.history.get? 3 = some b ∧
      a.transaction = 2 ∧ b.transaction = 1 ∧ a.Clashes b ∧
      ∃ k, 1 < k ∧ k < 3 ∧ ring.database.history.EndsAt k 2 := by
  obtain ⟨turns, ring, hr, ha, hb⟩ :=
    Ring.exists_reached ⟨[5, 6]⟩ crossing ⟨2⟩ 18
      (fun ring =>
        ring.database.history.get? 1 = some ⟨.write, 1, 2, some 1, some 6, some 2, none⟩ ∧
        ring.database.history.get? 3 = some ⟨.write, 3, 1, some 1, some 6, some 1, some 0⟩)
      (by decide +kernel)
  have hclash : (⟨.write, 1, 2, some 1, some 6, some 2, none⟩ : Entry).Clashes
      ⟨.write, 3, 1, some 1, some 6, some 1, some 0⟩ := ⟨by decide, ⟨1, rfl, rfl⟩, .inl rfl⟩
  exact ⟨turns, ring, _, _, hr, ha, hb, rfl, rfl, hclash,
    (history_rigorous hr).1 1 3 _ _ (by decide) ha hb hclash⟩

end

end TwoPhase
