import TwoPhase.Proofs.Rigor
import TwoPhase.Proofs.Serializability

/-!
# What the history accounts for

The history tells all there is to know about locks and programs.

* `history_follows_programs`: the entries of a transaction are those of the
  operations it has done, one each and in order, and an abort if it was aborted;
  once it has finished, nothing is added.
* `locks_of_history`: an unfinished transaction has for itself the records it has
  entries of writes for, and shares those it has only entries of reads for. Who is
  unfinished can be told from the entries as well, so rings with the same history
  have the same locks.
-/

namespace TwoPhase

/-! ## Entries of operations -/

def Operation.entryKind : Operation → EntryKind
  | read _ => .read
  | write _ _ => .write
  | commit => .commit

/-- The entry tells of the operation: same kind, same record, and what was written. -/
structure Operation.LoggedAs (op : Operation) (entry : Entry) : Prop where
  kind : entry.kind = op.entryKind
  record : entry.record = op.record?
  written : ∀ record value, op = .write record value → entry.new = some value

theorem Operation.Matches.loggedAs {op : Operation} {e : Event} (h : op.Matches e) (lsn t : Nat)
    (previous : Option Nat) : op.LoggedAs (.ofEvent lsn t previous e) := by
  cases op with
  | read record =>
    cases e with
    | read record' value =>
      cases h
      exact ⟨rfl, rfl, nofun⟩
    | _ => cases h
  | write record value =>
    cases e with
    | write record' old new =>
      obtain ⟨rfl, rfl⟩ := h
      refine ⟨rfl, rfl, fun r v hop => ?_⟩
      cases hop
      rfl
    | _ => cases h
  | commit =>
    cases e with
    | commit => exact ⟨rfl, rfl, nofun⟩
    | _ => cases h

theorem Program.commit_notMem_take {program : Program} {c : Nat} (h : c < program.length) :
    .commit ∉ program.operations.take c := by
  intro hmem
  apply program.commitsLast.2
  rw [List.dropLast_eq_take]
  unfold length at h
  exact List.take_subset_take_left _ (by omega) hmem

section
variable {α β γ : Type}

theorem forall₂_split {R : α → β → Prop} {a b : List α} {c : List β}
    (h : List.Forall₂ R (a ++ b) c) :
    ∃ c₁ c₂, c = c₁ ++ c₂ ∧ List.Forall₂ R a c₁ ∧ List.Forall₂ R b c₂ := by
  refine ⟨c.take a.length, c.drop a.length, (List.take_append_drop _ _).symm, ?_, ?_⟩
  · simpa using List.forall₂_take a.length h
  · simpa using List.forall₂_drop a.length h

theorem forall₂_trans {R : α → β → Prop} {S : β → γ → Prop} {T : α → γ → Prop}
    (hRST : ∀ {x y z}, R x y → S y z → T x z) {a : List α} {b : List β} {c : List γ}
    (hab : List.Forall₂ R a b) (hbc : List.Forall₂ S b c) : List.Forall₂ T a c := by
  induction hab generalizing c with
  | nil =>
    cases hbc
    exact .nil
  | cons hxy _ ih =>
    cases hbc with
    | cons hyz hbc => exact .cons (hRST hxy hyz) (ih hbc)

theorem forall₂_exists_left {R : α → β → Prop} {a : List α} {b : List β} (h : List.Forall₂ R a b)
    {y : β} (hy : y ∈ b) : ∃ x ∈ a, R x y := by
  induction h with
  | nil => cases hy
  | cons hxy _ ih =>
    rcases List.mem_cons.1 hy with rfl | hy
    · exact ⟨_, List.mem_cons_self, hxy⟩
    · obtain ⟨x, hx, hR⟩ := ih hy
      exact ⟨x, List.mem_cons_of_mem _ hx, hR⟩

end

theorem Operation.commit_mem {ops : List Operation} {done : List Entry}
    (h : List.Forall₂ LoggedAs ops done) {entry : Entry} (hmem : entry ∈ done)
    (hend : entry.kind.isTerminal = true) : .commit ∈ ops := by
  obtain ⟨op, hop, hlogged⟩ := forall₂_exists_left h hmem
  rw [hlogged.kind] at hend
  cases op with
  | commit => exact hop
  | _ => cases hend

theorem History.Built.forall₂_entriesOf {h : History} (hb : h.Built) (t : Nat) :
    List.Forall₂ (fun e entry => ∃ lsn previous, entry = .ofEvent lsn t previous e)
      (h.eventsOf t) (h.entriesOf t) := by
  induction hb with
  | empty => exact .nil
  | @append h u e _ ih =>
    rw [eventsOf_append, entriesOf_append]
    split
    · next hu =>
      subst hu
      exact List.rel_append ih (.cons ⟨_, _, rfl⟩ .nil)
    · simpa using ih

section
variable {store : Store} {programs : List Program} {settings : Settings} {turns : List Turn}
  {db db' : Database} {ts : List Transaction} {p : Nat} {t t' : Transaction} {ring : Ring}

/-! ## The entries of a transaction -/

/-- Whoever has committed has done everything, and nobody else has. -/
theorem Evolves.cursor (h : Evolves store programs db ts) : ∀ t ∈ ts,
    (t.outcome = some .committed ∧ t.cursor = t.program.length) ∨
      (t.outcome ≠ some .committed ∧ t.cursor < t.program.length) := by
  induction h with
  | start hts =>
    intro t ht
    obtain ⟨p, hp⟩ := List.mem_iff_getElem?.1 ht
    have hnone : t.outcome = none := by rw [((Ring.enlist_spec hts).2 p t hp).2]
    exact .inr ⟨by rw [hnone]; exact nofun, (WellFormed.start hts).cursors t ht hnone⟩
  | @act db db' ts p t t' deed he ht ha ih =>
    have hw := he.wellFormed
    intro x hx
    rcases (hw.mem_set ht).1 hx with rfl | ⟨hx', -⟩
    · have hlt := hw.cursors t (List.mem_of_getElem? ht) ha.outcome_eq_none
      have hlater := (hw.act ht ha).cursors x hx
      have hout := ha.outcome_eq_none
      cases ha with
      | denied => exact .inr ⟨by simp [hout], hlater hout⟩
      | access => exact .inr ⟨by simp [hout], hlater hout⟩
      | abort => exact .inr ⟨nofun, hlt⟩
      | commit pending =>
        have hops := congrArg List.length
          (Program.take_append_commit (Transaction.pending?_eq_some.1 pending).2)
        rw [List.length_append, List.length_take, List.length_singleton] at hops
        refine .inl ⟨rfl, ?_⟩
        show t.cursor + 1 = t.program.length
        unfold Program.length at *
        omega
    · exact ih x hx'

/-- A transaction has an entry for each operation it has done, and one for its abort. -/
theorem Evolves.entries (h : Evolves store programs db ts) (ht : t ∈ ts) :
    ∃ done, List.Forall₂ Operation.LoggedAs (t.program.operations.take t.cursor) done ∧
      (t.outcome ≠ some .aborted ∧ db.history.entriesOf t.id = done ∨
        t.outcome = some .aborted ∧ ∃ last, last.kind = .abort ∧
          db.history.entriesOf t.id = done ++ [last]) := by
  obtain ⟨events, hm, hev⟩ := h.logged t ht
  have htells := h.wellFormed.built.forall₂_entriesOf t.id
  rw [hev] at htells
  obtain ⟨done, rest, heq, hdone, hrest⟩ := forall₂_split htells
  refine ⟨done, forall₂_trans ?_ hm hdone, ?_⟩
  · rintro op e entry hop ⟨lsn, previous, rfl⟩
    exact hop.loggedAs lsn t.id previous
  · by_cases hout : t.outcome = some .aborted
    · rw [if_pos hout] at hrest
      cases hrest with
      | cons hlast hnil =>
        cases hnil
        obtain ⟨lsn, previous, rfl⟩ := hlast
        exact .inr ⟨hout, _, rfl, heq⟩
    · rw [if_neg hout] at hrest
      cases hrest
      exact .inl ⟨hout, by rw [heq, List.append_nil]⟩

theorem Evolves.kind_ne_commit (h : Evolves store programs db ts) (ht : t ∈ ts)
    (hlt : t.cursor < t.program.length) {entry : Entry}
    (hmem : entry ∈ db.history.entriesOf t.id) : entry.kind ≠ .commit := by
  have hops : ∀ {done : List Entry},
      List.Forall₂ Operation.LoggedAs (t.program.operations.take t.cursor) done →
      ∀ entry ∈ done, entry.kind ≠ .commit := by
    intro done hdone entry hentry hkind
    exact Program.commit_notMem_take hlt (Operation.commit_mem hdone hentry (by rw [hkind]; rfl))
  obtain ⟨done, hdone, ⟨-, heq⟩ | ⟨-, last, hlast, heq⟩⟩ := h.entries ht
  · exact hops hdone entry (heq ▸ hmem)
  · rw [heq, List.mem_append, List.mem_singleton] at hmem
    rcases hmem with hmem | rfl
    · exact hops hdone entry hmem
    · rw [hlast]
      exact nofun

/-- The last entry of a committed transaction is its only commit. -/
theorem Evolves.entries_of_committed (h : Evolves store programs db ts) (ht : t ∈ ts)
    (hout : t.outcome = some .committed) :
    ∃ before last, db.history.entriesOf t.id = before ++ [last] ∧ last.kind = .commit ∧
      ∀ entry ∈ before, entry.kind ≠ .commit := by
  obtain ⟨done, hdone, ⟨-, heq⟩ | ⟨haborted, -⟩⟩ := h.entries ht
  · have hcursor : t.cursor = t.program.length :=
      ((h.cursor t ht).resolve_right fun hn => hn.1 hout).2
    have hops : t.program.operations = t.program.operations.dropLast ++ [.commit] :=
      (List.dropLast_append_getLast? _ t.program.commitsLast.1).symm
    rw [hcursor, Program.length, List.take_length, hops] at hdone
    obtain ⟨before, rest, rfl, hbefore, hlast⟩ := forall₂_split hdone
    cases hlast with
    | @cons _ last _ _ hlast hnil =>
      cases hnil
      refine ⟨before, last, heq, hlast.kind, fun entry hentry hkind => ?_⟩
      exact t.program.commitsLast.2 (Operation.commit_mem hbefore hentry (by rw [hkind]; rfl))
  · rw [hout] at haborted
    cases haborted

/-- A finished transaction does nothing any more. -/
theorem lasting_of_finished {x : Transaction} (hout : x.outcome ≠ none) (entries : List Entry) :
    Lasting store programs fun db ts => x ∈ ts ∧ db.history.entriesOf x.id = entries := by
  rintro db db' ts p t t' deed he ht ha ⟨hx, hentries⟩
  have hne : x.id ≠ t.id := by
    intro hid
    rw [he.wellFormed.eq_of_id hx (List.mem_of_getElem? ht) hid] at hout
    exact hout ha.outcome_eq_none
  exact ⟨(he.wellFormed.mem_set ht).2 (.inr ⟨hx, hne⟩), (ha.entriesOf_other hne).trans hentries⟩

theorem Evolves.exists_of_entry (h : Evolves store programs db ts) {entry : Entry}
    (hmem : entry ∈ db.history.entries) : ∃ t ∈ ts, t.id = entry.transaction := by
  induction h with
  | start => cases hmem
  | @act db db' ts p t t' deed he ht ha ih =>
    have hold : ∀ x ∈ ts, ∃ y ∈ ts.set p t', y.id = x.id := by
      intro x hx
      by_cases hid : x.id = t.id
      · exact ⟨t', (he.wellFormed.mem_set ht).2 (.inl rfl), ha.id_eq.trans hid.symm⟩
      · exact ⟨x, (he.wellFormed.mem_set ht).2 (.inr ⟨hx, hid⟩), rfl⟩
    cases deed with
    | denied blockers =>
      rw [ha.history_denied] at hmem
      obtain ⟨x, hx, hid⟩ := ih hmem
      exact hid ▸ hold x hx
    | done e =>
      rw [ha.history_done] at hmem
      rcases List.mem_append.1 hmem with hmem | hnew
      · obtain ⟨x, hx, hid⟩ := ih hmem
        exact hid ▸ hold x hx
      · rw [List.mem_singleton.1 hnew, Entry.transaction_ofEvent]
        exact hold t (List.mem_of_getElem? ht)

/-- **The history is exactly what the programs did.** Every entry is one of a transaction of the
ring. The entries of a transaction are those of the operations it has done, in order, and then
one abort if it was aborted. It has committed exactly if its whole program is done; the last entry
is then its only commit, and nobody else has a commit. Whatever calls follow, nothing is added to
the entries of a finished transaction. -/
theorem history_follows_programs (h : Ring.Reached store programs settings turns ring) :
    ring.transactions.map (·.program) = programs ∧
    (∀ entry ∈ ring.database.history.entries, ∃ t ∈ ring.transactions, t.id = entry.transaction) ∧
    ∀ t ∈ ring.transactions,
      (∃ done, List.Forall₂ Operation.LoggedAs (t.program.operations.take t.cursor) done ∧
        (t.outcome ≠ some .aborted ∧ ring.database.history.entriesOf t.id = done ∨
          t.outcome = some .aborted ∧ ∃ last, last.kind = .abort ∧
            ring.database.history.entriesOf t.id = done ++ [last])) ∧
      (t.outcome = some .committed ↔ t.cursor = t.program.length) ∧
      (t.outcome = some .committed → ∃ before last,
        ring.database.history.entriesOf t.id = before ++ [last] ∧ last.kind = .commit ∧
          ∀ entry ∈ before, entry.kind ≠ .commit) ∧
      (t.outcome ≠ some .committed → t.cursor < t.program.length ∧
        ∀ entry ∈ ring.database.history.entriesOf t.id, entry.kind ≠ .commit) ∧
      (t.outcome ≠ none → ∀ last, ring.LeadsTo last →
        last.database.history.entriesOf t.id = ring.database.history.entriesOf t.id) := by
  have he := h.evolves
  refine ⟨he.wellFormed.programs, fun entry => he.exists_of_entry, fun t ht => ?_⟩
  have hcursor := he.cursor t ht
  refine ⟨he.entries ht, ⟨fun hout => ?_, fun hlen => ?_⟩, he.entries_of_committed ht,
    fun hout => ?_, fun hout last hl => ?_⟩
  · exact (hcursor.resolve_right fun hn => hn.1 hout).2
  · exact (hcursor.resolve_right fun hn => Nat.ne_of_lt hn.2 hlen).1
  · have hlt := (hcursor.resolve_left fun hn => hout hn.1).2
    exact ⟨hlt, fun entry => he.kind_ne_commit ht hlt⟩
  · exact ((lasting_of_finished hout _).leadsTo he ⟨ht, rfl⟩ hl).2

/-- T2 was aborted after its first write, and T3 has yet to do its commit. -/
theorem history_follows_programs_crossing :
    ∃ (turns : List Turn) (ring : Ring),
      Ring.Reached ⟨[5, 6]⟩ crossing ⟨2⟩ turns ring ∧
      (∃ t ∈ ring.transactions, t.id = 2 ∧ t.outcome = some .aborted ∧ t.cursor = 1 ∧
        ∀ last, ring.LeadsTo last →
          last.database.history.entriesOf 2 = ring.database.history.entriesOf 2) ∧
      ∃ t ∈ ring.transactions, t.id = 3 ∧ t.cursor = 2 ∧
        List.Forall₂ Operation.LoggedAs [.read 0, .write 0 7]
          (ring.database.history.entriesOf 3) := by
  obtain ⟨turns, ring, hr, ⟨t, ht, hid, hout, hcur⟩, u, hu, huid, huout, hucur, huops⟩ :=
    Ring.exists_reached ⟨[5, 6]⟩ crossing ⟨2⟩ 15
      (fun ring =>
        (∃ t ∈ ring.transactions, t.id = 2 ∧ t.outcome = some .aborted ∧ t.cursor = 1) ∧
        ∃ t ∈ ring.transactions, t.id = 3 ∧ t.outcome = none ∧ t.cursor = 2 ∧
          t.program.operations.take 2 = [.read 0, .write 0 7])
      (by decide +kernel)
  obtain ⟨-, -, hall⟩ := history_follows_programs hr
  refine ⟨turns, ring, hr, ⟨t, ht, hid, hout, hcur, ?_⟩, u, hu, huid, hucur, ?_⟩
  · rw [← hid]
    exact (hall t ht).2.2.2.2 (by rw [hout]; exact nofun)
  · obtain ⟨done, hdone, ⟨-, heq⟩ | ⟨hab, -⟩⟩ := (hall u hu).1
    · rw [← huid, heq, ← huops, ← hucur]
      exact hdone
    · rw [huout] at hab
      cases hab

/-! ## Locks and entries -/

/-- `u` has an entry of this kind for record `r`. -/
def History.HasEntry (h : History) (kind : EntryKind) (u : Nat) (r : RecordId) : Prop :=
  ∃ entry ∈ h.entries, entry.kind = kind ∧ entry.transaction = u ∧ entry.record = some r

namespace History.Built

variable {h : History} {u : Nat} {e : Event} {r : RecordId}

theorem mem_eventsOf (hb : h.Built) :
    e ∈ h.eventsOf u ↔ ∃ lsn previous, Entry.ofEvent lsn u previous e ∈ h.entries := by
  unfold eventsOf entriesOf
  simp only [List.mem_filterMap, List.mem_filter, decide_eq_true_eq]
  constructor
  · rintro ⟨entry, ⟨hmem, rfl⟩, hev⟩
    obtain ⟨lsn, previous, e', -, heq⟩ := hb.eq_ofEvent hmem
    rw [heq, Entry.event?_ofEvent] at hev
    cases hev
    exact ⟨lsn, previous, heq ▸ hmem⟩
  · rintro ⟨lsn, previous, hmem⟩
    exact ⟨_, ⟨hmem, Entry.transaction_ofEvent ..⟩, Entry.event?_ofEvent ..⟩

theorem writes_iff (hb : h.Built) : Writes r.toNat (h.eventsOf u) ↔ h.HasEntry .write u r := by
  constructor
  · rintro ⟨e, he, hw⟩
    obtain ⟨lsn, previous, hmem⟩ := hb.mem_eventsOf.1 he
    cases e with
    | write record old new =>
      obtain rfl : record = r := UInt64.toNat_inj.1 hw
      exact ⟨_, hmem, rfl, rfl, rfl⟩
    | _ => cases hw
  · rintro ⟨entry, hmem, hkind, rfl, hr⟩
    obtain ⟨lsn, previous, e, he, heq⟩ := hb.eq_ofEvent hmem
    rw [heq] at hkind hr
    exact ⟨e, he, Entry.writes_of_kind hr hkind⟩

theorem touches_iff (hb : h.Built) :
    Touches r.toNat (h.eventsOf u) ↔ h.HasEntry .read u r ∨ h.HasEntry .write u r := by
  constructor
  · rintro ⟨e, he, ht⟩
    obtain ⟨lsn, previous, hmem⟩ := hb.mem_eventsOf.1 he
    cases e with
    | read record value =>
      obtain rfl : record = r := UInt64.toNat_inj.1 ht
      exact .inl ⟨_, hmem, rfl, rfl, rfl⟩
    | write record old new => exact .inr (hb.writes_iff.1 ⟨_, he, ht⟩)
    | _ => cases ht
  · rintro (⟨entry, hmem, -, rfl, hr⟩ | hw)
    · obtain ⟨lsn, previous, e, he, heq⟩ := hb.eq_ofEvent hmem
      rw [heq] at hr
      exact ⟨e, he, Entry.touches_of_record hr⟩
    · exact (hb.writes_iff.2 hw).touches

end History.Built

theorem LocksMatch.owner_iff (h : LocksMatch db ts) (hb : db.history.Built) {u : Nat}
    {r : RecordId} : (db.locks.lockOf r.toNat).owner? = some u ↔
      Unfinished ts u ∧ db.history.HasEntry .write u r := by
  rw [h.owner, hb.writes_iff]

theorem LocksMatch.sharer_iff (h : LocksMatch db ts) (hb : db.history.Built) {u : Nat}
    {r : RecordId} : u ∈ (db.locks.lockOf r.toNat).sharers ↔
      Unfinished ts u ∧ db.history.HasEntry .read u r ∧ ¬ db.history.HasEntry .write u r := by
  rw [h.sharer, hb.writes_iff, hb.touches_iff, or_and_right, and_not_self_iff, or_false]

theorem Evolves.unfinished_iff (h : Evolves store programs db ts) {u : Nat} {e : Event}
    (he : e ∈ db.history.eventsOf u) :
    Unfinished ts u ↔ ∀ k, ¬ db.history.EndsAt k u := by
  constructor
  · rintro ⟨t, ht, rfl, hout⟩ k ⟨last, hget, hlast, hterminal⟩
    have hmem : last ∈ db.history.entriesOf t.id :=
      List.mem_filter.2 ⟨List.mem_of_getElem? hget, decide_eq_true hlast⟩
    obtain ⟨done, hdone, ⟨-, heq⟩ | ⟨hab, -⟩⟩ := h.entries ht
    · exact Program.commit_notMem_take (h.wellFormed.cursors t ht hout)
        (Operation.commit_mem hdone (heq ▸ hmem) hterminal)
    · rw [hout] at hab
      cases hab
  · intro hopen
    obtain ⟨lsn, previous, hmem⟩ := h.wellFormed.built.mem_eventsOf.1 he
    obtain ⟨i, hi⟩ := List.mem_iff_getElem?.1 hmem
    have hend := h.ends hi
    rw [Entry.transaction_ofEvent] at hend
    exact hend.resolve_right fun ⟨k, _, hend⟩ => hopen k hend

theorem Evolves.locks_eq {store' : Store} {programs' : List Program} {ts' : List Transaction}
    (h : Evolves store programs db ts) (h' : Evolves store' programs' db' ts')
    (hsize : store'.size = store.size) (hhist : db'.history = db.history) :
    db'.locks = db.locks := by
  have hunf : ∀ {u e}, e ∈ db.history.eventsOf u → (Unfinished ts' u ↔ Unfinished ts u) := by
    intro u e he
    rw [h.unfinished_iff he, h'.unfinished_iff (hhist ▸ he), hhist]
  refine LockTable.ext_lockOf ?_ fun i => Lock.ext_holders (fun u => ?_) fun u => ?_
  · rw [h'.wellFormed.lockSize, h.wellFormed.lockSize, hsize]
  · rw [h'.locksMatch.owner, h.locksMatch.owner, hhist]
    exact and_congr_left fun ⟨e, he, _⟩ => hunf he
  · rw [h'.locksMatch.sharer, h.locksMatch.sharer, hhist]
    exact and_congr_left fun ⟨⟨e, he, _⟩, _⟩ => hunf he

/-- **Locks are a function of the history.** In every reached ring a transaction has a record for
itself exactly if it is unfinished and has an entry of a write for it, and shares it exactly if it
is unfinished and has an entry of a read but none of a write. So no record has both an owner and
sharers, finished transactions hold nothing, and any two rings over stores of one size that have
the same history have the same locks. -/
theorem locks_of_history (h : Ring.Reached store programs settings turns ring) :
    (∀ u r, (ring.database.locks.lockOf r.toNat).owner? = some u ↔
      Unfinished ring.transactions u ∧ ring.database.history.HasEntry .write u r) ∧
    (∀ u r, u ∈ (ring.database.locks.lockOf r.toNat).sharers ↔
      Unfinished ring.transactions u ∧ ring.database.history.HasEntry .read u r ∧
        ¬ ring.database.history.HasEntry .write u r) ∧
    (∀ i u v, (ring.database.locks.lockOf i).owner? = some u →
      v ∉ (ring.database.locks.lockOf i).sharers) ∧
    (∀ t ∈ ring.transactions, t.outcome ≠ none → ring.database.locks.heldBy t.id = []) ∧
    ∀ store' programs' settings' turns' ring',
      Ring.Reached store' programs' settings' turns' ring' → store'.size = store.size →
      ring'.database.history = ring.database.history →
      ring'.database.locks = ring.database.locks := by
  have he := h.evolves
  have hl := he.locksMatch
  have hb := he.wellFormed.built
  refine ⟨fun u r => hl.owner_iff hb, fun u r => hl.sharer_iff hb,
    fun i u v => Lock.sharers_of_owner, fun t ht hout => ?_,
    fun _ _ _ _ ring' h' => he.locks_eq h'.evolves⟩
  refine List.eq_nil_iff_forall_not_mem.2 fun i hi => ?_
  have hunf : ¬ Unfinished ring.transactions t.id := by
    rintro ⟨x, hx, hid, hxout⟩
    rw [he.wellFormed.eq_of_id hx ht hid] at hxout
    exact hout hxout
  rcases LockTable.mem_heldBy.1 hi with howner | hsharer
  · exact hunf ((hl.owner i t.id).1 howner).1
  · exact hunf ((hl.sharer i t.id).1 hsharer).1

/-- T3 shares what it has read; T1 and T2 wrote, but one has committed and the other was
aborted. -/
theorem locks_of_history_crossing :
    ∃ (turns : List Turn) (ring : Ring),
      Ring.Reached ⟨[5, 6]⟩ crossing ⟨2⟩ turns ring ∧
      ring.database.history.HasEntry .write 1 0 ∧ ring.database.history.HasEntry .write 2 1 ∧
      3 ∈ (ring.database.locks.lockOf 0).sharers ∧
      ring.database.locks.heldBy 1 = [] ∧ ring.database.locks.heldBy 2 = [] := by
  obtain ⟨turns, ring, hr, h1, h2, ⟨t, ht, htid, htout⟩, ⟨u, hu, huid, huout⟩, hopen, hread,
    hnone⟩ :=
    Ring.exists_reached ⟨[5, 6]⟩ crossing ⟨2⟩ 12
      (fun ring =>
        (∃ entry ∈ ring.database.history.entries,
          entry.kind = .write ∧ entry.transaction = 1 ∧ entry.record = some 0) ∧
        (∃ entry ∈ ring.database.history.entries,
          entry.kind = .write ∧ entry.transaction = 2 ∧ entry.record = some 1) ∧
        (∃ t ∈ ring.transactions, t.id = 1 ∧ t.outcome ≠ none) ∧
        (∃ t ∈ ring.transactions, t.id = 2 ∧ t.outcome ≠ none) ∧
        (∃ t ∈ ring.transactions, t.id = 3 ∧ t.outcome = none) ∧
        (∃ entry ∈ ring.database.history.entries,
          entry.kind = .read ∧ entry.transaction = 3 ∧ entry.record = some 0) ∧
        ¬ ∃ entry ∈ ring.database.history.entries,
          entry.kind = .write ∧ entry.transaction = 3 ∧ entry.record = some 0)
      (by decide +kernel)
  obtain ⟨-, hsharers, -, hfinished, -⟩ := locks_of_history hr
  refine ⟨turns, ring, hr, h1, h2, (hsharers 3 0).2 ⟨hopen, hread, hnone⟩, ?_, ?_⟩
  · exact htid ▸ hfinished t ht htout
  · exact huid ▸ hfinished u hu huout

end

end TwoPhase
