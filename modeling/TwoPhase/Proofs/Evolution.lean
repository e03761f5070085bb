import TwoPhase.Ring
import TwoPhase.Proofs.History
import TwoPhase.Proofs.Waiting

/-!
# How a ring evolves

`Acts db t deed db' t'` says everything a transaction can do: be denied a lock,
read or write a record, commit, or be aborted. `Evolves` closes the start of a
ring under such deeds, in any order; every invariant is proved once for it, by
one case for each deed. `WellFormed` is the first of them: sizes, numbers and
programs stay what they were at the start, and whoever is unfinished has an
operation to do.
-/

namespace TwoPhase

def Operation.request? : Operation → Option (LockMode × RecordId)
  | read record => some (.shared, record)
  | write record _ => some (.exclusive, record)
  | commit => none

def Database.blockers (db : Database) (t : Nat) (mode : LockMode) (record : RecordId) : IdSet :=
  (db.locks.lockOf record.toNat).blockers t mode

/-- What a transaction does: it is denied a lock, or something enters the history. -/
inductive Deed where
  | denied (blockers : IdSet)
  | done (event : Event)

inductive Acts (db : Database) (t : Transaction) : Deed → Database → Transaction → Prop where
  | denied {op : Operation} {mode : LockMode} {record : RecordId}
      (pending : t.pending? = some op) (request : op.request? = some (mode, record))
      (blocked : ¬ (db.blockers t.id mode record).isEmpty = true) :
      Acts db t (.denied (db.blockers t.id mode record))
        { db with waits := db.waits.addEdges t.id (db.blockers t.id mode record).toList }
        { t with denials := t.denials + 1 }
  | access {op : Operation} {mode : LockMode} {record : RecordId} {e : Event}
      (pending : t.pending? = some op) (request : op.request? = some (mode, record))
      (free : (db.blockers t.id mode record).isEmpty = true)
      (matched : op.Matches e) (sees : e.Sees db.store) :
      Acts db t (.done e)
        { db with
          store := e.redo db.store
          locks := db.locks.take t.id mode record.toNat
          history := db.history.append t.id e }
        { t with cursor := t.cursor + 1, denials := 0 }
  | commit (pending : t.pending? = some .commit) :
      Acts db t (.done .commit) (db.finish t.id .commit)
        { t with cursor := t.cursor + 1, denials := 0, outcome := some .committed }
  | abort (unfinished : t.outcome = none) :
      Acts db t (.done .abort)
        ({ db with store := undoAll (db.history.eventsOf t.id) db.store }.finish t.id .abort)
        { t with outcome := some .aborted, denials := 0 }

def Deed.step (db : Database) (t : Transaction) : Deed → Step
  | denied blockers => .denied (t.denials + 1) blockers
  | done _ => .progressed db.history.length

/-- The states of database and transactions that deeds lead to. -/
inductive Evolves (store : Store) (programs : List Program) :
    Database → List Transaction → Prop where
  | start {ts : List Transaction} :
      Ring.enlist store 1 programs = .ok ts → Evolves store programs (.ofStore store) ts
  | act {db db' : Database} {ts : List Transaction} {p : Nat} {t t' : Transaction} {deed : Deed} :
      Evolves store programs db ts → ts[p]? = some t → Acts db t deed db' t' →
      Evolves store programs db' (ts.set p t')

/-- `u` is a transaction that has neither committed nor aborted. -/
def Unfinished (ts : List Transaction) (u : Nat) : Prop := ∃ t ∈ ts, t.id = u ∧ t.outcome = none

/-! ## Facts about deeds -/

theorem Transaction.pending?_eq_some {t : Transaction} {op : Operation} :
    t.pending? = some op ↔ t.outcome = none ∧ t.program.operations[t.cursor]? = some op := by
  unfold pending? isFinished
  cases t.outcome <;> simp

namespace Operation

variable {op : Operation} {mode : LockMode} {record : RecordId} {e : Event}

theorem record?_eq_some_iff :
    op.record? = some record ↔ ∃ mode, op.request? = some (mode, record) := by
  cases op <;> simp [record?, request?]

/-- What is logged under a shared lock is a read, and under an exclusive one a write. -/
theorem matches_request (hm : op.Matches e) (hr : op.request? = some (mode, record)) :
    (∃ v, mode = .shared ∧ e = .read record v) ∨
      ∃ old new, mode = .exclusive ∧ e = .write record old new := by
  cases op with
  | commit => cases hr
  | read r =>
    cases hr
    cases e with
    | read r' v =>
      cases hm
      exact .inl ⟨v, rfl, rfl⟩
    | _ => cases hm
  | write r v =>
    cases hr
    cases e with
    | write r' old new =>
      obtain ⟨rfl, rfl⟩ := hm
      exact .inr ⟨old, v, rfl, rfl⟩
    | _ => cases hm

theorem touches_of_matches (hm : op.Matches e) (hr : op.request? = some (mode, record)) (i : Nat) :
    e.Touches i ↔ record.toNat = i := by
  rcases matches_request hm hr with ⟨v, -, rfl⟩ | ⟨old, new, -, rfl⟩ <;> exact Iff.rfl

theorem fits_of_matches (hm : op.Matches e) (hr : op.request? = some (mode, record)) {size : Nat}
    (hlt : record.toNat < size) : e.Fits size := by
  intro i hi
  rw [touches_of_matches hm hr] at hi
  rw [← hi]
  exact hlt

theorem writes_of_matches (hm : op.Matches e) (hr : op.request? = some (mode, record)) (i : Nat) :
    e.Writes i ↔ mode = .exclusive ∧ record.toNat = i := by
  rcases matches_request hm hr with ⟨v, rfl, rfl⟩ | ⟨old, new, rfl, rfl⟩
  · exact ⟨False.elim, nofun⟩
  · exact (and_iff_right rfl).symm

theorem ne_commit_of_matches (hm : op.Matches e) (hr : op.request? = some (mode, record)) :
    e ≠ .commit := by
  rcases matches_request hm hr with ⟨v, -, rfl⟩ | ⟨old, new, -, rfl⟩ <;> exact nofun

theorem ne_abort_of_matches (hm : op.Matches e) : e ≠ .abort := by
  rintro rfl
  cases op <;> cases hm

end Operation

namespace Acts

variable {db db' : Database} {t t' : Transaction} {deed : Deed} {e : Event}

theorem outcome_eq_none (h : Acts db t deed db' t') : t.outcome = none := by
  cases h with
  | denied pending => exact (Transaction.pending?_eq_some.1 pending).1
  | access pending => exact (Transaction.pending?_eq_some.1 pending).1
  | commit pending => exact (Transaction.pending?_eq_some.1 pending).1
  | abort unfinished => exact unfinished

theorem id_eq (h : Acts db t deed db' t') : t'.id = t.id := by
  cases h <;> rfl

theorem program_eq (h : Acts db t deed db' t') : t'.program = t.program := by
  cases h <;> rfl

/-- An operation that asks for a lock is done if nobody is in its way, and else denied. -/
theorem of_request (h : Acts db t deed db' t') {op : Operation} {mode : LockMode}
    {record : RecordId} (hp : t.pending? = some op) (hr : op.request? = some (mode, record))
    (hne : deed ≠ .done .abort) :
    ((db.blockers t.id mode record).isEmpty = true ∧ ∃ e, deed = .done e) ∨
      (¬ (db.blockers t.id mode record).isEmpty = true ∧
        deed = .denied (db.blockers t.id mode record)) := by
  cases h with
  | denied pending request blocked =>
    rw [hp] at pending
    cases pending
    rw [hr] at request
    cases request
    exact .inr ⟨blocked, rfl⟩
  | access pending request free =>
    rw [hp] at pending
    cases pending
    rw [hr] at request
    cases request
    exact .inl ⟨free, _, rfl⟩
  | commit pending =>
    rw [hp] at pending
    cases pending
    cases hr
  | abort => exact absurd rfl hne

theorem store_size (h : Acts db t deed db' t') : db'.store.size = db.store.size := by
  cases h with
  | denied => rfl
  | access => exact Event.size_redo ..
  | commit => rfl
  | abort => exact size_undoAll ..

theorem locks_size (h : Acts db t deed db' t') : db'.locks.size = db.locks.size := by
  cases h with
  | denied => rfl
  | access => exact LockTable.size_take ..
  | commit => exact LockTable.size_release ..
  | abort => exact LockTable.size_release ..

theorem history_done (h : Acts db t (.done e) db' t') :
    db'.history = db.history.append t.id e := by
  cases h <;> rfl

theorem history_denied {blockers : IdSet} (h : Acts db t (.denied blockers) db' t') :
    db'.history = db.history := by
  cases h
  rfl

theorem entriesOf_other (h : Acts db t deed db' t') {u : Nat} (hu : u ≠ t.id) :
    db'.history.entriesOf u = db.history.entriesOf u := by
  cases deed with
  | denied blockers => rw [h.history_denied]
  | done e => rw [h.history_done, History.entriesOf_append, if_neg hu.symm, List.append_nil]

theorem eventsOf_other (h : Acts db t deed db' t') {u : Nat} (hu : u ≠ t.id) :
    db'.history.eventsOf u = db.history.eventsOf u :=
  congrArg (·.filterMap Entry.event?) (h.entriesOf_other hu)

end Acts

/-! ## Well-formed states -/

/-- The operations of a program touch only records of a store of `size` records. -/
def Program.Within (program : Program) (size : Nat) : Prop :=
  ∀ op ∈ program.operations, ∀ mode record, op.request? = some (mode, record) →
    record.toNat < size

structure WellFormed (store : Store) (programs : List Program) (db : Database)
    (ts : List Transaction) : Prop where
  storeSize : db.store.size = store.size
  lockSize : db.locks.size = store.size
  built : db.history.Built
  fits : ∀ t, ∀ e ∈ db.history.eventsOf t, e.Fits store.size
  programs : ts.map (·.program) = programs
  within : ∀ t ∈ ts, t.program.Within store.size
  ids : ∀ p t, ts[p]? = some t → t.id = p + 1
  cursors : ∀ t ∈ ts, t.outcome = none → t.cursor < t.program.length

/-- The last operation of a program is its commit, so every other one has a successor. -/
theorem Program.succ_lt_length {program : Program} {c : Nat} {op : Operation}
    (h : program.operations[c]? = some op) (hop : op ≠ .commit) : c + 1 < program.length := by
  have hlt : c < program.length := (List.getElem?_eq_some_iff.1 h).1
  have hlast := program.commitsLast.1
  rw [List.getLast?_eq_getElem?] at hlast
  unfold length at *
  rcases Nat.lt_or_ge (c + 1) program.operations.length with hc | hc
  · exact hc
  · rw [show program.operations.length - 1 = c by omega, h] at hlast
    exact absurd (Option.some.inj hlast) hop

theorem Transaction.succ_lt_of_request {t : Transaction} {op : Operation} {mode : LockMode}
    {record : RecordId} (hp : t.pending? = some op) (hr : op.request? = some (mode, record)) :
    t.cursor + 1 < t.program.length := by
  refine Program.succ_lt_length (Transaction.pending?_eq_some.1 hp).2 ?_
  rintro rfl
  cases hr

theorem Program.take_append_commit {program : Program} {c : Nat}
    (h : program.operations[c]? = some .commit) :
    program.operations.take c ++ [.commit] = program.operations := by
  have hlt := (List.getElem?_eq_some_iff.1 h).1
  have hc : c + 1 = program.operations.length := by
    by_cases hc : c + 1 = program.operations.length
    · exact hc
    · refine absurd (List.mem_of_getElem? (i := c) ?_) program.commitsLast.2
      rw [List.dropLast_eq_take, List.getElem?_take_of_lt (by omega)]
      exact h
  have htake := List.take_add_one (l := program.operations) (i := c)
  rw [h, hc, List.take_length] at htake
  exact htake.symm

theorem Program.mem_records {program : Program} {record : RecordId} :
    record ∈ program.records ↔
      ∃ op ∈ program.operations, ∃ mode, op.request? = some (mode, record) := by
  unfold records
  simp only [List.mem_filterMap, Operation.record?_eq_some_iff]

theorem Program.within_iff {program : Program} {size : Nat} :
    program.Within size ↔ ∀ record ∈ program.records, record.toNat < size := by
  constructor
  · intro h record hmem
    obtain ⟨op, hop, mode, hr⟩ := Program.mem_records.1 hmem
    exact h op hop mode record hr
  · intro h op hop mode record hr
    exact h record (Program.mem_records.2 ⟨op, hop, mode, hr⟩)

def Program.Largest (program : Program) (record : RecordId) : Prop :=
  record ∈ program.records ∧ ∀ r ∈ program.records, r ≤ record

theorem Program.maxRecord?_eq_some_iff {program : Program} {record : RecordId} :
    program.maxRecord? = some record ↔ program.Largest record := by
  have hmax (a b : RecordId) : max a b = if a ≤ b then b else a := rfl
  have : Std.LawfulOrderMax RecordId := by
    apply Std.LawfulOrderMax.of_max_le_iff
    · intro a b c
      simp only [hmax, UInt64.le_iff_toNat_le]
      split <;> omega
    · intro a b
      rw [hmax]
      split
      · exact .inr rfl
      · exact .inl rfl
  exact List.max?_eq_some_iff

/-- Programs are accepted when all their records are in the store; else the largest is blamed. -/
theorem Ring.checkProgram_cases (store : Store) (program : Program) :
    (program.Within store.size ∧ checkProgram store program = .ok ()) ∨
      ∃ record, program.Largest record ∧ store.size ≤ record.toNat ∧
        checkProgram store program = .error (.recordOutOfBounds record store.size) := by
  unfold checkProgram
  cases hmax : program.maxRecord? with
  | none =>
    rw [Program.maxRecord?, List.max?_eq_none_iff] at hmax
    refine .inl ⟨Program.within_iff.2 fun record hmem => ?_, rfl⟩
    rw [hmax] at hmem
    cases hmem
  | some m =>
    have hlargest := Program.maxRecord?_eq_some_iff.1 hmax
    simp only [Store.check]
    split
    · next hm =>
      refine .inl ⟨Program.within_iff.2 fun record hmem => ?_, rfl⟩
      exact Nat.lt_of_le_of_lt (UInt64.le_iff_toNat_le.1 (hlargest.2 record hmem)) hm
    · next hm => exact .inr ⟨m, hlargest, Nat.not_lt.1 hm, rfl⟩

theorem Ring.within_of_checkProgram {store : Store} {program : Program}
    (h : Ring.checkProgram store program = .ok ()) : program.Within store.size := by
  rcases checkProgram_cases store program with ⟨hwithin, -⟩ | ⟨record, -, -, herror⟩
  · exact hwithin
  · rw [herror] at h
    cases h

theorem Ring.enlist_spec {store : Store} {first : Nat} {programs : List Program}
    {ts : List Transaction} (h : Ring.enlist store first programs = .ok ts) :
    ts.map (·.program) = programs ∧
      ∀ (p : Nat) (t : Transaction), ts[p]? = some t →
        t.program.Within store.size ∧ t = { id := first + p, program := t.program } := by
  induction programs generalizing first ts with
  | nil =>
    cases h
    exact ⟨rfl, fun p t ht => by cases ht⟩
  | cons program rest ih =>
    simp only [enlist, bind_eq_ok] at h
    obtain ⟨⟨⟩, hcheck, later, hlater, hts⟩ := h
    cases hts
    obtain ⟨hmap, hlater⟩ := ih hlater
    refine ⟨by rw [List.map_cons, hmap], fun p t ht => ?_⟩
    cases p with
    | zero =>
      cases ht
      exact ⟨within_of_checkProgram hcheck, rfl⟩
    | succ p =>
      obtain ⟨hwithin, heq⟩ := hlater p t ht
      exact ⟨hwithin, by rw [show first + (p + 1) = first + 1 + p by omega]; exact heq⟩

theorem WellFormed.start {store : Store} {programs : List Program} {ts : List Transaction}
    (h : Ring.enlist store 1 programs = .ok ts) :
    WellFormed store programs (.ofStore store) ts := by
  obtain ⟨hmap, hts⟩ := Ring.enlist_spec h
  have hmem : ∀ t ∈ ts, ∃ p : Nat, ts[p]? = some t := fun t ht => List.mem_iff_getElem?.1 ht
  constructor
  case storeSize =>
    rfl
  case lockSize =>
    exact LockTable.size_ofSize _
  case built =>
    exact .empty
  case fits =>
    intro t e he
    cases he
  case programs =>
    exact hmap
  case within =>
    intro t ht
    obtain ⟨p, hp⟩ := hmem t ht
    exact (hts p t hp).1
  case ids =>
    intro p t hp
    rw [(hts p t hp).2]
    exact Nat.add_comm 1 p
  case cursors =>
    intro t ht _
    obtain ⟨p, hp⟩ := hmem t ht
    rw [(hts p t hp).2]
    exact List.length_pos_iff.2 t.program.operations_ne_nil

theorem map_set_of_eq {α β : Type} {f : α → β} {l : List α} {p : Nat} {a b : α}
    (h : l[p]? = some a) (hf : f b = f a) : (l.set p b).map f = l.map f := by
  rw [List.map_set, hf]
  apply List.ext_getElem?
  intro i
  rw [List.getElem?_set]
  split
  · next hpi =>
    subst hpi
    have hlt : p < (l.map f).length := by simpa using (List.getElem?_eq_some_iff.1 h).1
    rw [if_pos hlt, List.getElem?_map, h]
    rfl
  · rfl

section
variable {store : Store} {programs : List Program} {db db' : Database} {ts : List Transaction}
  {p u : Nat} {t t' : Transaction} {deed : Deed}

theorem getElem?_set_eq_some {q : Nat} {x : Transaction} (h : (ts.set p t')[q]? = some x) :
    (q = p ∧ x = t') ∨ (q ≠ p ∧ ts[q]? = some x) := by
  by_cases hq : p = q
  · subst hq
    have hlt : p < ts.length := by simpa using (List.getElem?_eq_some_iff.1 h).1
    rw [List.getElem?_set_self hlt] at h
    exact .inl ⟨rfl, (Option.some.inj h).symm⟩
  · rw [List.getElem?_set_ne hq] at h
    exact .inr ⟨Ne.symm hq, h⟩

theorem Acts.unfinished (ha : Acts db t deed db' t') (ht : ts[p]? = some t) :
    Unfinished ts t.id :=
  ⟨t, List.mem_of_getElem? ht, rfl, ha.outcome_eq_none⟩

namespace WellFormed

theorem record_lt (hw : WellFormed store programs db ts) (ht : ts[p]? = some t) {op : Operation}
    {mode : LockMode} {record : RecordId} (hp : t.pending? = some op)
    (hr : op.request? = some (mode, record)) : record.toNat < store.size :=
  hw.within t (List.mem_of_getElem? ht) op
    (List.mem_of_getElem? (Transaction.pending?_eq_some.1 hp).2) mode record hr

theorem exists_pending (hw : WellFormed store programs db ts) (ht : t ∈ ts)
    (hout : t.outcome = none) : ∃ op, t.pending? = some op := by
  have hlt := hw.cursors t ht hout
  exact ⟨_, Transaction.pending?_eq_some.2 ⟨hout, List.getElem?_eq_getElem hlt⟩⟩

theorem fits_done (hw : WellFormed store programs db ts) (ht : ts[p]? = some t) {e : Event}
    (ha : Acts db t (.done e) db' t') : e.Fits store.size := by
  cases ha with
  | access pending request free matched =>
    exact Operation.fits_of_matches matched request (hw.record_lt ht pending request)
  | commit => exact Event.fits_commit
  | abort => exact Event.fits_abort

theorem act (hw : WellFormed store programs db ts) (ht : ts[p]? = some t)
    (ha : Acts db t deed db' t') : WellFormed store programs db' (ts.set p t') := by
  have hmem : ∀ x ∈ ts.set p t', x = t' ∨ x ∈ ts := fun x hx =>
    (List.mem_or_eq_of_mem_set hx).symm
  have htmem : t ∈ ts := List.mem_of_getElem? ht
  constructor
  case storeSize =>
    exact ha.store_size.trans hw.storeSize
  case lockSize =>
    exact ha.locks_size.trans hw.lockSize
  case built =>
    cases deed with
    | denied blockers => exact ha.history_denied ▸ hw.built
    | done e => exact ha.history_done ▸ hw.built.append t.id e
  case fits =>
    cases deed with
    | denied blockers => exact ha.history_denied ▸ hw.fits
    | done e =>
      rw [ha.history_done]
      exact History.forall_eventsOf_append hw.fits (hw.fits_done ht ha) t.id
  case programs =>
    rw [map_set_of_eq ht ha.program_eq]
    exact hw.programs
  case within =>
    intro x hx
    rcases hmem x hx with rfl | hx
    · rw [ha.program_eq]
      exact hw.within t htmem
    · exact hw.within x hx
  case ids =>
    intro q x hx
    rcases getElem?_set_eq_some hx with ⟨rfl, rfl⟩ | ⟨-, hx⟩
    · rw [ha.id_eq]
      exact hw.ids q t ht
    · exact hw.ids q x hx
  case cursors =>
    intro x hx hout
    rcases hmem x hx with rfl | hx
    · cases ha with
      | denied => exact hw.cursors t htmem hout
      | access pending request free matched =>
        exact Transaction.succ_lt_of_request pending request
      | commit => cases hout
      | abort => cases hout
    · exact hw.cursors x hx hout

theorem length_eq (hw : WellFormed store programs db ts) : ts.length = programs.length := by
  rw [← hw.programs, List.length_map]

theorem program_mem (hw : WellFormed store programs db ts) (ht : t ∈ ts) :
    t.program ∈ programs := by
  rw [← hw.programs]
  exact List.mem_map_of_mem ht

theorem eq_of_id (hw : WellFormed store programs db ts) {x y : Transaction} (hx : x ∈ ts)
    (hy : y ∈ ts) (h : x.id = y.id) : x = y := by
  obtain ⟨q, hq⟩ := List.mem_iff_getElem?.1 hx
  obtain ⟨r, hr⟩ := List.mem_iff_getElem?.1 hy
  rw [hw.ids q x hq, hw.ids r y hr] at h
  have : q = r := by omega
  subst this
  exact Option.some.inj (hq.symm.trans hr)

/-- A deed replaces the transaction that does it and leaves the others. -/
theorem mem_set (hw : WellFormed store programs db ts) (ht : ts[p]? = some t) {x : Transaction} :
    x ∈ ts.set p t' ↔ x = t' ∨ (x ∈ ts ∧ x.id ≠ t.id) := by
  constructor
  · intro hx
    obtain ⟨q, hq⟩ := List.mem_iff_getElem?.1 hx
    rcases getElem?_set_eq_some hq with ⟨-, rfl⟩ | ⟨hne, hq⟩
    · exact .inl rfl
    · refine .inr ⟨List.mem_of_getElem? hq, ?_⟩
      rw [hw.ids q x hq, hw.ids p t ht]
      omega
  · rintro (rfl | ⟨hx, hne⟩)
    · have hlt := (List.getElem?_eq_some_iff.1 ht).1
      exact List.mem_of_getElem? (List.getElem?_set_self hlt)
    · obtain ⟨q, hq⟩ := List.mem_iff_getElem?.1 hx
      have hqp : p ≠ q := by
        rintro rfl
        rw [ht] at hq
        exact hne (Option.some.inj hq ▸ rfl)
      exact List.mem_of_getElem? ((List.getElem?_set_ne hqp).trans hq)

/-- A deed decides who is unfinished only for the transaction that does it. -/
theorem unfinished_set (hw : WellFormed store programs db ts) (ht : ts[p]? = some t)
    (ha : Acts db t deed db' t') :
    Unfinished (ts.set p t') u ↔ (u = t.id ∧ t'.outcome = none) ∨ (u ≠ t.id ∧ Unfinished ts u) := by
  constructor
  · rintro ⟨x, hx, rfl, hout⟩
    rcases (hw.mem_set ht).1 hx with rfl | ⟨hx, hne⟩
    · exact .inl ⟨ha.id_eq, hout⟩
    · exact .inr ⟨hne, x, hx, rfl, hout⟩
  · rintro (⟨rfl, hout⟩ | ⟨hne, x, hx, rfl, hout⟩)
    · exact ⟨t', (hw.mem_set ht).2 (.inl rfl), ha.id_eq, hout⟩
    · exact ⟨x, (hw.mem_set ht).2 (.inr ⟨hx, hne⟩), rfl, hout⟩

theorem unfinished_keep (hw : WellFormed store programs db ts) (ht : ts[p]? = some t)
    (ha : Acts db t deed db' t') (hout : t'.outcome = none) :
    Unfinished (ts.set p t') u ↔ Unfinished ts u := by
  rw [hw.unfinished_set ht ha]
  constructor
  · rintro (⟨rfl, -⟩ | ⟨-, hu⟩)
    · exact ha.unfinished ht
    · exact hu
  · intro hu
    by_cases h : u = t.id
    · exact .inl ⟨h, hout⟩
    · exact .inr ⟨h, hu⟩

theorem unfinished_drop (hw : WellFormed store programs db ts) (ht : ts[p]? = some t)
    (ha : Acts db t deed db' t') (hout : t'.outcome ≠ none) :
    Unfinished (ts.set p t') u ↔ u ≠ t.id ∧ Unfinished ts u := by
  rw [hw.unfinished_set ht ha]
  exact or_iff_right fun h => hout h.2

end WellFormed

theorem Evolves.wellFormed (h : Evolves store programs db ts) :
    WellFormed store programs db ts := by
  induction h with
  | start hts => exact WellFormed.start hts
  | act _ ht ha ih => exact ih.act ht ha

end

end TwoPhase
