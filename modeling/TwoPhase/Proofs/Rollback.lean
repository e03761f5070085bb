import TwoPhase.Proofs.Account

/-!
# What an abort takes back

An abort undoes the writes of its transaction, newest first, so what is left in a record
is what the oldest of these writes found there (`value?_undoAll_of_first`). Nothing else
is touched:

* `Database.RolledBack`: the database afterwards, part by part.
* `Ring.RolledBack`: the ring afterwards. What other unfinished transactions have read or
  written stays as it is, since they hold locks on it (`Evolves.not_writes_of_touches`).
-/

namespace TwoPhase

def History.firstWrite? (h : History) (t : Nat) (r : RecordId) : Option Entry :=
  h.entries.find? fun entry =>
    entry.kind = .write ∧ entry.transaction = t ∧ entry.record = some r

/-- `db'` is `db` with everything that `t` did taken back and its abort logged. -/
structure Database.RolledBack (db : Database) (t : Nat) (db' : Database) : Prop where
  restored : ∀ r entry, db.history.firstWrite? t r = some entry →
    ∃ old, entry.old = some old ∧ db'.store.value? r.toNat = some old
  kept : ∀ i, (∀ r : RecordId, r.toNat = i → db.history.firstWrite? t r = none) →
    db'.store.value? i = db.store.value? i
  released : db'.locks.heldBy t = []
  lockSize : db'.locks.size = db.locks.size
  owners : ∀ i u, u ≠ t →
    ((db'.locks.lockOf i).owner? = some u ↔ (db.locks.lockOf i).owner? = some u)
  sharers : ∀ i u, u ≠ t →
    (u ∈ (db'.locks.lockOf i).sharers ↔ u ∈ (db.locks.lockOf i).sharers)
  edges : ∀ a b, db'.waits.hasEdge a b = true ↔ a ≠ t ∧ db.waits.hasEdge a b = true
  vertices : db'.waits.vertices = db.waits.vertices
  logged : db'.history.entries = db.history.entries ++
    [⟨.abort, db.history.length, t, none, none, none, db.history.last? t⟩]

/-- `ring'` is `ring` with `t` aborted and nothing else changed. -/
structure Ring.RolledBack (ring : Ring) (t : Transaction) (ring' : Ring) : Prop where
  database : ring.database.RolledBack t.id ring'.database
  spared : ∀ u, u ≠ t.id → Unfinished ring.transactions u → ∀ r : RecordId,
    ring.database.history.HasEntry .read u r ∨ ring.database.history.HasEntry .write u r →
    ring'.database.store.value? r.toNat = ring.database.store.value? r.toNat
  own : ring'.transactions[t.id - 1]? = some { t with outcome := some .aborted, denials := 0 }
  others : ∀ p, p + 1 ≠ t.id → ring'.transactions[p]? = ring.transactions[p]?
  rest : ring' = { ring with
    database := ring'.database
    transactions := ring'.transactions
    finished := ring.finished + 1 }

/-! ## The store -/

theorem value?_undoAll_of_first {before after : List Event} {record : RecordId} {old new : Value}
    {s : Store} (hlt : record.toNat < s.size) (h : ¬ Writes record.toNat before) :
    (undoAll (before ++ .write record old new :: after) s).value? record.toNat = some old := by
  rw [undoAll_append, value?_undoAll_of_not_writes h, undoAll, Event.undo, Store.value?_put,
    if_pos rfl, size_undoAll, if_pos hlt]

namespace History.Built

variable {h : History} {t : Nat} {r : RecordId} {entry : Entry}

theorem writes_event?_iff (hb : h.Built) (hmem : entry ∈ h.entries) {e : Event}
    (he : entry.event? = some e) :
    e.Writes r.toNat ↔ entry.kind = .write ∧ entry.record = some r := by
  obtain ⟨lsn, previous, e', -, heq⟩ := hb.eq_ofEvent hmem
  rw [heq, Entry.event?_ofEvent] at he
  cases he
  rw [heq]
  cases e with
  | write record old new => simp [Entry.ofEvent, Event.Writes, UInt64.toNat_inj]
  | _ => simp [Entry.ofEvent, Event.Writes]

/-- The oldest write of a transaction is among its events, with no write on the record before it. -/
theorem eventsOf_of_firstWrite? (hb : h.Built) (hfirst : h.firstWrite? t r = some entry) :
    ∃ before old new after, h.eventsOf t = before ++ .write r old new :: after ∧
      ¬ Writes r.toNat before ∧ entry.old = some old := by
  obtain ⟨hentry, before, after, heq, hbefore⟩ := List.find?_eq_some_iff_append.1 hfirst
  simp only [decide_eq_true_eq] at hentry
  obtain ⟨hkind, rfl, hrecord⟩ := hentry
  have hmem : ∀ x ∈ before, x ∈ h.entries := fun x hx => heq ▸ List.mem_append_left _ hx
  have hself : entry ∈ h.entries := by simp [heq]
  obtain ⟨lsn, previous, e, -, hevent⟩ := hb.eq_ofEvent hself
  cases e with
  | write record old new =>
    rw [hevent] at hrecord
    cases hrecord
    have hown : entry.event? = some (.write r old new) := by rw [hevent, Entry.event?_ofEvent]
    refine ⟨(before.filter (·.transaction = entry.transaction)).filterMap Entry.event?, old, new,
      (after.filter (·.transaction = entry.transaction)).filterMap Entry.event?, ?_, ?_, ?_⟩
    · unfold eventsOf entriesOf
      rw [heq]
      simp [hown]
    · rintro ⟨e, he, hwrites⟩
      obtain ⟨earlier, hearlier, he⟩ := List.mem_filterMap.1 he
      obtain ⟨hx, htransaction⟩ := List.mem_filter.1 hearlier
      have hwrote := (hb.writes_event?_iff (hmem earlier hx) he).1 hwrites
      have hnot := hbefore earlier hx
      simp only [decide_eq_true_eq] at htransaction
      simp [hwrote, htransaction] at hnot
    · rw [hevent]
      rfl
  | _ =>
    rw [hevent] at hkind
    cases hkind

theorem firstWrite?_eq_none_iff (hb : h.Built) :
    h.firstWrite? t r = none ↔ ¬ Writes r.toNat (h.eventsOf t) := by
  rw [hb.writes_iff]
  unfold firstWrite? HasEntry
  simp [List.find?_eq_none]

end History.Built

/-! ## The database -/

theorem LockTable.heldBy_release (table : LockTable) (t : Nat) :
    (table.release t).heldBy t = [] := by
  refine List.eq_nil_iff_forall_not_mem.2 fun i hi => ?_
  rw [mem_heldBy, lockOf_release, Lock.owner?_release, Lock.mem_sharers_release] at hi
  rcases hi with ⟨hne, -⟩ | ⟨hne, -⟩ <;> exact hne rfl

theorem WaitGraph.vertices_clearFrom (g : WaitGraph) (v : Nat) :
    (g.clearFrom v).vertices = g.vertices := by
  unfold vertices clearFrom
  rw [List.map_map]
  refine List.map_congr_left fun row _ => ?_
  simp only [Function.comp_apply]
  split <;> rfl

section
variable {store : Store} {programs : List Program} {settings : Settings} {turns : List Turn}
  {db : Database} {ts : List Transaction} {ring : Ring}

theorem WellFormed.rolledBack (hw : WellFormed store programs db ts) (t : Nat) :
    db.RolledBack t
      ({ db with store := undoAll (db.history.eventsOf t) db.store }.finish t .abort) := by
  have hb := hw.built
  constructor
  case restored =>
    intro r entry hfirst
    obtain ⟨before, old, new, after, hevents, hnone, hold⟩ := hb.eventsOf_of_firstWrite? hfirst
    have hfits := hw.fits t (.write r old new) (by simp [hevents]) r.toNat rfl
    refine ⟨old, hold, ?_⟩
    show (undoAll (db.history.eventsOf t) db.store).value? r.toNat = some old
    rw [hevents]
    exact value?_undoAll_of_first (hw.storeSize ▸ hfits) hnone
  case kept =>
    intro i hi
    refine value?_undoAll_of_not_writes ?_
    rintro ⟨e, he, hwrites⟩
    cases e with
    | write record old new =>
      exact hb.firstWrite?_eq_none_iff.1 (hi record hwrites) ⟨_, he, rfl⟩
    | _ => cases hwrites
  case released =>
    exact db.locks.heldBy_release t
  case lockSize =>
    exact db.locks.size_release t
  case owners =>
    intro i u hu
    rw [Database.finish, LockTable.lockOf_release, Lock.owner?_release, and_iff_right hu]
  case sharers =>
    intro i u hu
    rw [Database.finish, LockTable.lockOf_release, Lock.mem_sharers_release, and_iff_right hu]
  case edges =>
    intro a b
    exact WaitGraph.hasEdge_clearFrom
  case vertices =>
    exact db.waits.vertices_clearFrom t
  case logged =>
    rfl

/-! ## The ring -/

/-- Who is unfinished holds a lock on what it touched, so nobody else has written there. -/
theorem Evolves.not_writes_of_touches (h : Evolves store programs db ts) {t u i : Nat} (hne : u ≠ t)
    (ht : Unfinished ts t) (hu : Unfinished ts u) (htouch : Touches i (db.history.eventsOf u)) :
    ¬ Writes i (db.history.eventsOf t) :=
  fun hwrites =>
    hne (h.locksMatch.eq_of_touches hu htouch ((h.locksMatch.owner i t).2 ⟨ht, hwrites⟩))

theorem Ring.Reached.rolledBack (h : Ring.Reached store programs settings turns ring)
    {t : Transaction} (ht : t ∈ ring.transactions) (hout : t.outcome = none) :
    ∃ ring', ring.abort t.id = .ok (ring', some ring.database.history.length) ∧
      ring.RolledBack t ring' := by
  have hw := h.evolves.wellFormed
  obtain ⟨ring', lsn, ha⟩ := Ring.exists_abort hw ht
  rcases Ring.abort_cases hw ha with ⟨-, -, hfin⟩ | ⟨t₁, db', t', hget, -, hacts, rfl, rfl⟩
  · exact absurd ⟨t, ht, rfl, hout⟩ hfin
  · have hself : t₁ = t := Option.some.inj (hget.symm.trans (Ring.getElem?_of_id hw ht))
    subst hself
    obtain ⟨rfl, rfl⟩ := hacts.abort_inv
    refine ⟨_, ha, ?_⟩
    constructor
    case database =>
      exact hw.rolledBack t₁.id
    case spared =>
      intro u hne hu r htouch
      refine (hw.rolledBack t₁.id).kept _ fun r' hr' => ?_
      rw [hw.built.firstWrite?_eq_none_iff, hr']
      exact h.evolves.not_writes_of_touches hne ⟨t₁, ht, rfl, hout⟩ hu
        (hw.built.touches_iff.2 htouch)
    case own =>
      exact List.getElem?_set_self (List.getElem?_eq_some_iff.1 hget).1
    case others =>
      intro p hp
      have hid := hw.ids _ _ hget
      refine List.getElem?_set_ne ?_
      omega
    case rest =>
      rfl

/-- **An abort undoes its transaction and nothing else.** In every reached ring an unfinished
transaction can be aborted. Its abort is logged last, linked to its entry before. Each record it
wrote holds again what its first write found there, and all other records, what others have locked
and whom others wait for stay as they are; so do the other transactions. Aborting a finished
transaction changes nothing. -/
theorem abort_rolls_back (h : Ring.Reached store programs settings turns ring) {t : Transaction}
    (ht : t ∈ ring.transactions) :
    (t.outcome = none → ∃ ring', ring.abort t.id = .ok (ring', some ring.database.history.length) ∧
      ring.RolledBack t ring') ∧
    (t.outcome ≠ none → ring.abort t.id = .ok (ring, none)) := by
  refine ⟨h.rolledBack ht, fun hout => ?_⟩
  have hw := h.evolves.wellFormed
  obtain ⟨ring', lsn, ha⟩ := Ring.exists_abort hw ht
  rcases Ring.abort_cases hw ha with ⟨rfl, rfl, -⟩ | ⟨t₁, db', t', hget, -, hacts, -, -⟩
  · exact ha
  · have hself : t₁ = t := Option.some.inj (hget.symm.trans (Ring.getElem?_of_id hw ht))
    exact absurd (hself ▸ hacts.outcome_eq_none) hout

/-- T1 writes record 0 twice; between these writes T2 writes record 2, and then waits for T1. -/
def rewriting : List Program :=
  [⟨[.write 0 1, .read 1, .write 0 2, .commit], by decide⟩,
    ⟨[.read 1, .write 2 9, .write 0 3, .commit], by decide⟩]

/-- After six turns T1 is aborted. Record 0 holds again what it held before both writes of T1, and
T2 keeps what it wrote, its lock and its wait. -/
theorem abort_rolls_back_rewriting :
    ∃ (turns : List Turn) (ring ring' : Ring),
      Ring.Reached ⟨[5, 6, 7]⟩ rewriting ⟨9⟩ turns ring ∧
      ring.database.store = ⟨[2, 6, 9]⟩ ∧ ring.abort 1 = .ok (ring', some 5) ∧
      ring'.database.store.value? 0 = some 5 ∧ ring'.database.store.value? 2 = some 9 ∧
      (ring'.database.locks.lockOf 2).owner? = some 2 ∧
      ring'.database.waits.hasEdge 2 1 = true ∧ ring'.finished = 1 := by
  obtain ⟨turns, ring, hr, hstore, hlength, hfinished, howner, hedge, hfirst, hnone,
      t, ht, hid, hout⟩ :=
    Ring.exists_reached ⟨[5, 6, 7]⟩ rewriting ⟨9⟩ 6
      (fun ring =>
        ring.database.store = ⟨[2, 6, 9]⟩ ∧ ring.database.history.length = 5 ∧
        ring.finished = 0 ∧ (ring.database.locks.lockOf 2).owner? = some 2 ∧
        ring.database.waits.hasEdge 2 1 = true ∧
        ring.database.history.firstWrite? 1 0 =
          some ⟨.write, 0, 1, some 0, some 5, some 1, none⟩ ∧
        ring.database.history.firstWrite? 1 2 = none ∧
        ∃ t ∈ ring.transactions, t.id = 1 ∧ t.outcome = none)
      (by decide +kernel)
  obtain ⟨ring', habort, hback⟩ := (abort_rolls_back hr ht).1 hout
  rw [hid] at habort
  rw [hlength] at habort
  have hdatabase := hback.database
  rw [hid] at hdatabase
  refine ⟨turns, ring, ring', hr, hstore, habort, ?_, ?_, ?_, ?_, ?_⟩
  · obtain ⟨old, hold, hvalue⟩ := hdatabase.restored 0 _ hfirst
    cases hold
    exact hvalue
  · have hkept := hdatabase.kept 2 fun r hr => by
      rw [show r = 2 from UInt64.toNat_inj.1 hr]
      exact hnone
    rw [hkept, hstore]
    rfl
  · exact (hdatabase.owners 2 2 (by decide)).2 howner
  · exact (hdatabase.edges 2 1).2 ⟨by decide, hedge⟩
  · rw [hback.rest]
    exact congrArg (· + 1) hfinished

end

end TwoPhase
