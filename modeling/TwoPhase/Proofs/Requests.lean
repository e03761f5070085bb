import TwoPhase.Proofs.Evolution

/-!
# Requests to a database

A database can be asked for a lock, a read or a write, a commit or an abort, under any
number and for any record. It is asked by the transactions of a ring, but need not be:
here requests come in any order, and a number may be used again after its end.

* `Database.Sound`: store and locks are of one size, the history has grown from
  nothing, and its events are about records that there are.
* `Sound.lock`, `Sound.read`, `Sound.write`, `Sound.abort`: what a sound database
  answers. Only records outside the store are refused.
* `Database.Effect`: everything a request can do. Effects keep a database sound
  (`Sound.of_effect`), and what they keep holds after any requests (`Sound.afterAll`).
-/

namespace TwoPhase

/-- The state to go on with after a call; one that failed has left the old state. -/
def stateAfter {σ α : Type} (old : σ) : Except Error (σ × α) → σ
  | .ok (new, _) => new
  | .error _ => old

theorem stateAfter_cases {σ α : Type} (old : σ) (result : Except Error (σ × α)) :
    stateAfter old result = old ∨
      ∃ new answer, result = .ok (new, answer) ∧ stateAfter old result = new := by
  cases result with
  | error e => exact .inl rfl
  | ok pair => exact .inr ⟨pair.1, pair.2, rfl, rfl⟩

inductive Request where
  | lock (t : Nat) (mode : LockMode) (record : RecordId)
  | read (t : Nat) (record : RecordId)
  | write (t : Nat) (record : RecordId) (value : Value)
  | commit (t : Nat)
  | abort (t : Nat)
deriving DecidableEq, Repr

namespace Database

def after (db : Database) : Request → Database
  | .lock t mode record => stateAfter db (db.lock t mode record)
  | .read t record => stateAfter db (db.read t record)
  | .write t record value => stateAfter db (db.write t record value)
  | .commit t => (db.commit t).1
  | .abort t => stateAfter db (db.abort t)

def afterAll (db : Database) (requests : List Request) : Database := requests.foldl after db

structure Sound (size : Nat) (db : Database) : Prop where
  storeSize : db.store.size = size
  lockSize : db.locks.size = size
  built : db.history.Built
  fits : ∀ t, ∀ e ∈ db.history.eventsOf t, e.Fits size

inductive Effect (db : Database) : Database → Prop where
  | none : Effect db db
  | denied {t : Nat} {mode : LockMode} {record : RecordId}
      (blocked : ¬ (db.blockers t mode record).isEmpty = true) :
      Effect db { db with waits := db.waits.addEdges t (db.blockers t mode record).toList }
  | locked {t : Nat} {mode : LockMode} {record : RecordId}
      (inside : record.toNat < db.store.size)
      (free : (db.blockers t mode record).isEmpty = true) :
      Effect db { db with locks := db.locks.take t mode record.toNat }
  | access {t : Nat} {op : Operation} {mode : LockMode} {record : RecordId} {e : Event}
      (inside : record.toNat < db.store.size) (request : op.request? = some (mode, record))
      (free : (db.blockers t mode record).isEmpty = true)
      (matched : op.Matches e) (sees : e.Sees db.store) :
      Effect db { db with
        store := e.redo db.store
        locks := db.locks.take t mode record.toNat
        history := db.history.append t e }
  | commit (t : Nat) : Effect db (db.finish t .commit)
  | abort (t : Nat) :
      Effect db
        ({ db with store := TwoPhase.undoAll (db.history.eventsOf t) db.store }.finish t .abort)

section
variable {db db' : Database} {size t : Nat} {mode : LockMode} {record : RecordId}

/-! ## Answers -/

theorem lock_of_lt (h : record.toNat < db.locks.size) (t : Nat) (mode : LockMode) :
    db.lock t mode record =
      if (db.blockers t mode record).isEmpty then
        .ok ({ db with locks := db.locks.take t mode record.toNat }, .granted)
      else
        .ok ({ db with waits := db.waits.addEdges t (db.blockers t mode record).toList },
          .denied (db.blockers t mode record)) := by
  unfold lock blockers
  rw [LockTable.request_of_lt h]
  split <;> rfl

namespace Sound

theorem lock (h : db.Sound size) (hlt : record.toNat < size) (t : Nat) (mode : LockMode) :
    (¬ (db.blockers t mode record).isEmpty = true ∧
      db.lock t mode record =
        .ok ({ db with waits := db.waits.addEdges t (db.blockers t mode record).toList },
          .denied (db.blockers t mode record))) ∨
    ((db.blockers t mode record).isEmpty = true ∧
      db.lock t mode record =
        .ok ({ db with locks := db.locks.take t mode record.toNat }, .granted)) := by
  rw [lock_of_lt (h.lockSize ▸ hlt)]
  by_cases hb : (db.blockers t mode record).isEmpty = true
  · exact .inr ⟨hb, if_pos hb⟩
  · exact .inl ⟨hb, if_neg hb⟩

theorem read (h : db.Sound size) (hlt : record.toNat < size) (t : Nat) :
    (¬ (db.blockers t .shared record).isEmpty = true ∧
      db.read t record =
        .ok ({ db with waits := db.waits.addEdges t (db.blockers t .shared record).toList },
          .denied (db.blockers t .shared record))) ∨
    ∃ v, (db.blockers t .shared record).isEmpty = true ∧
      db.store.value? record.toNat = some v ∧
      db.read t record =
        .ok ({ db with
          locks := db.locks.take t .shared record.toNat
          history := db.history.append t (.read record v) }, .done db.history.length) := by
  obtain ⟨v, hv⟩ := Store.exists_value? (h.storeSize ▸ hlt)
  rcases h.lock hlt t .shared with ⟨hb, hl⟩ | ⟨hb, hl⟩
  · exact .inl ⟨hb, by simp only [Database.read, hl, bind, Except.bind, pure, Except.pure]⟩
  · refine .inr ⟨v, hb, hv, ?_⟩
    simp only [Database.read, hl, bind, Except.bind, Store.get_eq_ok_iff.2 hv, pure, Except.pure]

theorem write (h : db.Sound size) (hlt : record.toNat < size) (t : Nat) (value : Value) :
    (¬ (db.blockers t .exclusive record).isEmpty = true ∧
      db.write t record value =
        .ok ({ db with waits := db.waits.addEdges t (db.blockers t .exclusive record).toList },
          .denied (db.blockers t .exclusive record))) ∨
    ∃ old, (db.blockers t .exclusive record).isEmpty = true ∧
      db.store.value? record.toNat = some old ∧
      db.write t record value =
        .ok ({ db with
          store := db.store.put record value
          locks := db.locks.take t .exclusive record.toNat
          history := db.history.append t (.write record old value) },
          .done db.history.length) := by
  obtain ⟨old, hv⟩ := Store.exists_value? (h.storeSize ▸ hlt)
  rcases h.lock hlt t .exclusive with ⟨hb, hl⟩ | ⟨hb, hl⟩
  · exact .inl ⟨hb, by simp only [Database.write, hl, bind, Except.bind, pure, Except.pure]⟩
  · refine .inr ⟨old, hb, hv, ?_⟩
    simp only [Database.write, hl, bind, Except.bind, Store.set_eq_ok_iff.2 ⟨hv, rfl⟩, pure,
      Except.pure]

/-- An abort does not fail, since all that was written is in the store. -/
theorem abort (h : db.Sound size) (t : Nat) :
    db.abort t =
      .ok ({ db with store := TwoPhase.undoAll (db.history.eventsOf t) db.store }.finish t .abort,
        db.history.length) := by
  have hundo := h.built.undoAll_chain t (h.storeSize ▸ h.fits)
  simp only [Database.abort, hundo, bind, Except.bind, pure, Except.pure]

theorem lock_outside (h : db.Sound size) (hge : size ≤ record.toNat) (t : Nat) (mode : LockMode) :
    db.lock t mode record = .error (.recordOutOfBounds record size) := by
  simp only [Database.lock, LockTable.request_of_ge (h.lockSize.le.trans hge), bind, Except.bind,
    h.lockSize]

theorem read_outside (h : db.Sound size) (hge : size ≤ record.toNat) (t : Nat) :
    db.read t record = .error (.recordOutOfBounds record size) := by
  simp only [Database.read, h.lock_outside hge, bind, Except.bind]

theorem write_outside (h : db.Sound size) (hge : size ≤ record.toNat) (t : Nat) (value : Value) :
    db.write t record value = .error (.recordOutOfBounds record size) := by
  simp only [Database.write, h.lock_outside hge, bind, Except.bind]

/-! ## Effects -/

theorem effect (h : db.Sound size) (request : Request) : db.Effect (db.after request) := by
  have hinside : ∀ {record : RecordId}, record.toNat < size → record.toNat < db.store.size :=
    fun hlt => h.storeSize ▸ hlt
  cases request with
  | lock t mode record =>
    rcases Nat.lt_or_ge record.toNat size with hlt | hge
    · rcases h.lock hlt t mode with ⟨hb, hl⟩ | ⟨hb, hl⟩
      · rw [after, hl]
        exact .denied hb
      · rw [after, hl]
        exact .locked (hinside hlt) hb
    · rw [after, h.lock_outside hge]
      exact .none
  | read t record =>
    rcases Nat.lt_or_ge record.toNat size with hlt | hge
    · rcases h.read hlt t with ⟨hb, hr⟩ | ⟨v, hb, hv, hr⟩
      · rw [after, hr]
        exact .denied hb
      · rw [after, hr]
        have hop : (Operation.read record).request? = some (.shared, record) := rfl
        exact .access (e := .read record v) (hinside hlt) hop hb rfl hv
    · rw [after, h.read_outside hge]
      exact .none
  | write t record value =>
    rcases Nat.lt_or_ge record.toNat size with hlt | hge
    · rcases h.write hlt t value with ⟨hb, hr⟩ | ⟨old, hb, hv, hr⟩
      · rw [after, hr]
        exact .denied hb
      · rw [after, hr]
        have hop : (Operation.write record value).request? = some (.exclusive, record) := rfl
        exact .access (e := .write record old value) (hinside hlt) hop hb ⟨rfl, rfl⟩ hv
    · rw [after, h.write_outside hge]
      exact .none
  | commit t => exact .commit t
  | abort t =>
    rw [after, h.abort]
    exact .abort t

theorem of_effect (h : db.Sound size) (he : db.Effect db') : db'.Sound size := by
  cases he with
  | none => exact h
  | denied => exact ⟨h.storeSize, h.lockSize, h.built, h.fits⟩
  | locked => exact ⟨h.storeSize, (LockTable.size_take ..).trans h.lockSize, h.built, h.fits⟩
  | @access t op mode record e inside request free matched sees =>
    have hfits := Operation.fits_of_matches matched request (h.storeSize ▸ inside)
    exact ⟨(Event.size_redo ..).trans h.storeSize, (LockTable.size_take ..).trans h.lockSize,
      h.built.append t e, History.forall_eventsOf_append h.fits hfits t⟩
  | commit t =>
    exact ⟨h.storeSize, (LockTable.size_release ..).trans h.lockSize, h.built.append t .commit,
      History.forall_eventsOf_append h.fits Event.fits_commit t⟩
  | abort t =>
    exact ⟨(size_undoAll ..).trans h.storeSize, (LockTable.size_release ..).trans h.lockSize,
      h.built.append t .abort, History.forall_eventsOf_append h.fits Event.fits_abort t⟩

theorem ofStore (store : Store) : (Database.ofStore store).Sound store.size :=
  ⟨rfl, LockTable.size_ofSize _, .empty, fun _ _ he => by cases he⟩

/-- What every effect keeps, holds after any requests. -/
theorem afterAll {P : Database → Prop} (h : db.Sound size) (hP : P db)
    (hstep : ∀ db db' : Database, db.Sound size → db.Effect db' → P db → P db')
    (requests : List Request) : (db.afterAll requests).Sound size ∧ P (db.afterAll requests) := by
  induction requests generalizing db with
  | nil => exact ⟨h, hP⟩
  | cons request rest ih =>
    have heffect := h.effect request
    exact ih (h.of_effect heffect) (hstep _ _ h heffect hP)

end Sound

end

end Database

end TwoPhase
