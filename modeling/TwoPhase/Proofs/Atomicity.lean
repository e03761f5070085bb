import TwoPhase.Proofs.Holders
import TwoPhase.Stepwise

/-!
# Requests part by part

In `Stepwise`, a part of a request that fails leaves behind what was done before it, so it
takes a proof that a request which fails changes nothing.

* `Sound.run_perform`: on a sound database, a request done part by part is the same as
  one done at once. Only its first part can fail, so a failure leaves the old database.
* `Sound.serve_eq_error_iff`: what fails is a request for a record outside the store.
* `Sound.run_advance`, `Sound.advance_eq_error_iff`: the same for a transaction that
  tries its pending operation.
* `Database.Orderly`, `Database.Atomic`: what holds of a database after any requests, and
  of what it is asked next.
-/

namespace TwoPhase

section
variable {ε σ α : Type}

@[simp] theorem settled_ok (old new : σ) (answer : α) :
    settled (ε := ε) old (.ok (new, answer)) = .ok answer new := rfl

@[simp] theorem settled_error (old : σ) (e : ε) :
    settled (α := α) old (.error e) = .error e old := rfl

@[simp] theorem run_part (f : σ → Except ε (σ × α)) (state : σ) :
    (part f).run state = settled state (f state) := rfl

/-- What is done with the answer changes nothing else. -/
theorem run_map_settled {β : Type} {m : EStateM Error σ α} {state : σ}
    {result : Except Error (σ × α)} (f : α → β) (h : m.run state = settled state result) :
    (f <$> m).run state = settled state (result.map fun (new, answer) => (new, f answer)) := by
  rw [map_eq_pure_bind, EStateM.run_bind, h]
  cases result with
  | error e => rfl
  | ok pair => rfl

theorem stateAfter_map {β : Type} (old : σ) (f : α → β) (result : Except Error (σ × α)) :
    stateAfter old (result.map fun (new, answer) => (new, f answer)) = stateAfter old result := by
  cases result with
  | error e => rfl
  | ok pair => rfl

theorem stateLeft_settled (old : σ) (result : Except Error (σ × α)) :
    stateLeft (settled old result) = stateAfter old result := by
  cases result with
  | error e => rfl
  | ok pair => rfl

theorem settled_eq_error_iff {old new : σ} {result : Except ε (σ × α)} {e : ε} :
    settled old result = .error e new ↔ result = .error e ∧ new = old := by
  cases result with
  | error e' =>
    simp only [settled_error, EStateM.Result.error.injEq, Except.error.injEq]
    exact and_congr_right fun _ => eq_comm
  | ok pair => exact iff_of_false nofun nofun

end

inductive Answer where
  | verdict (verdict : Verdict)
  | access (access : Access)
  | logged (lsn : Nat)
deriving DecidableEq, Repr

namespace Request

def record? : Request → Option RecordId
  | lock _ _ record => some record
  | read _ record => some record
  | write _ record _ => some record
  | commit _ => none
  | abort _ => none

def perform : Request → EStateM Error Database Answer
  | lock t mode record => .verdict <$> Stepwise.lock t mode record
  | read t record => .access <$> Stepwise.read t record
  | write t record value => .access <$> Stepwise.write t record value
  | commit t => .logged <$> Stepwise.finish t .commit
  | abort t => .logged <$> Stepwise.abort t

end Request

namespace Database

def serve (db : Database) : Request → Except Error (Database × Answer)
  | .lock t mode record => (db.lock t mode record).map fun (db, verdict) => (db, .verdict verdict)
  | .read t record => (db.read t record).map fun (db, access) => (db, .access access)
  | .write t record value => (db.write t record value).map fun (db, access) => (db, .access access)
  | .commit t => .ok ((db.commit t).1, .logged (db.commit t).2)
  | .abort t => (db.abort t).map fun (db, lsn) => (db, .logged lsn)

/-- The database that requests leave, each done part by part. -/
def leftBy (db : Database) (requests : List Request) : Database :=
  requests.foldl (fun db request => stateLeft (request.perform.run db)) db

/-- What holds of a database over a store of `size` records, whatever was requested. -/
structure Orderly (size : Nat) (db : Database) : Prop where
  storeSize : db.store.size = size
  lockSize : db.locks.size = size
  apart : ∀ holders ∈ db.locks.holders, holders.Apart
  noSelfWait : ∀ t, db.waits.hasEdge t t = false
  inside : ∀ entry ∈ db.history.entries, entry.kind = .write →
    ∃ record, entry.record = some record ∧ record.toNat < size

/-- What is asked of the database succeeds or changes nothing. -/
structure Atomic (size : Nat) (db : Database) : Prop where
  perform : ∀ request : Request, request.perform.run db = settled db (db.serve request)
  fails : ∀ (request : Request) (e : Error) (db' : Database),
    request.perform.run db = .error e db' ↔
      ∃ record, request.record? = some record ∧ size ≤ record.toNat ∧
        e = .recordOutOfBounds record size ∧ db' = db
  abort : ∀ t, ∃ lsn db', (Stepwise.abort t).run db = .ok lsn db'
  advance : ∀ t : Transaction, Stepwise.advance.run (t, db) =
    settled (t, db) ((t.advance db).map fun (new, db, step) => ((new, db), step))
  advanceFails : ∀ (t : Transaction) (e : Error) (state : Transaction × Database),
    Stepwise.advance.run (t, db) = .error e state ↔
      ∃ op record, t.pending? = some op ∧ op.record? = some record ∧ size ≤ record.toNat ∧
        e = .recordOutOfBounds record size ∧ state = (t, db)

section
variable {db db' : Database} {size t : Nat} {record : RecordId} {request : Request} {e : Error}

/-! ## At once or part by part -/

theorem run_undoAll {entries : List Entry} {s : Store}
    (h : Database.undoAll entries db.store = .ok s) :
    (Stepwise.undoAll entries).run db = .ok () { db with store := s } := by
  induction entries generalizing db with
  | nil =>
    cases h
    rfl
  | cons entry rest ih =>
    rw [Database.undoAll] at h
    simp only [Stepwise.undoAll, Stepwise.undo, EStateM.run_bind, run_part]
    cases hundo : Database.undo entry db.store with
    | error e =>
      rw [hundo] at h
      cases h
    | ok s' =>
      rw [hundo] at h
      exact ih h

namespace Sound

theorem run_lock (h : db.Sound size) (t : Nat) (mode : LockMode) (record : RecordId) :
    (Stepwise.lock t mode record).run db = settled db (db.lock t mode record) := by
  simp only [Stepwise.lock, Stepwise.request, EStateM.run_bind, run_part]
  rcases Nat.lt_or_ge record.toNat size with hlt | hge
  · rw [← h.lockSize] at hlt
    rw [lock_of_lt hlt, LockTable.request_of_lt hlt, ← Database.blockers]
    by_cases hb : (db.blockers t mode record).isEmpty = true
    · rw [if_pos hb, if_pos hb]
      rfl
    · rw [if_neg hb, if_neg hb]
      rfl
  · have hnone : db.locks.locks[record.toNat]? = none :=
      List.getElem?_eq_none (Nat.le_trans (Nat.le_of_eq h.lockSize) hge)
    simp only [h.lock_outside hge, LockTable.request, hnone, h.lockSize]
    rfl

theorem run_read (h : db.Sound size) (t : Nat) (record : RecordId) :
    (Stepwise.read t record).run db = settled db (db.read t record) := by
  simp only [Stepwise.read, Stepwise.fetch, EStateM.run_bind, h.run_lock]
  rcases Nat.lt_or_ge record.toNat size with hlt | hge
  · rcases h.read hlt t with ⟨hb, hread⟩ | ⟨v, hb, hv, hread⟩
    · rw [hread, lock_of_lt (h.lockSize ▸ hlt), if_neg hb]
      rfl
    · rw [hread, lock_of_lt (h.lockSize ▸ hlt), if_pos hb]
      simp only [settled_ok, EStateM.run_bind, run_part, Store.get_eq_ok_iff.2 hv]
      rfl
  · rw [h.read_outside hge, h.lock_outside hge]
    rfl

/-- Were there more locks than records, a read that fails would keep its lock. -/
example : (Stepwise.read 1 0).run ⟨⟨[]⟩, .ofSize 1, .empty, .empty⟩ =
    .error (.recordOutOfBounds 0 0)
      ⟨⟨[]⟩, ⟨[.shared (.singleton 1)]⟩, .empty, .empty⟩ := rfl

theorem run_write (h : db.Sound size) (t : Nat) (record : RecordId) (value : Value) :
    (Stepwise.write t record value).run db = settled db (db.write t record value) := by
  simp only [Stepwise.write, Stepwise.replace, EStateM.run_bind, h.run_lock]
  rcases Nat.lt_or_ge record.toNat size with hlt | hge
  · rcases h.write hlt t value with ⟨hb, hwrite⟩ | ⟨old, hb, hv, hwrite⟩
    · rw [hwrite, lock_of_lt (h.lockSize ▸ hlt), if_neg hb]
      rfl
    · rw [hwrite, lock_of_lt (h.lockSize ▸ hlt), if_pos hb]
      simp only [settled_ok, EStateM.run_bind, run_part, Store.set_eq_ok_iff.2 ⟨hv, rfl⟩]
      rfl
  · rw [h.write_outside hge, h.lock_outside hge]
    rfl

theorem run_abort (h : db.Sound size) (t : Nat) :
    (Stepwise.abort t).run db = settled db (db.abort t) := by
  have hundo := run_undoAll (h.built.undoAll_chain t (h.storeSize ▸ h.fits))
  simp only [Stepwise.abort, EStateM.run_bind, EStateM.run_get, hundo, h.abort]
  rfl

/-- Part by part or at once, a request does the same, and if it fails it does nothing. -/
theorem run_perform (h : db.Sound size) (request : Request) :
    request.perform.run db = settled db (db.serve request) := by
  cases request with
  | lock t mode record => exact run_map_settled Answer.verdict (h.run_lock t mode record)
  | read t record => exact run_map_settled Answer.access (h.run_read t record)
  | write t record value => exact run_map_settled Answer.access (h.run_write t record value)
  | commit t => rfl
  | abort t => exact run_map_settled Answer.logged (h.run_abort t)

theorem serve_outside (h : db.Sound size) (hrecord : request.record? = some record)
    (hge : size ≤ record.toNat) : db.serve request = .error (.recordOutOfBounds record size) := by
  cases request with
  | lock t mode r =>
    cases hrecord
    rw [serve, h.lock_outside hge]
    rfl
  | read t r =>
    cases hrecord
    rw [serve, h.read_outside hge]
    rfl
  | write t r value =>
    cases hrecord
    rw [serve, h.write_outside hge]
    rfl
  | commit t => cases hrecord
  | abort t => cases hrecord

theorem exists_serve (h : db.Sound size)
    (hinside : ∀ record, request.record? = some record → record.toNat < size) :
    ∃ db' answer, db.serve request = .ok (db', answer) := by
  cases request with
  | lock t mode record =>
    rcases h.lock (hinside record rfl) t mode with ⟨-, hlock⟩ | ⟨-, hlock⟩
    · exact ⟨_, _, map_eq_ok.2 ⟨_, hlock, rfl⟩⟩
    · exact ⟨_, _, map_eq_ok.2 ⟨_, hlock, rfl⟩⟩
  | read t record =>
    rcases h.read (hinside record rfl) t with ⟨-, hread⟩ | ⟨v, -, -, hread⟩
    · exact ⟨_, _, map_eq_ok.2 ⟨_, hread, rfl⟩⟩
    · exact ⟨_, _, map_eq_ok.2 ⟨_, hread, rfl⟩⟩
  | write t record value =>
    rcases h.write (hinside record rfl) t value with ⟨-, hwrite⟩ | ⟨old, -, -, hwrite⟩
    · exact ⟨_, _, map_eq_ok.2 ⟨_, hwrite, rfl⟩⟩
    · exact ⟨_, _, map_eq_ok.2 ⟨_, hwrite, rfl⟩⟩
  | commit t => exact ⟨_, _, rfl⟩
  | abort t => exact ⟨_, _, map_eq_ok.2 ⟨_, h.abort t, rfl⟩⟩

theorem serve_eq_error_iff (h : db.Sound size) :
    db.serve request = .error e ↔
      ∃ record, request.record? = some record ∧ size ≤ record.toNat ∧
        e = .recordOutOfBounds record size := by
  constructor
  · intro he
    by_contra hnone
    have hinside : ∀ record, request.record? = some record → record.toNat < size := by
      intro record hrecord
      rcases Nat.lt_or_ge record.toNat size with hlt | hge
      · exact hlt
      · rw [h.serve_outside hrecord hge, Except.error.injEq] at he
        exact absurd ⟨record, hrecord, hge, he.symm⟩ hnone
    obtain ⟨db', answer, hok⟩ := h.exists_serve hinside
    rw [hok] at he
    cases he
  · rintro ⟨record, hrecord, hge, rfl⟩
    exact h.serve_outside hrecord hge

end Sound

theorem stateAfter_serve (db : Database) (request : Request) :
    stateAfter db (db.serve request) = db.after request := by
  cases request with
  | lock t mode record => exact stateAfter_map db Answer.verdict _
  | read t record => exact stateAfter_map db Answer.access _
  | write t record value => exact stateAfter_map db Answer.access _
  | commit t => rfl
  | abort t => exact stateAfter_map db Answer.logged _

theorem Sound.leftBy_eq (h : db.Sound size) (requests : List Request) :
    db.leftBy requests = db.afterAll requests := by
  unfold leftBy Database.afterAll
  induction requests generalizing db with
  | nil => rfl
  | cons request rest ih =>
    rw [List.foldl_cons, List.foldl_cons, h.run_perform, stateLeft_settled, stateAfter_serve]
    exact ih (h.of_effect (h.effect request))

end

end Database

/-! ## Transactions -/

namespace Transaction

def answerTo (t : Transaction) (result : Except Error (Database × Access)) :
    Except Error (Transaction × Database × Step) :=
  result.map fun (db, access) => ((t.answered access).1, db, (t.answered access).2)

section
variable {t : Transaction} {db : Database} {record : RecordId}

theorem advance_none (hp : t.pending? = none) : t.advance db = .ok (t, db, .idle) := by
  simp only [advance, hp]

theorem advance_read (hp : t.pending? = some (.read record)) :
    t.advance db = t.answerTo (db.read t.id record) := by
  simp only [advance, hp]
  cases db.read t.id record <;> rfl

theorem advance_write {value : Value} (hp : t.pending? = some (.write record value)) :
    t.advance db = t.answerTo (db.write t.id record value) := by
  simp only [advance, hp]
  cases db.write t.id record value <;> rfl

theorem advance_commit (hp : t.pending? = some .commit) :
    t.advance db = { t with outcome := some .committed }.answerTo
      (.ok ((db.commit t.id).1, .done (db.commit t.id).2)) := by
  simp only [advance, hp]
  rfl

end

end Transaction

namespace Stepwise

section
variable {db : Database}

theorem run_onDatabase {α : Type} {m : EStateM Error Database α}
    {result : Except Error (Database × α)} (h : m.run db = settled db result) (t : Transaction) :
    (onDatabase m).run (t, db) =
      settled (t, db) (result.map fun (new, answer) => ((t, new), answer)) := by
  simp only [EStateM.run, onDatabase] at h ⊢
  rw [h]
  cases result with
  | error e => rfl
  | ok pair => rfl

theorem run_count (t : Transaction) (db : Database) (access : Access) :
    (count access).run (t, db) = .ok (t.answered access).2 ((t.answered access).1, db) := by
  cases access <;> rfl

theorem run_counted {m : EStateM Error Database Access} {result : Except Error (Database × Access)}
    (h : m.run db = settled db result) (t : Transaction) :
    (onDatabase m >>= count).run (t, db) =
      settled (t, db) ((t.answerTo result).map fun (new, db, step) => ((new, db), step)) := by
  rw [EStateM.run_bind, run_onDatabase h]
  cases result with
  | error e => rfl
  | ok pair => exact run_count t pair.1 pair.2

end

end Stepwise

namespace Database

section
variable {db db' : Database} {size : Nat} {e : Error}

/-- Part by part or at once, a transaction does the same with its turn, and if that fails neither
the transaction nor the database has changed. -/
theorem Sound.run_advance (h : db.Sound size) (t : Transaction) :
    Stepwise.advance.run (t, db) =
      settled (t, db) ((t.advance db).map fun (new, db, step) => ((new, db), step)) := by
  simp only [Stepwise.advance, EStateM.run_bind, EStateM.run_get]
  cases hp : t.pending? with
  | none =>
    rw [Transaction.advance_none hp]
    rfl
  | some op =>
    cases op with
    | read record =>
      rw [Transaction.advance_read hp]
      exact Stepwise.run_counted (h.run_read t.id record) t
    | write record value =>
      rw [Transaction.advance_write hp]
      exact Stepwise.run_counted (h.run_write t.id record value) t
    | commit =>
      rw [Transaction.advance_commit hp]
      rfl

/-- A transaction fails only if its pending operation is about a record outside the store. -/
theorem Sound.advance_eq_error_iff (h : db.Sound size) {t : Transaction} :
    t.advance db = .error e ↔
      ∃ op record, t.pending? = some op ∧ op.record? = some record ∧ size ≤ record.toNat ∧
        e = .recordOutOfBounds record size := by
  cases hp : t.pending? with
  | none =>
    rw [Transaction.advance_none hp]
    simp
  | some op =>
    cases op with
    | read record =>
      have hserve : db.serve (.read t.id record) = .error e ↔ _ := h.serve_eq_error_iff
      rw [serve, map_eq_error] at hserve
      rw [Transaction.advance_read hp, Transaction.answerTo, map_eq_error, hserve]
      simp [Request.record?, Operation.record?]
    | write record value =>
      have hserve : db.serve (.write t.id record value) = .error e ↔ _ := h.serve_eq_error_iff
      rw [serve, map_eq_error] at hserve
      rw [Transaction.advance_write hp, Transaction.answerTo, map_eq_error, hserve]
      simp [Request.record?, Operation.record?]
    | commit =>
      rw [Transaction.advance_commit hp, Transaction.answerTo, map_eq_error]
      simp [Operation.record?]

/-! ## Any requests -/

/-- Nobody comes to wait for itself, since nobody is in its own way. -/
theorem Effect.noSelfWait (he : db.Effect db') (h : ∀ t, ¬ db.waits.hasEdge t t = true) (u : Nat) :
    ¬ db'.waits.hasEdge u u = true := by
  cases he with
  | none => exact h u
  | denied blocked =>
    intro hedge
    rcases WaitGraph.hasEdge_addEdges.1 hedge with hold | ⟨rfl, hmem⟩
    · exact h u hold
    · exact (Lock.mem_blockers.1 hmem).1 rfl
  | locked => exact h u
  | access => exact h u
  | commit t => exact fun hedge => h u (WaitGraph.hasEdge_clearFrom.1 hedge).2
  | abort t => exact fun hedge => h u (WaitGraph.hasEdge_clearFrom.1 hedge).2

theorem Sound.orderly (h : db.Sound size) (hwaits : ∀ t, ¬ db.waits.hasEdge t t = true) :
    db.Orderly size where
  storeSize := h.storeSize
  lockSize := h.lockSize
  apart := by
    intro holders hmem
    obtain ⟨lock, -, rfl⟩ := List.mem_map.1 hmem
    exact lock.apart_holders
  noSelfWait t := Bool.eq_false_iff.2 (hwaits t)
  inside := by
    intro entry hmem hkind
    obtain ⟨lsn, t, previous, e, rfl, hfits⟩ := h.built.tells h.fits entry hmem
    cases e with
    | write record old new => exact ⟨record, rfl, hfits _ rfl⟩
    | _ => cases hkind

theorem Sound.atomic (h : db.Sound size) : db.Atomic size where
  perform := h.run_perform
  fails request e db' := by
    rw [h.run_perform, settled_eq_error_iff, h.serve_eq_error_iff]
    constructor
    · rintro ⟨⟨record, hrecord, hge, rfl⟩, rfl⟩
      exact ⟨record, hrecord, hge, rfl, rfl⟩
    · rintro ⟨record, hrecord, hge, rfl, rfl⟩
      exact ⟨⟨record, hrecord, hge, rfl⟩, rfl⟩
  abort t := by
    rw [h.run_abort, h.abort]
    exact ⟨_, _, rfl⟩
  advance := h.run_advance
  advanceFails t e state := by
    rw [h.run_advance, settled_eq_error_iff, map_eq_error, h.advance_eq_error_iff]
    constructor
    · rintro ⟨⟨op, record, hp, hrecord, hge, rfl⟩, rfl⟩
      exact ⟨op, record, hp, hrecord, hge, rfl, rfl⟩
    · rintro ⟨op, record, hp, hrecord, hge, rfl, rfl⟩
      exact ⟨⟨op, record, hp, hrecord, hge, rfl⟩, rfl⟩

end

end Database

/-- **Requests are atomic.** Let any requests be made to a database, under any numbers and for any
records, each done part by part on what the one before left. The database is orderly, the same as if
each had been done at once, and its records are held as if their owners and sharers had been kept
apart. Whatever is asked of it next either succeeds or changes nothing. -/
theorem requests_atomic (store : Store) (requests : List Request) :
    (Database.ofStore store).leftBy requests = (Database.ofStore store).afterAll requests ∧
      heldAfter store.size requests = ((Database.ofStore store).leftBy requests).locks.holders ∧
      ((Database.ofStore store).leftBy requests).Orderly store.size ∧
      ((Database.ofStore store).leftBy requests).Atomic store.size := by
  have hstart : ∀ t, ¬ (Database.ofStore store).waits.hasEdge t t = true := fun t => by
    simp [Database.ofStore]
  obtain ⟨hsound, hwaits⟩ := (Database.Sound.ofStore store).afterAll hstart
    (fun db db' _ heffect h => heffect.noSelfWait h) requests
  rw [(Database.Sound.ofStore store).leftBy_eq requests]
  exact ⟨rfl, Database.heldAfter_eq store requests, hsound.orderly hwaits, hsound.atomic⟩

end TwoPhase
