import TwoPhase.Proofs.Requests

/-!
# Owners and sharers kept apart

A `Lock` has an owner or sharers, and its type leaves no room for both. `Holders` has
room for both: an owner and a set of sharers, changed one by one. Whoever takes a record
for itself has to leave the sharers then, and nobody may come to share a record that has
an owner.

Under any requests the two agree: a record is held as its lock says
(`Database.heldAfter_eq`), so no record with an owner has sharers. One step of it is
`Lock.ask_holders`, where both give the same verdict.
-/

namespace TwoPhase

structure Holders where
  owner? : Option Nat
  sharers : IdSet
deriving DecidableEq, Repr

namespace Holders

def free : Holders := ⟨none, ∅⟩

/-- A record with an owner is shared by nobody. -/
def Apart (holders : Holders) : Prop := ∀ t, holders.owner? = some t → ∀ u, u ∉ holders.sharers

def ask (holders : Holders) (t : Nat) (mode : LockMode) : Holders × Verdict :=
  match holders.owner?, mode with
  | some owner, _ => (holders, if owner = t then .granted else .denied (.singleton owner))
  | none, .shared => ({ holders with sharers := holders.sharers.insert t }, .granted)
  | none, .exclusive =>
    let others := holders.sharers.erase t
    if others.isEmpty then
      ({ owner? := some t, sharers := holders.sharers.erase t }, .granted)
    else
      (holders, .denied others)

def release (holders : Holders) (t : Nat) : Holders where
  owner? := if holders.owner? = some t then none else holders.owner?
  sharers := holders.sharers.erase t

/-- Asks for record `i` of a table. There may be none. -/
def askFor (table : List Holders) (t : Nat) (mode : LockMode) (i : Nat) : List Holders :=
  table.modify i fun holders => (holders.ask t mode).1

end Holders

def Request.hold (table : List Holders) : Request → List Holders
  | .lock t mode record => Holders.askFor table t mode record.toNat
  | .read t record => Holders.askFor table t .shared record.toNat
  | .write t record _ => Holders.askFor table t .exclusive record.toNat
  | .commit t => table.map (·.release t)
  | .abort t => table.map (·.release t)

def heldAfter (size : Nat) (requests : List Request) : List Holders :=
  requests.foldl Request.hold (List.replicate size .free)

namespace Lock

def holders (lock : Lock) : Holders := ⟨lock.owner?, lock.sharers⟩

theorem apart_holders (lock : Lock) : lock.holders.Apart :=
  fun _ howner _ => sharers_of_owner howner

theorem ask_holders (lock : Lock) (t : Nat) (mode : LockMode) :
    lock.holders.ask t mode =
      if (lock.blockers t mode).isEmpty then ((lock.grant t mode).holders, .granted)
      else (lock.holders, .denied (lock.blockers t mode)) := by
  cases lock with
  | exclusive owner =>
    simp only [holders, owner?, Holders.ask, blockers]
    split <;> rfl
  | shared sharers =>
    cases mode with
    | shared => rfl
    | exclusive =>
      show (if (sharers.erase t).isEmpty then _ else _) = if (sharers.erase t).isEmpty then _ else _
      by_cases h : (sharers.erase t).isEmpty = true
      · -- `t` was the only one to share the record, and has left
        have hnone : sharers.erase t = ∅ :=
          IdSet.ext_mem fun a => iff_of_false (IdSet.isEmpty_iff.1 h a) (IdSet.notMem_empty a)
        rw [if_pos h, if_pos h]
        show ((⟨some t, sharers.erase t⟩ : Holders), Verdict.granted) = _
        rw [hnone]
        rfl
      · rw [if_neg h, if_neg h]
        rfl

theorem release_holders (lock : Lock) (t : Nat) :
    lock.holders.release t = (lock.release t).holders := by
  cases lock with
  | shared sharers => rfl
  | exclusive owner =>
    simp only [release, holders, owner?, Holders.release, Option.some.injEq]
    split <;> rfl

end Lock

namespace LockTable

def holders (table : LockTable) : List Holders := table.locks.map Lock.holders

theorem getElem?_holders {table : LockTable} {i : Nat} (h : i < table.size) :
    table.holders[i]? = some (table.lockOf i).holders := by
  unfold size at h
  simp only [holders, lockOf, List.getElem?_map, List.getElem?_eq_getElem h, Option.map_some,
    Option.getD_some]

theorem askFor_of_lt {table : LockTable} {i : Nat} (h : i < table.size) (t : Nat)
    (mode : LockMode) :
    Holders.askFor table.holders t mode i =
      if ((table.lockOf i).blockers t mode).isEmpty then (table.take t mode i).holders
      else table.holders := by
  have hset : Holders.askFor table.holders t mode i =
      table.holders.set i ((table.lockOf i).holders.ask t mode).1 := by
    rw [Holders.askFor, List.modify_eq_set_getElem?, getElem?_holders h]
    rfl
  rw [hset, Lock.ask_holders]
  split
  · exact List.map_set.symm
  · obtain ⟨hi, hsame⟩ := List.getElem?_eq_some_iff.1 (getElem?_holders h)
    show table.holders.set i (table.lockOf i).holders = table.holders
    rw [← hsame, List.set_getElem_self]

theorem askFor_of_ge {table : LockTable} {i : Nat} (h : table.size ≤ i) (t : Nat)
    (mode : LockMode) : Holders.askFor table.holders t mode i = table.holders := by
  refine List.modify_eq_self ?_
  rw [holders, List.length_map]
  exact h

theorem holders_release (table : LockTable) (t : Nat) :
    table.holders.map (·.release t) = (table.release t).holders := by
  unfold holders release
  rw [List.map_map, List.map_map]
  exact List.map_congr_left fun lock _ => lock.release_holders t

theorem holders_ofSize (n : Nat) : (ofSize n).holders = List.replicate n .free :=
  List.map_replicate

end LockTable

namespace Database

section
variable {db : Database} {size t : Nat} {mode : LockMode} {record : RecordId}

theorem Sound.askFor_outside (h : db.Sound size) (hge : size ≤ record.toNat) :
    Holders.askFor db.locks.holders t mode record.toNat = db.locks.holders :=
  LockTable.askFor_of_ge (h.lockSize.le.trans hge) t mode

theorem Sound.askFor_inside (h : db.Sound size) (hlt : record.toNat < size) :
    Holders.askFor db.locks.holders t mode record.toNat =
      if (db.blockers t mode record).isEmpty then
        (db.locks.take t mode record.toNat).holders
      else db.locks.holders :=
  LockTable.askFor_of_lt (h.lockSize ▸ hlt) t mode

/-- A request does to the holders of a record what it does to its lock. -/
theorem Sound.hold_holders (h : db.Sound size) (request : Request) :
    request.hold db.locks.holders = (db.after request).locks.holders := by
  cases request with
  | lock t mode record =>
    rcases Nat.lt_or_ge record.toNat size with hlt | hge
    · rcases h.lock hlt t mode with ⟨hb, hl⟩ | ⟨hb, hl⟩
      · rw [Request.hold, h.askFor_inside hlt, if_neg hb, after, hl]
        rfl
      · rw [Request.hold, h.askFor_inside hlt, if_pos hb, after, hl]
        rfl
    · rw [Request.hold, h.askFor_outside hge, after, h.lock_outside hge]
      rfl
  | read t record =>
    rcases Nat.lt_or_ge record.toNat size with hlt | hge
    · rcases h.read hlt t with ⟨hb, hr⟩ | ⟨v, hb, -, hr⟩
      · rw [Request.hold, h.askFor_inside hlt, if_neg hb, after, hr]
        rfl
      · rw [Request.hold, h.askFor_inside hlt, if_pos hb, after, hr]
        rfl
    · rw [Request.hold, h.askFor_outside hge, after, h.read_outside hge]
      rfl
  | write t record value =>
    rcases Nat.lt_or_ge record.toNat size with hlt | hge
    · rcases h.write hlt t value with ⟨hb, hw⟩ | ⟨old, hb, -, hw⟩
      · rw [Request.hold, h.askFor_inside hlt, if_neg hb, after, hw]
        rfl
      · rw [Request.hold, h.askFor_inside hlt, if_pos hb, after, hw]
        rfl
    · rw [Request.hold, h.askFor_outside hge, after, h.write_outside hge]
      rfl
  | commit t => exact LockTable.holders_release db.locks t
  | abort t =>
    rw [after, h.abort]
    exact LockTable.holders_release db.locks t

theorem Sound.foldl_hold (h : db.Sound size) (requests : List Request) :
    requests.foldl Request.hold db.locks.holders = (db.afterAll requests).locks.holders := by
  unfold Database.afterAll
  induction requests generalizing db with
  | nil => rfl
  | cons request rest ih =>
    rw [List.foldl_cons, List.foldl_cons, h.hold_holders]
    exact ih (h.of_effect (h.effect request))

theorem heldAfter_eq (store : Store) (requests : List Request) :
    heldAfter store.size requests = ((ofStore store).afterAll requests).locks.holders := by
  rw [heldAfter, ← LockTable.holders_ofSize]
  exact (Sound.ofStore store).foldl_hold requests

end

end Database

end TwoPhase
