import TwoPhase.Proofs.Requests

/-!
# The history explains the store

Read from its first entry on, a history says what became of a store: a write installs
its new value, and an abort reinstalls the old values of all that its transaction ever
wrote, newest first, also of what was written before an earlier end under the same
number. `interpret` reads it so, entry by entry, without locks, links or chains.

* `interpret_abort`: what an abort reinstalls is what following the chain takes back.
* `Explained`: the store is what its history makes of the first store, and every entry
  tells the value that was there when it was made.
* `history_explains_store`: this holds after any requests to a database.
-/

namespace TwoPhase

/-! ## Reading a history -/

namespace Entry

def install (s : Store) (entry : Entry) : Store :=
  match entry.record, entry.new with
  | some record, some value => s.put record value
  | _, _ => s

def reinstall (s : Store) (entry : Entry) : Store :=
  match entry.record, entry.old with
  | some record, some value => s.put record value
  | _, _ => s

/-- What an entry makes of a store, given the entries before it. -/
def interpret (earlier : List Entry) (s : Store) (entry : Entry) : Store :=
  match entry.kind with
  | .write => install s entry
  | .abort =>
    let writes := earlier.filter fun e => e.kind = .write ∧ e.transaction = entry.transaction
    writes.reverse.foldl reinstall s
  | _ => s

/-- A read tells the value that is there, a write the one it replaces. -/
def Sees (s : Store) (entry : Entry) : Prop :=
  match entry.kind with
  | .read => ∃ record value, entry.record = some record ∧ entry.new = some value ∧
      s.value? record.toNat = some value
  | .write => ∃ record value, entry.record = some record ∧ entry.old = some value ∧
      s.value? record.toNat = some value
  | _ => True

end Entry

def interpretFrom (earlier : List Entry) : List Entry → Store → Store
  | [], s => s
  | entry :: rest, s => interpretFrom (earlier ++ [entry]) rest (entry.interpret earlier s)

def interpret (entries : List Entry) (s : Store) : Store := interpretFrom [] entries s

theorem interpretFrom_concat (earlier entries : List Entry) (entry : Entry) (s : Store) :
    interpretFrom earlier (entries ++ [entry]) s =
      entry.interpret (earlier ++ entries) (interpretFrom earlier entries s) := by
  induction entries generalizing earlier s with
  | nil => rw [List.append_nil]; rfl
  | cons first rest ih =>
    rw [List.cons_append, interpretFrom, ih, List.append_assoc]
    rfl

theorem interpret_concat (entries : List Entry) (entry : Entry) (s : Store) :
    interpret (entries ++ [entry]) s = entry.interpret entries (interpret entries s) :=
  interpretFrom_concat [] entries entry s

/-! ## Entries and events -/

section
variable {lsn t : Nat} {previous : Option Nat} {e : Event} {s : Store}

theorem Entry.sees_ofEvent (h : e.Sees s) : (Entry.ofEvent lsn t previous e).Sees s := by
  cases e with
  | read record value => exact ⟨record, value, rfl, rfl, h⟩
  | write record old new => exact ⟨record, old, rfl, rfl, h⟩
  | _ => trivial

/-- All but an abort do what they say. -/
theorem Entry.interpret_ofEvent (earlier : List Entry) (he : e ≠ .abort) :
    (Entry.ofEvent lsn t previous e).interpret earlier s = e.redo s := by
  cases e with
  | abort => exact absurd rfl he
  | _ => rfl

/-- Old values are reinstalled in the order in which events are undone. -/
theorem History.Built.foldl_reinstall {h : History} (hb : h.Built) (t : Nat) (s : Store) :
    (h.entries.filter fun e => e.kind = .write ∧ e.transaction = t).reverse.foldl
      Entry.reinstall s = undoAll (h.eventsOf t) s := by
  induction hb generalizing s with
  | empty => rfl
  | @append h u e _ ih =>
    rw [History.eventsOf_append]
    simp only [History.append, List.filter_append, List.reverse_append, List.foldl_append, ih]
    by_cases hu : u = t
    · rw [if_pos hu, undoAll_append]
      cases e with
      | write record old new => simp [Entry.ofEvent, hu, Entry.reinstall, undoAll, Event.undo]
      | _ => simp [Entry.ofEvent, undoAll, Event.undo]
    · rw [if_neg hu, List.append_nil]
      simp [hu]

theorem History.Built.interpret_abort {h : History} (hb : h.Built) :
    (Entry.ofEvent lsn t previous .abort).interpret h.entries s = undoAll (h.eventsOf t) s :=
  hb.foldl_reinstall t s

end

/-! ## Databases -/

/-- The store is what the history makes of the first one, and every entry tells the value that was
there when it was made. -/
structure Explained (store : Store) (db : Database) : Prop where
  store_eq : db.store = interpret db.history.entries store
  sees : ∀ (i : Nat) (entry : Entry), db.history.entries[i]? = some entry →
    entry.Sees (interpret (db.history.entries.take i) store)

section
variable {store : Store} {db db' : Database} {t : Nat} {e : Event}

theorem Explained.append (h : Explained store db) (hsees : e.Sees db.store)
    (hhist : db'.history = db.history.append t e)
    (hstore : db'.store =
      (Entry.ofEvent db.history.length t (db.history.last? t) e).interpret db.history.entries
        db.store) : Explained store db' := by
  constructor
  case store_eq =>
    rw [hhist, hstore, h.store_eq, History.append, interpret_concat]
  case sees =>
    intro i entry hget
    rw [hhist] at hget ⊢
    rcases History.get?_append_eq_some hget with ⟨rfl, rfl⟩ | ⟨hlt, hold⟩
    · have htake : (db.history.append t e).entries.take db.history.length = db.history.entries :=
        List.take_left
      rw [htake, ← h.store_eq]
      exact Entry.sees_ofEvent hsees
    · have htake : (db.history.append t e).entries.take i = db.history.entries.take i :=
        List.take_append_of_le_length (Nat.le_of_lt hlt)
      rw [htake]
      exact h.sees i entry hold

theorem Explained.effect (h : Explained store db) (hb : db.history.Built)
    (heffect : db.Effect db') : Explained store db' := by
  cases heffect with
  | none => exact h
  | denied => exact ⟨h.store_eq, h.sees⟩
  | locked => exact ⟨h.store_eq, h.sees⟩
  | access inside request free matched sees =>
    have hne := Operation.ne_abort_of_matches matched
    exact h.append sees rfl (Entry.interpret_ofEvent _ hne).symm
  | commit t => exact h.append (e := .commit) trivial rfl rfl
  | abort t => exact h.append (e := .abort) trivial rfl hb.interpret_abort.symm

/-- **The history explains the store.** After any requests to a database, under any numbers and for
any records, the store is what the history makes of the first store, and every entry tells the value
that was there when it was made. An abort never fails half way. -/
theorem history_explains_store (store : Store) (requests : List Request) :
    Explained store ((Database.ofStore store).afterAll requests) ∧
      ∀ t, ∃ db lsn, ((Database.ofStore store).afterAll requests).abort t = .ok (db, lsn) := by
  have hstart : Explained store (Database.ofStore store) := ⟨rfl, fun i entry hget => by cases hget⟩
  obtain ⟨hsound, hexplained⟩ := (Database.Sound.ofStore store).afterAll hstart
    (fun db db' hs heffect h => h.effect hs.built heffect) requests
  exact ⟨hexplained, fun t => ⟨_, _, hsound.abort t⟩⟩

/-- T1 is used again after its commit: the abort goes back to before the first write. -/
example : ((Database.ofStore ⟨[5, 6]⟩).afterAll
    [.write 1 0 7, .commit 1, .write 1 0 8, .read 2 0, .write 2 9 1, .abort 1]).store =
      ⟨[5, 6]⟩ := by decide

end

end TwoPhase
