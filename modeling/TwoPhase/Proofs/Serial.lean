import Mathlib.Data.List.Forall2
import TwoPhase.Program
import TwoPhase.Store
import TwoPhase.History.Entry

/-!
# Events on a store, and serial execution

An event carries the values its transaction saw. `Event.Sees s e` says that they
are the values of `s`; `redo` and `undo` install the new and the old value of a
write. `performPrograms` is the serial execution that everything else is compared
with: whole programs one after the other on a store, with the events of each.

* `value?_undoAll`: taking back events in reverse restores what they saw.
* `seesAll_congr`: events see the same on stores that agree where they touch.
* `performAll_eq_ok_iff`: operations give the events that match them and see the
  store, and leave the store these events lead to.
-/

namespace TwoPhase

theorem bind_eq_ok {ε α β : Type} {x : Except ε α} {f : α → Except ε β} {b : β} :
    (x >>= f) = .ok b ↔ ∃ a, x = .ok a ∧ f a = .ok b := by
  cases x with
  | error e => simp [bind, Except.bind]
  | ok a => simp [bind, Except.bind]

theorem bind_eq_error {ε α β : Type} {x : Except ε α} {f : α → Except ε β} {e : ε} :
    (x >>= f) = .error e ↔ x = .error e ∨ ∃ a, x = .ok a ∧ f a = .error e := by
  cases x with
  | error e' => simp [bind, Except.bind]
  | ok a => simp [bind, Except.bind]

theorem map_eq_ok {ε α β : Type} {x : Except ε α} {f : α → β} {b : β} :
    x.map f = .ok b ↔ ∃ a, x = .ok a ∧ f a = b := by
  cases x with
  | error e => simp [Except.map]
  | ok a => simp [Except.map]

theorem map_eq_error {ε α β : Type} {x : Except ε α} {f : α → β} {e : ε} :
    x.map f = .error e ↔ x = .error e := by
  cases x with
  | error e' => simp [Except.map]
  | ok a => simp [Except.map]

theorem mapError_eq_ok {ε ε' α : Type} {x : Except ε α} {f : ε → ε'} {a : α} :
    x.mapError f = .ok a ↔ x = .ok a := by
  cases x with
  | error e => simp [Except.mapError]
  | ok b => simp [Except.mapError]

theorem mapError_eq_error {ε ε' α : Type} {x : Except ε α} {f : ε → ε'} {e : ε'} :
    x.mapError f = .error e ↔ ∃ e₀, x = .error e₀ ∧ e = f e₀ := by
  cases x with
  | error e₀ => simp [Except.mapError, eq_comm]
  | ok a => simp [Except.mapError]

/-! ## The values of a store -/

namespace Store

def value? (s : Store) (i : Nat) : Option Value := s.values[i]?

/-- The store with `v` in a record; nothing changes if there is no such record. -/
def put (s : Store) (record : RecordId) (v : Value) : Store := ⟨s.values.set record.toNat v⟩

theorem ext_value? {s s' : Store} (h : ∀ i, s.value? i = s'.value? i) : s = s' := by
  cases s
  cases s'
  exact congrArg Store.mk (List.ext_getElem? h)

theorem exists_value? {s : Store} {i : Nat} (h : i < s.size) : ∃ v, s.value? i = some v :=
  ⟨_, List.getElem?_eq_getElem h⟩

theorem lt_size_of_value? {s : Store} {i : Nat} {v : Value} (h : s.value? i = some v) :
    i < s.size := (List.getElem?_eq_some_iff.1 h).1

@[simp] theorem size_put (s : Store) (record : RecordId) (v : Value) :
    (s.put record v).size = s.size := by simp [put, size]

theorem value?_put (s : Store) (record : RecordId) (v : Value) (i : Nat) :
    (s.put record v).value? i =
      if record.toNat = i then (if i < s.size then some v else none) else s.value? i := by
  unfold put value? size
  rw [List.getElem?_set]
  split
  · next h => rw [h]
  · rfl

theorem get_eq_ok_iff {s : Store} {record : RecordId} {v : Value} :
    s.get record = .ok v ↔ s.value? record.toNat = some v := by
  unfold get value?
  cases s.values[record.toNat]? <;> simp

theorem set_eq_ok_iff {s s' : Store} {record : RecordId} {v old : Value} :
    s.set record v = .ok (s', old) ↔ s.value? record.toNat = some old ∧ s' = s.put record v := by
  unfold set value? put
  cases s.values[record.toNat]? with
  | none => simp
  | some w =>
    simp only [Except.ok.injEq, Prod.mk.injEq, Option.some.injEq]
    exact ⟨fun ⟨h1, h2⟩ => ⟨h2, h1.symm⟩, fun ⟨h1, h2⟩ => ⟨h2.symm, h1⟩⟩

end Store

/-! ## Events -/

namespace Event

def Touches (i : Nat) : Event → Prop
  | read record _ => record.toNat = i
  | write record _ _ => record.toNat = i
  | commit => False
  | abort => False

def Writes (i : Nat) : Event → Prop
  | write record _ _ => record.toNat = i
  | _ => False

def Sees (s : Store) : Event → Prop
  | read record value => s.value? record.toNat = some value
  | write record old _ => s.value? record.toNat = some old
  | _ => True

def redo (s : Store) : Event → Store
  | write record _ new => s.put record new
  | _ => s

def undo (s : Store) : Event → Store
  | write record old _ => s.put record old
  | _ => s

theorem Writes.touches {i : Nat} {e : Event} (h : e.Writes i) : e.Touches i := by
  cases e with
  | write record old new => exact h
  | _ => cases h

@[simp] theorem size_redo (s : Store) (e : Event) : (e.redo s).size = s.size := by
  cases e <;> simp [redo]

@[simp] theorem size_undo (s : Store) (e : Event) : (e.undo s).size = s.size := by
  cases e <;> simp [undo]

theorem value?_redo_of_not_writes {s : Store} {e : Event} {i : Nat} (h : ¬ e.Writes i) :
    (e.redo s).value? i = s.value? i := by
  cases e with
  | write record old new =>
    rw [redo, Store.value?_put]
    exact if_neg h
  | _ => rfl

theorem value?_undo_of_not_writes {s : Store} {e : Event} {i : Nat} (h : ¬ e.Writes i) :
    (e.undo s).value? i = s.value? i := by
  cases e with
  | write record old new =>
    rw [undo, Store.value?_put]
    exact if_neg h
  | _ => rfl

/-- What a write leaves in its record does not depend on what was there. -/
theorem value?_redo_congr {s s' : Store} {e : Event} {i : Nat} (hs : s.size = s'.size)
    (h : e.Writes i ∨ s.value? i = s'.value? i) : (e.redo s).value? i = (e.redo s').value? i := by
  cases e with
  | write record old new =>
    simp only [redo, Store.value?_put, hs]
    split
    · rfl
    · next hne => exact h.resolve_left hne
  | _ => exact h.resolve_left id

end Event

def Writes (i : Nat) (events : List Event) : Prop := ∃ e ∈ events, e.Writes i

def Touches (i : Nat) (events : List Event) : Prop := ∃ e ∈ events, e.Touches i

theorem Writes.touches {i : Nat} {events : List Event} (h : Writes i events) :
    Touches i events :=
  let ⟨e, he, hw⟩ := h; ⟨e, he, hw.touches⟩

@[simp] theorem writes_nil (i : Nat) : ¬ Writes i [] := fun ⟨_, h, _⟩ => List.not_mem_nil h

@[simp] theorem writes_cons {i : Nat} {e : Event} {events : List Event} :
    Writes i (e :: events) ↔ e.Writes i ∨ Writes i events := by simp [Writes]

@[simp] theorem touches_cons {i : Nat} {e : Event} {events : List Event} :
    Touches i (e :: events) ↔ e.Touches i ∨ Touches i events := by simp [Touches]

@[simp] theorem writes_append {i : Nat} {events later : List Event} :
    Writes i (events ++ later) ↔ Writes i events ∨ Writes i later := by
  simp [Writes, or_and_right, exists_or]

def redoAll : List Event → Store → Store
  | [], s => s
  | e :: rest, s => redoAll rest (e.redo s)

/-- The store before some events, oldest first: the newest is taken back first. -/
def undoAll : List Event → Store → Store
  | [], s => s
  | e :: rest, s => e.undo (undoAll rest s)

/-- Each event sees the store its predecessors leave. -/
def SeesAll : Store → List Event → Prop
  | _, [] => True
  | s, e :: rest => e.Sees s ∧ SeesAll (e.redo s) rest

@[simp] theorem size_redoAll (events : List Event) (s : Store) :
    (redoAll events s).size = s.size := by
  induction events generalizing s with
  | nil => rfl
  | cons e rest ih => rw [redoAll, ih, Event.size_redo]

@[simp] theorem size_undoAll (events : List Event) (s : Store) :
    (undoAll events s).size = s.size := by
  induction events with
  | nil => rfl
  | cons e rest ih => rw [undoAll, Event.size_undo, ih]

theorem redoAll_append (events later : List Event) (s : Store) :
    redoAll (events ++ later) s = redoAll later (redoAll events s) := by
  induction events generalizing s with
  | nil => rfl
  | cons e rest ih => exact ih (e.redo s)

theorem undoAll_append (events later : List Event) (s : Store) :
    undoAll (events ++ later) s = undoAll events (undoAll later s) := by
  induction events with
  | nil => rfl
  | cons e rest ih => rw [List.cons_append, undoAll, ih, undoAll]

theorem seesAll_append {events later : List Event} {s : Store} :
    SeesAll s (events ++ later) ↔ SeesAll s events ∧ SeesAll (redoAll events s) later := by
  induction events generalizing s with
  | nil => simp [SeesAll, redoAll]
  | cons e rest ih => simp [SeesAll, redoAll, ih, and_assoc]

theorem value?_redoAll_of_not_writes {events : List Event} {s : Store} {i : Nat}
    (h : ¬ Writes i events) : (redoAll events s).value? i = s.value? i := by
  induction events generalizing s with
  | nil => rfl
  | cons e rest ih =>
    obtain ⟨he, hrest⟩ := not_or.1 (mt writes_cons.2 h)
    rw [redoAll, ih hrest, Event.value?_redo_of_not_writes he]

theorem value?_undoAll_of_not_writes {events : List Event} {s : Store} {i : Nat}
    (h : ¬ Writes i events) : (undoAll events s).value? i = s.value? i := by
  induction events with
  | nil => rfl
  | cons e rest ih =>
    obtain ⟨he, hrest⟩ := not_or.1 (mt writes_cons.2 h)
    rw [undoAll, Event.value?_undo_of_not_writes he, ih hrest]

/-- What events leave in a record they write does not depend on the store they start from. -/
theorem value?_redoAll_congr {events : List Event} {s s' : Store} {i : Nat}
    (hs : s.size = s'.size) (h : Writes i events ∨ s.value? i = s'.value? i) :
    (redoAll events s).value? i = (redoAll events s').value? i := by
  induction events generalizing s s' with
  | nil => exact h.resolve_left (writes_nil i)
  | cons e rest ih =>
    refine ih (by simpa using hs) ?_
    rw [writes_cons, or_assoc] at h
    rcases h with he | hrest | hv
    · exact Or.inr (Event.value?_redo_congr hs (Or.inl he))
    · exact Or.inl hrest
    · exact Or.inr (Event.value?_redo_congr hs (Or.inr hv))

/-- Events see the same on stores that agree on the records they touch. -/
theorem seesAll_congr {events : List Event} {s s' : Store} (hs : s.size = s'.size)
    (h : ∀ i, Touches i events → s.value? i = s'.value? i) (hsees : SeesAll s events) :
    SeesAll s' events := by
  induction events generalizing s s' with
  | nil => trivial
  | cons e rest ih =>
    obtain ⟨he, hrest⟩ := hsees
    refine ⟨?_, ih (by simpa using hs) (fun i hi => ?_) hrest⟩
    · cases e with
      | read record value => exact (h _ (touches_cons.2 (Or.inl rfl))).symm.trans he
      | write record old new => exact (h _ (touches_cons.2 (Or.inl rfl))).symm.trans he
      | _ => trivial
    · exact Event.value?_redo_congr hs (Or.inr (h i (touches_cons.2 (Or.inr hi))))

/-- Taking events back restores, in the records they wrote, the store they started from. -/
theorem value?_undoAll {events : List Event} {s₀ s : Store} (hs : s.size = s₀.size)
    (h : SeesAll s₀ events) {i : Nat} (hw : Writes i events) :
    (undoAll events s).value? i = s₀.value? i := by
  induction events generalizing s₀ with
  | nil => exact absurd hw (writes_nil i)
  | cons e rest ih =>
    obtain ⟨he, hrest⟩ := h
    rw [undoAll]
    by_cases hi : e.Writes i
    · -- the oldest write of `i` decides
      cases e with
      | write record old new =>
        subst hi
        have hlt := Store.lt_size_of_value? he
        rw [Event.undo, Store.value?_put, if_pos rfl, size_undoAll, if_pos (by omega)]
        exact he.symm
      | _ => cases hi
    · rw [Event.value?_undo_of_not_writes hi,
        ih (by simpa using hs) hrest ((writes_cons.1 hw).resolve_left hi)]
      exact Event.value?_redo_of_not_writes hi

/-! ## Serial execution -/

namespace Operation

/-- An operation that has the store to itself: the store afterwards and what happened. -/
def perform (store : Store) : Operation → Except Error (Store × Event)
  | read record => do
    let value ← store.get record
    return (store, .read record value)
  | write record value => do
    let (store, old) ← store.set record value
    return (store, .write record old value)
  | commit => return (store, .commit)

/-- The event is one of this operation, whatever it saw. -/
def Matches : Operation → Event → Prop
  | read record, .read record' _ => record = record'
  | write record value, .write record' _ new => record = record' ∧ value = new
  | commit, .commit => True
  | _, _ => False

theorem perform_eq_ok_iff {op : Operation} {s s' : Store} {e : Event} :
    op.perform s = .ok (s', e) ↔ op.Matches e ∧ e.Sees s ∧ s' = e.redo s := by
  cases op with
  | read record =>
    simp only [perform, bind_eq_ok, Store.get_eq_ok_iff, pure, Except.pure, Except.ok.injEq,
      Prod.mk.injEq]
    constructor
    · rintro ⟨v, hv, rfl, rfl⟩
      exact ⟨rfl, hv, rfl⟩
    · rintro ⟨hm, hsees, rfl⟩
      cases e with
      | read record' v =>
        cases hm
        exact ⟨v, hsees, rfl, rfl⟩
      | _ => cases hm
  | write record value =>
    simp only [perform, bind_eq_ok, pure, Except.pure, Except.ok.injEq, Prod.mk.injEq]
    constructor
    · rintro ⟨⟨s₁, old⟩, hset, rfl, rfl⟩
      obtain ⟨hv, rfl⟩ := Store.set_eq_ok_iff.1 hset
      exact ⟨⟨rfl, rfl⟩, hv, rfl⟩
    · rintro ⟨hm, hsees, rfl⟩
      cases e with
      | write record' old new =>
        obtain ⟨rfl, rfl⟩ := hm
        exact ⟨(s.put record value, old), Store.set_eq_ok_iff.2 ⟨hsees, rfl⟩, rfl, rfl⟩
      | _ => cases hm
  | commit =>
    simp only [perform, pure, Except.pure, Except.ok.injEq, Prod.mk.injEq]
    constructor
    · rintro ⟨rfl, rfl⟩
      exact ⟨trivial, trivial, rfl⟩
    · rintro ⟨hm, -, rfl⟩
      cases e with
      | commit => exact ⟨rfl, rfl⟩
      | _ => cases hm

end Operation

def performAll : List Operation → Store → Except Error (Store × List Event)
  | [], store => return (store, [])
  | op :: rest, store => do
    let (store, event) ← op.perform store
    let (store, events) ← performAll rest store
    return (store, event :: events)

def performPrograms : List Program → Store → Except Error (Store × List (List Event))
  | [], store => return (store, [])
  | program :: rest, store => do
    let (store, events) ← performAll program.operations store
    let (store, others) ← performPrograms rest store
    return (store, events :: others)

theorem performAll_eq_ok_iff {ops : List Operation} {s s' : Store} {events : List Event} :
    performAll ops s = .ok (s', events) ↔
      List.Forall₂ Operation.Matches ops events ∧ SeesAll s events ∧ s' = redoAll events s := by
  induction ops generalizing s events with
  | nil =>
    simp only [performAll, pure, Except.pure, Except.ok.injEq, Prod.mk.injEq]
    constructor
    · rintro ⟨rfl, rfl⟩
      exact ⟨.nil, trivial, rfl⟩
    · rintro ⟨hm, -, rfl⟩
      cases hm
      exact ⟨rfl, rfl⟩
  | cons op rest ih =>
    simp only [performAll, bind_eq_ok, pure, Except.pure, Except.ok.injEq, Prod.mk.injEq]
    constructor
    · rintro ⟨⟨s₁, e⟩, hop, ⟨s₂, later⟩, hrest, rfl, rfl⟩
      obtain ⟨hm, hsees, rfl⟩ := Operation.perform_eq_ok_iff.1 hop
      obtain ⟨hms, hall, rfl⟩ := ih.1 hrest
      exact ⟨.cons hm hms, ⟨hsees, hall⟩, rfl⟩
    · rintro ⟨hm, hsees, rfl⟩
      cases hm with
      | @cons _ e _ later hm hms =>
        exact ⟨(e.redo s, e), Operation.perform_eq_ok_iff.2 ⟨hm, hsees.1, rfl⟩,
          (redoAll later (e.redo s), later), ih.2 ⟨hms, hsees.2, rfl⟩, rfl, rfl⟩

theorem performPrograms_concat {programs : List Program} {program : Program} {s s₁ s₂ : Store}
    {events : List Event} {others : List (List Event)}
    (h : performPrograms programs s = .ok (s₁, others))
    (hlast : performAll program.operations s₁ = .ok (s₂, events)) :
    performPrograms (programs ++ [program]) s = .ok (s₂, others ++ [events]) := by
  induction programs generalizing s others with
  | nil =>
    simp only [performPrograms, pure, Except.pure, Except.ok.injEq, Prod.mk.injEq] at h
    obtain ⟨rfl, rfl⟩ := h
    simp only [List.nil_append, performPrograms, hlast, bind, Except.bind, pure, Except.pure]
  | cons first rest ih =>
    simp only [performPrograms, bind_eq_ok, pure, Except.pure, Except.ok.injEq,
      Prod.mk.injEq] at h
    obtain ⟨⟨s₀, e⟩, hfirst, ⟨s₃, es⟩, hrest, rfl, rfl⟩ := h
    simp only [List.cons_append, performPrograms, hfirst, ih hrest, bind, Except.bind, pure,
      Except.pure]

end TwoPhase
