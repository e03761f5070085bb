import TwoPhase.Operation

/-!
# Sets of transactions

A set is its members in strictly ascending order, so two sets with the same
members are equal and listing a set needs no sorting.
-/

namespace TwoPhase

def insertAscending (a : Nat) : List Nat → List Nat
  | [] => [a]
  | b :: rest =>
    if a < b then a :: b :: rest
    else if a = b then b :: rest
    else b :: insertAscending a rest

theorem mem_insertAscending {a x : Nat} {l : List Nat} :
    x ∈ insertAscending a l ↔ x = a ∨ x ∈ l := by
  induction l with
  | nil => simp [insertAscending]
  | cons b rest ih =>
    unfold insertAscending
    split
    · simp
    · split
      · next h => simp [h]
      · simp only [List.mem_cons, ih]
        constructor <;> (rintro (h | h | h) <;> simp [h])

theorem pairwise_insertAscending {a : Nat} {l : List Nat}
    (h : l.Pairwise (· < ·)) : (insertAscending a l).Pairwise (· < ·) := by
  induction l with
  | nil => simp [insertAscending]
  | cons b rest ih =>
    have hb := List.pairwise_cons.mp h
    unfold insertAscending
    split
    · next hab =>
      refine List.pairwise_cons.mpr ⟨fun x hx => ?_, h⟩
      rcases List.mem_cons.mp hx with rfl | hx
      · exact hab
      · exact Nat.lt_trans hab (hb.1 x hx)
    · split
      · exact h
      · refine List.pairwise_cons.mpr ⟨fun x hx => ?_, ih hb.2⟩
        rcases mem_insertAscending.mp hx with rfl | hx
        · omega
        · exact hb.1 x hx

structure IdSet where
  toList : List Nat
  ascending : toList.Pairwise (· < ·)
deriving DecidableEq, Repr

namespace IdSet

instance : Membership Nat IdSet := ⟨fun s a => a ∈ s.toList⟩

instance (a : Nat) (s : IdSet) : Decidable (a ∈ s) :=
  inferInstanceAs (Decidable (a ∈ s.toList))

def empty : IdSet := ⟨[], .nil⟩

instance : EmptyCollection IdSet := ⟨empty⟩

instance : Inhabited IdSet := ⟨∅⟩

def singleton (a : Nat) : IdSet := ⟨[a], by simp⟩

def isEmpty (s : IdSet) : Bool := s.toList.isEmpty

def insert (s : IdSet) (a : Nat) : IdSet :=
  ⟨insertAscending a s.toList, pairwise_insertAscending s.ascending⟩

def erase (s : IdSet) (a : Nat) : IdSet :=
  ⟨s.toList.filter (· ≠ a), s.ascending.filter _⟩

/-- The set of the members of a list, in any order and with any repetitions. -/
def ofList (l : List Nat) : IdSet := l.foldl insert ∅

end IdSet

end TwoPhase
