import TwoPhase.Operation

/-!
# Programs

A program is a list of operations whose last one is its only commit. The type
carries this, so whoever holds a `Program` need not check it again;
`Program.ofOperations` is the one way in for operations from outside.
-/

namespace TwoPhase

/-- The last operation is a commit, and no other one is. -/
def CommitsLast (ops : List Operation) : Prop :=
  ops.getLast? = some .commit ∧ .commit ∉ ops.dropLast

instance (ops : List Operation) : Decidable (CommitsLast ops) :=
  inferInstanceAs (Decidable (_ ∧ _))

structure Program where
  operations : List Operation
  commitsLast : CommitsLast operations
deriving DecidableEq

namespace Program

instance : Inhabited Program := ⟨⟨[.commit], by decide⟩⟩

theorem operations_ne_nil (p : Program) : p.operations ≠ [] := by
  intro h
  have hlast := p.commitsLast.1
  rw [h] at hlast
  cases hlast

/-- A list of operations as a program. A missing commit is noticed before an early one. -/
def ofOperations (ops : List Operation) : Except Error Program :=
  if last : ops.getLast? = some .commit then
    if only : .commit ∉ ops.dropLast then
      .ok ⟨ops, last, only⟩
    else
      .error (.operationAfterCommit (ops.idxOf .commit))
  else
    .error (.missingCommit ops.length)

def length (p : Program) : Nat := p.operations.length

def records (p : Program) : List RecordId := p.operations.filterMap Operation.record?

def maxRecord? (p : Program) : Option RecordId := p.records.max?

/-- The canonical text of a program: its operations joined by `;`. -/
def text (p : Program) : String := ";".intercalate (p.operations.map Operation.text)

end Program

end TwoPhase
