import TwoPhase.Program
import TwoPhase.Text.Operation

/-!
# The grammar of workloads

What may be written, said without any reader. Each relation holds of a text and
what the text stands for:

* `Natural`, `Integer`: numbers without leading zero, the second with an optional
  sign if not 0. A record or a value is written by the number it is, so its range
  limits what may be written.
* `OperationForm`, `OperationsForm`: one operation, and operations separated by
  `;`, with blanks between any two tokens.
* `CommentForm`, `ProgramForm`: lines without their line ending.
* `WorkloadForm`: lines one after the other, and blanks at the end.
-/

namespace TwoPhase.Text

def Blanks (s : List Char) : Prop := ∀ c ∈ s, c = ' ' ∨ c = '\t'

inductive LineEnd : List Char → Prop where
  | newline : LineEnd ['\n']
  | return_newline : LineEnd ['\r', '\n']

/-! ## Numbers -/

/-- Digits, the first of which is not 0. -/
structure Positive (s : List Char) (n : Nat) : Prop where
  nonempty : s ≠ []
  digits : ∀ c ∈ s, c.isDigit = true
  leading : s.head? ≠ some '0'
  value : Nat.ofDigitChars 10 s 0 = n

inductive Natural : List Char → Nat → Prop where
  | zero : Natural ['0'] 0
  | positive {s : List Char} {n : Nat} : Positive s n → Natural s n

inductive Integer : List Char → Int → Prop where
  | zero : Integer ['0'] 0
  | unsigned {s : List Char} {n : Nat} : Positive s n → Integer s n
  | plus {s : List Char} {n : Nat} : Positive s n → Integer (['+'] ++ s) n
  | minus {s : List Char} {n : Nat} : Positive s n → Integer (['-'] ++ s) (-n)

/-! ## Lines -/

inductive OperationForm : List Char → Operation → Prop where
  | read {a b c number : List Char} {record : RecordId} :
      Blanks a → Blanks b → Natural number record.toNat → Blanks c →
      OperationForm (['R'] ++ a ++ ['('] ++ b ++ number ++ c ++ [')']) (.read record)
  | write {a b c d e number signed : List Char} {record : RecordId} {value : Value} :
      Blanks a → Blanks b → Natural number record.toNat → Blanks c →
      Blanks d → Integer signed value.toInt → Blanks e →
      OperationForm (['W'] ++ a ++ ['('] ++ b ++ number ++ c ++ [','] ++ d ++ signed ++ e ++ [')'])
        (.write record value)
  | commit : OperationForm ['C'] .commit

/-- One or more operations, separated by `;`. -/
inductive OperationsForm : List Char → List Operation → Prop where
  | one {s : List Char} {op : Operation} : OperationForm s op → OperationsForm s [op]
  | more {s a b rest : List Char} {op : Operation} {ops : List Operation} :
      OperationForm s op → Blanks a → Blanks b → OperationsForm rest ops →
      OperationsForm (s ++ a ++ [';'] ++ b ++ rest) (op :: ops)

inductive ProgramForm : List Char → List Operation → Prop where
  | line {a body b : List Char} {ops : List Operation} :
      Blanks a → OperationsForm body ops → Blanks b → ProgramForm (a ++ body ++ b) ops

inductive CommentForm : List Char → Prop where
  | line {a body : List Char} : Blanks a → '\n' ∉ body → '\r' ∉ body →
      CommentForm (a ++ ['/', '/'] ++ body)

/-! ## Workloads -/

def Ends (e rest : List Char) : Prop := LineEnd e ∨ e = [] ∧ rest = []

/-- Comments, empty lines and programs, in any order, and blanks at the end. A `Program` has its
only commit at its end, so operations that have not are written by no workload. -/
inductive WorkloadForm : List Char → List Program → Prop where
  | blanks {s : List Char} : Blanks s → WorkloadForm s []
  | comment {s e rest : List Char} {programs : List Program} :
      CommentForm s → Ends e rest → WorkloadForm rest programs →
      WorkloadForm (s ++ e ++ rest) programs
  | empty {s e rest : List Char} {programs : List Program} :
      Blanks s → LineEnd e → WorkloadForm rest programs →
      WorkloadForm (s ++ e ++ rest) programs
  | program {s e rest : List Char} {program : Program} {programs : List Program} :
      ProgramForm s program.operations → Ends e rest → WorkloadForm rest programs →
      WorkloadForm (s ++ e ++ rest) (program :: programs)

/-! ## Which characters there are -/

theorem isBlank_iff {c : Char} : isBlank c = true ↔ c = ' ' ∨ c = '\t' := by
  simp [isBlank]

theorem Blanks.isBlank {s : List Char} (h : Blanks s) {c : Char} (hc : c ∈ s) :
    isBlank c = true := isBlank_iff.2 (h c hc)

theorem blanks_nil : Blanks [] := fun _ hc => absurd hc List.not_mem_nil

/-- Text that can stand in an operation. -/
def Plain (s : List Char) : Prop :=
  ∀ c ∈ s, isBlank c = true ∨ c.isDigit = true ∨ c ∈ ['R', 'W', 'C', '(', ',', ')', '+', '-']

instance (s : List Char) : Decidable (Plain s) := List.decidableBAll _ s

theorem Plain.append {s s' : List Char} (h : Plain s) (h' : Plain s') : Plain (s ++ s') :=
  fun c hc => (List.mem_append.1 hc).elim (h c) (h' c)

theorem Blanks.plain {s : List Char} (h : Blanks s) : Plain s :=
  fun _ hc => .inl (h.isBlank hc)

theorem Positive.plain {s : List Char} {n : Nat} (h : Positive s n) : Plain s :=
  fun c hc => .inr (.inl (h.digits c hc))

theorem Natural.plain {s : List Char} {n : Nat} (h : Natural s n) : Plain s := by
  cases h with
  | zero => decide
  | positive h => exact h.plain

theorem Integer.plain {s : List Char} {n : Int} (h : Integer s n) : Plain s := by
  cases h with
  | zero => decide
  | unsigned h => exact h.plain
  | plus h => exact .append (by decide) h.plain
  | minus h => exact .append (by decide) h.plain

theorem OperationForm.plain {s : List Char} {op : Operation} (h : OperationForm s op) :
    Plain s := by
  cases h with
  | read ha hb hn hc =>
    have hopen := ((show Plain ['R'] by decide).append ha.plain).append (show Plain ['('] by decide)
    exact (((hopen.append hb.plain).append hn.plain).append hc.plain).append (by decide)
  | write ha hb hn hc hd hv he =>
    have hopen := ((show Plain ['W'] by decide).append ha.plain).append (show Plain ['('] by decide)
    have hcomma := (((hopen.append hb.plain).append hn.plain).append hc.plain).append
      (show Plain [','] by decide)
    exact (((hcomma.append hd.plain).append hv.plain).append he.plain).append (by decide)
  | commit => decide

theorem Plain.notMem {s : List Char} (h : Plain s) {c : Char} (hc : ¬ Plain [c]) : c ∉ s :=
  fun hmem => hc fun _ hx => List.mem_singleton.1 hx ▸ h c hmem

end TwoPhase.Text
