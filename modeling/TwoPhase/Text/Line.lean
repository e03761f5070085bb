import TwoPhase.Program
import TwoPhase.Text.Operation

/-!
# Lines of a workload

A line without its line ending is empty (blanks only), a comment, or a program:
operations separated by `;`. No token holds a `;`, so a program line is cut at
its semicolons first and every part must hold exactly one operation.

Where a line is at fault is given in bytes from its start. A part after a `;` in
which no operation starts is not blamed itself: the program should have ended
before that `;`.
-/

namespace TwoPhase.Text

/-- Cuts a text at each `mark`: the part before the first one, and the parts after each. -/
def cutAt (mark : Char) : List Char → List Char × List (List Char)
  | [] => ([], [])
  | c :: rest =>
    let (first, others) := cutAt mark rest
    if c = mark then ([], first :: others) else (c :: first, others)

def byteLength : List Char → Nat
  | [] => 0
  | c :: rest => c.utf8Size + byteLength rest

inductive Cause where
  /-- A program does not start with an operation. -/
  | noOperation
  /-- Inside an operation something else was due. -/
  | broken (due : Due)
  /-- After an operation there is neither a `;` with another one nor the end of the line. -/
  | noLineEnd
  /-- More text follows where one program was asked for. -/
  | moreText
  /-- The operations are no program. -/
  | invalid (error : Error)
deriving DecidableEq, Repr

def Cause.message : Cause → String
  | noOperation => "expected R(record), W(record,value) or C"
  | broken due => "expected " ++ due.label ++ ", R(record), W(record,value) or C"
  | noLineEnd => "expected `;` or end of line"
  | moreText => "unexpected input"
  | invalid error => error.message

structure Fault where
  offset : Nat
  cause : Cause
deriving DecidableEq, Repr

/-- A program as written, before the check of its commit, and the offset of its first operation. -/
structure Draft where
  offset : Nat
  operations : List Operation
deriving DecidableEq, Repr

def Refusal.toFault (offset : Nat) (part : List Char) : Refusal → Fault
  | start => ⟨offset + byteLength part - byteLength (skipBlanks part), .noOperation⟩
  | within rest due => ⟨offset + byteLength part - byteLength rest, .broken due⟩
  | leftover rest => ⟨offset + byteLength part - byteLength rest, .noLineEnd⟩

def readParts (offset : Nat) : List (List Char) → Except Fault (List Operation)
  | [] => .ok []
  | part :: rest =>
    match readPart part with
    | .error .start => .error ⟨offset - 1, .noLineEnd⟩
    | .error refusal => .error (refusal.toFault offset part)
    | .ok operation => (readParts (offset + byteLength part + 1) rest).map (operation :: ·)

def readDraft (line : List Char) : Except Fault Draft :=
  let (part, rest) := cutAt ';' line
  match readPart part with
  | .error refusal => .error (refusal.toFault 0 part)
  | .ok operation =>
    (readParts (byteLength part + 1) rest).map fun operations =>
      ⟨byteLength part - byteLength (skipBlanks part), operation :: operations⟩

/-- After its blanks, a comment line starts with `//`; it holds no carriage return. -/
def isComment (line : List Char) : Bool :=
  match skipBlanks line with
  | '/' :: '/' :: body => '\r' ∉ body
  | _ => false

/-- Reads a line of a workload; a line of blanks or a comment holds no program. -/
def readLine (line : List Char) : Except Fault (Option Draft) :=
  if line.all isBlank || isComment line then .ok none else (readDraft line).map some

end TwoPhase.Text
