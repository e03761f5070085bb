import TwoPhase.Text.Line

/-!
# Written programs and workloads

A workload text holds one program a line; empty lines and comments do not count.
A line ends with a newline, before which a carriage return is part of the line
ending. `readWorkload` reads all lines before it checks any commit, so a fault
in the writing of a line wins over a misplaced commit on an earlier one.
`workloadText` writes programs back, one a line.
-/

namespace TwoPhase.Text

/-- The lines of a text without their line endings: the first one, and those after each ending. -/
def cutLines : List Char → List Char × List (List Char)
  | [] => ([], [])
  | '\r' :: '\n' :: rest =>
    let (first, others) := cutLines rest
    ([], first :: others)
  | c :: rest =>
    let (first, others) := cutLines rest
    if c = '\n' then ([], first :: others) else (c :: first, others)

/-- A fault with its place in the whole text; lines and columns count from 1, columns in bytes. -/
structure ParseError where
  message : String
  line : Nat
  column : Nat
deriving DecidableEq, Repr

namespace ParseError

def ofFault (line : Nat) (fault : Fault) : ParseError :=
  ⟨fault.cause.message, line, fault.offset + 1⟩

def text (e : ParseError) : String :=
  "parse error at line " ++ e.line.repr ++ ", column " ++ e.column.repr ++ ": " ++ e.message

end ParseError

/-- The program of a draft in line `line`. A misplaced commit is blamed on the first operation. -/
def checkDraft (line : Nat) (draft : Draft) : Except ParseError Program :=
  (Program.ofOperations draft.operations).mapError fun error =>
    .ofFault line ⟨draft.offset, .invalid error⟩

/-- Reads a text that holds one program, with or without a line ending. -/
def readProgram (text : String) : Except ParseError Program := do
  let (line, others) := cutLines text.toList
  let draft ← (readDraft line).mapError (.ofFault 1)
  match others with
  | [] | [[]] => checkDraft 1 draft
  | _ => .error (.ofFault 2 ⟨0, .moreText⟩)

def readDrafts (line : Nat) : List (List Char) → Except ParseError (List (Nat × Draft))
  | [] => .ok []
  | first :: rest => do
    let draft? ← (readLine first).mapError (.ofFault line)
    let drafts ← readDrafts (line + 1) rest
    match draft? with
    | some draft => return (line, draft) :: drafts
    | none => return drafts

def checkDrafts : List (Nat × Draft) → Except ParseError (List Program)
  | [] => .ok []
  | (line, draft) :: rest => do
    let program ← checkDraft line draft
    let programs ← checkDrafts rest
    return program :: programs

def readWorkload (text : String) : Except ParseError (List Program) := do
  let (first, others) := cutLines text.toList
  let drafts ← readDrafts 1 (first :: others)
  checkDrafts drafts

/-- The canonical text of a workload: each program on a line of its own. -/
def workloadText (programs : List Program) : String :=
  String.join (programs.map fun program => program.text ++ "\n")

end TwoPhase.Text
