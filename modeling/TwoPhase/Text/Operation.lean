import TwoPhase.Operation

/-!
# Written operations

`R(record)`, `W(record,value)` or `C`, with blanks (spaces and tabs) allowed
between any two tokens. `readOperation` says where and why it stopped: either no
operation starts here, or one does and something else was due at some point.

A number is `0` or a digit other than 0 and more digits; a signed number other
than 0 may have a sign. Its readers take as many digits as there are and hand
back the text after them, so a number with a leading 0 ends after the 0.
-/

namespace TwoPhase.Text

/-- The number written by the digits at the front of a text, which must not start with 0. -/
def positive? (s : List Char) : Option (Nat × List Char) :=
  match s with
  | [] => none
  | c :: _ =>
    if c.isDigit ∧ c ≠ '0' then
      some (Nat.ofDigitChars 10 (s.takeWhile Char.isDigit) 0, s.dropWhile Char.isDigit)
    else
      none

def natural? : List Char → Option (Nat × List Char)
  | '0' :: rest => some (0, rest)
  | s => positive? s

/-- A number with or without sign; 0 has none. -/
def integer? : List Char → Option (Int × List Char)
  | '0' :: rest => some (0, rest)
  | '+' :: rest => (positive? rest).map fun (n, after) => ((n : Int), after)
  | '-' :: rest => (positive? rest).map fun (n, after) => (-(n : Int), after)
  | s => (positive? s).map fun (n, after) => ((n : Int), after)

def isBlank (c : Char) : Bool := c = ' ' || c = '\t'

def skipBlanks (s : List Char) : List Char := s.dropWhile isBlank

inductive Due where
  | openBracket
  | record
  | comma
  | value
  | closeBracket
deriving DecidableEq, Repr

def Due.label : Due → String
  | openBracket => "("
  | record => "record id"
  | comma => ","
  | value => "integer value"
  | closeBracket => ")"

inductive Refusal where
  /-- No operation starts here. -/
  | start
  /-- An operation started; at `rest` something else was `due`. -/
  | within (rest : List Char) (due : Due)
  /-- An operation ended and `rest` follows. -/
  | leftover (rest : List Char)
deriving DecidableEq, Repr

def readMark (mark : Char) (due : Due) (s : List Char) : Except Refusal (List Char) :=
  match skipBlanks s with
  | [] => .error (.within [] due)
  | c :: rest => if c = mark then .ok rest else .error (.within (c :: rest) due)

def readRecord (s : List Char) : Except Refusal (RecordId × List Char) :=
  match natural? (skipBlanks s) with
  | some (n, rest) =>
    match recordOfNat? n with
    | some record => .ok (record, rest)
    | none => .error (.within (skipBlanks s) .record)
  | none => .error (.within (skipBlanks s) .record)

def readValue (s : List Char) : Except Refusal (Value × List Char) :=
  match integer? (skipBlanks s) with
  | some (n, rest) =>
    match valueOfInt? n with
    | some value => .ok (value, rest)
    | none => .error (.within (skipBlanks s) .value)
  | none => .error (.within (skipBlanks s) .value)

def readOperation : List Char → Except Refusal (Operation × List Char)
  | 'R' :: s => do
    let s ← readMark '(' .openBracket s
    let (record, s) ← readRecord s
    let s ← readMark ')' .closeBracket s
    return (.read record, s)
  | 'W' :: s => do
    let s ← readMark '(' .openBracket s
    let (record, s) ← readRecord s
    let s ← readMark ',' .comma s
    let (value, s) ← readValue s
    let s ← readMark ')' .closeBracket s
    return (.write record value, s)
  | 'C' :: s => .ok (.commit, s)
  | _ => .error .start

def readPart (s : List Char) : Except Refusal Operation := do
  let (operation, rest) ← readOperation (skipBlanks s)
  match skipBlanks rest with
  | [] => return operation
  | rest => .error (.leftover rest)

end TwoPhase.Text
