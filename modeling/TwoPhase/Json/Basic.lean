/-!
# JSON values

Objects keep their fields in order and have each name once. Only integers
matter as numbers; any other number is kept as it was written.

The selectors below read a value as one of the shapes in which data is encoded:
an integer in a range, a list, a record (an object, or a list of its fields in
order), or a choice between named alternatives.
-/

namespace TwoPhase

inductive Json where
  | null
  | bool (b : Bool)
  | int (n : Int)
  /-- A number with a fraction, an exponent or a negative zero. -/
  | real (text : String)
  | str (s : String)
  | arr (items : List Json)
  | obj (fields : List (String × Json))
deriving Inhabited, Repr

namespace Json

def nat (n : Nat) : Json := .int n

def ofOption {α : Type} (encode : α → Json) : Option α → Json
  | some a => encode a
  | none => .null

def ofList {α : Type} (encode : α → Json) (items : List α) : Json := .arr (items.map encode)

/-! ## Reading shapes -/

def field? (name : String) : Json → Option Json
  | obj fields => fields.lookup name
  | _ => none

def int? : Json → Option Int
  | int n => some n
  | _ => none

def natBelow? (bound : Nat) : Json → Option Nat
  | int n => if 0 ≤ n ∧ n < bound then some n.toNat else none
  | _ => none

/-- A count: a natural number of 64 bits. -/
def count? (j : Json) : Option Nat := j.natBelow? UInt64.size

def str? : Json → Option String
  | str s => some s
  | _ => none

def arr? : Json → Option (List Json)
  | arr items => some items
  | _ => none

def listOf? {α : Type} (decode : Json → Option α) : Json → Option (List α)
  | arr items => items.mapM decode
  | _ => none

/-- Null for a missing value. -/
def optional? {α : Type} (decode : Json → Option α) : Json → Option (Option α)
  | null => some none
  | j => (decode j).map some

/-- The fields of a record: an object that has every name in `names` except perhaps those in
`omissible`, which then count as null, or a list with one item for each name. -/
def record? (names omissible : List String) : Json → Option (List Json)
  | obj fields => names.mapM fun name =>
    match fields.lookup name with
    | some j => some j
    | none => if name ∈ omissible then some .null else none
  | arr items => if items.length = names.length then some items else none
  | _ => none

/-- The name and content of an alternative: an object with one field, or a bare name without
content. -/
def alternative? : Json → Option (String × Option Json)
  | str name => some (name, none)
  | obj [(name, content)] => some (name, some content)
  | _ => none

/-- The name of an alternative without content, which null may stand for. -/
def plainAlternative? (j : Json) : Option String :=
  match j.alternative? with
  | some (name, none) => some name
  | some (name, some .null) => some name
  | _ => none

end Json

end TwoPhase
