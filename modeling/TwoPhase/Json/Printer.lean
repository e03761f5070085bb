import TwoPhase.Json.Basic

/-!
# Writing JSON

`compact` writes a value without blanks, `pretty` on many lines with two blanks
for each level. Both write an empty list as `[]` and an empty object as two
braces.
-/

namespace TwoPhase.Json

def escape (c : Char) : String :=
  if c = '"' then "\\\""
  else if c = '\\' then "\\\\"
  else if c = '\n' then "\\n"
  else if c = '\r' then "\\r"
  else if c = '\t' then "\\t"
  else if c = '\x08' then "\\b"
  else if c = '\x0c' then "\\f"
  else if c.toNat < 32 then
    "\\u00" ++ String.ofList [Nat.digitChar (c.toNat / 16), Nat.digitChar (c.toNat % 16)]
  else c.toString

def quote (s : String) : String := "\"" ++ String.join (s.toList.map escape) ++ "\""

mutual

def compact : Json → String
  | null => "null"
  | bool b => if b then "true" else "false"
  | int n => n.repr
  | real text => text
  | str s => quote s
  | arr items => "[" ++ compactItems items ++ "]"
  | obj fields => "\x7b" ++ compactFields fields ++ "\x7d"

def compactItems : List Json → String
  | [] => ""
  | [item] => compact item
  | item :: rest => compact item ++ "," ++ compactItems rest

def compactFields : List (String × Json) → String
  | [] => ""
  | [(name, j)] => quote name ++ ":" ++ compact j
  | (name, j) :: rest => quote name ++ ":" ++ compact j ++ "," ++ compactFields rest

end

def lineBreak (depth : Nat) : String := String.ofList ('\n' :: List.replicate (2 * depth) ' ')

mutual

/-- Writes a value that starts on level `depth`. -/
def prettyAt (depth : Nat) : Json → String
  | null => "null"
  | bool b => if b then "true" else "false"
  | int n => n.repr
  | real text => text
  | str s => quote s
  | arr [] => "[]"
  | arr items => "[" ++ prettyItems (depth + 1) items ++ lineBreak depth ++ "]"
  | obj [] => "\x7b\x7d"
  | obj fields => "\x7b" ++ prettyFields (depth + 1) fields ++ lineBreak depth ++ "\x7d"

def prettyItems (depth : Nat) : List Json → String
  | [] => ""
  | [item] => lineBreak depth ++ prettyAt depth item
  | item :: rest => lineBreak depth ++ prettyAt depth item ++ "," ++ prettyItems depth rest

def prettyFields (depth : Nat) : List (String × Json) → String
  | [] => ""
  | [(name, j)] => lineBreak depth ++ quote name ++ ": " ++ prettyAt depth j
  | (name, j) :: rest =>
    lineBreak depth ++ quote name ++ ": " ++ prettyAt depth j ++ "," ++ prettyFields depth rest

end

def pretty (j : Json) : String := prettyAt 0 j

end TwoPhase.Json
