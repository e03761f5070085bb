import TwoPhase.Text.Line

/-!
# Places

A path is cut at each `/` into parts. Each part leads from one place to the next:

* an empty part and `.` stay,
* `..` goes up,
* any other part goes down to what it names.

`Place.ofPath` follows the parts without asking what is there.
-/

namespace TwoPhase

/-- The folder a place is counted from. -/
inductive Base where
  | root
  /-- So many levels above the working folder, which is at level 0. -/
  | above (levels : Nat)
deriving DecidableEq, Repr

structure Place where
  base : Base
  /-- The names below the base, the innermost first. -/
  names : List String
deriving DecidableEq, Repr

def partsOf (path : String) : List String :=
  let (first, others) := Text.cutAt '/' path.toList
  (first :: others).map String.ofList

namespace Place

def child (p : Place) (name : String) : Place := { p with names := name :: p.names }

/-- The folder a place lies in. The root lies in itself. -/
def parent : Place → Place
  | ⟨base, _ :: names⟩ => ⟨base, names⟩
  | ⟨.root, []⟩ => ⟨.root, []⟩
  | ⟨.above levels, []⟩ => ⟨.above (levels + 1), []⟩

def enter (p : Place) (part : String) : Place :=
  if part = "" ∨ part = "." then p
  else if part = ".." then p.parent
  else p.child part

def start (path : String) : Place :=
  ⟨if path.startsWith "/" then .root else .above 0, []⟩

/-- Where a path leads if all folders on its way exist. -/
def ofPath (path : String) : Place := (partsOf path).foldl enter (start path)

def along (p : Place) : List String → List Place
  | [] => [p]
  | part :: rest => p :: along (p.enter part) rest

/-- The places below `base` that hold the one at `names`. -/
def holders (base : Base) : List String → List Place
  | [] => []
  | _ :: names => ⟨base, names⟩ :: holders base names

def path (p : Place) : String :=
  let names := "/".intercalate p.names.reverse
  match p.base with
  | .root => "/" ++ names
  | .above levels =>
    let up := String.join (List.replicate levels "../")
    if up = "" ∧ names = "" then "." else up ++ names

end Place

end TwoPhase
