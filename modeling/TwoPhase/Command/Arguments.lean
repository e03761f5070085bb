import TwoPhase.Scenario

/-!
# Command lines

A command line names a command and gives it options and operands. Each command
has its rules (`Rules`): which options there are, what they take, and how many
operands. `scan` goes through the arguments once. What an option or operand was
given is checked only when the next option or operand begins (`settle`), so an
unknown option or an operand too many is noticed before a bad value that was
still waiting. `command?` then puts the command together.
-/

namespace TwoPhase

namespace Command

/-- Why a command line is not carried out. -/
inductive UsageError where
  | noArguments
  | help
  | unknownCommand
  | unknownArgument
  /-- An option that takes a value has none, or a value that is not one of its choices. -/
  | badChoice
  /-- A value is not a number of the right kind. -/
  | badNumber
  /-- A value for an option that takes none. -/
  | needlessValue
  /-- Options that exclude each other, or one option twice. -/
  | conflict
  | missingArgument
deriving DecidableEq, Repr

/-! ## Numbers as arguments -/

def digits? (s : List Char) : Option Nat :=
  if s ≠ [] ∧ s.all Char.isDigit then some (Nat.ofDigitChars 10 s 0) else none

/-- An integer with any sign and any number of leading zeros. -/
def integer? (s : String) : Option Int :=
  match s.toList with
  | '+' :: rest => (digits? rest).map (·)
  | '-' :: rest => (digits? rest).map (-·)
  | s => (digits? s).map (·)

def value? (s : String) : Option Value := (integer? s).bind valueOfInt?

def count? (s : String) : Option Nat :=
  let number := match s.toList with
    | '+' :: rest => digits? rest
    | s => digits? s
  number.bind fun n => if n < UInt64.size then some n else none

def threshold? (s : String) : Option UInt32 :=
  (integer? s).bind fun n => if 0 ≤ n ∧ n < UInt32.size then some (UInt32.ofNat n.toNat) else none

/-! ## Rules -/

inductive Arity where
  | nothing
  | one
  /-- Values separated by commas, added to those of earlier uses; the next argument is taken
  whatever it looks like. -/
  | many
deriving DecidableEq, Repr

structure OptionRule where
  name : String
  arity : Arity
  check : String → Option UsageError

inductive Operands where
  | none
  | one
  | some
deriving DecidableEq, Repr

structure Rules where
  options : List OptionRule
  operands : Operands

def flag (name : String) : OptionRule := ⟨name, .nothing, fun _ => none⟩

def checkNumber {α : Type} (read : String → Option α) (s : String) : Option UsageError :=
  if (read s).isSome then none else some .badNumber

def checkPath (s : String) : Option UsageError := if s.isEmpty then some .badChoice else none

def checkScenario (s : String) : Option UsageError :=
  if (Scenario.ofName? s).isSome then none else some .badChoice

def thresholdRule : OptionRule := ⟨"threshold", .one, checkNumber threshold?⟩

def runRules : Rules where
  options := [
    ⟨"store", .many, checkNumber value?⟩,
    ⟨"records", .one, checkNumber count?⟩,
    thresholdRule,
    flag "json"]
  operands := .one

def demoRules : Rules where
  options := [⟨"scenario", .one, checkScenario⟩, thresholdRule, flag "json"]
  operands := .none

def generateRules : Rules where
  options := [
    ⟨"n-workload", .one, checkNumber count?⟩,
    ⟨"n-record", .one, checkNumber count?⟩,
    ⟨"n-txn", .one, checkNumber count?⟩,
    ⟨"n-op", .one, checkNumber count?⟩,
    ⟨"max-value", .one, checkNumber value?⟩,
    ⟨"output-dir", .one, checkPath⟩]
  operands := .none

def fmtRules : Rules where
  options := [flag "check"]
  operands := .some

/-! ## Scanning -/

inductive Open where
  | nothing
  /-- An option and, once it is there, its value. -/
  | option (rule : OptionRule) (value : Option String)
  | operands (values : List String)

structure Given where
  options : List (String × List String) := []
  operands : List String := []
  opened : Open := .nothing
  /-- After `--` everything is an operand. -/
  operandsOnly : Bool := false

namespace Given

def has (g : Given) (name : String) : Bool := g.options.any (·.1 = name)

def values (g : Given) (name : String) : List String :=
  (g.options.filter (·.1 = name)).flatMap (·.2)

def value? (g : Given) (name : String) : Option String := (g.values name).head?

def use (g : Given) (rule : OptionRule) (value : String) : Except UsageError Given :=
  let values := if rule.arity = .many then value.splitOn "," else [value]
  if rule.arity ≠ .many ∧ g.has rule.name then .error .conflict
  else match values.findSome? rule.check with
    | some error => .error error
    | none => .ok { g with options := g.options ++ [(rule.name, values)] }

def settle (g : Given) : Except UsageError Given :=
  match g.opened with
  | .nothing => .ok g
  | .option _ none => .error .badChoice
  | .option rule (some value) => { g with opened := .nothing }.use rule value
  | .operands values =>
    match values.findSome? checkPath with
    | some error => .error error
    | none => .ok { g with opened := .nothing, operands := g.operands ++ values }

def operand (g : Given) (rules : Rules) (arg : String) : Except UsageError Given :=
  match rules.operands, g.opened with
  | .none, _ => .error .unknownArgument
  | .some, .operands values => .ok { g with opened := .operands (values ++ [arg]) }
  | .one, .operands _ => .error .unknownArgument
  | .one, _ =>
    if g.operands.isEmpty then g.settle.map ({ · with opened := .operands [arg] })
    else .error .unknownArgument
  | .some, _ => g.settle.map ({ · with opened := .operands [arg] })

def option (g : Given) (rules : Rules) (name : String) (attached : Option String) :
    Except UsageError Given :=
  if name = "help" then
    match attached with
    | some _ => .error .needlessValue
    | none => g.settle.bind fun _ => .error .help
  else
    match rules.options.find? (·.name = name), attached with
    | none, _ => .error .unknownArgument
    | some rule, some value =>
      if rule.arity = .nothing then .error .needlessValue
      else g.settle.bind (·.use rule value)
    | some rule, none =>
      if rule.arity = .nothing then
        g.settle.bind fun g =>
          if g.has name then .error .conflict
          else .ok { g with options := g.options ++ [(name, [])] }
      else g.settle.map ({ · with opened := .option rule none })

/-- The option is to take the next argument, whatever that is. -/
def isGreedy (g : Given) : Bool :=
  match g.opened with
  | .option rule none => rule.arity = .many
  | _ => false

/-- An option that still needs its value takes `arg`; otherwise it is an operand. -/
def plain (g : Given) (rules : Rules) (arg : String) : Except UsageError Given :=
  match g.opened with
  | .option rule none => .ok { g with opened := .option rule (some arg) }
  | _ => g.operand rules arg

/-- The name of a long option and what follows the first `=`. -/
def splitOption (arg : List Char) : String × Option String :=
  match arg.dropWhile (· ≠ '=') with
  | [] => (String.ofList arg, none)
  | _ :: value => (String.ofList (arg.takeWhile (· ≠ '=')), some (String.ofList value))

/-- Takes in one argument. A single dash is an ordinary one. -/
def take (g : Given) (rules : Rules) (arg : String) : Except UsageError Given :=
  if g.operandsOnly then g.operand rules arg
  else if g.isGreedy then g.plain rules arg
  else match arg.toList with
    | ['-', '-'] => .ok { g with operandsOnly := true }
    | '-' :: '-' :: rest =>
      let (name, attached) := splitOption rest
      g.option rules name attached
    | '-' :: 'h' :: _ => g.option rules "help" none
    | '-' :: _ :: _ => .error .unknownArgument
    | _ => g.plain rules arg

def scan (g : Given) (rules : Rules) : List String → Except UsageError Given
  | [] => g.settle
  | arg :: rest => (g.take rules arg).bind (·.scan rules rest)

def require {α : Type} (g : Given) (name : String) (read : String → Option α) :
    Except UsageError α :=
  match (g.value? name).bind read with
  | some a => .ok a
  | none => .error .missingArgument

def getD {α : Type} (g : Given) (name : String) (read : String → Option α) (default : α) : α :=
  ((g.value? name).bind read).getD default

end Given

/-! ## Commands -/

structure RunOptions where
  settings : Settings
  json : Bool
deriving DecidableEq, Repr

inductive StoreChoice where
  | values (values : List Value)
  | records (n : Nat)
deriving DecidableEq, Repr

def StoreChoice.store : StoreChoice → Store
  | values given => ⟨given⟩
  | records n => .identity n

end Command

inductive Command where
  | run (input : String) (store : Command.StoreChoice) (options : Command.RunOptions)
  | demo (scenario : Option Scenario) (options : Command.RunOptions)
  | generate (workloads records transactions operations : Nat) (maxValue : Value)
      (directory : String)
  | fmt (paths : List String) (check : Bool)
deriving DecidableEq, Repr

namespace Command

def runOptions (g : Given) : RunOptions :=
  ⟨⟨g.getD "threshold" threshold? 10⟩, g.has "json"⟩

def runCommand (g : Given) : Except UsageError Command :=
  if g.has "store" && g.has "records" then .error .conflict
  else match g.operands with
    | [] => .error .missingArgument
    | input :: _ =>
      let store := if g.has "store" then .values ((g.values "store").filterMap value?)
        else .records (g.getD "records" count? 10)
      .ok (.run input store (runOptions g))

def demoCommand (g : Given) : Except UsageError Command :=
  .ok (.demo ((g.value? "scenario").bind Scenario.ofName?) (runOptions g))

def generateCommand (g : Given) : Except UsageError Command := do
  let workloads ← g.require "n-workload" count?
  let records ← g.require "n-record" count?
  let transactions ← g.require "n-txn" count?
  let operations ← g.require "n-op" count?
  let directory ← g.require "output-dir" some
  return .generate workloads records transactions operations (g.getD "max-value" value? 9) directory

def fmtCommand (g : Given) : Except UsageError Command :=
  if g.operands.isEmpty then .error .missingArgument
  else .ok (.fmt g.operands (g.has "check"))

/-- Scans by `rules` and puts the command together. -/
def command? (rules : Rules) (build : Given → Except UsageError Command) (args : List String) :
    Except UsageError Command :=
  (Given.scan {} rules args).bind build

def names : List String := ["run", "demo", "generate", "fmt", "help"]

def helpCommand : List String → UsageError
  | [] => .help
  | [name] => if name ∈ names then .help else .unknownCommand
  | _ => .unknownCommand

/-- Reads a command line: the arguments after the name of the program. -/
def ofArguments : List String → Except UsageError Command
  | [] => .error .noArguments
  | "run" :: args => command? runRules runCommand args
  | "demo" :: args => command? demoRules demoCommand args
  | "generate" :: args => command? generateRules generateCommand args
  | "fmt" :: args => command? fmtRules fmtCommand args
  | "help" :: args => .error (helpCommand args)
  | "--" :: [] => .error .noArguments
  | "--" :: arg :: _ => .error (if arg ∈ names then .unknownArgument else .unknownCommand)
  | arg :: _ =>
    match arg.toList with
    | '-' :: '-' :: rest =>
      match Given.splitOption rest with
      | ("help", none) => .error .help
      | ("help", some _) => .error .needlessValue
      | _ => .error .unknownArgument
    | '-' :: 'h' :: _ => .error .help
    | '-' :: _ :: _ => .error .unknownArgument
    | _ => .error .unknownCommand

end Command

end TwoPhase
