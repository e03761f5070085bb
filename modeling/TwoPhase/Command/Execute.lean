import TwoPhase.Json.Printer
import TwoPhase.Encoding.Report
import TwoPhase.Encoding.Workload
import TwoPhase.Command.Arguments
import TwoPhase.Command.Directory

/-!
# Carrying out commands

A command turns a directory into another one and says what it has to say on two
channels. Nothing here touches the world outside: random draws, the clock and the
wording of help come in as arguments.
-/

namespace TwoPhase

namespace Command

structure Result where
  status : Nat
  out : String
  err : String
  directory : Directory
deriving DecidableEq

/-- What a command may not decide itself. -/
structure Chance (Time : Type) where
  draws : Nat → Nat → Nat → Draw
  times : Nat → Time × Time
  form : TimeForm Time

variable {Time : Type}

def succeed (directory : Directory) (out : String) : Result := ⟨0, out, "", directory⟩

def fail (directory : Directory) (out message : String) : Result :=
  ⟨1, out, message ++ "\n", directory⟩

/-- The text of a workload file and its programs, or why there are none. -/
def load (d : Directory) (path : String) : Except String (String × List Program) := do
  let text ← (d.read path).mapError fun e => "Failed to read " ++ path ++ ": " ++ e.message
  let programs ← (Text.readWorkload text).mapError fun e => path ++ ": " ++ e.text
  return (text, programs)

def runPrograms (store : Store) (programs : List Program) (options : RunOptions) :
    Except String Report :=
  (execute store programs options.settings).mapError fun e => "Run failed: " ++ e.message

def showReport (json : Bool) (report : Report) : String :=
  if json then report.toJson.pretty ++ "\n" else report.text

/-! ## The commands -/

def doRun (d : Directory) (input : String) (store : Store) (options : RunOptions) : Result :=
  let report := (load d input).bind fun (_, programs) => runPrograms store programs options
  match report with
  | .error message => fail d "" message
  | .ok report => succeed d (showReport options.json report)

def runScenario (scenario : Scenario) (options : RunOptions) : Except String Report := do
  let programs ← (Text.readWorkload scenario.text).mapError fun e =>
    "Scenario " ++ scenario.name ++ ": " ++ e.text
  runPrograms Scenario.store programs options

def showScenarios (json : Bool) (reports : List (Scenario × Report)) : String :=
  if json then
    (Json.ofList (fun (scenario, report) =>
      .obj [("scenario", .str scenario.name), ("report", report.toJson)]) reports).pretty ++ "\n"
  else
    String.join (reports.map fun (scenario, report) =>
      "== " ++ scenario.name ++ " ==\n" ++ report.text ++ "\n")

def doDemo (d : Directory) (scenario : Option Scenario) (options : RunOptions) : Result :=
  let scenarios := match scenario with
    | some scenario => [scenario]
    | none => Scenario.all
  let reports := scenarios.mapM fun scenario =>
    (runScenario scenario options).map (scenario, ·)
  match reports with
  | .error message => fail d "" message
  | .ok reports => succeed d (showScenarios options.json reports)

def writeSamples (form : TimeForm Time) (folder : String) : List (Sample Time) → Directory → Result
  | [], d => succeed d ""
  | sample :: rest, d =>
    let path := Directory.join folder (sample.shape.id.repr ++ ".json")
    match d.write path (sample.toJson form).pretty with
    | .error e => fail d "" ("Failed to create " ++ path ++ ": " ++ e.message)
    | .ok d => writeSamples form folder rest d

def doGenerate (chance : Chance Time) (d : Directory) (workloads : Nat) (shape : Shape)
    (folder : String) : Result :=
  match d.makeFolder folder with
  | .error e => fail d "" ("Failed to create output directory: " ++ e.message)
  | .ok d =>
    let samples := (List.range workloads).mapM fun id =>
      Sample.generate { shape with id } (chance.draws id) (chance.times id).1 (chance.times id).2
    match samples with
    | .error e => fail d "" ("Failed to generate workloads: " ++ e.message)
    | .ok samples =>
      let result := writeSamples chance.form folder samples d
      if result.status = 0 then
        succeed result.directory
          ("Generated " ++ samples.length.repr ++ " workloads to " ++ folder ++ "\n")
      else result

/-- Formats one file after another. `out` is what was said before and `stale` whether a file was
found that is not formatted. The first file that cannot be read ends the work. -/
def doFmt (check : Bool) : List String → Directory → (out : String) → (stale : Bool) → Result
  | [], d, out, stale => ⟨if stale then 1 else 0, out, "", d⟩
  | path :: rest, d, out, stale =>
    match load d path with
    | .error message => fail d out message
    | .ok (text, programs) =>
      let formatted := Text.workloadText programs
      if formatted = text then doFmt check rest d out stale
      else if check then doFmt check rest d (out ++ path ++ ": not formatted\n") true
      else match d.write path formatted with
        | .error e => fail d out ("Failed to write " ++ path ++ ": " ++ e.message)
        | .ok d => doFmt check rest d (out ++ path ++ ": formatted\n") stale

def perform (command : Command) (chance : Chance Time) (d : Directory) : Result :=
  match command with
  | run input store options => doRun d input store.store options
  | demo scenario options => doDemo d scenario options
  | generate workloads records transactions operations maxValue folder =>
    doGenerate chance d workloads { records, transactions, operations, maxValue } folder
  | fmt paths check => doFmt check paths d "" false

/-- Answers a command line that is not carried out, in the given words. Help is no failure. -/
def decline (wording : UsageError → String) (d : Directory) : UsageError → Result
  | .help => succeed d (wording .help)
  | error => ⟨2, "", wording error, d⟩

/-- Carries out a command line: the arguments after the name of the program. -/
def performLine (chance : Chance Time) (wording : UsageError → String) (d : Directory)
    (args : List String) : Result :=
  match ofArguments args with
  | .ok command => command.perform chance d
  | .error error => decline wording d error

def inputs : Command → List String
  | run input _ _ => [input]
  | fmt paths _ => paths
  | demo _ _ => []
  | generate _ _ _ _ _ folder => [folder]

end Command

end TwoPhase
