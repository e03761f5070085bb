import TwoPhase.Command.Execute

/-!
# The program

Fetches the files a command reads, lets `Command.perform` decide everything, and
carries the result back to disk and terminal. There is no calendar here: a time is
written as the milliseconds of the machine's clock.
-/

namespace TwoPhase

/-- Looks at one place. A folder is what is there and cannot be read as a file. -/
def look (d : Directory) (p : Place) : IO Directory := do
  if d.find p ≠ .missing then return d
  try
    let bytes ← IO.FS.readBinFile p.path
    return { d with files := d.files ++ [(p, .ofBytes bytes)] }
  catch
    | .inappropriateType .. => return { d with folders := p :: d.folders }
    | _ => return d

/-- The directory as far as the ways of `paths` show it. -/
def fetch (paths : List String) : IO Directory :=
  (paths.flatMap fun path => (Place.start path).along (partsOf path)).foldlM look .empty

def deliver (before after : Directory) : IO Unit := do
  for p in after.folders do
    unless p ∈ before.folders do IO.FS.createDirAll p.path
  for (p, content) in after.files do
    match content with
    | .text s => unless before.files.lookup p = some content do IO.FS.writeFile p.path s
    | .binary _ => pure ()

/-- Draws that depend on nothing but a seed and their place. -/
def drawsFrom (seed workload transaction operation : Nat) : Draw :=
  let place := mixHash (hash (seed, workload)) (hash (transaction, operation))
  let (a, g) := stdNext (mkStdGen place.toNat)
  let (b, g) := stdNext g
  let (c, g) := stdNext g
  let (d, g) := stdNext g
  let (e, _) := stdNext g
  ⟨a * 2147483563 + b, c / 8 % 2 = 0, d * 2147483563 + e⟩

def milliseconds : TimeForm Nat := ⟨.nat, Json.count?⟩

def performHere (args : List String) : IO UInt32 := do
  let seed ← IO.rand 0 2147483647
  let time ← IO.monoMsNow
  let (before, result) ← match Command.ofArguments args with
    | .ok command => do
      let before ← fetch command.inputs.eraseDups
      pure (before, command.perform ⟨drawsFrom seed, fun _ => (time, time), milliseconds⟩ before)
    | .error error => pure (.empty, Command.decline (fun _ => "") .empty error)
  deliver before result.directory
  (← IO.getStdout).putStr result.out
  (← IO.getStderr).putStr result.err
  return UInt32.ofNat result.status

end TwoPhase

def main (args : List String) : IO UInt32 := TwoPhase.performHere args
