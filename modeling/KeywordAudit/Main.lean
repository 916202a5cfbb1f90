import KeywordAudit.Run

/-!
# The command

Looks at the files that a command line names, runs it, and gives its results out.
-/

namespace KeywordAudit
namespace Main

/-- What stands at a path; nothing if it leads nowhere. -/
def probe (path : String) : IO (Option FileEntry) := do
  try
    let bytes ← IO.FS.readBinFile path
    return some (.file (Content.ofBytes bytes))
  catch e =>
    match e with
    | .noFileOrDirectory .. => return none
    | .noSuchThing .. => return none
    | .inappropriateType _ code _ => return if code = 20 then none else some .directory
    | _ => return some .directory

/-- The paths of all directories on the way to a path, and the path itself. -/
def stations (path : String) : List String :=
  let steps := pathSteps path
  (List.range steps.length).filterMap fun n =>
    let station := String.intercalate "/" (steps.take (n + 1))
    if station = "" then none else some station

/-- The paths that a run may look at. -/
def paths (options : Options) : List String :=
  let configs :=
    match options.config with
    | some path => [path]
    | none => Config.defaultNames
  configs ++ [options.model, options.keywords] ++ options.output.toList

/-- The place of the current directory. -/
def current : IO Location := do
  return (pathSteps (← IO.currentDir).toString).filter (· ≠ "")

/-- The files that a run may look at. -/
def observe (options : Options) : IO FileTree := do
  let mut entries := []
  for station in (paths options).flatMap stations do
    if let some entry ← probe station then
      entries := entries ++ [(station, entry)]
  return FileTree.ofList (← current) entries

/-- Writes the output file if the run has changed it. -/
def store (options : Options) (before after : FileTree) : IO Unit := do
  if let some path := options.output then
    match before.read path, after.read path with
    | .ok old, .ok new => if old ≠ new then IO.FS.writeFile path new
    | _, .ok new => IO.FS.writeFile path new
    | _, .error _ => return ()

/-- Seconds with two places, from milliseconds. -/
def seconds (milliseconds : Nat) : String :=
  let hundredths := (milliseconds + 5) / 10
  let places := hundredths % 100
  s!"{hundredths / 100}.{places / 10}{places % 10}"

end Main
end KeywordAudit

open KeywordAudit in
/-- Runs the command line. -/
def main (arguments : List String) : IO UInt32 := do
  let output ← IO.getStdout
  let coloured ← output.isTty
  let start ← IO.monoMsNow
  let (command, log) ←
    match Options.parse arguments with
    | .error usage => do
      if usage ≠ .version then IO.eprintln usage.message
      pure (Run.Command.refused usage, [])
    | .ok options => do
      let before ← Main.observe options
      let outcome := Run.run options coloured before
      Main.store options before outcome.files
      let command := Run.Command.ran options outcome
      pure (command, command.log ++ (outcome.error.map RunError.messages).getD [])
  for line in log do
    IO.eprintln line
  let elapsed := Main.seconds ((← IO.monoMsNow) - start)
  output.putStr (command.output coloured elapsed)
  output.flush
  return command.exitCode.toUInt32
