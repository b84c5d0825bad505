import JsonnetTree.CommandLine.Outcome

/-!
# The command line tool

Reads the files that a call names and hands them over; all decisions are made in
`JsonnetTree.CommandLine`.
-/

namespace JsonnetTree.CommandLine

/-- How the tool is called. -/
def usageText : String :=
  String.join ["Usage: jsonnet-tool [OPTIONS] <COMMAND>\n\nCommands: ",
    ", ".intercalate (entries.map Entry.name), "\nOptions: ",
    ", ".intercalate (sharedOptions.map fun (name, _) => "--" ++ name), "\n"]

/-- Reads a file. -/
def readFile (path : String) : IO (Except ReadFault String) := do
  try
    return textOfBytes (← IO.FS.readBinFile path)
  catch e =>
    match e with
    | .noFileOrDirectory .. => return .error .missing
    | .inappropriateType .. => return .error .directory
    | e => return .error (.other (toString e))

/-- Runs the tool and returns its exit code. -/
def runTool (args : List String) : IO UInt32 := do
  let outcome ← match Call.ofArgs args with
    | .error stop => do
      if stop = .help then IO.print usageText
      if stop = .usage then IO.eprint usageText
      pure stop.outcome
    | .ok call => do
      let tree ← readFile call.path
      let source ← match call.source with
        | some path => readFile path
        | none => pure (.error .missing)
      pure (call.outcome fun path => if path = call.path then tree else source)
  IO.print outcome.stdout
  IO.eprint outcome.stderr
  return outcome.exitCode.toUInt32

end JsonnetTree.CommandLine

/-- Runs the tool on its arguments. -/
def main (args : List String) : IO UInt32 :=
  JsonnetTree.CommandLine.runTool args
