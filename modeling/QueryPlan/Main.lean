import QueryPlan.CommandLine.Answer
/-!
# QueryPlan.Main

**The command line.** It reads the files and prints what `CommandLine.Arguments.answer` says. The
exit code is 1 for an error, 2 for arguments that make no sense and 101 where the program stops.
-/

namespace QueryPlan

namespace CommandLine

/-- The content of a file. -/
def contentOf (path : String) : IO Content := do
  try return .ok (← IO.FS.readFile path)
  catch e => return .error (toString e)

/-- Answers on the standard channels and gives the exit code. -/
def run (program catalogVariable : String) (args : List String) : IO UInt32 := do
  let help := "\n".intercalate (helpLines program catalogVariable)
  match Arguments.read (← IO.getEnv catalogVariable) args with
  | .error .help =>
    IO.println help
    return 0
  | .error .invalid =>
    IO.eprintln ("error: invalid arguments\n\n" ++ help)
    return 2
  | .ok a =>
    match a.answer (← contentOf a.catalog) (← contentOf a.plan) with
    | .ok text =>
      IO.print text
      return 0
    | .error e =>
      IO.eprintln (if e.isFatal then e.message else "ERROR: " ++ e.message)
      return if e.isFatal then 101 else 1

end CommandLine

end QueryPlan

/-- Prints the tree of a plan. -/
def main (args : List String) : IO UInt32 :=
  QueryPlan.CommandLine.run "queryplan" "QUERYPLAN_CATALOG" args
