import QueryPlan.Catalog.Reader
import QueryPlan.CommandLine.Arguments
import QueryPlan.Explain.Tree
import QueryPlan.Query
/-!
# QueryPlan.CommandLine.Answer

**What the command line answers:** the tree of the plan in a file. The catalog is read before
the plan and the settings after it, so of several faults the first in this order is reported.
-/

namespace QueryPlan

namespace CommandLine

/-- The content of a file, or why it could not be read. -/
abbrev Content := Except String String

/-- The content of a file that has to be there. -/
def Content.require (what : String) : Content → Result String
  | .ok text => .ok text
  | .error reason => .fail (.broken s!"Failed to read {what}: {reason}")

namespace Arguments

/-- The settings that are asked for. -/
def settings (a : Arguments) : Result Settings := do
  let settings ← match a.config with
    | some text => Settings.ofText text
    | none => pure .standard
  return { settings with clusterMode := settings.clusterMode || a.clusterMode }

/-- The tree that is asked for, from the contents of the two files. -/
def answer (a : Arguments) (catalog plan : Content) : Result String := do
  let catalog ← Catalog.ofText (← catalog.require "catalog")
  let plan ← plan.require "plan"
  let env : Environment := ⟨catalog, none, ← a.settings⟩
  let query ←
    if a.unoptimized then Query.unoptimizedOfText env plan else Query.ofText env plan
  query.treeText a.verboseExplain

end Arguments

/-- The lines of help for a program, whose catalog may also be named by a variable of the
environment. -/
def helpLines (program catalogVariable : String) : List String :=
  [ s!"Usage: {program} [OPTIONS] --catalog <CATALOG> <PLAN>",
    "",
    "Arguments:",
    "  <PLAN>  Path to the serialized plan",
    "",
    "Options:",
    "  -c, --catalog <CATALOG>        Path to a json file describing the tables the plan " ++
      s!"references [env: {catalogVariable}=]",
    "      --config <CONFIG>          Build config as json. Missing fields use their defaults",
    "      --cluster-mode             Insert pre-projections for window functions",
    "      --unoptimized              Skip rewrites and print the plan as deserialized",
    "      --verbose-explain          Include expressions and field names in the printed tree",
    "      --log-format <LOG_FORMAT>  Log format [default: pretty] [possible values: pretty, " ++
      "json]",
    "  -v, --verbose...               Log verbosity, repeat for more",
    "  -h, --help                     Print help" ]

end CommandLine

end QueryPlan
