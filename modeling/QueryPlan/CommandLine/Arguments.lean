/-!
# QueryPlan.CommandLine.Arguments

**The arguments of the command line.** One argument names the file with the plan; an option
names the file with the catalog. Every option may be given once, only `-v` may be repeated. The
value of an option follows it, in the next argument or behind `=`, and a value in an argument
of its own does not start with a dash. Behind `--` nothing is an option.

Arguments are read from left to right, so a request for help counts unless something before it
is wrong.
-/

namespace QueryPlan

namespace CommandLine

/-- How log lines would be written. -/
inductive LogFormat
  | pretty
  | json
  deriving DecidableEq, Repr, Inhabited

/-- The format with a name. -/
def LogFormat.ofName? : String → Option LogFormat
  | "pretty" => some .pretty
  | "json" => some .json
  | _ => none

/-- What is asked for. -/
structure Arguments where
  /-- The file with the plan. -/
  plan : String
  /-- The file with the catalog. -/
  catalog : String
  /-- A record of settings. -/
  config : Option String
  /-- Narrow the inputs of window functions, whatever the settings say. -/
  clusterMode : Bool
  /-- Show the plan as it is bound. -/
  unoptimized : Bool
  /-- Show verbose entries. -/
  verboseExplain : Bool
  logFormat : LogFormat
  verbosity : Nat
  deriving DecidableEq, Repr

/-- The options that take a value. -/
inductive Setting
  | catalog
  | config
  | logFormat
  deriving DecidableEq, Repr

/-- The options that take none and are given at most once. -/
inductive Switch
  | clusterMode
  | unoptimized
  | verboseExplain
  deriving DecidableEq, Repr

/-- Why reading ends early. -/
inductive Stop
  /-- Help is asked for. -/
  | help
  /-- The arguments make no sense. -/
  | invalid
  deriving DecidableEq, Repr

/-- The arguments read so far. -/
structure Draft where
  plan : Option String
  values : List (Setting × String)
  switches : List Switch
  verbosity : Nat
  /-- An option whose value is the next argument. -/
  pending : Option Setting
  /-- Whether `--` was read. -/
  plainOnly : Bool

namespace Draft

/-- Before the first argument. -/
def start : Draft := ⟨none, [], [], 0, none, false⟩

/-- Whether a value is one for an option. A file has a name. -/
def admits : Setting → String → Bool
  | .catalog, value => !value.isEmpty
  | .config, _ => true
  | .logFormat, value => (LogFormat.ofName? value).isSome

/-- Takes in the value of an option. -/
def addValue (d : Draft) (s : Setting) (value : String) : Except Stop Draft :=
  if admits s value && !(d.values.any fun v => v.1 == s) then
    .ok { d with values := d.values ++ [(s, value)], pending := none }
  else .error .invalid

/-- Takes in an option without a value. -/
def addSwitch (d : Draft) (s : Switch) : Except Stop Draft :=
  if d.switches.contains s then .error .invalid
  else .ok { d with switches := d.switches ++ [s] }

/-- Takes in an argument that is no option. -/
def addPlain (d : Draft) (value : String) : Except Stop Draft :=
  if d.plan.isNone && !value.isEmpty then .ok { d with plan := some value }
  else .error .invalid

/-- Takes in a long option, given its name and the value behind `=`. -/
def addLong (d : Draft) (name : String) (value : Option String) : Except Stop Draft :=
  let setting (s : Setting) : Except Stop Draft :=
    match value with
    | some v => d.addValue s v
    | none => .ok { d with pending := some s }
  match name, value with
  | "catalog", _ => setting .catalog
  | "config", _ => setting .config
  | "log-format", _ => setting .logFormat
  | "cluster-mode", none => d.addSwitch .clusterMode
  | "unoptimized", none => d.addSwitch .unoptimized
  | "verbose-explain", none => d.addSwitch .verboseExplain
  | "verbose", none => .ok { d with verbosity := d.verbosity + 1 }
  | "help", none => .error .help
  | _, _ => .error .invalid

/-- Takes in short options that stand in one argument. -/
def addShort (d : Draft) : List Char → Except Stop Draft
  | [] => .ok d
  | 'v' :: cs => addShort { d with verbosity := d.verbosity + 1 } cs
  | 'h' :: _ => .error .help
  | ['c'] => .ok { d with pending := some .catalog }
  | 'c' :: '=' :: cs => d.addValue .catalog (String.ofList cs)
  | 'c' :: cs => d.addValue .catalog (String.ofList cs)
  | _ => .error .invalid

/-- The characters before the first `=` and those behind it, if there is one. -/
def splitAtEquals (cs : List Char) : String × Option String :=
  let name := cs.takeWhile fun c => c != '='
  match cs.dropWhile fun c => c != '=' with
  | _ :: value => (String.ofList name, some (String.ofList value))
  | [] => (String.ofList name, none)

/-- Takes in an argument. -/
def add (d : Draft) (arg : String) : Except Stop Draft :=
  if d.plainOnly then d.addPlain arg
  else
    match d.pending, arg.toList with
    | some _, '-' :: _ :: _ => .error .invalid
    | some s, _ => d.addValue s arg
    | none, ['-', '-'] => .ok { d with plainOnly := true }
    | none, '-' :: '-' :: cs =>
      let (name, value) := splitAtEquals cs
      d.addLong name value
    | none, '-' :: c :: cs => d.addShort (c :: cs)
    | none, _ => d.addPlain arg

/-- The value of an option. -/
def value? (d : Draft) (s : Setting) : Option String := List.lookup s d.values

/-- The arguments that were read, the catalog being possibly given from elsewhere. -/
def finish (d : Draft) (catalogDefault : Option String) : Except Stop Arguments :=
  match d.plan, d.value? .catalog <|> catalogDefault, d.pending with
  | some plan, some catalog, none =>
    .ok { plan := plan
          catalog := catalog
          config := d.value? .config
          clusterMode := d.switches.contains .clusterMode
          unoptimized := d.switches.contains .unoptimized
          verboseExplain := d.switches.contains .verboseExplain
          logFormat := (d.value? .logFormat >>= LogFormat.ofName?).getD .pretty
          verbosity := d.verbosity }
  | _, _, _ => .error .invalid

end Draft

/-- Reads the arguments. -/
def Arguments.read (catalogDefault : Option String) (args : List String) :
    Except Stop Arguments := do
  (← args.foldlM Draft.add .start).finish catalogDefault

end CommandLine

end QueryPlan
