import QueryPlan.Error
import QueryPlan.Json.Record
/-!
# QueryPlan.Settings

**What a build may be told.** Each setting has a default, and a record of settings in JSON may
leave any of them out.
-/

namespace QueryPlan

/-- The settings of a build. -/
structure Settings where
  /-- Narrow the inputs of window functions to the columns that they read. -/
  clusterMode : Bool
  /-- Accept unions. -/
  enableUnion : Bool
  /-- Check a finished plan. -/
  validate : Bool
  deriving DecidableEq, Repr

namespace Settings

/-- The settings of a build that is told nothing. -/
def standard : Settings := ⟨false, true, true⟩

instance : Inhabited Settings := ⟨standard⟩

/-- What a record of settings holds. -/
def fields : List (String × Json.Shape) :=
  [("cluster_mode", .whole), ("enable_union", .whole), ("validate_dag", .whole)]

/-- The settings in a record. -/
def ofJson (j : Json) : Result Settings :=
  .ofOption .malformed do
    match ← j.record? fields with
    | [clusterMode, enableUnion, validate] =>
      return { clusterMode := ← Json.fieldOr standard.clusterMode Json.toBool? clusterMode
               enableUnion := ← Json.fieldOr standard.enableUnion Json.toBool? enableUnion
               validate := ← Json.fieldOr standard.validate Json.toBool? validate }
    | _ => none

/-- The settings in a text. -/
def ofText (text : String) : Result Settings := do
  ofJson (← (Json.Shape.record fields).ofText text)

end Settings

end QueryPlan
