import QueryPlan.Error
import QueryPlan.Json.Printer
/-!
# QueryPlan.Document.Field

**Members and values of a plan document,** each required to be there and to have a certain
type. A refusal quotes the JSON value that it is about.

Plan documents are written by planners, so a value of the wrong type is a broken contract and
not a user's mistake.
-/

namespace QueryPlan

namespace Json

/-- The member of an object with a name. -/
def field (name : String) (j : Json) : Result Json :=
  if j.isObject then .ofOption (.missingField name j.excerpt) (j.get? name)
  else .fail (.notAnObject j.excerpt)

/-- A text. -/
def asText (j : Json) : Result String := .ofOption (.notAString j.excerpt) j.toText?

/-- An integer of 64 bits. -/
def asInt (j : Json) : Result Int := .ofOption (.notAnInteger j.excerpt) j.toInt?

/-- A count or a position. -/
def asNat (j : Json) : Result Nat := do
  match ← j.asInt with
  | .ofNat n => return n
  | i => .fail (.negative i)

/-- A truth value. -/
def asBool (j : Json) : Result Bool := .ofOption (.notABool j.excerpt) j.toBool?

/-- The elements of an array. -/
def asList (j : Json) : Result (List Json) := .ofOption (.notAnArray j.excerpt) j.toList?

/-- An array of texts. -/
def asTexts (j : Json) : Result (List String) := do (← j.asList).mapM asText

/-- An array of positions. -/
def asNats (j : Json) : Result (List Nat) := do (← j.asList).mapM asNat

/-- An integer of 32 bits that may be left out or `null`, and is zero then. -/
def int32Field (name : String) (j : Json) : Result Int :=
  match j.get? name with
  | none | some .null => .ok 0
  | some value => do
    let i ← value.asInt
    Result.ensure (-(2 ^ 31) ≤ i && i < 2 ^ 31) (.outOfRange name i)
    return i

end Json

end QueryPlan
