import QueryPlan.Binary64.Shortest
import QueryPlan.SqlType
/-!
# QueryPlan.Expr.Literal

**Constants of a query.** A literal carries the type it was written with and the type it is to
be converted to. Exact numbers, dates, times and intervals are all whole numbers of 64 bits,
shown with a decimal point `scale` places from the right. The scale may be any number, and one
that is too large for a word cannot be shown: the program stops.
-/

namespace QueryPlan

/-- The payload of a literal. -/
inductive LiteralValue
  | null
  | bool (b : Bool)
  | int (i : Int)
  | float (x : Binary64)
  | text (s : String)
  deriving DecidableEq, Repr, Inhabited

/-- A constant. -/
structure Literal where
  value : LiteralValue
  /-- The kind as written. -/
  kind : SqlKind
  /-- The kind to convert to. -/
  targetKind : SqlKind
  scale : Int
  precision : Int
  typeScale : Int
  typePrecision : Int
  deriving DecidableEq, Repr, Inhabited

namespace Literal

/-- A typed null. -/
def null (targetKind : SqlKind) : Literal := ⟨.null, .null, targetKind, 0, 0, 0, 0⟩

/-- A truth value. -/
def bool (b : Bool) : Literal := ⟨.bool b, .boolean, .boolean, 0, 1, 0, 1⟩

/-- Whether the literal is null. -/
def isNull (l : Literal) : Bool := l.value == .null

/-- Whether the literal is the truth value `true`. -/
def isTrue (l : Literal) : Bool := l.value == .bool true

/-- The payload of an exact number without a decimal point. -/
def toInt? (l : Literal) : Option Int :=
  match l.value with
  | .int i => if l.scale == 0 then some i else none
  | _ => none

/-- The type after conversion. -/
def type (l : Literal) : SqlType := ⟨l.targetKind, l.isNull, l.typePrecision, l.typeScale⟩

/-- Floating point payloads are written positionally and without a mark for whole numbers. -/
def floatFormat : DecimalFormat := ⟨none, ""⟩

/-- A power of ten in a word of 64 bits. From the nineteenth on it does not fit, and making it
stops the program. -/
def powerWord (scale : Nat) : Result Int :=
  let power : Nat := 10 ^ min scale 19
  if power < 2 ^ 63 then .ok power else .fail .overflow

/-- A whole number with a decimal point `scale` places from the right. -/
def scaledText (i : Int) (scale : Nat) : Result String := do
  let unit ← powerWord scale
  let whole := i.tdiv unit
  let fraction := decimalDigits (i.tmod unit).natAbs
  let sign := if i < 0 && whole == 0 then "-" else ""
  return sign ++ toString whole ++ "." ++
    String.ofList (List.replicate (scale - fraction.length) '0' ++ fraction)

/-- The written form. Texts stand between quotes as they are. -/
def text (l : Literal) : Result String :=
  match l.value with
  | .null => .ok "NULL"
  | .bool b => .ok (if b then "true" else "false")
  | .int i => if 0 < l.scale then scaledText i l.scale.toNat else .ok (toString i)
  | .float x => .ok (x.text floatFormat)
  | .text s => .ok ("'" ++ s ++ "'")

end Literal

end QueryPlan
