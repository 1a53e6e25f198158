import QueryPlan.Json.Basic
/-!
# QueryPlan.Json.Written

**JSON as it is written,** before it is given a meaning. The grammar lets more through than
there are values: a number may lie beyond every floating point number, and an escape may name
half of a surrogate pair. `Written.value?` finds the value of what is written, if there is one.
A reader that looks only at parts of a text asks for the values of these parts alone.
-/

namespace QueryPlan

namespace Json

/-- A piece of a string as it is written. -/
inductive Piece
  /-- A character that stands for itself, or one with an escape of its own. -/
  | plain (c : Char)
  /-- An escape with the four hexadecimal digits of a code unit of 16 bits. -/
  | unit (u : Nat)

namespace Piece

/-- Whether a code unit opens a surrogate pair. -/
def isLeading (u : Nat) : Bool := 0xD800 ≤ u && u ≤ 0xDBFF

/-- Whether a code unit closes a surrogate pair. -/
def isTrailing (u : Nat) : Bool := 0xDC00 ≤ u && u ≤ 0xDFFF

/-- The character of a surrogate pair. -/
def ofPair (leading trailing : Nat) : Char :=
  Char.ofNat (0x10000 + (leading - 0xD800) * 0x400 + (trailing - 0xDC00))

/-- The characters that are written. Half of a surrogate pair is none. -/
def characters? : List Piece → Option (List Char)
  | [] => some []
  | plain c :: rest => (characters? rest).map (c :: ·)
  | unit u :: rest =>
    if isTrailing u then none
    else if isLeading u then
      match rest with
      | unit v :: rest =>
        if isTrailing v then (characters? rest).map (ofPair u v :: ·) else none
      | _ => none
    else (characters? rest).map (Char.ofNat u :: ·)

/-- The text that is written. -/
def text? (pieces : List Piece) : Option String := (characters? pieces).map String.ofList

end Piece

/-- A number as it is written. -/
structure Numeral where
  negative : Bool
  /-- The digits before the point. -/
  whole : List Char
  /-- The digits behind the point, if there is one. -/
  fraction : Option (List Char)
  /-- Whether the exponent is positive, and its digits, if there is one. -/
  exponent : Option (Bool × List Char)

namespace Numeral

/-- The value of a decimal digit. -/
def digitValue (c : Char) : Nat := c.toNat - 48

/-- Digits taken into a significand for as long as it stays below `2 ^ 64`, and the digits
that are left. -/
def accumulate (significand : Nat) : List Char → Nat × List Char
  | [] => (significand, [])
  | c :: cs =>
    let next := significand * 10 + digitValue c
    if 2 ^ 64 ≤ next then (significand, c :: cs) else accumulate next cs

/-- The value of an exponent, unless it needs more than 32 bits. -/
def exponentValue? : Nat → List Char → Option Nat
  | e, [] => some e
  | e, c :: cs =>
    let next := e * 10 + digitValue c
    if 2 ^ 31 ≤ next then none else exponentValue? next cs

/-- The number with a significand, a power of ten and a written exponent. Exponents beyond 32
bits are read as zero or refused. -/
def floatOf? (negative : Bool) (significand : Nat) (power : Int) :
    Option (Bool × List Char) → Option Json
  | none => (Binary64.ofDecimal? negative significand power).map .float
  | some (positive, digits) =>
    match exponentValue? 0 digits with
    | none =>
      if significand != 0 && positive then none
      else some (.float { Binary64.zero with negative := negative })
    | some e =>
      let power := if positive then power + e else power - e
      (Binary64.ofDecimal? negative significand power).map .float

/-- A number without fraction and exponent. Minus zero and negative integers beyond 64 bits
are floating point numbers. -/
def integerOf? (negative : Bool) (significand : Nat) : Option Json :=
  if !negative then some (.integer significand)
  else if significand == 0 || 2 ^ 63 < significand then
    (Binary64.ofDecimal? true significand 0).map .float
  else some (.integer (-(significand : Int)))

/-- The number that is written. Digits that the significand does not hold count by their
places alone. -/
def value? (n : Numeral) : Option Json :=
  let (significand, dropped) := accumulate 0 n.whole
  match n.fraction, n.exponent, dropped with
  | none, none, [] => integerOf? n.negative significand
  | none, exponent, dropped => floatOf? n.negative significand dropped.length exponent
  | some digits, exponent, dropped =>
    let (significand, rest) := accumulate significand digits
    floatOf? n.negative significand ((dropped.length : Int) - digits.length + rest.length)
      exponent

end Numeral

/-- A value as it is written. -/
inductive Written
  | null
  | bool (b : Bool)
  | number (n : Numeral)
  | string (pieces : List Piece)
  | array (elements : List Written)
  | object (members : List (List Piece × Written))

namespace Written

instance : Inhabited Written := ⟨.null⟩

mutual

/-- The value that is written. Everything inside of it has to have a value. -/
def value? : Written → Option Json
  | null => some .null
  | bool b => some (.bool b)
  | number n => n.value?
  | string pieces => (Piece.text? pieces).map .string
  | array elements => (values? elements).map .array
  | object members => (memberValues? members).map .object

/-- The values of elements. -/
def values? : List Written → Option (List Json)
  | [] => some []
  | w :: rest => do return (← value? w) :: (← values? rest)

/-- The names and values of members. -/
def memberValues? : List (List Piece × Written) → Option (List (String × Json))
  | [] => some []
  | (name, w) :: rest => do
    return (← Piece.text? name, ← value? w) :: (← memberValues? rest)

end

end Written

end Json

end QueryPlan
