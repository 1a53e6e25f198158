import QueryPlan.Binary64.Basic
/-!
# QueryPlan.Binary64.Shortest

**The fewest decimal digits that read back.** The numbers that round to a given binary number
form an interval around it, whose ends belong to it exactly if the significand is even. On
the grid of decimals with one digit, with two digits, and so on, only the two neighbours of
the number have to be tried: if any point of a grid lies in the interval, one of them does.
The first grid with a hit wins, and of two hits the nearer one.

`DecimalFormat` holds what a particular way of writing decides beyond the digits.
-/

namespace QueryPlan

/-- The decimal `digits · 10 ^ power`. -/
structure ShortDecimal where
  digits : Nat
  power : Int
  deriving DecidableEq, Repr

/-- How a decimal is laid out. -/
structure DecimalFormat where
  /-- The exponents, of the leading digit, that are written positionally; every exponent if
  there are no bounds. -/
  positional : Option (Int × Int)
  /-- What follows a whole number that is written positionally. -/
  wholeMark : String

/-- The decimal digits of a natural number. -/
def decimalDigits (n : Nat) : List Char := Nat.toDigits 10 n

namespace ShortDecimal

/-- The digits, zeros at the end dropped into the power. -/
def strip : Nat → ShortDecimal → ShortDecimal
  | 0, d => d
  | fuel + 1, d =>
    if d.digits % 10 == 0 && d.digits != 0 then strip fuel ⟨d.digits / 10, d.power + 1⟩ else d

/-- The exponent of the leading digit. -/
def leadingExponent (d : ShortDecimal) : Int :=
  d.power + (decimalDigits d.digits).length - 1

/-- The digits around a decimal point. -/
def positionalText (wholeMark : String) (d : ShortDecimal) : String :=
  let ds := decimalDigits d.digits
  let point := d.power + ds.length
  if 0 ≤ d.power then String.ofList (ds ++ List.replicate d.power.toNat '0') ++ wholeMark
  else if 0 < point then
    String.ofList (ds.take point.toNat ++ '.' :: ds.drop point.toNat)
  else String.ofList ("0.".toList ++ List.replicate (-point).toNat '0' ++ ds)

/-- One digit before the point and the exponent with its sign. -/
def scientificText (d : ShortDecimal) : String :=
  let ds := decimalDigits d.digits
  let mantissa := match ds with
    | [] => []
    | [c] => [c]
    | c :: rest => c :: '.' :: rest
  let e := d.leadingExponent
  String.ofList (mantissa ++ 'e' :: (if e < 0 then '-' else '+') :: decimalDigits e.natAbs)

/-- The text of a decimal in a format. -/
def text (f : DecimalFormat) (d : ShortDecimal) : String :=
  match f.positional with
  | none => d.positionalText f.wholeMark
  | some (least, greatest) =>
    if least ≤ d.leadingExponent && d.leadingExponent ≤ greatest then
      d.positionalText f.wholeMark
    else d.scientificText

end ShortDecimal

namespace Binary64

/-- The exponent of the leading decimal digit of a positive quotient. -/
def decimalExponent (num den : Nat) : Int :=
  if den ≤ num then (decimalDigits (num / den)).length - 1
  else -((decimalDigits ((den - 1) / num)).length : Int)

/-- The interval of a number, in quarters of its unit: lower end, number, upper end. Below a
power of two the numbers lie twice as close. -/
def quarters (x : Binary64) : Nat × Nat × Nat :=
  let m := x.significand
  let low := if m == 2 ^ 52 && x.exponent != leastExponent then 4 * m - 1 else 4 * m - 2
  (low, 4 * m, 4 * m + 2)

/-- The decimal for a positive number on the grid of `count` digits, if a point of the grid
reads back as the number. -/
def onGrid? (x : Binary64) (leading : Int) (count : Nat) : Option ShortDecimal :=
  let power := leading - count + 1
  -- quarters of the unit and steps of the grid as multiples of one common measure
  let quarter := 2 ^ (x.exponent - 2).toNat * 10 ^ (-power).toNat
  let step := 10 ^ power.toNat * 2 ^ (2 - x.exponent).toNat
  let (low, mid, high) := x.quarters
  let value := mid * quarter
  let inside (d : Nat) : Bool :=
    if x.significand % 2 == 0 then low * quarter ≤ d * step && d * step ≤ high * quarter
    else low * quarter < d * step && d * step < high * quarter
  let below := value / step
  let above := below + 1
  match inside below, inside above with
  | true, true =>
    let toBelow := value - below * step
    let toAbove := above * step - value
    if toBelow < toAbove || (toBelow == toAbove && below % 2 == 0) then some ⟨below, power⟩
    else some ⟨above, power⟩
  | true, false => some ⟨below, power⟩
  | false, true => some ⟨above, power⟩
  | false, false => none

/-- The shortest decimal of a positive number. Seventeen digits always suffice. -/
def shortest (x : Binary64) : ShortDecimal :=
  let leading := decimalExponent x.numerator x.denominator
  let found := (List.range 17).findSome? fun i => x.onGrid? leading (i + 1)
  (found.getD ⟨x.numerator / x.denominator, 0⟩).strip 17

/-- The text of a number in a format. Zero keeps its sign. -/
def text (f : DecimalFormat) (x : Binary64) : String :=
  let magnitude :=
    if x.significand == 0 then "0" ++ f.wholeMark else x.shortest.text f
  if x.negative then "-" ++ magnitude else magnitude

end Binary64

end QueryPlan
