/-!
# QueryPlan.Binary64.Basic

**Finite binary floating point numbers of 64 bits,** as sign, significand and exponent. All
arithmetic is exact on natural numbers and rounds once, to the nearest number and to the even
significand on a tie.

`Binary64.ofRatio?` is the rounding; product and quotient are stated through it.
`Binary64.ofDecimal?` reads a decimal significand with a decimal exponent the way fast readers
do: the significand is rounded first and then multiplied or divided by a rounded power of
ten, so that long significands may differ in the last place from the nearest number.
-/

namespace QueryPlan

-- Powers are those of the core library, also where a module imports another power on numbers.
attribute [scoped instance (high)] instPowNat
attribute [default_instance (high + 1)] instPowNat

/-- The number `±significand · 2 ^ exponent`. A number made here has a significand below
`2 ^ 53`, and one of at least `2 ^ 52` unless the exponent is the least one. -/
structure Binary64 where
  negative : Bool
  significand : Nat
  exponent : Int
  deriving DecidableEq, Repr

namespace Binary64

/-- The exponent of the numbers next to zero. -/
def leastExponent : Int := -1074

/-- The exponent of the largest numbers. -/
def greatestExponent : Int := 971

/-- Zero without a sign. -/
def zero : Binary64 := ⟨false, 0, leastExponent⟩

/-- The number with the opposite sign. -/
def neg (x : Binary64) : Binary64 := { x with negative := !x.negative }

/-- The magnitude is the quotient of this and `denominator`. -/
def numerator (x : Binary64) : Nat := x.significand * 2 ^ x.exponent.toNat

/-- The magnitude is the quotient of `numerator` and this. -/
def denominator (x : Binary64) : Nat := 2 ^ (-x.exponent).toNat

/-- The natural number nearest to a quotient, the even one on a tie. -/
def roundDiv (num den : Nat) : Nat :=
  let q := num / den
  let r := num % den
  if 2 * r < den then q
  else if den < 2 * r then q + 1
  else if q % 2 == 0 then q
  else q + 1

/-- A quotient in units of `2 ^ e`, as a quotient. -/
def inUnits (num den : Nat) (e : Int) : Nat × Nat :=
  (num * 2 ^ (-e).toNat, den * 2 ^ e.toNat)

/-- The exponent whose unit gives the quotient a significand of 53 bits, or the least
exponent. -/
def unitOf (num den : Nat) : Int :=
  let low : Int := max leastExponent ((Nat.log2 num : Int) - (Nat.log2 den : Int) - 53)
  let (n, d) := inUnits num den low
  if n / d < 2 ^ 53 then low else low + 1

/-- The number nearest to a quotient, or nothing where the quotient is beyond the largest
numbers. -/
def ofRatio? (num den : Nat) : Option Binary64 :=
  if num == 0 then some zero
  else
    let e := unitOf num den
    let (n, d) := inUnits num den e
    let m := roundDiv n d
    let (m, e) := if m == 2 ^ 53 then (2 ^ 52, e + 1) else (m, e)
    if greatestExponent < e then none else some ⟨false, m, e⟩

/-- The number nearest to a natural number. -/
def ofNat? (n : Nat) : Option Binary64 := ofRatio? n 1

/-- The number nearest to an integer. -/
def ofInt? (i : Int) : Option Binary64 :=
  (ofNat? i.natAbs).map fun x => if i < 0 then x.neg else x

/-- The product of two magnitudes. -/
def mul? (x y : Binary64) : Option Binary64 :=
  ofRatio? (x.numerator * y.numerator) (x.denominator * y.denominator)

/-- The quotient of two magnitudes. -/
def div? (x y : Binary64) : Option Binary64 :=
  ofRatio? (x.numerator * y.denominator) (x.denominator * y.numerator)

/-- The largest power of ten that scaling uses. -/
def largestPower : Nat := 308

/-- A magnitude times a power of ten, or nothing where it grows beyond the largest numbers. A
power below the least one in use is divided off step by step. -/
def scale? (x : Binary64) (power : Int) : Option Binary64 :=
  if power.natAbs ≤ largestPower then do
    let p ← ofNat? (10 ^ power.natAbs)
    if 0 ≤ power then x.mul? p else x.div? p
  else if x.significand == 0 then some x
  else if _h : power < 0 then do
    let p ← ofNat? (10 ^ largestPower)
    let y ← x.div? p
    y.scale? (power + largestPower)
  else none
  termination_by power.natAbs
  decreasing_by
    have _hp : (largestPower : Int) = 308 := rfl
    have _hn : largestPower = 308 := rfl
    omega

/-- The number read from a decimal significand and a power of ten. -/
def ofDecimal? (negative : Bool) (significand : Nat) (power : Int) : Option Binary64 := do
  let x ← (← ofNat? significand).scale? power
  return if negative then x.neg else x

end Binary64

end QueryPlan
