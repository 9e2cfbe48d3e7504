/-! Numbers of double precision.

A magnitude is a mantissa times a power of two. Every operation forms the exact quotient in
natural numbers and rounds it once: to the nearest magnitude, and of two equally near ones
to the one with the even mantissa. -/
namespace Provision

/-- `mantissa * 2 ^ exponent`. -/
structure Magnitude where
  mantissa : Nat
  exponent : Int
deriving DecidableEq, Repr

/-- A finite number of double precision. -/
structure Double where
  negative : Bool
  magnitude : Magnitude
deriving DecidableEq, Repr

namespace Magnitude

/-- The exponent of the smallest magnitudes. -/
def leastExponent : Int := -1074

/-- The exponent of the largest magnitudes. -/
def mostExponent : Int := 971

/-- A mantissa below this bound fits. -/
def mantissaBound : Nat := 0x20000000000000

def zero : Magnitude := ⟨0, leastExponent⟩

def isZero (m : Magnitude) : Bool := m.mantissa == 0

/-- The magnitude as a fraction. -/
def numerator (m : Magnitude) : Nat := m.mantissa <<< m.exponent.toNat

def denominator (m : Magnitude) : Nat := 1 <<< (-m.exponent).toNat

/-- A quotient to the nearest natural number, a half to the even one. -/
def roundQuotient (numerator denominator : Nat) : Nat :=
  let quotient := numerator / denominator
  let twice := 2 * (numerator % denominator)
  if twice > denominator ∨ (twice = denominator ∧ quotient % 2 = 1) then quotient + 1 else quotient

/-- A quotient in units of `2 ^ exponent`, as a fraction of natural numbers. -/
def inUnits (numerator denominator : Nat) (exponent : Int) : Nat × Nat :=
  (numerator <<< (-exponent).toNat, denominator <<< exponent.toNat)

/-- The unit in which a quotient has a mantissa of full length, or the least unit there is. -/
def unitOf (numerator denominator : Nat) : Int :=
  let guess : Int := (numerator.log2 : Int) - denominator.log2 - 52
  let (n, d) := inUnits numerator denominator guess
  let exponent := if n / d < mantissaBound / 2 then guess - 1 else guess
  max exponent leastExponent

/-- The nearest magnitude to a quotient, if it is not beyond the largest one. -/
def ofQuotient (numerator denominator : Nat) : Option Magnitude :=
  if numerator = 0 then some zero
  else
    let exponent := unitOf numerator denominator
    let (n, d) := inUnits numerator denominator exponent
    let mantissa := roundQuotient n d
    let m : Magnitude :=
      if mantissa = mantissaBound then ⟨mantissaBound / 2, exponent + 1⟩ else ⟨mantissa, exponent⟩
    if m.exponent > mostExponent then none else some m

def ofNat (value : Nat) : Option Magnitude := ofQuotient value 1

def times (a b : Magnitude) : Option Magnitude :=
  ofQuotient (a.numerator * b.numerator) (a.denominator * b.denominator)

def dividedBy (a b : Magnitude) : Option Magnitude :=
  ofQuotient (a.numerator * b.denominator) (a.denominator * b.numerator)

/-- The largest power of ten that is a magnitude has this exponent. -/
def mostDecimalExponent : Nat := 308

/-- Multiplies by a power of ten, rounding the power and the product. A division by more than
the largest power of ten goes in steps; after `steps` of them nothing is left. -/
def scale : (steps : Nat) → Magnitude → Int → Option Magnitude
  | 0, _, _ => some zero
  | steps + 1, m, exponent =>
    if exponent.natAbs ≤ mostDecimalExponent then do
      let power ← ofNat (Nat.pow 10 exponent.natAbs)
      if 0 ≤ exponent then m.times power else m.dividedBy power
    else if m.isZero then some m
    else if 0 ≤ exponent then none
    else do
      let power ← ofNat (Nat.pow 10 mostDecimalExponent)
      scale steps (← m.dividedBy power) (exponent + mostDecimalExponent)

/-- A significand times a power of ten, if it is not too large. -/
def ofDecimal (significand : Nat) (exponent : Int) : Option Magnitude := do
  scale 4 (← ofNat significand) exponent

end Magnitude
end Provision
