import Provision.Numeral.Digits
import Provision.Numeral.Double

/-! The shortest decimal that reads back as a given number of double precision.

`digits` looks for it on the decimal grids of one digit, two digits and so on. On each grid
only the two neighbours of the number can lie among the reals that round to it; the first
grid with a hit wins, of two hits the nearer one, and of two equally near ones the even
one. `Notation` holds the choices of how the digits are laid out. -/
namespace Provision.Magnitude

/-- The reals that round to a magnitude, in quarters of its unit: the least of them, the
magnitude itself, and the largest. -/
def quarters (m : Magnitude) : Nat × Nat × Nat :=
  let value := 4 * m.mantissa
  let below := if m.mantissa = mantissaBound / 2 ∧ leastExponent < m.exponent then 1 else 2
  (value - below, value, value + 2)

/-- A number of quarters as a fraction. -/
def ofQuarters (m : Magnitude) (count : Nat) : Nat × Nat :=
  (count <<< m.exponent.toNat, 4 <<< (-m.exponent).toNat)

/-- No magnitude but zero is below ten to the minus this. -/
def decimalPlaces : Nat := 330

/-- The power of ten just above a magnitude. -/
def decimalPoint (m : Magnitude) : Int :=
  let scaled := m.numerator * Nat.pow 10 decimalPlaces / m.denominator
  ((Numeral.decimal scaled).length : Int) - decimalPlaces

/-- Compares `count * 10 ^ exponent` with a fraction. -/
def gridCompare (count : Nat) (exponent : Int) (fraction : Nat × Nat) : Ordering :=
  compare (count * Nat.pow 10 exponent.toNat * fraction.2)
    (fraction.1 * Nat.pow 10 (-exponent).toNat)

/-- Does a point of a decimal grid round to the magnitude? -/
def holds (m : Magnitude) (count : Nat) (exponent : Int) : Bool :=
  let (least, _, most) := m.quarters
  let lower := gridCompare count exponent (m.ofQuarters least)
  let upper := gridCompare count exponent (m.ofQuarters most)
  if m.mantissa % 2 = 0 then lower.isGE && upper.isLE else lower.isGT && upper.isLT

/-- The best point of the grid of `10 ^ exponent`, if any rounds to the magnitude. -/
def onGrid (m : Magnitude) (exponent : Int) : Option Nat :=
  let numerator := m.numerator * Nat.pow 10 (-exponent).toNat
  let denominator := m.denominator * Nat.pow 10 exponent.toNat
  let lower := numerator / denominator
  let nearest := roundQuotient numerator denominator
  match m.holds lower exponent, m.holds (lower + 1) exponent with
  | true, true => some nearest
  | true, false => some lower
  | false, true => some (lower + 1)
  | false, false => none

/-- The first grid of at least `count` digits that has a point for the magnitude. -/
def firstGrid (m : Magnitude) (point : Int) : (tries : Nat) → (count : Nat) → Nat × Int
  | 0, count => (0, point - count)
  | tries + 1, count =>
    match m.onGrid (point - count) with
    | some digits => (digits, point - count)
    | none => firstGrid m point tries (count + 1)

/-- The digits of the shortest decimal, and where its decimal point stands before them. -/
def shortest (m : Magnitude) : List Char × Int :=
  let (value, exponent) := m.firstGrid m.decimalPoint 17 1
  let written := Numeral.decimal value
  let digits := (written.reverse.dropWhile (· == '0')).reverse
  (digits, exponent + written.length)

end Provision.Magnitude

namespace Provision.Double

/-- How the digits of a number are laid out. With the decimal point at `p`, so that the first
digit counts for `10 ^ (p - 1)`, the plain notation serves for `p` from `plainFrom` to
`plainTo`. -/
structure Layout where
  plainFrom : Int
  plainTo : Int

def layout : Layout := ⟨-4, 16⟩

/-- Plain notation: always with a decimal point and a digit on either side of it. -/
def plain (digits : List Char) (point : Int) : List Char :=
  if point ≤ 0 then '0' :: '.' :: List.replicate (-point).toNat '0' ++ digits
  else if digits.length ≤ point.toNat then
    digits ++ List.replicate (point.toNat - digits.length) '0' ++ ['.', '0']
  else digits.take point.toNat ++ '.' :: digits.drop point.toNat

/-- Scientific notation: one digit before the decimal point, and a signed exponent. -/
def scientific (digits : List Char) (point : Int) : List Char :=
  let exponent := point - 1
  let fraction := match digits.drop 1 with
    | [] => []
    | rest => '.' :: rest
  let sign := if exponent < 0 then '-' else '+'
  digits.take 1 ++ fraction ++ ['e', sign] ++ Numeral.decimal exponent.natAbs

def write (d : Double) : List Char :=
  let sign := if d.negative then ['-'] else []
  if d.magnitude.isZero then sign ++ ['0', '.', '0']
  else
    let (digits, point) := d.magnitude.shortest
    if layout.plainFrom ≤ point ∧ point ≤ layout.plainTo then sign ++ plain digits point
    else sign ++ scientific digits point

end Provision.Double
