/-! Numbers written with digits in some base, and numbers of a limited size read back.

`write` uses the fewest digits. `read` accepts one leading plus sign, takes the digits
from left to right, and reports the first problem it meets: a character that is no digit
of the base, or a value that has reached the limit. -/
namespace Provision.Numeral

/-- The digits run from `0` to `9` and then from `a` to `z`. -/
def digitChar (value : Nat) : Char :=
  if value < 10 then Char.ofNat ('0'.toNat + value) else Char.ofNat ('a'.toNat + (value - 10))

/-- The value of a digit of the base, in either case. -/
def digitValue? (base : Nat) (c : Char) : Option Nat :=
  let value :=
    if '0' ≤ c ∧ c ≤ '9' then some (c.toNat - '0'.toNat)
    else if 'a' ≤ c ∧ c ≤ 'z' then some (c.toNat - 'a'.toNat + 10)
    else if 'A' ≤ c ∧ c ≤ 'Z' then some (c.toNat - 'A'.toNat + 10)
    else none
  value.filter (· < base)

/-! ### Writing -/

/-- At most `fuel` digits. -/
def writeUpTo (base : Nat) : (fuel : Nat) → Nat → List Char
  | 0, _ => []
  | fuel + 1, value =>
    if value < base then [digitChar value]
    else writeUpTo base fuel (value / base) ++ [digitChar (value % base)]

def write (base value : Nat) : List Char :=
  writeUpTo base (value + 1) value

/-! ### Reading -/

inductive Problem
  | empty
  | invalidDigit
  | tooLarge
deriving DecidableEq, Repr

def Problem.message : Problem → String
  | .empty => "cannot parse integer from empty string"
  | .invalidDigit => "invalid digit found in string"
  | .tooLarge => "number too large to fit in target type"

/-- Reads on from the value of the digits before. -/
def readDigits (base limit : Nat) : Nat → List Char → Except Problem Nat
  | value, [] => .ok value
  | value, c :: rest =>
    match digitValue? base c with
    | none => .error .invalidDigit
    | some digit =>
      if limit ≤ value * base + digit then .error .tooLarge
      else readDigits base limit (value * base + digit) rest

/-- Reads a number below the limit. -/
def read (base limit : Nat) : List Char → Except Problem Nat
  | [] => .error .empty
  | ['+'] => .error .invalidDigit
  | '+' :: digits => readDigits base limit 0 digits
  | digits => readDigits base limit 0 digits

/-- Reads a decimal number of 64 bits. -/
def readUInt64 (text : List Char) : Except Problem UInt64 :=
  (read 10 UInt64.size text).map UInt64.ofNat

/-- A decimal number. -/
def decimal (value : Nat) : List Char :=
  write 10 value

end Provision.Numeral
