import Mathlib.Algebra.Group.Nat.Defs
import Provision.Json.Literal
import Provision.Numeral.Digits
import Provision.Proofs.Encoding

/-! Natural numbers in decimal, read back.

`IsDecimal` builds the digits of a number from the first one on: none comes after a leading
zero, and a reader with room for the number gets it back from them, `takeWhole_decimal`. -/
namespace Provision

namespace Numeral

theorem writeUpTo_fuel {base value fuel other : Nat} (two : 2 ≤ base) (h : value < fuel)
    (ho : value < other) : writeUpTo base fuel value = writeUpTo base other value := by
  induction fuel generalizing value other with
  | zero => exact absurd h (Nat.not_lt_zero _)
  | succ fuel ih =>
    cases other with
    | zero => exact absurd ho (Nat.not_lt_zero _)
    | succ other =>
      rw [writeUpTo, writeUpTo]
      split
      · rfl
      · have hless : value / base < value := Nat.div_lt_self (by omega) two
        rw [ih (show value / base < fuel by omega) (show value / base < other by omega)]

theorem write_of_lt {base value : Nat} (h : value < base) :
    write base value = [digitChar value] := by
  rw [write, writeUpTo, if_pos h]

theorem write_of_le {base value : Nat} (two : 2 ≤ base) (h : base ≤ value) :
    write base value = write base (value / base) ++ [digitChar (value % base)] := by
  have hless : value / base < value := Nat.div_lt_self (by omega) two
  have hfuel : writeUpTo base value (value / base) =
      writeUpTo base (value / base + 1) (value / base) :=
    writeUpTo_fuel two hless (Nat.lt_succ_self _)
  rw [write, writeUpTo, if_neg (Nat.not_lt.mpr h), write, hfuel]

theorem decimal_of_lt {value : Nat} (h : value < 10) : decimal value = [digitChar value] :=
  write_of_lt h

theorem decimal_of_le {value : Nat} (h : 10 ≤ value) :
    decimal value = decimal (value / 10) ++ [digitChar (value % 10)] :=
  write_of_le (by decide) h

/-- The digits of a number: one, or one more than those of a number that is not zero. -/
inductive IsDecimal : Nat → List Char → Prop
  | one {digit : Nat} : digit < 10 → IsDecimal digit [digitChar digit]
  | more {value digit : Nat} {digits : List Char} : 0 < value → IsDecimal value digits →
    digit < 10 → IsDecimal (value * 10 + digit) (digits ++ [digitChar digit])

theorem isDecimal_decimal (value : Nat) : IsDecimal value (decimal value) := by
  induction value using Nat.strongRecOn with
  | ind value ih =>
    rcases Nat.lt_or_ge value 10 with h | h
    · rw [decimal_of_lt h]
      exact .one h
    · have hmore := IsDecimal.more (by omega) (ih (value / 10) (by omega))
        (Nat.mod_lt value (by decide))
      rw [Nat.div_add_mod' value 10] at hmore
      rw [decimal_of_le h]
      exact hmore

/-- One of the characters from `0` to `9`. -/
def IsDigit (c : Char) : Prop := ∃ digit < 10, c = digitChar digit

namespace IsDecimal

variable {value : Nat} {digits : List Char}

theorem isDigit (h : IsDecimal value digits) : ∀ c ∈ digits, IsDigit c := by
  induction h with
  | @one digit hdigit =>
    intro c hc
    exact ⟨digit, hdigit, List.mem_singleton.mp hc⟩
  | @more value digit digits _ _ hdigit ih =>
    intro c hc
    rcases List.mem_append.mp hc with hc | hc
    · exact ih c hc
    · exact ⟨digit, hdigit, List.mem_singleton.mp hc⟩

theorem ne_nil (h : IsDecimal value digits) : digits ≠ [] := by
  cases h <;> simp

/-- The first digit is no zero, but for zero itself. -/
theorem head (h : IsDecimal value digits) : ∃ first rest, digits = digitChar first :: rest ∧
    first < 10 ∧ (first = 0 → value = 0 ∧ rest = []) := by
  induction h with
  | @one digit hdigit => exact ⟨digit, [], rfl, hdigit, fun hzero => ⟨hzero, rfl⟩⟩
  | @more value digit digits hvalue _ hdigit ih =>
    obtain ⟨first, rest, rfl, hfirst, hzero⟩ := ih
    refine ⟨first, rest ++ [digitChar digit], rfl, hfirst, fun hf => ?_⟩
    obtain ⟨rfl, -⟩ := hzero hf
    exact absurd hvalue (Nat.lt_irrefl 0)

/-- The number of digits tells the size of a number. -/
theorem lt_pow (h : IsDecimal value digits) : value < 10 ^ digits.length := by
  induction h with
  | one hdigit => exact hdigit
  | more _ _ hdigit ih =>
    rw [List.length_append, List.length_singleton, Nat.pow_succ]
    omega

theorem pow_le (h : IsDecimal value digits) (hpos : 0 < value) :
    10 ^ (digits.length - 1) ≤ value := by
  induction h with
  | one => exact hpos
  | @more value digit digits hvalue hdigits _ ih =>
    have hlength := List.length_pos_iff.mpr hdigits.ne_nil
    obtain ⟨length, hlength⟩ : ∃ length, digits.length = length + 1 :=
      ⟨digits.length - 1, by omega⟩
    have hless := ih hvalue
    rw [hlength, Nat.add_sub_cancel] at hless
    rw [List.length_append, List.length_singleton, Nat.add_sub_cancel, hlength, Nat.pow_succ]
    omega

end IsDecimal
end Numeral

namespace Json

/-! ### Reading the digits -/

theorem isDigit_digitChar : ∀ digit < 10, (Numeral.digitChar digit).toNat < 0x80 ∧
    isDigit (Numeral.digitChar digit).toUInt8 = true ∧
      digitOf (Numeral.digitChar digit).toUInt8 = digit := by
  decide

theorem takeWhole_append (significand dropped : Nat) (front rest : Bytes) :
    takeWhole significand dropped (front ++ rest) =
      takeWhole (takeWhole significand dropped front).1 (takeWhole significand dropped front).2
        rest := by
  induction front generalizing significand dropped with
  | nil => rfl
  | cons b front ih =>
    rw [List.cons_append, takeWhole, takeWhole]
    split <;> exact ih _ _

/-- Nothing is dropped from a number that there is room for. -/
theorem takeWhole_decimal {value : Nat} {digits : List Char} (h : Numeral.IsDecimal value digits)
    (room : value < significandBound) :
    takeWhole 0 0 (Text.Utf8.ofChars digits) = (value, 0) := by
  induction h with
  | @one digit hdigit =>
    obtain ⟨hascii, -, hvalue⟩ := isDigit_digitChar digit hdigit
    rw [Text.Utf8.ofChars_cons_ascii hascii, Text.Utf8.ofChars_nil, takeWhole, hvalue]
    simp [takeWhole, room]
  | @more value digit digits hvalue _ hdigit ih =>
    obtain ⟨hascii, -, hlast⟩ := isDigit_digitChar digit hdigit
    rw [Text.Utf8.ofChars_append, takeWhole_append, ih (by omega),
      Text.Utf8.ofChars_cons_ascii hascii, Text.Utf8.ofChars_nil, takeWhole, hlast]
    simp [takeWhole, room]

end Json
end Provision
