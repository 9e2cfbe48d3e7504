import Mathlib.Algebra.Order.Field.Power
import Mathlib.Data.Rat.Cast.Order
import Mathlib.Tactic.FieldSimp
import Mathlib.Tactic.Linarith
import Mathlib.Tactic.NormNum
import Mathlib.Tactic.Positivity
import Mathlib.Tactic.Ring
import Provision.Numeral.Double

/-! How far a rounded quotient is from the exact one.

The unit of a quotient is the one in which its mantissa has full length, unless that is below the
least unit, `unitOf_spec`. Rounding in that unit is off by half of it at most, so a result is off
by one part in `2 ^ 53`, and there is one as long as the quotient lies below `roundingBound`. -/
namespace Provision.Magnitude

/-- The number that a magnitude is. -/
def toRat (m : Magnitude) : ℚ := m.mantissa * 2 ^ m.exponent

/-- A magnitude of double precision. -/
structure Valid (m : Magnitude) : Prop where
  mantissa : m.mantissa < mantissaBound
  least : leastExponent ≤ m.exponent
  most : m.exponent ≤ mostExponent

/-- What lies below rounds to a magnitude: half a unit more than the largest one. -/
def roundingBound : ℚ := (2 ^ 54 - 1) * 2 ^ (970 : Int)

/-! ### Fractions of natural numbers -/

theorem zpow_eq_div (base : ℚ) (exponent : Int) :
    base ^ exponent = base ^ exponent.toNat / base ^ (-exponent).toNat := by
  rcases Int.le_total 0 exponent with hnonneg | hnonpos
  · have hzero : (-exponent).toNat = 0 := by omega
    conv_lhs => rw [← Int.toNat_of_nonneg hnonneg]
    rw [hzero, zpow_natCast, pow_zero, div_one]
  · have hzero : exponent.toNat = 0 := by omega
    have hexponent : exponent = -((-exponent).toNat : Int) := by omega
    conv_lhs => rw [hexponent]
    rw [hzero, zpow_neg, zpow_natCast, pow_zero, one_div]

theorem numerator_eq (m : Magnitude) : m.numerator = m.mantissa * 2 ^ m.exponent.toNat :=
  Nat.shiftLeft_eq ..

theorem denominator_eq (m : Magnitude) : m.denominator = 2 ^ (-m.exponent).toNat :=
  (Nat.shiftLeft_eq ..).trans (Nat.one_mul _)

theorem inUnits_eq (numerator denominator : Nat) (exponent : Int) :
    inUnits numerator denominator exponent =
      (numerator * 2 ^ (-exponent).toNat, denominator * 2 ^ exponent.toNat) := by
  rw [inUnits, Nat.shiftLeft_eq, Nat.shiftLeft_eq]

theorem numerator_div_denominator (m : Magnitude) :
    (m.numerator : ℚ) / m.denominator = m.toRat := by
  rw [toRat, zpow_eq_div 2, numerator_eq, denominator_eq]
  push_cast
  ring

theorem numerator_pos {m : Magnitude} (h : 0 < m.mantissa) : 0 < m.numerator := by
  rw [numerator_eq]
  exact Nat.mul_pos h (Nat.two_pow_pos _)

theorem denominator_pos (m : Magnitude) : 0 < m.denominator := by
  rw [denominator_eq]
  exact Nat.two_pow_pos _

theorem inUnits_div (numerator denominator : Nat) (exponent : Int) :
    ((inUnits numerator denominator exponent).1 : ℚ) / (inUnits numerator denominator exponent).2 =
      numerator / denominator / 2 ^ exponent := by
  rw [zpow_eq_div 2 exponent, inUnits_eq]
  push_cast
  rw [div_div_eq_mul_div, div_mul_eq_mul_div, div_div]

theorem inUnits_pos {denominator : Nat} (h : 0 < denominator) (numerator : Nat) (exponent : Int) :
    0 < (inUnits numerator denominator exponent).2 := by
  rw [inUnits_eq]
  exact Nat.mul_pos h (Nat.two_pow_pos _)

/-! ### Rounding -/

/-- Rounding is off by a half at most. -/
theorem roundQuotient_spec {denominator : Nat} (h : 0 < denominator) (numerator : Nat) :
    |(roundQuotient numerator denominator : ℚ) - numerator / denominator| ≤ 1 / 2 := by
  have hdivide := Nat.div_add_mod numerator denominator
  have hrest := Nat.mod_lt numerator h
  have hbounds : 2 * roundQuotient numerator denominator * denominator ≤
      2 * numerator + denominator ∧
        2 * numerator ≤ 2 * roundQuotient numerator denominator * denominator + denominator := by
    unfold roundQuotient
    dsimp only
    generalize numerator / denominator = quotient at *
    generalize numerator % denominator = rest at *
    subst hdivide
    split
    · have hhalf : denominator ≤ 2 * rest := by omega
      constructor <;> linarith
    · have hhalf : 2 * rest ≤ denominator := by omega
      constructor <;> linarith
  have hpos : (0 : ℚ) < denominator := by exact_mod_cast h
  obtain ⟨hupper, hlower⟩ := hbounds
  have hupper' : (2 : ℚ) * roundQuotient numerator denominator * denominator ≤
      2 * numerator + denominator := by exact_mod_cast hupper
  have hlower' : (2 : ℚ) * numerator ≤
      2 * roundQuotient numerator denominator * denominator + denominator := by
    exact_mod_cast hlower
  rw [abs_le]
  constructor
  · rw [neg_le_sub_iff_le_add, div_le_iff₀ hpos]
    linarith
  · rw [sub_le_iff_le_add, ← sub_le_iff_le_add', le_div_iff₀ hpos]
    linarith

/-! ### The unit of a quotient -/

theorem two_zpow_pos (exponent : Int) : (0 : ℚ) < 2 ^ exponent :=
  zpow_pos two_pos exponent

/-- Of two natural numbers the quotient lies near the quotient of their leading bits. -/
theorem quotient_bounds {numerator denominator : Nat} (hnumerator : 0 < numerator)
    (hdenominator : 0 < denominator) :
    (2 : ℚ) ^ ((numerator.log2 : Int) - denominator.log2 - 1) < numerator / denominator ∧
      (numerator / denominator : ℚ) < 2 ^ ((numerator.log2 : Int) - denominator.log2 + 1) := by
  have hn : (2 : ℚ) ^ numerator.log2 ≤ numerator := by
    exact_mod_cast Nat.log2_self_le hnumerator.ne'
  have hn' : (numerator : ℚ) < 2 ^ (numerator.log2 + 1) := by
    exact_mod_cast Nat.lt_log2_self
  have hd : (2 : ℚ) ^ denominator.log2 ≤ denominator := by
    exact_mod_cast Nat.log2_self_le hdenominator.ne'
  have hd' : (denominator : ℚ) < 2 ^ (denominator.log2 + 1) := by
    exact_mod_cast Nat.lt_log2_self
  have hpos : (0 : ℚ) < denominator := by exact_mod_cast hdenominator
  constructor
  · rw [lt_div_iff₀ hpos]
    calc (2 : ℚ) ^ ((numerator.log2 : Int) - denominator.log2 - 1) * denominator
        < 2 ^ ((numerator.log2 : Int) - denominator.log2 - 1) * 2 ^ (denominator.log2 + 1) :=
          mul_lt_mul_of_pos_left hd' (two_zpow_pos _)
      _ = 2 ^ numerator.log2 := by
          rw [← zpow_natCast, ← zpow_natCast, ← zpow_add₀ two_ne_zero]
          congr 1
          omega
      _ ≤ numerator := hn
  · rw [div_lt_iff₀ hpos]
    calc (numerator : ℚ) < 2 ^ (numerator.log2 + 1) := hn'
      _ = 2 ^ ((numerator.log2 : Int) - denominator.log2 + 1) * 2 ^ denominator.log2 := by
          rw [← zpow_natCast, ← zpow_natCast, ← zpow_add₀ two_ne_zero]
          congr 1
          omega
      _ ≤ 2 ^ ((numerator.log2 : Int) - denominator.log2 + 1) * denominator :=
          mul_le_mul_of_nonneg_left hd (two_zpow_pos _).le

/-- In its unit a quotient is below the bound of mantissas, and not below half of it, unless the
unit is the least one. -/
structure InUnit (quotient : ℚ) (exponent : Int) : Prop where
  least : leastExponent ≤ exponent
  below : quotient < 2 ^ 53 * 2 ^ exponent
  above : exponent = leastExponent ∨ 2 ^ 52 * 2 ^ exponent ≤ quotient

/-- A quotient that has a mantissa of full length in some unit. -/
theorem InUnit.max {quotient : ℚ} {exponent : Int} (hbelow : quotient < 2 ^ 53 * 2 ^ exponent)
    (habove : 2 ^ 52 * 2 ^ exponent ≤ quotient) : InUnit quotient (max exponent leastExponent) := by
  rcases Int.le_total leastExponent exponent with h | h
  · rw [max_eq_left h]
    exact ⟨h, hbelow, .inr habove⟩
  · rw [max_eq_right h]
    refine ⟨le_refl _, hbelow.trans_le ?_, .inl rfl⟩
    exact mul_le_mul_of_nonneg_left (zpow_le_zpow_right₀ one_le_two h) (by positivity)

theorem unitOf_spec {numerator denominator : Nat} (hnumerator : 0 < numerator)
    (hdenominator : 0 < denominator) :
    InUnit (numerator / denominator) (unitOf numerator denominator) := by
  obtain ⟨hlower, hupper⟩ := quotient_bounds hnumerator hdenominator
  have hfraction := inUnits_div numerator denominator
    ((numerator.log2 : Int) - denominator.log2 - 52)
  have hpos := inUnits_pos hdenominator numerator
    ((numerator.log2 : Int) - denominator.log2 - 52)
  unfold unitOf
  dsimp only
  generalize hguess : (numerator.log2 : Int) - denominator.log2 - 52 = guess at *
  rw [show (numerator.log2 : Int) - denominator.log2 - 1 = 51 + guess by omega,
    zpow_add₀ two_ne_zero] at hlower
  rw [show (numerator.log2 : Int) - denominator.log2 + 1 = 53 + guess by omega,
    zpow_add₀ two_ne_zero] at hupper
  generalize inUnits numerator denominator guess = fraction at *
  generalize (numerator : ℚ) / denominator = quotient at *
  obtain ⟨n, d⟩ := fraction
  have hguessPos := two_zpow_pos guess
  have hd : (0 : ℚ) < d := by exact_mod_cast hpos
  have hscaled : quotient = n / d * 2 ^ guess := by
    rw [hfraction, div_mul_cancel₀ _ hguessPos.ne']
  -- The guess is too large by one if the mantissa has no full length yet.
  split
  · next hshort =>
    have hshort' : (n / d : ℚ) < 2 ^ 52 := by
      rw [div_lt_iff₀ hd]
      exact_mod_cast (Nat.div_lt_iff_lt_mul hpos).mp hshort
    have hhalf : (2 : ℚ) ^ (guess - 1) = 2 ^ guess / 2 := zpow_sub_one₀ two_ne_zero guess
    refine .max ?_ ?_
    · rw [hhalf, hscaled]
      nlinarith
    · rw [hhalf]
      norm_num at hlower ⊢
      linarith
  · next hlong =>
    have hlong' : (2 : ℚ) ^ 52 ≤ n / d := by
      rw [le_div_iff₀ hd]
      exact_mod_cast (Nat.le_div_iff_mul_le hpos).mp (Nat.not_lt.mp hlong)
    refine .max ?_ ?_
    · exact_mod_cast hupper
    · rw [hscaled]
      exact mul_le_mul_of_nonneg_right hlong' hguessPos.le

/-! ### A rounded quotient -/

/-- The magnitude with a mantissa in a unit, or in the next one if the mantissa has reached the
bound. -/
def carried (mantissa : Nat) (exponent : Int) : Magnitude :=
  if mantissa = mantissaBound then ⟨mantissaBound / 2, exponent + 1⟩ else ⟨mantissa, exponent⟩

theorem toRat_carried (mantissa : Nat) (exponent : Int) :
    (carried mantissa exponent).toRat = mantissa * 2 ^ exponent := by
  rw [carried]
  split
  · next h =>
    subst h
    rw [toRat, zpow_add_one₀ two_ne_zero, mantissaBound]
    norm_num
    ring
  · rfl

theorem valid_carried {mantissa : Nat} {exponent : Int} (hmantissa : mantissa ≤ mantissaBound)
    (hleast : leastExponent ≤ exponent)
    (hmost : (carried mantissa exponent).exponent ≤ mostExponent) :
    (carried mantissa exponent).Valid := by
  rw [carried] at hmost ⊢
  split at hmost
  · next h =>
    rw [if_pos h]
    exact ⟨Nat.div_lt_self (by decide) (by decide), by dsimp only; omega, hmost⟩
  · next h =>
    rw [if_neg h]
    exact ⟨by dsimp only; omega, hleast, hmost⟩

theorem valid_zero : zero.Valid := ⟨by decide, by decide, by decide⟩

section Quotient

variable {numerator denominator : Nat}

theorem ofQuotient_spec (hnumerator : 0 < numerator) (hdenominator : 0 < denominator) :
    ∃ exponent mantissa, InUnit (numerator / denominator) exponent ∧ mantissa ≤ mantissaBound ∧
      |(mantissa : ℚ) - numerator / denominator / 2 ^ exponent| ≤ 1 / 2 ∧
        ofQuotient numerator denominator =
          if (carried mantissa exponent).exponent > mostExponent then none
          else some (carried mantissa exponent) := by
  have hunit := unitOf_spec hnumerator hdenominator
  have hround := roundQuotient_spec
    (inUnits_pos hdenominator numerator (unitOf numerator denominator))
    (inUnits numerator denominator (unitOf numerator denominator)).1
  rw [inUnits_div] at hround
  refine ⟨_, _, hunit, ?_, hround, if_neg hnumerator.ne'⟩
  have hscaled : (numerator / denominator : ℚ) / 2 ^ unitOf numerator denominator < 2 ^ 53 := by
    rw [div_lt_iff₀ (two_zpow_pos _)]
    exact_mod_cast hunit.below
  have hupper := (abs_le.mp hround).2
  have hless : (roundQuotient (inUnits numerator denominator (unitOf numerator denominator)).1
      (inUnits numerator denominator (unitOf numerator denominator)).2 : ℚ) <
        (mantissaBound + 1 : Nat) := by
    rw [mantissaBound]
    push_cast
    linarith
  exact Nat.lt_succ_iff.mp (by exact_mod_cast hless)

theorem ofQuotient_valid {m : Magnitude} (hdenominator : 0 < denominator)
    (h : ofQuotient numerator denominator = some m) : m.Valid := by
  rcases Nat.eq_zero_or_pos numerator with rfl | hnumerator
  · cases h
    exact valid_zero
  · obtain ⟨exponent, mantissa, hunit, hmantissa, -, heq⟩ := ofQuotient_spec hnumerator hdenominator
    rw [h] at heq
    split at heq
    · cases heq
    · next hmost =>
      cases heq
      exact valid_carried hmantissa hunit.least (Int.not_lt.mp hmost)

/-- A quotient below the bound is not too large. -/
theorem exists_ofQuotient (hdenominator : 0 < denominator)
    (h : (numerator / denominator : ℚ) < roundingBound) :
    ∃ m, ofQuotient numerator denominator = some m := by
  rcases Nat.eq_zero_or_pos numerator with rfl | hnumerator
  · exact ⟨zero, rfl⟩
  obtain ⟨exponent, mantissa, hunit, -, hround, heq⟩ := ofQuotient_spec hnumerator hdenominator
  refine ⟨carried mantissa exponent, heq.trans (if_neg (Int.not_lt.mpr ?_))⟩
  have hexponent : exponent ≤ mostExponent := by
    by_contra hlarge
    rcases hunit.above with hleast | habove
    · rw [hleast] at hlarge
      exact hlarge (by decide)
    · have hpower : (2 : ℚ) ^ ((970 : Int) + 2) ≤ 2 ^ exponent :=
        zpow_le_zpow_right₀ one_le_two (by unfold mostExponent at hlarge; omega)
      have hunits := two_zpow_pos 970
      rw [zpow_add₀ two_ne_zero] at hpower
      rw [roundingBound] at h
      generalize (2 : ℚ) ^ (970 : Int) = units at *
      norm_num at hpower h habove
      linarith
  rw [carried]
  split
  · next hfull =>
    refine Int.add_one_le_iff.mpr (lt_of_le_of_ne hexponent fun hmost => ?_)
    subst hfull hmost
    have hlower := (abs_le.mp hround).2
    have hpower := two_zpow_pos mostExponent
    have hscaled : (numerator / denominator : ℚ) / 2 ^ mostExponent < 2 ^ 53 - 1 / 2 := by
      rw [div_lt_iff₀ hpower]
      refine h.trans_eq ?_
      rw [roundingBound, show mostExponent = 970 + 1 from rfl, zpow_add_one₀ two_ne_zero]
      ring
    rw [mantissaBound] at hlower
    push_cast at hlower
    linarith
  · exact hexponent

/-- Above one a rounded quotient is off by one part in `2 ^ 53`. -/
theorem ofQuotient_near {m : Magnitude} (hdenominator : 0 < denominator)
    (hone : 1 ≤ (numerator / denominator : ℚ))
    (h : ofQuotient numerator denominator = some m) :
    |m.toRat - numerator / denominator| ≤ numerator / denominator / 2 ^ 53 := by
  have hnumerator : 0 < numerator := by
    refine Nat.pos_of_ne_zero fun hzero => ?_
    subst hzero
    norm_num at hone
  obtain ⟨exponent, mantissa, hunit, -, hround, heq⟩ := ofQuotient_spec hnumerator hdenominator
  rw [h] at heq
  split at heq
  · cases heq
  cases heq
  rw [toRat_carried]
  have hpower := two_zpow_pos exponent
  have habove : 2 ^ 52 * 2 ^ exponent ≤ (numerator / denominator : ℚ) := by
    rcases hunit.above with hleast | habove
    · have hsmall : (2 : ℚ) ^ 53 * 2 ^ leastExponent ≤ 1 := by
        rw [← zpow_natCast, ← zpow_add₀ two_ne_zero]
        exact zpow_le_one_of_nonpos₀ one_le_two (by decide)
      have hbelow := hunit.below
      rw [hleast] at hbelow
      linarith
    · exact habove
  have hscaled : |(mantissa : ℚ) * 2 ^ exponent - numerator / denominator| ≤ 2 ^ exponent / 2 := by
    have hfactor : (mantissa : ℚ) * 2 ^ exponent - numerator / denominator =
        (mantissa - numerator / denominator / 2 ^ exponent) * 2 ^ exponent := by
      rw [sub_mul, div_mul_cancel₀ _ hpower.ne']
    rw [hfactor, abs_mul, abs_of_pos hpower]
    linarith [mul_le_mul_of_nonneg_right hround hpower.le]
  refine hscaled.trans ?_
  rw [div_le_div_iff₀ two_pos (by positivity)]
  norm_num at habove ⊢
  linarith

end Quotient

/-! ### Products and quotients of magnitudes -/

theorem times_div (a b : Magnitude) :
    (((a.numerator * b.numerator : Nat) : ℚ) / (a.denominator * b.denominator : Nat)) =
      a.toRat * b.toRat := by
  push_cast
  rw [mul_div_mul_comm, numerator_div_denominator, numerator_div_denominator]

theorem dividedBy_div (a b : Magnitude) :
    (((a.numerator * b.denominator : Nat) : ℚ) / (a.denominator * b.numerator : Nat)) =
      a.toRat / b.toRat := by
  push_cast
  rw [mul_div_mul_comm, numerator_div_denominator, ← numerator_div_denominator b, ← inv_div,
    ← div_eq_mul_inv, numerator_div_denominator]

theorem toRat_nonneg (m : Magnitude) : 0 ≤ m.toRat :=
  mul_nonneg (Nat.cast_nonneg _) (two_zpow_pos _).le

/-- Every magnitude is below the bound. -/
theorem Valid.toRat_lt {m : Magnitude} (h : m.Valid) : m.toRat < roundingBound := by
  have hmantissa : (m.mantissa : ℚ) ≤ 2 ^ 53 - 1 := by
    have hbound := h.mantissa
    rw [mantissaBound] at hbound
    rw [le_sub_iff_add_le]
    exact_mod_cast hbound
  have hpower : (2 : ℚ) ^ m.exponent ≤ 2 ^ ((970 : Int) + 1) :=
    zpow_le_zpow_right₀ one_le_two h.most
  rw [zpow_add_one₀ two_ne_zero] at hpower
  have hunits := two_zpow_pos 970
  calc m.toRat ≤ (2 ^ 53 - 1) * (2 ^ (970 : Int) * 2) :=
        mul_le_mul hmantissa hpower (two_zpow_pos _).le (by norm_num)
    _ < roundingBound := by
        rw [roundingBound]
        generalize (2 : ℚ) ^ (970 : Int) = units at *
        linarith

theorem pow_ten_lt_roundingBound {exponent : Nat} (h : exponent ≤ mostDecimalExponent) :
    (10 : ℚ) ^ exponent < roundingBound := by
  have hpower : (10 : ℚ) ^ exponent ≤ 10 ^ 308 := pow_le_pow_right₀ (by norm_num) h
  -- The powers are too large to be computed but by the kernel.
  have hcast : ∀ a b c d : Nat, a ^ b < c * 2 ^ d → (a : ℚ) ^ b < c * 2 ^ (d : Int) := by
    intro a b c d hless
    rw [zpow_natCast]
    exact_mod_cast hless
  have hlarge := hcast 10 308 18014398509481983 970 (by decide +kernel)
  refine hpower.trans_lt ?_
  rw [roundingBound, show (2 : ℚ) ^ 54 - 1 = 18014398509481983 by norm_num]
  simpa only [Nat.cast_ofNat] using hlarge

theorem roundingBound_lt_pow_ten : roundingBound < 10 ^ (mostDecimalExponent + 1) := by
  have hcast : ∀ a b c d : Nat, c * 2 ^ d < a ^ b → (c : ℚ) * 2 ^ (d : Int) < a ^ b := by
    intro a b c d hless
    rw [zpow_natCast]
    exact_mod_cast hless
  have hlarge := hcast 10 (mostDecimalExponent + 1) 18014398509481983 970 (by decide +kernel)
  rw [roundingBound, show (2 : ℚ) ^ 54 - 1 = 18014398509481983 by norm_num]
  simpa only [Nat.cast_ofNat] using hlarge

/-- A power of ten as a magnitude. -/
theorem exists_power {exponent : Nat} (h : exponent ≤ mostDecimalExponent) :
    ∃ power, ofNat (Nat.pow 10 exponent) = some power ∧ power.Valid ∧
      |power.toRat - 10 ^ exponent| ≤ 10 ^ exponent / 2 ^ 53 := by
  have hdiv : (((10 ^ exponent : Nat) : ℚ) / (1 : Nat)) = 10 ^ exponent := by
    push_cast
    exact div_one _
  obtain ⟨power, hpower⟩ := exists_ofQuotient Nat.one_pos
    (hdiv.trans_lt (pow_ten_lt_roundingBound h))
  have hone : 1 ≤ (((10 ^ exponent : Nat) : ℚ) / (1 : Nat)) := by
    rw [hdiv]
    exact one_le_pow₀ (by norm_num)
  have hnear := ofQuotient_near Nat.one_pos hone hpower
  rw [hdiv] at hnear
  exact ⟨power, hpower, ofQuotient_valid Nat.one_pos hpower, hnear⟩

/-- The power of ten is not zero, and one or more if its exponent is not zero. -/
theorem power_pos {exponent : Nat} {power : Magnitude}
    (h : |power.toRat - 10 ^ exponent| ≤ 10 ^ exponent / 2 ^ 53) :
    0 < power.numerator ∧ (exponent ≠ 0 → 1 ≤ power.toRat) := by
  have hlower := (abs_le.mp h).1
  have hone : (1 : ℚ) ≤ 10 ^ exponent := one_le_pow₀ (by norm_num)
  constructor
  · refine Nat.pos_of_ne_zero fun hzero => ?_
    have hrat : power.toRat = 0 := by
      rw [← numerator_div_denominator, hzero, Nat.cast_zero, zero_div]
    rw [hrat] at hlower
    norm_num at hlower
    linarith
  · intro hne
    have hten : (10 : ℚ) ^ 1 ≤ 10 ^ exponent :=
      pow_le_pow_right₀ (by norm_num) (Nat.one_le_iff_ne_zero.mpr hne)
    norm_num at hlower hten
    linarith

/-! ### Scaling by a power of ten -/

theorem scale_valid {steps : Nat} {m result : Magnitude} (hm : m.Valid) {exponent : Int}
    (h : scale steps m exponent = some result) : result.Valid := by
  induction steps generalizing m exponent with
  | zero =>
    cases h
    exact valid_zero
  | succ steps ih =>
    rw [scale] at h
    split at h
    · next hsmall =>
      obtain ⟨power, hpower, -, hnear⟩ := exists_power hsmall
      rw [hpower] at h
      dsimp only [Option.bind_eq_bind, Option.bind_some] at h
      split at h
      · exact ofQuotient_valid (Nat.mul_pos m.denominator_pos power.denominator_pos) h
      · exact ofQuotient_valid (Nat.mul_pos m.denominator_pos (power_pos hnear).1) h
    split at h
    · cases h
      exact hm
    split at h
    · cases h
    · obtain ⟨power, hpower, -, hnear⟩ := exists_power (le_refl mostDecimalExponent)
      obtain ⟨between, hbetween, h⟩ : ∃ between, m.dividedBy power = some between ∧
          scale steps between (exponent + mostDecimalExponent) = some result := by
        rw [hpower] at h
        exact Option.bind_eq_some_iff.mp h
      exact ih (ofQuotient_valid (Nat.mul_pos m.denominator_pos (power_pos hnear).1) hbetween) h

/-- Whatever is read is of double precision. -/
theorem ofDecimal_valid {significand : Nat} {exponent : Int} {m : Magnitude}
    (h : ofDecimal significand exponent = some m) : m.Valid := by
  obtain ⟨start, hstart, h⟩ := Option.bind_eq_some_iff.mp h
  exact scale_valid (ofQuotient_valid Nat.one_pos hstart) h

/-- A division by a power of ten does not lead out of the range. -/
theorem exists_dividedBy {m power : Magnitude} {exponent : Nat} (hm : m.Valid)
    (hne : exponent ≠ 0) (hnear : |power.toRat - 10 ^ exponent| ≤ 10 ^ exponent / 2 ^ 53) :
    ∃ result, m.dividedBy power = some result ∧ result.Valid := by
  obtain ⟨hnumerator, hone⟩ := power_pos hnear
  have hdenominator := Nat.mul_pos m.denominator_pos hnumerator
  have hless : m.toRat / power.toRat < roundingBound :=
    (div_le_self m.toRat_nonneg (hone hne)).trans_lt hm.toRat_lt
  rw [← dividedBy_div] at hless
  obtain ⟨result, hresult⟩ := exists_ofQuotient hdenominator hless
  exact ⟨result, hresult, ofQuotient_valid hdenominator hresult⟩

theorem exists_scale_of_neg (steps : Nat) {m : Magnitude} (hm : m.Valid) {exponent : Int}
    (h : exponent < 0) : ∃ result, scale steps m exponent = some result := by
  induction steps generalizing m exponent with
  | zero => exact ⟨zero, rfl⟩
  | succ steps ih =>
    rw [scale]
    split
    · next hsmall =>
      obtain ⟨power, hpower, -, hnear⟩ := exists_power hsmall
      obtain ⟨result, hresult, -⟩ := exists_dividedBy hm (by omega) hnear
      rw [hpower]
      refine ⟨result, ?_⟩
      dsimp only [Option.bind_eq_bind, Option.bind_some]
      rw [if_neg (Int.not_le.mpr h), hresult]
    split
    · exact ⟨m, rfl⟩
    rw [if_neg (Int.not_le.mpr h)]
    obtain ⟨power, hpower, -, hnear⟩ := exists_power (le_refl mostDecimalExponent)
    obtain ⟨between, hbetween, hvalid⟩ := exists_dividedBy hm (by decide) hnear
    obtain ⟨result, hresult⟩ := ih hvalid (show exponent + mostDecimalExponent < 0 by omega)
    refine ⟨result, ?_⟩
    rw [hpower]
    dsimp only [Option.bind_eq_bind, Option.bind_some]
    rw [hbetween]
    exact hresult

/-- A significand of 64 bits as a magnitude. -/
theorem exists_significand {significand : Nat} (hpos : 0 < significand)
    (hroom : significand < 2 ^ 64) : ∃ m, ofNat significand = some m ∧ m.Valid ∧
      |m.toRat - significand| ≤ significand / 2 ^ 53 := by
  have hdiv : ((significand : ℚ) / (1 : Nat)) = significand := by
    rw [Nat.cast_one, div_one]
  have hless : ((significand : ℚ) / (1 : Nat)) < roundingBound := by
    have hpower : (2 : ℚ) ^ (11 : Int) ≤ 2 ^ (970 : Int) :=
      zpow_le_zpow_right₀ one_le_two (by decide)
    have hroom' : (significand : ℚ) < 2 ^ 64 := by exact_mod_cast hroom
    rw [hdiv, roundingBound]
    generalize (2 : ℚ) ^ (970 : Int) = units at *
    norm_num at hpower
    linarith
  have hone : 1 ≤ ((significand : ℚ) / (1 : Nat)) := by
    rw [hdiv]
    exact_mod_cast hpos
  obtain ⟨m, hm⟩ := exists_ofQuotient Nat.one_pos hless
  have hnear := ofQuotient_near Nat.one_pos hone hm
  rw [hdiv] at hnear
  exact ⟨m, hm, ofQuotient_valid Nat.one_pos hm, hnear⟩

/-- A decimal with some room below the bound is a magnitude. The room is for rounding the
significand and the power of ten before they are multiplied. -/
theorem exists_ofDecimal {significand : Nat} (hpos : 0 < significand)
    (hroom : significand < 2 ^ 64) {exponent : Int}
    (h : (significand : ℚ) * 10 ^ exponent * (1 + 1 / 2 ^ 53) ^ 2 < roundingBound) :
    ∃ m, ofDecimal significand exponent = some m := by
  obtain ⟨m, hm, hvalid, hnear⟩ := exists_significand hpos hroom
  rw [ofDecimal, hm]
  show ∃ result, scale 4 m exponent = some result
  rcases Int.lt_or_le exponent 0 with hneg | hnonneg
  · exact exists_scale_of_neg 4 hvalid hneg
  obtain ⟨places, rfl⟩ := Int.eq_ofNat_of_zero_le hnonneg
  rw [zpow_natCast] at h
  have hone : (1 : ℚ) ≤ significand := by exact_mod_cast hpos
  have hten : (0 : ℚ) < 10 ^ places := by positivity
  have hsmall : places ≤ mostDecimalExponent := by
    by_contra hlarge
    have hpower : (10 : ℚ) ^ (mostDecimalExponent + 1) ≤ 10 ^ places :=
      pow_le_pow_right₀ (by norm_num) (by omega)
    have hbound := roundingBound_lt_pow_ten
    nlinarith [mul_le_mul_of_nonneg_right hone hten.le]
  obtain ⟨power, hpower, -, hpowerNear⟩ := exists_power hsmall
  have hless : m.toRat * power.toRat < roundingBound := by
    have hupper := (abs_le.mp hnear).2
    have hpowerUpper := (abs_le.mp hpowerNear).2
    refine lt_of_le_of_lt ?_ h
    calc m.toRat * power.toRat
        ≤ (significand * (1 + 1 / 2 ^ 53)) * (10 ^ places * (1 + 1 / 2 ^ 53)) :=
          mul_le_mul (by linarith) (by linarith) power.toRat_nonneg (by positivity)
      _ = significand * 10 ^ places * (1 + 1 / 2 ^ 53) ^ 2 := by ring
  rw [← times_div] at hless
  obtain ⟨result, hresult⟩ := exists_ofQuotient
    (Nat.mul_pos m.denominator_pos power.denominator_pos) hless
  refine ⟨result, ?_⟩
  rw [scale, if_pos (show (places : Int).natAbs ≤ mostDecimalExponent from hsmall)]
  rw [show (places : Int).natAbs = places from rfl, hpower]
  dsimp only [Option.bind_eq_bind, Option.bind_some]
  rw [if_pos hnonneg]
  exact hresult

end Provision.Magnitude
