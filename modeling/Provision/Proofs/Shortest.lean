import Provision.Numeral.Shortest
import Provision.Proofs.Decimals
import Provision.Proofs.Rounding

/-! The shortest decimal of a magnitude is found.

The reals that round to a magnitude reach over three quarters of its unit at least, and over a
whole unit unless its mantissa is the least one of full length. With 17 digits the points of the
decimal grid lie closer, `fine`, so one of the two next to the magnitude is among those reals:
`exists_firstGrid`. -/
namespace Provision.Magnitude

/-! ### Comparing with a point of the grid -/

theorem grid_cross (count : Nat) (exponent : Int) {fraction : Nat × Nat} (h : 0 < fraction.2) :
    (fraction.1 * 10 ^ (-exponent).toNat ≤ count * 10 ^ exponent.toNat * fraction.2 ↔
        (fraction.1 / fraction.2 : ℚ) ≤ count * 10 ^ exponent) ∧
      (count * 10 ^ exponent.toNat * fraction.2 ≤ fraction.1 * 10 ^ (-exponent).toNat ↔
        count * 10 ^ exponent ≤ (fraction.1 / fraction.2 : ℚ)) := by
  have hpos : (0 : ℚ) < fraction.2 := by exact_mod_cast h
  have hpower : (0 : ℚ) < 10 ^ (-exponent).toNat := by positivity
  rw [zpow_eq_div 10, mul_div_assoc', div_le_div_iff₀ hpos hpower, div_le_div_iff₀ hpower hpos]
  constructor <;> norm_cast

theorem gridCompare_isGE (count : Nat) (exponent : Int) {fraction : Nat × Nat}
    (h : 0 < fraction.2) : (gridCompare count exponent fraction).isGE = true ↔
      (fraction.1 / fraction.2 : ℚ) ≤ count * 10 ^ exponent := by
  rw [gridCompare, Nat.isGE_compare]
  exact (grid_cross count exponent h).1

theorem gridCompare_isLE (count : Nat) (exponent : Int) {fraction : Nat × Nat}
    (h : 0 < fraction.2) : (gridCompare count exponent fraction).isLE = true ↔
      count * 10 ^ exponent ≤ (fraction.1 / fraction.2 : ℚ) := by
  rw [gridCompare, Nat.isLE_compare]
  exact (grid_cross count exponent h).2

theorem gridCompare_isGT (count : Nat) (exponent : Int) {fraction : Nat × Nat}
    (h : 0 < fraction.2) : (gridCompare count exponent fraction).isGT = true ↔
      (fraction.1 / fraction.2 : ℚ) < count * 10 ^ exponent := by
  rw [← not_le, ← gridCompare_isLE count exponent h]
  cases gridCompare count exponent fraction <;> decide

theorem gridCompare_isLT (count : Nat) (exponent : Int) {fraction : Nat × Nat}
    (h : 0 < fraction.2) : (gridCompare count exponent fraction).isLT = true ↔
      count * 10 ^ exponent < (fraction.1 / fraction.2 : ℚ) := by
  rw [← not_le, ← gridCompare_isGE count exponent h]
  cases gridCompare count exponent fraction <;> decide

/-! ### The reals that round to a magnitude -/

theorem ofQuarters_eq (m : Magnitude) (count : Nat) : m.ofQuarters count =
    (count * 2 ^ m.exponent.toNat, 4 * 2 ^ (-m.exponent).toNat) := by
  rw [ofQuarters, Nat.shiftLeft_eq, Nat.shiftLeft_eq]

theorem ofQuarters_pos (m : Magnitude) (count : Nat) : 0 < (m.ofQuarters count).2 := by
  rw [ofQuarters_eq]
  exact Nat.mul_pos (by decide) (Nat.two_pow_pos _)

theorem ofQuarters_div (m : Magnitude) (count : Nat) :
    ((m.ofQuarters count).1 / (m.ofQuarters count).2 : ℚ) = count / 4 * 2 ^ m.exponent := by
  rw [zpow_eq_div 2, ofQuarters_eq]
  push_cast
  ring

/-- The least of the reals, and the largest. -/
def lowest (m : Magnitude) : ℚ := m.quarters.1 / 4 * 2 ^ m.exponent

def highest (m : Magnitude) : ℚ := m.quarters.2.2 / 4 * 2 ^ m.exponent

theorem holds_of_lt {m : Magnitude} {count : Nat} {exponent : Int}
    (hlower : m.lowest < count * 10 ^ exponent) (hupper : count * 10 ^ exponent < m.highest) :
    m.holds count exponent = true := by
  rw [lowest, ← ofQuarters_div, ← gridCompare_isGT _ _ (ofQuarters_pos m _)] at hlower
  rw [highest, ← ofQuarters_div, ← gridCompare_isLT _ _ (ofQuarters_pos m _)] at hupper
  have hweaker : ∀ order : Ordering, (order.isGT = true → order.isGE = true) ∧
      (order.isLT = true → order.isLE = true) := by decide
  unfold holds
  dsimp only
  split
  · rw [(hweaker _).1 hlower, (hweaker _).2 hupper]
    rfl
  · rw [hlower, hupper]
    rfl

theorem le_of_holds {m : Magnitude} {count : Nat} {exponent : Int}
    (h : m.holds count exponent = true) :
    m.lowest ≤ count * 10 ^ exponent ∧ count * 10 ^ exponent ≤ m.highest := by
  have hweaker : ∀ order : Ordering, (order.isGT = true → order.isGE = true) ∧
      (order.isLT = true → order.isLE = true) := by decide
  rw [lowest, ← ofQuarters_div, ← gridCompare_isGE _ _ (ofQuarters_pos m _), highest,
    ← ofQuarters_div, ← gridCompare_isLE _ _ (ofQuarters_pos m _)]
  unfold holds at h
  dsimp only at h
  split at h
  · exact Bool.and_eq_true_iff.mp h
  · obtain ⟨hlower, hupper⟩ := Bool.and_eq_true_iff.mp h
    exact ⟨(hweaker _).1 hlower, (hweaker _).2 hupper⟩

theorem highest_eq (m : Magnitude) : m.highest = m.toRat + 2 ^ m.exponent / 2 := by
  rw [highest, quarters, toRat]
  push_cast
  ring

/-- They reach below the magnitude over a quarter of a unit, or over two. -/
theorem lowest_eq {m : Magnitude} (h : 0 < m.mantissa) :
    m.lowest = m.toRat - 2 ^ m.exponent / 2 ∨
      m.lowest = m.toRat - 2 ^ m.exponent / 4 ∧ m.mantissa = 2 ^ 52 := by
  have hquarters : ∀ below : Nat, below ≤ 2 → ((4 * m.mantissa - below : Nat) : ℚ) =
      4 * m.mantissa - below := by
    intro below hbelow
    rw [Nat.cast_sub (by omega)]
    push_cast
    rfl
  rw [lowest, quarters]
  dsimp only
  split
  · next hleast =>
    refine .inr ⟨?_, hleast.1⟩
    rw [hquarters 1 (by decide), toRat]
    push_cast
    ring
  · refine .inl ?_
    rw [hquarters 2 (by decide), toRat]
    push_cast
    ring

theorem lowest_pos {m : Magnitude} (h : 0 < m.mantissa) : 0 < m.lowest := by
  have hunit := two_zpow_pos m.exponent
  have hone : 2 ^ m.exponent ≤ m.toRat := by
    have hmantissa : (1 : ℚ) ≤ m.mantissa := by exact_mod_cast h
    exact le_mul_of_one_le_left hunit.le hmantissa
  rcases lowest_eq h with he | ⟨he, -⟩ <;> rw [he] <;> linarith

theorem lowest_lt {m : Magnitude} (h : 0 < m.mantissa) :
    m.lowest < m.toRat ∧ m.toRat < m.highest := by
  have hunit := two_zpow_pos m.exponent
  rw [highest_eq]
  rcases lowest_eq h with he | ⟨he, -⟩ <;> rw [he] <;> constructor <;> linarith

/-! ### A fine grid -/

theorem grid_div (m : Magnitude) (exponent : Int) :
    ((m.numerator * 10 ^ (-exponent).toNat : Nat) : ℚ) /
      (m.denominator * 10 ^ exponent.toNat : Nat) = m.toRat / 10 ^ exponent := by
  rw [zpow_eq_div 10, ← numerator_div_denominator]
  push_cast
  rw [div_div_eq_mul_div, div_mul_eq_mul_div, div_div]

/-- The points of the grid next to a magnitude. -/
theorem grid_floor (m : Magnitude) (exponent : Int) {lower : Nat}
    (h : lower = m.numerator * 10 ^ (-exponent).toNat / (m.denominator * 10 ^ exponent.toNat)) :
    (lower : ℚ) * 10 ^ exponent ≤ m.toRat ∧ m.toRat < (lower + 1) * 10 ^ exponent := by
  have hpower : (0 : ℚ) < 10 ^ exponent := zpow_pos (by norm_num) exponent
  have hpos : 0 < m.denominator * 10 ^ exponent.toNat :=
    Nat.mul_pos m.denominator_pos (Nat.pow_pos (by decide))
  have hpos' : (0 : ℚ) < (m.denominator * 10 ^ exponent.toNat : Nat) := by exact_mod_cast hpos
  rw [← le_div_iff₀ hpower, ← div_lt_iff₀ hpower, ← grid_div, le_div_iff₀ hpos',
    div_lt_iff₀ hpos']
  have hlower := Nat.div_mul_le_self (m.numerator * 10 ^ (-exponent).toNat)
    (m.denominator * 10 ^ exponent.toNat)
  have hupper := Nat.lt_mul_div_succ (m.numerator * 10 ^ (-exponent).toNat) hpos
  rw [← h] at hlower hupper
  rw [mul_comm _ (lower + 1)] at hupper
  exact ⟨by exact_mod_cast hlower, by exact_mod_cast hupper⟩

/-- On a grid that is finer than the reals that round to the magnitude reach, one is a point. -/
theorem exists_onGrid {m : Magnitude} (h : 0 < m.mantissa) {exponent : Int}
    (fine : 10 ^ exponent < m.highest - m.lowest) : ∃ count, m.onGrid exponent = some count := by
  obtain ⟨hlower, hupper⟩ := grid_floor m exponent rfl
  obtain ⟨hlowest, hhighest⟩ := lowest_lt h
  unfold onGrid
  dsimp only
  generalize m.numerator * 10 ^ (-exponent).toNat / (m.denominator * 10 ^ exponent.toNat) = lower
    at *
  have hnext : ((lower + 1 : Nat) : ℚ) * 10 ^ exponent = lower * 10 ^ exponent + 10 ^ exponent := by
    push_cast
    ring
  -- If the point below is too low, the one above is not too high: they are one step apart.
  have hhit : m.holds lower exponent = true ∨ m.holds (lower + 1) exponent = true := by
    by_cases hin : m.lowest < lower * 10 ^ exponent
    · exact .inl (holds_of_lt hin (by linarith))
    · refine .inr (holds_of_lt ?_ ?_)
      · rw [hnext]
        linarith
      · rw [hnext]
        linarith
  cases hfirst : m.holds lower exponent <;> cases hsecond : m.holds (lower + 1) exponent
  · simp [hfirst, hsecond] at hhit
  · exact ⟨_, rfl⟩
  · exact ⟨_, rfl⟩
  · exact ⟨_, rfl⟩

/-- A point that is chosen rounds to the magnitude and is next to it. -/
theorem onGrid_eq_some {m : Magnitude} {exponent : Int} {count : Nat}
    (h : m.onGrid exponent = some count) :
    m.holds count exponent = true ∧
      count ≤ m.numerator * 10 ^ (-exponent).toNat / (m.denominator * 10 ^ exponent.toNat) + 1 := by
  unfold onGrid at h
  dsimp only at h
  split at h
  · next hfirst hsecond =>
    cases h
    unfold roundQuotient
    dsimp only
    split
    · exact ⟨hsecond, le_refl _⟩
    · exact ⟨hfirst, Nat.le_succ _⟩
  · next hfirst _ =>
    cases h
    exact ⟨hfirst, Nat.le_succ _⟩
  · next _ hsecond =>
    cases h
    exact ⟨hsecond, le_refl _⟩
  · cases h

/-! ### Seventeen digits -/

theorem decimalPoint_spec {m : Magnitude} (hvalid : m.Valid) (h : 0 < m.mantissa) :
    (10 : ℚ) ^ (m.decimalPoint - 1) ≤ m.toRat ∧ m.toRat < 10 ^ m.decimalPoint := by
  have hplaces : (0 : ℚ) < 10 ^ (decimalPlaces : Int) := zpow_pos (by norm_num) _
  have hpos : (0 : ℚ) < m.denominator := by exact_mod_cast m.denominator_pos
  have hdivide : m.toRat * 10 ^ (decimalPlaces : Int) =
      ((m.numerator * 10 ^ decimalPlaces : Nat) : ℚ) / m.denominator := by
    rw [← numerator_div_denominator, zpow_natCast]
    push_cast
    ring
  unfold decimalPoint
  dsimp only
  have hlower := Nat.div_mul_le_self (m.numerator * 10 ^ decimalPlaces) m.denominator
  have hupper := Nat.lt_mul_div_succ (m.numerator * 10 ^ decimalPlaces) m.denominator_pos
  have hone : 0 < m.numerator * 10 ^ decimalPlaces / m.denominator := by
    have hexponent := hvalid.least
    have hleast : m.denominator ≤ 2 ^ (-leastExponent).toNat := by
      rw [denominator_eq]
      exact Nat.pow_le_pow_right (by decide) (by omega)
    have hplenty : 2 ^ (-leastExponent).toNat ≤ 10 ^ decimalPlaces := by decide +kernel
    exact Nat.div_pos ((hleast.trans hplenty).trans (Nat.le_mul_of_pos_left _ (numerator_pos h)))
      m.denominator_pos
  generalize m.numerator * 10 ^ decimalPlaces = numerator at *
  generalize numerator / m.denominator = scaled at *
  have hdecimal := Numeral.isDecimal_decimal scaled
  have hlength := List.length_pos_iff.mpr hdecimal.ne_nil
  have hless := hdecimal.lt_pow
  have hleast := hdecimal.pow_le hone
  generalize (Numeral.decimal scaled).length = length at *
  constructor
  · rw [← mul_le_mul_iff_left₀ hplaces, hdivide, ← zpow_add₀ (by norm_num), le_div_iff₀ hpos,
      show (length : Int) - decimalPlaces - 1 + decimalPlaces = (length - 1 : Nat) by omega,
      zpow_natCast]
    exact_mod_cast (Nat.mul_le_mul_right _ hleast).trans hlower
  · rw [← mul_lt_mul_iff_left₀ hplaces, hdivide, ← zpow_add₀ (by norm_num), div_lt_iff₀ hpos,
      Int.sub_add_cancel, zpow_natCast]
    have hmost := hupper.trans_le (Nat.mul_le_mul_left _ (Nat.succ_le_of_lt hless))
    rw [mul_comm] at hmost
    exact_mod_cast hmost

/-- With 17 digits the grid is finer than the reals that round to a magnitude reach. -/
theorem fine {m : Magnitude} (hvalid : m.Valid) (h : 0 < m.mantissa) :
    (10 : ℚ) ^ (m.decimalPoint - 17) < m.highest - m.lowest := by
  have hpoint := (decimalPoint_spec hvalid h).1
  have hunit := two_zpow_pos m.exponent
  have hgrid : (10 : ℚ) ^ (m.decimalPoint - 1) = 10 ^ (m.decimalPoint - 17) * 10 ^ 16 := by
    rw [← zpow_natCast, ← zpow_add₀ (by norm_num)]
    congr 1
    omega
  rw [hgrid, toRat] at hpoint
  rw [highest_eq]
  rcases lowest_eq h with he | ⟨he, hmantissa⟩
  · have hless : (m.mantissa : ℚ) < 2 ^ 53 := by exact_mod_cast hvalid.mantissa
    have hbelow := mul_lt_mul_of_pos_right hless hunit
    rw [he]
    norm_num at hpoint hbelow
    linarith
  · rw [he]
    rw [hmantissa] at hpoint
    norm_num at hpoint
    linarith

/-- The search ends at the first grid with a point, if there is one on its way. -/
theorem firstGrid_spec {m : Magnitude} {point : Int} {tries start last : Nat}
    (hlast : start ≤ last ∧ last < start + tries)
    (h : ∃ count, m.onGrid (point - last) = some count) :
    ∃ count digits, start ≤ digits ∧ digits ≤ last ∧
      m.onGrid (point - digits) = some count ∧
        m.firstGrid point tries start = (count, point - digits) := by
  induction tries generalizing start with
  | zero => omega
  | succ tries ih =>
    rw [firstGrid]
    cases hgrid : m.onGrid (point - start) with
    | some count => exact ⟨count, start, le_refl _, hlast.1, hgrid, rfl⟩
    | none =>
      -- A grid that is passed over has no point, and the last one has.
      have hne : start ≠ last := by
        rintro rfl
        rw [hgrid] at h
        obtain ⟨_, ⟨⟩⟩ := h
      have hnext : start + 1 ≤ last ∧ last < start + 1 + tries := ⟨by omega, by omega⟩
      obtain ⟨count, digits, hstart, hdigits, hcount, heq⟩ := ih hnext
      exact ⟨count, digits, by omega, hdigits, hcount, heq⟩

/-- **Within 17 digits a decimal is found that rounds to the magnitude.** -/
theorem exists_firstGrid {m : Magnitude} (hvalid : m.Valid) (h : 0 < m.mantissa) :
    ∃ count exponent, m.firstGrid m.decimalPoint 17 1 = (count, exponent) ∧
      0 < count ∧ count ≤ 10 ^ 17 ∧ (count : ℚ) * 10 ^ exponent ≤ m.highest := by
  have hlast : 1 ≤ 17 ∧ 17 < 1 + 17 := by decide
  obtain ⟨count, digits, hone, hmost, hgrid, heq⟩ :=
    firstGrid_spec hlast (exists_onGrid h (fine hvalid h))
  obtain ⟨hholds, hnext⟩ := onGrid_eq_some hgrid
  obtain ⟨hlowest, hhighest⟩ := le_of_holds hholds
  refine ⟨count, _, heq, ?_, ?_, hhighest⟩
  · refine Nat.pos_of_ne_zero fun hzero => ?_
    have hpos := lowest_pos h
    rw [hzero, Nat.cast_zero, zero_mul] at hlowest
    linarith
  · refine hnext.trans ?_
    have hfloor := (grid_floor m (m.decimalPoint - digits) rfl).1
    have hbelow := hfloor.trans_lt (decimalPoint_spec hvalid h).2
    have hsplit : (10 : ℚ) ^ m.decimalPoint =
        10 ^ digits * 10 ^ (m.decimalPoint - digits) := by
      rw [← zpow_natCast, ← zpow_add₀ (by norm_num)]
      congr 1
      omega
    rw [hsplit] at hbelow
    have hless := lt_of_mul_lt_mul_right hbelow (zpow_pos (by norm_num) _).le
    have hless' : m.numerator * 10 ^ (-(m.decimalPoint - (digits : Int))).toNat /
        (m.denominator * 10 ^ (m.decimalPoint - (digits : Int)).toNat) < 10 ^ digits := by
      exact_mod_cast hless
    -- The point above may have one digit more, but then it is the power of ten itself.
    exact (Nat.succ_le_of_lt hless').trans (Nat.pow_le_pow_right (by decide) hmost)

/-! ### The largest magnitudes -/

/-- All but the two largest magnitudes leave room below the bound for two more roundings. -/
theorem highest_room {m : Magnitude} (hvalid : m.Valid)
    (h : m.exponent < mostExponent ∨ m.mantissa ≤ 2 ^ 53 - 3) :
    m.highest * (1 + 1 / 2 ^ 53) ^ 2 < roundingBound := by
  have heq : m.highest = (2 * m.mantissa + 1) * (2 ^ m.exponent / 2) := by
    rw [highest_eq, toRat]
    ring
  have hpos := two_zpow_pos m.exponent
  have hunits := two_zpow_pos 970
  rw [heq, roundingBound]
  rcases h with hsmaller | hless
  · have hmantissa : (m.mantissa : ℚ) ≤ 2 ^ 53 - 1 := by
      have hbound := hvalid.mantissa
      rw [mantissaBound] at hbound
      rw [le_sub_iff_add_le]
      exact_mod_cast hbound
    have hpower : (2 : ℚ) ^ m.exponent ≤ 2 ^ (970 : Int) :=
      zpow_le_zpow_right₀ one_le_two (Int.le_of_lt_add_one hsmaller)
    generalize (2 : ℚ) ^ (970 : Int) = units at *
    calc (2 * (m.mantissa : ℚ) + 1) * (2 ^ m.exponent / 2) * (1 + 1 / 2 ^ 53) ^ 2
        ≤ (2 * (2 ^ 53 - 1) + 1) * (units / 2) * (1 + 1 / 2 ^ 53) ^ 2 := by gcongr
      _ < (2 ^ 54 - 1) * units := by linarith
  · have hmantissa : (m.mantissa : ℚ) ≤ 2 ^ 53 - 3 := by
      rw [le_sub_iff_add_le]
      exact_mod_cast (show m.mantissa + 3 ≤ 2 ^ 53 by omega)
    have hpower : (2 : ℚ) ^ m.exponent ≤ 2 ^ ((970 : Int) + 1) :=
      zpow_le_zpow_right₀ one_le_two hvalid.most
    rw [zpow_add_one₀ two_ne_zero] at hpower
    generalize (2 : ℚ) ^ (970 : Int) = units at *
    calc (2 * (m.mantissa : ℚ) + 1) * (2 ^ m.exponent / 2) * (1 + 1 / 2 ^ 53) ^ 2
        ≤ (2 * (2 ^ 53 - 3) + 1) * (units * 2 / 2) * (1 + 1 / 2 ^ 53) ^ 2 := by gcongr
      _ < (2 ^ 54 - 1) * units := by linarith

/-- The two largest magnitudes. -/
theorem decimalPoint_of_largest {m : Magnitude} (hvalid : m.Valid)
    (hexponent : m.exponent = mostExponent) (hmantissa : 2 ^ 53 - 2 ≤ m.mantissa) :
    m.decimalPoint = 309 := by
  have hpos : 0 < m.mantissa := by omega
  have hlarge : (10 : ℚ) ^ (308 : Int) ≤ m.toRat := by
    have hcast : ∀ a b c d e : Nat, a ^ b ≤ c * 2 ^ d → c ≤ e →
        (a : ℚ) ^ (b : Int) ≤ e * 2 ^ (d : Int) := by
      intro a b c d e hle hmore
      rw [zpow_natCast, zpow_natCast]
      exact_mod_cast hle.trans (Nat.mul_le_mul_right _ hmore)
    rw [toRat, hexponent]
    exact hcast 10 308 (2 ^ 53 - 2) 971 m.mantissa (by decide +kernel) hmantissa
  have hsmall : m.toRat < (10 : ℚ) ^ ((mostDecimalExponent + 1 : Nat) : Int) := by
    rw [zpow_natCast]
    exact hvalid.toRat_lt.trans roundingBound_lt_pow_ten
  obtain ⟨hlower, hupper⟩ := decimalPoint_spec hvalid hpos
  have hleast := (zpow_lt_zpow_iff_right₀ (by norm_num)).mp (hlarge.trans_lt hupper)
  have hmost := (zpow_lt_zpow_iff_right₀ (by norm_num)).mp (hlower.trans_lt hsmall)
  unfold mostDecimalExponent at hmost
  omega

end Provision.Magnitude
