import Mathlib
import VersionedTables.Binary64.Shortest

/-!
# The numbers near a double

A double stands for one number (`Binary64.value`), and it is read from every number in an interval
around that one (`Binary64.Nears`). The intervals of different doubles do not meet
(`Binary64.Nears.value_eq`): where the end of one is the end of the next, one of the two mantissas
is odd, and its interval does not hold its ends.

Ends of intervals are compared as whole numbers, in units of the smaller of two doubles.
-/

namespace VersionedTables

/-- The number a decimal stands for. -/
def Decimal.value (d : Decimal) : ℚ :=
  d.digits * 10 ^ d.exponent

namespace Binary64

variable {x y : Binary64} {q : ℚ}

/-! ## Values -/

/-- The size of a double. -/
def size (x : Binary64) : ℚ :=
  x.mantissa * 2 ^ x.exponent

/-- One, with the sign of a double. -/
def sign (x : Binary64) : ℚ :=
  if x.negative then -1 else 1

/-- The number a double stands for. -/
def value (x : Binary64) : ℚ :=
  x.sign * x.size

theorem sign_mul_self (x : Binary64) : x.sign * x.sign = 1 := by
  rw [sign]
  split <;> norm_num

theorem sign_mul_sign_mul (x : Binary64) (q : ℚ) : x.sign * (x.sign * q) = q := by
  rw [← mul_assoc, sign_mul_self, one_mul]

theorem abs_sign_mul (x : Binary64) (q : ℚ) : |x.sign * q| = |q| := by
  have habs : |x.sign| = 1 := by
    rw [sign]
    split <;> norm_num
  rw [abs_mul, habs, one_mul]

theorem size_nonneg (x : Binary64) : 0 ≤ x.size := by
  rw [size]
  positivity

theorem size_eq_zero : x.size = 0 ↔ x.mantissa = 0 := by
  rw [size, mul_eq_zero, Nat.cast_eq_zero]
  exact or_iff_left (zpow_ne_zero _ two_ne_zero)

theorem value_eq_zero : x.value = 0 ↔ x.mantissa = 0 := by
  rw [value, mul_eq_zero, size_eq_zero]
  refine or_iff_right ?_
  rw [sign]
  split <;> norm_num

/-- A double is its sign, mantissa and exponent. -/
theorem eq_of_parts (hnegative : x.negative = y.negative) (hmantissa : x.mantissa = y.mantissa)
    (hexponent : x.exponent = y.exponent) : x = y := by
  cases x
  cases y
  simp_all

/-! ## Whole numbers -/

/-- A double that is a whole number is one in size. -/
theorem size_eq_natAbs {v : ℤ} (h : x.value = v) : x.size = v.natAbs := by
  rw [Nat.cast_natAbs, Int.cast_abs, ← h, value, abs_sign_mul, abs_of_nonneg x.size_nonneg]

theorem exists_value_eq {m : ℕ} (h : x.size = m) : ∃ v : ℤ, x.value = v := by
  rw [value, h, sign]
  split
  · exact ⟨-m, by push_cast; ring⟩
  · exact ⟨m, by push_cast; ring⟩

/-- A double that is a whole number in size is found to be one. -/
theorem wholeSize?_eq_some {n : ℕ} : x.wholeSize? = some n ↔ x.size = n := by
  rw [wholeSize?, size]
  split
  · next hexponent =>
    obtain ⟨e, he⟩ := Int.eq_ofNat_of_zero_le hexponent
    rw [he, Int.toNat_natCast, Nat.shiftLeft_eq, Option.some.injEq, zpow_natCast]
    exact_mod_cast Iff.rfl
  · next hexponent =>
    obtain ⟨e, he⟩ := Int.eq_ofNat_of_zero_le (show 0 ≤ -x.exponent by omega)
    have hsize : (x.mantissa * 2 ^ x.exponent : ℚ) = n ↔ x.mantissa = n * 2 ^ e := by
      rw [← neg_neg x.exponent, he, zpow_neg, zpow_natCast, ← div_eq_mul_inv,
        div_eq_iff (by positivity)]
      exact_mod_cast Iff.rfl
    rw [hsize, he, Int.toNat_natCast, Nat.one_shiftLeft, Nat.shiftRight_eq_div_pow]
    have hpos : 0 < 2 ^ e := by positivity
    split
    · next hmod =>
      rw [Option.some.injEq, Nat.div_eq_iff_eq_mul_left hpos (Nat.dvd_of_mod_eq_zero hmod)]
    · next hmod =>
      refine iff_of_false (by simp) fun hmantissa => hmod ?_
      rw [hmantissa, Nat.mul_mod_left]

/-- A double that is a whole number is found to be that number. -/
theorem toInt?_eq_some {v : ℤ} : x.toInt? = some v ↔ x.value = v := by
  have hsigned (n : ℕ) : ((if x.negative then -n else n : ℤ) : ℚ) = x.sign * n := by
    rw [sign]
    split <;> simp
  have htoInt : x.toInt? = some v ↔
      ∃ n, x.wholeSize? = some n ∧ (if x.negative then -n else n : ℤ) = v := by
    rw [toInt?]
    cases x.wholeSize? <;> simp
  rw [htoInt]
  constructor
  · rintro ⟨n, hn, rfl⟩
    rw [hsigned, value, wholeSize?_eq_some.mp hn]
  · intro hvalue
    have hsize := size_eq_natAbs hvalue
    refine ⟨v.natAbs, wholeSize?_eq_some.mpr hsize, ?_⟩
    have hback := hsigned v.natAbs
    rw [← hsize, ← value, hvalue] at hback
    exact_mod_cast hback

theorem toInt?_eq_none : x.toInt? = none ↔ ∀ v : ℤ, x.value ≠ v := by
  rw [Option.eq_none_iff_forall_ne_some]
  exact forall_congr' fun v => not_congr toInt?_eq_some

/-! ## Intervals -/

/-- A number lies in the interval. -/
structure Neighbourhood.Contains (n : Neighbourhood) (q : ℚ) : Prop where
  /-- It is not below the lower end. -/
  low_le : n.low * 2 ^ n.exponent ≤ q
  /-- It is not above the upper end. -/
  le_high : q ≤ n.high * 2 ^ n.exponent
  /-- It is no end, if these do not belong to the interval. -/
  between : n.closed = false → n.low * 2 ^ n.exponent < q ∧ q < n.high * 2 ^ n.exponent

/-- A number is so near to a double that it is rounded to it. To a zero only zero itself is taken to
be near. -/
def Nears (x : Binary64) (q : ℚ) : Prop :=
  (x.mantissa = 0 ∧ q = 0) ∨ (x.mantissa ≠ 0 ∧ x.neighbourhood.Contains (x.sign * q))

theorem low_lt (h : x.mantissa ≠ 0) : x.neighbourhood.low < 4 * x.mantissa := by
  rw [neighbourhood]
  dsimp only
  split <;> omega

theorem le_low (x : Binary64) : 4 * x.mantissa - 2 ≤ x.neighbourhood.low := by
  rw [neighbourhood]
  dsimp only
  split <;> omega

/-- The size of a double, in units of its neighbourhood. -/
theorem size_eq (x : Binary64) : x.size = (4 * x.mantissa : ℕ) * 2 ^ x.neighbourhood.exponent := by
  have hunit : x.neighbourhood.exponent = x.exponent - 2 := rfl
  rw [size, hunit, zpow_sub₀ two_ne_zero]
  push_cast
  ring

theorem contains_size (h : x.mantissa ≠ 0) : x.neighbourhood.Contains x.size := by
  have hunit : (0 : ℚ) < 2 ^ x.neighbourhood.exponent := by positivity
  have hlow : (x.neighbourhood.low : ℚ) * 2 ^ x.neighbourhood.exponent < x.size := by
    rw [size_eq]
    gcongr
    exact low_lt h
  have hhigh : x.size < (x.neighbourhood.high : ℚ) * 2 ^ x.neighbourhood.exponent := by
    rw [size_eq]
    gcongr
    exact Nat.lt_add_of_pos_right (by decide)
  exact ⟨hlow.le, hhigh.le, fun _ => ⟨hlow, hhigh⟩⟩

/-- A double is near to itself. -/
theorem nears_value (x : Binary64) : x.Nears x.value := by
  by_cases hzero : x.mantissa = 0
  · exact .inl ⟨hzero, value_eq_zero.mpr hzero⟩
  · rw [Nears, value, sign_mul_sign_mul]
    exact .inr ⟨hzero, contains_size hzero⟩

/-! ## Intervals do not meet -/

/-- The interval of a larger double starts where that of a smaller one has ended, or at its end. Then
one of the two mantissas is odd. -/
theorem high_le_low {shift : ℕ} (hshift : y.exponent = x.exponent + shift)
    (hlt : 0 < shift ∨ x.mantissa < y.mantissa) :
    4 * x.mantissa + 2 ≤ y.neighbourhood.low * 2 ^ shift ∧
      (4 * x.mantissa + 2 = y.neighbourhood.low * 2 ^ shift →
        x.mantissa % 2 = 1 ∨ y.mantissa % 2 = 1) := by
  have hlow := y.le_low
  have hlt_x := x.mantissa_lt
  rcases Nat.eq_zero_or_pos shift with rfl | hpos
  · rw [pow_zero, mul_one]
    omega
  · -- The larger double is normal, so its mantissa is at least half of the smaller one's bound.
    have hge := x.exponent_ge
    have hnormal := y.normal.resolve_right (by omega)
    have htwo : 2 ≤ 2 ^ shift := Nat.le_self_pow hpos.ne' 2
    have hdouble := Nat.mul_le_mul_left y.neighbourhood.low htwo
    have hlow' : 4 * 0x10000000000000 - 1 ≤ y.neighbourhood.low := by
      rw [neighbourhood]
      dsimp only
      split <;> omega
    omega

/-- No number is in the intervals of two doubles of different size. -/
theorem not_contains_of_lt
    (hlt : x.exponent < y.exponent ∨ x.exponent = y.exponent ∧ x.mantissa < y.mantissa)
    (hx : x.neighbourhood.Contains q) : ¬y.neighbourhood.Contains q := by
  intro hy
  obtain ⟨shift, hshift⟩ := Int.le.dest (show x.exponent ≤ y.exponent by omega)
  obtain ⟨hle, hodd⟩ := high_le_low (x := x) (y := y) hshift.symm (by omega)
  have hunit : (0 : ℚ) < 2 ^ x.neighbourhood.exponent := by positivity
  have hlow : (y.neighbourhood.low : ℚ) * 2 ^ y.neighbourhood.exponent =
      (y.neighbourhood.low * 2 ^ shift : ℕ) * 2 ^ x.neighbourhood.exponent := by
    have hsplit : y.neighbourhood.exponent = shift + x.neighbourhood.exponent := by
      change y.exponent - 2 = shift + (x.exponent - 2)
      omega
    rw [hsplit, zpow_add₀ two_ne_zero, zpow_natCast]
    push_cast
    ring
  have hhigh : x.neighbourhood.high = 4 * x.mantissa + 2 := rfl
  -- What is in both intervals is the end of the one and the start of the other.
  have hends : y.neighbourhood.low * 2 ^ shift ≤ 4 * x.mantissa + 2 := by
    have hboth := hy.low_le.trans hx.le_high
    rw [hlow, hhigh, mul_le_mul_iff_left₀ hunit] at hboth
    exact_mod_cast hboth
  have hmeet := le_antisymm hle hends
  have hat : (x.neighbourhood.high : ℚ) * 2 ^ x.neighbourhood.exponent =
      y.neighbourhood.low * 2 ^ y.neighbourhood.exponent := by
    rw [hlow, hhigh, hmeet]
  rcases hodd hmeet with hodd | hodd
  · have hopen : x.neighbourhood.closed = false := by simp [neighbourhood, hodd]
    exact absurd (hat ▸ hy.low_le) (hx.between hopen).2.not_ge
  · have hopen : y.neighbourhood.closed = false := by simp [neighbourhood, hodd]
    exact absurd (hat ▸ hx.le_high) (hy.between hopen).1.not_ge

/-- Doubles with a number in both of their intervals have the same size. -/
theorem parts_eq_of_contains (hx : x.neighbourhood.Contains q) (hy : y.neighbourhood.Contains q) :
    x.mantissa = y.mantissa ∧ x.exponent = y.exponent := by
  rcases lt_trichotomy x.exponent y.exponent with hlt | heq | hgt
  · exact absurd hy (not_contains_of_lt (.inl hlt) hx)
  · rcases lt_trichotomy x.mantissa y.mantissa with hlt | hmantissa | hgt
    · exact absurd hy (not_contains_of_lt (.inr ⟨heq, hlt⟩) hx)
    · exact ⟨hmantissa, heq⟩
    · exact absurd hx (not_contains_of_lt (.inr ⟨heq.symm, hgt⟩) hy)
  · exact absurd hx (not_contains_of_lt (.inl hgt) hy)

theorem pos_of_contains (h : x.mantissa ≠ 0) (hq : x.neighbourhood.Contains q) : 0 < q := by
  have hlow : 0 < x.neighbourhood.low := by
    have hle := x.le_low
    omega
  exact lt_of_lt_of_le (by positivity) hq.low_le

/-- The double that a number is near to is the only one, if it is not zero. -/
theorem Nears.eq (hx : x.Nears q) (hy : y.Nears q) (h : x.mantissa ≠ 0) : x = y := by
  obtain ⟨hzero, -⟩ | ⟨-, hx⟩ := hx
  · exact absurd hzero h
  have hpos := pos_of_contains h hx
  obtain ⟨-, rfl⟩ | ⟨hy₀, hy⟩ := hy
  · rw [mul_zero] at hpos
    exact absurd hpos (lt_irrefl 0)
  have hpos' := pos_of_contains hy₀ hy
  have hnegative : x.negative = y.negative := by
    rw [sign] at hpos hpos'
    cases hx : x.negative <;> cases hy : y.negative <;> simp_all [lt_asymm]
  have hsign : x.sign = y.sign := by rw [sign, sign, hnegative]
  obtain ⟨hmantissa, hexponent⟩ := parts_eq_of_contains hx (hsign ▸ hy)
  exact eq_of_parts hnegative hmantissa hexponent

/-- Doubles that one number is near to stand for the same number. -/
theorem Nears.value_eq (hx : x.Nears q) (hy : y.Nears q) : x.value = y.value := by
  by_cases hzero : x.mantissa = 0
  · by_cases hzero' : y.mantissa = 0
    · rw [value_eq_zero.mpr hzero, value_eq_zero.mpr hzero']
    · rw [hy.eq hx hzero']
  · rw [hx.eq hy hzero]

/-- Doubles that stand for the same number are the same, but for the sign of a zero. -/
theorem eq_of_value_eq (h : x.value = y.value) (hzero : x.mantissa ≠ 0) : x = y :=
  x.nears_value.eq (h ▸ y.nears_value) hzero

end Binary64

end VersionedTables
