import Mathlib
import VersionedTables.Proofs.Binary64.Intervals

/-!
# What the search for a shortest decimal finds

On each grid the search looks at the two points next to a number, and finds the nearest of all the points
that are in the interval, if there are any (`Neighbourhood.hit?_cases`). The twenty-second grid is so
fine that it has one in every interval (`exists_hit?`), so the search ends; and grids before the first one
have none (`high_lt_ten_zpow`), so it misses nothing. What it finds is the shortest decimal
(`isShortest_shortest`).

A double that is a whole number is a point of the grid of ones, so its shortest decimal is whole too
(`exponent_shortest_nonneg`). A double that is not has no whole number in its interval
(`exists_size_eq_of_contains`), and its shortest decimal has places behind the point.
-/

namespace VersionedTables.Binary64

variable {n : Neighbourhood} {tie : Tie} {k : ℤ} {d : Decimal} {x : Binary64} {a b q : ℚ}

/-! ## Grids -/

/-- A power with an exponent that is cut off at zero. -/
theorem pow_toNat (hb : b ≠ 0) (e : ℤ) : b ^ e.toNat = b ^ e * b ^ (-e).toNat := by
  rw [← zpow_natCast, ← zpow_natCast, ← zpow_add₀ hb]
  congr 1
  omega

namespace Neighbourhood

theorem Contains.mono (ha : n.Contains a) (hb : n.Contains b) (haq : a ≤ q) (hqb : q ≤ b) :
    n.Contains q where
  low_le := ha.low_le.trans haq
  le_high := hqb.trans hb.le_high
  between hopen := ⟨(ha.between hopen).1.trans_le haq, hqb.trans_lt (hb.between hopen).2⟩

/-- The number in the middle of a neighbourhood. -/
def middle (n : Neighbourhood) : ℚ :=
  n.value * 2 ^ n.exponent

/-- The units and the grid, multiplied until both are whole numbers. -/
theorem exists_denominator (n : Neighbourhood) (k : ℤ) : ∃ c : ℚ, 0 < c ∧
    ((Nat.pow 10 (-k).toNat <<< n.exponent.toNat : ℕ) : ℚ) = 2 ^ n.exponent * c ∧
      ((Nat.pow 10 k.toNat <<< (-n.exponent).toNat : ℕ) : ℚ) = 10 ^ k * c := by
  refine ⟨10 ^ (-k).toNat * 2 ^ (-n.exponent).toNat, by positivity, ?_, ?_⟩
  · rw [Nat.shiftLeft_eq, Nat.pow_eq]
    push_cast
    rw [pow_toNat two_ne_zero n.exponent]
    ring
  · rw [Nat.shiftLeft_eq, Nat.pow_eq]
    push_cast
    rw [pow_toNat (by norm_num) k]
    ring

/-- Whether a point of a grid is in the interval is computed with whole numbers. -/
theorem holds_iff {scale step : ℕ} {c : ℚ} (hc : 0 < c) (hscale : (scale : ℚ) = 2 ^ n.exponent * c)
    (hstep : (step : ℚ) = 10 ^ k * c) (count : ℕ) :
    n.holds scale step count = true ↔ n.Contains (count * 10 ^ k) := by
  have hle (m : ℕ) : m * scale ≤ count * step ↔ m * (2 : ℚ) ^ n.exponent ≤ count * 10 ^ k := by
    rw [← Nat.cast_le (α := ℚ), Nat.cast_mul, Nat.cast_mul, hscale, hstep, ← mul_assoc, ← mul_assoc,
      mul_le_mul_iff_left₀ hc]
  have hge (m : ℕ) : count * step ≤ m * scale ↔ count * (10 : ℚ) ^ k ≤ m * 2 ^ n.exponent := by
    rw [← Nat.cast_le (α := ℚ), Nat.cast_mul, Nat.cast_mul, hscale, hstep, ← mul_assoc, ← mul_assoc,
      mul_le_mul_iff_left₀ hc]
  rw [holds]
  cases hclosed : n.closed
  · simp only [Bool.false_eq_true, if_false, Bool.and_eq_true, decide_eq_true_eq, ← not_le, hle, hge]
    refine ⟨fun h => ?_, fun h => ?_⟩
    · simp only [not_le] at h
      exact ⟨h.1.le, h.2.le, fun _ => h⟩
    · simpa only [not_le] using h.between hclosed
  · simp only [if_true, Bool.and_eq_true, decide_eq_true_eq, hle, hge]
    exact ⟨fun h => ⟨h.1, h.2, fun hopen => by simp [hclosed] at hopen⟩, fun h => ⟨h.low_le, h.le_high⟩⟩

/-- The last point of a grid that is not above the number in the middle, counted from zero. -/
def below (n : Neighbourhood) (k : ℤ) : ℕ :=
  ⌊n.middle / 10 ^ k⌋₊

theorem below_mul_le (n : Neighbourhood) (k : ℤ) : n.below k * 10 ^ k ≤ n.middle := by
  have hgrid : (0 : ℚ) < 10 ^ k := by positivity
  rw [← le_div_iff₀ hgrid, below]
  refine Nat.floor_le (div_nonneg ?_ hgrid.le)
  rw [middle]
  positivity

theorem lt_below_mul (n : Neighbourhood) (k : ℤ) : n.middle < (n.below k + 1 : ℕ) * 10 ^ k := by
  have hgrid : (0 : ℚ) < 10 ^ k := by positivity
  rw [← div_lt_iff₀ hgrid, below]
  push_cast
  exact Nat.lt_floor_add_one _

theorem abs_middle_sub_below (n : Neighbourhood) (k : ℤ) :
    |n.middle - n.below k * 10 ^ k| = n.middle - n.below k * 10 ^ k :=
  abs_of_nonneg (sub_nonneg.mpr (n.below_mul_le k))

theorem abs_middle_sub_above (n : Neighbourhood) (k : ℤ) :
    |n.middle - (n.below k + 1 : ℕ) * 10 ^ k| = (n.below k + 1 : ℕ) * 10 ^ k - n.middle := by
  rw [abs_sub_comm]
  exact abs_of_nonneg (sub_nonneg.mpr (n.lt_below_mul k).le)

/-- Of the points up to the number the last one is the nearest, and in the interval if any of them is. -/
theorem contains_below (hmiddle : n.Contains n.middle) {count : ℕ} (hle : count ≤ n.below k)
    (h : n.Contains (count * 10 ^ k)) : n.Contains (n.below k * 10 ^ k) ∧
      |n.middle - n.below k * 10 ^ k| ≤ |n.middle - count * 10 ^ k| := by
  have hpoint : (count : ℚ) * 10 ^ k ≤ n.below k * 10 ^ k := by gcongr
  have hbelow := n.below_mul_le k
  refine ⟨h.mono hmiddle hpoint hbelow, ?_⟩
  rw [abs_middle_sub_below, abs_of_nonneg (sub_nonneg.mpr (hpoint.trans hbelow))]
  exact sub_le_sub_left hpoint _

/-- Of the points above the number the first one is the nearest, and in the interval if any of them is. -/
theorem contains_above (hmiddle : n.Contains n.middle) {count : ℕ} (hlt : n.below k < count)
    (h : n.Contains (count * 10 ^ k)) : n.Contains ((n.below k + 1 : ℕ) * 10 ^ k) ∧
      |n.middle - (n.below k + 1 : ℕ) * 10 ^ k| ≤ |n.middle - count * 10 ^ k| := by
  have hpoint : ((n.below k + 1 : ℕ) : ℚ) * 10 ^ k ≤ count * 10 ^ k := by
    gcongr
    exact hlt
  have habove := (n.lt_below_mul k).le
  refine ⟨hmiddle.mono h habove hpoint, ?_⟩
  rw [abs_middle_sub_above, abs_sub_comm, abs_of_nonneg (sub_nonneg.mpr (habove.trans hpoint))]
  exact sub_le_sub_right hpoint _

/-- A decimal on a grid is the nearest of the points of the grid in the interval. -/
structure IsNearest (n : Neighbourhood) (k : ℤ) (d : Decimal) : Prop where
  /-- It lies on this grid. -/
  exponent_eq : d.exponent = k
  /-- It is in the interval. -/
  contains : n.Contains d.value
  /-- No other point that is in the interval is nearer. -/
  nearest : ∀ count : ℕ, count ≠ 0 → n.Contains (count * 10 ^ k) →
    |n.middle - d.value| ≤ |n.middle - count * 10 ^ k|

/-- The last point up to the number is the nearest, if it is in the interval and the next one is not, or
is no nearer. -/
theorem isNearest_below (hmiddle : n.Contains n.middle) (h : n.Contains (n.below k * 10 ^ k))
    (hnext : n.Contains ((n.below k + 1 : ℕ) * 10 ^ k) →
      |n.middle - n.below k * 10 ^ k| ≤ |n.middle - (n.below k + 1 : ℕ) * 10 ^ k|) :
    n.IsNearest k ⟨n.below k, k⟩ where
  exponent_eq := rfl
  contains := h
  nearest count _ hcontains := by
    rcases le_or_gt count (n.below k) with hle | hlt
    · exact (contains_below hmiddle hle hcontains).2
    · obtain ⟨habove, hdistance⟩ := contains_above hmiddle hlt hcontains
      exact (hnext habove).trans hdistance

/-- The first point above the number is the nearest, if it is in the interval and the one before is not,
or is no nearer. -/
theorem isNearest_above (hmiddle : n.Contains n.middle)
    (h : n.Contains ((n.below k + 1 : ℕ) * 10 ^ k))
    (hnext : n.below k ≠ 0 → n.Contains (n.below k * 10 ^ k) →
      |n.middle - (n.below k + 1 : ℕ) * 10 ^ k| ≤ |n.middle - n.below k * 10 ^ k|) :
    n.IsNearest k ⟨n.below k + 1, k⟩ where
  exponent_eq := rfl
  contains := h
  nearest count hcount hcontains := by
    rcases le_or_gt count (n.below k) with hle | hlt
    · obtain ⟨hbelow, hdistance⟩ := contains_below hmiddle hle hcontains
      exact (hnext (by omega) hbelow).trans hdistance
    · exact (contains_above hmiddle hlt hcontains).2

/-- Which of the two points next to the number is nearer is told by twice what is left of the number
behind the first of them, compared with a step of the grid. -/
theorem above_sub_below_mul {step rest : ℕ} {c : ℚ} (hstep : (step : ℚ) = 10 ^ k * c)
    (hmiddle : n.middle * c = n.below k * (10 ^ k * c) + rest) :
    (|n.middle - (n.below k + 1 : ℕ) * 10 ^ k| - |n.middle - n.below k * 10 ^ k|) * c =
      step - (2 * rest : ℕ) := by
  rw [abs_middle_sub_above, abs_middle_sub_below, sub_mul, sub_mul, sub_mul, hmiddle, hstep]
  push_cast
  ring

/-- What is found on a grid is the nearest of its points in the interval, and something is found if there
is one. -/
theorem hit?_cases (hmiddle : n.Contains n.middle) (tie : Tie) (k : ℤ) :
    (∃ d, n.hit? tie k = some d ∧ n.IsNearest k d) ∨
      (n.hit? tie k = none ∧ ∀ count : ℕ, count ≠ 0 → ¬n.Contains (count * 10 ^ k)) := by
  obtain ⟨c, hc, hscale, hstep⟩ := n.exists_denominator k
  have hholds := n.holds_iff hc hscale hstep
  have hbelow : n.value * (Nat.pow 10 (-k).toNat <<< n.exponent.toNat) /
      (Nat.pow 10 k.toNat <<< (-n.exponent).toNat) = n.below k := by
    rw [← Nat.floor_div_eq_div (K := ℚ), Nat.cast_mul, hscale, hstep, ← mul_assoc,
      mul_div_mul_right _ _ hc.ne', below, middle]
  -- What is left of the number behind the last point, in the units of the computation.
  have hrest := congrArg (Nat.cast (R := ℚ)) (Nat.div_add_mod
    (n.value * (Nat.pow 10 (-k).toNat <<< n.exponent.toNat))
    (Nat.pow 10 k.toNat <<< (-n.exponent).toNat))
  rw [hbelow, Nat.cast_add, Nat.cast_mul, Nat.cast_mul, hscale, hstep] at hrest
  simp only [hit?, hbelow]
  generalize Nat.pow 10 k.toNat <<< (-n.exponent).toNat = step at hstep hholds hrest ⊢
  generalize n.value * (Nat.pow 10 (-k).toNat <<< n.exponent.toNat) % step = rest at hrest ⊢
  have hmiddle_eq : n.middle * c = n.below k * (10 ^ k * c) + rest := by
    rw [middle, mul_assoc, ← hrest]
    ring
  have hdistances := above_sub_below_mul hstep hmiddle_eq
  have hupper (h : step ≤ 2 * rest) :
      |n.middle - (n.below k + 1 : ℕ) * 10 ^ k| ≤ |n.middle - n.below k * 10 ^ k| := by
    refine sub_nonpos.mp (nonpos_of_mul_nonpos_left ?_ hc)
    rw [hdistances, sub_nonpos]
    exact mod_cast h
  have hlower (h : 2 * rest ≤ step) :
      |n.middle - n.below k * 10 ^ k| ≤ |n.middle - (n.below k + 1 : ℕ) * 10 ^ k| := by
    refine sub_nonneg.mp (nonneg_of_mul_nonneg_left ?_ hc)
    rw [hdistances, sub_nonneg]
    exact mod_cast h
  split
  · next hboth =>
    rw [Bool.and_eq_true, Bool.and_eq_true, hholds, hholds] at hboth
    have hpick (upper : Bool) (htrue : upper = true → step ≤ 2 * rest)
        (hfalse : upper = false → 2 * rest ≤ step) :
        n.IsNearest k ⟨if upper then n.below k + 1 else n.below k, k⟩ := by
      cases upper
      · exact isNearest_below hmiddle hboth.1.2 fun _ => hlower (hfalse rfl)
      · exact isNearest_above hmiddle hboth.2 fun _ _ => hupper (htrue rfl)
    refine .inl ⟨_, rfl, hpick _ (fun h => ?_) fun h => ?_⟩
    · by_contra hlt
      rw [if_pos (not_le.mp hlt)] at h
      cases h
    · by_contra hlt
      rw [if_neg (by omega), if_pos (not_le.mp hlt)] at h
      cases h
  split
  · next hnot hfound =>
    rw [Bool.and_eq_true] at hfound
    refine .inl ⟨_, rfl, isNearest_below hmiddle ((hholds _).mp hfound.2) fun habove => ?_⟩
    exact absurd (Bool.and_eq_true_iff.mpr ⟨Bool.and_eq_true_iff.mpr hfound, (hholds _).mpr habove⟩) hnot
  split
  · next hnot hnot' hfound =>
    refine .inl ⟨_, rfl, isNearest_above hmiddle ((hholds _).mp hfound) fun hpos hbelow => ?_⟩
    exact absurd (Bool.and_eq_true_iff.mpr ⟨decide_eq_true hpos, (hholds _).mpr hbelow⟩) hnot'
  · next hnot hnot' hnot'' =>
    refine .inr ⟨rfl, fun count hcount hcontains => ?_⟩
    rcases le_or_gt count (n.below k) with hle | hlt
    · have hbelow := (hholds _).mpr (contains_below hmiddle hle hcontains).1
      exact hnot' (Bool.and_eq_true_iff.mpr ⟨decide_eq_true (by omega), hbelow⟩)
    · exact hnot'' ((hholds _).mpr (contains_above hmiddle hlt hcontains).1)

theorem isNearest_of_hit? (hmiddle : n.Contains n.middle) (h : n.hit? tie k = some d) :
    n.IsNearest k d := by
  rcases hit?_cases hmiddle tie k with ⟨d', hd', hnearest⟩ | ⟨hnone, -⟩
  · obtain rfl : d' = d := Option.some.inj (hd'.symm.trans h)
    exact hnearest
  · rw [hnone] at h
    cases h

theorem hit?_isSome (hmiddle : n.Contains n.middle) {count : ℕ} (hcount : count ≠ 0)
    (h : n.Contains (count * 10 ^ k)) : (n.hit? tie k).isSome := by
  rcases hit?_cases hmiddle tie k with ⟨d, hd, -⟩ | ⟨-, hmissed⟩
  · rw [hd]
    rfl
  · exact absurd h (hmissed count hcount)

end Neighbourhood

/-! ## The end of the search -/

theorem middle_neighbourhood (x : Binary64) : x.neighbourhood.middle = x.size :=
  x.size_eq.symm

theorem contains_middle (hzero : x.mantissa ≠ 0) :
    x.neighbourhood.Contains x.neighbourhood.middle :=
  x.middle_neighbourhood ▸ contains_size hzero

theorem count_ne_zero (hzero : x.mantissa ≠ 0) {count : ℕ}
    (h : x.neighbourhood.Contains (count * 10 ^ k)) : count ≠ 0 := by
  rintro rfl
  have hpos := pos_of_contains hzero h
  rw [Nat.cast_zero, zero_mul] at hpos
  exact lt_irrefl 0 hpos

/-- Powers of one number against powers of another, from what is known of two of them. -/
theorem zpow_le_zpow_of_pow_le {p r : ℕ} (ha : 1 ≤ a) (hb : 0 < b) (hp : p ≠ 0)
    (hpow : a ^ r ≤ b ^ p) {e : ℤ} (he : 0 ≤ e) (h : p * k ≤ r * e) : a ^ k ≤ b ^ e := by
  have ha₀ : 0 < a := zero_lt_one.trans_le ha
  rw [← pow_le_pow_iff_left₀ (by positivity) (by positivity) hp]
  calc (a ^ k) ^ p = a ^ (p * k) := by rw [← zpow_natCast, ← zpow_mul, mul_comm]
    _ ≤ a ^ (r * e) := zpow_le_zpow_right₀ ha h
    _ = (a ^ r) ^ e := by rw [zpow_mul, zpow_natCast]
    _ ≤ (b ^ p) ^ e := zpow_le_zpow_left₀ he (by positivity) hpow
    _ = (b ^ e) ^ p := by rw [← zpow_natCast, ← zpow_natCast, ← zpow_mul, ← zpow_mul, mul_comm]

theorem zpow_le_zpow_of_neg {e : ℤ} (ha : 0 < a) (h : a ^ (-k) ≤ b ^ (-e)) : b ^ e ≤ a ^ k := by
  rw [← neg_neg k, ← neg_neg e, zpow_neg a, zpow_neg b]
  exact inv_anti₀ (by positivity) h

/-- A power of ten below a power of two: `1000` is a little less than `2 ^ 10`, and `2 ^ 33` a little
less than `10 ^ 10`. -/
theorem ten_zpow_le {e : ℤ} (hpos : 0 ≤ e → 10 * k ≤ 3 * e) (hneg : e < 0 → 33 * k ≤ 10 * e) :
    (10 : ℚ) ^ k ≤ 2 ^ e := by
  rcases lt_or_ge e 0 with he | he
  · have hbound := hneg he
    exact zpow_le_zpow_of_neg two_pos (zpow_le_zpow_of_pow_le (p := 10) (r := 33) one_le_two
      (by norm_num) (by decide) (by norm_num) (by omega) (by push_cast; omega))
  · exact zpow_le_zpow_of_pow_le (p := 10) (r := 3) (by norm_num) two_pos (by decide) (by norm_num) he
      (hpos he)

/-- A power of two below a power of ten: `2 ^ 93` is a little less than `10 ^ 28`, and `10 ^ 59` a little
less than `2 ^ 196`. -/
theorem two_zpow_le {e : ℤ} (hpos : 0 ≤ k → 28 * e ≤ 93 * k) (hneg : k < 0 → 59 * e ≤ 196 * k) :
    (2 : ℚ) ^ e ≤ 10 ^ k := by
  rcases lt_or_ge k 0 with hk | hk
  · have hbound := hneg hk
    exact zpow_le_zpow_of_neg (by norm_num) (zpow_le_zpow_of_pow_le (p := 196) (r := 59) (by norm_num)
      two_pos (by decide) (by norm_num) (by omega) (by push_cast; omega))
  · exact zpow_le_zpow_of_pow_le (p := 28) (r := 93) one_le_two (by norm_num) (by decide) (by norm_num) hk
      (hpos hk)

/-- The last grid that is searched is finer than half an interval. -/
theorem ten_zpow_ceilLog10_lt (hzero : x.mantissa ≠ 0) :
    (10 : ℚ) ^ (x.ceilLog10 - 21) < 2 * 2 ^ x.neighbourhood.exponent := by
  have hlog : x.mantissa.log2 < 53 := (Nat.log2_lt hzero).mpr x.mantissa_lt
  have hge := x.exponent_ge
  have hle := x.exponent_le
  have hunit : x.neighbourhood.exponent = x.exponent - 2 := rfl
  have hgrid : (10 : ℚ) ^ (x.ceilLog10 - 21) ≤ 2 ^ x.neighbourhood.exponent := by
    apply ten_zpow_le <;> rw [ceilLog10, hunit] <;> omega
  have hpos : (0 : ℚ) < 2 ^ x.neighbourhood.exponent := by positivity
  linarith

/-- Grids that are coarser than the first one have no point in the interval. -/
theorem high_lt_ten_zpow (hzero : x.mantissa ≠ 0) :
    x.neighbourhood.high * 2 ^ x.neighbourhood.exponent < (10 : ℚ) ^ (x.ceilLog10 + 1) := by
  have hlog : x.mantissa.log2 < 53 := (Nat.log2_lt hzero).mpr x.mantissa_lt
  have hge := x.exponent_ge
  have hle := x.exponent_le
  have hunit : x.neighbourhood.exponent = x.exponent - 2 := rfl
  have hhigh : (x.neighbourhood.high : ℚ) < 2 ^ (x.mantissa.log2 + 3 : ℤ) := by
    have hmantissa : x.mantissa < 2 ^ (x.mantissa.log2 + 1) := Nat.lt_log2_self
    have hnat : 4 * x.mantissa + 2 < 2 ^ (x.mantissa.log2 + 3) := by
      rw [pow_add] at hmantissa ⊢
      omega
    exact_mod_cast hnat
  calc (x.neighbourhood.high : ℚ) * 2 ^ x.neighbourhood.exponent
      < 2 ^ (x.mantissa.log2 + 3 : ℤ) * 2 ^ x.neighbourhood.exponent := by gcongr
    _ = 2 ^ (x.exponent + x.mantissa.log2 + 1) := by
      rw [← zpow_add₀ two_ne_zero, hunit]
      congr 1
      omega
    _ ≤ 10 ^ (x.ceilLog10 + 1) := by
      apply two_zpow_le <;> rw [ceilLog10] <;> omega

/-- On the last grid something is found: its next point is less than half an interval away. -/
theorem exists_hit? (hzero : x.mantissa ≠ 0) (tie : Tie) :
    (x.neighbourhood.hit? tie (x.ceilLog10 - (21 : ℕ))).isSome := by
  have hfine := ten_zpow_ceilLog10_lt hzero
  push_cast
  generalize x.ceilLog10 - 21 = k at hfine ⊢
  have hbelow := x.neighbourhood.below_mul_le k
  have habove := x.neighbourhood.lt_below_mul k
  have hinside : (x.neighbourhood.below k + 1 : ℕ) * (10 : ℚ) ^ k <
      x.neighbourhood.high * 2 ^ x.neighbourhood.exponent := by
    have hhigh : (x.neighbourhood.high : ℚ) = 4 * x.mantissa + 2 := by
      rw [neighbourhood]
      push_cast
      ring
    have hsize := x.size_eq
    rw [middle_neighbourhood] at hbelow
    rw [hhigh]
    push_cast at hsize ⊢
    linarith
  have hmiddle := contains_middle hzero
  exact Neighbourhood.hit?_isSome hmiddle (Nat.succ_ne_zero _) ⟨hmiddle.low_le.trans habove.le,
    hinside.le, fun hopen => ⟨(hmiddle.between hopen).1.trans habove, hinside⟩⟩

/-- The shortest decimal is what is found on the first grid where anything is. -/
theorem shortest_spec (hzero : x.mantissa ≠ 0) (tie : Tie) :
    ∃ i : ℕ, x.neighbourhood.hit? tie (x.ceilLog10 - i) = some (x.shortest tie) ∧
      ∀ j < i, x.neighbourhood.hit? tie (x.ceilLog10 - (j : ℕ)) = none := by
  have hsome : ((List.range 22).findSome? fun (i : ℕ) =>
      x.neighbourhood.hit? tie (x.ceilLog10 - i)).isSome :=
    List.findSome?_isSome_iff.mpr ⟨21, by decide, exists_hit? hzero tie⟩
  obtain ⟨d, hd⟩ := Option.isSome_iff_exists.mp hsome
  have hshortest : x.shortest tie = d := by
    rw [shortest, if_neg hzero, hd]
    rfl
  obtain ⟨earlier, i, later, hsplit, hhit, hearlier⟩ := List.findSome?_eq_some_iff.mp hd
  refine ⟨i, by rw [hhit, hshortest], fun j hj => hearlier j ?_⟩
  have hordered := List.pairwise_lt_range (n := 22)
  rw [hsplit, List.pairwise_append, List.pairwise_cons] at hordered
  have hi : i < 22 := List.mem_range.mp (hsplit ▸ by simp)
  have hmem : j ∈ earlier ++ i :: later := hsplit ▸ List.mem_range.mpr (hj.trans hi)
  rcases List.mem_append.mp hmem with hmem | hmem
  · exact hmem
  rcases List.mem_cons.mp hmem with rfl | hmem
  · exact absurd hj (lt_irrefl _)
  · exact absurd hj (hordered.2.1.1 j hmem).not_gt

/-- The shortest decimal is the nearest on its grid. -/
theorem isNearest_shortest (hzero : x.mantissa ≠ 0) (tie : Tie) :
    x.neighbourhood.IsNearest (x.shortest tie).exponent (x.shortest tie) := by
  obtain ⟨i, hhit, -⟩ := shortest_spec hzero tie
  have hnearest := Neighbourhood.isNearest_of_hit? (contains_middle hzero) hhit
  rwa [← hnearest.exponent_eq] at hnearest

theorem contains_shortest (hzero : x.mantissa ≠ 0) (tie : Tie) :
    x.neighbourhood.Contains (x.shortest tie).value :=
  (isNearest_shortest hzero tie).contains

/-- No decimal in the interval lies on a coarser grid than the shortest one. -/
theorem not_contains_of_coarser (hzero : x.mantissa ≠ 0) {tie : Tie}
    (hk : (x.shortest tie).exponent < k) (count : ℕ) :
    ¬x.neighbourhood.Contains (count * 10 ^ k) := by
  intro hcontains
  have hcount := count_ne_zero hzero hcontains
  obtain ⟨i, hhit, hfirst⟩ := shortest_spec hzero tie
  have hexponent := (Neighbourhood.isNearest_of_hit? (contains_middle hzero) hhit).exponent_eq
  rcases le_or_gt k x.ceilLog10 with hle | hgt
  · -- A grid that was searched before.
    have hnone := hfirst (x.ceilLog10 - k).toNat (by omega)
    rw [show x.ceilLog10 - ((x.ceilLog10 - k).toNat : ℕ) = k by omega] at hnone
    have hsome : (x.neighbourhood.hit? tie k).isSome :=
      Neighbourhood.hit?_isSome (contains_middle hzero) hcount hcontains
    rw [hnone] at hsome
    cases hsome
  · -- A grid before the first one.
    have hgrid : (10 : ℚ) ^ (x.ceilLog10 + 1) ≤ count * 10 ^ k :=
      calc (10 : ℚ) ^ (x.ceilLog10 + 1) ≤ 10 ^ k := zpow_le_zpow_right₀ (by norm_num) hgt
        _ ≤ count * 10 ^ k := le_mul_of_one_le_left (by positivity)
          (mod_cast Nat.one_le_iff_ne_zero.mpr hcount)
    exact absurd (hgrid.trans hcontains.le_high) (high_lt_ten_zpow hzero).not_ge

/-! ## Whole numbers -/

/-- A double with a whole number in its interval is whole in size. -/
theorem exists_size_eq_of_contains {m : ℕ} (h : x.neighbourhood.Contains m) :
    ∃ m : ℕ, x.size = m := by
  rcases le_or_gt 0 x.exponent with he | he
  · obtain ⟨e, he⟩ := Int.eq_ofNat_of_zero_le he
    refine ⟨x.mantissa * 2 ^ e, ?_⟩
    rw [size, he]
    push_cast
    rfl
  · refine ⟨m, ?_⟩
    obtain ⟨e, he⟩ := Int.eq_ofNat_of_zero_le (show 0 ≤ -x.exponent by omega)
    have hunit : (0 : ℚ) < 2 ^ x.neighbourhood.exponent := by positivity
    have hm : (m : ℚ) = (4 * (m * 2 ^ e) : ℕ) * 2 ^ x.neighbourhood.exponent := by
      have hexponent : x.neighbourhood.exponent = -(e : ℤ) - 2 := by
        change x.exponent - 2 = -(e : ℤ) - 2
        omega
      rw [hexponent, zpow_sub₀ two_ne_zero, zpow_neg, zpow_natCast]
      push_cast
      field_simp
    have hlow := h.low_le
    have hhigh := h.le_high
    rw [hm, mul_le_mul_iff_left₀ hunit, Nat.cast_le] at hlow hhigh
    -- Four units apart, only the double itself is left.
    have hmantissa : x.mantissa = m * 2 ^ e := by
      have hle := x.le_low
      change _ ≤ 4 * x.mantissa + 2 at hhigh
      omega
    rw [size_eq, hmantissa, ← hm]

/-- The shortest decimal of a double that is whole in size is whole, since the double itself lies on the
grid of ones. -/
theorem exponent_shortest_nonneg (hzero : x.mantissa ≠ 0) {m : ℕ} (h : x.size = m) (tie : Tie) :
    0 ≤ (x.shortest tie).exponent := by
  by_contra hneg
  refine not_contains_of_coarser hzero (not_le.mp hneg) m ?_
  rw [zpow_zero, mul_one, ← h]
  exact contains_size hzero

/-- The shortest decimal of a double that is not whole has places behind the point. -/
theorem exponent_shortest_neg (hzero : x.mantissa ≠ 0) (h : ∀ m : ℕ, x.size ≠ m) (tie : Tie) :
    (x.shortest tie).exponent < 0 := by
  by_contra hexponent
  obtain ⟨e, he⟩ := Int.eq_ofNat_of_zero_le (not_lt.mp hexponent)
  have hcontains := contains_shortest hzero tie
  have hwhole : (x.shortest tie).value = ((x.shortest tie).digits * 10 ^ e : ℕ) := by
    rw [Decimal.value, he]
    push_cast
    rfl
  obtain ⟨m, hm⟩ := exists_size_eq_of_contains (hwhole ▸ hcontains)
  exact h m hm

/-! ## The number that is written -/

/-- The number that the shortest decimal of a double stands for. -/
def written (x : Binary64) (tie : Tie) : ℚ :=
  x.sign * (x.shortest tie).value

/-- A decimal is the shortest one for a double: it is near to the double, no decimal on a coarser grid
is, and of those on its grid it is the nearest. -/
structure IsShortest (x : Binary64) (d : Decimal) : Prop where
  /-- It is near to the double. -/
  nears : x.Nears (x.sign * d.value)
  /-- No decimal on a coarser grid is near to it. -/
  coarsest : ∀ k > d.exponent, ∀ count : ℕ, ¬x.Nears (x.sign * (count * 10 ^ k))
  /-- No decimal on the same grid that is near to it is nearer. -/
  nearest : ∀ count : ℕ, x.Nears (x.sign * (count * 10 ^ d.exponent)) →
    |x.size - d.value| ≤ |x.size - count * 10 ^ d.exponent|

theorem nears_sign_mul (hzero : x.mantissa ≠ 0) : x.Nears (x.sign * q) ↔ x.neighbourhood.Contains q := by
  simp [Nears, hzero, sign_mul_sign_mul]

/-- What the search finds is the shortest decimal. -/
theorem isShortest_shortest (hzero : x.mantissa ≠ 0) (tie : Tie) : x.IsShortest (x.shortest tie) where
  nears := (nears_sign_mul hzero).mpr (contains_shortest hzero tie)
  coarsest _ hk count hnears :=
    not_contains_of_coarser hzero hk count ((nears_sign_mul hzero).mp hnears)
  nearest count hnears := by
    have hcontains := (nears_sign_mul hzero).mp hnears
    have hnearest := (isNearest_shortest hzero tie).nearest count (count_ne_zero hzero hcontains)
      hcontains
    rwa [middle_neighbourhood] at hnearest

/-- What is written of a double is near to it. -/
theorem nears_written (x : Binary64) (tie : Tie) : x.Nears (x.written tie) := by
  by_cases hzero : x.mantissa = 0
  · refine .inl ⟨hzero, ?_⟩
    rw [written, shortest, if_pos hzero, Decimal.value]
    simp
  · exact (isShortest_shortest hzero tie).nears

end VersionedTables.Binary64
