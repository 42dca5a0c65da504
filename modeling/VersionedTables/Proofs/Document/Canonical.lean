import VersionedTables.Document.Fingerprint
import VersionedTables.Proofs.Document.Literals

/-!
# Canonical texts of numbers

The canonical text of a number is written positionally, and so it is as long as the number is large
or small. It is short all the same: the exponents of doubles are bounded, and with them the places
of the decimals that stand for them (`Binary64.length_chars_shortest_le`). Nothing here is a tight bound.
-/

namespace VersionedTables

/-- A character takes four bytes at most. -/
theorem utf8ByteSize_le (text : String) : text.utf8ByteSize ≤ 4 * text.toList.length := by
  have hchars (chars : List Char) : String.utf8Len chars ≤ 4 * chars.length := by
    induction chars with
    | nil => exact Nat.le_refl 0
    | cons c rest ih =>
      have hc := c.utf8Size_le_four
      rw [String.utf8Len, List.length_cons]
      omega
  rw [← String.ofList_toList (s := text), String.utf8ByteSize_ofList, String.toList_ofList]
  exact hchars _

/-- A whole number has as many characters as it has digits, and a sign. -/
theorem length_toString_le {value : Int} (places : Nat) (hplaces : 0 < places)
    (h : value.natAbs < 10 ^ places) : (toString value).toList.length ≤ places + 1 := by
  cases value with
  | ofNat n =>
    have hlength := (Nat.length_toDigits_le_iff (b := 10) (by decide) hplaces).mpr h
    rw [toList_toString_ofNat]
    exact Nat.le_succ_of_le hlength
  | negSucc n =>
    have hlength := (Nat.length_toDigits_le_iff (b := 10) (by decide) hplaces).mpr h
    rw [toList_toString_negSucc]
    exact Nat.succ_le_succ hlength

namespace Decimal

/-- What is written positionally are the digits, zeros and a point. -/
theorem length_positional_le (d : Decimal) :
    (d.positional false).length ≤ d.chars.length + d.exponent.natAbs + 2 := by
  rw [positional]
  split
  · simp [zeros]
    omega
  split
  · simp [zeros]
    omega
  · simp
    omega

end Decimal

namespace Binary64

variable {tie : Tie} {k : Int} {d : Decimal}

/-- The point of a grid that is found is one of the two next to the number, and so it is not larger
than the number in units of the grid, but for one step. -/
theorem Neighbourhood.hit?_le {n : Neighbourhood} (h : n.hit? tie k = some d) :
    d.exponent = k ∧ d.digits ≤ n.value * (10 ^ (-k).toNat * 2 ^ n.exponent.toNat) + 1 := by
  have hbelow := Nat.div_le_self (n.value * (10 ^ (-k).toNat * 2 ^ n.exponent.toNat))
    (10 ^ k.toNat * 2 ^ (-n.exponent).toNat)
  have hpick (upper : Prop) [Decidable upper] {below size : Nat} (hle : below ≤ size) :
      (if upper then below + 1 else below) ≤ size + 1 := by
    split <;> omega
  simp only [hit?, Nat.shiftLeft_eq, Nat.pow_eq] at h
  split at h
  · cases h
    exact ⟨rfl, hpick _ hbelow⟩
  split at h
  · cases h
    exact ⟨rfl, Nat.le_succ_of_le hbelow⟩
  split at h
  · cases h
    exact ⟨rfl, Nat.succ_le_succ hbelow⟩
  · cases h

/-- The decimal that is found lies on one of the grids that are searched. -/
theorem shortest_cases (tie : Tie) (x : Binary64) :
    x.shortest tie = ⟨0, 0⟩ ∨
      ∃ i < 22, x.neighbourhood.hit? tie (x.ceilLog10 - (i : Nat)) = some (x.shortest tie) := by
  rw [shortest]
  split
  · exact .inl rfl
  · rcases hfound : (List.range 22).findSome? fun (i : Nat) =>
      x.neighbourhood.hit? tie (x.ceilLog10 - i) with _ | d
    · exact .inl (by simp)
    · obtain ⟨i, hi, hhit⟩ := List.exists_of_findSome?_eq_some hfound
      exact .inr ⟨i, List.mem_range.mp hi, by simpa [hfound] using hhit⟩

theorem ceilLog10_natAbs_le (x : Binary64) : x.ceilLog10.natAbs ≤ 350 := by
  have hlog : x.mantissa.log2 < 53 := by
    by_cases hzero : x.mantissa = 0
    · rw [hzero]
      decide
    · exact (Nat.log2_lt hzero).mpr x.mantissa_lt
  have hge := x.exponent_ge
  have hle := x.exponent_le
  rw [ceilLog10]
  omega

theorem natAbs_exponent_shortest_le (tie : Tie) (x : Binary64) :
    (x.shortest tie).exponent.natAbs ≤ 400 := by
  have hceil := x.ceilLog10_natAbs_le
  rcases x.shortest_cases tie with hzero | ⟨i, hi, hhit⟩
  · rw [hzero]
    exact Nat.zero_le _
  · rw [(Neighbourhood.hit?_le hhit).1]
    omega

/-- Digits of a decimal come from the digits of the mantissa and from the places on both sides of the
point. -/
theorem length_chars_shortest_le (tie : Tie) (x : Binary64) :
    (x.shortest tie).chars.length ≤ 1500 := by
  have hexponent := x.natAbs_exponent_shortest_le tie
  have hle := x.exponent_le
  rcases x.shortest_cases tie with hzero | ⟨i, -, hhit⟩
  · rw [hzero]
    decide
  obtain ⟨hk, hdigits⟩ := Neighbourhood.hit?_le hhit
  rw [← hk, neighbourhood] at hdigits
  dsimp only at hdigits
  generalize hten : (-(x.shortest tie).exponent).toNat = ten at hdigits
  generalize htwo : (x.exponent - 2).toNat = two at hdigits
  have hlt : (x.shortest tie).digits < 10 ^ (20 + (ten + two)) := by
    have hmantissa := x.mantissa_lt
    have hpos : 0 < 10 ^ ten * 2 ^ two := by positivity
    calc (x.shortest tie).digits
        ≤ 4 * x.mantissa * (10 ^ ten * 2 ^ two) + 1 := hdigits
      _ ≤ 4 * x.mantissa * (10 ^ ten * 2 ^ two) + 10 ^ ten * 2 ^ two := by omega
      _ = (4 * x.mantissa + 1) * (10 ^ ten * 2 ^ two) := by ring
      _ < 10 ^ 20 * (10 ^ ten * 2 ^ two) := Nat.mul_lt_mul_of_pos_right (by omega) hpos
      _ ≤ 10 ^ 20 * (10 ^ ten * 10 ^ two) := by gcongr; decide
      _ = 10 ^ (20 + (ten + two)) := by rw [← pow_add, ← pow_add]
  have hlength := (Nat.length_toDigits_le_iff (by decide) (by omega)).mpr hlt
  rw [Decimal.chars]
  omega

/-- The text of a double is short, even where all its places are written out. -/
theorem length_text_le (x : Binary64) : (x.text Number.canonicalStyle).toList.length ≤ 2000 := by
  have hexponent := x.natAbs_exponent_shortest_le .up
  have hchars := x.length_chars_shortest_le .up
  have hpositional := (x.shortest .up).length_positional_le
  rw [text, String.toList_ofList]
  simp only [Number.canonicalStyle, if_true]
  split
  · rw [List.length_cons]
    omega
  · omega

end Binary64

/-- The canonical text of a number is short, if the number has 64 bits. -/
theorem Number.utf8ByteSize_canonical_lt {value : Number}
    (h : ∀ n, value = .whole n → isWhole64 n = true) : value.canonical.utf8ByteSize < 2 ^ 64 := by
  suffices hlength : value.canonical.toList.length ≤ 2000 by
    have hsize := utf8ByteSize_le value.canonical
    omega
  cases value with
  | whole n =>
    have hwhole := h n rfl
    rw [isWhole64, Bool.and_eq_true, decide_eq_true_iff, decide_eq_true_iff] at hwhole
    refine (length_toString_le 20 (by decide) ?_).trans (by decide)
    omega
  | double x =>
    rw [canonical]
    split
    · split
      · next n hle =>
        refine (length_toString_le 20 (by decide) ?_).trans (by decide)
        rw [maxExactWhole] at hle
        omega
      · exact x.length_text_le
    · exact x.length_text_le

end VersionedTables
