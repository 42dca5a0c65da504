import VersionedTables.Binary64

/-!
# Reading decimals

How a decimal becomes a double: its digits are rounded to a double, and this is multiplied by, or
divided by, the power of ten, which was rounded to a double itself. A decimal with fewer than 54
significant bits and a power of ten of at most 22 places is rounded once, in the last step, and so
becomes the nearest double. Other decimals are rounded up to four times and may miss the nearest
double by a little: reading favours short arithmetic over the last bit.
-/

namespace VersionedTables.Binary64

/-- The double nearest to `± num / den · 2 ^ exponent`, for a positive `den`. -/
def ofScaledRatio? (negative : Bool) (num den : Nat) (exponent : Int) : Option Binary64 :=
  ofRatio? negative (num <<< exponent.toNat) (den <<< (-exponent).toNat)

/-- The double nearest to a product. -/
def mul? (x y : Binary64) : Option Binary64 :=
  ofScaledRatio? (x.negative != y.negative) (x.mantissa * y.mantissa) 1 (x.exponent + y.exponent)

/-- The double nearest to a quotient, for a divisor that is not zero. -/
def div? (x y : Binary64) : Option Binary64 :=
  ofScaledRatio? (x.negative != y.negative) x.mantissa y.mantissa (x.exponent - y.exponent)

/-- The largest number of places in a power of ten that is a double. -/
def maxPlaces : Nat := 308

/-- The double nearest to a power of ten. -/
def tenPower? (places : Nat) : Option Binary64 :=
  if places ≤ maxPlaces then ofRatio? false (Nat.pow 10 places) 1 else none

/-- A double multiplied by a power of ten. -/
def mulTenPower? (x : Binary64) (places : Nat) : Option Binary64 := do
  x.mul? (← tenPower? places)

/-- A double divided by a power of ten. A power that is too large for a double is divided by in two
steps, and after these nothing is left of a number that was below `2 ^ 64`. -/
def divTenPower? (x : Binary64) (places : Nat) : Option Binary64 := do
  if places ≤ maxPlaces then x.div? (← tenPower? places)
  else if places ≤ 2 * maxPlaces then
    let shifted ← x.div? (← tenPower? maxPlaces)
    shifted.div? (← tenPower? (places - maxPlaces))
  else return zero x.negative

/-- The double that `± digits · 10 ^ exponent` is read as, for digits that 64 bits hold. There is
none when the number is too large in size. -/
def ofDecimal? (negative : Bool) (digits : Nat) (exponent : Int) : Option Binary64 := do
  let x ← ofRatio? negative digits 1
  if digits = 0 then return x
  else if exponent < 0 then x.divTenPower? exponent.natAbs
  else x.mulTenPower? exponent.natAbs

end VersionedTables.Binary64
