/-!
# Double-precision numbers

A finite number of the 64-bit binary floating-point format, kept as what it is: a sign, a whole
number of at most 53 bits, and a power of two. Every finite double has exactly one such form, and
the two zeros are different values. Nothing here computes with machine floating point, so what a
number *is* can be stated and proved with whole numbers alone.
-/

namespace VersionedTables

/-- A finite double: `± mantissa · 2 ^ exponent`. -/
structure Binary64 where
  /-- Whether the sign is minus; a zero has a sign as well. -/
  negative : Bool
  /-- The significant bits, read as a whole number. -/
  mantissa : Nat
  /-- The power of two. -/
  exponent : Int
  /-- There are at most 53 significant bits. -/
  mantissa_lt : mantissa < 0x20000000000000
  /-- No finite double has a smaller exponent. -/
  exponent_ge : -1074 ≤ exponent
  /-- No finite double has a larger exponent. -/
  exponent_le : exponent ≤ 971
  /-- Fewer than 53 bits are used only where the exponent cannot get smaller. -/
  normal : 0x10000000000000 ≤ mantissa ∨ exponent = -1074
  deriving DecidableEq, Repr

namespace Binary64

/-- The zero of the given sign. -/
def zero (negative : Bool) : Binary64 where
  negative := negative
  mantissa := 0
  exponent := -1074
  mantissa_lt := by decide
  exponent_ge := by decide
  exponent_le := by decide
  normal := .inr rfl

/-- The double with these parts, when they are the parts of a finite double. -/
def ofParts? (negative : Bool) (mantissa : Nat) (exponent : Int) : Option Binary64 :=
  if h : mantissa < 0x20000000000000 ∧ -1074 ≤ exponent ∧ exponent ≤ 971 ∧
      (0x10000000000000 ≤ mantissa ∨ exponent = -1074) then
    some ⟨negative, mantissa, exponent, h.1, h.2.1, h.2.2.1, h.2.2.2⟩
  else none

/-! ## Rounding -/

/-- The whole number nearest to `num / den`; a tie goes to the even neighbour. -/
def roundHalfEven (num den : Nat) : Nat :=
  let quotient := num / den
  let twice := 2 * (num % den)
  if twice < den then quotient
  else if den < twice then quotient + 1
  else if quotient % 2 = 0 then quotient else quotient + 1

/-- The largest `e` with `2 ^ e ≤ num / den`, for positive `num` and `den`. -/
def floorLog2 (num den : Nat) : Int :=
  let guess : Int := (num.log2 : Int) - den.log2
  if den <<< guess.toNat ≤ num <<< (-guess).toNat then guess else guess - 1

/-- The double nearest to `± num / den`, for a positive `den`; a tie goes to the even mantissa.
There is none when the number is too large in size. -/
def ofRatio? (negative : Bool) (num den : Nat) : Option Binary64 :=
  if num = 0 then some (zero negative)
  else
    let exponent := max (-1074) (floorLog2 num den - 52)
    let mantissa := roundHalfEven (num <<< (-exponent).toNat) (den <<< exponent.toNat)
    if mantissa = 0x20000000000000 then ofParts? negative 0x10000000000000 (exponent + 1)
    else ofParts? negative mantissa exponent

/-! ## Whole numbers -/

/-- The size of a double when it is a whole number. -/
def wholeSize? (x : Binary64) : Option Nat :=
  if 0 ≤ x.exponent then some (x.mantissa <<< x.exponent.toNat)
  else if x.mantissa % (1 <<< (-x.exponent).toNat) = 0 then
    some (x.mantissa >>> (-x.exponent).toNat)
  else none

/-- The whole number a double is, if it is one. -/
def toInt? (x : Binary64) : Option Int :=
  x.wholeSize?.map fun size => if x.negative then -size else size

end Binary64

end VersionedTables
