import VersionedTables.Binary64

/-!
# Shortest decimals

The shortest decimal that rounds to a given double, and of the shortest ones the nearest.

A decimal rounds to `x` when it lies in the interval of numbers that `x` is nearest to. The search
goes through the grids of multiples of `10 ^ k` from coarse to fine. On each it looks at the two
neighbours of `x`: if any point of the grid lies in the interval, one of these does. The first
grid with a hit has the fewest digits. When both neighbours hit, the nearer is taken, and of two
equally near ones the rule `Tie` decides.
-/

namespace VersionedTables

/-- Which of two equally near decimals is taken. -/
inductive Tie where
  /-- The larger in size. -/
  | up
  /-- The one whose last digit is even. -/
  | even
  deriving DecidableEq, Repr

/-- A decimal `digits · 10 ^ exponent`. -/
structure Decimal where
  /-- The digits, read as a whole number. -/
  digits : Nat
  /-- The power of ten. -/
  exponent : Int
  deriving DecidableEq, Repr

namespace Binary64

/-- A positive double as a multiple of a common unit, with the ends of the interval of numbers
that round to it. The interval holds its ends when the mantissa is even. -/
structure Neighbourhood where
  /-- The lower end, in units. -/
  low : Nat
  /-- The number itself, in units. -/
  value : Nat
  /-- The upper end, in units. -/
  high : Nat
  /-- The unit is `2 ^ exponent`. -/
  exponent : Int
  /-- Whether the ends belong to the interval. -/
  closed : Bool

/-- The neighbourhood of the size of a double. The unit is a quarter of the last bit's weight:
below a power of two the doubles lie twice as close, so the lower end is only one unit away. -/
def neighbourhood (x : Binary64) : Neighbourhood where
  low := 4 * x.mantissa - (if x.mantissa = 0x10000000000000 ∧ x.exponent ≠ -1074 then 1 else 2)
  value := 4 * x.mantissa
  high := 4 * x.mantissa + 2
  exponent := x.exponent - 2
  closed := x.mantissa % 2 = 0

/-- Whether `count · step` lies in the interval whose units are worth `scale`. -/
def Neighbourhood.holds (n : Neighbourhood) (scale step count : Nat) : Bool :=
  if n.closed then n.low * scale ≤ count * step && count * step ≤ n.high * scale
  else n.low * scale < count * step && count * step < n.high * scale

/-- The point on the grid of multiples of `10 ^ k` that is nearest to the number among those that
round to it. -/
def Neighbourhood.hit? (n : Neighbourhood) (tie : Tie) (k : Int) : Option Decimal :=
  let scale := Nat.pow 10 (-k).toNat <<< n.exponent.toNat
  let step := Nat.pow 10 k.toNat <<< (-n.exponent).toNat
  let below := n.value * scale / step
  let above := below + 1
  let lower := below ≠ 0 && n.holds scale step below
  let upper := n.holds scale step above
  let takeUpper :=
    let fromBelow := 2 * (n.value * scale % step)
    if fromBelow < step then false
    else if step < fromBelow then true
    else match tie with
      | .up => true
      | .even => below % 2 ≠ 0
  if lower && upper then some ⟨if takeUpper then above else below, k⟩
  else if lower then some ⟨below, k⟩
  else if upper then some ⟨above, k⟩
  else none

/-- The exponent of a power of ten above a positive double, at most a few steps too large:
`0.30103` is just above the logarithm of two. -/
def ceilLog10 (x : Binary64) : Int :=
  (x.exponent + x.mantissa.log2 + 1) * 30103 / 100000 + 1

/-- The shortest decimal that rounds to the size of `x`. Seventeen digits always do, so the
search ends within the twenty-two grids it looks at. Its digits do not end in a zero: such a
decimal lies on the next coarser grid, which was searched before. -/
def shortest (tie : Tie) (x : Binary64) : Decimal :=
  if x.mantissa = 0 then ⟨0, 0⟩
  else
    let found := (List.range 22).findSome? fun (i : Nat) =>
      x.neighbourhood.hit? tie (x.ceilLog10 - i)
    found.getD ⟨0, 0⟩

end Binary64

end VersionedTables
