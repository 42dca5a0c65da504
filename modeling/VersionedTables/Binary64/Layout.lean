import VersionedTables.Binary64.Shortest

/-!
# Number texts

How the digits of a number are laid out: positionally, or with one digit before the point and a
power of ten behind. A `NumberStyle` collects what one output decides about its numbers.
-/

namespace VersionedTables

/-- How an output writes doubles. -/
structure NumberStyle where
  /-- Which of two equally near decimals is written. -/
  tie : Tie
  /-- The smallest and the largest power of ten of the first digit that are written positionally;
  without bounds every number is. -/
  positional : Option (Int × Int)
  /-- Whether a whole number written positionally ends in `.0`. -/
  pointZero : Bool

namespace Decimal

/-- `count` zeros. -/
def zeros (count : Nat) : List Char :=
  List.replicate count '0'

/-- The digits of a decimal. -/
def chars (d : Decimal) : List Char :=
  Nat.toDigits 10 d.digits

/-- The power of ten that the first digit stands for. -/
def leading (d : Decimal) : Int :=
  d.chars.length + d.exponent - 1

/-- A decimal with all its places written out. -/
def positional (pointZero : Bool) (d : Decimal) : List Char :=
  let behind := (-d.exponent).toNat
  if behind = 0 then
    d.chars ++ zeros d.exponent.toNat ++ (if pointZero then ['.', '0'] else [])
  else if d.chars.length ≤ behind then
    '0' :: '.' :: zeros (behind - d.chars.length) ++ d.chars
  else
    d.chars.take (d.chars.length - behind) ++ '.' :: d.chars.drop (d.chars.length - behind)

/-- The sign and digits of a power of ten. -/
def powerOfTen (e : Int) : List Char :=
  (if e < 0 then '-' else '+') :: Nat.toDigits 10 e.natAbs

/-- A decimal with one digit before the point and a power of ten behind. -/
def scientific (d : Decimal) : List Char :=
  match d.chars with
  | [] => []
  | [c] => c :: 'e' :: powerOfTen d.leading
  | c :: rest => c :: '.' :: rest ++ 'e' :: powerOfTen d.leading

end Decimal

namespace Binary64

/-- The text of a double in the given style: its sign, and its shortest digits laid out. -/
def text (style : NumberStyle) (x : Binary64) : String :=
  let d := x.shortest style.tie
  let positionally := match style.positional with
    | none => true
    | some (least, greatest) => x.mantissa = 0 || (least ≤ d.leading && d.leading ≤ greatest)
  let digits := if positionally then d.positional style.pointZero else d.scientific
  String.ofList (if x.negative then '-' :: digits else digits)

end Binary64

end VersionedTables
