import VersionedTables.Binary64.Reading
import VersionedTables.Document

/-!
# Number and text literals

The two kinds of JSON literal that carry a value. Each scanner looks at the start of a list of
characters and answers with the value and the *number of characters* it takes up; what follows is
left to the caller.
-/

namespace VersionedTables.Literal

/-! ## Numbers -/

/-- The digits at the start of a text. -/
def digits (chars : List Char) : List Char :=
  chars.takeWhile Char.isDigit

/-- The number that digits spell. -/
def digitsValue (chars : List Char) : Nat :=
  chars.foldl (fun value c => 10 * value + (c.toNat - '0'.toNat)) 0

/-- A whole part is a single zero, or digits that do not start with one. -/
def wholePart? : List Char → Option (List Char)
  | '0' :: _ => some ['0']
  | chars => if (digits chars).isEmpty then none else some (digits chars)

/-- A fraction is a point and at least one digit. The answer is its digits, none when there is no
fraction at all, and the characters taken; a point without digits is no number. -/
def fraction? : List Char → Option (Option (List Char) × Nat)
  | '.' :: rest =>
    if (digits rest).isEmpty then none
    else some (some (digits rest), 1 + (digits rest).length)
  | _ => some (none, 0)

/-- The sign at the start of an exponent: whether it is minus, and the characters taken. -/
def exponentSign : List Char → Bool × Nat
  | '+' :: _ => (false, 1)
  | '-' :: _ => (true, 1)
  | _ => (false, 0)

/-- An exponent is the letter `e`, a sign that may be missing, and at least one digit. -/
def exponent? : List Char → Option (Option Int × Nat)
  | c :: rest =>
    if c == 'e' || c == 'E' then
      let (negative, width) := exponentSign rest
      let places := digits (rest.drop width)
      if places.isEmpty then none
      else
        let size : Int := digitsValue places
        some (some (if negative then -size else size), 1 + width + places.length)
    else some (none, 0)
  | [] => some (none, 0)

/-- Appends digits to a number as long as 64 bits hold it. The digits from the first one that does
not fit are given back. -/
def appendDigits (value : Nat) : List Char → Nat × List Char
  | [] => (value, [])
  | c :: rest =>
    let longer := 10 * value + (c.toNat - '0'.toNat)
    if longer < 0x10000000000000000 then appendDigits longer rest else (value, c :: rest)

/-- The double spelled by a sign, a whole part, the digits of a fraction and an exponent. Only the
leading digits count, as many as 64 bits hold; a digit of the whole part that does not count still
has its place, which the exponent makes up for. -/
def doubleValue? (negative : Bool) (whole places : List Char) (exponent : Int) : Option Binary64 :=
  let (leading, dropped) := appendDigits 0 whole
  let (leading, ignored) := appendDigits leading places
  Binary64.ofDecimal? negative leading
    (exponent + dropped.length - (places.length - ignored.length : Nat))

/-- The number spelled by a sign, a whole part, a fraction and an exponent. Without fraction and
exponent it is a whole number if 64 bits hold it; minus zero is a double, because no whole number
has its sign. -/
def numberValue? (negative : Bool) (whole : List Char) (fraction : Option (List Char))
    (exponent : Option Int) : Option Number :=
  let size : Int := digitsValue whole
  let value := if negative then -size else size
  if fraction.isNone && exponent.isNone && Number.isWhole64 value && !(negative && size == 0) then
    some (.whole value)
  else
    (doubleValue? negative whole (fraction.getD []) (exponent.getD 0)).map .double

/-- The number at the start of a text: its value, which is missing when no double is that large,
and the characters taken. -/
def number? (chars : List Char) : Option (Option Number × Nat) := do
  let negative := chars.head? == some '-'
  let sign := if negative then 1 else 0
  let whole ← wholePart? (chars.drop sign)
  let afterWhole := sign + whole.length
  let (fraction, fractionWidth) ← fraction? (chars.drop afterWhole)
  let afterFraction := afterWhole + fractionWidth
  let (exponent, exponentWidth) ← exponent? (chars.drop afterFraction)
  return (numberValue? negative whole fraction exponent, afterFraction + exponentWidth)

/-! ## Texts -/

/-- The value of a hexadecimal digit. -/
def hexDigit? (c : Char) : Option Nat :=
  if '0' ≤ c && c ≤ '9' then some (c.toNat - '0'.toNat)
  else if 'a' ≤ c && c ≤ 'f' then some (c.toNat - 'a'.toNat + 10)
  else if 'A' ≤ c && c ≤ 'F' then some (c.toNat - 'A'.toNat + 10)
  else none

/-- The sixteen bits that four hexadecimal digits spell. -/
def unit? (a b c d : Char) : Option Nat := do
  let a ← hexDigit? a
  let b ← hexDigit? b
  let c ← hexDigit? c
  let d ← hexDigit? d
  return ((a * 16 + b) * 16 + c) * 16 + d

/-- The character an escape of one letter stands for. -/
def shortEscape? : Char → Option Char
  | '"' => some '"'
  | '\\' => some '\\'
  | '/' => some '/'
  | 'b' => some '\x08'
  | 'f' => some '\x0c'
  | 'n' => some '\n'
  | 'r' => some '\r'
  | 't' => some '\t'
  | _ => none

/-- What a text literal is made of: characters, and 16-bit units that escapes name. -/
inductive Piece where
  /-- A character that stands for itself or was escaped by a letter. -/
  | char (c : Char)
  /-- A unit named by its four hexadecimal digits. -/
  | unit (value : Nat)
  deriving DecidableEq, Repr

/-- The pieces of a text literal, read from just behind its opening quote, and the characters taken
up to and including the closing one. Control characters have to be escaped. -/
def pieces? : List Char → Option (List Piece × Nat)
  | '"' :: _ => some ([], 1)
  | '\\' :: 'u' :: a :: b :: c :: d :: rest => do
    let value ← unit? a b c d
    let (pieces, width) ← pieces? rest
    return (.unit value :: pieces, 6 + width)
  | '\\' :: c :: rest => do
    let c ← shortEscape? c
    let (pieces, width) ← pieces? rest
    return (.char c :: pieces, 2 + width)
  | c :: rest =>
    if c == '\\' || c < ' ' then none
    else do
      let (pieces, width) ← pieces? rest
      return (.char c :: pieces, 1 + width)
  | [] => none

/-- The characters that pieces spell: a unit is a character, or together with the next one a
surrogate pair. Half of a pair spells nothing. -/
def spell? : List Piece → Option (List Char)
  | [] => some []
  | .char c :: rest => (spell? rest).map (c :: ·)
  | .unit high :: .unit low :: rest =>
    if 0xD800 ≤ high ∧ high < 0xDC00 then
      if 0xDC00 ≤ low ∧ low < 0xE000 then
        (spell? rest).map (Char.ofNat (0x10000 + (high - 0xD800) * 0x400 + (low - 0xDC00)) :: ·)
      else none
    else if 0xDC00 ≤ high ∧ high < 0xE000 then none
    else (spell? (.unit low :: rest)).map (Char.ofNat high :: ·)
  | .unit value :: rest =>
    if 0xD800 ≤ value ∧ value < 0xE000 then none
    else (spell? rest).map (Char.ofNat value :: ·)

/-- The text literal whose opening quote was just read: its text, which is missing when an escape
names half of a surrogate pair, and the characters taken. -/
def text? (chars : List Char) : Option (Option String × Nat) := do
  let (pieces, width) ← pieces? chars
  return ((spell? pieces).map String.ofList, width)

end VersionedTables.Literal
