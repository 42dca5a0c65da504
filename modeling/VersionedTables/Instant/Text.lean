import VersionedTables.Instant

/-!
# Instants as text

Writing an instant has one form: date, `T`, time, as many fraction digits as it takes in groups of
three, and `Z`. Reading knows two: the strict form of a request, with fixed widths, and the
lenient form of a stored file, which lets numbers be shorter and blanks stand between them.
-/

namespace VersionedTables

namespace Instant

/-! ## Writing -/

/-- A number with zeros in front up to a width. -/
def padded (width n : Nat) : String :=
  let digits := Nat.toDigits 10 n
  String.ofList (List.replicate (width - digits.length) '0' ++ digits)

/-- A year has four digits; one that needs more, or lies before the year zero, has a sign. -/
def yearText (year : Int) : String :=
  if 0 ≤ year && year ≤ 9999 then padded 4 year.toNat
  else (if year < 0 then "-" else "+") ++ padded 4 year.natAbs

/-- A fraction of a second, in the fewest groups of three digits that lose nothing. -/
def fractionText (nanos : Nat) : String :=
  if nanos == 0 then ""
  else if nanos % 1000000 == 0 then "." ++ padded 3 (nanos / 1000000)
  else if nanos % 1000 == 0 then "." ++ padded 6 (nanos / 1000)
  else "." ++ padded 9 nanos

/-- The text of an instant. -/
def text (t : Instant) : String :=
  let days := t.seconds.fdiv 86400
  let date := Date.ofDayNumber days
  let second := (t.seconds - days * 86400).toNat
  let leap := t.nanos / 1000000000
  yearText date.year ++ "-" ++ padded 2 date.month ++ "-" ++ padded 2 date.day ++ "T" ++
    padded 2 (second / 3600) ++ ":" ++ padded 2 (second / 60 % 60) ++ ":" ++
    padded 2 (second % 60 + leap) ++ fractionText (t.nanos % 1000000000) ++ "Z"

/-! ## Reading -/

/-- How much a reader of instants lets pass. -/
inductive Strictness where
  /-- Every number has its full width and nothing stands between the parts. -/
  | strict
  /-- Numbers may be shorter, a year may have a sign, and blanks may stand between the parts. -/
  | lenient
  deriving DecidableEq, Repr

/-- The characters that count as blank. -/
def isBlank (c : Char) : Bool :=
  let n := c.toNat
  (9 ≤ n && n ≤ 13) || n == 0x20 || n == 0x85 || n == 0xA0 || n == 0x1680 ||
    (0x2000 ≤ n && n ≤ 0x200A) || n == 0x2028 || n == 0x2029 || n == 0x202F || n == 0x205F ||
    n == 0x3000

/-- A reader of the start of a text, which answers with a value and what is left. -/
abbrev Scan (α : Type) := StateT (List Char) Option α

namespace Scan

/-- Skips blanks, where they are let pass. -/
def blanks (style : Strictness) : Scan Unit :=
  modify fun chars => match style with
    | .strict => chars
    | .lenient => chars.dropWhile isBlank

/-- The number at the start of a text, of at least `least` and at most `most` digits. -/
def number (least most : Nat) : Scan Nat := do
  let digits := ((← get).take most).takeWhile Char.isDigit
  if digits.length < least || digits.isEmpty then failure
  modify (·.drop digits.length)
  return digits.foldl (fun n c => 10 * n + (c.toNat - '0'.toNat)) 0

/-- A number of `width` digits; a lenient reader lets fewer pass. -/
def field (style : Strictness) (width : Nat) : Scan Nat := do
  blanks style
  number (if style = .strict then width else 1) width

/-- One of the given characters. -/
def oneOf (allowed : List Char) : Scan Char := do
  match ← get with
  | c :: rest =>
    if allowed.contains c then
      set rest
      return c
    else failure
  | [] => failure

/-- A separator between two numbers. -/
def separator (style : Strictness) (c : Char) : Scan Unit := do
  blanks style
  let _ ← oneOf [c]

/-- The character at the start of a text, if it is one of the given ones. -/
def optional? (allowed : List Char) : Scan (Option Char) := do
  match ← get with
  | c :: rest =>
    if allowed.contains c then
      set rest
      return some c
    else return none
  | [] => return none

/-- The year. A lenient reader takes a sign, and then any number of digits. -/
def year (style : Strictness) : Scan Int := do
  blanks style
  match style with
  | .strict => number 4 4
  | .lenient =>
    match ← optional? ['+', '-'] with
    | none => number 1 4
    | some sign =>
      let n ← number 1 (← get).length
      return if sign == '-' then -n else n

/-- The nanoseconds that the digits of a fraction spell; digits behind the ninth do not count. -/
def fractionNanos (digits : List Char) : Nat :=
  let kept := digits.take 9
  kept.foldl (fun n c => 10 * n + (c.toNat - '0'.toNat)) 0 * Nat.pow 10 (9 - kept.length)

/-- The fraction of a second, in nanoseconds. -/
def fraction : Scan Nat := do
  match ← get with
  | '.' :: rest =>
    let digits := rest.takeWhile Char.isDigit
    if digits.isEmpty then failure
    set (rest.drop digits.length)
    return fractionNanos digits
  | _ => return 0

/-- The distance from universal time, in seconds: a `Z`, or a sign with hours and minutes. A
lenient reader also takes the letters `UTC`, and anything blank for the colon. -/
def offset (style : Strictness) : Scan Int := do
  blanks style
  let chars ← get
  if style = .lenient && (chars.take 3).map Char.toLower == ['u', 't', 'c'] then
    set (chars.drop 3)
    return 0
  match ← oneOf ['Z', 'z', '+', '-', '−'] with
  | 'Z' | 'z' => return 0
  | sign =>
    let hours ← number 2 2
    match style with
    | .strict =>
      let _ ← oneOf [':']
    | .lenient => modify fun chars => chars.dropWhile fun c => c == ':' || isBlank c
    let minutes ← number 2 2
    if minutes > 59 then failure
    let size : Int := hours * 3600 + minutes * 60
    return if sign == '+' then size else -size

/-- A date, a time and an offset. A sixtieth second is a leap second. -/
def instant (style : Strictness) : Scan Instant := do
  let year ← year style
  separator style '-'
  let month ← field style 2
  separator style '-'
  let day ← field style 2
  let date : Date := ⟨year, month, day⟩
  let _ ← oneOf ['T', 't', ' ']
  let hour ← field style 2
  separator style ':'
  let minute ← field style 2
  separator style ':'
  let second ← field style 2
  let nanos ← fraction
  let shift ← offset style
  if !date.isValid || hour > 23 || minute > 59 || second > 60 || shift.natAbs ≥ 86400 then failure
  let seconds := date.dayNumber * 86400 + hour * 3600 + minute * 60 + min second 59 - shift
  if !Date.inRange (Date.ofDayNumber (seconds.fdiv 86400)).year then failure
  return ⟨seconds, if second = 60 then nanos + 1000000000 else nanos⟩

end Scan

/-- The instant a text names. -/
def parse? (style : Strictness) (text : String) : Option Instant := do
  let (t, rest) ← (Scan.instant style).run text.toList
  let rest := if style = .lenient then rest.dropWhile isBlank else rest
  if rest.isEmpty then some t else none

end Instant

end VersionedTables
