import VersionedTables.Binary64.Layout
import VersionedTables.Document

/-!
# Writing JSON

Two ways to write a document: in one line without blanks (`Document.compact`), and spread over
lines with two blanks of indentation for every level (`Document.pretty`). Both write the entries
of an object in the order in which the document holds them.
-/

namespace VersionedTables.Document

/-- Doubles are written with a point, or with a power of ten when the first digit stands for less
than a hundred-thousandth or for ten to the sixteenth and more. Of two equally near decimals the
one with an even last digit is written. -/
def numberStyle : NumberStyle := ⟨.even, some (-5, 15), true⟩

/-- The text of a number. -/
def numberText : Number → String
  | .whole value => toString value
  | .double value => value.text numberStyle

/-- A hexadecimal digit, in small letters. -/
def hexDigit (n : Nat) : Char :=
  (Nat.toDigits 16 (n % 16)).headD '0'

/-- The characters that stand for `c` in a text literal: quotes, backslashes and control characters
are escaped, everything else stands for itself. -/
def escape (c : Char) : List Char :=
  if c == '"' then ['\\', '"']
  else if c == '\\' then ['\\', '\\']
  else if c == '\x08' then ['\\', 'b']
  else if c == '\x0c' then ['\\', 'f']
  else if c == '\n' then ['\\', 'n']
  else if c == '\r' then ['\\', 'r']
  else if c == '\t' then ['\\', 't']
  else if c < ' ' then ['\\', 'u', '0', '0', hexDigit (c.toNat / 16), hexDigit c.toNat]
  else [c]

/-- A text literal. -/
def quoted (text : String) : String :=
  String.ofList ('"' :: text.toList.flatMap escape ++ ['"'])

/-! ## In one line -/

mutual

/-- A document in one line. -/
def compact : Document → String
  | .null => "null"
  | .bool value => if value then "true" else "false"
  | .number value => numberText value
  | .string value => quoted value
  | .array items => "[" ++ String.intercalate "," (compactItems items) ++ "]"
  | .object entries => "\x7b" ++ String.intercalate "," (compactEntries entries) ++ "\x7d"

/-- The items of an array, each in one line. -/
def compactItems : List Document → List String
  | [] => []
  | item :: rest => compact item :: compactItems rest

/-- The entries of an object, each in one line. -/
def compactEntries : List (String × Document) → List String
  | [] => []
  | (key, value) :: rest => (quoted key ++ ":" ++ compact value) :: compactEntries rest

end

/-! ## Over many lines -/

/-- A line break and the indentation of a level. -/
def newLine (level : Nat) : String :=
  String.ofList ('\n' :: List.replicate (2 * level) ' ')

/-- Parts within brackets, one to a line; without parts the brackets stand together. -/
def block (level : Nat) (left right : String) (parts : List String) : String :=
  if parts.isEmpty then left ++ right
  else left ++ newLine (level + 1) ++ String.intercalate ("," ++ newLine (level + 1)) parts ++
    newLine level ++ right

mutual

/-- A document over many lines, the first of which is already indented to `level`. -/
def prettyAt (level : Nat) : Document → String
  | .array items => block level "[" "]" (prettyItems (level + 1) items)
  | .object entries => block level "\x7b" "\x7d" (prettyEntries (level + 1) entries)
  | .null => "null"
  | .bool value => if value then "true" else "false"
  | .number value => numberText value
  | .string value => quoted value

/-- The items of an array. -/
def prettyItems (level : Nat) : List Document → List String
  | [] => []
  | item :: rest => prettyAt level item :: prettyItems level rest

/-- The entries of an object. -/
def prettyEntries (level : Nat) : List (String × Document) → List String
  | [] => []
  | (key, value) :: rest =>
    (quoted key ++ ": " ++ prettyAt level value) :: prettyEntries level rest

end

/-- A document over many lines. -/
def pretty (document : Document) : String :=
  prettyAt 0 document

end VersionedTables.Document
