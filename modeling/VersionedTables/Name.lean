import Std.Data.ExtTreeMap

/-!
# Names

The names people give to tables, rows and branches, and the rules a text has to meet to be one.
A table or row name is an *identifier*: ASCII letters, digits, `_` and `-`, at most 64 bytes,
starting with a letter or `_`. A branch name may be almost any text, as long as it does not look
like a way out of a directory.

Names found in a stored database are taken as they are, so a `TableName` or a `RowName` is just a
text; `TableName.parse` and its companions are the only way to get one from a request.
-/

namespace VersionedTables

/-- Why a text is not a name. -/
inductive NameFault where
  /-- The empty text names nothing. -/
  | empty
  /-- An identifier of more than `maxNameBytes` bytes. -/
  | tooLong (bytes : Nat)
  /-- An identifier starts with a character that cannot start one. -/
  | badStart (c : Char)
  /-- An identifier holds a character that has no place in one; positions count characters. -/
  | badCharacter (c : Char) (position : Nat)
  /-- A branch name that starts or ends with a slash, or holds two dots in a row. -/
  | badPath (text : String)
  deriving DecidableEq, Repr

/-- The longest identifier, in bytes. -/
def maxNameBytes : Nat := 64

/-- The sentence that tells a person what is wrong with a name. -/
def NameFault.message : NameFault → String
  | .empty => "id cannot be empty"
  | .tooLong bytes => s!"id too long: {bytes} characters (max {maxNameBytes})"
  | .badStart c => s!"id cannot start with '{c}'"
  | .badCharacter c position => s!"invalid character '{c}' at position {position}"
  | .badPath text => s!"invalid branch name: '{text}'"

/-! ## Identifiers -/

/-- An identifier starts with an ASCII letter or `_`. -/
def isNameStart (c : Char) : Bool :=
  c.isAlpha || c == '_'

/-- An identifier goes on with ASCII letters, digits, `_` and `-`. -/
def isNamePart (c : Char) : Bool :=
  c.isAlphanum || c == '_' || c == '-'

/-- The first character that cannot stand in an identifier, with its position. -/
def firstForeign (chars : List Char) : Option (Char × Nat) :=
  chars.zipIdx.find? fun (c, _) => !isNamePart c

/-- Checks a text against the rules of an identifier. The length is checked before the first
character, and the first character before the others. -/
def checkIdentifier (text : String) : Except NameFault Unit :=
  match text.toList with
  | [] => .error .empty
  | first :: rest =>
    if text.utf8ByteSize > maxNameBytes then .error (.tooLong text.utf8ByteSize)
    else if !isNameStart first then .error (.badStart first)
    else match firstForeign (first :: rest) with
      | some (c, position) => .error (.badCharacter c position)
      | none => .ok ()

/-- A table's name. Within one revision names are told apart without regard to case. -/
structure TableName where
  /-- The name as it was given. -/
  text : String
  deriving DecidableEq, Repr

/-- A row's name, unique within its table. -/
structure RowName where
  /-- The name as it was given. -/
  text : String
  deriving DecidableEq, Repr

/-- Reads a table name. -/
def TableName.parse (text : String) : Except NameFault TableName := do
  checkIdentifier text
  return ⟨text⟩

/-- Reads a row name. -/
def RowName.parse (text : String) : Except NameFault RowName := do
  checkIdentifier text
  return ⟨text⟩

/-- A text with its ASCII letters made small: two texts agree up to ASCII case when their folded
forms are equal. -/
def foldCase (text : String) : List Char :=
  text.toList.map Char.toLower

/-- Whether a text names this table: ASCII case makes no difference. -/
def TableName.matches (name : TableName) (text : String) : Bool :=
  foldCase name.text == foldCase text

/-! ## Branch names -/

/-- The name of a branch. -/
structure BranchName where
  /-- The name as it was given. -/
  text : String
  deriving DecidableEq, Repr

/-- Two dots in a row. -/
def hasTwoDots : List Char → Bool
  | '.' :: '.' :: _ => true
  | _ :: rest => hasTwoDots rest
  | [] => false

/-- Reads a branch name: any text that is not empty, neither starts nor ends with a slash, and
has no two dots in a row. -/
def BranchName.parse (text : String) : Except NameFault BranchName :=
  let chars := text.toList
  if chars.isEmpty then .error .empty
  else if hasTwoDots chars || chars.getLast? == some '/' || chars.head? == some '/' then
    .error (.badPath text)
  else .ok ⟨text⟩

/-- The branch a database has when no other is asked for. -/
def BranchName.main : BranchName := ⟨"main"⟩

/-- Branches are listed by the text of their names. -/
instance : Ord BranchName where
  compare a b := compare a.text b.text

instance : Std.TransOrd BranchName where
  eq_swap {a b} := @Std.OrientedCmp.eq_swap String compare _ a.text b.text
  isLE_trans {a b c} h₁ h₂ :=
    @Std.TransCmp.isLE_trans String compare _ a.text b.text c.text h₁ h₂

instance : Std.LawfulEqOrd BranchName where
  eq_of_compare {a b} h := by
    obtain ⟨a⟩ := a
    obtain ⟨b⟩ := b
    exact congrArg _ (@Std.LawfulEqCmp.eq_of_compare String compare _ a b h)

end VersionedTables
