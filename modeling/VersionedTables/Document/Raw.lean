import VersionedTables.Document

/-!
# What a JSON text spells

A text can follow the grammar of JSON and still spell something no document holds: a number too
large for a double, half of a surrogate pair, or an object that gives a key twice. Readers differ
in what they make of that. A value that is skipped may contain any of it; a record refuses a
repeated field; a document keeps the last of several entries. So a text is first read into a
`RawDocument`, which keeps all that was spelled, and each reader decides for itself.
-/

namespace VersionedTables

/-- The value a JSON text spells. -/
inductive RawDocument where
  /-- The word `null`. -/
  | null
  /-- A truth value. -/
  | bool (value : Bool)
  /-- A number; `none` when it is too large for a double. -/
  | number (value : Option Number)
  /-- A text; `none` when an escape names half of a surrogate pair. -/
  | string (value : Option String)
  /-- A list of values. -/
  | array (items : List RawDocument)
  /-- Entries in the order of the text, repeated keys included. -/
  | object (entries : List (Option String × RawDocument))
  deriving Repr, Inhabited

namespace RawDocument

/-- How many arrays and objects a document may have inside one another. -/
def maxNesting : Nat := 127

mutual

/-- The document a raw value spells, if there is one. At most `depth` arrays and objects may lie
inside one another. -/
def toDocument? (depth : Nat) : RawDocument → Option Document
  | .null => some .null
  | .bool value => some (.bool value)
  | .number value => value.map .number
  | .string value => value.map .string
  | .array items =>
    match depth with
    | 0 => none
    | depth + 1 => (itemsToDocuments? depth items).map .array
  | .object entries =>
    match depth with
    | 0 => none
    | depth + 1 => (entriesToDocuments? depth entries).map .ofEntries

/-- The documents of a list of raw values. -/
def itemsToDocuments? (depth : Nat) : List RawDocument → Option (List Document)
  | [] => some []
  | item :: rest => do
    let document ← toDocument? depth item
    let documents ← itemsToDocuments? depth rest
    return document :: documents

/-- The documents of a list of raw entries, with their keys. -/
def entriesToDocuments? (depth : Nat) :
    List (Option String × RawDocument) → Option (List (String × Document))
  | [] => some []
  | (key, value) :: rest => do
    let key ← key
    let document ← toDocument? depth value
    let documents ← entriesToDocuments? depth rest
    return (key, document) :: documents

end

end RawDocument

end VersionedTables
