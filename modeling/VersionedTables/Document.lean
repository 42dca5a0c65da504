import VersionedTables.Binary64

/-!
# Documents

The JSON documents that rows hold. Numbers are kept in the three shapes a document can write them
in: whole numbers of 64 bits, with or without a sign, and doubles for everything else. The entries
of an object are kept in a list, so that a writer can choose their order; a document that was
*read* has them sorted by key, each key once (`Document.ofEntries`).
-/

namespace VersionedTables

/-- A number of a document. -/
inductive Number where
  /-- A whole number written without a point or an exponent. -/
  | whole (value : Int)
  /-- Every other number. -/
  | double (value : Binary64)
  deriving DecidableEq, Repr

/-- The whole numbers a document can hold as such: those of 64 bits, signed or unsigned. -/
def Number.isWhole64 (value : Int) : Bool :=
  -0x8000000000000000 ≤ value && value < 0x10000000000000000

/-- A JSON document. -/
inductive Document where
  /-- The absent value. -/
  | null
  /-- A truth value. -/
  | bool (value : Bool)
  /-- A number. -/
  | number (value : Number)
  /-- A text. -/
  | string (value : String)
  /-- A list of documents. -/
  | array (items : List Document)
  /-- Documents under keys. -/
  | object (entries : List (String × Document))
  deriving Repr, Inhabited

namespace Document

/-- A whole number as a document. -/
def ofInt (value : Int) : Document :=
  .number (.whole value)

/-- A count as a document. -/
def ofNat (value : Nat) : Document :=
  .number (.whole value)

/-- A text as a document. -/
instance : Coe String Document := ⟨.string⟩

/-- A truth value as a document. -/
instance : Coe Bool Document := ⟨.bool⟩

/-- A value that may be missing, with the null document for its absence. -/
def ofOption {α : Type} (encode : α → Document) : Option α → Document
  | some value => encode value
  | none => .null

/-! ## Objects -/

/-- Puts an entry into a list sorted by key, in the place of an entry with the same key. -/
def insertEntry {α : Type} (key : String) (value : α) :
    List (String × α) → List (String × α)
  | [] => [(key, value)]
  | (k, v) :: rest =>
    match compare key k with
    | .lt => (key, value) :: (k, v) :: rest
    | .eq => (key, value) :: rest
    | .gt => (k, v) :: insertEntry key value rest

/-- Sorts entries by key; of several entries with one key the last is kept. -/
def sortEntries {α : Type} (entries : List (String × α)) : List (String × α) :=
  entries.foldl (fun sorted entry => insertEntry entry.1 entry.2 sorted) []

/-- The object with these entries, sorted by key; of several entries with one key the last is
kept. -/
def ofEntries (entries : List (String × Document)) : Document :=
  .object (sortEntries entries)

/-- The document under a key of an object. -/
def get? (document : Document) (key : String) : Option Document :=
  match document with
  | .object entries => entries.lookup key
  | _ => none

end Document

end VersionedTables
