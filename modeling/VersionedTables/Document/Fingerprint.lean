import VersionedTables.Binary64.Layout
import VersionedTables.Document
import VersionedTables.Sha256
import VersionedTables.Sorting

/-!
# Fingerprints

A document's fingerprint is the digest of its *encoding*. Every value starts with a byte that
tells its kind, texts carry their length in front, arrays and objects the number of their parts,
so no encoding is the beginning of another. What should not matter is taken out first: the
entries of an object are put in the order of their keys, and a number is written in one canonical
form, so that `1` and `1.0` have the same fingerprint.
-/

namespace VersionedTables

/-- The largest whole number below which a double has every whole number. -/
def maxExactWhole : Nat := 0x1fffffffffffff

/-- A number that is no exact whole number is written positionally with its shortest digits; of
two equally near decimals the larger is taken. -/
def Number.canonicalStyle : NumberStyle := ⟨.up, none, false⟩

/-- The canonical form of a number. A double that is a whole number not too large to be exact is
written like that whole number, and so without the sign of a zero. -/
def Number.canonical : Number → String
  | .whole value => toString value
  | .double x =>
    match x.toInt? with
    | some value => if value.natAbs ≤ maxExactWhole then toString value else x.text canonicalStyle
    | none => x.text canonicalStyle

namespace Document

/-- The byte of an ASCII character. -/
def tag (c : Char) : UInt8 :=
  c.toUInt8

/-- A length, in eight bytes. -/
def encodeLength (length : Nat) : List UInt8 :=
  Sha256.bigEndian 8 length

/-- A text: the number of its bytes, and the bytes. -/
def encodeText (text : String) : List UInt8 :=
  encodeLength text.utf8ByteSize ++ text.toByteArray.toList

/-- Orders encoded entries by their keys. -/
def sortByKey (entries : List (String × List UInt8)) : List (String × List UInt8) :=
  sortBy (fun a b => (compare a.1 b.1).isLE) entries

mutual

/-- The encoding of a document. -/
def encode : Document → List UInt8
  | .null => [tag 'n']
  | .bool value => [tag (if value then 't' else 'f')]
  | .number value => tag 'd' :: encodeText value.canonical
  | .string value => tag 's' :: encodeText value
  | .array items =>
    let parts := encodeItems items
    tag 'a' :: encodeLength parts.length ++ parts.flatten
  | .object entries =>
    let parts := sortByKey (encodeEntries entries)
    tag 'o' :: encodeLength parts.length ++
      parts.flatMap fun (key, value) => encodeText key ++ value

/-- The encodings of the items of an array. -/
def encodeItems : List Document → List (List UInt8)
  | [] => []
  | item :: rest => encode item :: encodeItems rest

/-- The encodings of the entries of an object, with their keys. -/
def encodeEntries : List (String × Document) → List (String × List UInt8)
  | [] => []
  | (key, value) :: rest => (key, encode value) :: encodeEntries rest

end

/-- The fingerprint of a document: 64 hexadecimal digits. -/
def fingerprint (document : Document) : String :=
  Sha256.hex (Sha256.digest document.encode)

end Document

end VersionedTables
