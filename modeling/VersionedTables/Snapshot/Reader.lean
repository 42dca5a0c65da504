import VersionedTables.Document.Reader
import VersionedTables.Fault
import VersionedTables.Snapshot.Writer

/-!
# Reading snapshots

A record is read from an object that gives each of its fields at most once, in any order and
among fields that mean nothing here; or from an array that gives exactly its fields in their
order. Only a field that may be absent may be missing or null. Maps take the last of several
entries with one key, and sets do not mind repetition.

Names and identifiers are taken as they are, and a record is kept under the key it was found
under. What is checked at the end is the format and the integrity of the store, in this order.
-/

namespace VersionedTables

open Std

/-! ## Values -/

namespace RawDocument

/-- A text. -/
def text? : RawDocument → Option String
  | .string value => value
  | _ => none

/-- A truth value. -/
def bool? : RawDocument → Option Bool
  | .bool value => some value
  | _ => none

/-- An instant. -/
def instant? (raw : RawDocument) : Option Instant := do
  Instant.parse? .lenient (← raw.text?)

/-- A whole number of 32 bits without sign. -/
def count32? : RawDocument → Option Nat
  | .number (some (.whole value)) =>
    if 0 ≤ value && value < 0x100000000 then some value.toNat else none
  | _ => none

/-- The keys and values of an object, with the keys spelled out. -/
def entries? : RawDocument → Option (List (String × RawDocument))
  | .object entries => entries.mapM fun (key, value) => do return (← key, value)
  | _ => none

/-- A map: the last of several entries with one key is kept. -/
def map? {κ ν : Type} [Ord κ] [TransOrd κ] (key : String → κ) (value? : RawDocument → Option ν)
    (raw : RawDocument) : Option (ExtTreeMap κ ν compare) := do
  let entries ← raw.entries?
  entries.foldlM (fun map (text, value) => do return map.insert (key text) (← value? value)) ∅

/-- A set of identifiers. -/
def idSet? {kind : IdKind} : RawDocument → Option (ExtTreeSet (Id kind) compare)
  | .array items =>
    items.foldlM (fun set item => do return set.insert ⟨← item.text?⟩) ∅
  | _ => none

/-! ## Records -/

/-- The fields of a record that were given. -/
abbrev Fields := List (String × RawDocument)

/-- Whether a list of entries gives a key more than once. -/
def repeats (entries : Fields) (key : String) : Bool :=
  1 < (entries.filter (·.1 == key)).length

/-- The fields of a record with the given names. -/
def fields? (names : List String) : RawDocument → Option Fields
  | .array items => if items.length = names.length then some (names.zip items) else none
  | raw => do
    let entries ← raw.entries?
    if names.any (repeats entries) then none else some entries

namespace Fields

/-- A field that has to be given. -/
def required {α : Type} (fields : Fields) (name : String) (value? : RawDocument → Option α) :
    Option α := do
  value? (← fields.lookup name)

/-- A field that may be missing or null. -/
def optional {α : Type} (fields : Fields) (name : String) (value? : RawDocument → Option α) :
    Option (Option α) :=
  match fields.lookup name with
  | none | some .null => some none
  | some raw => (value? raw).map some

/-- An identifier that has to be given. -/
def id {kind : IdKind} (fields : Fields) (name : String) : Option (Id kind) :=
  (fields.required name text?).map fun text => ⟨text⟩

end Fields

/-- A branch. -/
def branch? (raw : RawDocument) : Option Branch := do
  let fields ← raw.fields? ["id", "created_at"]
  return {
    name := ⟨← fields.required "id" text?⟩
    createdAt := ← fields.required "created_at" instant? }

/-- A revision. -/
def revision? (raw : RawDocument) : Option Revision := do
  let fields ← raw.fields? ["id", "branch_id", "parent_id", "is_start", "is_head", "is_draft",
    "has_changes", "comment", "created_at"]
  return {
    id := ← fields.id "id"
    branch := ⟨← fields.required "branch_id" text?⟩
    parent := (← fields.optional "parent_id" text?).map fun text => ⟨text⟩
    isStart := ← fields.required "is_start" bool?
    isHead := ← fields.required "is_head" bool?
    isDraft := ← fields.required "is_draft" bool?
    hasChanges := ← fields.required "has_changes" bool?
    comment := ← fields.optional "comment" text?
    createdAt := ← fields.required "created_at" instant? }

/-- A table version. -/
def table? (raw : RawDocument) : Option TableVersion := do
  let fields ← raw.fields? ["id", "created_id", "version_id", "readonly", "system", "created_at",
    "updated_at"]
  return {
    name := ⟨← fields.required "id" text?⟩
    entity := ← fields.id "created_id"
    version := ← fields.id "version_id"
    readonly := ← fields.required "readonly" bool?
    system := ← fields.required "system" bool?
    createdAt := ← fields.required "created_at" instant?
    updatedAt := ← fields.required "updated_at" instant? }

/-- A document within a row, which already lies inside four objects of the snapshot. -/
def rowDocument? : RawDocument → Option Document :=
  toDocument? (maxNesting - 4)

/-- A row version. -/
def row? (raw : RawDocument) : Option RowVersion := do
  let fields ← raw.fields? ["id", "created_id", "version_id", "readonly", "data", "hash",
    "schema_hash", "meta", "published_at", "created_at", "updated_at"]
  return {
    name := ⟨← fields.required "id" text?⟩
    entity := ← fields.id "created_id"
    version := ← fields.id "version_id"
    readonly := ← fields.required "readonly" bool?
    data := ← fields.required "data" rowDocument?
    hash := ← fields.required "hash" text?
    schemaHash := ← fields.optional "schema_hash" text?
    note := ← fields.optional "meta" rowDocument?
    publishedAt := ← fields.optional "published_at" instant?
    createdAt := ← fields.required "created_at" instant?
    updatedAt := ← fields.required "updated_at" instant? }

/-- A store. Links are read from one end; the other follows from it. -/
def store? (raw : RawDocument) : Option Store := do
  let fields ← raw.fields? ["branches", "revisions", "tables", "rows", "revision_tables",
    "table_rows"]
  return {
    branches := ← fields.required "branches" (map? BranchName.mk branch?)
    revisions := ← fields.required "revisions" (map? Id.mk revision?)
    tables := ← fields.required "tables" (map? Id.mk table?)
    rows := ← fields.required "rows" (map? Id.mk row?)
    revisionTables := .ofForward (← fields.required "revision_tables" (map? Id.mk idSet?))
    tableRows := .ofForward (← fields.required "table_rows" (map? Id.mk idSet?)) }

/-- The format number and the store of a snapshot. -/
def snapshot? (raw : RawDocument) : Option (Nat × Store) := do
  let fields ← raw.fields? ["format", "saved_at", "state"]
  let format ← fields.required "format" count32?
  let _ ← fields.required "saved_at" instant?
  return (format, ← fields.required "state" store?)

end RawDocument

/-! ## The store -/

/-- The store that a snapshot text holds. The path is where the text was found. -/
def Store.ofSnapshotText (path text : String) : Except StoreFault Store :=
  match (RawDocument.parse? text).bind RawDocument.snapshot? with
  | none => .error .unreadable
  | some (format, store) =>
    if format ≠ snapshotFormat then .error (.unknownFormat path format snapshotFormat)
    else match store.damage? with
      | some damage => .error (.damaged path damage)
      | none => .ok store

end VersionedTables
