import VersionedTables.Document.Printer
import VersionedTables.Instant.Text
import VersionedTables.Store

/-!
# Writing snapshots

A snapshot is a whole store as one JSON document: the number of the format, the time of saving,
and the state with its records and links, each under its identifier and in the order of the
identifiers. Links are written from one end only.
-/

namespace VersionedTables

/-- The number of the format that is written, and the only one that is read. -/
def snapshotFormat : Nat := 1

/-! ## Records -/

/-- An instant in a snapshot. -/
def Instant.toDocument (t : Instant) : Document :=
  .string t.text

/-- A branch in a snapshot. -/
def Branch.toDocument (b : Branch) : Document :=
  .object [("id", b.name.text), ("created_at", b.createdAt.toDocument)]

/-- A revision in a snapshot. -/
def Revision.toDocument (r : Revision) : Document :=
  .object [
    ("id", r.id.text),
    ("branch_id", r.branch.text),
    ("parent_id", .ofOption (fun parent => .string parent.text) r.parent),
    ("is_start", r.isStart),
    ("is_head", r.isHead),
    ("is_draft", r.isDraft),
    ("has_changes", r.hasChanges),
    ("comment", .ofOption .string r.comment),
    ("created_at", r.createdAt.toDocument)]

/-- A table version in a snapshot. -/
def TableVersion.toDocument (t : TableVersion) : Document :=
  .object [
    ("id", t.name.text),
    ("created_id", t.entity.text),
    ("version_id", t.version.text),
    ("readonly", t.readonly),
    ("system", t.system),
    ("created_at", t.createdAt.toDocument),
    ("updated_at", t.updatedAt.toDocument)]

/-- A row version in a snapshot. -/
def RowVersion.toDocument (r : RowVersion) : Document :=
  .object [
    ("id", r.name.text),
    ("created_id", r.entity.text),
    ("version_id", r.version.text),
    ("readonly", r.readonly),
    ("data", r.data),
    ("hash", r.hash),
    ("schema_hash", .ofOption .string r.schemaHash),
    ("meta", .ofOption id r.note),
    ("published_at", .ofOption Instant.toDocument r.publishedAt),
    ("created_at", r.createdAt.toDocument),
    ("updated_at", r.updatedAt.toDocument)]

/-! ## The store -/

/-- One side of a relation in a snapshot. -/
def Side.toDocument {j k : IdKind} (side : Side (Id j) (Id k)) : Document :=
  .object (side.toList.map fun (source, targets) =>
    (source.text, .array (targets.toList.map fun target => .string target.text)))

/-- A store in a snapshot. -/
def Store.toDocument (s : Store) : Document :=
  .object [
    ("branches", .object (s.branches.toList.map fun (name, b) => (name.text, b.toDocument))),
    ("revisions", .object (s.revisions.toList.map fun (id, r) => (id.text, r.toDocument))),
    ("tables", .object (s.tables.toList.map fun (id, t) => (id.text, t.toDocument))),
    ("rows", .object (s.rows.toList.map fun (id, r) => (id.text, r.toDocument))),
    ("revision_tables", s.revisionTables.forward.toDocument),
    ("table_rows", s.tableRows.forward.toDocument)]

/-- The snapshot of a store. -/
def Store.snapshot (s : Store) (savedAt : Instant) : Document :=
  .object [
    ("format", .ofNat snapshotFormat),
    ("saved_at", savedAt.toDocument),
    ("state", s.toDocument)]

/-- The text of the snapshot of a store. -/
def Store.snapshotText (s : Store) (savedAt : Instant) : String :=
  (s.snapshot savedAt).pretty

end VersionedTables
