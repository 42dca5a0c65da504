import VersionedTables.Links
import VersionedTables.Record
import VersionedTables.Sorting

/-!
# The store

All records and links, and the questions that can be asked of them. A record is kept under its
own identifier, as long as it is put there by `putRevision` and its companions; a store that was
loaded may hold it under another one, so nothing here relies on that.

Lists come in the order of identifiers, except that the revisions of a branch come in the order of
their creation.
-/

namespace VersionedTables

open Std

/-- The version graph. -/
structure Store where
  /-- The branches by name. -/
  branches : ExtTreeMap BranchName Branch compare := ∅
  /-- The revisions of all branches. -/
  revisions : ExtTreeMap RevisionId Revision compare := ∅
  /-- All table versions. -/
  tables : ExtTreeMap VersionId TableVersion compare := ∅
  /-- All row versions. -/
  rows : ExtTreeMap VersionId RowVersion compare := ∅
  /-- Which table versions a revision shows. -/
  revisionTables : Links RevisionId VersionId := ∅
  /-- Which row versions a table version holds. -/
  tableRows : Links VersionId VersionId := ∅

namespace Store

instance : EmptyCollection Store := ⟨{}⟩

/-! ## Changing records and links -/

/-- Keeps a branch under its name. -/
def putBranch (s : Store) (record : Branch) : Store :=
  { s with branches := s.branches.insert record.name record }

/-- Forgets the branch of a name. -/
def dropBranch (s : Store) (name : BranchName) : Store :=
  { s with branches := s.branches.erase name }

/-- Keeps a revision under its identifier. -/
def putRevision (s : Store) (record : Revision) : Store :=
  { s with revisions := s.revisions.insert record.id record }

/-- Forgets a revision. -/
def dropRevision (s : Store) (id : RevisionId) : Store :=
  { s with revisions := s.revisions.erase id }

/-- Keeps a table version under its identifier. -/
def putTable (s : Store) (record : TableVersion) : Store :=
  { s with tables := s.tables.insert record.version record }

/-- Forgets a table version. -/
def dropTable (s : Store) (version : VersionId) : Store :=
  { s with tables := s.tables.erase version }

/-- Keeps a row version under its identifier. -/
def putRow (s : Store) (record : RowVersion) : Store :=
  { s with rows := s.rows.insert record.version record }

/-- Forgets a row version. -/
def dropRow (s : Store) (version : VersionId) : Store :=
  { s with rows := s.rows.erase version }

/-- Sets or removes the link from a revision to a table version. -/
def linkTable (s : Store) (revision : RevisionId) (table : VersionId) (linked : Bool) : Store :=
  { s with revisionTables := s.revisionTables.set revision table linked }

/-- Sets or removes the link from a table version to a row version. -/
def linkRow (s : Store) (table row : VersionId) (linked : Bool) : Store :=
  { s with tableRows := s.tableRows.set table row linked }

/-! ## Questions -/

/-- A store without branches is empty. -/
def isEmpty (s : Store) : Bool :=
  s.branches.isEmpty

/-- The branch of a name. -/
def branch? (s : Store) (name : BranchName) : Option Branch :=
  s.branches[name]?

/-- All branches, by name. -/
def branchList (s : Store) : List Branch :=
  s.branches.values

/-- The revision with an identifier. -/
def revision? (s : Store) (id : RevisionId) : Option Revision :=
  s.revisions[id]?

/-- Whether a revision comes no later than another: the older first, and of two of the same age
the one with the smaller identifier. -/
def createdBefore (a b : Revision) : Bool :=
  ((compare a.createdAt b.createdAt).then (compare a.id b.id)).isLE

/-- The revisions of a branch, the oldest first. -/
def branchRevisions (s : Store) (name : BranchName) : List Revision :=
  sortBy createdBefore (s.revisions.values.filter fun r => r.branch = name)

/-- The revision that plays a role on a branch: the latest created one, should there be several. -/
def findRevision (s : Store) (name : BranchName) (role : Role) : Option Revision :=
  (s.branchRevisions name).reverse.find? (·.plays role)

/-- The table version with an identifier. -/
def table? (s : Store) (version : VersionId) : Option TableVersion :=
  s.tables[version]?

/-- The row version with an identifier. -/
def row? (s : Store) (version : VersionId) : Option RowVersion :=
  s.rows[version]?

/-- The table versions a revision shows. -/
def tablesOf (s : Store) (revision : RevisionId) : List TableVersion :=
  (s.revisionTables.targets revision).filterMap s.table?

/-- The revisions that show a table version. -/
def revisionsOf (s : Store) (table : VersionId) : List RevisionId :=
  s.revisionTables.sources table

/-- The row versions a table version holds. -/
def rowsOf (s : Store) (table : VersionId) : List RowVersion :=
  (s.tableRows.targets table).filterMap s.row?

/-- The table versions that hold a row version. -/
def tablesHolding (s : Store) (row : VersionId) : List VersionId :=
  s.tableRows.sources row

/-- Every table version there is. -/
def tableVersions (s : Store) : List VersionId :=
  s.tables.keys

/-- Every row version there is. -/
def rowVersions (s : Store) : List VersionId :=
  s.rows.keys

/-- The version of a table that a revision shows, found by name. -/
def findTable (s : Store) (revision : RevisionId) (name : String) : Option TableVersion :=
  (s.tablesOf revision).find? (·.name.matches name)

/-- The version of a row that a table version holds, found by name. -/
def findRow (s : Store) (table : VersionId) (name : String) : Option RowVersion :=
  (s.rowsOf table).find? (·.name.text == name)

end Store

end VersionedTables
