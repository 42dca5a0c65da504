import VersionedTables.Store

/-!
# Views

What a revision shows, as far as it can be told from identifiers and names: its tables, and for
each table its rows, told apart by the entities they are versions of. Whatever a version holds is
settled by its identifier, so no row's data is ever looked at.
-/

namespace VersionedTables

open Std

/-- A row version as a table version shows it. -/
structure RowView where
  /-- The version. -/
  version : VersionId
  /-- The row's name. -/
  name : RowName
  deriving DecidableEq, Repr

/-- The rows of a table, by entity. -/
abbrev RowViews := ExtTreeMap EntityId RowView compare

/-- A table version as a revision shows it. -/
structure TableView where
  /-- The version. -/
  version : VersionId
  /-- The table it is a version of. -/
  entity : EntityId
  /-- The table's name. -/
  name : TableName
  /-- Its rows. -/
  rows : RowViews

/-- Rows by entity; of several versions of one row the last is kept. -/
def RowViews.ofList (rows : List (EntityId × RowView)) : RowViews :=
  rows.foldl (fun views (entity, row) => views.insert entity row) ∅

/-- Tables by entity; of several versions of one table the last is kept. -/
def TableView.byEntity (tables : List TableView) : ExtTreeMap EntityId TableView compare :=
  tables.foldl (fun views table => views.insert table.entity table) ∅

/-- How a revision shows a table version. -/
def Store.tableView (s : Store) (table : TableVersion) : TableView where
  version := table.version
  entity := table.entity
  name := table.name
  rows := .ofList <| (s.rowsOf table.version).map fun row => (row.entity, ⟨row.version, row.name⟩)

/-- What a revision shows. -/
def Store.view (s : Store) (revision : RevisionId) : List TableView :=
  (s.tablesOf revision).map s.tableView

end VersionedTables
