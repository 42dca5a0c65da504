import VersionedTables.View

/-!
# Differences

What it takes to get from one view to another. Tables are matched by entity, and so are the rows
of matching tables. A table version that was copied without any change to its name or its rows is
no difference: only the copying is new.
-/

namespace VersionedTables

open Std

/-- How an entity differs between two views. -/
inductive ChangeKind where
  /-- It is only in the second. -/
  | added
  /-- It is only in the first. -/
  | removed
  /-- Its content differs, its name does not. -/
  | modified
  /-- Its name differs, and its content may. -/
  | renamed
  deriving DecidableEq, Repr

/-- How a row differs. -/
structure RowChange where
  /-- The row. -/
  entity : EntityId
  /-- How it differs. -/
  kind : ChangeKind
  /-- Its name, which for a removed row is the one it had. -/
  name : RowName
  /-- The name it had, if it was renamed. -/
  previousName : Option RowName
  /-- Its version in the first view. -/
  fromVersion : Option VersionId
  /-- Its version in the second view. -/
  toVersion : Option VersionId
  deriving DecidableEq, Repr

/-- How a table differs. -/
structure TableChange where
  /-- The table. -/
  entity : EntityId
  /-- How it differs. -/
  kind : ChangeKind
  /-- Its name, which for a removed table is the one it had. -/
  name : TableName
  /-- The name it had, if it was renamed. -/
  previousName : Option TableName
  /-- Its version in the first view. -/
  fromVersion : Option VersionId
  /-- Its version in the second view. -/
  toVersion : Option VersionId
  /-- How its rows differ; the rows of a removed table are not listed. -/
  rows : List RowChange
  deriving DecidableEq, Repr

/-- All differences between two views. -/
structure Diff where
  /-- The tables that differ: the removed ones first, and then the others, in the order of their
  entities. -/
  tables : List TableChange
  deriving DecidableEq, Repr

namespace RowChange

/-- A row that is gone. -/
def removed (entity : EntityId) (old : RowView) : RowChange :=
  ⟨entity, .removed, old.name, none, some old.version, none⟩

/-- A row that is new. -/
def added (entity : EntityId) (new : RowView) : RowChange :=
  ⟨entity, .added, new.name, none, none, some new.version⟩

/-- How a row differs that both views have; the same version does not differ. -/
def between? (entity : EntityId) (old new : RowView) : Option RowChange :=
  if old.version = new.version then none
  else if old.name = new.name then
    some ⟨entity, .modified, new.name, none, some old.version, some new.version⟩
  else
    some ⟨entity, .renamed, new.name, some old.name, some old.version, some new.version⟩

/-- How the rows of a table differ: the removed ones first, and then the others, in the order of
their entities. -/
def list (before after : RowViews) : List RowChange :=
  (before.toList.filterMap fun (entity, old) =>
      if after.contains entity then none else some (removed entity old)) ++
    after.toList.filterMap fun (entity, new) =>
      match before[entity]? with
      | none => some (added entity new)
      | some old => between? entity old new

end RowChange

namespace TableChange

/-- A table that is gone. -/
def removed (old : TableView) : TableChange :=
  ⟨old.entity, .removed, old.name, none, some old.version, none, []⟩

/-- A table that is new, with all its rows. -/
def added (new : TableView) : TableChange :=
  ⟨new.entity, .added, new.name, none, none, some new.version, RowChange.list ∅ new.rows⟩

/-- How a table differs that both views have. -/
def between? (old new : TableView) : Option TableChange :=
  if old.version = new.version then none
  else
    let rows := RowChange.list old.rows new.rows
    if old.name = new.name then
      if rows.isEmpty then none
      else some ⟨new.entity, .modified, new.name, none, some old.version, some new.version, rows⟩
    else
      some ⟨new.entity, .renamed, new.name, some old.name, some old.version, some new.version, rows⟩

end TableChange

namespace Diff

/-- The differences between two views. -/
def between (before after : List TableView) : Diff :=
  let before := TableView.byEntity before
  let after := TableView.byEntity after
  let removed := before.toList.filterMap fun (entity, old) =>
    if after.contains entity then none else some (TableChange.removed old)
  let others := after.toList.filterMap fun (entity, new) =>
    match before[entity]? with
    | none => some (TableChange.added new)
    | some old => TableChange.between? old new
  ⟨removed ++ others⟩

/-- Whether two views show the same. -/
def isEmpty (d : Diff) : Bool :=
  d.tables.isEmpty

/-- The number of rows that differ. -/
def rowCount (d : Diff) : Nat :=
  (d.tables.flatMap (·.rows)).length

/-- The first table that differs and has this name, no matter the case. -/
def table? (d : Diff) (name : String) : Option TableChange :=
  d.tables.find? (·.name.matches name)

end Diff

/-- The differences between two revisions. -/
def Store.diff (s : Store) (before after : RevisionId) : Diff :=
  Diff.between (s.view before) (s.view after)

end VersionedTables
