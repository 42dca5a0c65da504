import VersionedTables.Edit

/-!
# Sharing versions

A version that more than one revision can see is *read-only*. Versions become so all at once, when
a draft is committed or a branch is forked (`lockTable`). From then on whoever wants to change one
gets a copy in its place, and everybody else keeps what they saw: `draftTable` and `draftRow` are
the only ways to get hold of something that may be changed.
-/

namespace VersionedTables

/-- A table version that may be changed. -/
structure DraftTable where
  /-- The version. -/
  table : TableVersion
  /-- The version that was shown before; the same one, if it may be changed. -/
  previous : VersionId
  /-- Whether the version is a new copy. -/
  isCopy : Bool
  deriving DecidableEq, Repr

/-- A row version that may be changed. -/
structure DraftRow where
  /-- The version. -/
  row : RowVersion
  /-- The version that was held before; the same one, if it may be changed. -/
  previous : VersionId
  /-- Whether the version is a new copy. -/
  isCopy : Bool
  deriving Repr

namespace Edit

/-! ## Locking -/

/-- Makes a row version read-only. -/
def lockRow (row : RowVersion) : Edit Unit := do
  if !row.readonly then
    write (·.updateRow { row with readonly := true })

/-- Makes a table version read-only, after all row versions it holds. -/
def lockTable (table : TableVersion) : Edit Unit := do
  ((← store).rowsOf table.version).forM lockRow
  if !table.readonly then
    write (·.updateTable { table with readonly := true })

/-! ## Copying -/

/-- Puts a copy in the place of a read-only table version, in this one revision. The copy holds
the same row versions. -/
def copyTable (revision : RevisionId) (table : TableVersion) : Edit TableVersion := do
  let version ← freshId .version
  let copy := table.copy version (← now)
  write (·.createTable copy)
  ((← store).rowsOf table.version).forM fun row =>
    write (·.connectRow version row.version)
  change (·.disconnectTable revision table.version)
  write (·.connectTable revision version)
  return copy

/-- The version of a table that a revision may change, found by name. -/
def draftTable (revision : RevisionId) (name : String) : Edit DraftTable := do
  let table ← requireTable revision name
  if table.readonly then
    return ⟨← copyTable revision table, table.version, true⟩
  else
    return ⟨table, table.version, false⟩

/-- Puts a copy in the place of a read-only row version, in this one table version. -/
def copyRow (table : VersionId) (row : RowVersion) : Edit RowVersion := do
  let version ← freshId .version
  let copy := row.copy version (← now)
  write (·.createRow copy)
  change (·.disconnectRow table row.version)
  write (·.connectRow table version)
  return copy

/-- The version of a row that may be changed, found by name in a table version that may be changed
itself. -/
def draftRow (table : TableVersion) (name : String) : Edit DraftRow := do
  if table.readonly then throw (.readonlyTable table.name table.version)
  let row ← orFault (.rowNotFound name table.name) ((← store).findRow table.version name)
  if row.readonly then
    return ⟨← copyRow table.version row, row.version, true⟩
  else
    return ⟨row, row.version, false⟩

end Edit

end VersionedTables
