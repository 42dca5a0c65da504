import VersionedTables.Edit.Branches
import VersionedTables.Edit.Rows

/-!
# Commands

Everything that can be asked of a database that may change it, as data, and what it answers.
`Command.run` is the one place that says which edit a command is.
-/

namespace VersionedTables

/-- A request that may change the database. -/
inductive Command where
  /-- Creates a branch, forked from a revision if one is given. -/
  | createBranch (branch : String) (source : Option RevisionId)
  /-- Turns the draft of a branch into its head. -/
  | commit (branch : BranchName) (comment : Option String)
  /-- Gives the draft of a branch back the tables of the head. -/
  | revert (branch : BranchName)
  /-- Deletes what cannot be reached. -/
  | collectGarbage
  /-- Adds a table to a draft. -/
  | createTable (revision : RevisionId) (table : String) (system : Bool)
  /-- Renames a table of a draft. -/
  | renameTable (revision : RevisionId) (table next : String)
  /-- Takes a table out of a draft. -/
  | removeTable (revision : RevisionId) (table : String)
  /-- Adds rows to a table of a draft. -/
  | createRows (revision : RevisionId) (table : String) (rows : List RowInput)
  /-- Gives rows of a table of a draft new data. -/
  | updateRows (revision : RevisionId) (table : String) (rows : List RowInput)
  /-- Takes rows out of a table of a draft. -/
  | removeRows (revision : RevisionId) (table : String) (rows : List String)
  /-- Renames rows of a table of a draft. -/
  | renameRows (revision : RevisionId) (table : String) (renames : List RowRename)
  deriving Repr

/-- What a command answers. -/
inductive Reply where
  /-- A branch was created. -/
  | branchCreated (result : BranchCreated)
  /-- A draft was committed. -/
  | committed (result : Committed)
  /-- A draft was reverted. -/
  | reverted (result : Reverted)
  /-- Garbage was collected. -/
  | garbageCollected (result : GarbageReport)
  /-- A table was created. -/
  | tableCreated (result : TableCreated)
  /-- A table was renamed. -/
  | tableRenamed (result : TableRenamed)
  /-- A table was removed. -/
  | tableRemoved (result : TableRemoved)
  /-- Rows were created. -/
  | rowsCreated (result : RowBatch CreatedRow)
  /-- Rows were updated. -/
  | rowsUpdated (result : RowBatch UpdatedRow)
  /-- Rows were removed. -/
  | rowsRemoved (result : RowsRemoved)
  /-- Rows were renamed. -/
  | rowsRenamed (result : RowBatch RenamedRow)
  deriving DecidableEq, Repr

/-- The edit a command is. -/
def Command.run : Command → Edit Reply
  | .createBranch branch source => .branchCreated <$> Edit.createBranch branch source
  | .commit branch comment => .committed <$> Edit.commit branch comment
  | .revert branch => .reverted <$> Edit.revert branch
  | .collectGarbage => .garbageCollected <$> Edit.collectGarbage
  | .createTable revision table system =>
    .tableCreated <$> Edit.createTable revision table system
  | .renameTable revision table next => .tableRenamed <$> Edit.renameTable revision table next
  | .removeTable revision table => .tableRemoved <$> Edit.removeTable revision table
  | .createRows revision table rows => .rowsCreated <$> Edit.createRows revision table rows
  | .updateRows revision table rows => .rowsUpdated <$> Edit.updateRows revision table rows
  | .removeRows revision table rows => .rowsRemoved <$> Edit.removeRows revision table rows
  | .renameRows revision table renames =>
    .rowsRenamed <$> Edit.renameRows revision table renames

end VersionedTables
