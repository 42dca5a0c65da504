import VersionedTables.Edit.Garbage
import VersionedTables.Edit.Sharing

/-!
# Editing tables

Creating, renaming and removing the tables of a draft. All three check everything that can be
wrong with a request before they change anything.
-/

namespace VersionedTables

/-- A table was created. -/
structure TableCreated where
  /-- Its first version. -/
  version : VersionId
  /-- The table. -/
  entity : EntityId
  deriving DecidableEq, Repr

/-- A table was renamed. -/
structure TableRenamed where
  /-- The version that has the new name. -/
  version : VersionId
  /-- The version that was shown before. -/
  previous : VersionId
  /-- The table. -/
  entity : EntityId
  deriving DecidableEq, Repr

/-- A table was removed from a draft. -/
structure TableRemoved where
  /-- The version that was shown. -/
  version : VersionId
  /-- The table. -/
  entity : EntityId
  /-- Whether the version is gone for good, and not just out of sight. -/
  deleted : Bool
  /-- The row versions that went with it. -/
  deletedRows : List VersionId
  /-- Whether the draft still differs from its parent. -/
  hasChanges : Bool
  deriving DecidableEq, Repr

namespace Edit

/-- Adds an empty table to a draft. -/
def createTable (revision : RevisionId) (table : String) (system : Bool) : Edit TableCreated := do
  let draft ← requireDraft revision
  let name ← parseName TableName.parse table
  if ((← store).findTable draft.id name.text).isSome then throw (.tableExists name)
  let entity ← freshId .entity
  let version ← freshId .version
  let record := TableVersion.new name system entity version (← now)
  write (·.createTable record)
  write (·.connectTable draft.id version)
  markChanged draft
  return ⟨version, entity⟩

/-- Gives a table of a draft another name. A change of case alone is a change. -/
def renameTable (revision : RevisionId) (table next : String) : Edit TableRenamed := do
  let draft ← requireDraft revision
  let name ← parseName TableName.parse next
  let current ← requireTable draft.id table
  if current.name = name then throw (.tableNameKept name)
  match (← store).findTable draft.id name.text with
  | some other => if other.entity ≠ current.entity then throw (.tableExists name)
  | none => pure ()
  let target ← draftTable draft.id table
  let renamed := { target.table with name := name, updatedAt := ← now }
  write (·.updateTable renamed)
  markChanged draft
  return ⟨renamed.version, target.previous, renamed.entity⟩

/-- Deletes a table version that no revision shows, together with the row versions that only it
held; gives those back. -/
def deleteTableWithRows (version : VersionId) : Edit (List VersionId) := do
  let held := ((← store).rowsOf version).map (·.version)
  let _ ← take (·.deleteTable version)
  held.filterM deleteRowIfUnheld

/-- Takes a table out of a draft. A version that only this draft had is deleted, together with the
row versions that only it held. -/
def removeTable (revision : RevisionId) (table : String) : Edit TableRemoved := do
  let draft ← requireDraft revision
  let current ← requireTable draft.id table
  if (draft.parent.bind (← store).revision?).isNone then throw .noParent
  change (·.disconnectTable draft.id current.version)
  let deleted := !current.readonly && ((← store).revisionsOf current.version).isEmpty
  let deletedRows ← if deleted then deleteTableWithRows current.version else pure []
  let hasChanges ← refreshHasChanges draft.id
  return ⟨current.version, current.entity, deleted, deletedRows, hasChanges⟩

end Edit

end VersionedTables
