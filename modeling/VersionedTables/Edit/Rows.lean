import VersionedTables.Edit.Tables
import VersionedTables.Sorting

/-!
# Editing rows

Creating, updating, removing and renaming rows of a table, many at a time. A batch gets hold of a
version of the table it may change, and then copies just those rows it has to.
-/

namespace VersionedTables

/-! ## Requests and results -/

/-- A row to create or to update. -/
structure RowInput where
  /-- The row's name. -/
  name : String
  /-- What it holds. -/
  data : Document
  /-- The fingerprint of its schema, if given. -/
  schemaHash : Option String := none
  /-- What the caller keeps beside the data, if given. -/
  note : Option Document := none
  /-- When it was published, if given. -/
  publishedAt : Option Instant := none
  deriving Repr

/-- A row to rename. -/
structure RowRename where
  /-- The name it has. -/
  name : String
  /-- The name it gets. -/
  next : String
  deriving DecidableEq, Repr

/-- A row that was created. -/
structure CreatedRow where
  /-- Its name. -/
  name : RowName
  /-- Its first version. -/
  version : VersionId
  /-- The row. -/
  entity : EntityId
  deriving DecidableEq, Repr

/-- A row that was updated. -/
structure UpdatedRow where
  /-- Its name. -/
  name : RowName
  /-- The version that has the new data. -/
  version : VersionId
  /-- The version that was held before. -/
  previous : VersionId
  /-- The row. -/
  entity : EntityId
  /-- The fingerprint of the new data. -/
  hash : String
  deriving DecidableEq, Repr

/-- A row that was removed from a table. -/
structure RemovedRow where
  /-- Its name. -/
  name : RowName
  /-- The version that was held. -/
  version : VersionId
  /-- Whether the version is gone for good, and not just out of this table. -/
  deleted : Bool
  deriving DecidableEq, Repr

/-- A row that was renamed. -/
structure RenamedRow where
  /-- The name it had. -/
  previousName : RowName
  /-- The name it has now. -/
  name : RowName
  /-- The version that has the new name. -/
  version : VersionId
  /-- The version that was held before. -/
  previous : VersionId
  /-- The row. -/
  entity : EntityId
  deriving DecidableEq, Repr

/-- What a batch did to the rows of a table. -/
structure RowBatch (ρ : Type) where
  /-- The table version that has the changes. -/
  table : VersionId
  /-- The table version that was shown before. -/
  previousTable : VersionId
  /-- The rows, in the order of the request. -/
  rows : List ρ
  deriving DecidableEq, Repr

/-- Rows were removed from a table. -/
structure RowsRemoved extends RowBatch RemovedRow where
  /-- Whether the draft still differs from its parent. -/
  hasChanges : Bool
  deriving DecidableEq, Repr

/-! ## Checking requests -/

/-- The names of rows to create: each has to be well formed, and new in the request. The texts seen
before the list are given. -/
def RowInput.newNames? (seen : List String) : List RowInput → Except CommandFault (List RowName)
  | [] => return []
  | input :: rest => do
    let name ← (RowName.parse input.name).mapError (.malformed input.name)
    if seen.contains input.name then throw .repeatedRow
    let names ← newNames? (input.name :: seen) rest
    return name :: names

/-- Whether a list names something twice. -/
def hasRepetition : List String → Bool
  | [] => false
  | text :: rest => rest.contains text || hasRepetition rest

/-- The new names of rows to rename: each has to be well formed and to differ from the old one, no
row may be renamed twice, and no two rows may get one name. The texts seen before the list are
given. -/
def RowRename.nextNames? (sources targets : List String) :
    List RowRename → Except CommandFault (List RowName)
  | [] => return []
  | rename :: rest => do
    let next ← (RowName.parse rename.next).mapError (.malformed rename.next)
    if rename.name = rename.next then throw (.rowNameKept rename.name)
    if sources.contains rename.name then throw .repeatedRow
    if targets.contains rename.next then throw .repeatedTarget
    let names ← nextNames? (rename.name :: sources) (rename.next :: targets) rest
    return next :: names

/-- Texts in order. -/
def sortTexts (texts : List String) : List String :=
  sortBy (fun a b => (compare a b).isLE) texts

/-- Keeps the first of several equal texts. -/
def keepFirst (seen : List String) : List String → List String
  | [] => []
  | text :: rest =>
    if seen.contains text then keepFirst seen rest
    else text :: keepFirst (text :: seen) rest

namespace Edit

/-- The names of the rows a table version holds. -/
def rowNames (table : VersionId) : Edit (List String) := do
  return ((← store).rowsOf table).map (·.name.text)

/-! ## Creating -/

/-- Adds a row to a table version. -/
def createRow (table : VersionId) (name : RowName) (input : RowInput) : Edit CreatedRow := do
  let entity ← freshId .entity
  let version ← freshId .version
  let record := RowVersion.new name input.data entity version (← now)
  let record := { record with
    schemaHash := input.schemaHash, note := input.note, publishedAt := input.publishedAt }
  write (·.createRow record)
  write (·.connectRow table version)
  return ⟨name, version, entity⟩

/-- Adds rows to a table of a draft. None of them may be there already. -/
def createRows (revision : RevisionId) (table : String) (inputs : List RowInput) :
    Edit (RowBatch CreatedRow) := do
  let draft ← requireDraft revision
  let target ← draftTable draft.id table
  let names ← liftExcept (RowInput.newNames? [] inputs)
  let existing ← rowNames target.table.version
  let clashes := (names.map (·.text)).filter existing.contains
  if !clashes.isEmpty then throw (.rowsExist clashes)
  let rows ← (names.zip inputs).mapM fun (name, input) =>
    createRow target.table.version name input
  if !rows.isEmpty then markChanged draft
  return ⟨target.table.version, target.previous, rows⟩

/-! ## Updating -/

/-- Gives a row new data. What a request does not say about it stays as it was. -/
def updateRow (table : TableVersion) (input : RowInput) : Edit UpdatedRow := do
  let target ← draftRow table input.name
  let record := target.row.setData input.data (← now)
  let record := { record with
    schemaHash := input.schemaHash <|> record.schemaHash
    note := input.note <|> record.note
    publishedAt := input.publishedAt <|> record.publishedAt }
  write (·.updateRow record)
  return ⟨record.name, record.version, target.previous, record.entity, record.hash⟩

/-- Gives rows of a table of a draft new data. -/
def updateRows (revision : RevisionId) (table : String) (inputs : List RowInput) :
    Edit (RowBatch UpdatedRow) := do
  let draft ← requireDraft revision
  let target ← draftTable draft.id table
  if hasRepetition (inputs.map (·.name)) then throw .repeatedRow
  let rows ← inputs.mapM (updateRow target.table)
  if !rows.isEmpty then markChanged draft
  return ⟨target.table.version, target.previous, rows⟩

/-! ## Removing -/

/-- Takes a row version out of a table version, and deletes it if nothing else holds it. -/
def removeRow (table : VersionId) (row : RowVersion) : Edit RemovedRow := do
  change (·.disconnectRow table row.version)
  let deleted ← deleteRowIfUnheld row.version
  return ⟨row.name, row.version, deleted⟩

/-- Takes rows out of a table of a draft. It does no harm to name a row twice. -/
def removeRows (revision : RevisionId) (table : String) (names : List String) :
    Edit RowsRemoved := do
  let draft ← requireDraft revision
  let target ← draftTable draft.id table
  let found ← (keepFirst [] names).mapM fun name => do
    orFault (.rowNotFound name target.table.name) ((← store).findRow target.table.version name)
  let rows ← found.mapM (removeRow target.table.version)
  let hasChanges ← refreshHasChanges draft.id
  return ⟨⟨target.table.version, target.previous, rows⟩, hasChanges⟩

/-! ## Renaming -/

/-- Gives a row version that may be changed another name. -/
def renameRow (target : DraftRow) (next : RowName) : Edit RenamedRow := do
  let record := { target.row with name := next, updatedAt := ← now }
  write (·.updateRow record)
  return ⟨target.row.name, next, record.version, target.previous, record.entity⟩

/-- Gives rows of a table of a draft other names, all at the same time: a row may take the name
that another row of the batch gives up. All rows are looked up before any is renamed. -/
def renameRows (revision : RevisionId) (table : String) (renames : List RowRename) :
    Edit (RowBatch RenamedRow) := do
  let draft ← requireDraft revision
  let nextNames ← liftExcept (RowRename.nextNames? [] [] renames)
  let current ← requireTable draft.id table
  let existing ← rowNames current.version
  let sources := sortTexts (renames.map (·.name))
  match sources.find? (!existing.contains ·) with
  | some missing => throw (.rowNotFound missing current.name)
  | none => pure ()
  let clashes := (sortTexts (renames.map (·.next))).filter fun next =>
    existing.contains next && !sources.contains next
  if !clashes.isEmpty then throw (.rowsExist clashes)
  let target ← draftTable draft.id table
  let drafts ← renames.mapM fun rename => draftRow target.table rename.name
  let rows ← (drafts.zip nextNames).mapM fun (draft, next) => renameRow draft next
  if !rows.isEmpty then markChanged draft
  return ⟨target.table.version, target.previous, rows⟩

end Edit

end VersionedTables
