import VersionedTables.Command
import Mathlib

/-!
# Deep copying

What copy-on-write is meant to look like from outside: a naive model in which every revision owns
its tables and rows, and nothing is ever shared. A content is a set of tables, each with a set of
rows; versions, links and flags of versions do not occur in it. Copying a content is no operation
at all here, and no command on one revision can possibly be seen in another.

`DeepCopy.Accepts` says which commands the naive model allows and `DeepCopy.apply` what they do. The
identifiers a command hands out are taken from its reply. Nothing in a content tells whether a draft
is marked as changed, so the model allows `commit` and `revert` on every branch.
-/

namespace VersionedTables

/-! ## Contents -/

/-- What a row is to its readers. -/
structure RowContent where
  /-- Its name. -/
  name : RowName
  /-- The row. -/
  entity : EntityId
  /-- What it holds. -/
  data : Document
  /-- The fingerprint of what it holds. -/
  hash : String
  /-- The fingerprint of the schema, if given. -/
  schemaHash : Option String
  /-- What the caller keeps beside the data, if given. -/
  note : Option Document
  /-- When it was published, if given. -/
  publishedAt : Option Instant

/-- What a table is to its readers. -/
structure TableContent where
  /-- Its name. -/
  name : TableName
  /-- Whether it belongs to the system. -/
  system : Bool
  /-- The table. -/
  entity : EntityId
  /-- Its rows. -/
  rows : Set RowContent

/-- What a revision is to its readers. -/
abbrev Content : Type := Set TableContent

/-- What there is to know about a row version beside its version. -/
def RowVersion.content (row : RowVersion) : RowContent :=
  ⟨row.name, row.entity, row.data, row.hash, row.schemaHash, row.note, row.publishedAt⟩

namespace RowInput

/-- A row that was just created. -/
def create (input : RowInput) (entity : EntityId) : RowContent where
  name := ⟨input.name⟩
  entity := entity
  data := input.data
  hash := input.data.fingerprint
  schemaHash := input.schemaHash
  note := input.note
  publishedAt := input.publishedAt

/-- A row with new data; what is not given stays. -/
def overwrite (input : RowInput) (row : RowContent) : RowContent :=
  { row with
    data := input.data
    hash := input.data.fingerprint
    schemaHash := input.schemaHash <|> row.schemaHash
    note := input.note <|> row.note
    publishedAt := input.publishedAt <|> row.publishedAt }

/-- Gives the row of a request new data and leaves the others alone. -/
def update (input : RowInput) (row : RowContent) : RowContent :=
  if row.name.text = input.name then input.overwrite row else row

end RowInput

/-- The name a row gets, all renames of a request taking place at the same time. -/
def RowRename.rename (renames : List RowRename) (row : RowContent) : RowContent :=
  match renames.find? (·.name = row.name.text) with
  | some rename => { row with name := ⟨rename.next⟩ }
  | none => row

namespace Content

/-- Changes the table of a name and leaves the others alone. -/
def modify (c : Content) (name : String) (f : TableContent → TableContent) : Content :=
  (fun t => if t.name.matches name then f t else t) '' c

/-- Changes the rows of the table of a name. -/
def modifyRows (c : Content) (name : String) (f : Set RowContent → Set RowContent) : Content :=
  c.modify name fun t => { t with rows := f t.rows }

/-- Adds an empty table. -/
def createTable (c : Content) (name : TableName) (system : Bool) (entity : EntityId) : Content :=
  insert ⟨name, system, entity, ∅⟩ c

/-- Gives a table another name. -/
def renameTable (c : Content) (name : String) (next : TableName) : Content :=
  c.modify name fun t => { t with name := next }

/-- Drops a table with its rows. -/
def removeTable (c : Content) (name : String) : Content :=
  {t ∈ c | t.name.matches name = false}

/-- Adds rows. -/
def createRows (c : Content) (name : String) (inputs : List RowInput) (entities : List EntityId) :
    Content :=
  c.modifyRows name fun rows => rows ∪ {row | row ∈ List.zipWith RowInput.create inputs entities}

/-- Gives rows new data, one after the other. -/
def updateRows (c : Content) (name : String) (inputs : List RowInput) : Content :=
  c.modifyRows name fun rows => inputs.foldl (fun rows input => input.update '' rows) rows

/-- Drops rows. -/
def removeRows (c : Content) (name : String) (names : List String) : Content :=
  c.modifyRows name fun rows => {row ∈ rows | row.name.text ∉ names}

/-- Renames rows. -/
def renameRows (c : Content) (name : String) (renames : List RowRename) : Content :=
  c.modifyRows name fun rows => RowRename.rename renames '' rows

/-! ### What can be done -/

/-- The table of a name is there, and its rows are as a request needs them. -/
def OnTable (c : Content) (name : String) (P : Set RowContent → Prop) : Prop :=
  ∃ t ∈ c, t.name.matches name = true ∧ P t.rows

/-- A name can be given to a new table. -/
def CanCreateTable (c : Content) (name : String) : Prop :=
  (TableName.parse name).isOk = true ∧ ∀ t ∈ c, t.name.matches name = false

/-- A table can be given another name. -/
def CanRenameTable (c : Content) (name next : String) : Prop :=
  (TableName.parse next).isOk = true ∧
    ∃ t ∈ c, t.name.matches name = true ∧ t.name.text ≠ next ∧
      ∀ other ∈ c, other.name.matches next = true → other = t

/-- A table can be removed. -/
def CanRemoveTable (c : Content) (name : String) : Prop :=
  ∃ t ∈ c, t.name.matches name = true

end Content

section Rows

variable (rows : Set RowContent)

/-- There is a row of a name. -/
def HasRow (name : String) : Prop :=
  ∃ row ∈ rows, row.name.text = name

/-- Rows can be added. -/
def CanCreate (inputs : List RowInput) : Prop :=
  (inputs.map (·.name)).Nodup ∧
    ∀ input ∈ inputs, (RowName.parse input.name).isOk = true ∧ ¬HasRow rows input.name

/-- Rows can be given new data. -/
def CanUpdate (inputs : List RowInput) : Prop :=
  (inputs.map (·.name)).Nodup ∧ ∀ input ∈ inputs, HasRow rows input.name

/-- Rows can be dropped. -/
def CanRemove (names : List String) : Prop :=
  ∀ name ∈ names, HasRow rows name

/-- Rows can be renamed: a new name is free, or another row of the request gives it up. -/
def CanRename (renames : List RowRename) : Prop :=
  (∀ rename ∈ renames, (RowName.parse rename.next).isOk = true ∧ rename.name ≠ rename.next) ∧
    (renames.map (·.name)).Nodup ∧ (renames.map (·.next)).Nodup ∧
    (∀ rename ∈ renames, HasRow rows rename.name) ∧
    ∀ rename ∈ renames, HasRow rows rename.next → rename.next ∈ renames.map (·.name)

end Rows

/-! ## The model -/

/-- The head and the draft of a branch. -/
structure HeadAndDraft where
  /-- The head. -/
  head : RevisionId
  /-- The draft. -/
  draft : RevisionId
  deriving DecidableEq

/-- Branches, and a content for each revision. -/
@[ext] structure DeepCopy where
  /-- The branches by name. -/
  branches : BranchName → Option HeadAndDraft
  /-- The revisions with their contents. -/
  contents : RevisionId → Option Content

namespace DeepCopy

/-- No branches and no revisions. -/
def empty : DeepCopy :=
  ⟨fun _ => none, fun _ => none⟩

/-- Replaces the content of a revision. -/
def put (m : DeepCopy) (id : RevisionId) (c : Content) : DeepCopy :=
  { m with contents := fun other => if other = id then some c else m.contents other }

/-- Changes the content of a revision. -/
def modify (m : DeepCopy) (id : RevisionId) (f : Content → Content) : DeepCopy :=
  { m with contents := fun other => if other = id then (m.contents id).map f else m.contents other }

/-- Names the head and the draft of a branch. -/
def putBranch (m : DeepCopy) (name : BranchName) (line : HeadAndDraft) : DeepCopy :=
  { m with branches := fun other => if other = name then some line else m.branches other }

/-- A revision is the draft of some branch. -/
def IsDraft (m : DeepCopy) (id : RevisionId) : Prop :=
  ∃ name line, m.branches name = some line ∧ line.draft = id

/-- A revision is a draft with a content. -/
def Drafts (m : DeepCopy) (id : RevisionId) (c : Content) : Prop :=
  m.IsDraft id ∧ m.contents id = some c

/-- What a command does that was answered like this. -/
def apply (m : DeepCopy) : Command → Reply → DeepCopy
  | .createBranch _ source, .branchCreated result =>
    let c := (source.bind m.contents).getD ∅
    ((m.put result.start c).put result.draft c).putBranch result.branch
      ⟨result.start, result.draft⟩
  | .commit branch _, .committed result =>
    match m.branches branch with
    | some line =>
      (m.put result.nextDraft ((m.contents line.draft).getD ∅)).putBranch branch
        ⟨line.draft, result.nextDraft⟩
    | none => m
  | .revert branch, .reverted _ =>
    match m.branches branch with
    | some line => m.put line.draft ((m.contents line.head).getD ∅)
    | none => m
  | .createTable id table system, .tableCreated result =>
    m.modify id (·.createTable ⟨table⟩ system result.entity)
  | .renameTable id table next, .tableRenamed _ => m.modify id (·.renameTable table ⟨next⟩)
  | .removeTable id table, .tableRemoved _ => m.modify id (·.removeTable table)
  | .createRows id table rows, .rowsCreated result =>
    m.modify id (·.createRows table rows (result.rows.map (·.entity)))
  | .updateRows id table rows, .rowsUpdated _ => m.modify id (·.updateRows table rows)
  | .removeRows id table names, .rowsRemoved _ => m.modify id (·.removeRows table names)
  | .renameRows id table renames, .rowsRenamed _ => m.modify id (·.renameRows table renames)
  | _, _ => m

end DeepCopy

end VersionedTables
