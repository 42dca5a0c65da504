import VersionedTables.Document.Fingerprint
import VersionedTables.Instant
import VersionedTables.Id
import VersionedTables.Name

/-!
# Records

What the store keeps: branches, their revisions, and the physical versions of tables and rows.
Which table versions a revision shows, and which row versions a table version holds, is not part
of any record: that is what the links of the store say.
-/

namespace VersionedTables

/-- A line of development. -/
structure Branch where
  /-- Its name. -/
  name : BranchName
  /-- When it was created. -/
  createdAt : Instant
  deriving DecidableEq, Repr

/-- The roles a revision can play on its branch. They are flags and not stages: the first revision
of a branch is also its head until something is committed. -/
inductive Role where
  /-- The first revision of its branch. -/
  | start
  /-- The latest committed revision. -/
  | head
  /-- The revision that can be edited. -/
  | draft
  deriving DecidableEq, Repr

/-- The word for a role. -/
def Role.word : Role → String
  | .start => "start"
  | .head => "head"
  | .draft => "draft"

/-- A revision of a branch. -/
structure Revision where
  /-- Its identifier. -/
  id : RevisionId
  /-- The branch it belongs to. -/
  branch : BranchName
  /-- The revision it goes back to; the first revision of a branch that was not forked has none. -/
  parent : Option RevisionId
  /-- Whether it is the first of its branch. -/
  isStart : Bool
  /-- Whether it is the head of its branch. -/
  isHead : Bool
  /-- Whether it can be edited. -/
  isDraft : Bool
  /-- Whether it is known to differ from its parent. -/
  hasChanges : Bool
  /-- What was said when it was committed. -/
  comment : Option String
  /-- When it was created. -/
  createdAt : Instant
  deriving DecidableEq, Repr

namespace Revision

/-- Whether a revision plays a role. -/
def plays (r : Revision) : Role → Bool
  | .start => r.isStart
  | .head => r.isHead
  | .draft => r.isDraft

/-- The first revision of a branch, which is its head until the first commit. -/
def start (id : RevisionId) (branch : BranchName) (parent : Option RevisionId)
    (createdAt : Instant) : Revision :=
  ⟨id, branch, parent, true, true, false, false, none, createdAt⟩

/-- An unchanged draft on top of a revision. -/
def draft (id : RevisionId) (branch : BranchName) (parent : RevisionId)
    (createdAt : Instant) : Revision :=
  ⟨id, branch, some parent, false, false, true, false, none, createdAt⟩

end Revision

/-- One physical version of a table. -/
structure TableVersion where
  /-- The table's name in this version. -/
  name : TableName
  /-- The table it is a version of. -/
  entity : EntityId
  /-- Its own identifier. -/
  version : VersionId
  /-- Whether it is published, and so must not change any more. -/
  readonly : Bool
  /-- Whether it belongs to the system rather than to its users. -/
  system : Bool
  /-- When the table was created. -/
  createdAt : Instant
  /-- When this version last changed. -/
  updatedAt : Instant
  deriving DecidableEq, Repr

namespace TableVersion

/-- The first version of a new table. -/
def new (name : TableName) (system : Bool) (entity : EntityId) (version : VersionId)
    (now : Instant) : TableVersion :=
  ⟨name, entity, version, false, system, now, now⟩

/-- A version that can be changed, with the identity and the content of `t`. -/
def copy (t : TableVersion) (version : VersionId) (now : Instant) : TableVersion :=
  { t with version := version, readonly := false, updatedAt := now }

end TableVersion

/-- One physical version of a row. -/
structure RowVersion where
  /-- The row's name in this version. -/
  name : RowName
  /-- The row it is a version of. -/
  entity : EntityId
  /-- Its own identifier. -/
  version : VersionId
  /-- Whether it is published, and so must not change any more. -/
  readonly : Bool
  /-- What the row holds. -/
  data : Document
  /-- The fingerprint of `data`. -/
  hash : String
  /-- The fingerprint of the schema that the data follows, if the caller keeps one. -/
  schemaHash : Option String
  /-- Whatever the caller keeps beside the data. -/
  note : Option Document
  /-- When the caller says it was published. -/
  publishedAt : Option Instant
  /-- When the row was created. -/
  createdAt : Instant
  /-- When this version last changed. -/
  updatedAt : Instant
  deriving Repr

namespace RowVersion

/-- The first version of a new row. -/
def new (name : RowName) (data : Document) (entity : EntityId) (version : VersionId)
    (now : Instant) : RowVersion :=
  ⟨name, entity, version, false, data, data.fingerprint, none, none, none, now, now⟩

/-- A version that can be changed, with the identity and the content of `r`. -/
def copy (r : RowVersion) (version : VersionId) (now : Instant) : RowVersion :=
  { r with version := version, readonly := false, updatedAt := now }

/-- Notes that a version changed. -/
def touch (r : RowVersion) (now : Instant) : RowVersion :=
  { r with updatedAt := now }

/-- Replaces what a row holds, and its fingerprint with it. -/
def setData (r : RowVersion) (data : Document) (now : Instant) : RowVersion :=
  { r with data := data, hash := data.fingerprint, updatedAt := now }

end RowVersion

end VersionedTables
