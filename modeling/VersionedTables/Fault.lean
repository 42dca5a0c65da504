import VersionedTables.Store.Integrity

/-!
# Faults

Everything that can go wrong, layer by layer: a single write to the store (`StoreFault`), a
command (`CommandFault`), and the database as a whole (`DatabaseFault`). A fault is a cause and
not a text; the sentences people read are made by the `message` functions.
-/

namespace VersionedTables

/-! ## The store -/

/-- The kinds of record that have an identifier. -/
inductive RecordKind where
  /-- Revisions. -/
  | revision
  /-- Table versions. -/
  | table
  /-- Row versions. -/
  | row
  deriving DecidableEq, Repr

/-- The word for a kind of record. -/
def RecordKind.word : RecordKind → String
  | .revision => "revision"
  | .table => "table"
  | .row => "row"

/-- Why the store refused a write, or could not be loaded or saved. -/
inductive StoreFault where
  /-- A record with this identifier exists already. -/
  | duplicate (kind : RecordKind) (id : String)
  /-- A record with this identifier does not exist. -/
  | missing (kind : RecordKind) (id : String)
  /-- A version cannot be deleted while something links it. -/
  | stillLinked (kind : RecordKind) (version : VersionId) (links : Nat)
  /-- A branch with this name exists already. -/
  | branchExists (name : BranchName)
  /-- A new revision belongs to a branch that does not exist. -/
  | unknownBranch (revision : RevisionId) (branch : BranchName)
  /-- A file does not hold a stored database. -/
  | unreadable
  /-- A file is in a format that is not known here. -/
  | unknownFormat (path : String) (found expected : Nat)
  /-- A file holds a store that is not sound. -/
  | damaged (path : String) (damage : Damage)
  /-- A file could not be read. -/
  | io
  /-- A file could not be put in the place of the old one. -/
  | notReplaced (path : String)
  /-- There is no file to save to. -/
  | noFile
  deriving DecidableEq, Repr

namespace StoreFault

/-- The sentence for a fault of the store. -/
def message : StoreFault → String
  | .duplicate kind id => s!"duplicate {kind.word} record: {id}"
  | .missing kind id => s!"{kind.word} record not found: {id}"
  | .stillLinked kind version links =>
    s!"{kind.word} version {version.text} is still referenced by {links} parent(s)"
  | .branchExists name => s!"branch already exists: {name.text}"
  | .unknownBranch revision branch =>
    s!"revision {revision.text} references unknown branch {branch.text}"
  | .unreadable => "serialization error"
  | .unknownFormat path found expected =>
    s!"corrupted snapshot at {path}: unsupported format {found} (expected {expected})"
  | .damaged path damage => s!"corrupted snapshot at {path}: {damage.message}"
  | .io => "io error"
  | .notReplaced path => s!"failed to persist snapshot to {path}"
  | .noFile => "internal error: store has no snapshot path"

/-- Whether a fault says that the version graph would not be sound. -/
def isIntegrity : StoreFault → Bool
  | .duplicate .. | .missing .. | .stillLinked .. | .unknownBranch .. => true
  | _ => false

/-- Whether a fault comes from the file system. -/
def isIo : StoreFault → Bool
  | .io | .notReplaced .. => true
  | _ => false

end StoreFault

/-! ## Commands -/

/-- Why a command was refused. -/
inductive CommandFault where
  /-- Only drafts can be edited. -/
  | notADraft (revision : RevisionId)
  /-- There is no such revision. -/
  | revisionNotFound (revision : RevisionId)
  /-- There is no such branch. -/
  | branchNotFound (branch : BranchName)
  /-- No revision plays the role on the branch. -/
  | roleNotFound (role : Role) (branch : BranchName)
  /-- The revision shows no such table. -/
  | tableNotFound (table : String) (revision : RevisionId)
  /-- The table holds no such row. -/
  | rowNotFound (row : String) (table : TableName)
  /-- A branch of this name exists already. -/
  | branchExists (branch : BranchName)
  /-- The revision shows a table of this name already. -/
  | tableExists (table : TableName)
  /-- The table has this very name already. -/
  | tableNameKept (table : TableName)
  /-- The row has this very name already. -/
  | rowNameKept (row : String)
  /-- A request names a row twice. -/
  | repeatedRow
  /-- A request gives one name to two rows. -/
  | repeatedTarget
  /-- The table holds rows of these names already. -/
  | rowsExist (rows : List String)
  /-- A text is no name. -/
  | malformed (text : String) (cause : NameFault)
  /-- A branch can only be forked from a committed revision. -/
  | forkFromDraft
  /-- The branch has no head. -/
  | noHead
  /-- The branch has no draft. -/
  | noDraft
  /-- The draft does not differ from its head. -/
  | noChanges
  /-- The revision has no parent to compare it with. -/
  | noParent
  /-- Rows cannot be exchanged under a published table version. -/
  | readonlyTable (table : TableName) (version : VersionId)
  /-- The store refused a write. -/
  | store (fault : StoreFault)
  deriving DecidableEq, Repr

namespace CommandFault

/-- The sentence for a fault of a command. -/
def message : CommandFault → String
  | .notADraft _ => "The revision is not a draft"
  | .revisionNotFound revision => s!"Revision {revision.text} not found"
  | .branchNotFound branch => s!"Branch \"{branch.text}\" not found"
  | .roleNotFound role branch => s!"No {role.word} revision on branch \"{branch.text}\""
  | .tableNotFound table revision => s!"Table \"{table}\" not found in revision {revision.text}"
  | .rowNotFound row table => s!"Row \"{row}\" not found in table \"{table.text}\""
  | .branchExists branch => s!"Branch \"{branch.text}\" already exists"
  | .tableExists table => s!"A table with ID \"{table.text}\" already exists in the revision"
  | .tableNameKept table => s!"Table \"{table.text}\" is already named \"{table.text}\""
  | .rowNameKept row => s!"Row \"{row}\" is already named \"{row}\""
  | .repeatedRow => "Duplicate row IDs in request"
  | .repeatedTarget => "Duplicate target row IDs in request"
  | .rowsExist rows => "Rows already exist: " ++ String.intercalate ", " rows
  | .malformed text cause => s!"Invalid id \"{text}\": {cause.message}"
  | .forkFromDraft => "Cannot branch from a draft revision"
  | .noHead => "Head revision not found"
  | .noDraft => "Draft revision not found"
  | .noChanges => "There are no changes"
  | .noParent => "Parent revision not found"
  | .readonlyTable table version =>
    s!"Table \"{table.text}\" version {version.text} is read-only"
  | .store fault => s!"storage error: {fault.message}"

/-- Whether the request itself is to blame, rather than the store. -/
def isBadRequest : CommandFault → Bool
  | .store _ => false
  | _ => true

/-- Whether something the request names does not exist. -/
def isNotFound : CommandFault → Bool
  | .revisionNotFound _ | .branchNotFound _ | .roleNotFound .. | .tableNotFound ..
  | .rowNotFound .. => true
  | _ => false

/-- Whether the request clashes with what exists, or with itself. -/
def isConflict : CommandFault → Bool
  | .branchExists _ | .tableExists _ | .tableNameKept _ | .rowNameKept _ | .repeatedRow
  | .repeatedTarget | .rowsExist _ => true
  | _ => false

end CommandFault

/-! ## The database -/

/-- Why a database could not be opened, or a request to it failed. -/
inductive DatabaseFault where
  /-- A command was refused. -/
  | command (fault : CommandFault)
  /-- The store could not be loaded or saved. -/
  | store (fault : StoreFault)
  /-- There is no file, and none may be created. -/
  | notFound (path : String)
  /-- The default branch of the configuration is no branch name. -/
  | badDefaultBranch (text : String) (cause : NameFault)
  deriving DecidableEq, Repr

namespace DatabaseFault

/-- The sentence for a fault of the database. -/
def message : DatabaseFault → String
  | .command fault => fault.message
  | .store fault => s!"storage error: {fault.message}"
  | .notFound path => s!"database not found: {path}"
  | .badDefaultBranch text cause =>
    s!"invalid configuration: default branch \"{text}\": {cause.message}"

/-- Whether the request itself is to blame. -/
def isBadRequest : DatabaseFault → Bool
  | .command fault => fault.isBadRequest
  | _ => false

/-- Whether something the request names does not exist. -/
def isNotFound : DatabaseFault → Bool
  | .command fault => fault.isNotFound
  | .notFound _ => true
  | _ => false

/-- Whether the request clashes with what exists, or with itself. -/
def isConflict : DatabaseFault → Bool
  | .command fault => fault.isConflict
  | _ => false

end DatabaseFault

end VersionedTables
