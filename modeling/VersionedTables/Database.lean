import VersionedTables.Command
import VersionedTables.Disk
import VersionedTables.History
import VersionedTables.Snapshot.Reader

/-!
# The database

A committed store with a configuration, and the surroundings it works in: the supply it draws
from and the disk it may be kept on. Each command runs in a transaction of its own, which is
committed as a whole or rolled back as a whole; `Database.transact` does the same for any edit.

A database kept on disk writes a snapshot when a transaction with changes is committed, unless it
is configured not to. If that fails, the transaction is rolled back.
-/

namespace VersionedTables

/-- How a database is to be opened. -/
structure Config where
  /-- Whether it is kept on disk. -/
  onDisk : Bool := false
  /-- Whether it may be created when there is nothing on the disk. -/
  createIfMissing : Bool := true
  /-- The branch that it always has. -/
  defaultBranch : String := BranchName.main.text
  /-- Whether every commit writes a snapshot. -/
  persistOnCommit : Bool := true
  deriving DecidableEq, Repr

/-- What a database works with. -/
structure Surroundings where
  /-- Identifiers and clock readings. -/
  supply : Supply
  /-- Where a snapshot is kept. -/
  disk : Disk

/-- An open database. -/
structure Database where
  /-- How it was opened. -/
  config : Config
  /-- The branch that it always has. -/
  defaultBranch : BranchName
  /-- What was committed so far. -/
  store : Store
  /-- What it works with. -/
  surroundings : Surroundings

namespace Database

/-! ## Snapshots -/

/-- Writes a snapshot of a store. -/
def persist (surroundings : Surroundings) (store : Store) :
    Except StoreFault Unit × Surroundings :=
  let (time, supply) := surroundings.supply.readClock
  let (result, disk) := surroundings.disk.write (store.snapshotText time)
  (result, ⟨supply, disk⟩)

/-- Writes a snapshot of what was committed. -/
def save (db : Database) : Except StoreFault Unit × Database :=
  if db.config.onDisk then
    let (result, surroundings) := persist db.surroundings db.store
    (result, { db with surroundings })
  else (.error .noFile, db)

/-! ## Transactions -/

/-- Opens a transaction. -/
def begin (db : Database) : Workspace :=
  ⟨⟨db.store, []⟩, db.surroundings.supply⟩

/-- The database after a transaction that leaves this store behind. -/
def resume (db : Database) (w : Workspace) (store : Store) : Database :=
  { db with store, surroundings := { db.surroundings with supply := w.supply } }

/-- Ends a transaction without keeping its changes. -/
def rollback (db : Database) (w : Workspace) : Database :=
  db.resume w w.transaction.rollback

/-- Whether committing a transaction writes a snapshot. -/
def persists (db : Database) (t : Transaction) : Bool :=
  db.config.onDisk && db.config.persistOnCommit && !t.journal.isEmpty

/-- Ends a transaction and keeps its changes, unless the snapshot cannot be written. -/
def commit (db : Database) (w : Workspace) : Except StoreFault Unit × Database :=
  let kept := db.resume w w.transaction.store
  if db.persists w.transaction then
    match persist kept.surroundings w.transaction.store with
    | (.ok (), surroundings) => (.ok (), { kept with surroundings })
    | (.error fault, surroundings) =>
      (.error fault, { db.rollback w with surroundings })
  else (.ok (), kept)

/-- Runs an edit in a transaction of its own. -/
def transact {α : Type} (db : Database) (edit : Edit α) : Except DatabaseFault α × Database :=
  let (result, w) := edit.run.run db.begin
  match result with
  | .error fault => (.error (.command fault), db.rollback w)
  | .ok value =>
    match db.commit w with
    | (.ok (), db) => (.ok value, db)
    | (.error fault, db) => (.error (.store fault), db)

/-- Runs a command. -/
def execute (db : Database) (command : Command) : Except DatabaseFault Reply × Database :=
  db.transact command.run

/-! ## Opening -/

/-- The store that is on a disk, or an empty one if there is nothing. -/
def load (disk : Disk) : Except StoreFault Store :=
  if disk.isPresent then disk.read.bind (Store.ofSnapshotText disk.path) else .ok ∅

/-- The store to start with. -/
def initialStore (config : Config) (disk : Disk) : Except DatabaseFault Store :=
  if config.onDisk then
    if !disk.isPresent && !config.createIfMissing then .error (.notFound disk.path)
    else (load disk).mapError .store
  else .ok ∅

/-- Opens a database. If it has no default branch yet, it gets one. When that is not possible the
surroundings are given back. -/
def openWith (config : Config) (surroundings : Surroundings) :
    Except (DatabaseFault × Surroundings) Database := do
  let defaultBranch ← (BranchName.parse config.defaultBranch).mapError fun cause =>
    (.badDefaultBranch config.defaultBranch cause, surroundings)
  let store ← (initialStore config surroundings.disk).mapError (·, surroundings)
  let db : Database := ⟨config, defaultBranch, store, surroundings⟩
  match store.branch? defaultBranch with
  | some _ => return db
  | none =>
    match db.execute (.createBranch defaultBranch.text none) with
    | (.ok _, db) => return db
    | (.error fault, db) => throw (fault, db.surroundings)

/-! ## Requests that name a branch -/

/-- Reads the name of a branch out of a request. -/
def parseBranch (text : String) : Except DatabaseFault BranchName :=
  (BranchName.parse text).mapError fun cause => .command (.malformed text cause)

/-- Turns the draft of a branch into its head. -/
def commitBranch (db : Database) (branch : String) (comment : Option String) :
    Except DatabaseFault Reply × Database :=
  match parseBranch branch with
  | .ok name => db.execute (.commit name comment)
  | .error fault => (.error fault, db)

/-- Gives the draft of a branch back the tables of the head. -/
def revertBranch (db : Database) (branch : String) : Except DatabaseFault Reply × Database :=
  match parseBranch branch with
  | .ok name => db.execute (.revert name)
  | .error fault => (.error fault, db)

/-! ## Questions -/

/-- The value that was looked for, or a fault. -/
def found {α : Type} (fault : CommandFault) : Option α → Except DatabaseFault α
  | some value => .ok value
  | none => .error (.command fault)

/-- The revision that plays a role on a branch. -/
def revisionInRole (db : Database) (branch : String) (role : Role) :
    Except DatabaseFault Revision := do
  let name ← parseBranch branch
  found (.roleNotFound role name) (db.store.findRevision name role)

/-- The revision with an identifier. -/
def revision (db : Database) (id : RevisionId) : Except DatabaseFault Revision :=
  found (.revisionNotFound id) (db.store.revision? id)

/-- The table versions a revision shows. -/
def tables (db : Database) (revision : RevisionId) : Except DatabaseFault (List TableVersion) := do
  let _ ← db.revision revision
  return db.store.tablesOf revision

/-- The version of a table that a revision shows. -/
def table (db : Database) (revision : RevisionId) (name : String) :
    Except DatabaseFault TableVersion :=
  found (.tableNotFound name revision) (db.store.findTable revision name)

/-- The row versions of a table, as a revision shows them. -/
def rows (db : Database) (revision : RevisionId) (table : String) :
    Except DatabaseFault (List RowVersion) := do
  let table ← db.table revision table
  return db.store.rowsOf table.version

/-- The version of a row, as a revision shows it. -/
def row (db : Database) (revision : RevisionId) (table name : String) :
    Except DatabaseFault RowVersion := do
  let table ← db.table revision table
  found (.rowNotFound name table.name) (db.store.findRow table.version name)

/-- The committed revisions of a branch, the newest first; `none` when there is no end to them. -/
def history (db : Database) (branch : String) (limit : Option Nat) :
    Except DatabaseFault (Option (List Revision)) := do
  let name ← parseBranch branch
  (db.store.history name limit).mapError .command

/-- The differences between two revisions. -/
def diff (db : Database) (before after : RevisionId) : Except DatabaseFault Diff := do
  let _ ← db.revision before
  let _ ← db.revision after
  return db.store.diff before after

/-- How much a database holds. -/
structure Stats where
  /-- Branches. -/
  branches : Nat
  /-- Revisions of these branches. -/
  revisions : Nat
  /-- Table versions, whether they can be reached or not. -/
  tables : Nat
  /-- Row versions, whether they can be reached or not. -/
  rows : Nat
  deriving DecidableEq, Repr

/-- Counts what a database holds. -/
def stats (db : Database) : Stats where
  branches := db.store.branchList.length
  revisions := (db.store.branchList.flatMap fun b => db.store.branchRevisions b.name).length
  tables := db.store.tableVersions.length
  rows := db.store.rowVersions.length

end Database

end VersionedTables
