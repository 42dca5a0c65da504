import VersionedTables.Fault

/-!
# Transactions

A transaction is a store together with a *journal* of what it takes to undo every change made to
it so far, the latest change first. Each write checks what it needs before it changes anything, so
a refused write leaves the transaction as it was. Rolling back plays the journal from its latest
entry to its first.

A write that changes nothing (a link that exists already, or does not exist) is not journaled.
-/

namespace VersionedTables

/-- What undoes one change. -/
inductive Undo where
  /-- Brings the branch of a name back to an earlier record, or to none. -/
  | branch (name : BranchName) (previous : Option Branch)
  /-- Brings a revision back to an earlier record, or to none. -/
  | revision (id : RevisionId) (previous : Option Revision)
  /-- Brings a table version back to an earlier record, or to none. -/
  | table (version : VersionId) (previous : Option TableVersion)
  /-- Brings a row version back to an earlier record, or to none. -/
  | row (version : VersionId) (previous : Option RowVersion)
  /-- Sets or removes the link from a revision to a table version. -/
  | tableLink (revision : RevisionId) (table : VersionId) (linked : Bool)
  /-- Sets or removes the link from a table version to a row version. -/
  | rowLink (table row : VersionId) (linked : Bool)
  deriving Repr

/-- Undoes one change. A record goes back to where its own identifier says. -/
def Undo.apply : Undo → Store → Store
  | .branch _ (some record), s => s.putBranch record
  | .branch name none, s => s.dropBranch name
  | .revision _ (some record), s => s.putRevision record
  | .revision id none, s => s.dropRevision id
  | .table _ (some record), s => s.putTable record
  | .table version none, s => s.dropTable version
  | .row _ (some record), s => s.putRow record
  | .row version none, s => s.dropRow version
  | .tableLink holder version linked, s => s.linkTable holder version linked
  | .rowLink holder version linked, s => s.linkRow holder version linked

/-- A store with the journal of the changes made to it. -/
structure Transaction where
  /-- The store as it is now. -/
  store : Store
  /-- What undoes the changes, the latest first. -/
  journal : List Undo := []

namespace Transaction

/-- The changes made so far. -/
def pending (t : Transaction) : Nat :=
  t.journal.length

/-- The store without any of the changes. -/
def rollback (t : Transaction) : Store :=
  t.journal.foldl (fun store undo => undo.apply store) t.store

/-- Goes on with a changed store, noting what undoes the change. -/
def record (t : Transaction) (store : Store) (undo : Undo) : Transaction :=
  ⟨store, undo :: t.journal⟩

/-! ## Branches and revisions -/

/-- Adds a branch. -/
def createBranch (t : Transaction) (record : Branch) : Except StoreFault Transaction :=
  if t.store.branches.contains record.name then .error (.branchExists record.name)
  else .ok (t.record (t.store.putBranch record) (.branch record.name none))

/-- Adds a revision to a branch that exists. -/
def createRevision (t : Transaction) (record : Revision) : Except StoreFault Transaction :=
  if t.store.revisions.contains record.id then .error (.duplicate .revision record.id.text)
  else if !t.store.branches.contains record.branch then
    .error (.unknownBranch record.id record.branch)
  else .ok (t.record (t.store.putRevision record) (.revision record.id none))

/-- Replaces the record of a revision. -/
def updateRevision (t : Transaction) (record : Revision) : Except StoreFault Transaction :=
  match t.store.revision? record.id with
  | none => .error (.missing .revision record.id.text)
  | some previous =>
    .ok (t.record (t.store.putRevision record) (.revision record.id (some previous)))

/-! ## Tables -/

/-- Adds a table version. -/
def createTable (t : Transaction) (record : TableVersion) : Except StoreFault Transaction :=
  if t.store.tables.contains record.version then .error (.duplicate .table record.version.text)
  else .ok (t.record (t.store.putTable record) (.table record.version none))

/-- Replaces the record of a table version. -/
def updateTable (t : Transaction) (record : TableVersion) : Except StoreFault Transaction :=
  match t.store.table? record.version with
  | none => .error (.missing .table record.version.text)
  | some previous =>
    .ok (t.record (t.store.putTable record) (.table record.version (some previous)))

/-- Sets or removes the link from a revision to a table version. -/
def linkTable (t : Transaction) (revision : RevisionId) (table : VersionId) (linked : Bool) :
    Transaction :=
  let wasLinked := t.store.revisionTables.contains revision table
  let store := t.store.linkTable revision table linked
  if wasLinked = linked then { t with store }
  else t.record store (.tableLink revision table wasLinked)

/-- Sets or removes the link from a table version to a row version. -/
def linkRow (t : Transaction) (table row : VersionId) (linked : Bool) : Transaction :=
  let wasLinked := t.store.tableRows.contains table row
  let store := t.store.linkRow table row linked
  if wasLinked = linked then { t with store }
  else t.record store (.rowLink table row wasLinked)

/-- Deletes a table version that no revision shows, and with it its links to rows. The rows
themselves stay. -/
def deleteTable (t : Transaction) (version : VersionId) :
    Except StoreFault (TableVersion × Transaction) :=
  match t.store.table? version with
  | none => .error (.missing .table version.text)
  | some record =>
    let links := (t.store.revisionsOf version).length
    if links > 0 then .error (.stillLinked .table version links)
    else
      let unlinked := (t.store.tableRows.targets version).foldl
        (fun t row => t.linkRow version row false) t
      .ok (record, unlinked.record (unlinked.store.dropTable version) (.table version (some record)))

/-! ## Rows -/

/-- Adds a row version. -/
def createRow (t : Transaction) (record : RowVersion) : Except StoreFault Transaction :=
  if t.store.rows.contains record.version then .error (.duplicate .row record.version.text)
  else .ok (t.record (t.store.putRow record) (.row record.version none))

/-- Replaces the record of a row version. -/
def updateRow (t : Transaction) (record : RowVersion) : Except StoreFault Transaction :=
  match t.store.row? record.version with
  | none => .error (.missing .row record.version.text)
  | some previous =>
    .ok (t.record (t.store.putRow record) (.row record.version (some previous)))

/-- Deletes a row version that no table version holds. -/
def deleteRow (t : Transaction) (version : VersionId) :
    Except StoreFault (RowVersion × Transaction) :=
  match t.store.row? version with
  | none => .error (.missing .row version.text)
  | some record =>
    let links := (t.store.tablesHolding version).length
    if links > 0 then .error (.stillLinked .row version links)
    else .ok (record, t.record (t.store.dropRow version) (.row version (some record)))

/-! ## Links -/

/-- Lets a revision show a table version; both have to exist. -/
def connectTable (t : Transaction) (revision : RevisionId) (table : VersionId) :
    Except StoreFault Transaction :=
  if !t.store.revisions.contains revision then .error (.missing .revision revision.text)
  else if !t.store.tables.contains table then .error (.missing .table table.text)
  else .ok (t.linkTable revision table true)

/-- Stops a revision from showing a table version. -/
def disconnectTable (t : Transaction) (revision : RevisionId) (table : VersionId) : Transaction :=
  t.linkTable revision table false

/-- Lets a table version hold a row version; both have to exist. -/
def connectRow (t : Transaction) (table row : VersionId) : Except StoreFault Transaction :=
  if !t.store.tables.contains table then .error (.missing .table table.text)
  else if !t.store.rows.contains row then .error (.missing .row row.text)
  else .ok (t.linkRow table row true)

/-- Stops a table version from holding a row version. -/
def disconnectRow (t : Transaction) (table row : VersionId) : Transaction :=
  t.linkRow table row false

end Transaction

end VersionedTables
