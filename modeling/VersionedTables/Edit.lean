import VersionedTables.Diff
import VersionedTables.Supply
import VersionedTables.Transaction

/-!
# Edits

An edit is a step within an open transaction: it may read the store, write to it, draw identifiers
and read the clock, and it may be refused. A refused edit keeps what it had changed until then, for
the transaction's owner to roll back or to go on with.

This module has the primitive edits and the three rules every command on a draft follows: only
drafts are edited (`requireDraft`), an edit that adds something marks the draft as changed
(`markChanged`), and an edit that takes something away compares the draft with its parent again,
because it may have brought it back to what it was (`refreshHasChanges`).
-/

namespace VersionedTables

/-- Whether a revision shows something else than its parent; without a parent, whether it shows
anything. -/
def Store.differsFromParent (s : Store) (id : RevisionId) (revision : Revision) : Bool :=
  let baseline := match revision.parent with
    | some parent => s.view parent
    | none => []
  !(Diff.between baseline (s.view id)).isEmpty

/-- An open transaction, and what its edits draw from. -/
structure Workspace where
  /-- The transaction. -/
  transaction : Transaction
  /-- Identifiers and clock readings. -/
  supply : Supply

/-- A step within an open transaction. -/
abbrev Edit (α : Type) : Type := ExceptT CommandFault (StateM Workspace) α

namespace Edit

/-! ## Primitive edits -/

/-- The store as it is now. -/
def store : Edit Store := do
  return (← get).transaction.store

/-- A fresh identifier. -/
def freshId (kind : IdKind) : Edit (Id kind) := do
  let w ← get
  let (id, supply) := w.supply.drawId kind
  set { w with supply }
  return id

/-- A reading of the clock. -/
def now : Edit Instant := do
  let w ← get
  let (time, supply) := w.supply.readClock
  set { w with supply }
  return time

/-- A write that the store may refuse. -/
def write (f : Transaction → Except StoreFault Transaction) : Edit Unit := do
  let w ← get
  match f w.transaction with
  | .ok transaction => set { w with transaction }
  | .error fault => throw (.store fault)

/-- A write that gives something back, and that the store may refuse. -/
def take {α : Type} (f : Transaction → Except StoreFault (α × Transaction)) : Edit α := do
  let w ← get
  match f w.transaction with
  | .ok (value, transaction) =>
    set { w with transaction }
    return value
  | .error fault => throw (.store fault)

/-- A write that always succeeds. -/
def change (f : Transaction → Transaction) : Edit Unit :=
  modify fun w => { w with transaction := f w.transaction }

/-- Reads a name out of a request. -/
def parseName {ν : Type} (parse : String → Except NameFault ν) (text : String) : Edit ν :=
  match parse text with
  | .ok name => return name
  | .error cause => throw (.malformed text cause)

/-- The value that was looked for, or a fault. -/
def orFault {α : Type} (fault : CommandFault) : Option α → Edit α
  | some value => return value
  | none => throw fault

/-! ## Drafts -/

/-- The record of a revision that can be edited. -/
def requireDraft (id : RevisionId) : Edit Revision := do
  let revision ← orFault (.revisionNotFound id) ((← store).revision? id)
  if !revision.isDraft then throw (.notADraft id)
  return revision

/-- The table of a revision, found by name. -/
def requireTable (revision : RevisionId) (name : String) : Edit TableVersion := do
  orFault (.tableNotFound name revision) ((← store).findTable revision name)

/-- Marks a draft as changed. -/
def markChanged (draft : Revision) : Edit Unit := do
  if !draft.hasChanges then
    write (·.updateRevision { draft with hasChanges := true })

/-- Finds out whether a draft differs from its parent, and marks it accordingly. -/
def refreshHasChanges (id : RevisionId) : Edit Bool := do
  let s ← store
  let revision ← orFault (.revisionNotFound id) (s.revision? id)
  let hasChanges := s.differsFromParent id revision
  if revision.hasChanges != hasChanges then
    write (·.updateRevision { revision with hasChanges })
  return hasChanges

end Edit

end VersionedTables
