import VersionedTables.Store

/-!
# Integrity

What a store has to satisfy to be usable after loading: every revision belongs to a branch that
exists, and both ends of every link are records that exist.
-/

namespace VersionedTables

/-- What is wrong with a store. -/
inductive Damage where
  /-- A revision belongs to a branch that does not exist. -/
  | revisionWithoutBranch (revision : RevisionId) (branch : BranchName)
  /-- A revision that does not exist has links. -/
  | linksFromRevision (revision : RevisionId)
  /-- A revision shows a table version that does not exist. -/
  | linkToTable (revision : RevisionId) (table : VersionId)
  /-- A table version that does not exist has links. -/
  | linksFromTable (table : VersionId)
  /-- A table version holds a row version that does not exist. -/
  | linkToRow (table row : VersionId)
  deriving DecidableEq, Repr

/-- The sentence that says what is wrong. -/
def Damage.message : Damage → String
  | .revisionWithoutBranch revision branch =>
    s!"revision {revision.text} references unknown branch {branch.text}"
  | .linksFromRevision revision => s!"link from unknown revision {revision.text}"
  | .linkToTable revision table => s!"revision {revision.text} links unknown table {table.text}"
  | .linksFromTable table => s!"link from unknown table {table.text}"
  | .linkToRow table row => s!"table {table.text} links unknown row {row.text}"

namespace Store

/-- A revision whose branch does not exist. -/
def branchDamage? (s : Store) (revision : Revision) : Option Damage :=
  if s.branches.contains revision.branch then none
  else some (.revisionWithoutBranch revision.id revision.branch)

/-- A link entry of a revision with an end that does not exist. The revision is looked at before
what it links. -/
def tableLinkDamage? (s : Store)
    (entry : RevisionId × Std.ExtTreeSet VersionId compare) : Option Damage :=
  if s.revisions.contains entry.1 then
    (entry.2.toList.find? (!s.tables.contains ·)).map (.linkToTable entry.1)
  else some (.linksFromRevision entry.1)

/-- A link entry of a table version with an end that does not exist. The table version is looked
at before what it links. -/
def rowLinkDamage? (s : Store)
    (entry : VersionId × Std.ExtTreeSet VersionId compare) : Option Damage :=
  if s.tables.contains entry.1 then
    (entry.2.toList.find? (!s.rows.contains ·)).map (.linkToRow entry.1)
  else some (.linksFromTable entry.1)

/-- The first damage of a store: revisions are looked at first, then the links of revisions, then
those of table versions, each in the order of identifiers. -/
def damage? (s : Store) : Option Damage :=
  (s.revisions.values.findSome? s.branchDamage?)
    <|> (s.revisionTables.forward.toList.findSome? s.tableLinkDamage?)
    <|> (s.tableRows.forward.toList.findSome? s.rowLinkDamage?)

end Store

end VersionedTables
