import VersionedTables.Edit.Sharing

/-!
# Editing branches

The life of a branch. It starts with a first revision and a draft on top of it, either empty or
with the tables of a revision it is forked from (`createBranch`). Committing turns the draft into
the new head and puts a fresh draft on top (`commit`); reverting gives the draft back the tables
of the head (`revert`).
-/

namespace VersionedTables

/-- A branch was created. -/
structure BranchCreated where
  /-- Its name. -/
  branch : BranchName
  /-- Its first revision, which is its head until the first commit. -/
  start : RevisionId
  /-- Its draft. -/
  draft : RevisionId
  deriving DecidableEq, Repr

/-- A draft was committed. -/
structure Committed where
  /-- The head before. -/
  previousHead : RevisionId
  /-- The draft before. -/
  previousDraft : RevisionId
  /-- The head now: what was the draft. -/
  nextHead : RevisionId
  /-- The draft now. -/
  nextDraft : RevisionId
  deriving DecidableEq, Repr

/-- A draft was reverted. -/
structure Reverted where
  /-- The head. -/
  head : RevisionId
  /-- The draft. -/
  draft : RevisionId
  /-- The table versions that the draft showed and the head does not. -/
  detached : List VersionId
  deriving DecidableEq, Repr

namespace Edit

/-! ## Creating -/

/-- The revision a branch is to be forked from, which must not be a draft. -/
def requireSource (id : RevisionId) : Edit Revision := do
  let revision ← orFault (.revisionNotFound id) ((← store).revision? id)
  if revision.isDraft then throw .forkFromDraft
  return revision

/-- Lets the first revision and the draft of a fork show a table version, which nobody may change
from now on. -/
def shareTable (start draft : RevisionId) (table : TableVersion) : Edit Unit := do
  write (·.connectTable start table.version)
  write (·.connectTable draft table.version)
  lockTable table

/-- Creates a branch, forked from a revision if one is given. -/
def createBranch (branch : String) (source : Option RevisionId) : Edit BranchCreated := do
  let name ← parseName BranchName.parse branch
  if ((← store).branch? name).isSome then throw (.branchExists name)
  let source ← source.mapM requireSource
  write (·.createBranch ⟨name, ← now⟩)
  let startId ← freshId .revision
  let start := Revision.start startId name (source.map (·.id)) (← now)
  let draftId ← freshId .revision
  let draft := Revision.draft draftId name startId (← now)
  write (·.createRevision start)
  write (·.createRevision draft)
  match source with
  | some source => ((← store).tablesOf source.id).forM (shareTable startId draftId)
  | none => pure ()
  return ⟨name, startId, draftId⟩

/-! ## Committing and reverting -/

/-- The head and the draft of a branch, the draft being changed. -/
def requireChanges (branch : BranchName) : Edit (Revision × Revision) := do
  let head ← orFault .noHead ((← store).findRevision branch .head)
  let draft ← orFault .noDraft ((← store).findRevision branch .draft)
  if !draft.hasChanges then throw .noChanges
  return (head, draft)

/-- Turns the draft of a branch into its head, with a fresh draft on top. What the new head shows
is read-only from now on. -/
def commit (branch : BranchName) (comment : Option String) : Edit Committed := do
  let (head, draft) ← requireChanges branch
  write (·.updateRevision { head with isHead := false, isDraft := false })
  write (·.updateRevision
    { draft with isHead := true, isDraft := false, hasChanges := false, comment })
  let nextDraft ← freshId .revision
  let record := Revision.draft nextDraft branch draft.id (← now)
  write (·.createRevision record)
  ((← store).tablesOf draft.id).forM fun table => do
    write (·.connectTable nextDraft table.version)
    lockTable table
  return ⟨head.id, draft.id, draft.id, nextDraft⟩

/-- Gives the draft of a branch back the tables of the head. Versions that only the draft showed
stay where they are, for the garbage collection to find. -/
def revert (branch : BranchName) : Edit Reverted := do
  let (head, draft) ← requireChanges branch
  let headTables := ((← store).tablesOf head.id).map (·.version)
  let draftTables := ((← store).tablesOf draft.id).map (·.version)
  draftTables.forM fun table => change (·.disconnectTable draft.id table)
  headTables.forM fun table => write (·.connectTable draft.id table)
  write (·.updateRevision { draft with hasChanges := false })
  return ⟨head.id, draft.id, draftTables.filter (!headTables.contains ·)⟩

end Edit

end VersionedTables
