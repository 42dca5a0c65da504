import VersionedTables.Edit

/-!
# Garbage collection

Commands leave versions behind that nobody can see any more, such as the edits of a draft that was
reverted. Collecting garbage deletes the table versions that no revision shows, and then the row
versions that no table version holds. Tables go first, because deleting one may leave its rows
without any holder.
-/

namespace VersionedTables

/-- What a garbage collection deleted. -/
structure GarbageReport where
  /-- The table versions. -/
  tables : List VersionId
  /-- The row versions. -/
  rows : List VersionId
  deriving DecidableEq, Repr

/-- Whether there was nothing to delete. -/
def GarbageReport.isEmpty (report : GarbageReport) : Bool :=
  report.tables.isEmpty && report.rows.isEmpty

namespace Edit

/-- Deletes a table version that no revision shows; says whether it did. -/
def deleteTableIfUnshown (version : VersionId) : Edit Bool := do
  if ((← store).revisionsOf version).isEmpty then
    let _ ← take (·.deleteTable version)
    return true
  else return false

/-- Deletes a row version that no table version holds; says whether it did. -/
def deleteRowIfUnheld (version : VersionId) : Edit Bool := do
  if ((← store).tablesHolding version).isEmpty then
    let _ ← take (·.deleteRow version)
    return true
  else return false

/-- Deletes every version that cannot be reached from a revision. -/
def collectGarbage : Edit GarbageReport := do
  let tables ← (← store).tableVersions.filterM deleteTableIfUnshown
  let rows ← (← store).rowVersions.filterM deleteRowIfUnheld
  return ⟨tables, rows⟩

end Edit

end VersionedTables
