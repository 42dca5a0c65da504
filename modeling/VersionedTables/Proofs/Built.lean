import VersionedTables.Proofs.Writes

/-!
# Stores that were built

A store is *built* when it came about from an empty one by transactions (`Store.Built`): in each of
them writes were tried, with any arguments and whether they were refused or not, and in the end it was
kept or rolled back.

A built store keeps its links in order (`Store.wellLinked_of_built`). Both ends of a link tell of it, both
ends exist, no link is lost when the records behind the links are listed, and a version can be deleted
just when nothing links it.
-/

namespace VersionedTables

/-! ## Refusals to delete -/

namespace Transaction

variable {t : Transaction} {version : VersionId} {links : Nat}

/-- A table version is refused to be deleted as long as revisions show it, and these are counted. -/
theorem deleteTable_eq_stillLinked :
    t.deleteTable version = .error (.stillLinked .table version links) ↔
      (t.store.table? version).isSome ∧ 0 < links ∧
        (t.store.revisionsOf version).length = links := by
  rw [deleteTable]
  rcases t.store.table? version with _ | record
  · simp
  · rcases hlinks : (t.store.revisionsOf version).length with _ | n
    · simp only [gt_iff_lt, Nat.lt_irrefl, if_false, reduceCtorEq, Option.isSome_some, true_and,
        false_iff]
      omega
    · simp only [gt_iff_lt, Nat.zero_lt_succ, if_true, Except.error.injEq,
        StoreFault.stillLinked.injEq, true_and, Option.isSome_some]
      omega

/-- A row version is refused to be deleted as long as table versions hold it, and these are
counted. -/
theorem deleteRow_eq_stillLinked :
    t.deleteRow version = .error (.stillLinked .row version links) ↔
      (t.store.row? version).isSome ∧ 0 < links ∧
        (t.store.tablesHolding version).length = links := by
  rw [deleteRow]
  rcases t.store.row? version with _ | record
  · simp
  · rcases hlinks : (t.store.tablesHolding version).length with _ | n
    · simp only [gt_iff_lt, Nat.lt_irrefl, if_false, reduceCtorEq, Option.isSome_some, true_and,
        false_iff]
      omega
    · simp only [gt_iff_lt, Nat.zero_lt_succ, if_true, Except.error.injEq,
        StoreFault.stillLinked.injEq, true_and, Option.isSome_some]
      omega

end Transaction

namespace Store

variable {s : Store}

/-! ## What links are good for -/

/-- The links of a store can be relied on. -/
structure WellLinked (s : Store) : Prop where
  /-- The two ends of every relation mirror each other without an empty entry, records are kept under
  their own identifiers, and both ends of every link are kept. -/
  intact : s.Intact
  /-- Listing the tables of a revision loses no link. -/
  tablesOf_versions : ∀ id, (s.tablesOf id).map (·.version) = s.revisionTables.targets id
  /-- Listing the rows of a table version loses no link. -/
  rowsOf_versions : ∀ table, (s.rowsOf table).map (·.version) = s.tableRows.targets table
  /-- The revisions of a table version are those that list it. -/
  mem_revisionsOf_iff : ∀ id version,
    id ∈ s.revisionsOf version ↔ ∃ table ∈ s.tablesOf id, table.version = version
  /-- The table versions that hold a row version are those that list it. -/
  mem_tablesHolding_iff : ∀ table version,
    table ∈ s.tablesHolding version ↔ ∃ row ∈ s.rowsOf table, row.version = version
  /-- A table version is refused to be deleted just when a revision shows it. -/
  deleteTable_refused : ∀ t : Transaction, t.store = s → ∀ version,
    (∃ links, t.deleteTable version = .error (.stillLinked .table version links)) ↔
      ∃ id, s.Shows id version
  /-- A table version can be deleted just when it is there and no revision shows it. -/
  deleteTable_accepted : ∀ t : Transaction, t.store = s → ∀ version,
    (∃ result, t.deleteTable version = .ok result) ↔
      (s.table? version).isSome ∧ ¬∃ id, s.Shows id version
  /-- A row version is refused to be deleted just when a table version holds it. -/
  deleteRow_refused : ∀ t : Transaction, t.store = s → ∀ version,
    (∃ links, t.deleteRow version = .error (.stillLinked .row version links)) ↔
      ∃ table, s.Holds table version
  /-- A row version can be deleted just when it is there and no table version holds it. -/
  deleteRow_accepted : ∀ t : Transaction, t.store = s → ∀ version,
    (∃ result, t.deleteRow version = .ok result) ↔
      (s.row? version).isSome ∧ ¬∃ table, s.Holds table version

namespace Intact

variable (h : s.Intact)

include h

theorem mem_revisionsOf_iff_exists {id : RevisionId} {version : VersionId} :
    id ∈ s.revisionsOf version ↔ ∃ table ∈ s.tablesOf id, table.version = version := by
  rw [h.mem_revisionsOf, Shows, ← Links.mem_targets, ← h.versions_tablesOf, List.mem_map]

theorem mem_tablesHolding_iff_exists {table version : VersionId} :
    table ∈ s.tablesHolding version ↔ ∃ row ∈ s.rowsOf table, row.version = version := by
  rw [h.mem_tablesHolding, Holds, ← Links.mem_targets, ← h.versions_rowsOf, List.mem_map]

/-- Something shows a table version just when the list of what does is not empty. -/
theorem length_revisionsOf_pos {version : VersionId} :
    0 < (s.revisionsOf version).length ↔ ∃ id, s.Shows id version := by
  rw [List.length_pos_iff_exists_mem]
  exact exists_congr fun id => h.mem_revisionsOf

/-- Something holds a row version just when the list of what does is not empty. -/
theorem length_tablesHolding_pos {version : VersionId} :
    0 < (s.tablesHolding version).length ↔ ∃ table, s.Holds table version := by
  rw [List.length_pos_iff_exists_mem]
  exact exists_congr fun table => h.mem_tablesHolding

theorem deleteTable_refused_iff {journal : List Undo} {version : VersionId} :
    (∃ links, (Transaction.mk s journal).deleteTable version =
        .error (.stillLinked .table version links)) ↔ ∃ id, s.Shows id version := by
  simp only [Transaction.deleteTable_eq_stillLinked]
  rw [← h.length_revisionsOf_pos]
  refine ⟨?_, fun hlinked => ⟨_, ?_, hlinked, rfl⟩⟩
  · rintro ⟨links, -, hpos, rfl⟩
    exact hpos
  · -- What is shown exists, so that it is missing is not what is wrong.
    obtain ⟨id, hshows⟩ := h.length_revisionsOf_pos.mp hlinked
    exact h.shown_exists hshows

theorem deleteRow_refused_iff {journal : List Undo} {version : VersionId} :
    (∃ links, (Transaction.mk s journal).deleteRow version =
        .error (.stillLinked .row version links)) ↔ ∃ table, s.Holds table version := by
  simp only [Transaction.deleteRow_eq_stillLinked]
  rw [← h.length_tablesHolding_pos]
  refine ⟨?_, fun hlinked => ⟨_, ?_, hlinked, rfl⟩⟩
  · rintro ⟨links, -, hpos, rfl⟩
    exact hpos
  · obtain ⟨table, hholds⟩ := h.length_tablesHolding_pos.mp hlinked
    exact h.held_exists hholds

theorem deleteTable_accepted_iff {journal : List Undo} {version : VersionId} :
    (∃ result, (Transaction.mk s journal).deleteTable version = .ok result) ↔
      (s.table? version).isSome ∧ ¬∃ id, s.Shows id version := by
  rw [not_exists, ← h.revisionsOf_eq_nil_iff, Option.isSome_iff_exists]
  refine ⟨?_, ?_⟩
  · rintro ⟨⟨record, t'⟩, hok⟩
    obtain ⟨hrecord, hunshown, -⟩ := Transaction.deleteTable_eq_ok.mp hok
    exact ⟨⟨record, hrecord⟩, hunshown⟩
  · rintro ⟨⟨record, hrecord⟩, hunshown⟩
    exact ⟨_, Transaction.deleteTable_eq_ok.mpr ⟨hrecord, hunshown, rfl⟩⟩

theorem deleteRow_accepted_iff {journal : List Undo} {version : VersionId} :
    (∃ result, (Transaction.mk s journal).deleteRow version = .ok result) ↔
      (s.row? version).isSome ∧ ¬∃ table, s.Holds table version := by
  rw [not_exists, ← h.tablesHolding_eq_nil_iff, Option.isSome_iff_exists]
  refine ⟨?_, ?_⟩
  · rintro ⟨⟨record, t'⟩, hok⟩
    obtain ⟨hrecord, hunheld, -⟩ := Transaction.deleteRow_eq_ok.mp hok
    exact ⟨⟨record, hrecord⟩, hunheld⟩
  · rintro ⟨⟨record, hrecord⟩, hunheld⟩
    exact ⟨_, Transaction.deleteRow_eq_ok.mpr ⟨hrecord, hunheld, rfl⟩⟩

/-- The links of an intact store can be relied on. -/
theorem wellLinked : s.WellLinked where
  intact := h
  tablesOf_versions := h.versions_tablesOf
  rowsOf_versions := h.versions_rowsOf
  mem_revisionsOf_iff _ _ := h.mem_revisionsOf_iff_exists
  mem_tablesHolding_iff _ _ := h.mem_tablesHolding_iff_exists
  deleteTable_refused := by
    rintro ⟨_, journal⟩ rfl version
    exact h.deleteTable_refused_iff
  deleteTable_accepted := by
    rintro ⟨_, journal⟩ rfl version
    exact h.deleteTable_accepted_iff
  deleteRow_refused := by
    rintro ⟨_, journal⟩ rfl version
    exact h.deleteRow_refused_iff
  deleteRow_accepted := by
    rintro ⟨_, journal⟩ rfl version
    exact h.deleteRow_accepted_iff

end Intact

/-! ## Building -/

/-- The stores that can be built from an empty one. -/
inductive Built : Store → Prop where
  /-- The empty store. -/
  | empty : Built ∅
  /-- The store within a transaction in which writes were tried, and after it if it is kept. -/
  | tried {s : Store} (h : Built s) (writes : List Write) :
    Built ((Transaction.mk s []).attemptAll writes).store
  /-- The store after a transaction that was rolled back. -/
  | undone {s : Store} (h : Built s) (writes : List Write) :
    Built ((Transaction.mk s []).attemptAll writes).rollback

theorem Built.intact (h : s.Built) : s.Intact := by
  induction h with
  | empty => exact intact_empty
  | @tried s _ writes ih => exact Intact.attemptAll (t := ⟨s, []⟩) ih writes
  | undone _ writes ih =>
    -- Rolling back leads to the store underneath, which was built before.
    rw [((Transaction.Reverts.begin ih.orderly).attemptAll writes).rollback]
    exact ih

/-- However a store was built, its links can be relied on. -/
theorem wellLinked_of_built (h : s.Built) : s.WellLinked :=
  h.intact.wellLinked

/-- A revision that shows a table version with a row in it. A second row is not linked: the last
write is refused, because there is no such version. -/
def oneRow : Store :=
  ((Transaction.mk ∅ []).attemptAll [.createBranch ⟨.main, ⟨0, 0⟩⟩,
    .createRevision (.start ⟨"r"⟩ .main none ⟨0, 0⟩),
    .createTable (.new ⟨"users"⟩ false ⟨"e"⟩ ⟨"t"⟩ ⟨0, 0⟩), .connectTable ⟨"r"⟩ ⟨"t"⟩,
    .createRow (.new ⟨"ada"⟩ .null ⟨"f"⟩ ⟨"a"⟩ ⟨0, 0⟩), .connectRow ⟨"t"⟩ ⟨"a"⟩,
    .createRow (.new ⟨"bob"⟩ .null ⟨"g"⟩ ⟨"b"⟩ ⟨0, 0⟩), .connectRow ⟨"t"⟩ ⟨"c"⟩]).store

/-- The row version in the table is refused to be deleted, and the other one is not. -/
theorem oneRow_wellLinked :
    oneRow.Built ∧ oneRow.WellLinked ∧
      (∃ links, (Transaction.mk oneRow []).deleteRow ⟨"a"⟩ =
        .error (.stillLinked .row ⟨"a"⟩ links)) ∧
      ∃ result, (Transaction.mk oneRow []).deleteRow ⟨"b"⟩ = .ok result := by
  have hbuilt : oneRow.Built := .tried .empty _
  have hlinks := wellLinked_of_built hbuilt
  refine ⟨hbuilt, hlinks, (hlinks.deleteRow_refused ⟨_, []⟩ rfl ⟨"a"⟩).mpr ⟨⟨"t"⟩, ?_⟩,
    (hlinks.deleteRow_accepted ⟨_, []⟩ rfl ⟨"b"⟩).mpr ⟨?_, ?_⟩⟩
  · change oneRow.tableRows.contains ⟨"t"⟩ ⟨"a"⟩ = true
    decide +kernel
  · decide +kernel
  · rw [not_exists, ← hbuilt.intact.tablesHolding_eq_nil_iff]
    decide +kernel

end Store

end VersionedTables
