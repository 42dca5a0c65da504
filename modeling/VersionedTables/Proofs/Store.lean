import VersionedTables.Proofs.Links
import VersionedTables.Store

/-!
# The laws of the store

A store is seen through six questions: which branch, revision, table version and row version an
identifier stands for (`branch?`, `revision?`, `table?`, `row?`), and which links there are
(`Store.Shows`, `Store.Holds`). Every elementary change gets its equation through these questions
as a simp lemma, so that no later proof has to look at a map.

A store is *orderly* (`Store.Orderly`) when its links are tidy and every record is kept under its
own identifier, and *intact* (`Store.Intact`) when both ends of every link exist as well. On an
intact store the lists that are asked for say exactly what the links say (`Store.Intact.mem_tablesOf`
and its companions). For both ends of every link to stay there, less will do (`Store.Sturdy`).
-/

namespace VersionedTables

open Std

namespace Store

variable (s : Store)

/-! ## Observations -/

/-- A revision shows a table version. -/
def Shows (revision : RevisionId) (table : VersionId) : Prop :=
  s.revisionTables.contains revision table = true

/-- A table version holds a row version. -/
def Holds (table row : VersionId) : Prop :=
  s.tableRows.contains table row = true

theorem branch?_empty (name : BranchName) : (∅ : Store).branch? name = none :=
  ExtTreeMap.getElem?_empty

theorem revision?_empty (id : RevisionId) : (∅ : Store).revision? id = none :=
  ExtTreeMap.getElem?_empty

theorem table?_empty (version : VersionId) : (∅ : Store).table? version = none :=
  ExtTreeMap.getElem?_empty

theorem row?_empty (version : VersionId) : (∅ : Store).row? version = none :=
  ExtTreeMap.getElem?_empty

theorem not_shows_empty (revision : RevisionId) (table : VersionId) :
    ¬(∅ : Store).Shows revision table := by
  rw [Shows]
  change ¬(∅ : Links RevisionId VersionId).contains _ _ = true
  simp

theorem not_holds_empty (table row : VersionId) : ¬(∅ : Store).Holds table row := by
  rw [Holds]
  change ¬(∅ : Links VersionId VersionId).contains _ _ = true
  simp

/-! ### Records

Putting or dropping a record changes one answer of one question. -/

theorem getElem?_insert_eq {κ ν : Type} [Ord κ] [TransOrd κ] [LawfulEqOrd κ] [DecidableEq κ]
    (map : ExtTreeMap κ ν compare) (k a : κ) (v : ν) :
    (map.insert k v)[a]? = if a = k then some v else map[a]? := by
  rw [ExtTreeMap.getElem?_insert]
  simp only [LawfulEqCmp.compare_eq_iff_eq]
  simp only [eq_comm]

/-- A map that differs from another in what is kept for one key. -/
theorem eq_insert_of_getElem? {κ ν : Type} [Ord κ] [TransOrd κ] [LawfulEqOrd κ] [DecidableEq κ]
    {map map' : ExtTreeMap κ ν compare} {k : κ} {v : ν}
    (h : ∀ a, map'[a]? = if a = k then some v else map[a]?) : map' = map.insert k v := by
  apply ExtTreeMap.ext_getElem?
  intro a
  rw [h, getElem?_insert_eq]

theorem getElem?_erase_eq {κ ν : Type} [Ord κ] [TransOrd κ] [LawfulEqOrd κ] [DecidableEq κ]
    (map : ExtTreeMap κ ν compare) (k a : κ) :
    (map.erase k)[a]? = if a = k then none else map[a]? := by
  rw [ExtTreeMap.getElem?_erase]
  simp only [LawfulEqCmp.compare_eq_iff_eq]
  simp only [eq_comm]

@[simp] theorem branch?_putBranch (record : Branch) (name : BranchName) :
    (s.putBranch record).branch? name =
      if name = record.name then some record else s.branch? name :=
  getElem?_insert_eq ..

@[simp] theorem revision?_putRevision (record : Revision) (id : RevisionId) :
    (s.putRevision record).revision? id = if id = record.id then some record else s.revision? id :=
  getElem?_insert_eq ..

@[simp] theorem revision?_dropRevision (dropped id : RevisionId) :
    (s.dropRevision dropped).revision? id = if id = dropped then none else s.revision? id :=
  getElem?_erase_eq ..

@[simp] theorem table?_putTable (record : TableVersion) (version : VersionId) :
    (s.putTable record).table? version =
      if version = record.version then some record else s.table? version :=
  getElem?_insert_eq ..

@[simp] theorem table?_dropTable (dropped version : VersionId) :
    (s.dropTable dropped).table? version = if version = dropped then none else s.table? version :=
  getElem?_erase_eq ..

@[simp] theorem row?_putRow (record : RowVersion) (version : VersionId) :
    (s.putRow record).row? version =
      if version = record.version then some record else s.row? version :=
  getElem?_insert_eq ..

@[simp] theorem row?_dropRow (dropped version : VersionId) :
    (s.dropRow dropped).row? version = if version = dropped then none else s.row? version :=
  getElem?_erase_eq ..

@[simp] theorem putBranch_others (record : Branch) :
    (∀ id, (s.putBranch record).revision? id = s.revision? id) ∧
      (∀ version, (s.putBranch record).table? version = s.table? version) ∧
      (∀ version, (s.putBranch record).row? version = s.row? version) ∧
      (∀ id version, (s.putBranch record).Shows id version ↔ s.Shows id version) ∧
      (∀ holder version, (s.putBranch record).Holds holder version ↔ s.Holds holder version) :=
  ⟨fun _ => rfl, fun _ => rfl, fun _ => rfl, fun _ _ => Iff.rfl, fun _ _ => Iff.rfl⟩

@[simp] theorem putRevision_others (record : Revision) :
    (∀ name, (s.putRevision record).branch? name = s.branch? name) ∧
      (∀ version, (s.putRevision record).table? version = s.table? version) ∧
      (∀ version, (s.putRevision record).row? version = s.row? version) ∧
      (∀ id version, (s.putRevision record).Shows id version ↔ s.Shows id version) ∧
      (∀ holder version, (s.putRevision record).Holds holder version ↔ s.Holds holder version) :=
  ⟨fun _ => rfl, fun _ => rfl, fun _ => rfl, fun _ _ => Iff.rfl, fun _ _ => Iff.rfl⟩

@[simp] theorem putTable_others (record : TableVersion) :
    (∀ name, (s.putTable record).branch? name = s.branch? name) ∧
      (∀ id, (s.putTable record).revision? id = s.revision? id) ∧
      (∀ version, (s.putTable record).row? version = s.row? version) ∧
      (∀ id version, (s.putTable record).Shows id version ↔ s.Shows id version) ∧
      (∀ holder version, (s.putTable record).Holds holder version ↔ s.Holds holder version) :=
  ⟨fun _ => rfl, fun _ => rfl, fun _ => rfl, fun _ _ => Iff.rfl, fun _ _ => Iff.rfl⟩

@[simp] theorem dropTable_others (dropped : VersionId) :
    (∀ name, (s.dropTable dropped).branch? name = s.branch? name) ∧
      (∀ id, (s.dropTable dropped).revision? id = s.revision? id) ∧
      (∀ version, (s.dropTable dropped).row? version = s.row? version) ∧
      (∀ id version, (s.dropTable dropped).Shows id version ↔ s.Shows id version) ∧
      (∀ holder version, (s.dropTable dropped).Holds holder version ↔ s.Holds holder version) :=
  ⟨fun _ => rfl, fun _ => rfl, fun _ => rfl, fun _ _ => Iff.rfl, fun _ _ => Iff.rfl⟩

@[simp] theorem putRow_others (record : RowVersion) :
    (∀ name, (s.putRow record).branch? name = s.branch? name) ∧
      (∀ id, (s.putRow record).revision? id = s.revision? id) ∧
      (∀ version, (s.putRow record).table? version = s.table? version) ∧
      (∀ id version, (s.putRow record).Shows id version ↔ s.Shows id version) ∧
      (∀ holder version, (s.putRow record).Holds holder version ↔ s.Holds holder version) :=
  ⟨fun _ => rfl, fun _ => rfl, fun _ => rfl, fun _ _ => Iff.rfl, fun _ _ => Iff.rfl⟩

@[simp] theorem dropRow_others (dropped : VersionId) :
    (∀ name, (s.dropRow dropped).branch? name = s.branch? name) ∧
      (∀ id, (s.dropRow dropped).revision? id = s.revision? id) ∧
      (∀ version, (s.dropRow dropped).table? version = s.table? version) ∧
      (∀ id version, (s.dropRow dropped).Shows id version ↔ s.Shows id version) ∧
      (∀ holder version, (s.dropRow dropped).Holds holder version ↔ s.Holds holder version) :=
  ⟨fun _ => rfl, fun _ => rfl, fun _ => rfl, fun _ _ => Iff.rfl, fun _ _ => Iff.rfl⟩

/-! ### Links -/

@[simp] theorem shows_linkTable (revision id : RevisionId) (table version : VersionId)
    (linked : Bool) :
    (s.linkTable revision table linked).Shows id version ↔
      if id = revision ∧ version = table then linked = true else s.Shows id version :=
  Links.contains_set

@[simp] theorem holds_linkRow (table row holder version : VersionId) (linked : Bool) :
    (s.linkRow table row linked).Holds holder version ↔
      if holder = table ∧ version = row then linked = true else s.Holds holder version :=
  Links.contains_set

@[simp] theorem linkTable_others (revision : RevisionId) (table : VersionId) (linked : Bool) :
    (∀ name, (s.linkTable revision table linked).branch? name = s.branch? name) ∧
      (∀ id, (s.linkTable revision table linked).revision? id = s.revision? id) ∧
      (∀ version, (s.linkTable revision table linked).table? version = s.table? version) ∧
      (∀ version, (s.linkTable revision table linked).row? version = s.row? version) ∧
      (∀ holder version, (s.linkTable revision table linked).Holds holder version ↔ s.Holds holder version) :=
  ⟨fun _ => rfl, fun _ => rfl, fun _ => rfl, fun _ => rfl, fun _ _ => Iff.rfl⟩

@[simp] theorem linkRow_others (table row : VersionId) (linked : Bool) :
    (∀ name, (s.linkRow table row linked).branch? name = s.branch? name) ∧
      (∀ id, (s.linkRow table row linked).revision? id = s.revision? id) ∧
      (∀ version, (s.linkRow table row linked).table? version = s.table? version) ∧
      (∀ version, (s.linkRow table row linked).row? version = s.row? version) ∧
      (∀ id version, (s.linkRow table row linked).Shows id version ↔ s.Shows id version) :=
  ⟨fun _ => rfl, fun _ => rfl, fun _ => rfl, fun _ => rfl, fun _ _ => Iff.rfl⟩

/-! ## Orderly stores -/

/-- The links are tidy and records are kept under their own identifiers. A link may still lead to
what does not exist. -/
structure Orderly : Prop where
  /-- The links of revisions are tidy. -/
  revisionTables : s.revisionTables.Tidy
  /-- The links of table versions are tidy. -/
  tableRows : s.tableRows.Tidy
  /-- A branch is kept under its name. -/
  name_eq : ∀ {name : BranchName} {record : Branch}, s.branch? name = some record → record.name = name
  /-- A revision is kept under its identifier. -/
  id_eq : ∀ {id record}, s.revision? id = some record → record.id = id
  /-- A table version is kept under its identifier. -/
  table_eq : ∀ {version record}, s.table? version = some record → record.version = version
  /-- A row version is kept under its identifier. -/
  row_eq : ∀ {version record}, s.row? version = some record → record.version = version

namespace Orderly

variable {s}

theorem putBranch (h : s.Orderly) (record : Branch) : (s.putBranch record).Orderly :=
  { h with name_eq := by grind [h.name_eq, branch?_putBranch] }

theorem putRevision (h : s.Orderly) (record : Revision) : (s.putRevision record).Orderly :=
  { h with id_eq := by grind [h.id_eq, revision?_putRevision] }

theorem putTable (h : s.Orderly) (record : TableVersion) : (s.putTable record).Orderly :=
  { h with table_eq := by grind [h.table_eq, table?_putTable] }

theorem dropTable (h : s.Orderly) (version : VersionId) : (s.dropTable version).Orderly :=
  { h with table_eq := by grind [h.table_eq, table?_dropTable] }

theorem putRow (h : s.Orderly) (record : RowVersion) : (s.putRow record).Orderly :=
  { h with row_eq := by grind [h.row_eq, row?_putRow] }

theorem dropRow (h : s.Orderly) (version : VersionId) : (s.dropRow version).Orderly :=
  { h with row_eq := by grind [h.row_eq, row?_dropRow] }

theorem linkTable (h : s.Orderly) (revision : RevisionId) (table : VersionId) (linked : Bool) :
    (s.linkTable revision table linked).Orderly :=
  { h with revisionTables := h.revisionTables.set revision table linked }

theorem linkRow (h : s.Orderly) (table row : VersionId) (linked : Bool) :
    (s.linkRow table row linked).Orderly :=
  { h with tableRows := h.tableRows.set table row linked }

end Orderly

/-! ## Intact stores -/

/-- The links are tidy, records are kept under their own identifiers, and nothing refers to what
does not exist. -/
structure Intact : Prop where
  /-- The links of revisions are tidy. -/
  revisionTables : s.revisionTables.Tidy
  /-- The links of table versions are tidy. -/
  tableRows : s.tableRows.Tidy
  /-- A branch is kept under its name. -/
  name_eq : ∀ {name : BranchName} {record : Branch}, s.branch? name = some record → record.name = name
  /-- A revision is kept under its identifier. -/
  id_eq : ∀ {id record}, s.revision? id = some record → record.id = id
  /-- A table version is kept under its identifier. -/
  table_eq : ∀ {version record}, s.table? version = some record → record.version = version
  /-- A row version is kept under its identifier. -/
  row_eq : ∀ {version record}, s.row? version = some record → record.version = version
  /-- What shows a table version exists. -/
  shower_exists : ∀ {id version}, s.Shows id version → (s.revision? id).isSome
  /-- What is shown exists. -/
  shown_exists : ∀ {id version}, s.Shows id version → (s.table? version).isSome
  /-- What holds a row version exists. -/
  holder_exists : ∀ {table row}, s.Holds table row → (s.table? table).isSome
  /-- What is held exists. -/
  held_exists : ∀ {table row}, s.Holds table row → (s.row? row).isSome

/-- An intact store is orderly. -/
theorem Intact.orderly {s : Store} (h : s.Intact) : s.Orderly :=
  { h with }

/-- What writes and their undoing need of a store, so that both ends of every link exist: links of
revisions may have empty entries, but only for revisions that exist, and branches and revisions may
be kept under identifiers of others. -/
structure Sturdy : Prop where
  /-- The links of revisions say the same from both ends. -/
  revisionTables : s.revisionTables.Mirrored
  /-- The links of table versions are tidy. -/
  tableRows : s.tableRows.Tidy
  /-- A table version is kept under its identifier. -/
  table_eq : ∀ {version record}, s.table? version = some record → record.version = version
  /-- A row version is kept under its identifier. -/
  row_eq : ∀ {version record}, s.row? version = some record → record.version = version
  /-- What has an entry among the links of revisions exists. -/
  shower_exists : ∀ {id}, id ∈ s.revisionTables.forward → (s.revision? id).isSome
  /-- What is shown exists. -/
  shown_exists : ∀ {id version}, s.Shows id version → (s.table? version).isSome
  /-- What holds a row version exists. -/
  holder_exists : ∀ {table row}, s.Holds table row → (s.table? table).isSome
  /-- What is held exists. -/
  held_exists : ∀ {table row}, s.Holds table row → (s.row? row).isSome

/-- An intact store is sturdy. -/
theorem Intact.sturdy {s : Store} (h : s.Intact) : s.Sturdy where
  revisionTables := h.revisionTables.mirrored
  tableRows := h.tableRows
  table_eq := h.table_eq
  row_eq := h.row_eq
  shower_exists hmem := by
    obtain ⟨version, hshows⟩ := h.revisionTables.forward.mem_iff.mp hmem
    exact h.shower_exists hshows
  shown_exists := h.shown_exists
  holder_exists := h.holder_exists
  held_exists := h.held_exists

/-- A sturdy store is intact when it is orderly. -/
theorem Sturdy.intact {s : Store} (h : s.Sturdy) (horderly : s.Orderly) : s.Intact :=
  { horderly with
    shower_exists := fun hshows => h.shower_exists (Side.mem_of_holds hshows)
    shown_exists := h.shown_exists
    holder_exists := h.holder_exists
    held_exists := h.held_exists }

theorem intact_empty : (∅ : Store).Intact where
  revisionTables := Links.tidy_empty
  tableRows := Links.tidy_empty
  name_eq h := by simp [branch?_empty] at h
  id_eq h := by simp [revision?_empty] at h
  table_eq h := by simp [table?_empty] at h
  row_eq h := by simp [row?_empty] at h
  shower_exists h := absurd h (not_shows_empty _ _)
  shown_exists h := absurd h (not_shows_empty _ _)
  holder_exists h := absurd h (not_holds_empty _ _)
  held_exists h := absurd h (not_holds_empty _ _)

variable {s}

/-! ### What the lists say -/

/-- What an orderly store lists of a revision is shown by it and kept under its own identifier. -/
theorem Orderly.of_mem_tablesOf (h : s.Orderly) {id : RevisionId} {table : TableVersion}
    (hmem : table ∈ s.tablesOf id) :
    s.Shows id table.version ∧ s.table? table.version = some table := by
  obtain ⟨v, hshown, htable⟩ := List.mem_filterMap.mp hmem
  obtain rfl := h.table_eq htable
  exact ⟨Links.mem_targets.mp hshown, htable⟩

/-- What an orderly store lists of a table version is held by it and kept under its own identifier. -/
theorem Orderly.of_mem_rowsOf (h : s.Orderly) {v : VersionId} {row : RowVersion}
    (hmem : row ∈ s.rowsOf v) : s.Holds v row.version ∧ s.row? row.version = some row := by
  obtain ⟨u, hheld, hrow⟩ := List.mem_filterMap.mp hmem
  obtain rfl := h.row_eq hrow
  exact ⟨Links.mem_targets.mp hheld, hrow⟩

theorem revisionsOf_eq_nil_iff (h : s.revisionTables.Mirrored) {table : VersionId} :
    s.revisionsOf table = [] ↔ ∀ id, ¬s.Shows id table := by
  rw [List.eq_nil_iff_forall_not_mem]
  exact forall_congr' fun id => not_congr h.mem_sources

theorem tablesHolding_eq_nil_iff (h : s.tableRows.Mirrored) {row : VersionId} :
    s.tablesHolding row = [] ↔ ∀ table, ¬s.Holds table row := by
  rw [List.eq_nil_iff_forall_not_mem]
  exact forall_congr' fun table => not_congr h.mem_sources

namespace Intact

variable (h : s.Intact)

include h

theorem mem_tablesOf {id : RevisionId} {table : TableVersion} :
    table ∈ s.tablesOf id ↔ s.Shows id table.version ∧ s.table? table.version = some table := by
  refine ⟨h.orderly.of_mem_tablesOf, ?_⟩
  rintro ⟨hshows, htable⟩
  exact List.mem_filterMap.mpr ⟨_, Links.mem_targets.mpr hshows, htable⟩

theorem mem_rowsOf {table : VersionId} {row : RowVersion} :
    row ∈ s.rowsOf table ↔ s.Holds table row.version ∧ s.row? row.version = some row := by
  refine ⟨h.orderly.of_mem_rowsOf, ?_⟩
  rintro ⟨hholds, hrow⟩
  exact List.mem_filterMap.mpr ⟨_, Links.mem_targets.mpr hholds, hrow⟩

theorem mem_revisionsOf {id : RevisionId} {table : VersionId} :
    id ∈ s.revisionsOf table ↔ s.Shows id table :=
  h.revisionTables.mem_sources

theorem mem_tablesHolding {table row : VersionId} :
    table ∈ s.tablesHolding row ↔ s.Holds table row :=
  h.tableRows.mem_sources

/-- Intact stores whose revisions show the same keep the same links for it. -/
theorem revisionTables_eq {s' : Store} (h' : s'.Intact)
    (hshows : ∀ id v, s'.Shows id v ↔ s.Shows id v) : s'.revisionTables = s.revisionTables :=
  h'.revisionTables.ext h.revisionTables fun id v => Bool.eq_iff_iff.mpr (hshows id v)

/-- The versions a revision shows, by their records. -/
theorem exists_table {id : RevisionId} {version : VersionId} (hshows : s.Shows id version) :
    ∃ table, s.table? version = some table ∧ table.version = version := by
  obtain ⟨table, htable⟩ := Option.isSome_iff_exists.mp (h.shown_exists hshows)
  exact ⟨table, htable, h.table_eq htable⟩

/-- The versions a table holds, by their records. -/
theorem exists_row {table version : VersionId} (hholds : s.Holds table version) :
    ∃ row, s.row? version = some row ∧ row.version = version := by
  obtain ⟨row, hrow⟩ := Option.isSome_iff_exists.mp (h.held_exists hholds)
  exact ⟨row, hrow, h.row_eq hrow⟩

/-- No link is lost between the versions that are shown and their records. -/
theorem versions_tablesOf (id : RevisionId) :
    (s.tablesOf id).map (·.version) = s.revisionTables.targets id := by
  rw [tablesOf, List.map_filterMap]
  conv_rhs => rw [← List.filterMap_some (l := s.revisionTables.targets id)]
  -- Every version that is shown has a record, so nothing is filtered out.
  refine List.filterMap_congr fun version hmem => ?_
  obtain ⟨table, htable, hversion⟩ := h.exists_table (Links.mem_targets.mp hmem)
  rw [htable, Option.map_some, hversion]

theorem versions_rowsOf (table : VersionId) :
    (s.rowsOf table).map (·.version) = s.tableRows.targets table := by
  rw [rowsOf, List.map_filterMap]
  conv_rhs => rw [← List.filterMap_some (l := s.tableRows.targets table)]
  refine List.filterMap_congr fun version hmem => ?_
  obtain ⟨row, hrow, hversion⟩ := h.exists_row (Links.mem_targets.mp hmem)
  rw [hrow, Option.map_some, hversion]

theorem revisionsOf_eq_nil_iff {table : VersionId} :
    s.revisionsOf table = [] ↔ ∀ id, ¬s.Shows id table :=
  Store.revisionsOf_eq_nil_iff h.revisionTables.mirrored

theorem tablesHolding_eq_nil_iff {row : VersionId} :
    s.tablesHolding row = [] ↔ ∀ table, ¬s.Holds table row :=
  Store.tablesHolding_eq_nil_iff h.tableRows.mirrored

end Intact

/-- The tables of a revision are listed the same wherever it shows the same versions and these have
the same records. -/
theorem tablesOf_congr {s s' : Store} {id : RevisionId}
    (hshows : ∀ version, s'.Shows id version ↔ s.Shows id version)
    (htable : ∀ version, s.Shows id version → s'.table? version = s.table? version) :
    s'.tablesOf id = s.tablesOf id := by
  rw [tablesOf, tablesOf, Links.targets_congr fun version => Bool.eq_iff_iff.mpr (hshows version)]
  exact List.filterMap_congr fun version hmem => htable version (Links.mem_targets.mp hmem)

/-- The rows of table versions are listed the same wherever these hold the same versions and these
have the same records. -/
theorem rowsOf_congr {s s' : Store} {table table' : VersionId}
    (hholds : ∀ version, s'.Holds table' version ↔ s.Holds table version)
    (hrow : ∀ version, s.Holds table version → s'.row? version = s.row? version) :
    s'.rowsOf table' = s.rowsOf table := by
  rw [rowsOf, rowsOf, Links.targets_congr fun version => Bool.eq_iff_iff.mpr (hholds version)]
  exact List.filterMap_congr fun version hmem => hrow version (Links.mem_targets.mp hmem)

/-- The values of a map, through its pairs. -/
theorem values_eq_map_toList {κ ν : Type} {cmp : κ → κ → Ordering} [TransCmp cmp]
    (map : ExtTreeMap κ ν cmp) : map.values = map.toList.map (·.2) := by
  obtain ⟨⟨tree⟩⟩ := map
  induction tree using Quotient.ind with
  | _ tree =>
    change tree.inner.values = (DTreeMap.Internal.Impl.Const.toList tree.inner).map (·.2)
    rw [DTreeMap.Internal.Impl.values_eq_map_snd,
      DTreeMap.Internal.Impl.Const.toList_eq_toListModel_map, List.map_map]
    rfl

/-- The keys of a map differ. -/
theorem nodup_keys {κ ν : Type} {cmp : κ → κ → Ordering} [TransCmp cmp]
    (map : ExtTreeMap κ ν cmp) : map.keys.Nodup := by
  refine map.distinct_keys.imp fun h => ?_
  rintro rfl
  exact h ReflCmp.compare_self

/-- The revisions of a branch are those whose records say so. -/
theorem mem_branchRevisions {s : Store} {name : BranchName} {revision : Revision} :
    revision ∈ s.branchRevisions name ↔
      (∃ id, s.revision? id = some revision) ∧ revision.branch = name := by
  rw [branchRevisions, mem_sortBy, List.mem_filter, values_eq_map_toList]
  simp [ExtTreeMap.mem_toList_iff_getElem?_eq_some, revision?]

/-! ### Changes that keep a store sturdy -/

/-- A record that exists still does after another one was put. -/
theorem isSome_ite {ν : Type} {c : Prop} [Decidable c] {record : ν} {old : Option ν}
    (h : old.isSome) : (if c then some record else old).isSome := by
  split
  · rfl
  · exact h

/-- A link that is there is the one that was set, or was there before. -/
theorem ite_or {c p q : Prop} [Decidable c] (h : if c then p else q) : c ∧ p ∨ q := by
  split at h
  · next hc => exact .inl ⟨hc, h⟩
  · exact .inr h

namespace Sturdy

theorem putBranch (h : s.Sturdy) (record : Branch) : (s.putBranch record).Sturdy :=
  { h with }

theorem putRevision (h : s.Sturdy) (record : Revision) : (s.putRevision record).Sturdy :=
  { h with
    shower_exists := fun hmem => by
      rw [revision?_putRevision]
      exact isSome_ite (h.shower_exists hmem) }

theorem putTable (h : s.Sturdy) (record : TableVersion) : (s.putTable record).Sturdy :=
  { h with
    table_eq := by grind [h.table_eq, table?_putTable]
    shown_exists := fun hshows => by
      rw [table?_putTable]
      exact isSome_ite (h.shown_exists hshows)
    holder_exists := fun hholds => by
      rw [table?_putTable]
      exact isSome_ite (h.holder_exists hholds) }

theorem dropTable (h : s.Sturdy) {version : VersionId} (hshown : ∀ id, ¬s.Shows id version)
    (hholds : ∀ row, ¬s.Holds version row) : (s.dropTable version).Sturdy :=
  { h with
    table_eq := by grind [h.table_eq, table?_dropTable]
    shown_exists := fun hshows => by
      rw [table?_dropTable, if_neg (by rintro rfl; exact hshown _ hshows)]
      exact h.shown_exists hshows
    holder_exists := fun hheld => by
      rw [table?_dropTable, if_neg (by rintro rfl; exact hholds _ hheld)]
      exact h.holder_exists hheld }

theorem putRow (h : s.Sturdy) (record : RowVersion) : (s.putRow record).Sturdy :=
  { h with
    row_eq := by grind [h.row_eq, row?_putRow]
    held_exists := fun hholds => by
      rw [row?_putRow]
      exact isSome_ite (h.held_exists hholds) }

theorem dropRow (h : s.Sturdy) {version : VersionId} (hheld : ∀ table, ¬s.Holds table version) :
    (s.dropRow version).Sturdy :=
  { h with
    row_eq := by grind [h.row_eq, row?_dropRow]
    held_exists := fun hholds => by
      rw [row?_dropRow, if_neg (by rintro rfl; exact hheld _ hholds)]
      exact h.held_exists hholds }

theorem linkTable (h : s.Sturdy) {revision : RevisionId} {table : VersionId} {linked : Bool}
    (hends : linked = true → (s.revision? revision).isSome ∧ (s.table? table).isSome) :
    (s.linkTable revision table linked).Sturdy :=
  { h with
    revisionTables := h.revisionTables.set revision table linked
    shower_exists := fun hmem => by
      rcases Links.mem_forward_set hmem with ⟨rfl, hlinked⟩ | hold
      · exact (hends hlinked).1
      · exact h.shower_exists hold
    shown_exists := fun hshows => by
      rcases (shows_linkTable ..).mp hshows |> ite_or with ⟨⟨-, rfl⟩, hlinked⟩ | hold
      · exact (hends hlinked).2
      · exact h.shown_exists hold }

theorem linkRow (h : s.Sturdy) {table row : VersionId} {linked : Bool}
    (hends : linked = true → (s.table? table).isSome ∧ (s.row? row).isSome) :
    (s.linkRow table row linked).Sturdy :=
  { h with
    tableRows := h.tableRows.set table row linked
    holder_exists := fun hholds => by
      rcases (holds_linkRow ..).mp hholds |> ite_or with ⟨⟨rfl, -⟩, hlinked⟩ | hold
      · exact (hends hlinked).1
      · exact h.holder_exists hold
    held_exists := fun hholds => by
      rcases (holds_linkRow ..).mp hholds |> ite_or with ⟨⟨-, rfl⟩, hlinked⟩ | hold
      · exact (hends hlinked).2
      · exact h.held_exists hold }

end Sturdy

end Store

end VersionedTables
