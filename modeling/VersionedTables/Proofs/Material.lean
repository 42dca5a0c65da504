import VersionedTables.Proofs.Writes

/-!
# What records are made of

Records hold things that come from elsewhere: instants from the clock, documents and times from
requests, and the name of the branch of a revision. A `Material` says which of these are considered,
and a record is made of it when it holds nothing else. A write that brings only such records along
leaves a store of such records (`Store.MadeOf.perform`).
-/

namespace VersionedTables

/-- Which instants, documents and branch names are considered. -/
structure Material where
  /-- The instants. -/
  time : Instant → Prop
  /-- The documents that rows hold. -/
  document : Document → Prop
  /-- The branches that revisions belong to. -/
  branch : BranchName → Prop

/-- The material with everything in it. -/
def Material.everything : Material :=
  ⟨fun _ => True, fun _ => True, fun _ => True⟩

/-! ## Records -/

/-- A branch is made of an instant. -/
def Branch.MadeOf (m : Material) (b : Branch) : Prop :=
  m.time b.createdAt

/-- A revision is made of its branch and an instant. -/
structure Revision.MadeOf (m : Material) (r : Revision) : Prop where
  branch : m.branch r.branch
  createdAt : m.time r.createdAt

/-- A table version is made of instants. -/
structure TableVersion.MadeOf (m : Material) (t : TableVersion) : Prop where
  createdAt : m.time t.createdAt
  updatedAt : m.time t.updatedAt

/-- A row version is made of documents and instants. -/
structure RowVersion.MadeOf (m : Material) (r : RowVersion) : Prop where
  data : m.document r.data
  note : ∀ document, r.note = some document → m.document document
  publishedAt : ∀ time, r.publishedAt = some time → m.time time
  createdAt : m.time r.createdAt
  updatedAt : m.time r.updatedAt

/-- A write is made of what the record it puts is made of. -/
def Write.MadeOf (m : Material) : Write → Prop
  | .createBranch record => record.MadeOf m
  | .createRevision record | .updateRevision record => record.MadeOf m
  | .createTable record | .updateTable record => record.MadeOf m
  | .createRow record | .updateRow record => record.MadeOf m
  | .deleteTable _ | .deleteRow _ => True
  | .connectTable .. | .disconnectTable .. | .connectRow .. | .disconnectRow .. => True

/-! ### The material with everything in it -/

theorem Revision.MadeOf.everything (r : Revision) : r.MadeOf .everything :=
  ⟨trivial, trivial⟩

theorem TableVersion.MadeOf.everything (t : TableVersion) : t.MadeOf .everything :=
  ⟨trivial, trivial⟩

theorem RowVersion.MadeOf.everything (r : RowVersion) : r.MadeOf .everything :=
  ⟨trivial, fun _ _ => trivial, fun _ _ => trivial, trivial, trivial⟩

theorem Write.MadeOf.everything (write : Write) : write.MadeOf .everything := by
  cases write with
  | createRevision record | updateRevision record => exact Revision.MadeOf.everything record
  | createTable record | updateTable record => exact TableVersion.MadeOf.everything record
  | createRow record | updateRow record => exact RowVersion.MadeOf.everything record
  | _ => exact trivial

/-! ## Stores -/

/-- A store is made of what its records are made of. -/
structure Store.MadeOf (m : Material) (s : Store) : Prop where
  branch : ∀ {name record}, s.branch? name = some record → record.MadeOf m
  revision : ∀ {id record}, s.revision? id = some record → record.MadeOf m
  table : ∀ {version record}, s.table? version = some record → record.MadeOf m
  row : ∀ {version record}, s.row? version = some record → record.MadeOf m

variable {m : Material}

/-- The record that is found after another was put is the one that was put, or was there before. -/
theorem put_or {ν : Type} {c : Prop} [Decidable c] {new record : ν} {old : Option ν}
    (h : (if c then some new else old) = some record) : record = new ∨ old = some record := by
  split at h
  · exact .inl (Option.some.inj h).symm
  · exact .inr h

/-- A record that is found after another was dropped was there before. -/
theorem of_drop {ν : Type} {c : Prop} [Decidable c] {record : ν} {old : Option ν}
    (h : (if c then none else old) = some record) : old = some record := by
  split at h
  · cases h
  · exact h

namespace Store.MadeOf

variable {s : Store}

theorem empty : (∅ : Store).MadeOf m where
  branch h := by simp [branch?_empty] at h
  revision h := by simp [revision?_empty] at h
  table h := by simp [table?_empty] at h
  row h := by simp [row?_empty] at h

theorem everything (s : Store) : s.MadeOf .everything where
  branch _ := trivial
  revision _ := .everything _
  table _ := .everything _
  row _ := .everything _

theorem putBranch (h : s.MadeOf m) {record : Branch} (hrecord : record.MadeOf m) :
    (s.putBranch record).MadeOf m :=
  { h with
    branch := by
      intro name found hfound
      rw [branch?_putBranch] at hfound
      rcases put_or hfound with rfl | hold
      · exact hrecord
      · exact h.branch hold }

theorem putRevision (h : s.MadeOf m) {record : Revision} (hrecord : record.MadeOf m) :
    (s.putRevision record).MadeOf m :=
  { h with
    revision := by
      intro id found hfound
      rw [revision?_putRevision] at hfound
      rcases put_or hfound with rfl | hold
      · exact hrecord
      · exact h.revision hold }

theorem putTable (h : s.MadeOf m) {record : TableVersion} (hrecord : record.MadeOf m) :
    (s.putTable record).MadeOf m :=
  { h with
    table := by
      intro version found hfound
      rw [table?_putTable] at hfound
      rcases put_or hfound with rfl | hold
      · exact hrecord
      · exact h.table hold }

theorem dropTable (h : s.MadeOf m) (version : VersionId) : (s.dropTable version).MadeOf m :=
  { h with
    table := by
      intro version' found hfound
      rw [table?_dropTable] at hfound
      exact h.table (of_drop hfound) }

theorem putRow (h : s.MadeOf m) {record : RowVersion} (hrecord : record.MadeOf m) :
    (s.putRow record).MadeOf m :=
  { h with
    row := by
      intro version found hfound
      rw [row?_putRow] at hfound
      rcases put_or hfound with rfl | hold
      · exact hrecord
      · exact h.row hold }

theorem dropRow (h : s.MadeOf m) (version : VersionId) : (s.dropRow version).MadeOf m :=
  { h with
    row := by
      intro version' found hfound
      rw [row?_dropRow] at hfound
      exact h.row (of_drop hfound) }

/-! ### Lists -/

theorem of_tablesOf (h : s.MadeOf m) {id : RevisionId} {table : TableVersion}
    (hmem : table ∈ s.tablesOf id) : table.MadeOf m := by
  obtain ⟨version, -, hversion⟩ := List.mem_filterMap.mp hmem
  exact h.table hversion

theorem of_rowsOf (h : s.MadeOf m) {table : VersionId} {row : RowVersion}
    (hmem : row ∈ s.rowsOf table) : row.MadeOf m := by
  obtain ⟨version, -, hversion⟩ := List.mem_filterMap.mp hmem
  exact h.row hversion

/-! ### What is looked for -/

theorem of_findTable (h : s.MadeOf m) {id : RevisionId} {name : String} {table : TableVersion}
    (hfound : s.findTable id name = some table) : table.MadeOf m :=
  h.of_tablesOf (List.mem_of_find?_eq_some hfound)

theorem of_findRow (h : s.MadeOf m) {table : VersionId} {name : String} {row : RowVersion}
    (hfound : s.findRow table name = some row) : row.MadeOf m :=
  h.of_rowsOf (List.mem_of_find?_eq_some hfound)

/-- A revision that is found on a branch belongs to it. -/
theorem of_findRevision (h : s.MadeOf m) {name : BranchName} {role : Role} {revision : Revision}
    (hfound : s.findRevision name role = some revision) :
    revision.MadeOf m ∧ revision.branch = name := by
  obtain ⟨⟨id, hid⟩, hbranch⟩ :=
    mem_branchRevisions.mp (List.mem_reverse.mp (List.mem_of_find?_eq_some hfound))
  exact ⟨h.revision hid, hbranch⟩

/-! ### Writes -/

open Transaction

variable {t t' : Transaction} {write : Write}

theorem perform (h : t.store.MadeOf m) (hwrite : write.MadeOf m)
    (hok : t.perform write = .ok t') : t'.store.MadeOf m := by
  cases write with
  | createBranch record =>
    obtain ⟨-, rfl⟩ := createBranch_eq_ok.mp hok
    exact h.putBranch hwrite
  | createRevision record =>
    obtain ⟨-, -, rfl⟩ := createRevision_eq_ok.mp hok
    exact h.putRevision hwrite
  | updateRevision record =>
    obtain ⟨-, -, rfl⟩ := updateRevision_eq_ok.mp hok
    exact h.putRevision hwrite
  | createTable record =>
    obtain ⟨-, rfl⟩ := createTable_eq_ok.mp hok
    exact h.putTable hwrite
  | updateTable record =>
    obtain ⟨-, -, rfl⟩ := updateTable_eq_ok.mp hok
    exact h.putTable hwrite
  | deleteTable version =>
    obtain ⟨record, hdelete⟩ := map_snd_eq_ok.mp hok
    obtain ⟨-, -, rfl⟩ := deleteTable_eq_ok.mp hdelete
    -- Unlinking the rows of the table touches no record.
    obtain ⟨hbranch, hrevision, htable, hrow, -⟩ :=
      others_foldl_linkRow version (t.store.tableRows.targets version) t
    have hunlinked : (t.unlinkRows version).store.MadeOf m :=
      ⟨by rw [unlinkRows, hbranch]; exact h.branch, by rw [unlinkRows, hrevision]; exact h.revision,
        by rw [unlinkRows, htable]; exact h.table, by rw [unlinkRows, hrow]; exact h.row⟩
    exact hunlinked.dropTable version
  | createRow record =>
    obtain ⟨-, rfl⟩ := createRow_eq_ok.mp hok
    exact h.putRow hwrite
  | updateRow record =>
    obtain ⟨-, -, rfl⟩ := updateRow_eq_ok.mp hok
    exact h.putRow hwrite
  | deleteRow version =>
    obtain ⟨record, hdelete⟩ := map_snd_eq_ok.mp hok
    obtain ⟨-, -, rfl⟩ := deleteRow_eq_ok.mp hdelete
    exact h.dropRow version
  | connectTable revision table =>
    obtain ⟨-, -, rfl⟩ := connectTable_eq_ok.mp hok
    rw [store_linkTable]
    exact { h with }
  | disconnectTable revision table =>
    cases hok
    rw [disconnectTable, store_linkTable]
    exact { h with }
  | connectRow table row =>
    obtain ⟨-, -, rfl⟩ := connectRow_eq_ok.mp hok
    rw [store_linkRow]
    exact { h with }
  | disconnectRow table row =>
    cases hok
    rw [disconnectRow, store_linkRow]
    exact { h with }

theorem attemptAll (h : t.store.MadeOf m) {writes : List Write}
    (hwrites : ∀ write ∈ writes, write.MadeOf m) : (t.attemptAll writes).store.MadeOf m :=
  attemptAll_keeps (·.store.MadeOf m) (·.MadeOf m)
    (fun hwrite h hok => h.perform hwrite hok) hwrites h

end Store.MadeOf

end VersionedTables
