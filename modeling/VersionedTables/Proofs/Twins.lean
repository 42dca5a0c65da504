import VersionedTables.Edit
import VersionedTables.History
import VersionedTables.Proofs.Graph

/-!
# Twins

Two stores that differ in nothing but versions out of sight are *twins* (`Store.Twins`). What they may
differ in is fixed once, as their `Debris`, and stays the same while both stores change. Whatever is
asked about things in sight has the same answer in twins (`Store.Twins.findTable_eq` and its
companions), and a write that is made in both leaves twins behind (`Transaction.Twins.updateRow` and its
companions).

One question looks at everything there is: whether *any* table version holds a row version. Debris may
hold rows that are in sight. But such a row has two holders, so it is published, and then a published
table holds it as well (`Store.Twins.kept`). No draft touches that one, so the answer is the same.
-/

namespace VersionedTables

/-- What twins may differ in. -/
structure Debris where
  /-- Table versions that nobody sees. -/
  tables : VersionId → Prop
  /-- Row versions that nobody sees. -/
  rows : VersionId → Prop
  /-- Published table versions in sight, which go on holding what they hold. -/
  anchors : VersionId → Prop
  /-- These are in sight. -/
  anchors_seen : ∀ {v}, anchors v → ¬tables v

/-- A table version that may be written to: it is in sight, and nothing relies on what it holds. -/
structure Debris.Open (d : Debris) (v : VersionId) : Prop where
  /-- It is in sight. -/
  seen : ¬d.tables v
  /-- Nothing relies on it. -/
  free : ¬d.anchors v

/-- All identifiers of the debris are of a kind. -/
structure Debris.Uses (d : Debris) (used : String → Prop) : Prop where
  tables : ∀ {v}, d.tables v → used v.text
  rows : ∀ {u}, d.rows u → used u.text
  anchors : ∀ {v}, d.anchors v → used v.text

namespace Store

/-- Two stores that differ in debris only. -/
structure Twins (d : Debris) (s s' : Store) : Prop where
  /-- Each of them is orderly. -/
  orderly : s.Orderly
  /-- Each of them is orderly. -/
  orderly' : s'.Orderly
  branches_eq : s'.branches = s.branches
  revisions_eq : s'.revisions = s.revisions
  revisionTables_eq : s'.revisionTables = s.revisionTables
  /-- Tables in sight have the same record. -/
  table?_eq : ∀ {v}, ¬d.tables v → s'.table? v = s.table? v
  /-- Rows in sight have the same record. -/
  row?_eq : ∀ {u}, ¬d.rows u → s'.row? u = s.row? u
  /-- Tables in sight hold the same rows. -/
  holds_iff : ∀ {v u}, ¬d.tables v → (s'.Holds v u ↔ s.Holds v u)
  /-- Revisions show what is in sight. -/
  shown : ∀ {id v}, s.Shows id v → ¬d.tables v
  /-- What is in sight holds what is in sight. -/
  held : ∀ {v u}, ¬d.tables v → s.Holds v u → ¬d.rows u
  /-- Anchors are published. -/
  locked : ∀ {v}, d.anchors v → s.graph.tables.Published v
  /-- A row in sight that debris holds is held by an anchor. -/
  kept : ∀ {v u}, d.tables v → ¬d.rows u → s.Holds v u ∨ s'.Holds v u →
    ∃ a, d.anchors a ∧ s.Holds a u

variable {d : Debris} {s s' : Store}

/-! ## Questions -/

namespace Twins

variable (h : s.Twins d s') {id : RevisionId} {v u : VersionId} {name : String}

include h

theorem branch?_eq (name : BranchName) : s'.branch? name = s.branch? name := by
  rw [branch?, h.branches_eq, branch?]

theorem revision?_eq (id : RevisionId) : s'.revision? id = s.revision? id := by
  rw [revision?, h.revisions_eq, revision?]

theorem contains_tables_eq (hv : ¬d.tables v) : s'.tables.contains v = s.tables.contains v := by
  rw [Transaction.contains_eq_isSome, Transaction.contains_eq_isSome]
  exact congrArg Option.isSome (h.table?_eq hv)

theorem contains_rows_eq (hu : ¬d.rows u) : s'.rows.contains u = s.rows.contains u := by
  rw [Transaction.contains_eq_isSome, Transaction.contains_eq_isSome]
  exact congrArg Option.isSome (h.row?_eq hu)

theorem branchRevisions_eq (name : BranchName) :
    s'.branchRevisions name = s.branchRevisions name := by
  rw [branchRevisions, h.revisions_eq, branchRevisions]

theorem findRevision_eq (name : BranchName) (role : Role) :
    s'.findRevision name role = s.findRevision name role := by
  rw [findRevision, h.branchRevisions_eq, findRevision]

theorem revisionsOf_eq (v : VersionId) : s'.revisionsOf v = s.revisionsOf v := by
  rw [revisionsOf, h.revisionTables_eq, revisionsOf]

/-! ### Tables and rows -/

theorem tablesOf_eq (id : RevisionId) : s'.tablesOf id = s.tablesOf id :=
  tablesOf_congr (fun v => by rw [Shows, h.revisionTables_eq, Shows])
    fun _ hshown => h.table?_eq (h.shown hshown)

theorem rowsOf_eq (hv : ¬d.tables v) : s'.rowsOf v = s.rowsOf v :=
  rowsOf_congr (fun _ => h.holds_iff hv) fun _ hheld => h.row?_eq (h.held hv hheld)

theorem findTable_eq (id : RevisionId) (name : String) :
    s'.findTable id name = s.findTable id name := by
  rw [findTable, h.tablesOf_eq, findTable]

theorem findRow_eq (hv : ¬d.tables v) (name : String) : s'.findRow v name = s.findRow v name := by
  rw [findRow, h.rowsOf_eq hv, findRow]

theorem seen_of_tablesOf {table : TableVersion} (hmem : table ∈ s.tablesOf id) :
    ¬d.tables table.version :=
  h.shown (h.orderly.of_mem_tablesOf hmem).1

theorem seen_of_rowsOf (hv : ¬d.tables v) {row : RowVersion} (hmem : row ∈ s.rowsOf v) :
    ¬d.rows row.version :=
  h.held hv (h.orderly.of_mem_rowsOf hmem).1

/-- A table that is found may be written to if it is not read-only. -/
theorem seen_of_findTable {table : TableVersion} (hfound : s.findTable id name = some table) :
    ¬d.tables table.version ∧ (table.readonly = false → d.Open table.version) := by
  have hmem := List.mem_of_find?_eq_some hfound
  refine ⟨h.seen_of_tablesOf hmem, fun hreadonly => ⟨h.seen_of_tablesOf hmem, fun hanchor => ?_⟩⟩
  have hpublished := h.locked hanchor
  rw [Layer.published_iff (h.orderly.of_mem_tablesOf hmem).2] at hpublished
  exact Bool.false_ne_true (hreadonly.symm.trans hpublished)

theorem seen_of_findRow (hv : ¬d.tables v) {row : RowVersion}
    (hfound : s.findRow v name = some row) : ¬d.rows row.version :=
  h.seen_of_rowsOf hv (List.mem_of_find?_eq_some hfound)

/-- Whether anything holds a row in sight does not depend on debris. -/
theorem tablesHolding_eq_nil_iff (hu : ¬d.rows u) :
    s'.tablesHolding u = [] ↔ s.tablesHolding u = [] := by
  have hiff {s : Store} (horderly : s.Orderly) :
      s.tablesHolding u = [] ↔ ∀ v, ¬s.Holds v u := by
    rw [List.eq_nil_iff_forall_not_mem]
    exact forall_congr' fun v => not_congr horderly.tableRows.mem_sources
  rw [hiff h.orderly, hiff h.orderly']
  refine ⟨fun hunheld v hv => ?_, fun hunheld v hv => ?_⟩
  · by_cases hseen : d.tables v
    · obtain ⟨a, ha, hheld⟩ := h.kept hseen hu (.inl hv)
      exact hunheld a ((h.holds_iff (d.anchors_seen ha)).mpr hheld)
    · exact hunheld v ((h.holds_iff hseen).mpr hv)
  · by_cases hseen : d.tables v
    · obtain ⟨a, -, hheld⟩ := h.kept hseen hu (.inr hv)
      exact hunheld a hheld
    · exact hunheld v ((h.holds_iff hseen).mp hv)

/-! ### Views -/

theorem view_eq (id : RevisionId) : s'.view id = s.view id := by
  rw [view, view, h.tablesOf_eq]
  refine List.map_congr_left fun table hmem => ?_
  rw [tableView, tableView, h.rowsOf_eq (h.seen_of_tablesOf hmem)]

theorem differsFromParent_eq (id : RevisionId) (revision : Revision) :
    s'.differsFromParent id revision = s.differsFromParent id revision := by
  simp only [differsFromParent, h.view_eq]

theorem diff_eq (before after : RevisionId) : s'.diff before after = s.diff before after := by
  rw [diff, h.view_eq, h.view_eq, diff]

theorem walkBack_eq (branch : BranchName) (steps : Nat) (start : Option Revision) :
    s'.walkBack branch steps start = s.walkBack branch steps start := by
  induction steps generalizing start with
  | zero => rcases start with _ | revision <;> rfl
  | succ steps ih =>
    rcases start with _ | revision
    · rfl
    · have hprevious : s'.previous? branch revision = s.previous? branch revision := by
        rw [previous?, previous?, funext h.revision?_eq]
      rw [walkBack, walkBack, hprevious, ih]

theorem history_eq (branch : BranchName) (limit : Option Nat) :
    s'.history branch limit = s.history branch limit := by
  simp only [history, h.branch?_eq, h.findRevision_eq, h.walkBack_eq, h.revisions_eq]

end Twins

/-! ## Changes -/

namespace Twins

variable (h : s.Twins d s')

include h

theorem putBranch (record : Branch) : (s.putBranch record).Twins d (s'.putBranch record) :=
  { h with
    orderly := h.orderly.putBranch record
    orderly' := h.orderly'.putBranch record
    branches_eq := by rw [Store.putBranch, h.branches_eq, Store.putBranch] }

theorem putRevision (record : Revision) : (s.putRevision record).Twins d (s'.putRevision record) :=
  { h with
    orderly := h.orderly.putRevision record
    orderly' := h.orderly'.putRevision record
    revisions_eq := by rw [Store.putRevision, h.revisions_eq, Store.putRevision] }

/-- An anchor stays published. -/
theorem putTable {record : TableVersion}
    (hlocked : d.anchors record.version → record.readonly = true) :
    (s.putTable record).Twins d (s'.putTable record) :=
  { h with
    orderly := h.orderly.putTable record
    orderly' := h.orderly'.putTable record
    table?_eq := fun hv => by rw [table?_putTable, table?_putTable, h.table?_eq hv]
    locked := fun {v} hanchor => by
      rw [graph_putTable]
      by_cases hv : v = record.version
      · exact ⟨record, if_pos hv, hlocked (hv ▸ hanchor)⟩
      · obtain ⟨old, hold, hreadonly⟩ := h.locked hanchor
        exact ⟨old, (if_neg hv).trans hold, hreadonly⟩ }

theorem dropTable {v : VersionId} (hfree : ¬d.anchors v) :
    (s.dropTable v).Twins d (s'.dropTable v) :=
  { h with
    orderly := h.orderly.dropTable v
    orderly' := h.orderly'.dropTable v
    table?_eq := fun hu => by rw [table?_dropTable, table?_dropTable, h.table?_eq hu]
    locked := fun {u} hanchor => by
      have hne : u ≠ v := fun heq => hfree (heq ▸ hanchor)
      obtain ⟨old, hold, hreadonly⟩ := h.locked hanchor
      exact ⟨old, (table?_dropTable ..).trans ((if_neg hne).trans hold), hreadonly⟩ }

theorem putRow (record : RowVersion) : (s.putRow record).Twins d (s'.putRow record) :=
  { h with
    orderly := h.orderly.putRow record
    orderly' := h.orderly'.putRow record
    row?_eq := fun hu => by rw [row?_putRow, row?_putRow, h.row?_eq hu] }

theorem dropRow (u : VersionId) : (s.dropRow u).Twins d (s'.dropRow u) :=
  { h with
    orderly := h.orderly.dropRow u
    orderly' := h.orderly'.dropRow u
    row?_eq := fun hu => by rw [row?_dropRow, row?_dropRow, h.row?_eq hu] }

theorem linkTable (id : RevisionId) {v : VersionId} {linked : Bool}
    (hseen : linked = true → ¬d.tables v) :
    (s.linkTable id v linked).Twins d (s'.linkTable id v linked) :=
  { h with
    orderly := h.orderly.linkTable id v linked
    orderly' := h.orderly'.linkTable id v linked
    revisionTables_eq := by rw [Store.linkTable, h.revisionTables_eq, Store.linkTable]
    shown := fun hshown => by
      rcases ite_or ((shows_linkTable ..).mp hshown) with ⟨⟨-, rfl⟩, hlinked⟩ | hold
      · exact hseen hlinked
      · exact h.shown hold }

/-- An anchor goes on holding what it holds. -/
theorem linkRow {v u : VersionId} {linked : Bool} (hv : d.Open v)
    (hseen : linked = true → ¬d.rows u) :
    (s.linkRow v u linked).Twins d (s'.linkRow v u linked) :=
  { h with
    orderly := h.orderly.linkRow v u linked
    orderly' := h.orderly'.linkRow v u linked
    holds_iff := fun {x y} hx => by rw [holds_linkRow, holds_linkRow, h.holds_iff hx]
    held := fun {x y} hx hheld => by
      rcases ite_or ((holds_linkRow ..).mp hheld) with ⟨⟨-, rfl⟩, hlinked⟩ | hold
      · exact hseen hlinked
      · exact h.held hx hold
    kept := fun {x y} hx hy hheld => by
      -- Debris is not written to, and neither is the anchor.
      have hne : ¬(x = v ∧ y = u) := fun heq => hv.seen (heq.1 ▸ hx)
      rw [holds_linkRow, holds_linkRow, if_neg hne, if_neg hne] at hheld
      obtain ⟨a, ha, hold⟩ := h.kept hx hy hheld
      have hother : ¬(a = v ∧ y = u) := fun heq => hv.free (heq.1 ▸ ha)
      exact ⟨a, ha, (holds_linkRow ..).mpr (by rwa [if_neg hother])⟩ }

end Twins

end Store

/-! ## Transactions -/

/-- Two attempts come to the same: both are refused for one reason, or both succeed with results that
are related. -/
inductive SameOutcome {ε α : Type} (R : α → α → Prop) : Except ε α → Except ε α → Prop where
  | ok {a a' : α} (h : R a a') : SameOutcome R (.ok a) (.ok a')
  | error (fault : ε) : SameOutcome R (.error fault) (.error fault)

theorem SameOutcome.eq_or {ε α : Type} {R : α → α → Prop} {e e' : Except ε α}
    (h : SameOutcome R e e') : (∃ a a', e = .ok a ∧ e' = .ok a' ∧ R a a') ∨
      ∃ fault, e = .error fault ∧ e' = .error fault := by
  cases h with
  | ok h => exact .inl ⟨_, _, rfl, rfl, h⟩
  | error fault => exact .inr ⟨fault, rfl, rfl⟩

namespace Transaction

/-- Two transactions with twin stores, in which the same changes were made. -/
structure Twins (d : Debris) (t t' : Transaction) : Prop where
  store : t.store.Twins d t'.store
  journal_eq : t'.journal = t.journal

namespace Twins

variable {d : Debris} {t t' : Transaction} (h : t.Twins d t')

include h

theorem record {store store' : Store} (hstore : store.Twins d store') (undo : Undo) :
    (t.record store undo).Twins d (t'.record store' undo) :=
  ⟨hstore, congrArg (undo :: ·) h.journal_eq⟩

theorem createBranch (record : Branch) :
    SameOutcome (Twins d) (t.createBranch record) (t'.createBranch record) := by
  rw [Transaction.createBranch, Transaction.createBranch, h.store.branches_eq]
  split
  · exact .error _
  · exact .ok (h.record (h.store.putBranch record) _)

theorem createRevision (record : Revision) :
    SameOutcome (Twins d) (t.createRevision record) (t'.createRevision record) := by
  rw [Transaction.createRevision, Transaction.createRevision, h.store.branches_eq,
    h.store.revisions_eq]
  split
  · exact .error _
  · split
    · exact .error _
    · exact .ok (h.record (h.store.putRevision record) _)

theorem updateRevision (record : Revision) :
    SameOutcome (Twins d) (t.updateRevision record) (t'.updateRevision record) := by
  rw [Transaction.updateRevision, Transaction.updateRevision, h.store.revision?_eq]
  split
  · exact .error _
  · exact .ok (h.record (h.store.putRevision record) _)

theorem createTable {record : TableVersion} (hrecord : d.Open record.version) :
    SameOutcome (Twins d) (t.createTable record) (t'.createTable record) := by
  rw [Transaction.createTable, Transaction.createTable, contains_eq_isSome, contains_eq_isSome,
    ← Store.table?, ← Store.table?, h.store.table?_eq hrecord.seen]
  split
  · exact .error _
  · exact .ok (h.record (h.store.putTable fun hanchor => absurd hanchor hrecord.free) _)

theorem updateTable {record : TableVersion} (hseen : ¬d.tables record.version)
    (hlocked : d.anchors record.version → record.readonly = true) :
    SameOutcome (Twins d) (t.updateTable record) (t'.updateTable record) := by
  rw [Transaction.updateTable, Transaction.updateTable, h.store.table?_eq hseen]
  split
  · exact .error _
  · exact .ok (h.record (h.store.putTable hlocked) _)

theorem createRow {record : RowVersion} (hseen : ¬d.rows record.version) :
    SameOutcome (Twins d) (t.createRow record) (t'.createRow record) := by
  rw [Transaction.createRow, Transaction.createRow, contains_eq_isSome, contains_eq_isSome,
    ← Store.row?, ← Store.row?, h.store.row?_eq hseen]
  split
  · exact .error _
  · exact .ok (h.record (h.store.putRow record) _)

theorem updateRow {record : RowVersion} (hseen : ¬d.rows record.version) :
    SameOutcome (Twins d) (t.updateRow record) (t'.updateRow record) := by
  rw [Transaction.updateRow, Transaction.updateRow, h.store.row?_eq hseen]
  split
  · exact .error _
  · exact .ok (h.record (h.store.putRow record) _)

/-! ### Links -/

theorem linkTable (id : RevisionId) {v : VersionId} {linked : Bool}
    (hseen : linked = true → ¬d.tables v) :
    (t.linkTable id v linked).Twins d (t'.linkTable id v linked) := by
  have hstore := h.store.linkTable id hseen
  rw [Transaction.linkTable, Transaction.linkTable, h.store.revisionTables_eq]
  split
  · exact ⟨hstore, h.journal_eq⟩
  · exact h.record hstore _

theorem linkRow {v u : VersionId} {linked : Bool} (hv : d.Open v)
    (hseen : linked = true → ¬d.rows u) :
    (t.linkRow v u linked).Twins d (t'.linkRow v u linked) := by
  have hstore := h.store.linkRow hv hseen
  have hwas : t'.store.tableRows.contains v u = t.store.tableRows.contains v u :=
    Bool.eq_iff_iff.mpr (h.store.holds_iff hv.seen)
  rw [Transaction.linkRow, Transaction.linkRow, hwas]
  split
  · exact ⟨hstore, h.journal_eq⟩
  · exact h.record hstore _

theorem connectTable (id : RevisionId) {v : VersionId} (hseen : ¬d.tables v) :
    SameOutcome (Twins d) (t.connectTable id v) (t'.connectTable id v) := by
  rw [Transaction.connectTable, Transaction.connectTable, h.store.revisions_eq,
    h.store.contains_tables_eq hseen]
  split
  · exact .error _
  · split
    · exact .error _
    · exact .ok (h.linkTable id fun _ => hseen)

theorem connectRow {v u : VersionId} (hv : d.Open v) (hu : ¬d.rows u) :
    SameOutcome (Twins d) (t.connectRow v u) (t'.connectRow v u) := by
  rw [Transaction.connectRow, Transaction.connectRow, h.store.contains_tables_eq hv.seen,
    h.store.contains_rows_eq hu]
  split
  · exact .error _
  · split
    · exact .error _
    · exact .ok (h.linkRow hv fun _ => hu)

/-! ### Deleting -/

theorem unlinkRows {v : VersionId} (hv : d.Open v) :
    (t.unlinkRows v).Twins d (t'.unlinkRows v) := by
  have htargets : t'.store.tableRows.targets v = t.store.tableRows.targets v :=
    Links.targets_congr fun _ => Bool.eq_iff_iff.mpr (h.store.holds_iff hv.seen)
  rw [Transaction.unlinkRows, Transaction.unlinkRows, htargets]
  generalize t.store.tableRows.targets v = rows
  clear htargets
  induction rows generalizing t t' with
  | nil => exact h
  | cons first rest ih => exact ih (h.linkRow hv fun hlinked => by cases hlinked)

theorem deleteTable {v : VersionId} (hv : d.Open v) :
    SameOutcome (fun a a' => a'.1 = a.1 ∧ a.2.Twins d a'.2) (t.deleteTable v) (t'.deleteTable v) := by
  rw [Transaction.deleteTable, Transaction.deleteTable, h.store.table?_eq hv.seen,
    h.store.revisionsOf_eq]
  rcases t.store.table? v with _ | table
  · exact .error _
  · dsimp only
    split
    · exact .error _
    · have hunlinked := h.unlinkRows hv
      exact .ok ⟨rfl, hunlinked.record (hunlinked.store.dropTable hv.free) _⟩

/-- A row version goes when nothing holds it. -/
theorem deleteRow {u : VersionId} (hu : ¬d.rows u) (hunheld : t.store.tablesHolding u = []) :
    SameOutcome (fun a a' => a'.1 = a.1 ∧ a.2.Twins d a'.2) (t.deleteRow u) (t'.deleteRow u) := by
  have hunheld' := (h.store.tablesHolding_eq_nil_iff hu).mpr hunheld
  rw [Transaction.deleteRow, Transaction.deleteRow, h.store.row?_eq hu, hunheld, hunheld']
  rcases t.store.row? u with _ | row
  · exact .error _
  · exact .ok ⟨rfl, h.record (h.store.dropRow u) _⟩

end Twins

end Transaction

end VersionedTables
