import VersionedTables.Proofs.Changes.Branches
import VersionedTables.Proofs.Rollback

/-!
# Steps of commands

The checks, writes and marks that commands are put together from. A check is said by what it asks
for; a write by what it needs and by one equation between the graph before and the graph after
(`Edit.updateRow_yields` and its companions), so that the journal does not occur in any later proof.
-/

namespace VersionedTables

open Std

/-- The rows of a table version are part of what can be seen. -/
theorem Store.rowsOf_eq_of_graph {s s' : Store} (h : s'.graph.rows = s.graph.rows) (v : VersionId) :
    s'.rowsOf v = s.rowsOf v :=
  rowsOf_congr (fun u => by rw [← graph_holds, h, graph_holds])
    (fun u _ => by rw [← graph_row?, h, graph_row?])

namespace Edit

variable {w : Workspace} {id : RevisionId} {draft revision : Revision} {row : RowVersion}
  {table : TableVersion} {u v : VersionId} {name : String} {branch : Branch}

/-! ## Checks -/

@[simp] theorem yields_requireDraft {Q : Revision → Workspace → Prop} :
    (requireDraft id).Yields w Q ↔
      ∃ revision, w.store.revision? id = some revision ∧ revision.isDraft = true ∧ Q revision w := by
  simp only [requireDraft, yields_bind, yields_store, yields_orFault]
  refine exists_congr fun revision => and_congr_right fun _ => ?_
  cases revision.isDraft <;> simp

@[simp] theorem yields_requireTable {Q : TableVersion → Workspace → Prop} :
    (requireTable id name).Yields w Q ↔
      ∃ table, w.store.findTable id name = some table ∧ Q table w := by
  simp only [requireTable, yields_bind, yields_store, yields_orFault]

@[simp] theorem yields_requireSource {Q : Revision → Workspace → Prop} :
    (requireSource id).Yields w Q ↔
      ∃ revision, w.store.revision? id = some revision ∧ revision.isDraft = false ∧ Q revision w := by
  simp only [requireSource, yields_bind, yields_store, yields_orFault]
  refine exists_congr fun revision => and_congr_right fun _ => ?_
  cases revision.isDraft <;> simp

/-! ## Drawing from the supply -/

/-- An identifier that was not drawn before. -/
theorem freshId_draws (h : w.supply.Distinct) {kind : IdKind} :
    (freshId kind).Yields w fun id w' => w'.store = w.store ∧ w.supply.Later w'.supply ∧
      w.supply.Between w'.supply id.text :=
  yields_freshId.mpr ⟨rfl, Supply.later_drawId kind, Supply.between_drawId h kind⟩

/-- Any reading of the clock. -/
theorem now_draws : now.Yields w fun _ w' => w'.store = w.store ∧ w.supply.Later w'.supply :=
  yields_now.mpr ⟨rfl, Supply.later_readClock⟩

/-- What a new record needs: an identifier, and then a reading of the clock. -/
theorem record_draws (h : w.supply.Distinct) {kind : IdKind}
    {Q : Id kind → Instant → Workspace → Prop}
    (hQ : ∀ id time w', w'.store = w.store → w.supply.Later w'.supply →
      w.supply.Between w'.supply id.text → Q id time w') :
    (freshId kind).Yields w fun id w₁ => now.Yields w₁ fun time w₂ => Q id time w₂ := by
  refine (freshId_draws h).imp ?_
  rintro id w₁ ⟨hstore₁, hlater₁, hid⟩
  refine now_draws.imp ?_
  rintro time w₂ ⟨hstore₂, hlater₂⟩
  exact hQ id time w₂ (hstore₂.trans hstore₁) (hlater₁.trans hlater₂) (hid.later hlater₂)

/-! ## Writes -/

theorem createBranch_yields (h : w.store.branch? branch.name = none) :
    (write (·.createBranch branch)).Yields w fun _ w' =>
      w'.graph = w.graph.withLines (w.graph.lines.putBranch branch) ∧ w'.supply = w.supply :=
  yields_write.mpr ⟨_, Transaction.createBranch_eq_ok.mpr ⟨h, rfl⟩, Store.graph_putBranch _ _, rfl⟩

theorem createRevision_yields (h : w.store.revision? revision.id = none)
    (hbranch : (w.store.branch? revision.branch).isSome) :
    (write (·.createRevision revision)).Yields w fun _ w' =>
      w'.graph = w.graph.withLines (w.graph.lines.putRevision revision) ∧ w'.supply = w.supply :=
  yields_write.mpr
    ⟨_, Transaction.createRevision_eq_ok.mpr ⟨h, hbranch, rfl⟩, Store.graph_putRevision _ _, rfl⟩

theorem updateRevision_yields (h : ∃ old, w.store.revision? revision.id = some old) :
    (write (·.updateRevision revision)).Yields w fun _ w' =>
      w'.graph = w.graph.withLines (w.graph.lines.putRevision revision) ∧ w'.supply = w.supply := by
  obtain ⟨old, hold⟩ := h
  exact yields_write.mpr ⟨_, Transaction.updateRevision_eq_ok.mpr ⟨old, hold, rfl⟩,
    Store.graph_putRevision _ _, rfl⟩

theorem createTable_yields (h : w.store.table? table.version = none) :
    (write (·.createTable table)).Yields w fun _ w' =>
      w'.graph = w.graph.withTables (w.graph.tables.put table.version table) ∧
        w'.supply = w.supply :=
  yields_write.mpr ⟨_, Transaction.createTable_eq_ok.mpr ⟨h, rfl⟩, Store.graph_putTable _ _, rfl⟩

theorem updateTable_yields (h : ∃ old, w.store.table? table.version = some old) :
    (write (·.updateTable table)).Yields w fun _ w' =>
      w'.graph = w.graph.withTables (w.graph.tables.put table.version table) ∧
        w'.supply = w.supply := by
  obtain ⟨old, hold⟩ := h
  exact yields_write.mpr ⟨_, Transaction.updateTable_eq_ok.mpr ⟨old, hold, rfl⟩,
    Store.graph_putTable _ _, rfl⟩

theorem createRow_yields (h : w.store.row? row.version = none) :
    (write (·.createRow row)).Yields w fun _ w' =>
      w'.graph = w.graph.withRows (w.graph.rows.put row.version row) ∧ w'.supply = w.supply :=
  yields_write.mpr ⟨_, Transaction.createRow_eq_ok.mpr ⟨h, rfl⟩, Store.graph_putRow _ _, rfl⟩

theorem updateRow_yields (h : ∃ old, w.store.row? row.version = some old) :
    (write (·.updateRow row)).Yields w fun _ w' =>
      w'.graph = w.graph.withRows (w.graph.rows.put row.version row) ∧ w'.supply = w.supply := by
  obtain ⟨old, hold⟩ := h
  exact yields_write.mpr ⟨_, Transaction.updateRow_eq_ok.mpr ⟨old, hold, rfl⟩,
    Store.graph_putRow _ _, rfl⟩

theorem connectTable_yields (hrevision : ∃ revision, w.store.revision? id = some revision)
    (htable : ∃ table, w.store.table? v = some table) :
    (write (·.connectTable id v)).Yields w fun _ w' =>
      w'.graph = w.graph.withTables (w.graph.tables.link id v true) ∧ w'.supply = w.supply := by
  rw [← Option.isSome_iff_exists] at hrevision htable
  refine yields_write.mpr
    ⟨_, Transaction.connectTable_eq_ok.mpr ⟨hrevision, htable, rfl⟩, ?_, rfl⟩
  exact (congrArg _ (Transaction.store_linkTable ..)).trans (Store.graph_linkTable ..)

theorem disconnectTable_yields :
    (change (·.disconnectTable id v)).Yields w fun _ w' =>
      w'.graph = w.graph.withTables (w.graph.tables.link id v false) ∧ w'.supply = w.supply :=
  yields_change.mpr
    ⟨(congrArg _ (Transaction.store_linkTable ..)).trans (Store.graph_linkTable ..), rfl⟩

theorem connectRow_yields (htable : ∃ table, w.store.table? v = some table)
    (hrow : ∃ row, w.store.row? u = some row) :
    (write (·.connectRow v u)).Yields w fun _ w' =>
      w'.graph = w.graph.withRows (w.graph.rows.link v u true) ∧ w'.supply = w.supply := by
  rw [← Option.isSome_iff_exists] at htable hrow
  refine yields_write.mpr ⟨_, Transaction.connectRow_eq_ok.mpr ⟨htable, hrow, rfl⟩, ?_, rfl⟩
  exact (congrArg _ (Transaction.store_linkRow ..)).trans (Store.graph_linkRow ..)

theorem disconnectRow_yields :
    (change (·.disconnectRow v u)).Yields w fun _ w' =>
      w'.graph = w.graph.withRows (w.graph.rows.link v u false) ∧ w'.supply = w.supply :=
  yields_change.mpr
    ⟨(congrArg _ (Transaction.store_linkRow ..)).trans (Store.graph_linkRow ..), rfl⟩

/-! ## Marking drafts -/

/-- A draft is marked as changed. -/
theorem markChanged_yields (hstored : w.store.revision? draft.id = some draft) :
    (markChanged draft).Yields w fun _ w' =>
      w'.graph = w.graph.withLines (w.graph.lines.mark draft true) ∧
        w'.supply = w.supply := by
  rw [markChanged, yields_ite]
  split
  · refine yields_write.mpr ⟨_, Transaction.updateRevision_eq_ok.mpr ⟨draft, hstored, rfl⟩, ?_, rfl⟩
    exact Store.graph_putRevision _ _
  · next hchanged =>
    rw [Bool.not_eq_true', Bool.not_eq_false] at hchanged
    exact yields_pure.mpr ⟨by rw [Lines.mark_self hstored hchanged, Graph.withLines_self], rfl⟩

/-- A draft is marked by whether it differs from its parent. -/
theorem refreshHasChanges_yields (hid : revision.id = id)
    (hstored : w.store.revision? id = some revision) :
    (refreshHasChanges id).Yields w fun flag w' =>
      flag = w.store.differsFromParent id revision ∧
        w'.graph = w.graph.withLines (w.graph.lines.mark revision flag) ∧
        w'.supply = w.supply := by
  subst hid
  simp only [refreshHasChanges, yields_bind, yields_store, yields_orFault]
  refine ⟨revision, hstored, ?_⟩
  generalize w.store.differsFromParent revision.id revision = flag
  by_cases hflag : revision.hasChanges = flag
  · have hsame : (revision.hasChanges != flag) = false := bne_eq_false_iff_eq.mpr hflag
    rw [hsame]
    exact yields_pure.mpr ⟨rfl, by rw [Lines.mark_self hstored hflag, Graph.withLines_self], rfl⟩
  · have hne : (revision.hasChanges != flag) = true := bne_iff_ne.mpr hflag
    simp only [hne, if_true, yields_bind, yields_write]
    refine ⟨_, Transaction.updateRevision_eq_ok.mpr ⟨revision, hstored, rfl⟩, ?_⟩
    exact yields_pure.mpr ⟨rfl, Store.graph_putRevision _ _, rfl⟩

end Edit

end VersionedTables
