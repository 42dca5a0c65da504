import VersionedTables.Proofs.Edit.Steps

/-!
# Sharing versions

What locking and copying do, each with one equation between the graph before and the graph after.
None of it can be refused: locking asks for an intact store, and copying for one in which versions
can be opened (`Store.Openable`).

A list of records that was read before may be out of date by the time its items are used: a row that
is held by two tables of a draft is locked when the first of them is. The statements about lists
therefore ask only that each item is stored as it was, or locked.
-/

namespace VersionedTables

namespace Edit

variable {w : Workspace} {id : RevisionId} {row : RowVersion} {table : TableVersion}
  {v : VersionId} {name : String}

/-! ## Locking -/

/-- A row is locked, if it was not before. -/
theorem lockRow_yields
    (h : w.store.row? row.version = some row ∨ w.store.row? row.version = some row.lock) :
    (lockRow row).Yields w fun _ w' =>
      w'.graph = w.graph.withRows (w.graph.rows.lock (· = row.version)) ∧
        w'.supply = w.supply := by
  rw [lockRow, yields_ite]
  split
  · obtain ⟨old, hold⟩ : ∃ old, w.store.row? row.version = some old := h.elim (⟨_, ·⟩) (⟨_, ·⟩)
    refine yields_write.mpr ⟨_, Transaction.updateRow_eq_ok.mpr ⟨old, hold, rfl⟩, ?_, rfl⟩
    rw [Layer.lock_eq_put h]
    exact Store.graph_putRow _ _
  · next hreadonly =>
    rw [Bool.not_eq_true', Bool.not_eq_false] at hreadonly
    have hpublished : w.graph.rows.Published row.version :=
      h.elim (⟨_, ·, hreadonly⟩) (⟨_, ·, rfl⟩)
    exact yields_pure.mpr ⟨by rw [Layer.lock_of_published hpublished, Graph.withRows_self], rfl⟩

/-- All rows of a list are locked. -/
theorem forM_lockRow_yields {rows : List RowVersion}
    (h : ∀ row ∈ rows,
      w.store.row? row.version = some row ∨ w.store.row? row.version = some row.lock) :
    (forM rows lockRow).Yields w fun _ w' =>
      w'.graph = w.graph.withRows (w.graph.rows.lock fun u => ∃ row ∈ rows, row.version = u) ∧
        w'.supply = w.supply := by
  induction rows generalizing w with
  | nil =>
    refine yields_forM_nil.mpr ⟨?_, rfl⟩
    simp [Layer.lock_nothing]
  | cons first rest ih =>
    refine yields_forM_cons.mpr ((lockRow_yields (h first (by simp))).imp ?_)
    rintro - w₁ ⟨hgraph, hsupply⟩
    have hrow (u : VersionId) :
        w₁.store.row? u = (w.graph.rows.lock (· = first.version)).record? u := by
      rw [Workspace.row?_eq, hgraph, Graph.withRows_rows]
    refine (ih fun row hmem => ?_).imp ?_
    · rw [hrow]
      exact Layer.record?_lock_or (h row (List.mem_cons_of_mem _ hmem))
    · rintro - w₂ ⟨hgraph', hsupply'⟩
      refine ⟨?_, hsupply'.trans hsupply⟩
      rw [hgraph', hgraph, Graph.withRows_withRows, Graph.withRows_rows, Layer.lock_lock]
      simp [eq_comm]

/-- A table version is locked with all rows it holds. -/
theorem lockTable_yields (hintact : w.store.Intact)
    (h : w.store.table? table.version = some table ∨
      w.store.table? table.version = some table.lock) :
    (lockTable table).Yields w fun _ w' =>
      w'.graph = w.graph.lock (· = table.version) ∧ w'.supply = w.supply := by
  simp only [lockTable, yields_bind, yields_store, List.forM_eq_forM]
  refine (forM_lockRow_yields fun row hmem => .inl (hintact.mem_rowsOf.mp hmem).2).imp ?_
  rintro - w₁ ⟨hgraph, hsupply⟩
  have hrows : (fun u => ∃ row ∈ w.store.rowsOf table.version, row.version = u) =
      fun u => ∃ v, v = table.version ∧ w.graph.rows.Linked v u := by
    ext u
    refine ⟨?_, ?_⟩
    · rintro ⟨row, hmem, rfl⟩
      exact ⟨_, rfl, (hintact.mem_rowsOf.mp hmem).1⟩
    · rintro ⟨v, rfl, hholds⟩
      obtain ⟨row, hrow, rfl⟩ := hintact.exists_row hholds
      exact ⟨row, hintact.mem_rowsOf.mpr ⟨hholds, hrow⟩, rfl⟩
  rw [hrows] at hgraph
  -- Locking rows leaves the record of the table as it was.
  have htable : w₁.store.table? table.version = w.store.table? table.version := by
    rw [Workspace.table?_eq, hgraph, Graph.withRows_tables, Workspace.table?_eq]
  rw [yields_ite]
  split
  · obtain ⟨old, hold⟩ : ∃ old, w₁.store.table? table.version = some old := by
      rw [htable]
      exact h.elim (⟨_, ·⟩) (⟨_, ·⟩)
    refine yields_write.mpr ⟨_, Transaction.updateTable_eq_ok.mpr ⟨old, hold, rfl⟩, ?_, hsupply⟩
    have hput : w.graph.tables.lock (· = table.version) =
        w.graph.tables.put table.version table.lock := Layer.lock_eq_put h
    rw [Graph.lock, hput]
    exact (Store.graph_putTable _ _).trans (by rw [show w₁.store.graph = _ from hgraph]; rfl)
  · next hreadonly =>
    rw [Bool.not_eq_true', Bool.not_eq_false] at hreadonly
    have hpublished : w.graph.tables.Published table.version :=
      h.elim (⟨_, ·, hreadonly⟩) (⟨_, ·, rfl⟩)
    refine yields_pure.mpr ⟨?_, hsupply⟩
    rw [hgraph, Graph.lock, Layer.lock_of_published hpublished]
    rfl

/-! ## Copying rows -/

/-- A copy takes the place of a row version. -/
theorem copyRow_yields (h : w.Openable) (hheld : w.store.Holds v row.version) :
    (copyRow v row).Yields w fun copy w' => ∃ version time, copy = row.copy version time ∧
      w.supply.Between w'.supply version.text ∧
      w'.graph = w.graph.placeRow v (some row.version) copy := by
  have hfresh := Supply.between_drawId h.distinct .version
  have hnew : w.store.row? (w.supply.drawId .version).1 = none := h.uses.row?_eq_none hfresh.1
  simp only [copyRow, yields_bind, yields_freshId, yields_now, yields_pure]
  refine (createRow_yields hnew).imp ?_
  rintro - w₁ ⟨hgraph₁, hsupply₁⟩
  refine disconnectRow_yields.imp ?_
  rintro - w₂ ⟨hgraph₂, hsupply₂⟩
  rw [hgraph₁] at hgraph₂
  refine (connectRow_yields ?_ ?_).imp ?_
  · rw [Workspace.table?_eq, hgraph₂]
    exact h.intact.closed.holder hheld
  · rw [Workspace.row?_eq, hgraph₂]
    exact ⟨_, if_pos rfl⟩
  · rintro - w₃ ⟨hgraph₃, hsupply₃⟩
    refine ⟨_, _, rfl, ?_, ?_⟩
    · rw [hsupply₃, hsupply₂, hsupply₁]
      exact hfresh.later Supply.later_readClock
    · rw [hgraph₃, hgraph₂]
      simp only [Graph.withRows_rows, Graph.withRows_withRows, RowVersion.version_copy,
        Layer.place_some]
      rfl

/-- A row version that may be changed is handed out as it is. -/
theorem draftRow_reuses (h : w.Openable) (htable : table.readonly = false)
    (hnamed : w.graph.NamesRow table.version name row) (hmutable : row.readonly = false) :
    (draftRow table name).Yields w fun target w' =>
      target = ⟨row, row.version, false⟩ ∧ w' = w := by
  simp only [draftRow, htable, Bool.false_eq_true, if_false, yields_bind, yields_store,
    yields_orFault]
  refine ⟨row, h.findRow_eq_some.mpr hnamed, ?_⟩
  rw [hmutable, if_neg Bool.false_ne_true]
  exact yields_pure.mpr ⟨rfl, rfl⟩

/-- A copy takes the place of a row version that may not be changed. -/
theorem draftRow_copies (h : w.Openable) (htable : table.readonly = false)
    (hnamed : w.graph.NamesRow table.version name row) (hreadonly : row.readonly = true) :
    (draftRow table name).Yields w fun target w' => ∃ version time,
      target = ⟨row.copy version time, row.version, true⟩ ∧
        w.supply.Between w'.supply version.text ∧
        w'.graph = w.graph.placeRow table.version (some row.version) (row.copy version time) := by
  simp only [draftRow, htable, Bool.false_eq_true, if_false, yields_bind, yields_store,
    yields_orFault]
  refine ⟨row, h.findRow_eq_some.mpr hnamed, ?_⟩
  rw [hreadonly, if_pos rfl]
  refine yields_bind.mpr ((copyRow_yields h hnamed.held).imp ?_)
  rintro _ w' ⟨version, time, rfl, hbetween, hgraph⟩
  exact yields_pure.mpr ⟨version, time, rfl, hbetween, hgraph⟩

/-- The version of a row that may be changed: the one that is held, or a copy in its place. -/
theorem draftRow_yields (h : w.Openable) (htable : table.readonly = false)
    (hnamed : w.graph.NamesRow table.version name row) :
    (draftRow table name).Yields w fun target w' => target.previous = row.version ∧
      (row.readonly = false ∧ target.row = row ∧ w' = w ∨
        row.readonly = true ∧ ∃ version time, target.row = row.copy version time ∧
          w.supply.Between w'.supply version.text ∧
          w'.graph = w.graph.placeRow table.version (some row.version) target.row) := by
  rcases Bool.eq_false_or_eq_true row.readonly with hreadonly | hmutable
  · refine (draftRow_copies h htable hnamed hreadonly).imp ?_
    rintro _ w' ⟨version, time, rfl, hbetween, hgraph⟩
    exact ⟨rfl, .inr ⟨hreadonly, version, time, rfl, hbetween, hgraph⟩⟩
  · refine (draftRow_reuses h htable hnamed hmutable).imp ?_
    rintro _ _ ⟨rfl, rfl⟩
    exact ⟨rfl, .inl ⟨hmutable, rfl, rfl⟩⟩

/-- A row that is not there is not handed out, and nothing happens. -/
theorem outcome_draftRow_of_none (htable : table.readonly = false)
    (hnone : w.store.findRow table.version name = none) :
    (draftRow table name).outcome w = (.error (.rowNotFound name table.name), w) := by
  have hstore : store.outcome w = (.ok w.store, w) := rfl
  simp only [draftRow, htable, Bool.false_eq_true, if_false, outcome_bind, hstore, hnone]
  rfl

/-- A row of a table version that may not be changed is not handed out, and nothing happens. -/
theorem outcome_draftRow_of_readonly (htable : table.readonly = true) :
    (draftRow table name).outcome w = (.error (.readonlyTable table.name table.version), w) := by
  simp only [draftRow, htable, if_true]
  rfl

/-! ## Copying tables -/

/-- A table version comes to hold all rows of a list. -/
theorem forM_connectRow_yields {rows : List RowVersion}
    (htable : ∃ table, w.store.table? v = some table)
    (hrows : ∀ row ∈ rows, ∃ old, w.store.row? row.version = some old) :
    (forM rows fun row => write (·.connectRow v row.version)).Yields w fun _ w' =>
      w'.graph = w.graph.withRows
          (w.graph.rows.expose (· = v) fun u => ∃ row ∈ rows, row.version = u) ∧
        w'.supply = w.supply := by
  induction rows generalizing w with
  | nil =>
    refine yields_forM_nil.mpr ⟨?_, rfl⟩
    simp [Layer.expose_nothing]
  | cons first rest ih =>
    refine yields_forM_cons.mpr ((connectRow_yields htable (hrows first (by simp))).imp ?_)
    rintro - w₁ ⟨hgraph, hsupply⟩
    refine (ih ?_ fun row hmem => ?_).imp ?_
    · rw [Workspace.table?_eq, hgraph]
      exact htable
    · rw [Workspace.row?_eq, hgraph]
      exact hrows row (List.mem_cons_of_mem _ hmem)
    · rintro - w' ⟨hgraph', hsupply'⟩
      refine ⟨?_, hsupply'.trans hsupply⟩
      rw [hgraph', hgraph]
      simp only [Graph.withRows_rows, Graph.withRows_withRows, Layer.link_true,
        Layer.expose_expose]
      simp [eq_comm]

/-- What holds nothing comes to hold the rows of another table version. -/
theorem expose_rowsOf (hintact : w.store.Intact) {source : VersionId}
    (hempty : ∀ u, ¬w.store.Holds v u) :
    (w.graph.rows.expose (· = v) fun u => ∃ row ∈ w.store.rowsOf source, row.version = u) =
      w.graph.rows.inherit v (some source) := by
  have hrows (u : VersionId) :
      (∃ row ∈ w.store.rowsOf source, row.version = u) ↔ w.store.Holds source u := by
    refine ⟨?_, ?_⟩
    · rintro ⟨row, hmem, rfl⟩
      exact (hintact.mem_rowsOf.mp hmem).1
    · intro hholds
      obtain ⟨row, hrow, rfl⟩ := hintact.exists_row hholds
      exact ⟨row, hintact.mem_rowsOf.mpr ⟨hholds, hrow⟩, rfl⟩
  ext b u
  · rfl
  · simp only [Layer.expose, Layer.linked_inherit, Store.graph_holds, hrows]
    by_cases hb : b = v
    · subst hb
      simp [hempty u]
    · simp [hb]

/-- A copy takes the place of a table version. -/
theorem copyTable_yields (h : w.Openable) (hshown : w.store.Shows id table.version) :
    (copyTable id table).Yields w fun copy w' => ∃ version time, copy = table.copy version time ∧
      w.supply.Between w'.supply version.text ∧
      w'.graph = w.graph.placeTable id (some table.version) copy := by
  have hfresh := Supply.between_drawId h.distinct .version
  have hnew : w.store.table? (w.supply.drawId .version).1 = none := h.uses.table?_eq_none hfresh.1
  simp only [copyTable, yields_bind, yields_freshId, yields_now, yields_pure, yields_store,
    List.forM_eq_forM]
  refine (createTable_yields hnew).imp ?_
  rintro - w₁ ⟨hgraph₁, hsupply₁⟩
  have hrows : w₁.graph.rows = w.graph.rows := by
    rw [hgraph₁]
    rfl
  rw [Store.rowsOf_eq_of_graph hrows]
  refine (forM_connectRow_yields ?_ fun row hmem => ?_).imp ?_
  · rw [Workspace.table?_eq, hgraph₁]
    exact ⟨_, if_pos rfl⟩
  · rw [Workspace.row?_eq, hgraph₁]
    exact ⟨row, (h.intact.mem_rowsOf.mp hmem).2⟩
  · rintro - w₂ ⟨hgraph₂, hsupply₂⟩
    -- The new version holds nothing but the rows it was just given.
    have hempty := h.intact.closed.not_holder hnew
    rw [hrows, expose_rowsOf h.intact hempty] at hgraph₂
    refine disconnectTable_yields.imp ?_
    rintro - w₃ ⟨hgraph₃, hsupply₃⟩
    rw [hgraph₂, hgraph₁] at hgraph₃
    refine (connectTable_yields ?_ ?_).imp ?_
    · rw [Workspace.revision?_eq, hgraph₃]
      exact h.intact.closed.shower hshown
    · rw [Workspace.table?_eq, hgraph₃]
      exact ⟨_, if_pos rfl⟩
    · rintro - w₄ ⟨hgraph₄, hsupply₄⟩
      refine ⟨_, _, rfl, ?_, ?_⟩
      · rw [hsupply₄, hsupply₃, hsupply₂, hsupply₁]
        exact hfresh.later Supply.later_readClock
      · rw [hgraph₄, hgraph₃]
        simp only [Graph.withTables_tables, Graph.withRows_tables, TableVersion.version_copy,
          Layer.place_some]
        rfl

/-- A table version that may be changed is handed out as it is. -/
theorem draftTable_reuses (h : w.Openable) (hnamed : w.graph.NamesTable id name table)
    (hmutable : table.readonly = false) :
    (draftTable id name).Yields w fun target w' =>
      target = ⟨table, table.version, false⟩ ∧ w' = w := by
  simp only [draftTable, yields_bind, yields_requireTable]
  refine ⟨table, h.findTable_eq_some.mpr hnamed, ?_⟩
  rw [hmutable, if_neg Bool.false_ne_true]
  exact yields_pure.mpr ⟨rfl, rfl⟩

/-- A copy takes the place of a table version that may not be changed. -/
theorem draftTable_copies (h : w.Openable) (hnamed : w.graph.NamesTable id name table)
    (hreadonly : table.readonly = true) :
    (draftTable id name).Yields w fun target w' => ∃ version time,
      target = ⟨table.copy version time, table.version, true⟩ ∧
        w.supply.Between w'.supply version.text ∧
        w'.graph = w.graph.placeTable id (some table.version) (table.copy version time) := by
  simp only [draftTable, yields_bind, yields_requireTable]
  refine ⟨table, h.findTable_eq_some.mpr hnamed, ?_⟩
  rw [hreadonly, if_pos rfl]
  refine yields_bind.mpr ((copyTable_yields h hnamed.shown).imp ?_)
  rintro _ w' ⟨version, time, rfl, hbetween, hgraph⟩
  exact yields_pure.mpr ⟨version, time, rfl, hbetween, hgraph⟩

/-- The version of a table that may be changed: the one that is shown, or a copy in its place. -/
theorem draftTable_yields (h : w.Openable) (hnamed : w.graph.NamesTable id name table) :
    (draftTable id name).Yields w fun target w' => target.previous = table.version ∧
      (table.readonly = false ∧ target.table = table ∧ w' = w ∨
        table.readonly = true ∧ ∃ version time, target.table = table.copy version time ∧
          w.supply.Between w'.supply version.text ∧
          w'.graph = w.graph.placeTable id (some table.version) target.table) := by
  rcases Bool.eq_false_or_eq_true table.readonly with hreadonly | hmutable
  · refine (draftTable_copies h hnamed hreadonly).imp ?_
    rintro _ w' ⟨version, time, rfl, hbetween, hgraph⟩
    exact ⟨rfl, .inr ⟨hreadonly, version, time, rfl, hbetween, hgraph⟩⟩
  · refine (draftTable_reuses h hnamed hmutable).imp ?_
    rintro _ _ ⟨rfl, rfl⟩
    exact ⟨rfl, .inl ⟨hmutable, rfl, rfl⟩⟩

/-- A table that is not there is not handed out, and nothing happens. -/
theorem outcome_draftTable_of_none (hnone : w.store.findTable id name = none) :
    (draftTable id name).outcome w = (.error (.tableNotFound name id), w) := by
  have hstore : store.outcome w = (.ok w.store, w) := rfl
  simp only [draftTable, requireTable, outcome_bind, hstore, hnone]
  rfl

end Edit

end VersionedTables
