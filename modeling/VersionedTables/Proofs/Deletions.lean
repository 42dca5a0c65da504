import VersionedTables.Proofs.Batches

/-!
# What is removed, and what is deleted

A draft lets go of what is removed from it, and a version that nobody links any more is deleted. So
what a command deletes depends on links that it did not make: those of tables that were copied a
moment ago, and those that earlier commands left behind. What should decide is whether the version is
published, since others can see it just then.

In a store that commands have made the two come to the same. A published version has a published
holder, which lets go of nothing (`Graph.Coherent.anchoredTables`, `anchoredRows`); a version that may
be changed has one holder at most (`ownedTables`, `ownedRows`), and a row version that may be changed
is never without one (`heldRows`), so it cannot be left in the store when its table has let go of it.
-/

namespace VersionedTables

variable {w w' : Workspace} {draft : Revision} {name : String} {supply supply' : Supply}

/-! ## Deleted versions -/

namespace Store

/-- A table version was there and is not there any more. -/
def LosesTable (s s' : Store) (v : VersionId) : Prop :=
  (∃ table, s.table? v = some table) ∧ s'.table? v = none

/-- A row version was there and is not there any more. -/
def LosesRow (s s' : Store) (u : VersionId) : Prop :=
  (∃ row, s.row? u = some row) ∧ s'.row? u = none

/-- An answer about a row that was removed says what became of the version: it is deleted if it was
not published, and only then. -/
structure Reports (s' : Store) (row : RowVersion) (answer : RemovedRow) : Prop where
  /-- The answer is about this row. -/
  about : answer.name = row.name ∧ answer.version = row.version
  /-- It says whether the version could be changed. -/
  deleted_iff : answer.deleted = true ↔ row.readonly = false
  /-- A version that could be changed is not there any more, and another one is. -/
  gone_iff : row.readonly = false ↔ s'.row? row.version = none

/-- Rows were removed from a table, and no version was deleted but those of them that could be
changed. -/
structure DeletesRows (s : Store) (id : RevisionId) (name : String) (names : List String)
    (answers : List RemovedRow) (table : TableVersion) (s' : Store) : Prop where
  /-- This version of the table was shown before. -/
  found : s.findTable id name = some table
  /-- Each name is answered once, with the row that the table held under it. -/
  answered : List.Forall₂ (fun text answer =>
    ∃ row, s.findRow table.version text = some row ∧ s'.Reports row answer) (keepFirst [] names) answers
  /-- No table version is deleted. -/
  tables : ∀ v, ¬s.LosesTable s' v
  /-- No other row version is deleted. -/
  rows : ∀ u, s.LosesRow s' u → ∃ answer ∈ answers, answer.deleted = true ∧ answer.version = u

/-- A table was removed, and no version was deleted but that of the table and those of its rows, if
they could be changed. -/
structure DeletesTable (s : Store) (id : RevisionId) (name : String) (answer : TableRemoved)
    (table : TableVersion) (s' : Store) : Prop where
  /-- This version of the table was shown before. -/
  found : s.findTable id name = some table
  /-- The answer is about it. -/
  about : answer.version = table.version ∧ answer.entity = table.entity
  /-- It says whether the version could be changed. -/
  deleted_iff : answer.deleted = true ↔ table.readonly = false
  /-- A version that could be changed is not there any more, and another one is. -/
  gone_iff : table.readonly = false ↔ s'.table? table.version = none
  /-- No row version is answered twice. -/
  nodup_rows : answer.deletedRows.Nodup
  /-- With the table go the row versions it held that could be changed. -/
  mem_rows : ∀ u, u ∈ answer.deletedRows ↔
    answer.deleted = true ∧ ∃ row ∈ s.rowsOf table.version, row.version = u ∧ row.readonly = false
  /-- They are not there any more. -/
  rows_gone : ∀ u ∈ answer.deletedRows, s'.row? u = none
  /-- Its published row versions are what they were. -/
  rows_kept : ∀ row ∈ s.rowsOf table.version, row.readonly = true → s'.row? row.version = some row
  /-- No other table version is deleted. -/
  tables : ∀ v, s.LosesTable s' v → v = table.version
  /-- No other row version is deleted. -/
  rows : ∀ u, s.LosesRow s' u → u ∈ answer.deletedRows

end Store

/-! ## The graph -/

namespace Graph

variable {g : Graph} {id : RevisionId} {table : TableVersion} {T u v : VersionId}

/-- A row version is in a table version that may be changed, and in no other one. -/
def GoesWith (g : Graph) (T u : VersionId) : Prop :=
  ¬g.tables.Published T ∧ g.rows.Linked T u ∧ ∀ v, g.rows.Linked v u → v = T

/-- A table version that a draft lets go of is gone just if it could be changed. -/
theorem table?_removeTable_self (h : g.Coherent) (hnamed : g.NamesTable id name table) :
    (g.removeTable id table.version).tables.record? table.version = none ↔
      table.readonly = false := by
  have hpublished := Layer.published_iff hnamed.stored
  refine ⟨fun hnone => Bool.eq_false_iff.mpr fun hreadonly => ?_, fun hmutable => ?_⟩
  · have hstays := hpublished.mpr hreadonly
    rw [removeTable, Layer.record?_prune_of_not fun hdrop => hdrop.2 hstays, hnamed.stored] at hnone
    cases hnone
  · have hopen := mt hpublished.mp (Bool.eq_false_iff.mp hmutable)
    refine Layer.record?_prune_of_unlinked ⟨rfl, hopen⟩ ?_
    rintro r ⟨hr, hkeeps⟩
    exact h.not_shown_elsewhere hnamed hmutable (fun heq => hkeeps ⟨heq, rfl⟩) hr

theorem table?_removeTable_of_ne (hne : v ≠ T) :
    (g.removeTable id T).tables.record? v = g.tables.record? v :=
  Layer.record?_prune_of_not fun hdrop => hne hdrop.1

theorem row?_removeTable_of_goesWith (h : g.GoesWith T u) :
    (g.removeTable id T).rows.record? u = none := by
  obtain ⟨hopen, hheld, honly⟩ := h
  refine Layer.record?_prune_of_unlinked ⟨hheld, hopen⟩ ?_
  rintro v ⟨hv, hkeeps⟩
  exact hopen (hkeeps (honly v hv))

theorem row?_removeTable_of_not_goesWith (h : ¬g.GoesWith T u) :
    (g.removeTable id T).rows.record? u = g.rows.record? u := by
  by_cases hdrop : g.rows.Linked T u ∧ ¬g.tables.Published T
  · -- It is held by the table version, but not by that one alone.
    have hother : ¬∀ v, g.rows.Linked v u → v = T := fun honly => h ⟨hdrop.2, hdrop.1, honly⟩
    simp only [not_forall] at hother
    obtain ⟨v, hv, hne⟩ := hother
    exact Layer.record?_prune_of_linked hv fun heq => absurd heq hne
  · exact Layer.record?_prune_of_not hdrop

end Graph

namespace Store

variable {s s' : Store} {id : RevisionId} {names : List String} {before after current : TableVersion}
  {olds : List RowVersion}

/-! ## Rows -/

/-- Every row version has a holder. -/
theorem Sound.exists_holds (h : s.Sound supply) {u : VersionId} {row : RowVersion}
    (hstored : s.row? u = some row) : ∃ v, s.Holds v u := by
  rcases hreadonly : row.readonly with _ | _
  · exact h.coherent.heldRows hstored hreadonly
  · obtain ⟨v, -, hholds⟩ := h.coherent.anchoredRows ⟨row, hstored, hreadonly⟩
    exact ⟨v, hholds⟩

/-- A row version that could be changed is gone after a batch that removed it. -/
theorem Batched.row?_removed {ρ : Type} {batch : RowBatch ρ}
    (hbatched : s.Batched id name names batch before after (olds.map .remove) s')
    (h : s.Sound supply) (h' : s'.Sound supply') {old : RowVersion} (hold : old ∈ olds)
    (hmutable : old.readonly = false) : s'.row? old.version = none := by
  obtain ⟨hheld, hname⟩ := (hbatched.mem_olds old).mp (by rwa [Exchange.olds_remove])
  obtain ⟨hholds, hstored⟩ := h.intact.mem_rowsOf.mp hheld
  rcases hnone : s'.row? old.version with _ | row
  · rfl
  -- If it were still there, something would hold it.
  obtain ⟨v, hv⟩ := h'.exists_holds hnone
  have hopen : ¬s.graph.rows.Published old.version := by
    rw [Layer.published_iff hstored]
    exact Bool.eq_false_iff.mp hmutable
  by_cases hafter : v = after.version
  · -- The table of the draft only holds rows that were not removed.
    have hversion : row.version = old.version := h'.intact.row_eq hnone
    rw [hafter, ← hversion] at hv
    rw [← hversion] at hnone hstored
    have hmem := (hbatched.mem_rowsOf row).mp (h'.intact.mem_rowsOf.mpr ⟨hv, hnone⟩)
    rw [Exchange.news_remove] at hmem
    obtain ⟨hrow, hnot⟩ := hmem.resolve_left List.not_mem_nil
    obtain rfl := Option.some.inj ((h.intact.mem_rowsOf.mp hrow).2.symm.trans hstored)
    exact absurd hname hnot
  · -- Another one held it before, but it had one holder only.
    have hv := (hbatched.holds_other v hafter old.version).mp hv
    obtain rfl := h.coherent.ownedRows.unique hv hholds hopen
    have hpublished : s.graph.tables.Published before.version :=
      ⟨before, (h.findTable_eq_some.mp hbatched.findTable_before).stored,
        hbatched.version_ne_iff.mp (Ne.symm hafter)⟩
    exact absurd (h.coherent.ownedRows.published hholds hpublished) hopen

/-- A batch that removes rows deletes those that could be changed. -/
theorem RemovesRows.deletes {batch : RowBatch RemovedRow}
    (hremoves : s.RemovesRows id name names batch s') (h : s.Sound supply) (h' : s'.Sound supply') :
    ∃ table, s.DeletesRows id name names batch.rows table s' := by
  obtain ⟨before, after, olds, hbatched, hnames, hrows, -⟩ := hremoves
  have hmem {old : RowVersion} : old ∈ olds ↔
      old ∈ s.rowsOf before.version ∧ old.name.text ∈ names := by
    have hmem := hbatched.mem_olds old
    rwa [Exchange.olds_remove] at hmem
  have hkept {old : RowVersion} (hold : old ∈ olds) (hreadonly : old.readonly = true) :
      s'.row? old.version = some old :=
    (hbatched.replaced_row old (by rwa [Exchange.olds_remove]) hreadonly).1
  refine ⟨before, hbatched.findTable_before, ?_, fun v hlost => ?_, fun u hlost => ?_⟩
  · rw [← hnames, hrows, List.forall₂_map_left_iff, List.forall₂_map_right_iff, List.forall₂_same]
    intro old hold
    obtain ⟨hholds, hstored⟩ := h.intact.mem_rowsOf.mp (hmem.mp hold).1
    refine ⟨old, h.findRow_eq_some.mpr ⟨hholds, hstored, rfl⟩, ⟨rfl, rfl⟩, ?_, ?_, ?_⟩
    · simp [RowVersion.removed]
    · exact hbatched.row?_removed h h' hold
    · intro hgone
      refine Bool.eq_false_iff.mpr fun hreadonly => ?_
      cases hgone.symm.trans (hkept hold hreadonly)
  · obtain ⟨⟨table, hstored⟩, hgone⟩ := hlost
    by_cases hafter : v = after.version
    · rw [hafter] at hgone
      cases hgone.symm.trans (h'.findTable_eq_some.mp hbatched.findTable_after).stored
    · rw [hbatched.table?_other v hafter, hstored] at hgone
      cases hgone
  · obtain ⟨⟨row, hstored⟩, hgone⟩ := hlost
    obtain rfl := h.intact.row_eq hstored
    have hold : row ∈ olds := by
      by_contra hnot
      cases hgone.symm.trans (hbatched.row?_other row hstored (by rwa [Exchange.olds_remove]))
    rw [hrows]
    refine ⟨row.removed, List.mem_map_of_mem hold, ?_, rfl⟩
    rcases hreadonly : row.readonly with _ | _
    · simp [RowVersion.removed, hreadonly]
    · cases hgone.symm.trans (hkept hold hreadonly)

/-! ## Tables -/

/-- A row version that could be changed has the one holder, and a published one has others. -/
theorem Sound.only_holder_iff (h : s.Sound supply) {row : RowVersion}
    (hmutable : ¬s.graph.tables.Published current.version)
    (hholds : s.Holds current.version row.version) (hstored : s.row? row.version = some row) :
    (∀ v, s.Holds v row.version → v = current.version) ↔ row.readonly = false := by
  refine ⟨fun honly => Bool.eq_false_iff.mpr fun hreadonly => ?_, fun hopen v hv => ?_⟩
  · obtain ⟨v, hpublished, hv⟩ := h.coherent.anchoredRows ⟨row, hstored, hreadonly⟩
    exact hmutable (honly v hv ▸ hpublished)
  · refine h.coherent.ownedRows.unique hv hholds ?_
    rw [Layer.published_iff hstored]
    exact Bool.eq_false_iff.mp hopen

/-- What is not there any more when a table was let go of, which is told by the graph. -/
theorem DeletesTable.of_graph {answer : TableRemoved} {lines : Lines} (h : s.Sound supply)
    (hnamed : s.graph.NamesTable id name current)
    (hgraph : s'.graph = (s.graph.removeTable id current.version).withLines lines)
    (hanswer : answer.version = current.version ∧ answer.entity = current.entity ∧
      answer.deleted = !current.readonly)
    (hrows : answer.deletedRows.Nodup ∧ ∀ u, u ∈ answer.deletedRows ↔ current.readonly = false ∧
      s.Holds current.version u ∧ ∀ v, s.Holds v u → v = current.version) :
    s.DeletesTable id name answer current s' := by
  obtain ⟨hversion, hentity, hdeleted⟩ := hanswer
  obtain ⟨hnodup, hrows⟩ := hrows
  have hpublished : s.graph.tables.Published current.version ↔ current.readonly = true :=
    Layer.published_iff hnamed.stored
  have hopen : current.readonly = false ↔ ¬s.graph.tables.Published current.version := by
    rw [hpublished, Bool.not_eq_true]
  have htable (v : VersionId) :
      s'.table? v = (s.graph.removeTable id current.version).tables.record? v := by
    rw [← graph_table?, hgraph, Graph.withLines_tables]
  have hrow (u : VersionId) :
      s'.row? u = (s.graph.removeTable id current.version).rows.record? u := by
    rw [← graph_row?, hgraph, Graph.withLines_rows]
  have hgoes (u : VersionId) : u ∈ answer.deletedRows ↔ s.graph.GoesWith current.version u :=
    (hrows u).trans (and_congr_left' hopen)
  have hkept {u : VersionId} (hu : u ∉ answer.deletedRows) : s'.row? u = s.row? u :=
    (hrow u).trans (Graph.row?_removeTable_of_not_goesWith (mt (hgoes u).mpr hu))
  have hmutable_iff {row : RowVersion} (hmem : row ∈ s.rowsOf current.version) :
      row.version ∈ answer.deletedRows ↔ current.readonly = false ∧ row.readonly = false := by
    obtain ⟨hholds, hstored⟩ := h.intact.mem_rowsOf.mp hmem
    rw [hrows, and_iff_right hholds]
    exact and_congr_right fun hmutable => h.only_holder_iff (hopen.mp hmutable) hholds hstored
  exact {
    found := h.findTable_eq_some.mpr hnamed
    about := ⟨hversion, hentity⟩
    deleted_iff := by simp [hdeleted]
    gone_iff := by
      rw [htable, Graph.table?_removeTable_self h.coherent hnamed]
    nodup_rows := hnodup
    mem_rows := by
      intro u
      simp only [hdeleted, Bool.not_eq_true']
      refine ⟨fun hu => ?_, ?_⟩
      · obtain ⟨hmutable, hholds, -⟩ := (hrows u).mp hu
        obtain ⟨row, hstored⟩ := h.intact.closed.held hholds
        obtain rfl := h.intact.row_eq hstored
        have hmem := h.intact.mem_rowsOf.mpr ⟨hholds, hstored⟩
        exact ⟨hmutable, row, hmem, rfl, ((hmutable_iff hmem).mp hu).2⟩
      · rintro ⟨hmutable, row, hmem, rfl, hreadonly⟩
        exact (hmutable_iff hmem).mpr ⟨hmutable, hreadonly⟩
    rows_gone := by
      intro u hu
      exact (hrow u).trans (Graph.row?_removeTable_of_goesWith ((hgoes u).mp hu))
    rows_kept := by
      intro row hmem hreadonly
      rw [hkept fun hu => ?_]
      · exact (h.intact.mem_rowsOf.mp hmem).2
      · exact Bool.false_ne_true (((hmutable_iff hmem).mp hu).2.symm.trans hreadonly)
    tables := by
      rintro v ⟨⟨table, hstored⟩, hnone⟩
      by_contra hne
      rw [htable, Graph.table?_removeTable_of_ne hne, graph_table?, hstored] at hnone
      cases hnone
    rows := by
      rintro u ⟨⟨row, hstored⟩, hnone⟩
      by_contra hu
      cases hnone.symm.trans ((hkept hu).trans hstored) }

end Store

/-! ## Commands -/

/-- Removing rows deletes those of them that could be changed. -/
theorem Edit.removeRows_deletes (h : w.Sound) (hdraft : w.graph.lines.Drafts draft)
    {names : List String} (hcan : (w.graph.content draft.id).OnTable name (CanRemove · names)) :
    (removeRows draft.id name names).Yields w fun answer w' =>
      ∃ table, w.store.DeletesRows draft.id name names answer.rows table w'.store := by
  refine ((removeRows_batched h hdraft hcan).and (removeRows_edit h hdraft hcan)).imp ?_
  rintro answer w' ⟨hremoves, hedit, -⟩
  exact hremoves.deletes h hedit.sound

/-- Removing a table deletes what could be changed of it. -/
theorem Edit.removeTable_deletes (h : w.Sound) (hdraft : w.graph.lines.Drafts draft)
    (hcan : (w.graph.content draft.id).CanRemoveTable name) :
    (removeTable draft.id name).Yields w fun answer w' =>
      ∃ table, w.store.DeletesTable draft.id name answer table w'.store := by
  obtain ⟨current, hnamed⟩ := (Graph.canRemoveTable_iff h.intact.closed).mp hcan
  refine removeTable_of_refresh h hdraft hnamed ?_
  intro w₁ rows hkeeps hgraph hrows
  have hstored : w₁.store.revision? draft.id = some draft := by
    rw [Workspace.revision?_eq, hgraph]
    exact hdraft.stored
  refine (refreshHasChanges_yields rfl hstored).imp ?_
  rintro flag w' ⟨-, hgraph', -⟩
  rw [hgraph] at hgraph'
  exact ⟨current, .of_graph h hnamed hgraph' ⟨rfl, rfl, rfl⟩ hrows⟩

namespace Database

variable {db : Database}

/-- Wherever a run has led to, removing rows or a table from a draft deletes just the versions that
could be changed, and says so. -/
theorem Fresh.run_deletes (h : db.Fresh) (commands : List Command) (id : RevisionId)
    (name : String) :
    (∀ names reply db',
      (db.run commands).execute (.removeRows id name names) = (.ok reply, db') →
        ∃ removed, reply = .rowsRemoved removed ∧ ∃ table,
          (db.run commands).store.DeletesRows id name names removed.rows table db'.store) ∧
    ∀ reply db',
      (db.run commands).execute (.removeTable id name) = (.ok reply, db') →
        ∃ removed, reply = .tableRemoved removed ∧ ∃ table,
          (db.run commands).store.DeletesTable id name removed table db'.store := by
  have hsound := h.run_sound commands
  refine ⟨fun names reply db' hresult => ?_, fun reply db' hresult => ?_⟩
  · refine execute_of_yields (P := fun removed s' => ∃ table,
      (db.run commands).store.DeletesRows id name names removed.rows table s') hsound rfl ?_ hresult
    rintro ⟨draft, hdraft, rfl, hcan⟩
    exact Edit.removeRows_deletes hsound hdraft hcan
  · refine execute_of_yields (P := fun removed s' => ∃ table,
      (db.run commands).store.DeletesTable id name removed table s') hsound rfl ?_ hresult
    rintro ⟨draft, hdraft, rfl, hcan⟩
    exact Edit.removeTable_deletes hsound hdraft hcan

/-- What the answer to a removal says of the versions that were let go of: whether they have been
deleted. -/
def deletions : Reply → List Bool
  | .rowsRemoved removed => removed.rows.map (·.deleted)
  | .tableRemoved removed => removed.deleted :: removed.deletedRows.map fun _ => true
  | _ => []

/-- A table of `halfUpdated` is removed, and two of its rows are: the one that was published and the one
that was not. Just the latter is deleted in both. -/
theorem run_deletes_halfUpdated :
    (∃ removed db', halfUpdated.execute (.removeRows ⟨"iiiiiiiii"⟩ "users" ["bob", "ada", "bob"]) =
        (.ok (.rowsRemoved removed), db') ∧ removed.rows.map (·.deleted) = [false, true] ∧
      ∃ table, halfUpdated.store.DeletesRows ⟨"iiiiiiiii"⟩ "users" ["bob", "ada", "bob"]
        removed.rows table db'.store) ∧
    ∃ removed db', halfUpdated.execute (.removeTable ⟨"iiiiiiiii"⟩ "users") =
        (.ok (.tableRemoved removed), db') ∧ removed.deleted = true ∧
          removed.deletedRows.length = 1 ∧ ∃ table, table.readonly = false ∧
            halfUpdated.store.DeletesTable ⟨"iiiiiiiii"⟩ "users" removed table db'.store := by
  obtain ⟨hrows, htable⟩ := Fresh.run_deletes
    (fresh_inMemory (Supply.distinct_unary fun _ => ⟨0, 0⟩)) rowUpdatedInDraft ⟨"iiiiiiiii"⟩ "users"
  refine ⟨?_, ?_⟩
  · obtain ⟨reply, db', hresult⟩ : ∃ reply db', halfUpdated.execute (.removeRows ⟨"iiiiiiiii"⟩
        "users" ["bob", "ada", "bob"]) = (.ok reply, db') := exists_execute (by decide +kernel)
    obtain ⟨removed, rfl, table, hdeletes⟩ := hrows _ _ _ hresult
    have hanswer : (halfUpdated.execute (.removeRows ⟨"iiiiiiiii"⟩ "users"
        ["bob", "ada", "bob"])).1.toOption.map deletions = some [false, true] := by
      decide +kernel
    rw [hresult] at hanswer
    exact ⟨removed, db', hresult, Option.some.inj hanswer, table, hdeletes⟩
  · obtain ⟨reply, db', hresult⟩ : ∃ reply db', halfUpdated.execute (.removeTable ⟨"iiiiiiiii"⟩
        "users") = (.ok reply, db') := exists_execute (by decide +kernel)
    obtain ⟨removed, rfl, table, hdeletes⟩ := htable _ _ hresult
    have hanswer : (halfUpdated.execute (.removeTable ⟨"iiiiiiiii"⟩ "users")).1.toOption.map
        deletions = some [true, true] := by
      decide +kernel
    rw [hresult] at hanswer
    obtain ⟨hdeleted, hrows⟩ := List.cons.inj (Option.some.inj hanswer)
    have hlength : removed.deletedRows.length = 1 := by
      rw [← List.length_map fun _ => true, hrows]
      rfl
    exact ⟨removed, db', hresult, hdeleted, hlength, table, hdeletes.deleted_iff.mp hdeleted,
      hdeletes⟩

end Database

end VersionedTables
