import VersionedTables.Proofs.Built
import VersionedTables.Proofs.Leaks

/-!
# What a garbage collection does to a store

A collection goes through two lists of versions that are taken before anything is deleted from them, and
the table versions that it deletes leave rows behind for the second list. Its report is exact all the
same, and so is what it deletes (`Store.Collected`): nothing that can be seen is lost, and nothing is
kept that cannot. So a second collection finds nothing.

This needs no more of a store than that its links are in order, which they are however it was built
(`Store.collected_of_built`). It need not have been commands that built it.
-/

namespace VersionedTables

/-! ## The report -/

namespace Edit

variable {w : Workspace}

/-- A version is not reported twice, because there is one entry for it in a store. -/
theorem collectGarbage_yields_nodup {Q : GarbageReport → Workspace → Prop}
    (h : collectGarbage.Yields w Q) :
    collectGarbage.Yields w fun report w' =>
      (report.tables.Nodup ∧ report.rows.Nodup) ∧ Q report w' := by
  simp only [collectGarbage, yields_bind, yields_store, yields_pure] at h ⊢
  refine (filterM_yields_sublist h).imp ?_
  rintro tables w₁ ⟨htables, hrest⟩
  refine (filterM_yields_sublist hrest).imp ?_
  rintro rows w₂ ⟨hrows, hQ⟩
  exact ⟨⟨htables.nodup (Store.nodup_keys _), hrows.nodup (Store.nodup_keys _)⟩, hQ⟩

end Edit

/-! ## The graph -/

/-- What is linked by something that keeps its links is not dropped. -/
theorem Layer.record?_prune_of_kept {α ν : Type} {L : Layer α ν} {v : VersionId}
    {Keeps : α → VersionId → Prop} {MayDrop : VersionId → Prop}
    (h : ∀ record, L.record? v = some record → ∃ a, L.Linked a v ∧ Keeps a v) :
    (L.prune Keeps MayDrop).record? v = L.record? v := by
  rcases hrecord : (L.prune Keeps MayDrop).record? v with _ | record
  · rcases hold : L.record? v with _ | record
    · rfl
    · obtain ⟨a, hlinked, hkeeps⟩ := h record hold
      rw [record?_prune_of_linked hlinked hkeeps, hold] at hrecord
      cases hrecord
  · exact (record?_of_prune hrecord).symm

namespace Graph

variable {g : Graph} {v u : VersionId}

/-- A row version is there, and no table version that holds it is shown. -/
def Unseen (g : Graph) (u : VersionId) : Prop :=
  (∃ row, g.rows.record? u = some row) ∧ ∀ v, g.rows.Linked v u → ∀ id, ¬g.tables.Linked id v

/-- A table version that is there is left behind, or some revision shows it. -/
theorem shown_of_not_stray (h : ¬g.tables.Stray v) {table : TableVersion}
    (hstored : g.tables.record? v = some table) : ∃ id, g.tables.Linked id v := by
  by_contra hunshown
  exact h ⟨⟨table, hstored⟩, fun id hid => hunshown ⟨id, hid⟩⟩

theorem table?_sweep_of_stray (h : g.tables.Stray v) : g.sweep.tables.record? v = none :=
  Layer.record?_prune_of_unlinked trivial fun id hid => h.2 id hid.1

theorem table?_sweep_of_not_stray (h : ¬g.tables.Stray v) :
    g.sweep.tables.record? v = g.tables.record? v := by
  refine Layer.record?_prune_of_kept fun table hstored => ?_
  obtain ⟨id, hid⟩ := shown_of_not_stray h hstored
  exact ⟨id, hid, trivial⟩

theorem row?_sweep_of_unseen (h : g.Unseen u) : g.sweep.rows.record? u = none := by
  refine Layer.record?_prune_of_unlinked trivial ?_
  rintro v ⟨hheld, id, hid⟩
  exact h.2 v hheld id hid

theorem row?_sweep_of_not_unseen (h : ¬g.Unseen u) :
    g.sweep.rows.record? u = g.rows.record? u := by
  refine Layer.record?_prune_of_kept fun row hstored => ?_
  by_contra hunheld
  exact h ⟨⟨row, hstored⟩, fun v hv id hid => hunheld ⟨v, hv, id, hid⟩⟩

end Graph

/-! ## The store -/

/-- The versions in a report are what cannot be seen, and they are gone; everything else is there as it
was. -/
structure Store.Collected (s : Store) (report : GarbageReport) (s' : Store) : Prop where
  /-- No table version is reported twice. -/
  nodup_tables : report.tables.Nodup
  /-- The table versions that are reported were there, and no revision showed them. -/
  mem_tables : ∀ v, v ∈ report.tables ↔ (∃ table, s.table? v = some table) ∧ ∀ id, ¬s.Shows id v
  /-- No row version is reported twice. -/
  nodup_rows : report.rows.Nodup
  /-- The row versions that are reported were there, and only table versions that are reported held
  them. -/
  mem_rows : ∀ u, u ∈ report.rows ↔
    (∃ row, s.row? u = some row) ∧ ∀ v, s.Holds v u → v ∈ report.tables
  /-- Table versions that are reported are gone. -/
  table?_reported : ∀ v ∈ report.tables, s'.table? v = none
  /-- The other table versions are what they were. -/
  table?_other : ∀ v, v ∉ report.tables → s'.table? v = s.table? v
  /-- Row versions that are reported are gone. -/
  row?_reported : ∀ u ∈ report.rows, s'.row? u = none
  /-- The other row versions are what they were. -/
  row?_other : ∀ u, u ∉ report.rows → s'.row? u = s.row? u
  /-- Branches are what they were. -/
  branch? : ∀ name, s'.branch? name = s.branch? name
  /-- Revisions are what they were. -/
  revision? : ∀ id, s'.revision? id = s.revision? id
  /-- Revisions show what they did. -/
  shows : ∀ id v, s'.Shows id v ↔ s.Shows id v
  /-- Table versions that are reported hold nothing any more. -/
  not_holds : ∀ v ∈ report.tables, ∀ u, ¬s'.Holds v u
  /-- The other table versions hold what they did. -/
  holds : ∀ v, v ∉ report.tables → ∀ u, s'.Holds v u ↔ s.Holds v u
  /-- A table version that a revision shows is still there. -/
  table?_shown : ∀ id v, s.Shows id v → ∃ table, s.table? v = some table ∧ s'.table? v = some table
  /-- So is a row version that such a table version holds. -/
  row?_held : ∀ id v u, s.Shows id v → s.Holds v u →
    ∃ row, s.row? u = some row ∧ s'.row? u = some row
  /-- Every table version that is there is shown. -/
  shown : ∀ v table, s'.table? v = some table → ∃ id, s'.Shows id v
  /-- Every row version that is there is held. -/
  held : ∀ u row, s'.row? u = some row → ∃ v, s'.Holds v u
  /-- The links are in order, from either end. -/
  intact : s'.Intact

namespace Store

variable {s s' : Store} {report : GarbageReport}

/-- What was swept away, if that is what is reported. -/
theorem Collected.of_graph (h : s.Intact) (hgraph : s'.graph = s.graph.sweep) (hintact : s'.Intact)
    (hnodup : report.tables.Nodup ∧ report.rows.Nodup)
    (htables : ∀ v, v ∈ report.tables ↔ s.graph.tables.Stray v)
    (hrows : ∀ u, u ∈ report.rows ↔ s.graph.Unseen u) : s.Collected report s' := by
  have hclosed := h.closed
  have htable (v : VersionId) : s'.table? v = s.graph.sweep.tables.record? v := by
    rw [← graph_table?, hgraph]
  have hrow (u : VersionId) : s'.row? u = s.graph.sweep.rows.record? u := by
    rw [← graph_row?, hgraph]
  have hshows (id : RevisionId) (v : VersionId) : s'.Shows id v ↔ s.Shows id v := by
    rw [← graph_shows, hgraph]
    exact and_iff_left trivial
  have hholds (v u : VersionId) : s'.Holds v u ↔ s.Holds v u ∧ ∃ id, s.Shows id v := by
    rw [← graph_holds, hgraph]
    exact Iff.rfl
  have htableOther (v : VersionId) (hv : v ∉ report.tables) : s'.table? v = s.table? v :=
    (htable v).trans (Graph.table?_sweep_of_not_stray (mt (htables v).mpr hv))
  have hrowOther (u : VersionId) (hu : u ∉ report.rows) : s'.row? u = s.row? u :=
    (hrow u).trans (Graph.row?_sweep_of_not_unseen (mt (hrows u).mpr hu))
  have hshown {id : RevisionId} {v : VersionId} (hid : s.Shows id v) : v ∉ report.tables := by
    intro hv
    exact ((htables v).mp hv).2 id hid
  exact {
    nodup_tables := hnodup.1
    mem_tables := htables
    nodup_rows := hnodup.2
    mem_rows := by
      intro u
      refine (hrows u).trans (and_congr_right fun _ => forall₂_congr fun v hheld => ?_)
      -- A table version that holds something is stored, so it is reported unless it is shown.
      exact ((htables v).trans (and_iff_right (hclosed.holder hheld))).symm
    table?_reported := by
      intro v hv
      exact (htable v).trans (Graph.table?_sweep_of_stray ((htables v).mp hv))
    table?_other := htableOther
    row?_reported := by
      intro u hu
      exact (hrow u).trans (Graph.row?_sweep_of_unseen ((hrows u).mp hu))
    row?_other := hrowOther
    branch? := congrFun (congrArg Lines.branch? (congrArg Graph.lines hgraph))
    revision? := congrFun (congrArg Lines.revision? (congrArg Graph.lines hgraph))
    shows := hshows
    not_holds := by
      intro v hv u hheld
      obtain ⟨-, id, hid⟩ := (hholds v u).mp hheld
      exact hshown hid hv
    holds := by
      intro v hv u
      refine (hholds v u).trans (and_iff_left_of_imp fun hheld => ?_)
      obtain ⟨table, hstored⟩ := hclosed.holder hheld
      exact Graph.shown_of_not_stray (mt (htables v).mpr hv) hstored
    table?_shown := by
      intro id v hid
      obtain ⟨table, hstored⟩ := hclosed.shown hid
      exact ⟨table, hstored, (htableOther v (hshown hid)).trans hstored⟩
    row?_held := by
      intro id v u hid hheld
      obtain ⟨row, hstored⟩ := hclosed.held hheld
      have hu : u ∉ report.rows := by
        intro hu
        exact ((hrows u).mp hu).2 v hheld id hid
      exact ⟨row, hstored, (hrowOther u hu).trans hstored⟩
    shown := by
      intro v table hstored
      rw [htable] at hstored
      obtain ⟨id, hid, -⟩ := Layer.linked_of_prune hstored trivial
      exact ⟨id, (hshows id v).mpr hid⟩
    held := by
      intro u row hstored
      rw [hrow] at hstored
      obtain ⟨v, hheld⟩ := Layer.linked_of_prune hstored trivial
      exact ⟨v, (hholds v u).mpr hheld⟩
    intact := hintact }

end Store

/-! ## Collecting once and again -/

namespace Edit

variable {w : Workspace}

/-- Garbage is collected wherever links are in order. -/
theorem collectGarbage_collects (h : w.store.Intact) :
    collectGarbage.Yields w fun report w' =>
      w'.supply = w.supply ∧ w.store.Collected report w'.store := by
  have hyields := Makes.collectGarbage.journaled.keeps h (collectGarbage_yields h)
  refine (collectGarbage_yields_nodup hyields).imp ?_
  rintro report w' ⟨hnodup, ⟨hintact, -⟩, hgraph, hsupply, htables, hrows⟩
  exact ⟨hsupply, .of_graph h hgraph hintact hnodup htables hrows⟩

/-- Right after that there is nothing to collect. -/
theorem outcome_collectGarbage_of_collected {s : Store} {report : GarbageReport}
    (h : s.Collected report w.store) : collectGarbage.outcome w = (.ok ⟨[], []⟩, w) := by
  have hstrays (v : VersionId) : ¬w.graph.tables.Stray v := by
    rintro ⟨⟨table, hstored⟩, hunshown⟩
    obtain ⟨id, hid⟩ := h.shown v table hstored
    exact hunshown id hid
  obtain ⟨again, w', hrun, rfl, rfl⟩ :=
    collectGarbage_yields_nothing h.intact hstrays fun {u row} => h.held u row
  exact hrun

end Edit

namespace Store

/-- However a store was built, and within any transaction, garbage is collected, and collecting it again
does nothing. No identifier and no clock reading is drawn for it. -/
theorem collected_of_built {w : Workspace} (h : w.store.Built) :
    ∃ report w', Edit.collectGarbage.outcome w = (.ok report, w') ∧ w'.supply = w.supply ∧
      w.store.Collected report w'.store ∧
      Edit.collectGarbage.outcome w' = (.ok ⟨[], []⟩, w') := by
  obtain ⟨report, w', hrun, hsupply, hcollected⟩ := Edit.collectGarbage_collects h.intact
  refine ⟨report, w', hrun, hsupply, hcollected, ?_⟩
  exact Edit.outcome_collectGarbage_of_collected hcollected

/-- A revision shows a table version with a row in it. The same row is in a table version that no
revision shows, beside a second one, and a third row is in no table at all. -/
def littered : Store :=
  ((Transaction.mk ∅ []).attemptAll [.createBranch ⟨.main, ⟨0, 0⟩⟩,
    .createRevision (.start ⟨"r"⟩ .main none ⟨0, 0⟩),
    .createTable (.new ⟨"users"⟩ false ⟨"e"⟩ ⟨"t"⟩ ⟨0, 0⟩), .connectTable ⟨"r"⟩ ⟨"t"⟩,
    .createTable (.new ⟨"users"⟩ false ⟨"e"⟩ ⟨"d"⟩ ⟨0, 0⟩),
    .createRow (.new ⟨"ada"⟩ .null ⟨"f"⟩ ⟨"a"⟩ ⟨0, 0⟩), .connectRow ⟨"t"⟩ ⟨"a"⟩,
    .connectRow ⟨"d"⟩ ⟨"a"⟩, .createRow (.new ⟨"bob"⟩ .null ⟨"g"⟩ ⟨"b"⟩ ⟨0, 0⟩),
    .connectRow ⟨"d"⟩ ⟨"b"⟩, .createRow (.new ⟨"cy"⟩ .null ⟨"h"⟩ ⟨"c"⟩ ⟨0, 0⟩)]).store

/-- The second table version goes with the row that nothing else holds, and so does the third row. The
row that is in sight stays in its table. -/
theorem littered_collected : littered.Built ∧
    ∃ report w', Edit.collectGarbage.outcome ⟨⟨littered, []⟩, .unary fun _ => ⟨0, 0⟩⟩ =
        (.ok report, w') ∧
      report = ⟨[⟨"d"⟩], [⟨"b"⟩, ⟨"c"⟩]⟩ ∧ w'.store.row? ⟨"b"⟩ = none ∧
      w'.store.Holds ⟨"t"⟩ ⟨"a"⟩ ∧ w'.store.row? ⟨"a"⟩ = littered.row? ⟨"a"⟩ := by
  have hbuilt : littered.Built := .tried .empty _
  obtain ⟨report, w', hrun, -, hcollected, -⟩ := collected_of_built
    (w := ⟨⟨littered, []⟩, .unary fun _ => ⟨0, 0⟩⟩) hbuilt
  have hreport : (Edit.collectGarbage.outcome ⟨⟨littered, []⟩, .unary fun _ => ⟨0, 0⟩⟩).1 =
      .ok ⟨[⟨"d"⟩], [⟨"b"⟩, ⟨"c"⟩]⟩ := by
    decide +kernel
  obtain rfl : report = _ := Except.ok.inj ((congrArg Prod.fst hrun).symm.trans hreport)
  have hheld : littered.tableRows.contains ⟨"t"⟩ ⟨"a"⟩ = true := by
    decide +kernel
  exact ⟨hbuilt, _, w', hrun, rfl, hcollected.row?_reported _ (by decide),
    (hcollected.holds _ (by decide) _).mpr hheld, hcollected.row?_other _ (by decide)⟩

end Store

end VersionedTables
