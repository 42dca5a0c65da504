import VersionedTables.Proofs.Views

/-!
# Outlines

What a comparison of two revisions looks at. The outline of a revision (`Graph.outline`) has its
tables with their names, and for each of them which row versions it holds, but not which table
version it is: a table version that was only copied is no difference. A draft differs from its
parent if their outlines differ (`Graph.Differs`).

Copying a table leaves the outline as it is, and so do changes that a revision cannot see. On the
other side there are two things that no published revision has in its outline: a row version that
may still be changed (`Graph.Coherent.differs_of_open`), and a table under a name that it does not
have there (`Graph.differs_of_mem`).
-/

namespace VersionedTables

/-- A table as a comparison sees it. -/
@[ext] structure TableOutline where
  /-- The table's name. -/
  name : TableName
  /-- Whether the table belongs to the system. -/
  system : Bool
  /-- The table. -/
  entity : EntityId
  /-- Which row versions it holds. -/
  rows : Set VersionId

namespace Graph

variable {g g' : Graph} {r revision : RevisionId} {v u T : VersionId} {table current : TableVersion}
  {draft : Revision}

/-- A table version as a comparison sees it. -/
def tableOutline (g : Graph) (v : VersionId) : Option TableOutline :=
  (g.tables.record? v).map fun table =>
    ⟨table.name, table.system, table.entity, {u | g.rows.Linked v u}⟩

/-- A revision as a comparison sees it. -/
def outline (g : Graph) (r : RevisionId) : Set TableOutline :=
  g.tables.gather g.tableOutline r

/-- What a draft is compared with: its parent, or nothing. -/
def baseline (g : Graph) (draft : Revision) : Set TableOutline :=
  draft.parent.elim ∅ g.outline

/-- A draft and its parent are not the same in a comparison. -/
def Differs (g : Graph) (draft : Revision) : Prop :=
  g.outline draft.id ≠ g.baseline draft

/-- A draft with a parent differs from it when their outlines do. -/
theorem differs_iff {parent : RevisionId} (hparent : draft.parent = some parent) :
    g.Differs draft ↔ g.outline draft.id ≠ g.outline parent := by
  rw [Differs, baseline, hparent, Option.elim_some]

/-- What is shown is in the outline. -/
theorem mem_outline_of_shown (hshown : g.tables.Linked r v)
    (hstored : g.tables.record? v = some table) :
    ⟨table.name, table.system, table.entity, {u | g.rows.Linked v u}⟩ ∈ g.outline r :=
  ⟨v, hshown, by rw [tableOutline, hstored, Option.map_some]⟩

/-- The tables of an outline are those that are shown. -/
theorem mem_outline (hc : g.Closed) {o : TableOutline} :
    o ∈ g.outline r ↔ ∃ table, g.tables.Linked r table.version ∧
      g.tables.record? table.version = some table ∧
      ⟨table.name, table.system, table.entity, {u | g.rows.Linked table.version u}⟩ = o := by
  refine ⟨?_, ?_⟩
  · rintro ⟨v, hshown, ho⟩
    obtain ⟨table, htable, rfl⟩ := Option.map_eq_some_iff.mp ho
    obtain rfl := hc.table_eq htable
    exact ⟨table, hshown, htable, rfl⟩
  · rintro ⟨table, hshown, htable, rfl⟩
    exact mem_outline_of_shown hshown htable

/-! ## What leaves outlines as they are -/

theorem SameTable.tableOutline_eq (h : SameTable g g' v) :
    g'.tableOutline v = g.tableOutline v := by
  simp only [tableOutline, h.record, h.holds]

theorem SameView.outline_eq (h : SameView g g' r) : g'.outline r = g.outline r :=
  Layer.gather_congr h.shows fun v hv => (h.table v hv).tableOutline_eq

/-- Branches and revisions are not part of an outline. -/
@[simp] theorem differs_withLines (l : Lines) : (g.withLines l).Differs draft ↔ g.Differs draft :=
  Iff.rfl

/-- A copy in the place of a table is like that table. -/
theorem outline_placeTable_some (hc : g.Closed) (hnew : g.tables.record? table.version = none)
    (hshown : g.tables.Linked revision v) (hcurrent : g.tables.record? v = some current)
    (hname : table.name = current.name) (hsystem : table.system = current.system)
    (hentity : table.entity = current.entity) :
    (g.placeTable revision (some v) table).outline revision = g.outline revision := by
  refine Layer.gather_place hshown ?_ fun x hx => ?_
  · rw [tableOutline, tableOutline, hcurrent]
    simp [placeTable, hname, hsystem, hentity]
  · refine (sameTable_placeTable ?_).tableOutline_eq
    rintro rfl
    exact hc.not_shown hnew revision hx

section Share

variable {l : Lines} {Shower : RevisionId → Prop} {Shared : VersionId → Prop} {source : RevisionId}

/-- What is published is not like anything else. -/
theorem tableOutline_share : (g.share l Shower Shared).tableOutline v = g.tableOutline v := by
  rw [tableOutline, tableOutline, table?_share]
  by_cases hv : Shared v
  · rw [Layer.record?_lock_of hv, Option.map_map]
    rfl
  · rw [Layer.record?_lock_of_not hv]
    rfl

theorem outline_share_of_not (hr : ¬Shower r) :
    (g.share l Shower Shared).outline r = g.outline r :=
  Layer.gather_congr (fun _ => or_iff_left fun hnew => hr hnew.1) fun _ _ => tableOutline_share

/-- A new revision is like the one whose tables it shares. -/
theorem outline_share_of (hr : Shower r) (hnew : ∀ v, ¬g.tables.Linked r v)
    (hshared : ∀ v, Shared v ↔ g.tables.Linked source v) :
    (g.share l Shower Shared).outline r = g.outline source := by
  refine Layer.gather_congr (fun v => ?_) fun v _ => tableOutline_share
  exact (or_iff_right (hnew v)).trans ((and_iff_right hr).trans (hshared v))

/-- Two new revisions that share the same tables are alike. -/
theorem outline_share_eq {r' : RevisionId} (hr : Shower r) (hr' : Shower r')
    (hnew : ∀ v, ¬g.tables.Linked r v) (hnew' : ∀ v, ¬g.tables.Linked r' v) :
    (g.share l Shower Shared).outline r = (g.share l Shower Shared).outline r' := by
  refine Layer.gather_congr (fun v => ?_) fun _ _ => rfl
  exact (or_iff_right (hnew v)).trans ((and_congr_left fun _ => iff_of_true hr hr').trans
    (or_iff_right (hnew' v)).symm)

end Share

/-- A draft that is put back is like the revision that it is put back to. -/
theorem outline_reset {head : RevisionId} : (g.reset r head).outline r = g.outline head :=
  Layer.gather_congr (fun v => by simp [reset]) fun _ _ => rfl

/-! ## What makes a draft differ -/

/-- A table version holds a row version that may be changed. -/
def HoldsOpen (g : Graph) (v : VersionId) : Prop :=
  ∃ u, g.rows.Linked v u ∧ ¬g.rows.Published u

theorem holdsOpen_of_stored {row : RowVersion} (hheld : g.rows.Linked v u)
    (hstored : g.rows.record? u = some row) (hmutable : row.readonly = false) : g.HoldsOpen v := by
  refine ⟨u, hheld, ?_⟩
  rw [Layer.published_iff hstored]
  exact Bool.eq_false_iff.mp hmutable

/-- The head below a draft. -/
theorem Coherent.baseline_eq (h : g.Coherent) (hdraft : g.lines.Drafts draft) :
    ∃ head, g.lines.Line draft.branch head draft ∧ g.baseline draft = g.outline head.id := by
  obtain ⟨head, hline⟩ := h.lines.line_of_draft hdraft.stored hdraft.isDraft
  exact ⟨head, hline, by rw [baseline, hline.parent, Option.elim_some]⟩

/-- The head has no row that may be changed, so a draft with one is different. -/
theorem Coherent.differs_of_open (h : g.Coherent) (hdraft : g.lines.Drafts draft)
    (hshown : g.tables.Linked draft.id v) (hstored : g.tables.record? v = some table)
    (hopen : g.HoldsOpen v) : g.Differs draft := by
  obtain ⟨u, hheld, hu⟩ := hopen
  obtain ⟨head, hline, hbaseline⟩ := h.baseline_eq hdraft
  intro heq
  have hmem : (⟨table.name, table.system, table.entity, {u | g.rows.Linked v u}⟩ : TableOutline) ∈
      g.outline head.id := by
    rw [← hbaseline, ← heq]
    exact mem_outline_of_shown hshown hstored
  obtain ⟨v', hshown', hv'⟩ := hmem
  obtain ⟨table', -, hsame⟩ := Option.map_eq_some_iff.mp hv'
  -- The head would have a table with the very same rows, all of them published.
  have hheld' : g.rows.Linked v' u := by
    have hrows : {u | g.rows.Linked v' u} = {u | g.rows.Linked v u} :=
      congrArg TableOutline.rows hsame
    exact (Set.ext_iff.mp hrows u).mpr hheld
  have hpublished := h.ownedTables.published hshown' ⟨head, hline.head_stored, hline.head_published⟩
  exact hu (h.ownedRows.published hheld' hpublished)

/-- A draft with a table that its parent does not have like that is different. -/
theorem differs_of_mem {o : TableOutline} (hmem : o ∈ g.outline draft.id)
    (hnot : o ∉ g.baseline draft) : g.Differs draft :=
  fun heq => hnot (heq ▸ hmem)

/-- The parent of a draft has a table under a name. -/
def ShownBelow (g : Graph) (draft : Revision) (entity : EntityId) (name : TableName) : Prop :=
  ∃ o ∈ g.baseline draft, o.entity = entity ∧ o.name = name

/-- A table of a draft is to get the name that it has in the parent. -/
def RenamesBack (g : Graph) (draft : Revision) (name next : String) : Prop :=
  ∃ current, g.NamesTable draft.id name current ∧ g.ShownBelow draft current.entity ⟨next⟩

/-- What a draft is compared with has tables that are stored. -/
theorem exists_of_mem_baseline (hc : g.Closed) {o : TableOutline} (ho : o ∈ g.baseline draft) :
    ∃ table, g.tables.record? table.version = some table ∧ table.entity = o.entity := by
  rw [baseline] at ho
  cases hparent : draft.parent with
  | none =>
    rw [hparent] at ho
    exact absurd ho (Set.notMem_empty o)
  | some parent =>
    rw [hparent] at ho
    obtain ⟨table, -, htable, rfl⟩ := (mem_outline hc).mp ho
    exact ⟨table, htable, rfl⟩

end Graph

end VersionedTables
