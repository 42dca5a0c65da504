import VersionedTables.Proofs.Differences
import VersionedTables.Proofs.Edit.Sharing

/-!
# Steps within a draft

What most commands do is done in small steps to one draft. A `RowStep v F w w'` leads from the
workspace `w` to `w'` and changes nothing but the rows of one table version `v`, whose content it
changes by `F`; a `DraftStep id F w w'` changes nothing but what the draft `id` shows, whose content
it changes by `F`. Both keep the workspace sound, and both can be put one after the other, so a
batch is a step if its parts are. A step on the rows of a draft's own table is a step of that draft
(`RowStep.cleanStep`). All steps of a draft but one are clean (`CleanStep`): they leave no table
version behind that nobody shows. The one is that a draft is put back.

Getting hold of a version that may be changed is a step that changes no content at all
(`Edit.draftTable_step`, `Edit.draftRow_step`). A whole command is a step of a draft with a mark on
the draft's record after it (`DraftEdit`, `CleanEdit`), which either is what a comparison of the draft with its
parent comes to (`Compared`) or stays as it was along with what is compared (`Kept`).
-/

namespace VersionedTables

variable {w w' w₁ w₂ : Workspace} {v T : VersionId} {id : RevisionId} {table : TableVersion}
  {row : RowVersion} {name : String}

/-! ## Steps -/

/-- A step that changes nothing but the rows of one table version. -/
structure RowStep (v : VersionId) (F : Set RowContent → Set RowContent) (w w' : Workspace) :
    Prop where
  sound : w'.Sound
  later : w.supply.Later w'.supply
  lines : w'.graph.lines = w.graph.lines
  tables : w'.graph.tables = w.graph.tables
  others : ∀ u, u ≠ v → w.graph.SameTable w'.graph u
  content : w'.graph.rowsIn v = F (w.graph.rowsIn v)

/-- A step that changes nothing but what one draft shows. -/
structure DraftStep (id : RevisionId) (F : Content → Content) (w w' : Workspace) : Prop where
  sound : w'.Sound
  later : w.supply.Later w'.supply
  lines : w'.graph.lines = w.graph.lines
  others : ∀ r, r ≠ id → w.graph.SameView w'.graph r
  content : w'.graph.content id = F (w.graph.content id)

/-- A step of a draft that leaves no table version behind. -/
structure CleanStep (id : RevisionId) (F : Content → Content) (w w' : Workspace) : Prop
    extends DraftStep id F w w' where
  strays : ∀ {v}, w'.graph.tables.Stray v → w.graph.tables.Stray v

/-- A step is known by the graph it leads to. -/
theorem RowStep.of_graph {F : Set RowContent → Set RowContent} {g : Graph} (h : w.Sound)
    (hkeeps : w'.store.Intact ∧ w.supply.Later w'.supply) (hgraph : w'.graph = g)
    (hcoherent : g.Coherent) (huses : g.Uses w'.supply.Drawn)
    (hlines : g.lines = w.graph.lines) (htables : g.tables = w.graph.tables)
    (hothers : ∀ u, u ≠ v → w.graph.SameTable g u) (hcontent : g.rowsIn v = F (w.graph.rowsIn v)) :
    RowStep v F w w' where
  sound := h.after hkeeps hgraph hcoherent huses
  later := hkeeps.2
  lines := by rw [hgraph, hlines]
  tables := by rw [hgraph, htables]
  others := by rwa [hgraph]
  content := by rw [hgraph, hcontent]

/-- A step is known by the graph it leads to. -/
theorem DraftStep.of_graph {F : Content → Content} {g : Graph} (h : w.Sound)
    (hkeeps : w'.store.Intact ∧ w.supply.Later w'.supply) (hgraph : w'.graph = g)
    (hcoherent : g.Coherent) (huses : g.Uses w'.supply.Drawn) (hlines : g.lines = w.graph.lines)
    (hothers : ∀ r, r ≠ id → w.graph.SameView g r) (hcontent : g.content id = F (w.graph.content id)) :
    DraftStep id F w w' where
  sound := h.after hkeeps hgraph hcoherent huses
  later := hkeeps.2
  lines := by rw [hgraph, hlines]
  others := by rwa [hgraph]
  content := by rw [hgraph, hcontent]

theorem RowStep.refl (h : w.Sound) (v : VersionId) : RowStep v (fun rows => rows) w w where
  sound := h
  later := .refl _
  lines := rfl
  tables := rfl
  others u _ := .refl _ u
  content := rfl

theorem RowStep.trans {F G : Set RowContent → Set RowContent} (h₁ : RowStep v F w w₁)
    (h₂ : RowStep v G w₁ w₂) : RowStep v (fun rows => G (F rows)) w w₂ where
  sound := h₂.sound
  later := h₁.later.trans h₂.later
  lines := h₂.lines.trans h₁.lines
  tables := h₂.tables.trans h₁.tables
  others u hu := (h₁.others u hu).trans (h₂.others u hu)
  content := by rw [h₂.content, h₁.content]

theorem CleanStep.of_graph {F : Content → Content} {g : Graph} (h : w.Sound)
    (hkeeps : w'.store.Intact ∧ w.supply.Later w'.supply) (hgraph : w'.graph = g)
    (hcoherent : g.Coherent) (huses : g.Uses w'.supply.Drawn) (hlines : g.lines = w.graph.lines)
    (hothers : ∀ r, r ≠ id → w.graph.SameView g r) (hcontent : g.content id = F (w.graph.content id))
    (hstrays : ∀ {v}, g.tables.Stray v → w.graph.tables.Stray v) : CleanStep id F w w' where
  toDraftStep := .of_graph h hkeeps hgraph hcoherent huses hlines hothers hcontent
  strays := by rwa [hgraph]

theorem CleanStep.refl (h : w.Sound) (id : RevisionId) : CleanStep id (fun c => c) w w where
  sound := h
  later := .refl _
  lines := rfl
  others r _ := .refl _ r
  content := rfl
  strays hv := hv

theorem CleanStep.trans {F G : Content → Content} (h₁ : CleanStep id F w w₁)
    (h₂ : CleanStep id G w₁ w₂) : CleanStep id (fun c => G (F c)) w w₂ where
  sound := h₂.sound
  later := h₁.later.trans h₂.later
  lines := h₂.lines.trans h₁.lines
  others r hr := (h₁.others r hr).trans (h₂.others r hr)
  content := by rw [h₂.content, h₁.content]
  strays hv := h₁.strays (h₂.strays hv)

/-- A table of a draft that may be changed is shown by no other revision. -/
theorem Graph.Coherent.not_shown_elsewhere {g : Graph} (h : g.Coherent)
    (hnamed : g.NamesTable id name table) (hmutable : table.readonly = false) {r : RevisionId}
    (hr : r ≠ id) : ¬g.tables.Linked r table.version := by
  intro hshown
  refine hr (h.ownedTables.unique hshown hnamed.shown fun hpublished => ?_)
  have hreadonly := (Layer.published_iff hnamed.stored).mp hpublished
  exact Bool.false_ne_true (hmutable.symm.trans hreadonly)

/-- Among the tables of a revision, a name stands for one. -/
theorem Graph.Coherent.named_iff {g : Graph} (h : g.Coherent) (hnamed : g.NamesTable id name table)
    {v : VersionId} {other : TableVersion} (hshown : g.tables.Linked id v)
    (hstored : g.tables.record? v = some other) :
    other.name.matches name = true ↔ v = table.version := by
  refine ⟨?_, ?_⟩
  · intro hother
    refine h.tableNames hshown hnamed.shown hstored hnamed.stored ?_
    exact (beq_iff_eq.mp hother).trans (beq_iff_eq.mp hnamed.named).symm
  · rintro rfl
    rw [hnamed.stored] at hstored
    cases hstored
    exact hnamed.named

/-- Changing the rows of a draft's own table is a step of the draft. -/
theorem RowStep.cleanStep {F : Set RowContent → Set RowContent} (h : w.Sound)
    (hstep : RowStep table.version F w w') (hnamed : w.graph.NamesTable id name table)
    (hmutable : table.readonly = false) : CleanStep id (·.modifyRows name F) w w' where
  sound := hstep.sound
  later := hstep.later
  lines := hstep.lines
  -- No other revision shows the table, since it may be changed.
  others r hr :=
    { shows := fun v => by rw [hstep.tables]
      table := fun v hv => hstep.others v fun heq =>
        h.coherent.not_shown_elsewhere hnamed hmutable hr (heq ▸ hv) }
  content := by
    refine Graph.content_modify (fun v => by rw [hstep.tables])
      (h.coherent.named_iff hnamed) ?_ fun v hv _ => (hstep.others v hv).tableContent_eq
    rw [Graph.tableContent, Graph.tableContent, hstep.tables, hstep.content, Option.map_map]
    rfl
  strays hv := by rwa [hstep.tables] at hv

/-! ## Marking a draft -/

/-- What a command on a draft does: a step of the draft, and then a mark on its record. -/
structure DraftEdit (draft : Revision) (F : Content → Content) (w w' : Workspace) : Prop where
  sound : w'.Sound
  later : w.supply.Later w'.supply
  lines : ∃ flag, w'.graph.lines = w.graph.lines.mark draft flag
  others : ∀ r, r ≠ draft.id → w.graph.SameView w'.graph r
  content : w'.graph.content draft.id = F (w.graph.content draft.id)

/-- What a command on a draft does that leaves no table version behind. -/
structure CleanEdit (draft : Revision) (F : Content → Content) (w w' : Workspace) : Prop
    extends DraftEdit draft F w w' where
  strays : ∀ {v}, w'.graph.tables.Stray v → w.graph.tables.Stray v

variable {draft : Revision} {F : Content → Content}

/-- A step of a draft makes a command, with a mark that does not change anything. -/
theorem CleanStep.unmarked (h : CleanStep draft.id F w w') (hdraft : w.graph.lines.Drafts draft) :
    CleanEdit draft F w w' where
  sound := h.sound
  later := h.later
  lines := ⟨draft.hasChanges, by rw [h.lines, Lines.mark_self hdraft.stored rfl]⟩
  others := h.others
  content := h.content
  strays := h.strays

/-- A step of a draft makes a command, with a mark after it. -/
theorem DraftStep.marked (h : DraftStep draft.id F w w₁) (hdraft : w.graph.lines.Drafts draft)
    {flag : Bool} (hkeeps : w₂.store.Intact ∧ w₁.supply.Later w₂.supply)
    (hgraph : w₂.graph = w₁.graph.withLines (w₁.graph.lines.mark draft flag)) :
    DraftEdit draft F w w₂ := by
  have hstored : w₁.graph.lines.revision? draft.id = some draft := by
    rw [h.lines]
    exact hdraft.stored
  have hsound : w₂.Sound :=
    h.sound.after hkeeps hgraph (h.sound.coherent.mark h.sound.intact.closed hstored)
      ((h.sound.uses.mono hkeeps.2.drawn_of).mark hstored)
  have hview (r : RevisionId) : w₁.graph.SameView w₂.graph r := by
    rw [hgraph]
    exact Graph.sameView_lines _ r
  exact {
    sound := hsound
    later := h.later.trans hkeeps.2
    lines := ⟨flag, by rw [hgraph, Graph.withLines_lines, h.lines]⟩
    others := fun r hr => (h.others r hr).trans (hview r)
    content := (hview draft.id).content_eq.trans h.content }

theorem CleanStep.marked (h : CleanStep draft.id F w w₁) (hdraft : w.graph.lines.Drafts draft)
    {flag : Bool} (hkeeps : w₂.store.Intact ∧ w₁.supply.Later w₂.supply)
    (hgraph : w₂.graph = w₁.graph.withLines (w₁.graph.lines.mark draft flag)) :
    CleanEdit draft F w w₂ where
  toDraftEdit := h.toDraftStep.marked hdraft hkeeps hgraph
  strays hv := h.strays (by rwa [hgraph] at hv)

/-- The mark of a draft that is stored. -/
def Lines.HasMark (l : Lines) (draft : Revision) (flag : Bool) : Prop :=
  l.revision? draft.id = some { draft with hasChanges := flag }

/-- The mark of a draft says whether it differs from its parent. -/
structure Compared (draft : Revision) (flag : Bool) (w' : Workspace) : Prop where
  stored : w'.graph.lines.HasMark draft flag
  differs : flag = true ↔ w'.graph.Differs draft

/-- The mark of a draft stays as it is, and so does what a comparison with its parent looks at. -/
structure Kept (draft : Revision) (w w' : Workspace) : Prop where
  stored : w'.graph.lines.HasMark draft draft.hasChanges
  outline : w'.graph.outline draft.id = w.graph.outline draft.id

/-- The mark of a draft after a batch: only one that is empty leaves it as it is. -/
def Batched {ι : Type} : List ι → Revision → Workspace → Workspace → Prop
  | [], draft, w, w' => Kept draft w w'
  | _ :: _, draft, _, w' => Compared draft true w'

/-- The mark of a draft after a table was renamed. It is set, and rightly so, except that the new
name may be the one that the table has below the draft. -/
structure RenameMarked (name next : String) (draft : Revision) (w w' : Workspace) : Prop where
  stored : w'.graph.lines.HasMark draft true
  differs : w'.graph.Differs draft ∨ w.graph.RenamesBack draft name next

/-- A step of a draft does not touch its parent. -/
theorem DraftStep.baseline_eq (h : DraftStep draft.id F w w') (hw : w.Sound)
    (hdraft : w.graph.lines.Drafts draft) : w'.graph.baseline draft = w.graph.baseline draft := by
  obtain ⟨head, hline, -⟩ := hw.coherent.baseline_eq hdraft
  rw [Graph.baseline, Graph.baseline, hline.parent, Option.elim_some, Option.elim_some]
  exact (h.others head.id hline.head_ne_draft).outline_eq

/-- With a table that it does not have like that below it, a draft differs from its parent. -/
theorem DraftStep.differs_or_mem (h : DraftStep draft.id F w w') (hw : w.Sound)
    (hdraft : w.graph.lines.Drafts draft) {o : TableOutline} (hmem : o ∈ w'.graph.outline draft.id) :
    w'.graph.Differs draft ∨ o ∈ w.graph.baseline draft := by
  by_cases hbelow : o ∈ w'.graph.baseline draft
  · rw [h.baseline_eq hw hdraft] at hbelow
    exact .inr hbelow
  · exact .inl (Graph.differs_of_mem hmem hbelow)

theorem DraftStep.drafts (h : DraftStep id F w w') (hdraft : w.graph.lines.Drafts draft) :
    w'.graph.lines.Drafts draft := by
  rwa [h.lines]

namespace Edit

/-- Marking a draft as changed finishes a command that adds something. -/
theorem markChanged_edit (h : CleanStep draft.id F w w₁) (hdraft : w.graph.lines.Drafts draft) :
    (markChanged draft).Yields w₁ fun _ w₂ => CleanEdit draft F w w₂ ∧
      w₂.graph.lines.HasMark draft true ∧ (w₂.graph.Differs draft ↔ w₁.graph.Differs draft) := by
  have hstored : w₁.store.revision? draft.id = some draft := (h.drafts hdraft).stored
  refine ((Makes.markChanged (.everything draft)).journaled.keeps h.sound.intact (markChanged_yields hstored)).imp ?_
  rintro - w₂ ⟨hkeeps, hgraph, -⟩
  refine ⟨h.marked hdraft hkeeps hgraph, ?_, ?_⟩
  · rw [hgraph]
    exact if_pos rfl
  · rw [hgraph, Graph.differs_withLines]

/-- Comparing a draft with its parent finishes a command that takes something away. -/
theorem refreshHasChanges_edit (h : CleanStep draft.id F w w₁) (hdraft : w.graph.lines.Drafts draft) :
    (refreshHasChanges draft.id).Yields w₁ fun flag w₂ =>
      CleanEdit draft F w w₂ ∧ Compared draft flag w₂ := by
  have hstored : w₁.store.revision? draft.id = some draft := (h.drafts hdraft).stored
  refine ((Makes.refreshHasChanges draft.id).journaled.keeps h.sound.intact
    (refreshHasChanges_yields rfl hstored)).imp ?_
  rintro flag w₂ ⟨hkeeps, hflag, hgraph, -⟩
  refine ⟨h.marked hdraft hkeeps hgraph, ?_, ?_⟩
  · rw [hgraph]
    exact if_pos rfl
  · rw [hgraph, Graph.differs_withLines, hflag]
    exact h.sound.differsFromParent_iff

end Edit

/-! ## Versions that may be changed -/

/-- A version of a table that a draft may change, in the place of the version it showed before. -/
structure DraftTable.Replaces (target : DraftTable) (id : RevisionId) (name : String)
    (table : TableVersion) (w w' : Workspace) : Prop where
  named : w'.graph.NamesTable id name target.table
  mutable : target.table.readonly = false
  previous : target.previous = table.version
  name_eq : target.table.name = table.name
  system_eq : target.table.system = table.system
  entity_eq : target.table.entity = table.entity
  rows : w'.graph.rowsIn target.table.version = w.graph.rowsIn table.version
  outline : w'.graph.outline id = w.graph.outline id

theorem DraftTable.Replaces.not_published {target : DraftTable}
    (h : target.Replaces id name table w w') : ¬w'.graph.tables.Published target.table.version := by
  rw [Layer.published_iff h.named.stored]
  exact Bool.eq_false_iff.mp h.mutable

/-- A version of a row that a table version may change, in the place of the version it held before.
-/
structure DraftRow.Replaces (target : DraftRow) (v : VersionId) (name : String) (row : RowVersion)
    (w' : Workspace) : Prop where
  named : w'.graph.NamesRow v name target.row
  mutable : target.row.readonly = false
  previous : target.previous = row.version
  entity_eq : target.row.entity = row.entity
  content : target.row.content = row.content

namespace Edit

/-- Getting hold of a table changes no content. -/
theorem draftTable_step (h : w.Sound) (hopen : ¬w.graph.lines.Published id)
    (hnamed : w.graph.NamesTable id name table) :
    (draftTable id name).Yields w fun target w' =>
      CleanStep id (fun c => c) w w' ∧ target.Replaces id name table w w' := by
  refine ((Makes.draftTable id name).journaled.keeps h.intact
    (draftTable_yields h.openable hnamed)).imp ?_
  rintro ⟨_, previous, isCopy⟩ w' ⟨hkeeps, hprevious, ⟨hmutable, rfl, rfl⟩ |
    ⟨hreadonly, version, time, rfl, hbetween, hgraph⟩⟩
  · exact ⟨.refl h id, hnamed, hmutable, hprevious, rfl, rfl, rfl, rfl, rfl⟩
  · have hclosed := h.intact.closed
    have hnew : w.graph.tables.record? version = none := h.table?_eq_none hbetween.1
    refine ⟨.of_graph h hkeeps hgraph ?_ ?_ rfl (fun r hr => ?_) ?_ fun hv => ?_,
      ?_, rfl, hprevious, rfl, rfl, rfl, ?_, ?_⟩
    · exact h.coherent.placeCopy hclosed hopen hnew hnamed.shown hnamed.stored hreadonly
    · have hentity := (h.uses.tables hnamed.stored).2
      exact (h.uses.mono hkeeps.2.drawn_of).placeTable hbetween.2 (hkeeps.2.drawn_of hentity)
    · exact Graph.sameView_placeTable hclosed hnew hr
    · exact Graph.content_placeTable_some hclosed hnew hnamed.shown hnamed.stored rfl rfl rfl
    · refine h.coherent.stray_of_placeTable hopen ?_ hv
      rintro o ⟨⟩
      exact ⟨table, hnamed.stored, hreadonly⟩
    · rw [hgraph]
      exact hnamed.placeCopy
    · rw [hgraph]
      exact Graph.rowsIn_placeTable_some
    · rw [hgraph]
      exact Graph.outline_placeTable_some hclosed hnew hnamed.shown hnamed.stored rfl rfl rfl

/-- Getting hold of a row changes no content, and no row that could be changed before. -/
theorem draftRow_step (h : w.Sound) (hopen : ¬w.graph.tables.Published table.version)
    (htable : table.readonly = false) (hnamed : w.graph.NamesRow table.version name row) :
    (draftRow table name).Yields w fun target w' =>
      RowStep table.version (fun rows => rows) w w' ∧
        target.Replaces table.version name row w' ∧
        ∀ {name' other}, other.readonly = false → w.graph.NamesRow table.version name' other →
          w'.graph.NamesRow table.version name' other := by
  refine ((Makes.draftRow table name).journaled.keeps h.intact
    (draftRow_yields h.openable htable hnamed)).imp ?_
  rintro ⟨_, previous, isCopy⟩ w' ⟨hkeeps, hprevious, ⟨hmutable, rfl, rfl⟩ |
    ⟨hreadonly, version, time, rfl, hbetween, hgraph⟩⟩
  · exact ⟨.refl h _, ⟨hnamed, hmutable, hprevious, rfl, rfl⟩, fun _ hother => hother⟩
  · have hclosed := h.intact.closed
    have hnew : w.graph.rows.record? version = none := h.row?_eq_none hbetween.1
    refine ⟨.of_graph h hkeeps hgraph ?_ ?_ rfl rfl (fun u hu => ?_) ?_,
      ⟨?_, rfl, hprevious, rfl, rfl⟩, ?_⟩
    · exact h.coherent.placeRowCopy hclosed hopen hnew hnamed.held hnamed.stored hreadonly
    · have hentity := (h.uses.rows hnamed.stored).2
      exact (h.uses.mono hkeeps.2.drawn_of).placeRow hbetween.2 (hkeeps.2.drawn_of hentity)
    · exact Graph.sameTable_placeRow hclosed hnew hu
    · exact Graph.rowsIn_placeRow_some hclosed hnew hnamed.held hnamed.stored rfl
    · rw [hgraph]
      exact hnamed.placeRowCopy
    · intro name' other hother hnamed'
      have hversion : other.version ≠ version := by
        intro heq
        cases hnew.symm.trans (heq ▸ hnamed'.stored)
      -- The version whose place was taken is published, and this one is not.
      have hrow : row.version ≠ other.version := by
        intro heq
        have hsame := hnamed.stored
        rw [heq, hnamed'.stored] at hsame
        cases hsame
        exact Bool.false_ne_true (hother.symm.trans hreadonly)
      rw [hgraph]
      refine ⟨?_, ?_, hnamed'.text_eq⟩
      · refine Layer.linked_place.mpr ?_
        rw [if_pos rfl]
        exact .inr ⟨hnamed'.held, fun heq => hrow (Option.some.inj heq)⟩
      · exact (Layer.record?_place_of_ne hversion).trans hnamed'.stored

end Edit

end VersionedTables
