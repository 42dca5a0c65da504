import VersionedTables.Proofs.Edit.Garbage
import VersionedTables.Proofs.Edit.Vetting

/-!
# Commands on the tables of a draft

For each command there are two lemmas: what it vets its request for
(`Edit.createTable_vets` and its companions), and that a request like that does go through, with
what it then does (`Edit.createTable_edit` and its companions). Both are said by contents, so they
are what a naive model can be compared with.
-/

namespace VersionedTables

variable {w : Workspace} {id : RevisionId} {draft : Revision} {table current : TableVersion}
  {name next : String} {system : Bool}

/-- What the first check of every command on a draft asks for. -/
theorem Edit.drafts_of_requireDraft (h : w.store.Intact) {revision : Revision}
    (hid : w.store.revision? id = some revision) (hflag : revision.isDraft = true) :
    w.graph.lines.Drafts revision ∧ revision.id = id := by
  obtain rfl := h.id_eq hid
  exact ⟨⟨hid, hflag⟩, rfl⟩

/-- A name is read as it is, if it can be read. -/
theorem TableName.parse_eq_ok {name : TableName} {text : String} :
    TableName.parse text = .ok name ↔ (TableName.parse text).isOk = true ∧ name = ⟨text⟩ := by
  rw [TableName.parse]
  rcases checkIdentifier text with fault | _
  · simp [bind, Except.bind, Except.isOk, Except.toBool]
  · simp [bind, Except.bind, Except.isOk, Except.toBool, pure, Except.pure, eq_comm]

/-- What owns nothing before has nothing to let go of. -/
theorem Layer.inherit_none {α ν : Type} [DecidableEq α] {L : Layer α ν} {a : α}
    (h : ∀ v, ¬L.Linked a v) : L.inherit a none = L := by
  refine ext_iff_linked (fun _ => rfl) fun b v => ?_
  rw [linked_inherit]
  split
  · next hb => simp [hb, h v]
  · rfl

/-- A table version that is new has no rows to take over. -/
theorem Graph.placeTable_none {g : Graph} (h : ∀ u, ¬g.rows.Linked table.version u) :
    g.placeTable id none table =
      g.withTables ((g.tables.put table.version table).link id table.version true) := by
  rw [Graph.placeTable, Layer.inherit_none h, Layer.place_none]
  rfl

/-- Letting go of a published table removes a link. -/
theorem Graph.removeTable_of_published {g : Graph} {v : VersionId} (h : g.tables.Published v) :
    g.removeTable id v = g.withTables (g.tables.link id v false) := by
  refine Graph.ext rfl ?_ ?_
  · rw [Graph.withTables_tables, Layer.link_false]
    exact Layer.prune_congr (fun _ => Iff.rfl) fun _ => by simp [h]
  · rw [Graph.withTables_rows, ← Layer.prune_nothing (L := g.rows)]
    exact Layer.prune_congr (fun _ => by simp [h]) fun _ => by simp [h]

/-- Letting go of another table drops it and lets go of its rows. -/
theorem Graph.removeTable_of_open {g : Graph} {v : VersionId} (h : ¬g.tables.Published v) :
    g.removeTable id v =
      (g.withTables ((g.tables.link id v false).prune (fun _ _ => True) (· = v))).withRows
        (g.rows.prune (fun b _ => b ≠ v) (g.rows.Linked v)) := by
  refine Graph.ext rfl ?_ ?_
  · rw [Graph.withRows_tables, Graph.withTables_tables, Layer.link_false, Layer.prune_prune]
    exact Layer.prune_congr (fun _ => Iff.rfl) fun _ => by simp [h]
  · exact Layer.prune_congr (fun _ => by simp [h]) fun _ => by simp [h]

/-! ## Steps -/

namespace CleanStep

variable {w' : Workspace}

/-- A new table in a draft. -/
theorem placeTable (h : w.Sound) (hopen : ¬w.graph.lines.Published id)
    (hkeeps : w'.store.Intact ∧ w.supply.Later w'.supply)
    (hgraph : w'.graph = w.graph.placeTable id none table) (hmutable : table.readonly = false)
    (hversion : w.supply.Between w'.supply table.version.text)
    (hentity : w.supply.Between w'.supply table.entity.text)
    (hidentifier : IsIdentifier table.name.text)
    (hname : ∀ c ∈ w.graph.content id, c.name.matches table.name.text = false) :
    CleanStep id (·.createTable table.name table.system table.entity) w w' := by
  have hclosed := h.intact.closed
  have hnew : w.graph.tables.record? table.version = none := h.table?_eq_none hversion.1
  refine .of_graph h hkeeps hgraph ?_ ?_ rfl (fun r hr => ?_) ?_ fun hv => ?_
  · refine h.coherent.placeTable hclosed hopen hmutable hnew (fun _ hold => by cases hold) ?_ ?_ hidentifier
      fun hother hsame => absurd hsame (h.table_entity_ne hentity.1 hother)
    · exact fun _ _ hother => h.table_entity_ne hentity.1 hother
    · intro u other hshown _ hother hkey
      obtain rfl := hclosed.table_eq hother
      have hmem := (Graph.mem_content hclosed).mpr ⟨other, hshown, hother, rfl⟩
      exact Bool.false_ne_true ((hname _ hmem).symm.trans (beq_iff_eq.mpr hkey))
  · exact (h.uses.mono hkeeps.2.drawn_of).placeTable hversion.2 hentity.2
  · exact Graph.sameView_placeTable hclosed hnew hr
  · exact Graph.content_placeTable_none hclosed hnew
  · exact h.coherent.stray_of_placeTable hopen (fun _ hold => by cases hold) hv

/-- Another name for a table of a draft that may be changed. -/
theorem putTable (h : w.Sound) (hkeeps : w'.store.Intact ∧ w.supply.Later w'.supply)
    (hnamed : w.graph.NamesTable id name current) (hmutable : current.readonly = false)
    {now : Instant}
    (hgraph : w'.graph = w.graph.putTable { current with name := ⟨next⟩, updatedAt := now })
    (hidentifier : IsIdentifier next)
    (hname : ∀ c ∈ w.graph.content id, c.name.matches next = true → c.entity = current.entity) :
    CleanStep id (·.renameTable name ⟨next⟩) w w' := by
  have hclosed := h.intact.closed
  have honly {r : RevisionId} (hr : w.graph.tables.Linked r current.version) : r = id :=
    not_not.mp fun hne => h.coherent.not_shown_elsewhere hnamed hmutable hne hr
  refine .of_graph h hkeeps hgraph ?_ ?_ rfl (fun r hr => ⟨fun _ => Iff.rfl, fun v hv => ?_⟩) ?_
    fun hv => ?_
  · refine h.coherent.putTable hnamed.stored rfl rfl rfl hidentifier ?_
    intro r u other hcurrent hshown hne hother hkey
    obtain rfl := honly hcurrent
    obtain rfl := hclosed.table_eq hother
    have hmem := (Graph.mem_content hclosed).mpr ⟨other, hshown, hother, rfl⟩
    have hentity := hname _ hmem (beq_iff_eq.mpr hkey)
    exact hne (h.coherent.tableEntities hshown hnamed.shown hother hnamed.stored hentity)
  · exact (h.uses.mono hkeeps.2.drawn_of).putTable hnamed.stored rfl
  · refine Graph.sameTable_putTable ?_
    rintro rfl
    exact hr (honly hv)
  · refine Graph.content_modify (fun _ => Iff.rfl) (h.coherent.named_iff hnamed) ?_ ?_
    · exact Graph.tableContent_putTable hnamed.stored rfl rfl
    · intro v hv _
      refine Graph.SameTable.tableContent_eq ?_
      exact Graph.sameTable_putTable hv
  · exact hv.of_put ⟨current, hnamed.stored⟩

/-- A table that is not there any more. -/
theorem removeTable (h : w.Sound) (hopen : ¬w.graph.lines.Published id)
    (hkeeps : w'.store.Intact ∧ w.supply.Later w'.supply)
    (hnamed : w.graph.NamesTable id name current)
    (hgraph : w'.graph = w.graph.removeTable id current.version) :
    CleanStep id (·.removeTable name) w w' := by
  refine .of_graph h hkeeps hgraph ?_ ?_ rfl (fun r hr => ?_) ?_ fun hv => ?_
  · exact h.coherent.removeTable hopen
  · exact (h.uses.mono hkeeps.2.drawn_of).removeTable
  · exact Graph.sameView_removeTable h.coherent hnamed.shown hr
  · exact Graph.content_removeTable h.coherent hnamed
  · exact h.coherent.stray_of_removeTable hopen hv

end CleanStep

namespace Edit

/-! ## Creating -/

theorem createTable_vets (h : w.Sound) :
    (createTable id name system).Vets w (∃ draft, w.graph.lines.Drafts draft ∧ draft.id = id ∧
      (w.graph.content id).CanCreateTable name) := by
  simp only [createTable, vets_requireDraft, vets_parseName, vets_store]
  intro draft hid hflag parsed hparse
  obtain ⟨hdraft, rfl⟩ := drafts_of_requireDraft h.intact hid hflag
  obtain ⟨hok, rfl⟩ := TableName.parse_eq_ok.mp hparse
  split
  · exact vets_bind_of_error rfl rfl
  next hnone =>
  refine .inr ⟨draft, hdraft, rfl, hok, fun c hc => Bool.eq_false_iff.mpr fun hname => ?_⟩
  obtain ⟨table, hnamed⟩ := (Graph.canRemoveTable_iff h.intact.closed).mp ⟨c, hc, hname⟩
  exact hnone (Option.isSome_iff_exists.mpr ⟨table, h.findTable_eq_some.mpr hnamed⟩)

/-- A table is created, new in every respect. -/
theorem createTable_edit (h : w.Sound) (hdraft : w.graph.lines.Drafts draft)
    (hcan : (w.graph.content draft.id).CanCreateTable name) :
    (createTable draft.id name system).Yields w fun result w' =>
      CleanEdit draft (·.createTable ⟨name⟩ system result.entity) w w' ∧
        Compared draft true w' := by
  have hclosed := h.intact.closed
  have hnone : w.store.findTable draft.id name = none := by
    rw [Option.eq_none_iff_forall_ne_some]
    intro table htable
    obtain ⟨c, hc, hname⟩ := (Graph.canRemoveTable_iff hclosed).mpr
      ⟨table, h.findTable_eq_some.mp htable⟩
    exact Bool.false_ne_true ((hcan.2 c hc).symm.trans hname)
  simp only [createTable, yields_bind, yields_requireDraft, yields_parseName, yields_store,
    yields_ite, not_yields_throw, yields_pure]
  refine ⟨draft, hdraft.stored, hdraft.isDraft, ⟨name⟩, TableName.parse_eq_ok.mpr ⟨hcan.1, rfl⟩, ?_⟩
  rw [if_neg (by simp [hnone])]
  refine (freshId_draws h.distinct).imp ?_
  rintro entity w₁ ⟨hstore₁, hlater₁, hentity⟩
  refine record_draws (hlater₁.distinct h.distinct) ?_
  intro version time w₂ hstore₂ hlater₂ hversion
  have hstore : w₂.store = w.store := hstore₂.trans hstore₁
  have hgraph₂ : w₂.graph = w.graph := congrArg Store.graph hstore
  have hnew : w.store.table? version = none :=
    h.table?_eq_none (hversion.earlier hlater₁).1
  refine ((Journaled.write (.createTable _)).keeps (hstore ▸ h.intact)
    (createTable_yields (by rw [hstore]; exact hnew))).imp ?_
  rintro - w₃ ⟨hkeeps₃, hgraph₃, -⟩
  rw [hgraph₂] at hgraph₃
  refine ((Journaled.write (.connectTable _ _)).keeps hkeeps₃.1
    (connectTable_yields ?_ ?_)).imp ?_
  · rw [Workspace.revision?_eq, hgraph₃]
    exact ⟨draft, hdraft.stored⟩
  · rw [Workspace.table?_eq, hgraph₃]
    exact ⟨_, if_pos rfl⟩
  rintro - w₄ ⟨hkeeps₄, hgraph₄, -⟩
  have hlater : w₂.supply.Later w₄.supply := hkeeps₃.2.trans hkeeps₄.2
  have hgraph : w₄.graph = w.graph.placeTable draft.id none
      (.new ⟨name⟩ system entity version time) := by
    have hunheld : ∀ u, ¬w.graph.rows.Linked version u := hclosed.not_holder hnew
    rw [hgraph₄, hgraph₃, Graph.placeTable_none hunheld]
    rfl
  have hstep : CleanStep draft.id (·.createTable ⟨name⟩ system entity) w w₄ :=
    .placeTable h hdraft.not_published ⟨hkeeps₄.1, hlater₁.trans (hlater₂.trans hlater)⟩ hgraph rfl
      ((hversion.earlier hlater₁).later hlater) (hentity.later (hlater₂.trans hlater))
      (TableName.isOk_parse.mp hcan.1) hcan.2
  have hdiffers : w₄.graph.Differs draft := by
    have hshown : w₄.graph.tables.Linked draft.id version := by
      rw [hgraph, Graph.placeTable, Layer.linked_place, if_pos rfl]
      exact .inl rfl
    have hstored : w₄.graph.tables.record? version =
        some (.new ⟨name⟩ system entity version time) := by
      rw [hgraph]
      exact if_pos rfl
    refine (hstep.differs_or_mem h hdraft (Graph.mem_outline_of_shown hshown hstored)).resolve_right
      fun hbelow => ?_
    -- The table is new, and what is below the draft is not.
    obtain ⟨table, htable, hsame⟩ := Graph.exists_of_mem_baseline hclosed hbelow
    exact h.table_entity_ne hentity.1 htable hsame
  refine (markChanged_edit hstep hdraft).imp ?_
  rintro - w₅ ⟨hedit, hmark, hsame⟩
  exact ⟨hedit, hmark, iff_of_true rfl (hsame.mpr hdiffers)⟩

/-! ## Renaming -/

theorem renameTable_vets (h : w.Sound) :
    (renameTable id name next).Vets w (∃ draft, w.graph.lines.Drafts draft ∧ draft.id = id ∧
      (w.graph.content id).CanRenameTable name next) := by
  simp only [renameTable, vets_requireDraft, vets_parseName, vets_requireTable]
  intro draft hid hflag parsed hparse current hcurrent
  obtain ⟨hdraft, rfl⟩ := drafts_of_requireDraft h.intact hid hflag
  obtain ⟨hok, rfl⟩ := TableName.parse_eq_ok.mp hparse
  have hnamed := h.findTable_eq_some.mp hcurrent
  have hclosed := h.intact.closed
  split
  · exact vets_bind_of_error rfl rfl
  next hkept =>
  have hcan (hfree : ∀ other, w.store.findTable draft.id next = some other →
      other.entity = current.entity) : (w.graph.content draft.id).CanRenameTable name next := by
    refine ⟨hok, _, (Graph.mem_content hclosed).mpr ⟨current, hnamed.shown, hnamed.stored, rfl⟩,
      hnamed.named, fun htext => hkept (congrArg TableName.mk htext), fun c hc hname => ?_⟩
    obtain ⟨other, hshown, hstored, rfl⟩ := (Graph.mem_content hclosed).mp hc
    have hentity := hfree other (h.findTable_eq_some.mpr ⟨hshown, hstored, hname⟩)
    have hversion := h.coherent.tableEntities hshown hnamed.shown hstored hnamed.stored hentity
    rw [hversion] at hstored
    cases hstored.symm.trans hnamed.stored
    rfl
  rw [vets_store]
  split
  · next other hother =>
    split
    · exact vets_bind_of_error rfl rfl
    · next hsame =>
      refine .inr ⟨draft, hdraft, rfl, hcan fun other' hother' => ?_⟩
      obtain rfl := Option.some.inj (hother.symm.trans hother')
      exact not_not.mp hsame
  · next hnone =>
    exact .inr ⟨draft, hdraft, rfl, hcan fun other hother => by cases hnone.symm.trans hother⟩

/-- A table is renamed in place, or as a copy in the place of the published version. -/
theorem renameTable_edit (h : w.Sound) (hdraft : w.graph.lines.Drafts draft)
    (hcan : (w.graph.content draft.id).CanRenameTable name next) :
    (renameTable draft.id name next).Yields w fun _ w' =>
      CleanEdit draft (·.renameTable name ⟨next⟩) w w' ∧
        RenameMarked name next draft w w' := by
  have hclosed := h.intact.closed
  obtain ⟨hok, c, hc, hname, hkept, hfree⟩ := hcan
  obtain ⟨current, hshown, hstored, rfl⟩ := (Graph.mem_content hclosed).mp hc
  have hnamed : w.graph.NamesTable draft.id name current := ⟨hshown, hstored, hname⟩
  simp only [renameTable, yields_bind, yields_requireDraft, yields_parseName, yields_requireTable,
    yields_store, yields_ite, not_yields_throw]
  refine ⟨draft, hdraft.stored, hdraft.isDraft, ⟨next⟩, TableName.parse_eq_ok.mpr ⟨hok, rfl⟩,
    current, h.findTable_eq_some.mpr hnamed, ?_⟩
  rw [if_neg fun heq => hkept (congrArg TableName.text heq)]
  have hpass {other : TableVersion} (hother : w.store.findTable draft.id next = some other) :
      ¬other.entity ≠ current.entity := by
    have hnamed' := h.findTable_eq_some.mp hother
    have hmem := (Graph.mem_content hclosed).mpr ⟨other, hnamed'.shown, hnamed'.stored, rfl⟩
    exact not_not.mpr (congrArg TableContent.entity (hfree _ hmem hnamed'.named))
  -- Whether the new name is free or the table's own, what follows is the same.
  split
  case' h_1 other hother => rw [if_neg (hpass hother)]
  all_goals
    refine yields_bind.mpr ((draftTable_step h hdraft.not_published hnamed).imp ?_)
    rintro target w₁ ⟨hstep, hreplaces⟩
    refine yields_bind.mpr (now_draws.imp ?_)
    rintro time w₂ ⟨hstore₂, hlater₂⟩
    have hgraph₂ : w₂.graph = w₁.graph := by rw [Workspace.graph, hstore₂]
    have hstored₂ : w₂.store.table? target.table.version = some target.table := by
      rw [hstore₂]
      exact hreplaces.named.stored
    refine yields_bind.mpr (((Journaled.write (.updateTable _)).keeps
      (hstore₂ ▸ hstep.sound.intact) (updateTable_yields ?_)).imp ?_)
    · exact ⟨_, hstored₂⟩
    rintro - w₃ ⟨hkeeps, hgraph₃, -⟩
    have hfree₁ : ∀ c ∈ w₁.graph.content draft.id,
        c.name.matches next = true → c.entity = target.table.entity := by
      intro c hmem hmatches
      rw [hstep.content] at hmem
      rw [hfree c hmem hmatches, hreplaces.entity_eq]
    rw [hgraph₂] at hgraph₃
    have hput := CleanStep.putTable hstep.sound ⟨hkeeps.1, hlater₂.trans hkeeps.2⟩
      hreplaces.named hreplaces.mutable hgraph₃ (TableName.isOk_parse.mp hok) hfree₁
    have hrename := hstep.trans hput
    have hshown : w₃.graph.tables.Linked draft.id target.table.version := by
      rw [hgraph₃]
      exact hreplaces.named.shown
    have hrecord : w₃.graph.tables.record? target.table.version =
        some { target.table with name := ⟨next⟩, updatedAt := time } := by
      rw [hgraph₃]
      exact if_pos rfl
    refine yields_bind.mpr ((markChanged_edit hrename hdraft).imp ?_)
    rintro - w₄ ⟨hedit, hmark, hsame⟩
    refine yields_pure.mpr ⟨hedit, hmark, ?_⟩
    rw [hsame]
    exact (hrename.differs_or_mem h hdraft (Graph.mem_outline_of_shown hshown hrecord)).imp_right
      fun hbelow => ⟨current, hnamed, _, hbelow, hreplaces.entity_eq, rfl⟩

/-! ## Removing -/

/-- A table version that no revision shows is deleted with the rows that only it held, and these are
given back. -/
theorem deleteTableWithRows_yields {v : VersionId} (h : w.store.Intact)
    (hstored : ∃ table, w.store.table? v = some table) (hunshown : ∀ id, ¬w.store.Shows id v) :
    (deleteTableWithRows v).Yields w fun deleted w' => w'.graph = (w.graph.withTables
        (w.graph.tables.prune (fun _ _ => True) (· = v))).withRows
        (w.graph.rows.prune (fun b _ => b ≠ v) (w.graph.rows.Linked v)) ∧
          w'.supply = w.supply ∧ deleted.Nodup ∧
            ∀ u, u ∈ deleted ↔
              w.graph.rows.Linked v u ∧ ∀ b, w.graph.rows.Linked b u → b = v := by
  simp only [deleteTableWithRows, yields_bind, yields_store]
  refine ((Journaled.take (.deleteTable _) fun _ => rfl).keeps h
    (deleteTable_yields h hstored hunshown)).imp ?_
  rintro - w₁ ⟨hkeeps, hgraph, hsupply⟩
  rw [h.versions_rowsOf]
  have hnodup := Links.nodup_targets w.store.tableRows v
  refine (filterM_yields_sublist
    (deleteRowsIfUnheld_yields hkeeps.1 hnodup fun u hu => ?_)).imp ?_
  · rw [Workspace.row?_eq, hgraph, Graph.withRows_rows, Layer.record?_prune_of_not id]
    exact h.closed.held (Links.mem_targets.mp hu)
  · rintro deleted w₂ ⟨hsublist, hgraph', hsupply', hdeleted⟩
    refine ⟨?_, hsupply'.trans hsupply, hsublist.nodup hnodup, fun u => ?_⟩
    · rw [hgraph', hgraph, Graph.withRows_withRows, Graph.withRows_rows, Layer.prune_prune]
      simp only [false_or, Links.mem_targets]
      rfl
    · rw [hdeleted, Links.mem_targets, hgraph, Graph.withRows_rows]
      refine and_congr_right fun _ => forall_congr' fun b => ?_
      rw [Layer.linked_prune, not_and_not_right]

theorem removeTable_vets (h : w.Sound) :
    (removeTable id name).Vets w (∃ draft, w.graph.lines.Drafts draft ∧ draft.id = id ∧
      (w.graph.content id).CanRemoveTable name) := by
  simp only [removeTable, vets_requireDraft, vets_requireTable]
  intro draft hid hflag current hcurrent
  obtain ⟨hdraft, rfl⟩ := drafts_of_requireDraft h.intact hid hflag
  exact .inr ⟨draft, hdraft, rfl,
    (Graph.canRemoveTable_iff h.intact.closed).mpr ⟨current, h.findTable_eq_some.mp hcurrent⟩⟩

/-- A table is let go of, and deleted unless it is published, with the rows that only it held. What is
left of the command after that is to compare the draft with its parent. -/
theorem removeTable_of_refresh {Q : TableRemoved → Workspace → Prop} (h : w.Sound)
    (hdraft : w.graph.lines.Drafts draft) (hnamed : w.graph.NamesTable draft.id name current)
    (hrefresh : ∀ {w₁ : Workspace} {rows : List VersionId},
      w₁.store.Intact ∧ w.supply.Later w₁.supply →
      w₁.graph = w.graph.removeTable draft.id current.version →
      rows.Nodup ∧ (∀ u, u ∈ rows ↔ current.readonly = false ∧
        w.graph.rows.Linked current.version u ∧
          ∀ b, w.graph.rows.Linked b u → b = current.version) →
      (refreshHasChanges draft.id).Yields w₁ fun flag w' =>
        Q ⟨current.version, current.entity, !current.readonly, rows, flag⟩ w') :
    (removeTable draft.id name).Yields w Q := by
  obtain ⟨head, hline⟩ := h.coherent.lines.line_of_draft hdraft.stored hdraft.isDraft
  simp only [removeTable, yields_bind, yields_requireDraft, yields_requireTable, yields_store,
    yields_ite, not_yields_throw]
  refine ⟨draft, hdraft.stored, hdraft.isDraft, current, h.findTable_eq_some.mpr hnamed, ?_⟩
  have hparent : draft.parent.bind w.store.revision? = some head := by
    rw [hline.parent]
    exact hline.head_stored
  rw [if_neg (by simp [hparent])]
  refine ((Journaled.change (.disconnectTable _ _) fun _ => rfl).keeps h.intact
    disconnectTable_yields).imp ?_
  rintro - w₁ ⟨hkeeps, hgraph, -⟩
  rcases hreadonly : current.readonly with _ | _
  · have hopen : ¬w.graph.tables.Published current.version := by
      rw [Layer.published_iff hnamed.stored]
      exact Bool.eq_false_iff.mp hreadonly
    -- Nobody but the draft showed a version that it may change.
    have hunshown : ∀ r, ¬w₁.store.Shows r current.version := by
      intro r hshown
      rw [← Store.graph_shows, show w₁.store.graph = _ from hgraph, Graph.withTables_tables,
        Layer.linked_link] at hshown
      split at hshown
      · cases hshown
      · next hne =>
        exact h.coherent.not_shown_elsewhere hnamed hreadonly (fun hr => hne ⟨hr, rfl⟩) hshown
    rw [hkeeps.1.revisionsOf_eq_nil_iff.mpr hunshown]
    have hstored : ∃ table, w₁.store.table? current.version = some table := by
      rw [Workspace.table?_eq, hgraph]
      exact ⟨current, hnamed.stored⟩
    refine ((Makes.deleteTableWithRows _).journaled.keeps hkeeps.1
      (deleteTableWithRows_yields hkeeps.1 hstored hunshown)).imp ?_
    rintro rows w₂ ⟨hkeeps₂, hgraph₂, -, hnodup, hrows⟩
    have hsame : w₁.graph.rows = w.graph.rows := by rw [hgraph, Graph.withTables_rows]
    refine (hrefresh ⟨hkeeps₂.1, hkeeps.2.trans hkeeps₂.2⟩ ?_ ⟨hnodup, ?_⟩).imp fun _ _ hQ => ?_
    · rw [hgraph₂, hgraph, Graph.removeTable_of_open hopen]
      rfl
    · simpa only [hsame, hreadonly, true_and] using hrows
    · rw [hreadonly] at hQ
      exact yields_pure.mpr hQ
  · have hpublished : w.graph.tables.Published current.version := ⟨current, hnamed.stored, hreadonly⟩
    have hnothing : ([] : List VersionId).Nodup ∧ ∀ u, u ∈ [] ↔ current.readonly = false ∧
        w.graph.rows.Linked current.version u ∧
          ∀ b, w.graph.rows.Linked b u → b = current.version := ⟨List.nodup_nil, by simp [hreadonly]⟩
    refine yields_pure.mpr ((hrefresh hkeeps ?_ hnothing).imp fun _ _ hQ => ?_)
    · rw [hgraph, Graph.removeTable_of_published hpublished]
    · rw [hreadonly] at hQ
      exact yields_pure.mpr hQ

/-- Letting go of a table is an edit of the draft. -/
theorem removeTable_edit (h : w.Sound) (hdraft : w.graph.lines.Drafts draft)
    (hcan : (w.graph.content draft.id).CanRemoveTable name) :
    (removeTable draft.id name).Yields w fun result w' =>
      CleanEdit draft (·.removeTable name) w w' ∧ Compared draft result.hasChanges w' := by
  obtain ⟨current, hnamed⟩ := (Graph.canRemoveTable_iff h.intact.closed).mp hcan
  refine removeTable_of_refresh h hdraft hnamed ?_
  intro w₁ rows hkeeps hgraph hrows
  exact refreshHasChanges_edit (.removeTable h hdraft.not_published hkeeps hnamed hgraph) hdraft

end Edit

end VersionedTables
