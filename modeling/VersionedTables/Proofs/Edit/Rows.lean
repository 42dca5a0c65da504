import VersionedTables.Proofs.Edit.Tables

/-!
# Commands on the rows of a table

A batch first gets hold of the draft's table and then does its work in steps on the rows of that one
table version. The lemmas about single rows say which step it is; those about lists put the steps
one after the other, by induction on the list; those about commands add the checks before and the
mark after.
-/

namespace VersionedTables

variable {w w' w₁ w₂ : Workspace} {id : RevisionId} {draft : Revision} {table : TableVersion}
  {v : VersionId} {row : RowVersion} {name : String}

namespace RowInput

variable {input : RowInput}

/-- New data is not a new name. -/
theorem name_update (c : RowContent) : (input.update c).name = c.name := by
  rw [update]
  split
  · rfl
  · rfl

theorem hasRow_update {rows : Set RowContent} :
    HasRow (input.update '' rows) name ↔ HasRow rows name := by
  simp [HasRow, name_update]

end RowInput

/-! ## Steps -/

namespace RowStep

/-- A new row in a table that may be changed. -/
theorem placeRow (h : w.Sound) (hopen : ¬w.graph.tables.Published v)
    (hkeeps : w'.store.Intact ∧ w.supply.Later w'.supply)
    (hgraph : w'.graph = w.graph.placeRow v none row) (hmutable : row.readonly = false)
    (hversion : w.supply.Between w'.supply row.version.text)
    (hentity : w.supply.Between w'.supply row.entity.text)
    (hidentifier : IsIdentifier row.name.text)
    (hname : ¬HasRow (w.graph.rowsIn v) row.name.text) :
    RowStep v (insert row.content) w w' := by
  have hclosed := h.intact.closed
  have hnew : w.graph.rows.record? row.version = none := h.row?_eq_none hversion.1
  refine .of_graph h hkeeps hgraph ?_ ?_ rfl rfl (fun u hu => ?_) ?_
  · refine h.coherent.placeRow hclosed hopen hmutable hnew (fun _ hold => by cases hold) ?_ ?_
      hidentifier
    · exact fun _ _ hother => h.row_entity_ne hentity.1 hother
    · intro u other hheld _ hother hsame
      exact hname ⟨other.content, ⟨u, other, hheld, hother, rfl⟩, congrArg RowName.text hsame⟩
  · exact (h.uses.mono hkeeps.2.drawn_of).placeRow hversion.2 hentity.2
  · exact Graph.sameTable_placeRow hclosed hnew hu
  · exact Graph.rowsIn_placeRow_none hclosed hnew

/-- Other records for rows of a table, of names that still differ. -/
theorem amendRows (h : w.Sound) (hkeeps : w'.store.Intact ∧ w.supply.Later w'.supply)
    {f : RowVersion → RowVersion} {F : RowContent → RowContent}
    (hgraph : w'.graph = w.graph.amendRows f)
    (hentity : ∀ {u row}, w.graph.rows.record? u = some row → (f row).entity = row.entity)
    (hreadonly : ∀ {u row}, w.graph.rows.record? u = some row → (f row).readonly = row.readonly)
    (hidentifier : ∀ {u row}, w.graph.rows.record? u = some row → IsIdentifier row.name.text →
      IsIdentifier (f row).name.text)
    (hothers : ∀ {b u row}, b ≠ v → w.graph.rows.Linked b u → w.graph.rows.record? u = some row →
      f row = row)
    (hcontent : ∀ {u row}, w.graph.rows.Linked v u → w.graph.rows.record? u = some row →
      (f row).content = F row.content)
    (hnames : ∀ c ∈ w.graph.rowsIn v, ∀ c' ∈ w.graph.rowsIn v, (F c).name = (F c').name →
      c.name = c'.name) :
    RowStep v (F '' ·) w w' := by
  have htells : (w.graph.rows.amend f).Tells RowVersion.name := by
    intro b u u' row row' hu hu' hrow hrow' hsame
    obtain ⟨old, hold, rfl⟩ := Option.map_eq_some_iff.mp hrow
    obtain ⟨old', hold', rfl⟩ := Option.map_eq_some_iff.mp hrow'
    refine h.coherent.rowNames hu hu' hold hold' ?_
    by_cases hb : b = v
    · subst hb
      refine hnames _ ⟨u, old, hu, hold, rfl⟩ _ ⟨u', old', hu', hold', rfl⟩ ?_
      rw [← hcontent hu hold, ← hcontent hu' hold']
      exact hsame
    · rwa [hothers hb hu hold, hothers hb hu' hold'] at hsame
  refine .of_graph h hkeeps hgraph ?_ ?_ rfl rfl (fun b hb => ?_) ?_
  · exact h.coherent.amendRows hentity hreadonly htells hidentifier
  · exact (h.uses.mono hkeeps.2.drawn_of).amendRows hentity
  · exact Graph.sameTable_amendRows (hothers hb)
  · exact Graph.rowsIn_amendRows hcontent

/-- Another record for one row of a table that may be changed, of the same name. -/
theorem putRow (h : w.Sound) (hkeeps : w'.store.Intact ∧ w.supply.Later w'.supply)
    {record current : RowVersion} {F : RowContent → RowContent}
    (hgraph : w'.graph = w.graph.withRows (w.graph.rows.put record.version record))
    (hnamed : w.graph.NamesRow v name current) (hmutable : current.readonly = false)
    (hversion : record.version = current.version) (hentity : record.entity = current.entity)
    (hreadonly : record.readonly = current.readonly)
    (hcontent : record.content = F current.content)
    (hothers : ∀ c : RowContent, c.name.text ≠ name → F c = c)
    (hname : ∀ c, (F c).name = c.name) : RowStep v (F '' ·) w w' := by
  have hclosed := h.intact.closed
  have hstored := hnamed.stored
  -- Among the stored records only `current` has the version of the one that is put.
  have hself {u : VersionId} {row : RowVersion} (hrow : w.graph.rows.record? u = some row)
      (hu : row.version = record.version) : row = current := by
    obtain rfl := hclosed.row_eq hrow
    rw [hu, hversion, hstored] at hrow
    exact (Option.some.inj hrow).symm
  have hamend : w.graph.rows.put record.version record =
      w.graph.rows.amend fun row => if row.version = record.version then record else row := by
    refine Layer.put_eq_amend ⟨current, hversion ▸ hstored⟩ (fun hold => ?_) fun hu hother => ?_
    · exact if_pos (hclosed.row_eq hold)
    · exact if_neg fun heq => hu ((hclosed.row_eq hother).symm.trans heq)
  refine amendRows h hkeeps (hgraph.trans (congrArg _ hamend)) ?_ ?_ ?_ ?_ ?_ ?_
  · intro u row hrow
    split
    · next hu => rw [hself hrow hu, hentity]
    · rfl
  · intro u row hrow
    split
    · next hu => rw [hself hrow hu, hreadonly]
    · rfl
  · intro u row hrow hidentifier
    split
    · next hu =>
      have hsame : record.name = current.name :=
        (congrArg RowContent.name hcontent).trans (hname current.content)
      rwa [hsame, ← hself hrow hu]
    · exact hidentifier
  · intro b u row hb hheld hrow
    -- Another table that held it too would make it a published row.
    refine if_neg fun hu => hb ?_
    obtain rfl := hself hrow hu
    obtain rfl := hclosed.row_eq hrow
    refine h.coherent.ownedRows.unique hheld hnamed.held fun hpublished => ?_
    rw [Layer.published_iff hrow] at hpublished
    exact Bool.false_ne_true (hmutable.symm.trans hpublished)
  · intro u row hheld hrow
    split
    · next hu => rw [hself hrow hu, hcontent]
    · next hu =>
      refine (hothers _ fun htext => hu ?_).symm
      obtain rfl := hclosed.row_eq hrow
      rw [Graph.NamesRow.unique h.coherent.rowNames ⟨hheld, hrow, htext⟩ hnamed, hversion]
  · intro c _ c' _ hsame
    rwa [hname, hname] at hsame

/-- A row that is not held any more. -/
theorem removeRow (h : w.Sound) (hopen : ¬w.graph.tables.Published v)
    (hkeeps : w'.store.Intact ∧ w.supply.Later w'.supply)
    (hnamed : w.graph.NamesRow v name row) (hgraph : w'.graph = w.graph.removeRow v row.version) :
    RowStep v (fun rows => {c ∈ rows | c.name.text ≠ name}) w w' := by
  refine .of_graph h hkeeps hgraph ?_ ?_ rfl rfl (fun b hb => ?_) ?_
  · exact h.coherent.removeRow hopen
  · exact (h.uses.mono hkeeps.2.drawn_of).removeRow
  · exact Graph.sameTable_removeRow hb
  · rw [Graph.rowsIn_removeRow h.coherent hnamed.held hnamed.stored]
    refine Set.ext fun c => and_congr_right fun _ => not_congr ?_
    rw [← hnamed.text_eq]
    exact ⟨congrArg RowName.text, congrArg RowName.mk⟩

end RowStep

/-- Changing the rows of a table that a draft just got hold of is a step of the draft. -/
theorem CleanStep.rows {F : Set RowContent → Set RowContent} {target : DraftTable}
    (hstep : CleanStep id (fun c => c) w w₁) (hreplaces : target.Replaces id name table w w₁)
    (hrows : RowStep target.table.version F w₁ w₂) : CleanStep id (·.modifyRows name F) w w₂ :=
  hstep.trans (hrows.cleanStep hstep.sound hreplaces.named hreplaces.mutable)

namespace Edit

/-- What is known after getting hold of a table. -/
theorem draftTable_elim (h : w.Sound) (hopen : ¬w.graph.lines.Published id)
    {Q : DraftTable → Workspace → Prop} (hadmits : (draftTable id name).Admits w Q) :
    ∃ table target w₁, w.graph.NamesTable id name table ∧ CleanStep id (fun c => c) w w₁ ∧
      target.Replaces id name table w w₁ ∧ Q target w₁ := by
  obtain ⟨table, hfound, -⟩ := admits_requireTable.mp (admits_bind.mp hadmits)
  have hnamed := h.findTable_eq_some.mp hfound
  obtain ⟨target, w₁, -, ⟨hstep, hreplaces⟩, hrest⟩ :=
    (draftTable_step h hopen hnamed).and_admits hadmits
  exact ⟨table, target, w₁, hnamed, hstep, hreplaces, hrest⟩

/-- What the loop over a batch leaves in a table version: after the first row there is one that may
be changed. -/
def Opened {ι : Type} : List ι → VersionId → Workspace → Workspace → Prop
  | [], _, w, w' => w'.graph = w.graph
  | _ :: _, v, _, w' => w'.graph.HoldsOpen v

theorem Opened.cons {ι : Type} {first : ι} {rest : List ι} (hfirst : w₁.graph.HoldsOpen v)
    (hrest : Opened rest v w₁ w₂) : Opened (first :: rest) v w w₂ := by
  cases rest with
  | nil =>
    rw [Opened, show w₂.graph = w₁.graph from hrest]
    exact hfirst
  | cons => exact hrest

theorem Opened.trans {ι : Type} {items : List ι} (h : Opened items v w w₁)
    (h' : Opened items v w₁ w₂) : Opened items v w w₂ := by
  cases items with
  | nil => exact Eq.trans h' h
  | cons => exact h'

/-- Only a batch that is not empty marks the draft. -/
theorem markIf_edit {F : Set RowContent → Set RowContent} {target : DraftTable} {ι ρ : Type}
    {inputs : List ι} {results : List ρ} (hdraft : w.graph.lines.Drafts draft)
    (hstep : CleanStep draft.id (fun c => c) w w₁)
    (hreplaces : target.Replaces draft.id name table w w₁)
    (hrows : RowStep target.table.version F w₁ w₂)
    (hopened : Opened inputs target.table.version w₁ w₂)
    (hlength : results.length = inputs.length) :
    if (!results.isEmpty) = true then
      (markChanged draft).Yields w₂ fun _ w' =>
        CleanEdit draft (·.modifyRows name F) w w' ∧ Batched inputs draft w w'
    else CleanEdit draft (·.modifyRows name F) w w₂ ∧ Batched inputs draft w w₂ := by
  have hwhole := hstep.rows hreplaces hrows
  cases inputs with
  | nil =>
    rw [List.length_eq_zero_iff.mp hlength, if_neg (by simp)]
    refine ⟨hwhole.unmarked hdraft, ?_, ?_⟩
    · exact (hwhole.drafts hdraft).stored
    · rw [show w₂.graph = w₁.graph from hopened]
      exact hreplaces.outline
  | cons first rest =>
    rw [if_pos (by cases results <;> simp_all)]
    refine (markChanged_edit hwhole hdraft).imp ?_
    rintro - w₃ ⟨hedit, hmark, hsame⟩
    refine ⟨hedit, hmark, iff_of_true rfl (hsame.mpr ?_)⟩
    have hnamed : w₂.graph.NamesTable draft.id name target.table := by
      refine ⟨?_, ?_, hreplaces.named.named⟩
      · rw [hrows.tables]
        exact hreplaces.named.shown
      · rw [hrows.tables]
        exact hreplaces.named.stored
    exact hrows.sound.coherent.differs_of_open (hwhole.drafts hdraft) hnamed.shown hnamed.stored
      hopened

/-- What a batch does when its request is in order: it gets hold of the table, does its work on the
rows, and marks the draft. -/
def batchOn {ρ : Type} (draft : Revision) (name : String) (work : TableVersion → Edit (List ρ)) :
    Edit (RowBatch ρ) := do
  let target ← draftTable draft.id name
  let rows ← work target.table
  if !rows.isEmpty then markChanged draft
  return ⟨target.table.version, target.previous, rows⟩

/-- A batch is a command on its draft if its work is a step on the rows of the table. -/
theorem batchOn_edit {F : List ρ → Set RowContent → Set RowContent} {ι : Type} {inputs : List ι}
    {work : TableVersion → Edit (List ρ)} (h : w.Sound) (hdraft : w.graph.lines.Drafts draft)
    (hnamed : w.graph.NamesTable draft.id name table)
    (hwork : ∀ {target : DraftTable} {w₁ : Workspace}, CleanStep draft.id (fun c => c) w w₁ →
      target.Replaces draft.id name table w w₁ → (work target.table).Yields w₁ fun rows w₂ =>
        rows.length = inputs.length ∧ RowStep target.table.version (F rows) w₁ w₂ ∧
          Opened inputs target.table.version w₁ w₂) :
    (batchOn draft name work).Yields w fun result w' =>
      CleanEdit draft (·.modifyRows name (F result.rows)) w w' ∧ Batched inputs draft w w' := by
  simp only [batchOn, yields_bind, yields_ite, yields_pure]
  refine (draftTable_step h hdraft.not_published hnamed).imp ?_
  rintro target w₁ ⟨hstep, hreplaces⟩
  refine (hwork hstep hreplaces).imp ?_
  rintro rows w₂ ⟨hlength, hrows, hopened⟩
  exact markIf_edit hdraft hstep hreplaces hrows hopened hlength

/-! ## Creating -/

/-- Creating a row writes a record with identifiers that were not drawn before, and links it. -/
theorem createRow_places (h : w.Sound) (hstored : ∃ table, w.store.table? v = some table)
    {input : RowInput} :
    (createRow v ⟨input.name⟩ input).Yields w fun created w' => ∃ row : RowVersion,
      created = ⟨row.name, row.version, row.entity⟩ ∧ row.content = input.create row.entity ∧
        row.readonly = false ∧ w.supply.Between w'.supply row.version.text ∧
          w.supply.Between w'.supply row.entity.text ∧
            (w'.store.Intact ∧ w.supply.Later w'.supply) ∧
              w'.graph = w.graph.placeRow v none row := by
  simp only [createRow, yields_bind, yields_pure]
  refine (freshId_draws h.distinct).imp ?_
  rintro entity w₁ ⟨hstore₁, hlater₁, hentity⟩
  refine record_draws (hlater₁.distinct h.distinct) ?_
  intro version time w₂ hstore₂ hlater₂ hversion
  have hstore : w₂.store = w.store := hstore₂.trans hstore₁
  have hnew : w.store.row? version = none := h.row?_eq_none (hversion.earlier hlater₁).1
  refine ((Journaled.write (.createRow _)).keeps (hstore ▸ h.intact)
    (createRow_yields (by rw [hstore]; exact hnew))).imp ?_
  rintro - w₃ ⟨hkeeps₃, hgraph₃, -⟩
  rw [Workspace.graph, Workspace.graph, hstore] at hgraph₃
  refine ((Journaled.write (.connectRow _ _)).keeps hkeeps₃.1
    (connectRow_yields ?_ ?_)).imp ?_
  · rw [Workspace.table?_eq, Workspace.graph, hgraph₃]
    exact hstored
  · rw [Workspace.row?_eq, Workspace.graph, hgraph₃]
    exact ⟨_, if_pos rfl⟩
  rintro - w₄ ⟨hkeeps₄, hgraph₄, -⟩
  have hlater : w₂.supply.Later w₄.supply := hkeeps₃.2.trans hkeeps₄.2
  rw [Workspace.graph, Workspace.graph, hgraph₃] at hgraph₄
  exact ⟨_, rfl, rfl, rfl, (hversion.earlier hlater₁).later hlater,
    hentity.later (hlater₂.trans hlater), ⟨hkeeps₄.1, hlater₁.trans (hlater₂.trans hlater)⟩,
    hgraph₄.trans (congrArg w.graph.withRows Layer.place_none)⟩

/-- A row is created, new in every respect. -/
theorem createRow_step (h : w.Sound) (hopen : ¬w.graph.tables.Published v)
    (hstored : ∃ table, w.store.table? v = some table) {input : RowInput}
    (hidentifier : IsIdentifier input.name) (hname : ¬HasRow (w.graph.rowsIn v) input.name) :
    (createRow v ⟨input.name⟩ input).Yields w fun created w' =>
      RowStep v (insert (input.create created.entity)) w w' ∧ w'.graph.HoldsOpen v := by
  refine (createRow_places h hstored).imp ?_
  rintro - w' ⟨row, rfl, hcontent, hmutable, hversion, hentity, hkeeps, hgraph⟩
  have hrow : row.name.text = input.name := congrArg (·.name.text) hcontent
  refine ⟨?_, ?_⟩
  · rw [← hcontent]
    refine RowStep.placeRow h hopen hkeeps hgraph hmutable hversion hentity ?_ ?_
    · rwa [hrow]
    · rwa [hrow]
  · rw [hgraph]
    refine Graph.holdsOpen_of_stored (u := row.version) ?_ (if_pos rfl) hmutable
    rw [Graph.placeRow, Layer.linked_place, if_pos rfl]
    exact .inl rfl

/-- Rows are created one after the other. -/
theorem createRows_step {inputs : List RowInput} (h : w.Sound)
    (hopen : ¬w.graph.tables.Published v) (hstored : ∃ table, w.store.table? v = some table)
    (hnodup : (inputs.map (·.name)).Nodup)
    (hidentifier : ∀ input ∈ inputs, IsIdentifier input.name)
    (hnew : ∀ input ∈ inputs, ¬HasRow (w.graph.rowsIn v) input.name) :
    (((inputs.map (⟨·.name⟩)).zip inputs).mapM fun (name, input) => createRow v name input :
      Edit (List CreatedRow)).Yields w fun created w' => RowStep v (fun rows =>
        rows ∪ {row | row ∈ List.zipWith RowInput.create inputs (created.map (·.entity))}) w w' ∧
          Opened inputs v w w' := by
  induction inputs generalizing w with
  | nil =>
    refine yields_mapM_nil.mpr ⟨?_, rfl⟩
    simpa using RowStep.refl h v
  | cons input rest ih =>
    obtain ⟨hfirst, hnodup⟩ := nodup_map_cons.mp hnodup
    obtain ⟨hinput, hidentifier⟩ := List.forall_mem_cons.mp hidentifier
    rw [List.map_cons, List.zip_cons_cons]
    refine yields_mapM_cons.mpr ((createRow_step h hopen hstored hinput (hnew _ (by simp))).imp ?_)
    rintro created w₁ ⟨hstep, hholds⟩
    refine (ih hstep.sound ?_ ?_ hnodup hidentifier fun other hother => ?_).imp ?_
    · rwa [hstep.tables]
    · rw [Workspace.table?_eq, hstep.tables]
      exact hstored
    · -- The row that was just created has none of the names that are still to come.
      rw [hstep.content]
      rintro ⟨row, rfl | hrow, hname⟩
      · exact hfirst other hother hname.symm
      · exact hnew other (List.mem_cons_of_mem _ hother) ⟨row, hrow, hname⟩
    · rintro createds w₂ ⟨hsteps, hopened⟩
      have htrans := hstep.trans hsteps
      refine ⟨{ htrans with content := htrans.content.trans ?_ }, .cons hholds hopened⟩
      ext row
      simp [or_assoc, or_left_comm]

/-- The names of the rows that a table version holds. -/
theorem mem_rowNames (h : w.store.Intact) {text : String} :
    text ∈ (w.store.rowsOf v).map (·.name.text) ↔ HasRow (w.graph.rowsIn v) text := by
  rw [Graph.hasRow_iff h.closed, List.mem_map]
  refine exists_congr fun row => ?_
  rw [h.mem_rowsOf]
  exact ⟨fun ⟨⟨hheld, hstored⟩, hname⟩ => ⟨hheld, hstored, hname⟩,
    fun hnamed => ⟨⟨hnamed.held, hnamed.stored⟩, hnamed.text_eq⟩⟩

theorem createRows_requires (h : w.Sound) {inputs : List RowInput}
    {Q : RowBatch CreatedRow → Workspace → Prop}
    (hadmits : (createRows id name inputs).Admits w Q) :
    ∃ draft, w.graph.lines.Drafts draft ∧ draft.id = id ∧
      (w.graph.content id).OnTable name (CanCreate · inputs) := by
  simp only [createRows, admits_bind, admits_requireDraft] at hadmits
  obtain ⟨draft, hid, hflag, hrest⟩ := hadmits
  obtain ⟨hdraft, rfl⟩ := drafts_of_requireDraft h.intact hid hflag
  obtain ⟨table, target, w₁, hnamed, hstep, hreplaces, hrest⟩ :=
    draftTable_elim h hdraft.not_published hrest
  rw [admits_liftExcept fun _ => RowInput.newNames?_refused] at hrest
  obtain ⟨names, hnames, hrest⟩ := hrest
  obtain ⟨hall, hnodup, rfl⟩ := RowInput.newNames?_eq_ok.mp hnames
  simp only [rowNames, admits_bind, admits_store, admits_pure, admits_ite, admits_throw] at hrest
  split at hrest
  · cases hrest
  next hclashes =>
  rw [Bool.not_eq_true', Bool.not_eq_false, isEmpty_clashes] at hclashes
  refine ⟨draft, hdraft, rfl, (Graph.onTable_iff h.intact.closed).mpr
    ⟨table, hnamed, hnodup, fun input hinput => ⟨(hall input hinput).1, ?_⟩⟩⟩
  rw [← hreplaces.rows, ← mem_rowNames hstep.sound.intact]
  exact hclashes _ (List.mem_map_of_mem (List.mem_map_of_mem hinput))

/-- Rows are created one after the other, when the request is in order. -/
theorem createRows_of_batchOn (h : w.Sound) (hdraft : w.graph.lines.Drafts draft)
    {inputs : List RowInput} (hcan : (w.graph.content draft.id).OnTable name (CanCreate · inputs))
    {Q : RowBatch CreatedRow → Workspace → Prop}
    (hbatch : (batchOn draft name fun table => ((inputs.map (⟨·.name⟩)).zip inputs).mapM
      fun (name, input) => createRow table.version name input).Yields w Q) :
    (createRows draft.id name inputs).Yields w Q := by
  obtain ⟨table, hnamed, hnodup, hnew⟩ := (Graph.onTable_iff h.intact.closed).mp hcan
  simp only [createRows, yields_bind, yields_requireDraft, yields_liftExcept, rowNames, yields_store,
    yields_pure, yields_ite, not_yields_throw]
  refine ⟨draft, hdraft.stored, hdraft.isDraft, ?_⟩
  simp only [batchOn, yields_bind, yields_ite, yields_pure] at hbatch
  refine ((draftTable_step h hdraft.not_published hnamed).and hbatch).imp ?_
  rintro target w₁ ⟨⟨hstep, hreplaces⟩, hrest⟩
  rw [← hreplaces.rows] at hnew
  refine ⟨inputs.map (⟨·.name⟩), RowInput.newNames?_eq_ok.mpr
    ⟨fun input hinput => ⟨(hnew input hinput).1, by simp⟩, hnodup, rfl⟩, ?_⟩
  rw [if_neg]
  · exact hrest
  · rw [Bool.not_eq_true', Bool.not_eq_false, isEmpty_clashes]
    intro text htext
    obtain ⟨_, hmem, rfl⟩ := List.mem_map.mp htext
    obtain ⟨input, hinput, rfl⟩ := List.mem_map.mp hmem
    rw [mem_rowNames hstep.sound.intact]
    exact (hnew input hinput).2

/-- Rows are created in a table of a draft. -/
theorem createRows_edit (h : w.Sound) (hdraft : w.graph.lines.Drafts draft) {inputs : List RowInput}
    (hcan : (w.graph.content draft.id).OnTable name (CanCreate · inputs)) :
    (createRows draft.id name inputs).Yields w fun result w' =>
      CleanEdit draft (·.createRows name inputs (result.rows.map (·.entity))) w w' ∧
        Batched inputs draft w w' := by
  obtain ⟨table, hnamed, hnodup, hnew⟩ := (Graph.onTable_iff h.intact.closed).mp hcan
  refine createRows_of_batchOn h hdraft hcan (batchOn_edit (F := fun created rows =>
    rows ∪ {row | row ∈ List.zipWith RowInput.create inputs (created.map CreatedRow.entity)})
      h hdraft hnamed fun hstep hreplaces => ?_)
  rw [← hreplaces.rows] at hnew
  refine (createRows_step hstep.sound hreplaces.not_published ⟨_, hreplaces.named.stored⟩ hnodup
    (fun input hinput => RowName.isOk_parse.mp (hnew input hinput).1)
    fun input hinput => (hnew input hinput).2).mapM_length.imp ?_
  rintro created w₂ ⟨hlength, hrows, hopened⟩
  exact ⟨by simpa using hlength, hrows, hopened⟩

/-! ## Updating -/

/-- A row is given new data in place, or as a copy in the place of the published version. -/
theorem updateRow_step (h : w.Sound) (hopen : ¬w.graph.tables.Published table.version)
    (htable : table.readonly = false) {input : RowInput}
    (hhas : HasRow (w.graph.rowsIn table.version) input.name) :
    (updateRow table input).Yields w fun _ w' =>
      RowStep table.version (input.update '' ·) w w' ∧ w'.graph.HoldsOpen table.version := by
  obtain ⟨row, hnamed⟩ := (Graph.hasRow_iff h.intact.closed).mp hhas
  simp only [updateRow, yields_bind, yields_pure]
  refine (draftRow_step h hopen htable hnamed).imp ?_
  rintro target w₁ ⟨hstep, hreplaces, -⟩
  refine now_draws.imp ?_
  rintro time w₂ ⟨hstore₂, hlater₂⟩
  have hgraph₂ : w₂.graph = w₁.graph := by rw [Workspace.graph, hstore₂]
  refine ((Journaled.write (.updateRow _)).keeps (hstore₂ ▸ hstep.sound.intact)
    (updateRow_yields ?_)).imp ?_
  · rw [hstore₂]
    exact ⟨_, hreplaces.named.stored⟩
  rintro - w₃ ⟨hkeeps, hgraph₃, -⟩
  rw [hgraph₂] at hgraph₃
  refine ⟨hstep.trans (.putRow hstep.sound ⟨hkeeps.1, hlater₂.trans hkeeps.2⟩ hgraph₃
    hreplaces.named hreplaces.mutable rfl rfl rfl ?_ ?_ ?_), ?_⟩
  · exact (if_pos hreplaces.named.text_eq).symm
  · exact fun c hne => if_neg hne
  · exact input.name_update
  · rw [hgraph₃]
    exact Graph.holdsOpen_of_stored hreplaces.named.held (if_pos rfl) hreplaces.mutable

theorem updateRow_requires (h : w.Sound) (htable : table.readonly = false) {input : RowInput}
    {Q : UpdatedRow → Workspace → Prop} (hadmits : (updateRow table input).Admits w Q) :
    HasRow (w.graph.rowsIn table.version) input.name := by
  simp only [updateRow, draftRow, htable, Bool.false_eq_true, if_false, admits_bind, admits_pure,
    admits_store, admits_orFault (.rowNotFound input.name table.name) rfl] at hadmits
  obtain ⟨row, hrow, -⟩ := hadmits
  exact (Graph.hasRow_iff h.intact.closed).mpr ⟨row, h.findRow_eq_some.mp hrow⟩

/-- Rows are given new data one after the other. -/
theorem updateRows_step {inputs : List RowInput} (h : w.Sound)
    (hopen : ¬w.graph.tables.Published table.version) (htable : table.readonly = false)
    (hhas : ∀ input ∈ inputs, HasRow (w.graph.rowsIn table.version) input.name) :
    (inputs.mapM (updateRow table)).Yields w fun _ w' => RowStep table.version
      (fun rows => inputs.foldl (fun rows input => input.update '' rows) rows) w w' ∧
        Opened inputs table.version w w' := by
  induction inputs generalizing w with
  | nil => exact yields_mapM_nil.mpr ⟨.refl h _, rfl⟩
  | cons input rest ih =>
    refine yields_mapM_cons.mpr ((updateRow_step h hopen htable (hhas _ (by simp))).imp ?_)
    rintro updated w₁ ⟨hstep, hholds⟩
    refine (ih hstep.sound ?_ fun other hother => ?_).imp fun _ _ ⟨hsteps, hopened⟩ =>
      ⟨hstep.trans hsteps, .cons hholds hopened⟩
    · rwa [hstep.tables]
    · rw [hstep.content]
      exact input.hasRow_update.mpr (hhas other (List.mem_cons_of_mem _ hother))

/-- Each row of a loop has to be there, and is from the start. -/
theorem hasRow_of_updateRows {inputs : List RowInput} (h : w.Sound)
    (hopen : ¬w.graph.tables.Published table.version) (htable : table.readonly = false)
    {Q : List UpdatedRow → Workspace → Prop}
    (hadmits : (inputs.mapM (updateRow table)).Admits w Q) :
    ∀ input ∈ inputs, HasRow (w.graph.rowsIn table.version) input.name := by
  induction inputs generalizing w Q with
  | nil => simp
  | cons first rest ih =>
    rw [admits_mapM_cons] at hadmits
    have hfirst := updateRow_requires h htable hadmits
    obtain ⟨updated, w₁, -, ⟨hstep, -⟩, hrest⟩ :=
      (updateRow_step h hopen htable hfirst).and_admits hadmits
    -- New data leaves all names as they are, so a row that is there later is there now.
    have hall := ih hstep.sound (by rwa [hstep.tables]) hrest
    rintro input (_ | ⟨_, hinput⟩)
    · exact hfirst
    · have hafter := hall input hinput
      rw [hstep.content] at hafter
      exact first.hasRow_update.mp hafter

theorem updateRows_requires (h : w.Sound) {inputs : List RowInput}
    {Q : RowBatch UpdatedRow → Workspace → Prop}
    (hadmits : (updateRows id name inputs).Admits w Q) :
    ∃ draft, w.graph.lines.Drafts draft ∧ draft.id = id ∧
      (w.graph.content id).OnTable name (CanUpdate · inputs) := by
  simp only [updateRows, admits_bind, admits_requireDraft] at hadmits
  obtain ⟨draft, hid, hflag, hrest⟩ := hadmits
  obtain ⟨hdraft, rfl⟩ := drafts_of_requireDraft h.intact hid hflag
  obtain ⟨table, target, w₁, hnamed, hstep, hreplaces, hrest⟩ :=
    draftTable_elim h hdraft.not_published hrest
  simp only [admits_bind, admits_ite, admits_throw] at hrest
  split at hrest
  · cases hrest
  next hrepetition =>
  rw [Bool.not_eq_true, hasRepetition_eq_false] at hrepetition
  refine ⟨draft, hdraft, rfl, (Graph.onTable_iff h.intact.closed).mpr
    ⟨table, hnamed, hrepetition, ?_⟩⟩
  rw [← hreplaces.rows]
  exact hasRow_of_updateRows hstep.sound hreplaces.not_published hreplaces.mutable hrest

/-- Rows are given new data one after the other, when the request is in order. -/
theorem updateRows_of_batchOn (hdraft : w.graph.lines.Drafts draft) {inputs : List RowInput}
    (hnodup : (inputs.map (·.name)).Nodup) {Q : RowBatch UpdatedRow → Workspace → Prop}
    (hbatch : (batchOn draft name fun table => inputs.mapM (updateRow table)).Yields w Q) :
    (updateRows draft.id name inputs).Yields w Q := by
  simp only [updateRows, yields_bind, yields_requireDraft, yields_pure, yields_ite,
    not_yields_throw]
  refine ⟨draft, hdraft.stored, hdraft.isDraft, ?_⟩
  simp only [batchOn, yields_bind, yields_ite, yields_pure] at hbatch
  rwa [hasRepetition_eq_false.mpr hnodup]

/-- Rows of a table of a draft are given new data. -/
theorem updateRows_edit (h : w.Sound) (hdraft : w.graph.lines.Drafts draft) {inputs : List RowInput}
    (hcan : (w.graph.content draft.id).OnTable name (CanUpdate · inputs)) :
    (updateRows draft.id name inputs).Yields w fun _ w' =>
      CleanEdit draft (·.updateRows name inputs) w w' ∧ Batched inputs draft w w' := by
  obtain ⟨table, hnamed, hnodup, hhas⟩ := (Graph.onTable_iff h.intact.closed).mp hcan
  refine updateRows_of_batchOn hdraft hnodup (batchOn_edit (F := fun _ rows =>
    inputs.foldl (fun rows input => input.update '' rows) rows)
      h hdraft hnamed fun hstep hreplaces => ?_)
  rw [← hreplaces.rows] at hhas
  exact (updateRows_step hstep.sound hreplaces.not_published hreplaces.mutable hhas).mapM_length

/-! ## Removing -/

/-- Looking up rows changes nothing. -/
theorem findRows_yields {names : List String} {fault : String → CommandFault}
    {Q : List RowVersion → Workspace → Prop} :
    (names.mapM fun name => do orFault (fault name) ((← store).findRow v name)).Yields w Q ↔
      ∃ rows, List.Forall₂ (fun name row => w.store.findRow v name = some row) names rows ∧
        Q rows w := by
  induction names generalizing Q with
  | nil => simp
  | cons name rest ih =>
    rw [yields_mapM_cons]
    simp only [yields_bind, yields_store, yields_orFault, ih]
    refine ⟨?_, ?_⟩
    · rintro ⟨row, hrow, rows, hrows, hQ⟩
      exact ⟨row :: rows, .cons hrow hrows, hQ⟩
    · rintro ⟨_, hrow | ⟨hrow, hrows⟩, hQ⟩
      exact ⟨_, hrow, _, hrows, hQ⟩

/-- Each row that is looked up has to be there. -/
theorem findRows_requires {names : List String} {fault : String → CommandFault}
    (hfault : ∀ name, (fault name).isInternal = false) {Q : List RowVersion → Workspace → Prop}
    (hadmits : (names.mapM fun name => do
      orFault (fault name) ((← store).findRow v name)).Admits w Q) :
    ∀ name ∈ names, ∃ row, w.store.findRow v name = some row := by
  induction names generalizing Q with
  | nil => simp
  | cons name rest ih =>
    simp only [admits_mapM_cons, admits_bind, admits_store, admits_orFault _ (hfault name)] at hadmits
    obtain ⟨row, hrow, hrest⟩ := hadmits
    exact List.forall_mem_cons.mpr ⟨⟨row, hrow⟩, ih hrest⟩

/-- Letting go of a row deletes it, unless something else holds it. -/
theorem removeRow_prunes (h : w.store.Intact)
    (hstored : w.graph.rows.record? row.version = some row) :
    (removeRow v row).Yields w fun removed w' =>
      (w'.store.Intact ∧ w.supply.Later w'.supply) ∧
        w'.graph = w.graph.removeRow v row.version ∧
          ∃ deleted, removed = ⟨row.name, row.version, deleted⟩ ∧
            (deleted = true ↔ ∀ b, w.graph.rows.Linked b row.version → b = v) := by
  simp only [removeRow, yields_bind, yields_pure]
  refine ((Journaled.change (.disconnectRow _ _) fun _ => rfl).keeps h disconnectRow_yields).imp ?_
  rintro - w₁ ⟨hkeeps, hgraph, -⟩
  have hstored₁ : ∃ row', w₁.store.row? row.version = some row' := by
    rw [Workspace.row?_eq, hgraph]
    exact ⟨row, hstored⟩
  refine ((Makes.deleteRowIfUnheld _).journaled.keeps hkeeps.1
    (deleteRowIfUnheld_yields hkeeps.1 hstored₁)).imp ?_
  rintro deleted w₂ ⟨hkeeps₂, hgraph₂, -, hdeleted⟩
  refine ⟨⟨hkeeps₂.1, hkeeps.2.trans hkeeps₂.2⟩, ?_, deleted, rfl, ?_⟩
  · rw [hgraph₂, hgraph, Graph.withRows_withRows, Graph.withRows_rows, Layer.link_false,
      Layer.prune_prune]
    simp only [false_or]
    rfl
  · rw [hdeleted]
    refine forall_congr' fun b => ?_
    rw [hgraph, Graph.withRows_rows, Layer.linked_link]
    by_cases hb : b = v <;> simp [hb]

/-- A row is let go of, and deleted unless something else holds it. -/
theorem removeRow_step (h : w.Sound) (hopen : ¬w.graph.tables.Published v)
    (hnamed : w.graph.NamesRow v name row) :
    (removeRow v row).Yields w fun _ w' =>
      RowStep v (fun rows => {c ∈ rows | c.name.text ≠ name}) w w' ∧
        ∀ {name' other}, name' ≠ name → w.graph.NamesRow v name' other →
          w'.graph.NamesRow v name' other := by
  refine (removeRow_prunes h.intact hnamed.stored).imp ?_
  rintro removed w' ⟨hkeeps, hgraph, -⟩
  refine ⟨.removeRow h hopen hkeeps hnamed hgraph, ?_⟩
  intro name' other hne hother
  -- A row of another name is another version, which stays where it is.
  have hkept : ¬(v = v ∧ other.version = row.version) := by
    rintro ⟨-, hversion⟩
    have hstored := hother.stored
    rw [hversion, hnamed.stored] at hstored
    cases hstored
    exact hne (hother.text_eq.symm.trans hnamed.text_eq)
  rw [hgraph]
  exact ⟨⟨hother.held, hkept⟩,
    (Layer.record?_prune_of_linked hother.held hkept).trans hother.stored, hother.text_eq⟩

/-- Rows of different names are let go of one after the other. -/
theorem removeRows_step {names : List String} {rows : List RowVersion} (h : w.Sound)
    (hopen : ¬w.graph.tables.Published v) (hnodup : names.Nodup)
    (hnamed : List.Forall₂ (w.graph.NamesRow v) names rows) :
    (rows.mapM (removeRow v)).Yields w fun _ w' =>
      RowStep v (fun rows => {c ∈ rows | c.name.text ∉ names}) w w' := by
  induction names generalizing w rows with
  | nil =>
    cases hnamed
    refine yields_mapM_nil.mpr ?_
    simpa using RowStep.refl h v
  | cons name names ih =>
    obtain ⟨hfirst, hnodup⟩ := List.nodup_cons.mp hnodup
    rcases hnamed with _ | ⟨hrow, hrows⟩
    refine yields_mapM_cons.mpr ((removeRow_step h hopen hrow).imp ?_)
    rintro removed w₁ ⟨hstep, hkept⟩
    -- The rows that are still to go keep their names while the first one goes.
    have hnames : ∀ name' ∈ names, name' ≠ name := fun name' hname' heq => hfirst (heq ▸ hname')
    have hrows₁ := ((List.forall₂_and_left _ _).mpr ⟨hnames, hrows⟩).imp
      fun name' row' ⟨hne, hnamed⟩ => hkept hne hnamed
    refine (ih hstep.sound (by rwa [hstep.tables]) hnodup hrows₁).imp fun _ w₂ hsteps => ?_
    have htrans := hstep.trans hsteps
    refine { htrans with content := htrans.content.trans ?_ }
    ext c
    simp [and_assoc]

theorem removeRows_requires (h : w.Sound) {names : List String} {Q : RowsRemoved → Workspace → Prop}
    (hadmits : (removeRows id name names).Admits w Q) :
    ∃ draft, w.graph.lines.Drafts draft ∧ draft.id = id ∧
      (w.graph.content id).OnTable name (CanRemove · names) := by
  simp only [removeRows, admits_bind, admits_requireDraft] at hadmits
  obtain ⟨draft, hid, hflag, hrest⟩ := hadmits
  obtain ⟨hdraft, rfl⟩ := drafts_of_requireDraft h.intact hid hflag
  obtain ⟨table, target, w₁, hnamed, hstep, hreplaces, hrest⟩ :=
    draftTable_elim h hdraft.not_published hrest
  refine ⟨draft, hdraft, rfl, (Graph.onTable_iff h.intact.closed).mpr
    ⟨table, hnamed, fun text htext => ?_⟩⟩
  have hkept : text ∈ keepFirst [] names := mem_keepFirst.mpr ⟨htext, by simp⟩
  obtain ⟨row, hrow⟩ := findRows_requires (fun _ => rfl) hrest text hkept
  rw [← hreplaces.rows]
  exact (Graph.hasRow_iff hstep.sound.intact.closed).mpr
    ⟨row, hstep.sound.findRow_eq_some.mp hrow⟩

/-- What is left of removing rows when the request is in order. -/
theorem removeRows_of_yields (h : w.Sound) (hdraft : w.graph.lines.Drafts draft)
    {names : List String} (hcan : (w.graph.content draft.id).OnTable name (CanRemove · names))
    {Q : RowsRemoved → Workspace → Prop}
    (hremoves : (draftTable draft.id name).Yields w fun target w₁ => ∀ rows,
      List.Forall₂ (w₁.graph.NamesRow target.table.version) (keepFirst [] names) rows →
        (rows.mapM (removeRow target.table.version)).Yields w₁ fun removed w₂ =>
          (refreshHasChanges draft.id).Yields w₂ fun flag w₃ =>
            Q ⟨⟨target.table.version, target.previous, removed⟩, flag⟩ w₃) :
    (removeRows draft.id name names).Yields w Q := by
  obtain ⟨table, hnamed, hhas⟩ := (Graph.onTable_iff h.intact.closed).mp hcan
  simp only [removeRows, yields_bind, yields_requireDraft, yields_pure]
  refine ⟨draft, hdraft.stored, hdraft.isDraft, ?_⟩
  refine ((draftTable_step h hdraft.not_published hnamed).and hremoves).imp ?_
  rintro target w₁ ⟨⟨hstep, hreplaces⟩, hrest⟩
  have hnames : ∀ text ∈ keepFirst [] names,
      ∃ row, w₁.graph.NamesRow target.table.version text row := by
    intro text htext
    refine (Graph.hasRow_iff hstep.sound.intact.closed).mp ?_
    rw [hreplaces.rows]
    exact hhas text (mem_keepFirst.mp htext).1
  obtain ⟨rows, hrows⟩ := exists_forall₂ hnames
  exact findRows_yields.mpr
    ⟨rows, hrows.imp fun _ _ => hstep.sound.findRow_eq_some.mpr, hrest rows hrows⟩

/-- Rows of a table of a draft are let go of. -/
theorem removeRows_edit (h : w.Sound) (hdraft : w.graph.lines.Drafts draft) {names : List String}
    (hcan : (w.graph.content draft.id).OnTable name (CanRemove · names)) :
    (removeRows draft.id name names).Yields w fun result w' =>
      CleanEdit draft (·.removeRows name names) w w' ∧ Compared draft result.hasChanges w' := by
  obtain ⟨table, hnamed, -⟩ := (Graph.onTable_iff h.intact.closed).mp hcan
  refine removeRows_of_yields h hdraft hcan ((draftTable_step h hdraft.not_published hnamed).imp ?_)
  rintro target w₁ ⟨hstep, hreplaces⟩ rows hrows
  refine (removeRows_step hstep.sound hreplaces.not_published (nodup_keepFirst _ _) hrows).imp ?_
  rintro removed w₂ hremoved
  have hkept : (fun rows : Set RowContent => {c ∈ rows | c.name.text ∉ keepFirst [] names}) =
      fun rows => {c ∈ rows | c.name.text ∉ names} := by
    simp [mem_keepFirst]
  rw [hkept] at hremoved
  exact refreshHasChanges_edit (hstep.rows hreplaces hremoved) hdraft

end Edit

end VersionedTables
