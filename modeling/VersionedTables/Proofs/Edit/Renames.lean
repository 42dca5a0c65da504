import VersionedTables.Proofs.Edit.Rows

/-!
# Renaming rows all at the same time

While the rows of a batch are renamed one after the other, two rows may have one name for a while, so
the store is not coherent between two of them. What is done is therefore described for the batch as a
whole, as one replacement of records (`RowVersion.replaceAll`), and only of that it is shown that it
leaves names that differ (`CanRename.name_injOn`).
-/

namespace VersionedTables

variable {w w' w₁ : Workspace} {id : RevisionId} {draft : Revision} {table : TableVersion}
  {v : VersionId} {row : RowVersion} {name : String} {renames : List RowRename}

/-! ## New names -/

/-- A row either is in the request, and then gets the name that it gives, or it stays as it is. -/
theorem RowRename.rename_cases (renames : List RowRename) (c : RowContent) :
    (∃ rename ∈ renames, rename.name = c.name.text ∧
        RowRename.rename renames c = { c with name := ⟨rename.next⟩ }) ∨
      c.name.text ∉ renames.map (·.name) ∧ RowRename.rename renames c = c := by
  rw [RowRename.rename]
  split
  · next rename hfind =>
    exact .inl ⟨rename, List.mem_of_find?_eq_some hfind, by simpa using List.find?_some hfind, rfl⟩
  · next hfind =>
    refine .inr ⟨fun hmem => ?_, rfl⟩
    obtain ⟨rename, hrename, hname⟩ := List.mem_map.mp hmem
    exact absurd hname (by simpa using List.find?_eq_none.mp hfind rename hrename)

/-- With every row named once, there is no doubt about which name it gets. -/
theorem RowRename.rename_of_mem (hnodup : (renames.map (·.name)).Nodup) {rename : RowRename}
    (hmem : rename ∈ renames) {c : RowContent} (hname : c.name.text = rename.name) :
    RowRename.rename renames c = { c with name := ⟨rename.next⟩ } := by
  rcases rename_cases renames c with ⟨other, hother, hsame, heq⟩ | ⟨hnone, -⟩
  · rw [heq, List.inj_on_of_nodup_map hnodup hother hmem (hsame.trans hname)]
  · exact absurd (hname ▸ List.mem_map_of_mem hmem) hnone

/-- Rows whose names differ get names that differ. -/
theorem CanRename.name_injOn {rows : Set RowContent} (h : CanRename rows renames) :
    ∀ c ∈ rows, ∀ c' ∈ rows,
      (RowRename.rename renames c).name = (RowRename.rename renames c').name → c.name = c'.name := by
  obtain ⟨-, -, htargets, -, hfree⟩ := h
  -- A new name that a row has already is given up by that row.
  have hgiven {c' : RowContent} (hc' : c' ∈ rows) {rename : RowRename} (hmem : rename ∈ renames)
      (hkept : c'.name.text ∉ renames.map (·.name)) (hsame : RowName.mk rename.next = c'.name) :
      False :=
    hkept (congrArg RowName.text hsame ▸ hfree rename hmem
      ⟨c', hc', (congrArg RowName.text hsame).symm⟩)
  intro c hc c' hc' hsame
  rcases RowRename.rename_cases renames c with
    ⟨rename, hmem, hname, heq⟩ | ⟨hkept, heq⟩ <;>
  rcases RowRename.rename_cases renames c' with
    ⟨rename', hmem', hname', heq'⟩ | ⟨hkept', heq'⟩ <;>
  rw [heq, heq'] at hsame
  · -- Both get new names, which differ within a request.
    have hnext : rename.next = rename'.next := congrArg RowName.text hsame
    obtain rfl := List.inj_on_of_nodup_map htargets hmem hmem' hnext
    exact congrArg RowName.mk (hname.symm.trans hname')
  · exact (hgiven hc' hmem hkept' hsame).elim
  · exact (hgiven hc hmem' hkept hsame.symm).elim
  · exact hsame

/-! ## Replacing records -/

/-- The records of a list in the place of those of the same versions. -/
def RowVersion.replaceAll (records : List RowVersion) (row : RowVersion) : RowVersion :=
  records.foldl (fun row record => if row.version = record.version then record else row) row

theorem RowVersion.replaceAll_cases (records : List RowVersion) (row : RowVersion) :
    (∃ record ∈ records, record.version = row.version ∧ replaceAll records row = record) ∨
      (∀ record ∈ records, record.version ≠ row.version) ∧ replaceAll records row = row := by
  induction records generalizing row with
  | nil => exact .inr ⟨by simp, rfl⟩
  | cons first rest ih =>
    rw [replaceAll, List.foldl_cons, ← replaceAll]
    by_cases hfirst : row.version = first.version
    · rw [if_pos hfirst]
      rcases ih first with ⟨record, hmem, hversion, heq⟩ | ⟨-, heq⟩
      · exact .inl ⟨record, List.mem_cons_of_mem _ hmem, hversion.trans hfirst.symm, heq⟩
      · exact .inl ⟨first, List.mem_cons_self, hfirst.symm, heq⟩
    · rw [if_neg hfirst]
      rcases ih row with ⟨record, hmem, hversion, heq⟩ | ⟨hne, heq⟩
      · exact .inl ⟨record, List.mem_cons_of_mem _ hmem, hversion, heq⟩
      · exact .inr ⟨List.forall_mem_cons.mpr ⟨Ne.symm hfirst, hne⟩, heq⟩

/-- Replacing no record. -/
theorem Graph.amendRows_replaceAll_nil {g : Graph} :
    g.amendRows (RowVersion.replaceAll []) = g :=
  Graph.ext rfl rfl (Layer.ext_iff_linked (fun _ => congrFun Option.map_id _) fun _ _ => Iff.rfl)

/-- Replacing one record, and then those of a list. -/
theorem Graph.amendRows_replaceAll {g : Graph} (hc : g.Closed) {record : RowVersion}
    (hstored : ∃ old, g.rows.record? record.version = some old) (records : List RowVersion) :
    (g.withRows (g.rows.put record.version record)).amendRows (RowVersion.replaceAll records) =
      g.amendRows (RowVersion.replaceAll (record :: records)) := by
  refine Graph.ext rfl rfl (Layer.ext_iff_linked (fun u => ?_) fun _ _ => Iff.rfl)
  simp only [Graph.amendRows, Graph.withRows_rows, Layer.record?_amend, Layer.record?_put]
  split
  · next hu =>
    obtain ⟨old, hold⟩ := hstored
    rw [hu, hold, Option.map_some, Option.map_some, RowVersion.replaceAll, RowVersion.replaceAll,
      List.foldl_cons, if_pos (hc.row_eq hold)]
  · next hu =>
    rcases hrow : g.rows.record? u with _ | row
    · rfl
    · have hne : row.version ≠ record.version := fun heq => hu ((hc.row_eq hrow).symm.trans heq)
      rw [Option.map_some, Option.map_some, RowVersion.replaceAll, RowVersion.replaceAll,
        List.foldl_cons, if_neg hne]

namespace Edit

/-! ## Renaming -/

/-- Getting hold of all rows of a batch, each of which stays to be changed while others are got hold
of. -/
theorem draftRows_step (h : w.Sound) (hopen : ¬w.graph.tables.Published table.version)
    (htable : table.readonly = false)
    (hhas : ∀ rename ∈ renames, HasRow (w.graph.rowsIn table.version) rename.name) :
    (renames.mapM fun rename => draftRow table rename.name).Yields w fun drafts w' =>
      RowStep table.version (fun rows => rows) w w' ∧ Opened renames table.version w w' ∧
        List.Forall₂ (fun rename draft => w'.graph.NamesRow table.version rename.name draft.row ∧
          draft.row.readonly = false) renames drafts ∧
        ∀ {name' other}, other.readonly = false → w.graph.NamesRow table.version name' other →
          w'.graph.NamesRow table.version name' other := by
  induction renames generalizing w with
  | nil => exact yields_mapM_nil.mpr ⟨.refl h _, rfl, .nil, fun _ hnamed => hnamed⟩
  | cons rename rest ih =>
    obtain ⟨row, hnamed⟩ := (Graph.hasRow_iff h.intact.closed).mp (hhas rename (by simp))
    refine yields_mapM_cons.mpr ((draftRow_step h hopen htable hnamed).imp ?_)
    rintro target w₁ ⟨hstep, hreplaces, hkept⟩
    refine (ih hstep.sound (by rwa [hstep.tables]) fun other hother => ?_).imp ?_
    · rw [hstep.content]
      exact hhas other (List.mem_cons_of_mem _ hother)
    · rintro targets w₂ ⟨hsteps, hopened, htargets, hkept'⟩
      have hholds : w₁.graph.HoldsOpen table.version :=
        Graph.holdsOpen_of_stored hreplaces.named.held hreplaces.named.stored hreplaces.mutable
      refine ⟨hstep.trans hsteps, .cons hholds hopened,
        .cons ⟨?_, hreplaces.mutable⟩ htargets, fun hother hnamed' => ?_⟩
      · exact hkept' hreplaces.mutable hreplaces.named
      · exact hkept' hother (hkept hother hnamed')

/-- A record is that of a row with the name it is to get. -/
def Renamed (row : RowVersion) (next : RowName) (record : RowVersion) : Prop :=
  ∃ time, { row with name := next, updatedAt := time } = record

/-- What the loop over a batch writes. -/
theorem renameRows_yields {items : List (DraftRow × RowName)} (h : w.store.Intact)
    (hstored : ∀ item ∈ items, ∃ old, w.store.row? item.1.row.version = some old) :
    (items.mapM fun (draft, next) => renameRow draft next : Edit (List RenamedRow)).Yields w
      fun renamed w' => renamed = items.map (fun item => ⟨item.1.row.name, item.2,
          item.1.row.version, item.1.previous, item.1.row.entity⟩) ∧ ∃ records,
        List.Forall₂ (fun item record => Renamed item.1.row item.2 record) items records ∧
          w'.graph = w.graph.amendRows (RowVersion.replaceAll records) := by
  induction items generalizing w with
  | nil => exact yields_mapM_nil.mpr ⟨rfl, [], .nil, Graph.amendRows_replaceAll_nil.symm⟩
  | cons item rest ih =>
    refine yields_mapM_cons.mpr ?_
    simp only [renameRow, yields_bind, yields_now, yields_pure]
    refine ((Journaled.write (.updateRow _)).keeps ?_
      (updateRow_yields ?_)).imp ?_
    · exact h
    · exact hstored item (by simp)
    rintro - w₁ ⟨hkeeps, hgraph, -⟩
    refine (ih hkeeps.1 fun other hother => ?_).imp ?_
    · rw [Workspace.row?_eq, hgraph, Graph.withRows_rows, Layer.record?_put]
      split
      · exact ⟨_, rfl⟩
      · exact hstored other (List.mem_cons_of_mem _ hother)
    · rintro _ w₂ ⟨rfl, records, hrecords, hgraph₂⟩
      refine ⟨rfl, _ :: records, .cons ⟨w.supply.readClock.1, rfl⟩ hrecords, ?_⟩
      rw [hgraph₂, hgraph]
      refine Graph.amendRows_replaceAll h.closed ?_ records
      exact hstored item (by simp)

/-- The new names next to the rows that they are for. -/
theorem forall₂_zip_map {α β γ : Type} {R : α → β → Prop} {items : List α} {others : List β}
    {f : α → γ} (h : List.Forall₂ R items others) :
    List.Forall₂ (fun item pair => R item pair.1 ∧ pair.2 = f item) items
      (others.zip (items.map f)) := by
  induction h with
  | nil => exact .nil
  | cons hfirst _ ih => exact .cons ⟨hfirst, rfl⟩ ih

/-- What the loop over a batch does to a record that is stored: it is renamed if the request names
its row, and stays if it does not. -/
theorem renamed_cases {g : Graph} (hc : g.Closed) (h : g.Coherent)
    {items : List (DraftRow × RowName)} {records : List RowVersion}
    (hitems : List.Forall₂ (fun rename item => (g.NamesRow v rename.name item.1.row ∧
      item.1.row.readonly = false) ∧ item.2 = ⟨rename.next⟩) renames items)
    (hrecords : List.Forall₂ (fun item record => Renamed item.1.row item.2 record) items records)
    {u : VersionId} (hrow : g.rows.record? u = some row) :
    (∃ rename ∈ renames, g.NamesRow v rename.name row ∧ row.readonly = false ∧
        Renamed row ⟨rename.next⟩ (RowVersion.replaceAll records row)) ∨
      (∀ rename ∈ renames, ¬g.NamesRow v rename.name row) ∧
        RowVersion.replaceAll records row = row := by
  obtain rfl := hc.row_eq hrow
  rcases RowVersion.replaceAll_cases records row with ⟨record, hmem, hversion, heq⟩ | ⟨hne, heq⟩
  · obtain ⟨item, hitem, time, rfl⟩ := exists_of_forall₂ hrecords.flip hmem
    obtain ⟨rename, hrename, ⟨hnamed, hmutable⟩, hnext⟩ := exists_of_forall₂ hitems.flip hitem
    -- The record in its place belongs to an item of the batch, which is this row.
    have hsame : item.1.row = row := by
      have hstored := hnamed.stored
      rw [show item.1.row.version = row.version from hversion, hrow] at hstored
      exact (Option.some.inj hstored).symm
    rw [hsame] at hnamed hmutable heq
    exact .inl ⟨rename, hrename, hnamed, hmutable, time, by rw [heq, hnext]⟩
  · refine .inr ⟨fun rename hrename hnamed => ?_, heq⟩
    obtain ⟨item, hitem, ⟨hnamed', -⟩, -⟩ := exists_of_forall₂ hitems hrename
    obtain ⟨record, hmem, time, rfl⟩ := exists_of_forall₂ hrecords hitem
    refine absurd ?_ (hne _ hmem)
    change item.1.row.version = row.version
    rw [hnamed'.unique h.rowNames hnamed]

/-- The rows of a batch get their names all at the same time. -/
theorem renameRows_step {drafts : List DraftRow} (h : w.Sound)
    (hdrafts : List.Forall₂ (fun rename draft => w.graph.NamesRow v rename.name draft.row ∧
      draft.row.readonly = false) renames drafts)
    (hcan : CanRename (w.graph.rowsIn v) renames) :
    ((drafts.zip (renames.map (⟨·.next⟩))).mapM fun (draft, next) => renameRow draft next :
      Edit (List RenamedRow)).Yields w fun _ w' =>
        RowStep v (RowRename.rename renames '' ·) w w' ∧ Opened renames v w w' := by
  have hclosed := h.intact.closed
  have hitems := forall₂_zip_map (f := fun rename : RowRename => RowName.mk rename.next) hdrafts
  generalize drafts.zip (renames.map fun rename => RowName.mk rename.next) = items at hitems ⊢
  have hstored : ∀ item ∈ items, ∃ old, w.store.row? item.1.row.version = some old := by
    intro item hmem
    obtain ⟨rename, -, ⟨hnamed, -⟩, -⟩ := exists_of_forall₂ hitems.flip hmem
    exact ⟨_, hnamed.stored⟩
  have hjournaled : (items.mapM fun (draft, next) => renameRow draft next :
      Edit (List RenamedRow)).Journaled :=
    (Makes.mapM fun _ _ => Makes.renameRow (.everything _) _).journaled
  refine (hjournaled.keeps h.intact (renameRows_yields h.intact hstored)).imp ?_
  rintro - w' ⟨hkeeps, -, records, hrecords, hgraph⟩
  -- Whether it is renamed or not, a row stays the row it is, and may be changed as before.
  have hfields {u : VersionId} {row : RowVersion} (hrow : w.graph.rows.record? u = some row) :
      (RowVersion.replaceAll records row).entity = row.entity ∧
        (RowVersion.replaceAll records row).readonly = row.readonly := by
    rcases renamed_cases hclosed h.coherent hitems hrecords hrow with
      ⟨rename, -, -, -, time, heq⟩ | ⟨-, heq⟩
    · rw [← heq]
      exact ⟨rfl, rfl⟩
    · rw [heq]
      exact ⟨rfl, rfl⟩
  refine ⟨.amendRows h hkeeps hgraph (fun hrow => (hfields hrow).1) (fun hrow => (hfields hrow).2)
    ?_ ?_ ?_ hcan.name_injOn, ?_⟩
  · intro u row hrow hidentifier
    rcases renamed_cases hclosed h.coherent hitems hrecords hrow with
      ⟨rename, hrename, -, -, time, heq⟩ | ⟨-, heq⟩
    · rw [← heq]
      exact RowName.isOk_parse.mp (hcan.1 rename hrename).1
    · rwa [heq]
  · intro b u row hb hheld hrow
    rcases renamed_cases hclosed h.coherent hitems hrecords hrow with
      ⟨rename, -, hnamed, hmutable, -⟩ | ⟨-, heq⟩
    · obtain rfl := hclosed.row_eq hrow
      refine absurd (h.coherent.ownedRows.unique hheld hnamed.held fun hpublished => ?_) hb
      rw [Layer.published_iff hrow] at hpublished
      exact Bool.false_ne_true (hmutable.symm.trans hpublished)
    · exact heq
  · intro u row hheld hrow
    rcases renamed_cases hclosed h.coherent hitems hrecords hrow with
      ⟨rename, hrename, hnamed, -, time, heq⟩ | ⟨hnot, heq⟩
    · rw [← heq, RowRename.rename_of_mem hcan.2.1 hrename hnamed.text_eq]
      rfl
    · rcases RowRename.rename_cases renames row.content with
        ⟨rename, hrename, hname, -⟩ | ⟨-, hsame⟩
      · obtain rfl := hclosed.row_eq hrow
        exact absurd ⟨hheld, hrow, hname.symm⟩ (hnot rename hrename)
      · rw [heq, hsame]
  · rcases hdrafts with _ | ⟨⟨hnamed, hmutable⟩, -⟩
    · cases hitems
      cases hrecords
      exact hgraph.trans Graph.amendRows_replaceAll_nil
    · rw [Opened, hgraph]
      refine Graph.holdsOpen_of_stored hnamed.held ?_ ((hfields hnamed.stored).2.trans hmutable)
      rw [Graph.amendRows, Layer.record?_amend, hnamed.stored, Option.map_some]

theorem renameRows_vets (h : w.Sound) :
    (renameRows id name renames).Vets w (∃ draft, w.graph.lines.Drafts draft ∧ draft.id = id ∧
      (w.graph.content id).OnTable name (CanRename · renames)) := by
  simp only [renameRows, rowNames, bind_assoc, pure_bind, vets_requireDraft, vets_requireTable,
    vets_store, vets_liftExcept fun _ => RowRename.nextNames?_refused]
  intro draft hid hflag names hnames current hcurrent
  obtain ⟨hdraft, rfl⟩ := drafts_of_requireDraft h.intact hid hflag
  have hnamed := h.findTable_eq_some.mp hcurrent
  split
  · exact vets_bind_of_error rfl rfl
  next hmissing =>
  split
  · exact vets_bind_of_error rfl rfl
  next htaken =>
  rw [find?_missing] at hmissing
  rw [Bool.not_eq_true', Bool.not_eq_false, isEmpty_taken] at htaken
  obtain ⟨hall, hsources, htargets, rfl⟩ := RowRename.nextNames?_eq_ok.mp hnames
  refine .inr ⟨draft, hdraft, rfl, (Graph.onTable_iff h.intact.closed).mpr
    ⟨current, hnamed, ?_, hsources, htargets, fun rename hmem => ?_, fun rename hmem hhas => ?_⟩⟩
  · exact fun rename hmem => ⟨(hall rename hmem).1, (hall rename hmem).2.1⟩
  · exact (mem_rowNames h.intact).mp (hmissing _ (List.mem_map_of_mem hmem))
  · exact htaken _ (List.mem_map_of_mem hmem) ((mem_rowNames h.intact).mpr hhas)

/-- Rows are got hold of one after the other and then get their names, when the request is in order.
-/
theorem renameRows_of_batchOn (h : w.Sound) (hdraft : w.graph.lines.Drafts draft)
    (hcan : (w.graph.content draft.id).OnTable name (CanRename · renames))
    {Q : RowBatch RenamedRow → Workspace → Prop}
    (hbatch : (batchOn draft name fun table => do
      let drafts ← renames.mapM fun rename => draftRow table rename.name
      (drafts.zip (renames.map (⟨·.next⟩))).mapM fun (draft, next) =>
        renameRow draft next).Yields w Q) :
    (renameRows draft.id name renames).Yields w Q := by
  obtain ⟨current, hnamed, hall, hsources, htargets, hhas, hfree⟩ :=
    (Graph.onTable_iff h.intact.closed).mp hcan
  simp only [renameRows, rowNames, yields_bind, yields_requireDraft, yields_liftExcept,
    yields_requireTable, yields_store, yields_pure]
  refine ⟨draft, hdraft.stored, hdraft.isDraft, renames.map (⟨·.next⟩),
    RowRename.nextNames?_eq_ok.mpr ⟨?_, hsources, htargets, rfl⟩,
    current, h.findTable_eq_some.mpr hnamed, ?_⟩
  · exact fun rename hmem => ⟨(hall rename hmem).1, (hall rename hmem).2, by simp, by simp⟩
  have hexisting : ∀ text ∈ renames.map (·.name),
      text ∈ (w.store.rowsOf current.version).map (·.name.text) := by
    intro text hmem
    obtain ⟨rename, hrename, rfl⟩ := List.mem_map.mp hmem
    exact (mem_rowNames h.intact).mpr (hhas rename hrename)
  have hfree' : ∀ next ∈ renames.map (·.next),
      next ∈ (w.store.rowsOf current.version).map (·.name.text) → next ∈ renames.map (·.name) := by
    intro next hmem hheld
    obtain ⟨rename, hrename, rfl⟩ := List.mem_map.mp hmem
    exact hfree rename hrename ((mem_rowNames h.intact).mp hheld)
  rw [find?_missing.mpr hexisting, isEmpty_taken.mpr hfree']
  simpa only [batchOn, Bool.not_true, Bool.false_eq_true, if_false, yields_bind, yields_ite,
    yields_pure] using hbatch

/-- Rows of a table of a draft get other names. -/
theorem renameRows_edit (h : w.Sound) (hdraft : w.graph.lines.Drafts draft)
    (hcan : (w.graph.content draft.id).OnTable name (CanRename · renames)) :
    (renameRows draft.id name renames).Yields w fun _ w' =>
      CleanEdit draft (·.renameRows name renames) w w' ∧ Batched renames draft w w' := by
  obtain ⟨current, hnamed, hcan'⟩ := (Graph.onTable_iff h.intact.closed).mp hcan
  refine renameRows_of_batchOn h hdraft hcan (batchOn_edit
    (F := fun _ rows => RowRename.rename renames '' rows) h hdraft hnamed fun hstep hreplaces => ?_)
  rw [← hreplaces.rows] at hcan'
  refine yields_bind.mpr ((draftRows_step hstep.sound hreplaces.not_published hreplaces.mutable
    hcan'.2.2.2.1).imp ?_)
  rintro drafts w₂ ⟨hrows, hopened, hdrafts, -⟩
  rw [← hrows.content] at hcan'
  refine (renameRows_step hrows.sound hdrafts hcan').mapM_length.imp ?_
  rintro renamed w₃ ⟨hlength, hrenamed, hopened'⟩
  refine ⟨?_, hrows.trans hrenamed, hopened.trans hopened'⟩
  rw [hlength, List.length_zip, List.length_map, ← hdrafts.length_eq, Nat.min_self]

end Edit

end VersionedTables
