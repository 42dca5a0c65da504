import VersionedTables.Proofs.Batches
import VersionedTables.Proofs.Lifecycle

/-!
# Renaming rows at once

A batch of renames substitutes names in a table of a draft, and does so at once: two rows may swap
their names, and a name may be passed on in a chain or around a cycle, in whatever order the batch
lists this. `Store.CanRenameRows` is what is asked of such a batch. It is just what makes the batch
go through (`Store.canRenameRows_iff`), and no two rows can come to have one name then.

What the batch did can be told by looking rows up by their names, before and after
(`Store.RenamedAtOnce`): who was named is found under the new name, who was not is found as before,
and a name that was given up and not taken is free. None of this says in which order rows were looked
up or written. It is read off the exchanges that the batch made (`Store.Batched.mem_rowsOf`).
-/

namespace VersionedTables

variable {w : Workspace} {s s' : Store} {supply supply' : Supply} {id : RevisionId} {name : String}
  {renames : List RowRename} {v : VersionId} {row : RowVersion}

/-! ## What is asked -/

namespace Store

/-- Rows of a table of a draft can get other names. -/
structure CanRenameRows (s : Store) (id : RevisionId) (name : String) (renames : List RowRename) :
    Prop where
  /-- The revision is a draft. -/
  isDraft : ∃ draft, s.revision? id = some draft ∧ draft.isDraft = true
  /-- The new names are well formed. -/
  isIdentifier : ∀ rename ∈ renames, IsIdentifier rename.next
  /-- They are not the old ones. -/
  name_ne_next : ∀ rename ∈ renames, rename.name ≠ rename.next
  /-- No row is renamed twice. -/
  nodup_name : (renames.map (·.name)).Nodup
  /-- No two rows get one name. -/
  nodup_next : (renames.map (·.next)).Nodup
  /-- The table is there with the rows that are to be renamed, and if there is a row that has a new
  name, it is to be renamed as well. -/
  findTable : ∃ table, s.findTable id name = some table ∧
    (∀ rename ∈ renames, rename.name ∈ (s.rowsOf table.version).map (·.name.text)) ∧
      ∀ rename ∈ renames, rename.next ∈ (s.rowsOf table.version).map (·.name.text) →
        rename.next ∈ renames.map (·.name)

/-- This is what makes the command go through. -/
theorem canRenameRows_iff (h : w.Sound) :
    w.store.CanRenameRows id name renames ↔ w.Allows (.renameRows id name renames) := by
  refine ⟨?_, ?_⟩
  · rintro ⟨⟨draft, hid, hflag⟩, hidentifier, hne, hname, hnext, table, htable, hhas, hfree⟩
    obtain ⟨hdraft, rfl⟩ := Edit.drafts_of_requireDraft h.intact hid hflag
    refine ⟨draft, hdraft, rfl, (Graph.onTable_iff h.intact.closed).mpr
      ⟨table, h.findTable_eq_some.mp htable, ?_, hname, hnext, ?_, ?_⟩⟩
    · exact fun rename hmem => ⟨RowName.isOk_parse.mpr (hidentifier rename hmem), hne rename hmem⟩
    · exact fun rename hmem => (Edit.mem_rowNames h.intact).mp (hhas rename hmem)
    · exact fun rename hmem hheld =>
        hfree rename hmem ((Edit.mem_rowNames h.intact).mpr hheld)
  · rintro ⟨draft, hdraft, rfl, hcan⟩
    obtain ⟨table, hnamed, hall, hname, hnext, hhas, hfree⟩ :=
      (Graph.onTable_iff h.intact.closed).mp hcan
    exact {
      isDraft := ⟨draft, hdraft.stored, hdraft.isDraft⟩
      isIdentifier := fun rename hmem => RowName.isOk_parse.mp (hall rename hmem).1
      name_ne_next := fun rename hmem => (hall rename hmem).2
      nodup_name := hname
      nodup_next := hnext
      findTable := ⟨table, h.findTable_eq_some.mpr hnamed,
        fun rename hmem => (Edit.mem_rowNames h.intact).mpr (hhas rename hmem),
        fun rename hmem hheld => hfree rename hmem ((Edit.mem_rowNames h.intact).mp hheld)⟩ }

/-! ## What is done -/

/-- The row of a name, among the rows of a table version. -/
theorem Sound.findRow_iff (h : s.Sound supply) :
    s.findRow v name = some row ↔ row ∈ s.rowsOf v ∧ row.name.text = name := by
  rw [h.findRow_eq_some, h.intact.mem_rowsOf]
  exact ⟨fun hnamed => ⟨⟨hnamed.held, hnamed.stored⟩, hnamed.text_eq⟩,
    fun ⟨⟨hheld, hstored⟩, hname⟩ => ⟨hheld, hstored, hname⟩⟩

/-- The rows of a table version have different names. -/
theorem Sound.nodup_names (h : s.Sound supply) (v : VersionId) :
    ((s.rowsOf v).map (·.name.text)).Nodup := by
  refine h.intact.nodup_rowsOf ?_ v
  intro v u u' row row' hu hu' hrow hrow' hsame
  exact h.coherent.rowNames hu hu' hrow hrow' (congrArg RowName.mk hsame)

/-- The rows that a table of a draft shows have got their new names. -/
structure RenamedAtOnce (s : Store) (id : RevisionId) (name : String) (renames : List RowRename)
    (before after : TableVersion) (s' : Store) : Prop where
  /-- This version of the table was shown before. -/
  findTable_before : s.findTable id name = some before
  /-- This version of the table is shown now. -/
  findTable_after : s'.findTable id name = some after
  /-- The row that had a name is found under its new one, and otherwise it is what it was, but for
  its version and for when that last changed. -/
  findRow_next : ∀ rename ∈ renames, ∃ old version time,
    s.findRow before.version rename.name = some old ∧
      s'.findRow after.version rename.next =
        some { old.copy version time with name := ⟨rename.next⟩ }
  /-- A name that is neither given up nor taken is that of the same version as before. -/
  findRow_other : ∀ text, text ∉ renames.map (·.name) → text ∉ renames.map (·.next) →
    s'.findRow after.version text = s.findRow before.version text
  /-- A name that is given up and not taken is free. -/
  findRow_free : ∀ text ∈ renames.map (·.name), text ∉ renames.map (·.next) →
    s'.findRow after.version text = none
  /-- Rows that are not named keep their versions. -/
  kept : ∀ row ∈ s.rowsOf before.version, row.name.text ∉ renames.map (·.name) →
    row ∈ s'.rowsOf after.version
  /-- The names of the rows are still different. -/
  nodup_names : ((s'.rowsOf after.version).map (·.name.text)).Nodup

/-- Names are substituted at once by what a batch of renames exchanges. -/
theorem RenamesRows.renamedAtOnce {batch : RowBatch RenamedRow} (h : s.Sound supply)
    (h' : s'.Sound supply') (hrenames : s.RenamesRows id name renames batch s') :
    ∃ before after, s.RenamedAtOnce id name renames before after s' := by
  obtain ⟨before, after, pairs, hbatched, rfl, hcopies, -, -⟩ := hrenames
  have holds (row : RowVersion) := hbatched.mem_olds row
  have hrows (row : RowVersion) := hbatched.mem_rowsOf row
  simp only [Exchange.olds_replace, Exchange.news_replace, List.map_map, Function.comp_def]
    at holds hrows
  have hnew {pair : RowVersion × RowVersion} (hpair : pair ∈ pairs) :
      pair.2 ∈ s'.rowsOf after.version :=
    (hrows _).mpr (.inl (List.mem_map_of_mem hpair))
  refine ⟨before, after, {
    findTable_before := hbatched.findTable_before
    findTable_after := hbatched.findTable_after
    findRow_next := ?_
    findRow_other := ?_
    findRow_free := ?_
    kept := ?_
    nodup_names := h'.nodup_names _ }⟩
  · intro rename hmem
    obtain ⟨pair, hpair, rfl⟩ := List.mem_map.mp hmem
    obtain ⟨version, time, hcopy⟩ := hcopies pair hpair
    refine ⟨pair.1, version, time, h.findRow_iff.mpr ⟨?_, rfl⟩, h'.findRow_iff.mpr ⟨?_, rfl⟩⟩
    · exact ((holds pair.1).mp (List.mem_map_of_mem hpair)).1
    · rw [← hcopy]
      exact hnew hpair
  · intro text hname hnext
    refine Option.ext fun row => ?_
    simp only [List.map_map, Function.comp_def] at hname hnext
    rw [h'.findRow_iff, h.findRow_iff, hrows]
    refine and_congr_left fun htext => ?_
    rw [htext, and_iff_left hname]
    refine or_iff_right fun hmem => hnext ?_
    obtain ⟨pair, hpair, rfl⟩ := List.mem_map.mp hmem
    exact List.mem_map.mpr ⟨pair, hpair, htext⟩
  · intro text hname hnext
    simp only [List.map_map, Function.comp_def] at hname hnext
    refine Option.eq_none_iff_forall_ne_some.mpr ?_
    intro row hrow
    obtain ⟨hmem, rfl⟩ := h'.findRow_iff.mp hrow
    rcases (hrows row).mp hmem with hmem | ⟨-, hnot⟩
    · obtain ⟨pair, hpair, rfl⟩ := List.mem_map.mp hmem
      exact hnext (List.mem_map.mpr ⟨pair, hpair, rfl⟩)
    · exact hnot hname
  · intro row hmem hname
    simp only [List.map_map, Function.comp_def] at hname
    exact (hrows row).mpr (.inr ⟨hmem, hname⟩)

end Store

/-- Renaming rows substitutes their names at once. -/
theorem Edit.renameRows_renamedAtOnce (h : w.Sound)
    (hcan : w.store.CanRenameRows id name renames) :
    (renameRows id name renames).Yields w fun _ w' =>
      ∃ before after, w.store.RenamedAtOnce id name renames before after w'.store := by
  obtain ⟨draft, hdraft, rfl, hcan⟩ := (Store.canRenameRows_iff h).mp hcan
  refine ((renameRows_batched h hdraft hcan).and (renameRows_edit h hdraft hcan)).imp ?_
  rintro batch w' ⟨hrenames, hedit, -⟩
  exact hrenames.renamedAtOnce h hedit.sound

namespace Database

variable {db : Database}

/-- Wherever a run has led to, a batch of renames is carried out exactly when it can be, and then
the names are substituted at once; otherwise it is refused for its own sake and changes nothing. -/
theorem Fresh.run_renamesAtOnce (h : db.Fresh) (commands : List Command) (id : RevisionId)
    (name : String) (renames : List RowRename) :
    ((db.run commands).store.CanRenameRows id name renames →
      (db.run commands).CarriesOut (.renameRows id name renames) fun reply db' =>
        ∃ batch, reply = .rowsRenamed batch ∧ ∃ before after,
          (db.run commands).store.RenamedAtOnce id name renames before after db'.store) ∧
    (¬(db.run commands).store.CanRenameRows id name renames →
      ∃ fault db', (db.run commands).execute (.renameRows id name renames) =
          (.error (.command fault), db') ∧
        fault.isInternal = false ∧ db'.store = (db.run commands).store) := by
  have hsound := h.run_sound commands
  have hiff : (db.run commands).store.CanRenameRows id name renames ↔ _ :=
    Store.canRenameRows_iff (w := (db.run commands).begin) hsound
  refine ⟨?_, ?_⟩
  · intro hcan
    refine carriesOut_of_yields (P := fun reply s' => ∃ batch, reply = .rowsRenamed batch ∧
      ∃ before after, (db.run commands).store.RenamedAtOnce id name renames before after s') hsound
      (Edit.yields_map.mpr ((Edit.renameRows_renamedAtOnce hsound hcan).imp ?_))
    intro batch w' hrenamed
    exact ⟨batch, rfl, hrenamed⟩
  · intro hnot
    exact execute_of_not_allows hsound fun hallowed => hnot (hiff.mpr hallowed)

/-- A table with three rows is committed. -/
def threeRowsCommitted : List Command :=
  [.createBranch "main" none, .createTable ⟨"ii"⟩ "users" false,
    .createRows ⟨"ii"⟩ "users" [⟨"ada", .null, none, none, none⟩, ⟨"bob", .null, none, none, none⟩,
      ⟨"eve", .null, none, none, none⟩], .commit ⟨"main"⟩ none]

/-- A database in memory after that. -/
def threeCommitted : Database :=
  (inMemory (.unary fun _ => ⟨0, 0⟩)).run threeRowsCommitted

/-- In the next draft their names can be passed on around a cycle, which the batch need not list in
order. They cannot be passed on when the last one is not given up. -/
theorem run_renamesAtOnce_threeCommitted :
    (∃ reply db', threeCommitted.execute (.renameRows ⟨"iiiiiiiiiii"⟩ "users"
        [⟨"bob", "eve"⟩, ⟨"ada", "bob"⟩, ⟨"eve", "ada"⟩]) = (.ok reply, db') ∧
      ∃ before after, threeCommitted.store.RenamedAtOnce ⟨"iiiiiiiiiii"⟩ "users"
        [⟨"bob", "eve"⟩, ⟨"ada", "bob"⟩, ⟨"eve", "ada"⟩] before after db'.store) ∧
    ∃ fault db', threeCommitted.execute (.renameRows ⟨"iiiiiiiiiii"⟩ "users"
        [⟨"bob", "eve"⟩, ⟨"ada", "bob"⟩]) = (.error (.command fault), db') ∧
      db'.store = threeCommitted.store := by
  have hfresh := fresh_inMemory (Supply.distinct_unary fun _ => ⟨0, 0⟩)
  have hdraft : ∃ draft, threeCommitted.store.revision? ⟨"iiiiiiiiiii"⟩ = some draft ∧
      draft.isDraft = true :=
    Option.map_eq_some_iff.mp (by decide +kernel)
  obtain ⟨table, htable, hnames⟩ : ∃ table : TableVersion,
      threeCommitted.store.findTable ⟨"iiiiiiiiiii"⟩ "users" = some table ∧
        (threeCommitted.store.rowsOf table.version).map (·.name.text) = ["ada", "bob", "eve"] :=
    Option.map_eq_some_iff.mp (by decide +kernel)
  refine ⟨?_, ?_⟩
  · have hcan : threeCommitted.store.CanRenameRows ⟨"iiiiiiiiiii"⟩ "users"
        [⟨"bob", "eve"⟩, ⟨"ada", "bob"⟩, ⟨"eve", "ada"⟩] := {
      isDraft := hdraft
      isIdentifier := by decide
      name_ne_next := by decide
      nodup_name := by decide
      nodup_next := by decide
      findTable := ⟨table, htable, by rw [hnames]; decide, by rw [hnames]; decide⟩ }
    obtain ⟨hcarried, -⟩ := Fresh.run_renamesAtOnce hfresh threeRowsCommitted ⟨"iiiiiiiiiii"⟩
      "users" [⟨"bob", "eve"⟩, ⟨"ada", "bob"⟩, ⟨"eve", "ada"⟩]
    obtain ⟨reply, db', hresult, batch, -, hrenamed⟩ :=
      (hcarried hcan).of_memory (by rw [(opened_run _ _).1]; rfl)
    exact ⟨reply, db', hresult, hrenamed⟩
  · have hcannot : ¬threeCommitted.store.CanRenameRows ⟨"iiiiiiiiiii"⟩ "users"
        [⟨"bob", "eve"⟩, ⟨"ada", "bob"⟩] := by
      intro hcan
      obtain ⟨other, hother, -, hfree⟩ := hcan.findTable
      obtain rfl := Option.some.inj (htable.symm.trans hother)
      rw [hnames] at hfree
      exact absurd (hfree ⟨"bob", "eve"⟩ (by decide) (by decide)) (by decide)
    obtain ⟨-, hrefused⟩ := Fresh.run_renamesAtOnce hfresh threeRowsCommitted ⟨"iiiiiiiiiii"⟩
      "users" [⟨"bob", "eve"⟩, ⟨"ada", "bob"⟩]
    obtain ⟨fault, db', hresult, -, hstore⟩ := hrefused hcannot
    exact ⟨fault, db', hresult, hstore⟩

end Database

end VersionedTables
