import VersionedTables.Proofs.Edit.Exchanges
import VersionedTables.Proofs.Refusals

/-!
# Row batches copy just what they must

A batch may find its table published or not, and under that table some rows that are published and
some that are not. It has to copy what is published, or it would write to what must not change; it
must not copy anything else, or versions would not be shared any more. `Store.Batched` says what a
batch did: which versions are new, that each has the identity and the age of the one in whose place
it is, and that a version that was replaced is still there as it was, with all its links but the one
that the batch was about.

None of it depends on the order in which rows were copied, linked and looked up. What became of the
table is told by `Layer.Reopens`, and what became of its rows by the list of exchanges that the loops
of the batch come to (`Layer.Exchanges`). From both, `Store.Batched` follows
(`Store.Batched.of_layers`), and new versions can be counted (`Store.length_newRows_of_exchanges`).
The commands only differ in their exchanges, so each of them is left with saying which these are.
-/

namespace VersionedTables

variable {w w' w₁ w₂ : Workspace} {id : RevisionId} {draft : Revision} {table : TableVersion}
  {name : String} {ρ : Type}

/-! ## Tables -/

/-- A revision shows the table version `after`, which may be changed, where it showed `before`. If
`before` may be changed it is the same one, and otherwise it is a new copy. All else stays. -/
structure Layer.Reopens (id : RevisionId) (before after : TableVersion)
    (L L' : Layer RevisionId TableVersion) : Prop where
  is_copy : ∃ version time, after = before.copy version time
  version : if before.readonly then L.record? after.version = none else after = before
  shown : L.Linked id before.version
  stored : L.record? before.version = some before
  stored' : L'.record? after.version = some after
  links : ∀ {v}, L'.Linked id v ↔ v = after.version ∨ L.Linked id v ∧ v ≠ before.version
  links_other : ∀ {r v}, r ≠ id → (L'.Linked r v ↔ L.Linked r v)
  kept : ∀ {v}, v ≠ after.version → L'.record? v = L.record? v

/-- A version that may be changed is a copy of itself. -/
theorem TableVersion.eq_copy (h : table.readonly = false) :
    table = table.copy table.version table.updatedAt := by
  cases table
  cases h
  rfl

namespace Layer.Reopens

variable {L L' : Layer RevisionId TableVersion} {before after : TableVersion}

theorem eq_of_mutable (h : Reopens id before after L L') (hmutable : before.readonly = false) :
    after = before := by
  have hversion := h.version
  rwa [if_neg (Bool.eq_false_iff.mp hmutable)] at hversion

/-- What is shown now is another version just if what was shown before is published. -/
theorem version_ne_iff (h : Reopens id before after L L') :
    after.version ≠ before.version ↔ before.readonly = true := by
  refine ⟨fun hne => ?_, fun hreadonly heq => ?_⟩
  · by_contra hmutable
    exact hne (congrArg _ (h.eq_of_mutable (Bool.eq_false_iff.mpr hmutable)))
  · have hnone := h.version
    rw [if_pos hreadonly, heq, h.stored] at hnone
    cases hnone

/-- A published version only loses its link in the one revision. -/
theorem linked_before (h : Reopens id before after L L') (hreadonly : before.readonly = true)
    {r : RevisionId} : L'.Linked r before.version ↔ r ≠ id ∧ L.Linked r before.version := by
  by_cases hr : r = id
  · subst hr
    rw [h.links]
    refine iff_of_false ?_ fun hlinked => hlinked.1 rfl
    rintro (heq | ⟨-, hne⟩)
    · exact h.version_ne_iff.mpr hreadonly heq.symm
    · exact hne rfl
  · rw [h.links_other hr, and_iff_right hr]

variable (hshown : L.Linked id table.version) (hstored : L.record? table.version = some table)

include hshown hstored

/-- What may be changed stays in its place. -/
theorem keep (hmutable : table.readonly = false) : Reopens id table table L L where
  is_copy := ⟨_, _, TableVersion.eq_copy hmutable⟩
  version := by rw [hmutable, if_neg Bool.false_ne_true]
  shown := hshown
  stored := hstored
  stored' := hstored
  links := by
    intro v
    by_cases hv : v = table.version
    · simp [hv, hshown]
    · simp [hv]
  links_other _ := Iff.rfl
  kept _ := rfl

/-- A copy takes the place of what is published. -/
theorem place (hreadonly : table.readonly = true) {version : VersionId} {time : Instant}
    (hnew : L.record? version = none) :
    Reopens id table (table.copy version time) L
      (L.place id (some table.version) version (table.copy version time)) where
  is_copy := ⟨_, _, rfl⟩
  version := by rwa [if_pos hreadonly]
  shown := hshown
  stored := hstored
  stored' := if_pos rfl
  links := by simp [eq_comm]
  links_other hr := by simp [hr]
  kept hv := if_neg hv

end Layer.Reopens

namespace Edit

open Layer Exchange

/-- A table is got hold of with the rows that it holds. -/
theorem draftTable_reopens (h : w.Sound) (hnamed : w.graph.NamesTable id name table) :
    (draftTable id name).Yields w fun target w' => target.previous = table.version ∧
      Reopens id table target.table w.graph.tables w'.graph.tables ∧
        Exchanges [] table.version target.table.version w.graph.rows w'.graph.rows := by
  refine (draftTable_yields h.openable hnamed).imp ?_
  rintro ⟨_, previous, isCopy⟩ w' ⟨hprevious, ⟨hmutable, rfl, rfl⟩ |
    ⟨hreadonly, version, time, rfl, hbetween, hgraph⟩⟩
  · exact ⟨hprevious, .keep hnamed.shown hnamed.stored hmutable, .refl⟩
  · rw [hgraph]
    refine ⟨hprevious, .place hnamed.shown hnamed.stored hreadonly ?_, .inherit⟩
    exact h.table?_eq_none hbetween.1

end Edit

/-! ## Counting -/

namespace Store

variable {s s' : Store} {supply supply' : Supply} {before after : TableVersion}
  {names : List String} {xs : List Exchange}

/-- The table versions that there are now and that there were not before. -/
def newTables (s s' : Store) : List VersionId :=
  s'.tableVersions.filter fun v => (s.table? v).isNone

/-- The row versions that there are now and that there were not before. -/
def newRows (s s' : Store) : List VersionId :=
  s'.rowVersions.filter fun u => (s.row? u).isNone

/-- Only a copy of a table is new. -/
theorem newTables_of_reopens (h : Layer.Reopens id before after s.graph.tables s'.graph.tables) :
    s.newTables s' = if before.readonly then [after.version] else [] := by
  have hnodup : (s.newTables s').Nodup := (nodup_keys s'.tables).filter _
  have hmem (v : VersionId) : v ∈ s.newTables s' ↔ v = after.version ∧ before.readonly = true := by
    rw [newTables, List.mem_filter, mem_tableVersions, Option.isNone_iff_eq_none]
    have hversion := h.version
    refine ⟨?_, ?_⟩
    · rintro ⟨⟨record, hrecord⟩, hnone⟩
      obtain rfl : v = after.version := by
        by_contra hne
        have hkept := h.kept hne
        simp only [graph_table?, hrecord, hnone] at hkept
        cases hkept
      refine ⟨rfl, ?_⟩
      by_contra hmutable
      rw [if_neg hmutable] at hversion
      rw [hversion] at hnone
      cases hnone.symm.trans h.stored
    · rintro ⟨rfl, hreadonly⟩
      rw [if_pos hreadonly] at hversion
      exact ⟨⟨after, h.stored'⟩, hversion⟩
  split
  · next hreadonly =>
    refine List.perm_singleton.mp ((List.perm_ext_iff_of_nodup hnodup
      (List.nodup_singleton _)).mpr fun v => ?_)
    rw [hmem, and_iff_left hreadonly, List.mem_singleton]
  · next hmutable =>
    refine List.eq_nil_iff_forall_not_mem.mpr fun v hv => hmutable ((hmem v).mp hv).2

/-- There are as many new row versions as came of exchanges. -/
theorem length_newRows_of_exchanges {v v' : VersionId}
    (h : Layer.Exchanges xs v v' s.graph.rows s'.graph.rows) :
    (s.newRows s').length = xs.countP (·.isNew) := by
  rw [← Exchange.length_new h.fits fun old hold => (h.held hold).2]
  refine List.Perm.length_eq ((List.perm_ext_iff_of_nodup ((nodup_keys s'.rows).filter _)
    (h.nodup.filter _)).mpr fun u => ?_)
  rw [List.mem_filter, List.mem_filter]
  refine and_congr_left fun hnone => ?_
  rw [Option.isNone_iff_eq_none] at hnone
  rw [show u ∈ s'.rows.keys ↔ _ from mem_rowVersions, List.mem_map]
  refine ⟨?_, ?_⟩
  · rintro ⟨row, hrow⟩
    by_contra hnot
    have hkept := h.kept (fun new hnew heq => hnot ⟨new, hnew, heq⟩) fun old hold heq => by
      rw [← heq] at hnone
      cases hnone.symm.trans (h.held hold).2
    simp only [graph_row?, hrow, hnone] at hkept
    cases hkept
  · rintro ⟨new, hnew, rfl⟩
    exact ⟨new, h.stored hnew⟩

/-! ## Batches -/

/-- A batch on the table `name` of the draft `id` made the exchanges `xs` with the rows that the
texts `names` name, and did nothing else. -/
structure Batched (s : Store) (id : RevisionId) (name : String) (names : List String)
    (batch : RowBatch ρ) (before after : TableVersion) (xs : List Exchange) (s' : Store) : Prop where
  /-- This version of the table was shown before. -/
  findTable_before : s.findTable id name = some before
  /-- This version of the table is shown now. -/
  findTable_after : s'.findTable id name = some after
  /-- The answer names both. -/
  answer : batch.previousTable = before.version ∧ batch.table = after.version
  /-- The version has another identifier just if the one before was published. -/
  version_ne_iff : after.version ≠ before.version ↔ before.readonly = true
  /-- Otherwise it is the same with all that is recorded of it. -/
  after_eq : before.readonly = false → after = before
  /-- It may be changed, and is of the same table with the same name and the same age. -/
  is_copy : ∃ version time, after = before.copy version time
  /-- No other table version is new. -/
  newTables_eq : s.newTables s' = if before.readonly then [after.version] else []
  /-- A version that was published loses its link in the draft, and nothing else. -/
  replaced_table : before.readonly = true → s'.table? before.version = some before ∧
    (∀ r, s'.Shows r before.version ↔ r ≠ id ∧ s.Shows r before.version) ∧
      ∀ u, s'.Holds before.version u ↔ s.Holds before.version u
  /-- The other table versions are what they were. -/
  table?_other : ∀ v, v ≠ after.version → s'.table? v = s.table? v
  /-- The draft shows the same other tables. -/
  shows_draft : ∀ v, s'.Shows id v ↔ v = after.version ∨ s.Shows id v ∧ v ≠ before.version
  /-- The other revisions show what they did. -/
  shows_other : ∀ r, r ≠ id → ∀ v, s'.Shows r v ↔ s.Shows r v
  /-- The versions that were exchanged are those of the rows that were named. -/
  mem_olds : ∀ row, row ∈ Exchange.olds xs ↔ row ∈ s.rowsOf before.version ∧ row.name.text ∈ names
  /-- What takes the place of a version is a new version just if that was published. It may be
  changed, and is of the same row with the same age. -/
  fits : ∀ x ∈ xs, x.Fits s.row?
  /-- So a row has a version of another identifier just if the one before was published. -/
  row_version_ne_iff : ∀ old new, .replace old new ∈ xs →
    (new.version ≠ old.version ↔ old.readonly = true)
  /-- The table holds what came of it, and rows that were not named in the versions they had. -/
  mem_rowsOf : ∀ row, row ∈ s'.rowsOf after.version ↔
    row ∈ Exchange.news xs ∨ row ∈ s.rowsOf before.version ∧ row.name.text ∉ names
  /-- There are as many new row versions as came of it. -/
  length_newRows : (s.newRows s').length = xs.countP (·.isNew)
  /-- A version that was published loses its link in the table of the draft, and nothing else. -/
  replaced_row : ∀ old ∈ Exchange.olds xs, old.readonly = true → s'.row? old.version = some old ∧
    ∀ v, s'.Holds v old.version ↔ v ≠ after.version ∧ s.Holds v old.version
  /-- Row versions that were not exchanged are what they were. -/
  row?_other : ∀ row, s.row? row.version = some row → row ∉ Exchange.olds xs →
    s'.row? row.version = some row
  /-- Other table versions hold what they did. -/
  holds_other : ∀ v, v ≠ after.version → ∀ u, s'.Holds v u ↔ s.Holds v u

/-- What a batch did can be told from its exchanges. -/
theorem Batched.of_layers {batch : RowBatch ρ} (h : s.Sound supply) (h' : s'.Sound supply')
    (hnamed : s.graph.NamesTable id name before)
    (hanswer : batch.previousTable = before.version ∧ batch.table = after.version)
    (htables : Layer.Reopens id before after s.graph.tables s'.graph.tables)
    (hrows : Layer.Exchanges xs before.version after.version s.graph.rows s'.graph.rows)
    (hnames : ∀ row ∈ s.rowsOf before.version,
      row.name.text ∈ names ↔ row.name.text ∈ (Exchange.olds xs).map (·.name.text)) :
    s.Batched id name names batch before after xs s' := by
  have holds (row : RowVersion) : row ∈ Exchange.olds xs ↔
      row ∈ s.rowsOf before.version ∧ row.name.text ∈ names := by
    refine ⟨?_, ?_⟩
    · intro hold
      have hrow : row ∈ s.rowsOf before.version := h.intact.mem_rowsOf.mpr (hrows.held hold)
      exact ⟨hrow, (hnames row hrow).mpr (List.mem_map_of_mem hold)⟩
    · rintro ⟨hrow, hname⟩
      obtain ⟨old, hold, hsame⟩ := List.mem_map.mp ((hnames row hrow).mp hname)
      obtain ⟨hlinked, hstored⟩ := h.intact.mem_rowsOf.mp hrow
      obtain rfl := Graph.NamesRow.unique h.coherent.rowNames ⟨hlinked, hstored, rfl⟩
        ⟨(hrows.held hold).1, (hrows.held hold).2, hsame⟩
      exact hold
  have hnamed' : s'.graph.NamesTable id name after := by
    refine ⟨htables.links.mpr (.inl rfl), htables.stored', ?_⟩
    obtain ⟨version, time, rfl⟩ := htables.is_copy
    exact hnamed.named
  exact {
    findTable_before := h.findTable_eq_some.mpr hnamed
    findTable_after := h'.findTable_eq_some.mpr hnamed'
    answer := hanswer
    version_ne_iff := htables.version_ne_iff
    after_eq := htables.eq_of_mutable
    is_copy := htables.is_copy
    newTables_eq := newTables_of_reopens htables
    replaced_table := by
      intro hflag
      have hother := (htables.version_ne_iff.mpr hflag).symm
      exact ⟨(htables.kept hother).trans hnamed.stored, fun r => htables.linked_before hflag,
        fun u => hrows.links_other hother⟩
    table?_other := fun v hv => htables.kept hv
    shows_draft := fun v => htables.links
    shows_other := fun r hr v => htables.links_other hr
    mem_olds := holds
    fits := hrows.fits
    row_version_ne_iff := fun old new hmem => hrows.version_ne_iff hmem
    mem_rowsOf := by
      intro row
      rw [h'.intact.mem_rowsOf, h.intact.mem_rowsOf]
      refine hrows.mem_iff.trans (or_congr_right (and_congr_right fun hrow => not_congr ?_))
      rw [holds, and_iff_right (h.intact.mem_rowsOf.mpr hrow)]
    length_newRows := length_newRows_of_exchanges hrows
    replaced_row := fun old hold hflag =>
      ⟨hrows.record?_eq (hrows.held hold).2 fun _ => hflag, fun v => hrows.linked_old hold hflag⟩
    row?_other := fun row hrow hnot => hrows.record?_eq hrow fun hold => absurd hold hnot
    holds_other := fun v hv u => hrows.links_other hv }

/-- When each version that was exchanged got one in its place, there is a new one for each row that
was named and published. -/
theorem Batched.length_replaced {batch : RowBatch ρ} {pairs : List (RowVersion × RowVersion)}
    (h : s.Batched id name names batch before after
      (pairs.map fun pair => .replace pair.1 pair.2) s')
    (hsound : s.Sound supply) (hnames : pairs.map (·.1.name.text) = names) (hnodup : names.Nodup) :
    (s.newRows s').length = ((s.rowsOf before.version).filter fun row =>
      row.readonly && names.contains row.name.text).length := by
  have holds : (pairs.map (·.1)).Nodup := by
    refine List.Nodup.of_map (·.name.text) ?_
    rwa [List.map_map, show pairs.map ((·.name.text) ∘ Prod.fst) = names from hnames]
  have hrows : (s.rowsOf before.version).Nodup :=
    (hsound.intact.nodup_rowsOf hsound.coherent.rowNames _).of_map
  have hperm : (pairs.map (·.1)).Perm
      ((s.rowsOf before.version).filter fun row => names.contains row.name.text) := by
    refine (List.perm_ext_iff_of_nodup holds (hrows.filter _)).mpr fun row => ?_
    have hmem := h.mem_olds row
    rw [Exchange.olds_replace] at hmem
    rw [hmem, List.mem_filter, List.contains_iff_mem]
  rw [h.length_newRows, List.countP_map, ← List.filter_filter, ← List.countP_eq_length_filter,
    ← hperm.countP_eq, List.countP_map]
  rfl

/-- Rows were created, one new version for each input. -/
def CreatesRows (s : Store) (id : RevisionId) (name : String) (inputs : List RowInput)
    (batch : RowBatch CreatedRow) (s' : Store) : Prop :=
  ∃ before after, ∃ news : List RowVersion,
    s.Batched id name (inputs.map (·.name)) batch before after (news.map .create) s' ∧
      news.map (·.name.text) = inputs.map (·.name) ∧ batch.rows = news.map (·.created) ∧
        (s.newRows s').length = inputs.length

/-- Rows were given new data, and are answered with the version before and the version that has it.
There is a new version for each that was published. -/
def UpdatesRows (s : Store) (id : RevisionId) (name : String) (inputs : List RowInput)
    (batch : RowBatch UpdatedRow) (s' : Store) : Prop :=
  ∃ before after, ∃ pairs : List (RowVersion × RowVersion),
    s.Batched id name (inputs.map (·.name)) batch before after
        (pairs.map fun pair => .replace pair.1 pair.2) s' ∧
      pairs.map (·.1.name.text) = inputs.map (·.name) ∧
        batch.rows = pairs.map (fun pair => pair.1.updated pair.2) ∧
          (s.newRows s').length = ((s.rowsOf before.version).filter fun row =>
            row.readonly && (inputs.map (·.name)).contains row.name.text).length

/-- Rows were removed, each just once, and no version is new. -/
def RemovesRows (s : Store) (id : RevisionId) (name : String) (names : List String)
    (batch : RowBatch RemovedRow) (s' : Store) : Prop :=
  ∃ before after, ∃ olds : List RowVersion,
    s.Batched id name names batch before after (olds.map .remove) s' ∧
    olds.map (·.name.text) = keepFirst [] names ∧ batch.rows = olds.map (·.removed) ∧
      s.newRows s' = []

/-- Rows were renamed and are not different otherwise, but for their versions. There is a new
version for each that was published. -/
def RenamesRows (s : Store) (id : RevisionId) (name : String) (renames : List RowRename)
    (batch : RowBatch RenamedRow) (s' : Store) : Prop :=
  ∃ before after, ∃ pairs : List (RowVersion × RowVersion),
    s.Batched id name (renames.map (·.name)) batch before after
        (pairs.map fun pair => .replace pair.1 pair.2) s' ∧
      pairs.map (fun pair => ⟨pair.1.name.text, pair.2.name.text⟩) = renames ∧
        (∀ pair ∈ pairs, ∃ version time,
          pair.2 = { pair.1.copy version time with name := pair.2.name }) ∧
          batch.rows = pairs.map (fun pair => pair.1.renamed pair.2) ∧
            (s.newRows s').length = ((s.rowsOf before.version).filter fun row =>
              row.readonly && (renames.map (·.name)).contains row.name.text).length

end Store

/-! ## Commands -/

namespace Edit

open Layer Exchange

/-- Marking a draft, or not, is not a step on tables or rows. -/
theorem markIf_yields {F : Content → Content} {flag : Bool} {Q : Workspace → Prop}
    (hstep : CleanStep draft.id F w w₁) (hdraft : w.graph.lines.Drafts draft)
    (hQ : ∀ w' lines, w'.Sound → w'.graph = w₁.graph.withLines lines → Q w') :
    if flag = true then (markChanged draft).Yields w₁ fun _ w' => Q w' else Q w₁ := by
  split
  · refine ((markChanged_edit hstep hdraft).and
      (markChanged_yields (hstep.drafts hdraft).stored)).imp ?_
    rintro - w' ⟨⟨hedit, -⟩, hgraph, -⟩
    exact hQ w' _ hedit.sound hgraph
  · exact hQ w₁ _ hstep.sound rfl

/-- A batch is told by what its work exchanges in the table that it got hold of, whatever becomes of
the mark of the draft. -/
theorem batched_of_exchanges {target : DraftTable} {F : Set RowContent → Set RowContent}
    {lines : Lines} {names : List String} {rows : List ρ} {xs : List Exchange} (h : w.Sound)
    (h' : w'.Sound) (hnamed : w.graph.NamesTable id name table)
    (htarget : target.previous = table.version ∧
      Reopens id table target.table w.graph.tables w₁.graph.tables ∧
        Exchanges [] table.version target.table.version w.graph.rows w₁.graph.rows)
    (hstep : RowStep target.table.version F w₁ w₂)
    (hexchanges :
      Exchanges xs target.table.version target.table.version w₁.graph.rows w₂.graph.rows)
    (hgraph : w'.graph = w₂.graph.withLines lines)
    (hnames : ∀ row ∈ w.store.rowsOf table.version,
      row.name.text ∈ names ↔ row.name.text ∈ (olds xs).map (·.name.text)) :
    w.store.Batched id name names ⟨target.table.version, target.previous, rows⟩ table target.table
      xs w'.store := by
  obtain ⟨hprevious, hreopens, hheld⟩ := htarget
  have htables : w'.graph.tables = w₁.graph.tables := by
    rw [hgraph, Graph.withLines_tables, hstep.tables]
  have hrows : w'.graph.rows = w₂.graph.rows := by rw [hgraph, Graph.withLines_rows]
  rw [← htables] at hreopens
  rw [← hrows] at hexchanges
  refine .of_layers h h' hnamed ⟨hprevious, rfl⟩ hreopens ?_ hnames
  exact hheld.append hexchanges (by simp) fun _ _ hnone => hheld.eq_none_of (by simp) hnone

/-- What a batch does is what its work exchanges in the table that it got hold of. -/
theorem batchOn_batched {work : TableVersion → Edit (List ρ)} {R : List Exchange → List ρ → Prop}
    (names : List String) (h : w.Sound) (hdraft : w.graph.lines.Drafts draft)
    (hnamed : w.graph.NamesTable draft.id name table)
    (hwork : ∀ {target : DraftTable} {w₁ : Workspace}, CleanStep draft.id (fun c => c) w w₁ →
      target.Replaces draft.id name table w w₁ → (work target.table).Yields w₁ fun rows w₂ =>
        (∃ F, RowStep target.table.version F w₁ w₂) ∧ ∃ xs, R xs rows ∧
          Exchanges xs target.table.version target.table.version w₁.graph.rows w₂.graph.rows)
    (hnames : ∀ {xs rows}, R xs rows → ∀ row ∈ w.store.rowsOf table.version,
      row.name.text ∈ names ↔ row.name.text ∈ (olds xs).map (·.name.text)) :
    (batchOn draft name work).Yields w fun batch w' => ∃ after xs, R xs batch.rows ∧
      w.store.Batched draft.id name names batch table after xs w'.store := by
  simp only [batchOn, yields_bind, yields_ite, yields_pure]
  refine ((draftTable_step h hdraft.not_published hnamed).and (draftTable_reopens h hnamed)).imp ?_
  rintro target w₁ ⟨⟨hstep, hreplaces⟩, htarget⟩
  refine (hwork hstep hreplaces).imp ?_
  rintro rows w₂ ⟨⟨F, hstep₂⟩, xs, hR, hexchanges⟩
  refine markIf_yields (hstep.rows hreplaces hstep₂) hdraft ?_
  intro w' lines hsound hgraph
  exact ⟨target.table, xs, hR,
    batched_of_exchanges h hsound hnamed htarget hstep₂ hexchanges hgraph (hnames hR)⟩

/-- Creating rows gives just these their first versions. -/
theorem createRows_batched (h : w.Sound) (hdraft : w.graph.lines.Drafts draft)
    {inputs : List RowInput} (hcan : (w.graph.content draft.id).OnTable name (CanCreate · inputs)) :
    (createRows draft.id name inputs).Yields w fun batch w' =>
      w.store.CreatesRows draft.id name inputs batch w'.store := by
  obtain ⟨table, hnamed, hnodup, hnew⟩ := (Graph.onTable_iff h.intact.closed).mp hcan
  refine createRows_of_batchOn h hdraft hcan ((batchOn_batched (R := fun xs rows =>
    ∃ news : List RowVersion, xs = news.map .create ∧
      news.map (·.name.text) = inputs.map (·.name) ∧ rows = news.map (·.created))
        (inputs.map (·.name)) h hdraft hnamed ?_ ?_).imp ?_)
  · intro target w₁ hstep hreplaces
    rw [← hreplaces.rows] at hnew
    have hidentifier : ∀ input ∈ inputs, IsIdentifier input.name :=
      fun input hinput => RowName.isOk_parse.mp (hnew input hinput).1
    have hfree := fun input hinput => (hnew input hinput).2
    refine ((createRows_step hstep.sound hreplaces.not_published ⟨_, hreplaces.named.stored⟩ hnodup
      hidentifier hfree).and (createRows_exchanges hstep.sound hreplaces.not_published
        ⟨_, hreplaces.named.stored⟩ hnodup hidentifier hfree)).imp ?_
    rintro created w₂ ⟨⟨hrows, -⟩, news, hnames, hcreated, hexchanges⟩
    exact ⟨⟨_, hrows⟩, _, ⟨news, rfl, hnames, hcreated⟩, hexchanges⟩
  · -- No row of the table has a name that is asked for.
    rintro _ _ ⟨news, rfl, -, -⟩ row hrow
    rw [olds_create]
    refine iff_of_false (fun hmem => ?_) (by simp)
    obtain ⟨input, hinput, hname⟩ := List.mem_map.mp hmem
    refine (hnew input hinput).2 ((mem_rowNames h.intact).mp ?_)
    rw [hname]
    exact List.mem_map_of_mem hrow
  · rintro batch w' ⟨after, _, ⟨news, rfl, hnames, hrows⟩, hbatched⟩
    refine ⟨table, after, news, hbatched, hnames, hrows, ?_⟩
    rw [hbatched.length_newRows, List.countP_map]
    simpa [Function.comp_def, isNew] using congrArg List.length hnames

/-- Giving rows new data replaces just these. -/
theorem updateRows_batched (h : w.Sound) (hdraft : w.graph.lines.Drafts draft)
    {inputs : List RowInput} (hcan : (w.graph.content draft.id).OnTable name (CanUpdate · inputs)) :
    (updateRows draft.id name inputs).Yields w fun batch w' =>
      w.store.UpdatesRows draft.id name inputs batch w'.store := by
  obtain ⟨table, hnamed, hnodup, hhas⟩ := (Graph.onTable_iff h.intact.closed).mp hcan
  refine updateRows_of_batchOn hdraft hnodup ((batchOn_batched (R := fun xs rows =>
    ∃ pairs : List (RowVersion × RowVersion), xs = pairs.map (fun pair => .replace pair.1 pair.2) ∧
      pairs.map (·.1.name.text) = inputs.map (·.name) ∧
        rows = pairs.map (fun pair => pair.1.updated pair.2)) (inputs.map (·.name)) h hdraft hnamed
      ?_ ?_).imp ?_)
  · intro target w₁ hstep hreplaces
    rw [← hreplaces.rows] at hhas
    refine ((updateRows_step hstep.sound hreplaces.not_published hreplaces.mutable hhas).and
      (updateRows_exchanges hstep.sound hreplaces.not_published hreplaces.mutable hnodup
        hhas)).imp ?_
    rintro updated w₂ ⟨⟨hrows, -⟩, pairs, hnames, hupdated, hexchanges⟩
    exact ⟨⟨_, hrows⟩, _, ⟨pairs, rfl, hnames, hupdated⟩, hexchanges⟩
  · rintro _ _ ⟨pairs, rfl, hnames, -⟩ row -
    rw [olds_replace, List.map_map, ← hnames]
    rfl
  · rintro batch w' ⟨after, _, ⟨pairs, rfl, hnames, hrows⟩, hbatched⟩
    exact ⟨table, after, pairs, hbatched, hnames, hrows, hbatched.length_replaced h hnames hnodup⟩

/-- Removing rows lets go of just these. -/
theorem removeRows_batched (h : w.Sound) (hdraft : w.graph.lines.Drafts draft)
    {names : List String} (hcan : (w.graph.content draft.id).OnTable name (CanRemove · names)) :
    (removeRows draft.id name names).Yields w fun batch w' =>
      w.store.RemovesRows draft.id name names batch.toRowBatch w'.store := by
  obtain ⟨table, hnamed, -⟩ := (Graph.onTable_iff h.intact.closed).mp hcan
  refine removeRows_of_yields h hdraft hcan (((draftTable_step h hdraft.not_published hnamed).and
    (draftTable_reopens h hnamed)).imp ?_)
  rintro target w₁ ⟨⟨hstep, hreplaces⟩, htarget⟩ rows hrows
  have hnodup := nodup_keepFirst [] names
  have hnames : rows.map (·.name.text) = keepFirst [] names := by
    rw [← List.forall₂_eq_eq_eq, List.forall₂_map_left_iff]
    exact hrows.flip.imp fun _ _ hrow => hrow.text_eq
  refine ((removeRows_step hstep.sound hreplaces.not_published hnodup hrows).and
    (removeRows_exchanges hstep.sound hreplaces.not_published hnodup hrows)).imp ?_
  rintro removed w₂ ⟨hstep₂, hremoved, hexchanges⟩
  have hwhole := hstep.rows hreplaces hstep₂
  refine ((refreshHasChanges_edit hwhole hdraft).and
    (refreshHasChanges_yields rfl (hwhole.drafts hdraft).stored)).imp ?_
  rintro flag w₃ ⟨⟨hedit, -⟩, -, hgraph, -⟩
  have hbatched : w.store.Batched draft.id name names
      ⟨target.table.version, target.previous, removed⟩ table target.table (rows.map .remove)
        w₃.store := by
    refine batched_of_exchanges h hedit.sound hnamed htarget hstep₂ hexchanges hgraph ?_
    intro row _
    rw [olds_remove, hnames, mem_keepFirst]
    simp
  refine ⟨table, target.table, rows, hbatched, hnames, hremoved, ?_⟩
  rw [← List.length_eq_zero_iff, hbatched.length_newRows, List.countP_map]
  simp [Function.comp_def, isNew]

/-- Renaming rows replaces just these. -/
theorem renameRows_batched (h : w.Sound) (hdraft : w.graph.lines.Drafts draft)
    {renames : List RowRename}
    (hcan : (w.graph.content draft.id).OnTable name (CanRename · renames)) :
    (renameRows draft.id name renames).Yields w fun batch w' =>
      w.store.RenamesRows draft.id name renames batch w'.store := by
  obtain ⟨table, hnamed, hcan'⟩ := (Graph.onTable_iff h.intact.closed).mp hcan
  have hnodup := hcan'.2.1
  have hsources {pairs : List (RowVersion × RowVersion)}
      (hpairs : pairs.map (fun pair => ⟨pair.1.name.text, pair.2.name.text⟩) = renames) :
      pairs.map (·.1.name.text) = renames.map (·.name) := by
    rw [← hpairs, List.map_map]
    rfl
  refine renameRows_of_batchOn h hdraft hcan ((batchOn_batched (R := fun xs rows =>
    ∃ pairs : List (RowVersion × RowVersion), xs = pairs.map (fun pair => .replace pair.1 pair.2) ∧
      pairs.map (fun pair => ⟨pair.1.name.text, pair.2.name.text⟩) = renames ∧
        (∀ pair ∈ pairs, ∃ version time,
          pair.2 = { pair.1.copy version time with name := pair.2.name }) ∧
          rows = pairs.map (fun pair => pair.1.renamed pair.2)) (renames.map (·.name))
        h hdraft hnamed ?_ ?_).imp ?_)
  · intro target w₁ hstep hreplaces
    rw [← hreplaces.rows] at hcan'
    refine yields_bind.mpr (((draftRows_step hstep.sound hreplaces.not_published hreplaces.mutable
      hcan'.2.2.2.1).and (draftRows_exchanges hstep.sound hreplaces.not_published hreplaces.mutable
        hnodup hcan'.2.2.2.1)).imp ?_)
    rintro _ w₂ ⟨⟨hrows, -, hdrafts, -⟩, pairs, hnames, rfl, hcopies, hexchanges⟩
    rw [← hrows.content] at hcan'
    refine ((renameRows_step hrows.sound hdrafts hcan').and (renameRows_exchanges hrows.sound hnodup
      hnames hcopies hdrafts hexchanges)).imp ?_
    rintro renamed w₃ ⟨⟨hrenamed, -⟩, replaced, hpairs, hcopied, hreplies, hexchanges'⟩
    exact ⟨⟨_, hrows.trans hrenamed⟩, _, ⟨replaced, rfl, hpairs, hcopied, hreplies⟩, hexchanges'⟩
  · rintro _ _ ⟨pairs, rfl, hpairs, -⟩ row -
    rw [olds_replace, List.map_map, ← hsources hpairs]
    rfl
  · rintro batch w' ⟨after, _, ⟨pairs, rfl, hpairs, hcopies, hrows⟩, hbatched⟩
    exact ⟨table, after, pairs, hbatched, hpairs, hcopies, hrows,
      hbatched.length_replaced h (hsources hpairs) hnodup⟩

end Edit

namespace Database

variable {db db' : Database} {command : Command} {reply : Reply}

/-- A command that succeeds was allowed, and answers what its edit ends in then. -/
theorem execute_of_yields {α : Type} {e : Edit α} {answer : α → Reply} {P : α → Store → Prop}
    (h : db.store.Sound db.supply) (hrun : command.run = answer <$> e)
    (hyields : db.begin.Allows command → e.Yields db.begin fun result w => P result w.store)
    (hresult : db.execute command = (.ok reply, db')) :
    ∃ result, reply = answer result ∧ P result db'.store := by
  have hdone := transact_eq_ok hresult
  rw [hrun, Edit.yields_map] at hdone
  obtain ⟨result, w, -, ⟨rfl, hstore, -⟩, hP⟩ := hdone.and (hyields (allows_of_execute h hresult))
  rw [← hstore] at hP
  exact ⟨result, rfl, hP⟩

/-- Wherever a run has led to, a batch that succeeds copies just what it must: the table if that is
published, and of the rows that it names those that are. -/
theorem Fresh.run_batches (h : db.Fresh) (commands : List Command) (id : RevisionId)
    (name : String) :
    (∀ inputs reply db',
      (db.run commands).execute (.createRows id name inputs) = (.ok reply, db') →
        ∃ batch, reply = .rowsCreated batch ∧
          (db.run commands).store.CreatesRows id name inputs batch db'.store) ∧
    (∀ inputs reply db',
      (db.run commands).execute (.updateRows id name inputs) = (.ok reply, db') →
        ∃ batch, reply = .rowsUpdated batch ∧
          (db.run commands).store.UpdatesRows id name inputs batch db'.store) ∧
    (∀ names reply db',
      (db.run commands).execute (.removeRows id name names) = (.ok reply, db') →
        ∃ batch, reply = .rowsRemoved batch ∧
          (db.run commands).store.RemovesRows id name names batch.toRowBatch db'.store) ∧
    ∀ renames reply db',
      (db.run commands).execute (.renameRows id name renames) = (.ok reply, db') →
        ∃ batch, reply = .rowsRenamed batch ∧
          (db.run commands).store.RenamesRows id name renames batch db'.store := by
  have hsound := h.run_sound commands
  refine ⟨?_, ?_, ?_, ?_⟩
  · intro inputs reply db' hresult
    refine execute_of_yields hsound rfl ?_ hresult
    rintro ⟨draft, hdraft, rfl, hcan⟩
    exact Edit.createRows_batched hsound hdraft hcan
  · intro inputs reply db' hresult
    refine execute_of_yields hsound rfl ?_ hresult
    rintro ⟨draft, hdraft, rfl, hcan⟩
    exact Edit.updateRows_batched hsound hdraft hcan
  · intro names reply db' hresult
    refine execute_of_yields hsound rfl ?_ hresult
    rintro ⟨draft, hdraft, rfl, hcan⟩
    exact Edit.removeRows_batched hsound hdraft hcan
  · intro renames reply db' hresult
    refine execute_of_yields hsound rfl ?_ hresult
    rintro ⟨draft, hdraft, rfl, hcan⟩
    exact Edit.renameRows_batched hsound hdraft hcan

/-- A table with two rows is committed, and one of them gets new data in the next draft. -/
def rowUpdatedInDraft : List Command :=
  [.createBranch "main" none, .createTable ⟨"ii"⟩ "users" false,
    .createRows ⟨"ii"⟩ "users"
      [⟨"ada", .null, none, none, none⟩, ⟨"bob", .null, none, none, none⟩],
    .commit ⟨"main"⟩ none,
    .updateRows ⟨"iiiiiiiii"⟩ "users" [⟨"ada", .null, none, none, none⟩]]

/-- A database in memory after that: one row may be changed, and the other one is published. -/
def halfUpdated : Database :=
  (inMemory (.unary fun _ => ⟨0, 0⟩)).run rowUpdatedInDraft

/-- A command that does not end in a fault succeeds. -/
theorem exists_execute (h : (db.execute command).1.isOk = true) :
    ∃ reply db', db.execute command = (.ok reply, db') := by
  rcases hresult : db.execute command with ⟨fault | reply, db'⟩
  · rw [hresult] at h
    cases h
  · exact ⟨reply, db', rfl⟩

/-- Each of the four can be asked of it. When the two rows swap their names, the table stays as it is
and just the one that is published is copied. -/
theorem run_batches_halfUpdated :
    (∃ batch db', halfUpdated.execute (.createRows ⟨"iiiiiiiii"⟩ "users"
        [⟨"eve", .null, none, none, none⟩]) = (.ok (.rowsCreated batch), db') ∧
      halfUpdated.store.CreatesRows ⟨"iiiiiiiii"⟩ "users" [⟨"eve", .null, none, none, none⟩]
        batch db'.store) ∧
    (∃ batch db', halfUpdated.execute (.updateRows ⟨"iiiiiiiii"⟩ "users"
        [⟨"bob", .null, none, none, none⟩]) = (.ok (.rowsUpdated batch), db') ∧
      halfUpdated.store.UpdatesRows ⟨"iiiiiiiii"⟩ "users" [⟨"bob", .null, none, none, none⟩]
        batch db'.store) ∧
    (∃ batch db', halfUpdated.execute (.removeRows ⟨"iiiiiiiii"⟩ "users" ["bob", "ada", "bob"]) =
        (.ok (.rowsRemoved batch), db') ∧
      halfUpdated.store.RemovesRows ⟨"iiiiiiiii"⟩ "users" ["bob", "ada", "bob"] batch.toRowBatch
        db'.store) ∧
    ∃ batch db', halfUpdated.execute (.renameRows ⟨"iiiiiiiii"⟩ "users"
        [⟨"bob", "ada"⟩, ⟨"ada", "bob"⟩]) = (.ok (.rowsRenamed batch), db') ∧
      halfUpdated.store.newTables db'.store = [] ∧
        (halfUpdated.store.newRows db'.store).length = 1 := by
  obtain ⟨hcreate, hupdate, hremove, hrename⟩ := Fresh.run_batches
    (fresh_inMemory (Supply.distinct_unary fun _ => ⟨0, 0⟩)) rowUpdatedInDraft ⟨"iiiiiiiii"⟩ "users"
  refine ⟨?_, ?_, ?_, ?_⟩
  · obtain ⟨reply, db', hresult⟩ : ∃ reply db', halfUpdated.execute (.createRows ⟨"iiiiiiiii"⟩
        "users" [⟨"eve", .null, none, none, none⟩]) = (.ok reply, db') :=
      exists_execute (by decide +kernel)
    obtain ⟨batch, rfl, hbatch⟩ := hcreate _ _ _ hresult
    exact ⟨batch, db', hresult, hbatch⟩
  · obtain ⟨reply, db', hresult⟩ : ∃ reply db', halfUpdated.execute (.updateRows ⟨"iiiiiiiii"⟩
        "users" [⟨"bob", .null, none, none, none⟩]) = (.ok reply, db') :=
      exists_execute (by decide +kernel)
    obtain ⟨batch, rfl, hbatch⟩ := hupdate _ _ _ hresult
    exact ⟨batch, db', hresult, hbatch⟩
  · obtain ⟨reply, db', hresult⟩ : ∃ reply db', halfUpdated.execute (.removeRows ⟨"iiiiiiiii"⟩
        "users" ["bob", "ada", "bob"]) = (.ok reply, db') :=
      exists_execute (by decide +kernel)
    obtain ⟨batch, rfl, hbatch⟩ := hremove _ _ _ hresult
    exact ⟨batch, db', hresult, hbatch⟩
  · obtain ⟨reply, db', hresult⟩ : ∃ reply db', halfUpdated.execute (.renameRows ⟨"iiiiiiiii"⟩
        "users" [⟨"bob", "ada"⟩, ⟨"ada", "bob"⟩]) = (.ok reply, db') :=
      exists_execute (by decide +kernel)
    obtain ⟨batch, rfl, before, after, pairs, hbatched, -, -, -, hcount⟩ := hrename _ _ _ hresult
    have hfound : (halfUpdated.store.findTable ⟨"iiiiiiiii"⟩ "users").map (fun table =>
        (table.readonly, ((halfUpdated.store.rowsOf table.version).filter fun row =>
          row.readonly && ["bob", "ada"].contains row.name.text).length)) = some (false, 1) := by
      decide +kernel
    have hbefore : halfUpdated.store.findTable ⟨"iiiiiiiii"⟩ "users" = some before :=
      hbatched.findTable_before
    rw [hbefore] at hfound
    obtain ⟨hreadonly, hlength⟩ := Prod.mk.inj (Option.some.inj hfound)
    refine ⟨batch, db', hresult, hbatched.newTables_eq.trans ?_, hcount.trans hlength⟩
    rw [hreadonly]
    rfl

end Database

end VersionedTables
