import VersionedTables.Proofs.Ownership

/-!
# Copy on write

What is published never changes. Whoever wants to change a table or a row *opens* it first
(`Edit.draftTable`, `Edit.draftRow`). A version that may be changed is handed out as it is; the
place of another one is taken by a copy, in this one revision or in this one table version, and
everybody else keeps what they saw. Here is said what becomes of everything there is, with every
link seen from both of its ends:

* `Links.Moves` — one link of one thing goes to another partner.
* `Links.Repeats` — one thing comes to link what another one links.
* `Workspace.SwapsTable`, `Workspace.SwapsRow` — a copy took the place of a version, and nothing
  else happened.
* `Edit.Opens` — what an edit that opens a version does in each case, and that doing it again finds
  the same version and changes nothing.

It does not matter whose the versions are: a copy can take a place in a published revision as well,
though no command asks for that. The store is not sound any more then, but versions can still be
opened. So the invariant is `Store.Openable`. Opening a version keeps it
(`Workspace.Openable.next`), opening many does (`Workspace.Openable.openAll`), and every run leads
to it (`Database.Fresh.run_opens`).
-/

namespace VersionedTables

open Std

/-! ## Links that move -/

namespace Links

variable {α β : Type} [Ord α] [TransOrd α] [LawfulEqOrd α] [Ord β] [TransOrd β] [LawfulEqOrd β]

/-- One link of a thing goes from a partner to another, which had none. -/
structure Moves (links : Links α β) (a : α) (b b' : β) (links' : Links α β) : Prop where
  /-- The link was there. -/
  linked : b ∈ links.targets a
  /-- Nothing linked the new partner. -/
  unlinked : links.sources b' = []
  /-- The thing links the new partner, and all others but the old one as before. -/
  targets : ∀ c, c ∈ links'.targets a ↔ c = b' ∨ c ∈ links.targets a ∧ c ≠ b
  /-- Any other thing links what it did. -/
  targets_other : ∀ x, x ≠ a → links'.targets x = links.targets x
  /-- Nothing else links the new partner. -/
  sources_new : links'.sources b' = [a]
  /-- All others link the old partner as before. -/
  sources_old : ∀ x, x ∈ links'.sources b ↔ x ∈ links.sources b ∧ x ≠ a
  /-- Any other partner is linked by what linked it. -/
  sources_other : ∀ c, c ≠ b → c ≠ b' → links'.sources c = links.sources c

/-- A thing that linked nothing comes to link what another one links. -/
structure Repeats (links : Links α β) (a a' : α) (links' : Links α β) : Prop where
  /-- It linked nothing. -/
  unlinking : links.targets a' = []
  /-- It links the same partners as the other one. -/
  targets : links'.targets a' = links.targets a
  /-- Any other thing links what it did. -/
  targets_other : ∀ x, x ≠ a' → links'.targets x = links.targets x
  /-- A partner is linked by what linked it, and by the newcomer if that links it. -/
  sources : ∀ b x, x ∈ links'.sources b ↔ x ∈ links.sources b ∨ x = a' ∧ b ∈ links.targets a

variable [DecidableEq α] {links links' : Links α β} (h : links.Mirrored) (h' : links'.Mirrored)
  {a a' : α} {b b' : β}

include h h'

theorem Moves.of_contains (hlinked : links.contains a b = true)
    (hunlinked : ∀ x, ¬links.contains x b' = true)
    (hlinks : ∀ x c, links'.contains x c = true ↔
      if x = a then c = b' ∨ links.contains a c = true ∧ some b ≠ some c
      else links.contains x c = true) : links.Moves a b b' links' where
  linked := mem_targets.mpr hlinked
  unlinked := by
    rw [List.eq_nil_iff_forall_not_mem]
    intro x hx
    exact hunlinked x (h.mem_sources.mp hx)
  targets := by
    intro c
    rw [mem_targets, hlinks, if_pos rfl, mem_targets, (Option.some_injective _).ne_iff, ne_comm]
  targets_other := by
    intro x hx
    apply targets_congr
    intro c
    rw [Bool.eq_iff_iff, hlinks, if_neg hx]
  sources_new := by
    refine eq_singleton_of_mem (nodup_sources _ _) ?_ ?_
    · rw [h'.mem_sources, hlinks, if_pos rfl]
      exact .inl rfl
    · intro x hx
      by_contra hne
      rw [h'.mem_sources, hlinks, if_neg hne] at hx
      exact hunlinked x hx
  sources_old := by
    intro x
    have hne : b ≠ b' := by
      rintro rfl
      exact hunlinked a hlinked
    rw [h'.mem_sources, hlinks, h.mem_sources]
    by_cases hx : x = a
    · simp [hx, hne]
    · simp [hx]
  sources_other := by
    intro c hb hb'
    refine h'.sources_congr h ?_
    intro x
    rw [Bool.eq_iff_iff, hlinks]
    split
    · next hx => simp [hx, hb', Ne.symm hb]
    · rfl

theorem Repeats.of_contains (hunlinking : ∀ c, ¬links.contains a' c = true)
    (hlinks : ∀ x c, links'.contains x c = true ↔
      if x = a' then ∃ other, some a = some other ∧ links.contains other c = true
      else links.contains x c = true) : links.Repeats a a' links' where
  unlinking := by
    rw [List.eq_nil_iff_forall_not_mem]
    intro c hc
    exact hunlinking c (mem_targets.mp hc)
  targets := by
    apply targets_congr
    intro c
    rw [Bool.eq_iff_iff, hlinks, if_pos rfl]
    simp
  targets_other := by
    intro x hx
    apply targets_congr
    intro c
    rw [Bool.eq_iff_iff, hlinks, if_neg hx]
  sources := by
    intro c x
    rw [h'.mem_sources, hlinks, h.mem_sources, mem_targets]
    by_cases hx : x = a'
    · simp [hx, hunlinking c]
    · simp [hx]

end Links

/-! ## Copies that take a place -/

namespace Workspace

/-- A copy took the place of a table version in one revision, and nothing else happened. -/
structure SwapsTable (w : Workspace) (id : RevisionId) (old new : TableVersion) (w' : Workspace) :
    Prop where
  /-- The copy is the same table with the same content; it may be changed, and only the identifier
  and the date of the version are its own. -/
  is_copy : new = { old with version := new.version, readonly := false, updatedAt := new.updatedAt }
  /-- The identifier was never drawn before. -/
  fresh : w.supply.Between w'.supply new.version.text
  /-- No table version had it. -/
  unknown : w.store.table? new.version = none
  /-- The record of the copy is added; all others, that of the old version too, are as they were. -/
  tables : w'.store.tables = w.store.tables.insert new.version new
  /-- The revision shows the copy in the place of the old version, and every other revision shows
  what it did. -/
  shown : w.store.revisionTables.Moves id old.version new.version w'.store.revisionTables
  /-- The copy holds the same row versions as the old version, which goes on to hold them, and every
  other table version holds what it did. -/
  held : w.store.tableRows.Repeats old.version new.version w'.store.tableRows
  /-- No row version is added, changed or dropped. -/
  rows : w'.store.rows = w.store.rows
  /-- No branch is. -/
  branches : w'.store.branches = w.store.branches
  /-- No revision is. -/
  revisions : w'.store.revisions = w.store.revisions

/-- A copy took the place of a row version in one table version, and nothing else happened. -/
structure SwapsRow (w : Workspace) (v : VersionId) (old new : RowVersion) (w' : Workspace) :
    Prop where
  /-- The copy is the same row with the same data; it may be changed, and only the identifier and
  the date of the version are its own. -/
  is_copy : new = { old with version := new.version, readonly := false, updatedAt := new.updatedAt }
  /-- The identifier was never drawn before. -/
  fresh : w.supply.Between w'.supply new.version.text
  /-- No row version had it. -/
  unknown : w.store.row? new.version = none
  /-- The record of the copy is added; all others, that of the old version too, are as they were. -/
  rows : w'.store.rows = w.store.rows.insert new.version new
  /-- The table version holds the copy in the place of the old version, and every other one holds
  what it did. -/
  held : w.store.tableRows.Moves v old.version new.version w'.store.tableRows
  /-- No table version is added, changed or dropped. -/
  tables : w'.store.tables = w.store.tables
  /-- The revisions show the tables they did. -/
  shown : w'.store.revisionTables = w.store.revisionTables
  /-- No branch is added, changed or dropped. -/
  branches : w'.store.branches = w.store.branches
  /-- No revision is. -/
  revisions : w'.store.revisions = w.store.revisions

variable {w w' : Workspace} {id : RevisionId} {v version : VersionId} {table : TableVersion}
  {row : RowVersion} {name : String} {time : Instant}

theorem SwapsTable.of_graph (h : w.Openable) (h' : w'.store.Intact)
    (hnamed : w.graph.NamesTable id name table)
    (hbetween : w.supply.Between w'.supply version.text)
    (hgraph : w'.graph = w.graph.placeTable id (some table.version) (table.copy version time)) :
    w.SwapsTable id table (table.copy version time) w' := by
  have hnew : w.graph.tables.record? version = none := h.uses.table?_eq_none hbetween.1
  have htables : w'.graph.tables =
      w.graph.tables.place id (some table.version) version (table.copy version time) := by
    rw [hgraph]
    rfl
  have hrows : w'.graph.rows = w.graph.rows.inherit version (some table.version) := by
    rw [hgraph]
    rfl
  have hlines : w'.graph.lines = w.graph.lines := by
    rw [hgraph]
    rfl
  obtain ⟨hbranches, hrevisions⟩ := Store.lines_eq_of_graph hlines
  exact {
    is_copy := rfl
    fresh := hbetween
    unknown := hnew
    tables := Store.eq_insert_of_getElem? fun u => congrFun (congrArg Layer.record? htables) u
    shown := by
      refine .of_contains h.intact.revisionTables.mirrored h'.revisionTables.mirrored hnamed.shown
        (h.intact.closed.not_shown hnew) fun r u => ?_
      exact iff_of_eq (congrFun₂ (congrArg Layer.Linked htables) r u)
    held := by
      refine .of_contains h.intact.tableRows.mirrored h'.tableRows.mirrored
        (h.intact.closed.not_holder hnew) fun x u => ?_
      exact iff_of_eq (congrFun₂ (congrArg Layer.Linked hrows) x u)
    rows := ExtTreeMap.ext_getElem? fun {u} => congrFun (congrArg Layer.record? hrows) u
    branches := hbranches
    revisions := hrevisions }

theorem SwapsRow.of_graph (h : w.Openable) (h' : w'.store.Intact)
    (hnamed : w.graph.NamesRow v name row) (hbetween : w.supply.Between w'.supply version.text)
    (hgraph : w'.graph = w.graph.placeRow v (some row.version) (row.copy version time)) :
    w.SwapsRow v row (row.copy version time) w' := by
  have hnew : w.graph.rows.record? version = none := h.uses.row?_eq_none hbetween.1
  have hrows : w'.graph.rows =
      w.graph.rows.place v (some row.version) version (row.copy version time) := by
    rw [hgraph]
    rfl
  have hsame : w'.graph.lines = w.graph.lines ∧ w'.graph.tables = w.graph.tables := by
    rw [hgraph]
    exact ⟨rfl, rfl⟩
  obtain ⟨hbranches, hrevisions⟩ := Store.lines_eq_of_graph hsame.1
  have htable (u : VersionId) : w'.store.tables[u]? = w.store.tables[u]? :=
    congrFun (congrArg Layer.record? hsame.2) u
  exact {
    is_copy := rfl
    fresh := hbetween
    unknown := hnew
    rows := Store.eq_insert_of_getElem? fun u => congrFun (congrArg Layer.record? hrows) u
    held := by
      refine .of_contains h.intact.tableRows.mirrored h'.tableRows.mirrored hnamed.held
        (h.intact.closed.not_held hnew) fun x u => ?_
      exact iff_of_eq (congrFun₂ (congrArg Layer.Linked hrows) x u)
    tables := ExtTreeMap.ext_getElem? fun {u} => htable u
    shown := by
      refine h.intact.revisionTables_eq h' fun r u => ?_
      exact iff_of_eq (congrFun₂ (congrArg Layer.Linked hsame.2) r u)
    branches := hbranches
    revisions := hrevisions }

/-- The rows of the copy are those of the old version. -/
theorem SwapsTable.rowsOf_new {old new : TableVersion} (h : w.SwapsTable id old new w') :
    w'.store.rowsOf new.version = w.store.rowsOf old.version := by
  have hrow : w'.store.row? = w.store.row? := by
    funext u
    rw [Store.row?, Store.row?, h.rows]
  rw [Store.rowsOf, Store.rowsOf, h.held.targets, hrow]

/-- Versions can be opened after a copy took the place of a table. -/
theorem Openable.placeTable (h : w.Openable)
    (hkeeps : w'.store.Intact ∧ w.supply.Later w'.supply)
    (hnamed : w.graph.NamesTable id name table)
    (hbetween : w.supply.Between w'.supply version.text)
    (hgraph : w'.graph = w.graph.placeTable id (some table.version) (table.copy version time)) :
    w'.Openable := by
  have hnew : w.graph.tables.record? version = none := h.uses.table?_eq_none hbetween.1
  have hentity := (h.uses.tables hnamed.stored).2
  refine h.after hkeeps hgraph ?_ h.rowNames.inherit ?_
  · -- No other table of the revision has the name that the copy takes over.
    exact h.tableNames.place (h.intact.closed.not_shown hnew)
      (h.tableNames.kept_ne hnamed.shown hnamed.stored)
  · exact (h.uses.mono hkeeps.2.drawn_of).placeTable hbetween.2 (hkeeps.2.drawn_of hentity)

/-- Versions can be opened after a copy took the place of a row. -/
theorem Openable.placeRow (h : w.Openable) (hkeeps : w'.store.Intact ∧ w.supply.Later w'.supply)
    (hnamed : w.graph.NamesRow v name row) (hbetween : w.supply.Between w'.supply version.text)
    (hgraph : w'.graph = w.graph.placeRow v (some row.version) (row.copy version time)) :
    w'.Openable := by
  have hnew : w.graph.rows.record? version = none := h.uses.row?_eq_none hbetween.1
  have hentity := (h.uses.rows hnamed.stored).2
  refine h.after hkeeps hgraph h.tableNames ?_ ?_
  · exact h.rowNames.place (h.intact.closed.not_held hnew)
      (h.rowNames.kept_ne hnamed.held hnamed.stored)
  · exact (h.uses.mono hkeeps.2.drawn_of).placeRow hbetween.2 (hkeeps.2.drawn_of hentity)

end Workspace

/-! ## Opening one version -/

namespace Edit

/-- An edit opens a version: it hands out one that may be changed, for whatever is named. -/
structure Opens {ν τ : Type} [Versioned ν] (e : Edit τ) (version : ν → VersionId)
    (target : ν → VersionId → Bool → τ) (fault : CommandFault) (Named : ν → Prop)
    (Swaps : ν → ν → Workspace → Prop) (w : Workspace) : Prop where
  /-- It fails just when nothing is named. -/
  fails_iff : (∃ cause w', e.outcome w = (.error cause, w')) ↔ ∀ record, ¬Named record
  /-- It says so then, and nothing happens. -/
  refused : (∀ record, ¬Named record) → e.outcome w = (.error fault, w)
  /-- A version that may be changed is handed out as it is, and nothing happens. -/
  reused : ∀ record, Named record → Versioned.readonly record = false →
    e.outcome w = (.ok (target record (version record) false), w)
  /-- A copy takes the place of a version that may not be changed, and is handed out. -/
  copied : ∀ record, Named record → Versioned.readonly record = true → ∃ copy w',
    e.outcome w = (.ok (target copy (version record) true), w') ∧ Swaps record copy w'
  /-- What was handed out is handed out the next time too, as it is, and nothing happens. -/
  again : ∀ record previous isCopy w', e.outcome w = (.ok (target record previous isCopy), w') →
    e.outcome w' = (.ok (target record (version record) false), w')

namespace Opens

variable {ν τ : Type} [Versioned ν] {e : Edit τ} {version : ν → VersionId}
  {target : ν → VersionId → Bool → τ} {fault : CommandFault} {Named : ν → Prop}
  {Swaps Swaps' : ν → ν → Workspace → Prop} {w : Workspace}

/-- An edit opens a version when it does the right thing in each of three cases, and finds the copy
it has made. -/
theorem of_cases
    (htarget : ∀ {record record' previous previous' isCopy isCopy'},
      target record previous isCopy = target record' previous' isCopy' → record = record')
    (hrefused : (∀ record, ¬Named record) → e.outcome w = (.error fault, w))
    (hreused : ∀ record, Named record → Versioned.readonly record = false →
      e.outcome w = (.ok (target record (version record) false), w))
    (hcopied : ∀ record, Named record → Versioned.readonly record = true → ∃ copy w',
      e.outcome w = (.ok (target copy (version record) true), w') ∧ Swaps record copy w' ∧
        e.outcome w' = (.ok (target copy (version copy) false), w')) :
    e.Opens version target fault Named Swaps w where
  fails_iff := by
    refine ⟨?_, fun hnone => ⟨fault, w, hrefused hnone⟩⟩
    rintro ⟨cause, w', hrun⟩ record hnamed
    rcases Bool.eq_false_or_eq_true (Versioned.readonly record) with hreadonly | hmutable
    · obtain ⟨copy, w'', hrun', -⟩ := hcopied record hnamed hreadonly
      rw [hrun] at hrun'
      cases hrun'
    · rw [hreused record hnamed hmutable] at hrun
      cases hrun
  refused := hrefused
  reused := hreused
  copied record hnamed hreadonly := by
    obtain ⟨copy, w', hrun, hswaps, -⟩ := hcopied record hnamed hreadonly
    exact ⟨copy, w', hrun, hswaps⟩
  again := by
    intro record previous isCopy w' hrun
    by_cases hnone : ∀ other, ¬Named other
    · rw [hrefused hnone] at hrun
      cases hrun
    · obtain ⟨other, hnamed⟩ := not_forall_not.mp hnone
      rcases Bool.eq_false_or_eq_true (Versioned.readonly other) with hreadonly | hmutable
      · obtain ⟨copy, w'', hrun', -, hagain⟩ := hcopied other hnamed hreadonly
        rw [hrun'] at hrun
        obtain ⟨hsame, rfl⟩ := Prod.mk.inj hrun
        obtain rfl := htarget (Except.ok.inj hsame)
        exact hagain
      · have hreused' := hreused other hnamed hmutable
        rw [hreused'] at hrun
        obtain ⟨hsame, rfl⟩ := Prod.mk.inj hrun
        obtain rfl := htarget (Except.ok.inj hsame)
        exact hreused'

theorem imp (h : e.Opens version target fault Named Swaps w)
    (hswaps : ∀ {record copy w'}, Swaps record copy w' → Swaps' record copy w') :
    e.Opens version target fault Named Swaps' w :=
  { h with
    copied := fun record hnamed hreadonly => by
      obtain ⟨copy, w', hrun, hcopy⟩ := h.copied record hnamed hreadonly
      exact ⟨copy, w', hrun, hswaps hcopy⟩ }

/-- What is kept when a copy takes a place is kept when a version is opened. -/
theorem keeps {P : Workspace → Prop} (h : e.Opens version target fault Named Swaps w) (hw : P w)
    (hswaps : ∀ {record copy w'}, Swaps record copy w' → P w') : P (e.outcome w).2 := by
  by_cases hnone : ∀ record, ¬Named record
  · rw [h.refused hnone]
    exact hw
  · obtain ⟨record, hnamed⟩ := not_forall_not.mp hnone
    rcases Bool.eq_false_or_eq_true (Versioned.readonly record) with hreadonly | hmutable
    · obtain ⟨copy, w', hrun, hcopy⟩ := h.copied record hnamed hreadonly
      rw [hrun]
      exact hswaps hcopy
    · rw [h.reused record hnamed hmutable]
      exact hw

end Opens

end Edit

namespace Workspace

/-- Tables can be opened by name in a revision. -/
def OpensTable (w : Workspace) (id : RevisionId) (name : String) : Prop :=
  (Edit.draftTable id name).Opens TableVersion.version DraftTable.mk (.tableNotFound name id)
    (fun table => table ∈ w.store.tablesOf id ∧ table.name.matches name = true) (w.SwapsTable id) w

/-- Rows can be opened by name in a table version that may be changed, and only there. -/
structure OpensRow (w : Workspace) (table : TableVersion) (name : String) : Prop where
  /-- A table version that may not be changed is refused, and nothing happens. -/
  readonly : table.readonly = true → (Edit.draftRow table name).outcome w =
    (.error (.readonlyTable table.name table.version), w)
  /-- In another one, the row is opened. -/
  opens : table.readonly = false →
    (Edit.draftRow table name).Opens RowVersion.version DraftRow.mk (.rowNotFound name table.name)
      (fun row => row ∈ w.store.rowsOf table.version ∧ row.name.text = name)
      (w.SwapsRow table.version) w

namespace Openable

variable {w : Workspace}

open Edit

/-- A table is opened, and versions can be opened afterwards. -/
theorem draftTable_opens (h : w.Openable) (id : RevisionId) (name : String) :
    (draftTable id name).Opens TableVersion.version DraftTable.mk (.tableNotFound name id)
      (fun table => table ∈ w.store.tablesOf id ∧ table.name.matches name = true)
      (fun old new w' => w.SwapsTable id old new w' ∧ w'.Openable) w := by
  have hnamed {table : TableVersion}
      (htable : table ∈ w.store.tablesOf id ∧ table.name.matches name = true) :
      w.graph.NamesTable id name table :=
    ⟨(h.intact.mem_tablesOf.mp htable.1).1, (h.intact.mem_tablesOf.mp htable.1).2, htable.2⟩
  refine .of_cases (fun hsame => (DraftTable.mk.inj hsame).1) (fun hnone => ?_)
    (fun table htable hmutable => ?_) fun table htable hreadonly => ?_
  · refine outcome_draftTable_of_none (List.find?_eq_none.mpr fun table hmem hmatches => ?_)
    exact hnone table ⟨hmem, hmatches⟩
  · obtain ⟨_, _, hrun, rfl, rfl⟩ := draftTable_reuses h (hnamed htable) hmutable
    exact hrun
  · obtain ⟨_, w', hrun, hkeeps, version, time, rfl, hbetween, hgraph⟩ :=
      (Makes.draftTable id name).journaled.keeps h.intact
        (draftTable_copies h (hnamed htable) hreadonly)
    have h' := h.placeTable hkeeps (hnamed htable) hbetween hgraph
    refine ⟨_, w', hrun, ⟨.of_graph h hkeeps.1 (hnamed htable) hbetween hgraph, h'⟩, ?_⟩
    -- The copy has the name, and no other table of the revision has.
    have hcopy : w'.graph.NamesTable id name (table.copy version time) := by
      rw [hgraph]
      exact (hnamed htable).placeCopy
    obtain ⟨_, _, hrun', rfl, rfl⟩ := draftTable_reuses h' hcopy rfl
    exact hrun'

/-- A row is opened, and versions can be opened afterwards. -/
theorem draftRow_opens (h : w.Openable) {table : TableVersion} (htable : table.readonly = false)
    (name : String) :
    (draftRow table name).Opens RowVersion.version DraftRow.mk (.rowNotFound name table.name)
      (fun row => row ∈ w.store.rowsOf table.version ∧ row.name.text = name)
      (fun old new w' => w.SwapsRow table.version old new w' ∧ w'.Openable) w := by
  have hnamed {row : RowVersion}
      (hrow : row ∈ w.store.rowsOf table.version ∧ row.name.text = name) :
      w.graph.NamesRow table.version name row :=
    ⟨(h.intact.mem_rowsOf.mp hrow.1).1, (h.intact.mem_rowsOf.mp hrow.1).2, hrow.2⟩
  refine .of_cases (fun hsame => (DraftRow.mk.inj hsame).1) (fun hnone => ?_)
    (fun row hrow hmutable => ?_) fun row hrow hreadonly => ?_
  · refine outcome_draftRow_of_none htable (List.find?_eq_none.mpr fun row hmem hname => ?_)
    exact hnone row ⟨hmem, beq_iff_eq.mp hname⟩
  · obtain ⟨_, _, hrun, rfl, rfl⟩ := draftRow_reuses h htable (hnamed hrow) hmutable
    exact hrun
  · obtain ⟨_, w', hrun, hkeeps, version, time, rfl, hbetween, hgraph⟩ :=
      (Makes.draftRow table name).journaled.keeps h.intact
        (draftRow_copies h htable (hnamed hrow) hreadonly)
    have h' := h.placeRow hkeeps (hnamed hrow) hbetween hgraph
    refine ⟨_, w', hrun, ⟨.of_graph h hkeeps.1 (hnamed hrow) hbetween hgraph, h'⟩, ?_⟩
    have hcopy : w'.graph.NamesRow table.version name (row.copy version time) := by
      rw [hgraph]
      exact (hnamed hrow).placeRowCopy
    obtain ⟨_, _, hrun', rfl, rfl⟩ := draftRow_reuses h' htable hcopy rfl
    exact hrun'

theorem opensTable (h : w.Openable) (id : RevisionId) (name : String) : w.OpensTable id name :=
  (h.draftTable_opens id name).imp And.left

theorem opensRow (h : w.Openable) (table : TableVersion) (name : String) :
    w.OpensRow table name where
  readonly := outcome_draftRow_of_readonly
  opens htable := (h.draftRow_opens htable name).imp And.left

end Openable

end Workspace

/-! ## Opening many versions -/

/-- A version to be opened. -/
inductive Opening where
  /-- A table of a revision, by name. -/
  | table (revision : RevisionId) (name : String)
  /-- A row of a table version, by name. -/
  | row (holder : TableVersion) (name : String)

/-- What is left behind when a version is opened, or cannot be. -/
def Opening.next : Opening → Workspace → Workspace
  | .table revision name, w => ((Edit.draftTable revision name).outcome w).2
  | .row holder name, w => ((Edit.draftRow holder name).outcome w).2

namespace Workspace

/-- Opens versions one after the other, and goes on if one cannot be opened. -/
def openAll (w : Workspace) (openings : List Opening) : Workspace :=
  openings.foldl (fun w opening => opening.next w) w

variable {w : Workspace}

/-- Once a version was opened, others can be. -/
theorem Openable.next (h : w.Openable) (opening : Opening) : (opening.next w).Openable := by
  cases opening with
  | table revision name => exact (h.draftTable_opens revision name).keeps h And.right
  | row holder name =>
    rcases Bool.eq_false_or_eq_true holder.readonly with hreadonly | hmutable
    · rw [Opening.next, Edit.outcome_draftRow_of_readonly hreadonly]
      exact h
    · exact (h.draftRow_opens hmutable name).keeps h And.right

/-- However many versions were opened, others can be. -/
theorem Openable.openAll (h : w.Openable) (openings : List Opening) :
    (w.openAll openings).Openable := by
  induction openings generalizing w with
  | nil => exact h
  | cons first rest ih => exact ih (h.next first)

end Workspace

/-! ## After every run -/

namespace Database

variable {db : Database}

/-- After every run, tables and rows can be opened by name, in any revision and any table version
and however many were opened before. -/
theorem Fresh.run_opens (h : db.Fresh) (commands : List Command) (openings : List Opening) :
    (∀ id name, ((db.run commands).begin.openAll openings).OpensTable id name) ∧
      ∀ table name, ((db.run commands).begin.openAll openings).OpensRow table name := by
  have hopenable : (db.run commands).begin.Openable := (h.run_sound commands).openable
  exact ⟨(hopenable.openAll openings).opensTable, (hopenable.openAll openings).opensRow⟩

/-- A table with a row is committed. -/
def oneRowCommitted : List Command :=
  [.createBranch "main" none, .createTable ⟨"ii"⟩ "users" false,
    .createRows ⟨"ii"⟩ "users" [⟨"ada", .null, none, none, none⟩], .commit ⟨"main"⟩ none]

/-- In the next draft the table is opened, by another spelling of its name, and then the row in the
copy. Both are copies the first time and the same versions the second time. -/
theorem run_opens_oneRowCommitted :
    let w := ((inMemory (.unary fun _ => ⟨0, 0⟩)).run oneRowCommitted).begin
    ∃ table row copy rowCopy w₁ w₂, w.SwapsTable ⟨"iiiiiii"⟩ table copy w₁ ∧
      (Edit.draftTable ⟨"iiiiiii"⟩ "USERS").outcome w = (.ok ⟨copy, table.version, true⟩, w₁) ∧
      (Edit.draftTable ⟨"iiiiiii"⟩ "USERS").outcome w₁ = (.ok ⟨copy, copy.version, false⟩, w₁) ∧
      w₁.SwapsRow copy.version row rowCopy w₂ ∧
      (Edit.draftRow copy "ada").outcome w₁ = (.ok ⟨rowCopy, row.version, true⟩, w₂) ∧
      (Edit.draftRow copy "ada").outcome w₂ = (.ok ⟨rowCopy, rowCopy.version, false⟩, w₂) := by
  intro w
  have hopens (openings : List Opening) :
      (∀ id name, (w.openAll openings).OpensTable id name) ∧
        ∀ table name, (w.openAll openings).OpensRow table name :=
    Fresh.run_opens (fresh_inMemory (Supply.distinct_unary fun _ => ⟨0, 0⟩)) oneRowCommitted
      openings
  have hfound : (w.store.findTable ⟨"iiiiiii"⟩ "USERS").map (fun table =>
      (table.readonly, (w.store.findRow table.version "ada").map (·.readonly))) =
        some (true, some true) := by
    decide +kernel
  -- What the run has led to is not looked at any more.
  clear_value w
  obtain ⟨table, htable, hboth⟩ := Option.map_eq_some_iff.mp hfound
  obtain ⟨hreadonly, hrow⟩ := Prod.mk.inj hboth
  obtain ⟨row, hrow, hrowReadonly⟩ := Option.map_eq_some_iff.mp hrow
  have hmatches := List.find?_some htable
  have hname := List.find?_some hrow
  have htableOpens := (hopens []).1 ⟨"iiiiiii"⟩ "USERS"
  obtain ⟨copy, w₁, hrun, hswaps⟩ := htableOpens.copied table
    ⟨List.mem_of_find?_eq_some htable, hmatches⟩ hreadonly
  have hopened : w.openAll [.table ⟨"iiiiiii"⟩ "USERS"] = w₁ := congrArg Prod.snd hrun
  have hmutable : copy.readonly = false := by rw [hswaps.is_copy]
  have hrowOpens := ((hopens [.table ⟨"iiiiiii"⟩ "USERS"]).2 copy "ada").opens hmutable
  rw [hopened] at hrowOpens
  -- The copy of the table still holds the row that was committed.
  have hheld : row ∈ w₁.store.rowsOf copy.version := by
    rw [hswaps.rowsOf_new]
    exact List.mem_of_find?_eq_some hrow
  obtain ⟨rowCopy, w₂, hrowRun, hrowSwaps⟩ := hrowOpens.copied row
    ⟨hheld, beq_iff_eq.mp hname⟩ hrowReadonly
  exact ⟨table, row, copy, rowCopy, w₁, w₂, hswaps, hrun, htableOpens.again _ _ _ _ hrun, hrowSwaps,
    hrowRun, hrowOpens.again _ _ _ _ hrowRun⟩

end Database

end VersionedTables
