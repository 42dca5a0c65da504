import VersionedTables.Proofs.Graph
import VersionedTables.Proofs.Identifiers

/-!
# Coherent stores

What is true of every store that commands have made (`Store.Sound`), beyond being intact:

* every branch has one head and one draft, the draft on top of the head (`Lines.Sound`);
* versions are owned (`Owns`) and anchored (`Anchored`) in both layers, with published tables as the
  published owners of the lower layer, and no row version that may be changed is lost;
* versions with one owner are told apart by name and by entity, in both layers;
* all names are identifiers, and all versions of a table agree in whether it is a system table;
* all identifiers were drawn from the supply, which never repeats itself.

The names being told apart is what gives `Store.findTable` and `Store.findRow` a meaning that does
not depend on the order of a list (`Store.Openable.findTable_eq_some`), and the lines being sound
does the same for `Store.findRevision`. As long as only versions are opened, the names are all it
takes (`Store.Openable`).
-/

namespace VersionedTables

open Std

/-! ## Branches -/

/-- The head and the draft of a branch, which no other of its revisions is. -/
structure Lines.Line (l : Lines) (name : BranchName) (head draft : Revision) : Prop where
  head_stored : l.revision? head.id = some head
  head_branch : head.branch = name
  isHead : head.isHead = true
  head_published : head.isDraft = false
  draft_stored : l.revision? draft.id = some draft
  draft_branch : draft.branch = name
  isDraft : draft.isDraft = true
  draft_notHead : draft.isHead = false
  parent : draft.parent = some head.id
  head_unique : ∀ {id other}, l.revision? id = some other → other.branch = name →
    other.isHead = true → other = head
  draft_unique : ∀ {id other}, l.revision? id = some other → other.branch = name →
    other.isDraft = true → other = draft

/-- Every branch has a head and a draft, and every revision has a branch. -/
structure Lines.Sound (l : Lines) : Prop where
  branch_exists : ∀ {id revision}, l.revision? id = some revision →
    (l.branch? revision.branch).isSome
  line : ∀ {name}, (l.branch? name).isSome → ∃ head draft, l.Line name head draft

namespace Lines

variable {l : Lines} {name : BranchName} {head draft head' draft' : Revision}

/-- What is stored is not what is yet to be stored. -/
theorem ne_of_new {id new : RevisionId} {revision : Revision}
    (hstored : l.revision? id = some revision) (hnew : l.revision? new = none) : id ≠ new := by
  rintro rfl
  rw [hstored] at hnew
  cases hnew

theorem Line.eq (h : l.Line name head draft) (h' : l.Line name head' draft') :
    head' = head ∧ draft' = draft :=
  ⟨h.head_unique h'.head_stored h'.head_branch h'.isHead,
    h.draft_unique h'.draft_stored h'.draft_branch h'.isDraft⟩

theorem Line.head_ne_draft (h : l.Line name head draft) : head.id ≠ draft.id := by
  intro hid
  have hsame := h.head_stored
  rw [hid, h.draft_stored] at hsame
  have hflag := h.isDraft
  rw [Option.some.inj hsame, h.head_published] at hflag
  cases hflag

/-- Every draft is the draft of its branch. -/
theorem Sound.line_of_draft (h : l.Sound) {id : RevisionId} (hdraft : l.revision? id = some draft)
    (hflag : draft.isDraft = true) : ∃ head, l.Line draft.branch head draft := by
  obtain ⟨head, draft', hline⟩ := h.line (h.branch_exists hdraft)
  obtain rfl := hline.draft_unique hdraft rfl hflag
  exact ⟨head, hline⟩

end Lines

/-! ## Graphs -/

namespace Graph

/-- Records are kept under their own identifiers, and both ends of every link exist. -/
structure Closed (g : Graph) : Prop where
  id_eq : ∀ {id revision}, g.lines.revision? id = some revision → revision.id = id
  table_eq : ∀ {v table}, g.tables.record? v = some table → table.version = v
  row_eq : ∀ {v row}, g.rows.record? v = some row → row.version = v
  shower : ∀ {id v}, g.tables.Linked id v → ∃ revision, g.lines.revision? id = some revision
  shown : ∀ {id v}, g.tables.Linked id v → ∃ table, g.tables.record? v = some table
  holder : ∀ {v u}, g.rows.Linked v u → ∃ table, g.tables.record? v = some table
  held : ∀ {v u}, g.rows.Linked v u → ∃ row, g.rows.record? u = some row

/-- What tells the tables of a revision apart by name. -/
def tableKey (table : TableVersion) : List Char :=
  foldCase table.name.text

/-- The invariants of the version graph. -/
structure Coherent (g : Graph) : Prop where
  /-- Every branch has its head and its draft. -/
  lines : g.lines.Sound
  /-- Published revisions show published tables; another table has one revision at most. -/
  ownedTables : Owns g.lines.Published g.tables.Linked g.tables.Published
  /-- Published tables hold published rows; another row has one table at most. -/
  ownedRows : Owns g.tables.Published g.rows.Linked g.rows.Published
  /-- A published table is shown by a published revision. -/
  anchoredTables : Anchored g.lines.Published g.tables.Linked g.tables.Published
  /-- A published row is held by a published table. -/
  anchoredRows : Anchored g.tables.Published g.rows.Linked g.rows.Published
  /-- A row that is not published has a table. -/
  heldRows : ∀ {u row}, g.rows.record? u = some row → row.readonly = false →
    ∃ v, g.rows.Linked v u
  /-- A revision shows no two versions of one table. -/
  tableEntities : g.tables.Tells TableVersion.entity
  /-- A revision shows no two tables of one name. -/
  tableNames : g.tables.Tells tableKey
  /-- A table holds no two versions of one row. -/
  rowEntities : g.rows.Tells RowVersion.entity
  /-- A table holds no two rows of one name. -/
  rowNames : g.rows.Tells RowVersion.name
  /-- Tables are named by identifiers. -/
  tableIdentifiers : g.tables.All fun table => IsIdentifier table.name.text
  /-- Rows are named by identifiers. -/
  rowIdentifiers : g.rows.All fun row => IsIdentifier row.name.text
  /-- A table belongs to the system in all of its versions or in none. -/
  systems : g.tables.Agrees TableVersion.system

/-- All identifiers are of a kind. -/
structure Uses (used : String → Prop) (g : Graph) : Prop where
  revisions : ∀ {id revision}, g.lines.revision? id = some revision → used id.text
  tables : g.tables.Uses used
  rows : g.rows.Uses used

theorem Uses.mono {used used' : String → Prop} {g : Graph} (h : g.Uses used)
    (hused : ∀ {text}, used text → used' text) : g.Uses used' where
  revisions hid := hused (h.revisions hid)
  tables := h.tables.step hused fun htable => .inl ⟨_, htable, rfl⟩
  rows := h.rows.step hused fun hrow => .inl ⟨_, hrow, rfl⟩

/-- A revision shows a table that a text names. -/
structure NamesTable (g : Graph) (revision : RevisionId) (name : String) (table : TableVersion) :
    Prop where
  shown : g.tables.Linked revision table.version
  stored : g.tables.record? table.version = some table
  named : table.name.matches name = true

/-- A table version holds a row that a text names. -/
structure NamesRow (g : Graph) (v : VersionId) (name : String) (row : RowVersion) : Prop where
  held : g.rows.Linked v row.version
  stored : g.rows.record? row.version = some row
  text_eq : row.name.text = name

variable {g : Graph}

/-- A text names one table at most. -/
theorem NamesTable.unique (h : g.tables.Tells tableKey) {revision : RevisionId} {name : String}
    {table table' : TableVersion} (htable : g.NamesTable revision name table)
    (htable' : g.NamesTable revision name table') : table = table' := by
  have hkey : tableKey table = tableKey table' :=
    (beq_iff_eq.mp htable.named).trans (beq_iff_eq.mp htable'.named).symm
  have hversion := h htable.shown htable'.shown htable.stored htable'.stored hkey
  have hstored := htable.stored
  rw [hversion, htable'.stored] at hstored
  exact (Option.some.inj hstored).symm

/-- A text names one row at most. -/
theorem NamesRow.unique (h : g.rows.Tells RowVersion.name) {v : VersionId} {name : String}
    {row row' : RowVersion} (hrow : g.NamesRow v name row) (hrow' : g.NamesRow v name row') :
    row = row' := by
  have hname : row.name = row'.name := by
    rw [RowName.mk.injEq]
    exact hrow.text_eq.trans hrow'.text_eq.symm
  have hversion := h hrow.held hrow'.held hrow.stored hrow'.stored hname
  have hstored := hrow.stored
  rw [hversion, hrow'.stored] at hstored
  exact (Option.some.inj hstored).symm

end Graph

/-! ## Stores -/

theorem Store.Intact.closed {s : Store} (h : s.Intact) : s.graph.Closed where
  id_eq := h.id_eq
  table_eq := h.table_eq
  row_eq := h.row_eq
  shower hlink := Option.isSome_iff_exists.mp (h.shower_exists hlink)
  shown hlink := Option.isSome_iff_exists.mp (h.shown_exists hlink)
  holder hlink := Option.isSome_iff_exists.mp (h.holder_exists hlink)
  held hlink := Option.isSome_iff_exists.mp (h.held_exists hlink)

/-- What is true of a store that commands have made. -/
structure Store.Sound (supply : Supply) (s : Store) : Prop where
  /-- The store is intact. -/
  intact : s.Intact
  /-- Its graph is coherent. -/
  coherent : s.graph.Coherent
  /-- Its identifiers have been drawn. -/
  uses : s.graph.Uses supply.Drawn
  /-- No identifier is drawn twice. -/
  distinct : supply.Distinct

/-- What is true of a workspace while commands are at work. -/
abbrev Workspace.Sound (w : Workspace) : Prop :=
  w.store.Sound w.supply

/-- What it takes to find versions by name and to put copies in their place. Nothing is said of
whose the versions are, so a copy may take a place in a published revision too, which is not sound
any more then. -/
structure Store.Openable (supply : Supply) (s : Store) : Prop where
  /-- The store is intact. -/
  intact : s.Intact
  /-- A revision shows no two tables of one name. -/
  tableNames : s.graph.tables.Tells Graph.tableKey
  /-- A table holds no two rows of one name. -/
  rowNames : s.graph.rows.Tells RowVersion.name
  /-- Its identifiers have been drawn. -/
  uses : s.graph.Uses supply.Drawn
  /-- No identifier is drawn twice. -/
  distinct : supply.Distinct

/-- What opening versions asks of a workspace. -/
abbrev Workspace.Openable (w : Workspace) : Prop :=
  w.store.Openable w.supply

theorem Store.Sound.openable {supply : Supply} {s : Store} (h : s.Sound supply) :
    s.Openable supply where
  intact := h.intact
  tableNames := h.coherent.tableNames
  rowNames := h.coherent.rowNames
  uses := h.uses
  distinct := h.distinct

/-- An empty store is sound. -/
theorem Store.sound_empty {supply : Supply} (h : supply.Distinct) : (∅ : Store).Sound supply where
  intact := Store.intact_empty
  coherent :=
    { lines :=
        { branch_exists := fun hid => by simp [Store.revision?_empty] at hid
          line := fun hname => by simp [Store.branch?_empty] at hname }
      ownedTables :=
        { published := fun hlink => absurd hlink (Store.not_shows_empty _ _)
          unique := fun hlink => absurd hlink (Store.not_shows_empty _ _) }
      ownedRows :=
        { published := fun hlink => absurd hlink (Store.not_holds_empty _ _)
          unique := fun hlink => absurd hlink (Store.not_holds_empty _ _) }
      anchoredTables := fun _ ⟨_, htable, _⟩ => by simp [Store.table?_empty] at htable
      anchoredRows := fun _ ⟨_, hrow, _⟩ => by simp [Store.row?_empty] at hrow
      heldRows := fun hrow => by simp [Store.row?_empty] at hrow
      tableEntities := fun _ _ _ _ _ hlink => absurd hlink (Store.not_shows_empty _ _)
      tableNames := fun _ _ _ _ _ hlink => absurd hlink (Store.not_shows_empty _ _)
      rowEntities := fun _ _ _ _ _ hlink => absurd hlink (Store.not_holds_empty _ _)
      rowNames := fun _ _ _ _ _ hlink => absurd hlink (Store.not_holds_empty _ _)
      tableIdentifiers := fun _ _ htable => by simp [Store.table?_empty] at htable
      rowIdentifiers := fun _ _ hrow => by simp [Store.row?_empty] at hrow
      systems := fun _ _ _ _ htable => by simp [Store.table?_empty] at htable }
  uses :=
    { revisions := fun hid => by simp [Store.revision?_empty] at hid
      tables := fun _ _ htable => by simp [Store.table?_empty] at htable
      rows := fun _ _ hrow => by simp [Store.row?_empty] at hrow }
  distinct := h

/-- A store stays sound while the supply moves on. -/
theorem Store.Sound.later {supply supply' : Supply} {s : Store} (h : s.Sound supply)
    (hlater : supply.Later supply') : s.Sound supply' where
  intact := h.intact
  coherent := h.coherent
  uses := h.uses.mono hlater.drawn_of
  distinct := hlater.distinct h.distinct

/-- A workspace stays sound when its store stays intact, and its new graph is coherent and uses no
identifiers that were not drawn. -/
theorem Workspace.Sound.after {w w' : Workspace} {g : Graph} (h : w.Sound)
    (hkeeps : w'.store.Intact ∧ w.supply.Later w'.supply) (hgraph : w'.graph = g)
    (hcoherent : g.Coherent) (huses : g.Uses w'.supply.Drawn) : w'.Sound where
  intact := hkeeps.1
  coherent := by rwa [← hgraph] at hcoherent
  uses := by rwa [← hgraph] at huses
  distinct := hkeeps.2.distinct h.distinct

/-- What it takes to open versions is kept when the store stays intact, and its new graph tells
versions apart by name and uses no identifiers that were not drawn. -/
theorem Workspace.Openable.after {w w' : Workspace} {g : Graph} (h : w.Openable)
    (hkeeps : w'.store.Intact ∧ w.supply.Later w'.supply) (hgraph : w'.graph = g)
    (htables : g.tables.Tells Graph.tableKey) (hrows : g.rows.Tells RowVersion.name)
    (huses : g.Uses w'.supply.Drawn) : w'.Openable where
  intact := hkeeps.1
  tableNames := by rwa [← hgraph] at htables
  rowNames := by rwa [← hgraph] at hrows
  uses := by rwa [← hgraph] at huses
  distinct := hkeeps.2.distinct h.distinct

/-- A revision is there and can be edited. -/
structure Lines.Drafts (l : Lines) (draft : Revision) : Prop where
  stored : l.revision? draft.id = some draft
  isDraft : draft.isDraft = true

theorem Lines.Drafts.not_published {l : Lines} {draft : Revision} (h : l.Drafts draft) :
    ¬l.Published draft.id := by
  rintro ⟨revision, hrevision, hpublished⟩
  rw [h.stored] at hrevision
  cases hrevision
  rw [h.isDraft] at hpublished
  cases hpublished

/-! ### Fresh identifiers -/

/-- What has an identifier that is not used is not there. -/
theorem Graph.Uses.table?_eq_none {used : String → Prop} {g : Graph} (h : g.Uses used)
    {v : VersionId} (hnew : ¬used v.text) : g.tables.record? v = none := by
  rcases htable : g.tables.record? v with _ | table
  · rfl
  · exact absurd (h.tables htable).1 hnew

theorem Graph.Uses.row?_eq_none {used : String → Prop} {g : Graph} (h : g.Uses used)
    {u : VersionId} (hnew : ¬used u.text) : g.rows.record? u = none := by
  rcases hrow : g.rows.record? u with _ | row
  · rfl
  · exact absurd (h.rows hrow).1 hnew

namespace Store.Sound

variable {supply : Supply} {s : Store} (h : s.Sound supply) {text : String}
  (hnew : ¬supply.Drawn text)

include h hnew

theorem revision?_eq_none : s.revision? ⟨text⟩ = none := by
  rcases hid : s.revision? ⟨text⟩ with _ | revision
  · rfl
  · exact absurd (h.uses.revisions hid) hnew

theorem table?_eq_none : s.table? ⟨text⟩ = none :=
  h.uses.table?_eq_none hnew

theorem row?_eq_none : s.row? ⟨text⟩ = none :=
  h.uses.row?_eq_none hnew

theorem table_entity_ne {v : VersionId} {table : TableVersion} (htable : s.table? v = some table) :
    table.entity ≠ ⟨text⟩ := by
  intro hentity
  have hdrawn := (h.uses.tables htable).2
  rw [show Versioned.entity table = ⟨text⟩ from hentity] at hdrawn
  exact hnew hdrawn

theorem row_entity_ne {v : VersionId} {row : RowVersion} (hrow : s.row? v = some row) :
    row.entity ≠ ⟨text⟩ := by
  intro hentity
  have hdrawn := (h.uses.rows hrow).2
  rw [show Versioned.entity row = ⟨text⟩ from hentity] at hdrawn
  exact hnew hdrawn

end Store.Sound

/-! ### Finding things -/

/-- When only one item of a list will do, it does not matter which is found first. -/
theorem find?_eq_some_iff_of_unique {α : Type} {p : α → Bool} {items : List α} {item : α}
    (hunique : ∀ {a b}, a ∈ items → b ∈ items → p a = true → p b = true → a = b) :
    items.find? p = some item ↔ item ∈ items ∧ p item = true := by
  refine ⟨?_, ?_⟩
  · exact fun h => ⟨List.mem_of_find?_eq_some h, List.find?_some h⟩
  · rintro ⟨hmem, hitem⟩
    obtain ⟨found, hfound⟩ := Option.isSome_iff_exists.mp (List.find?_isSome.mpr ⟨item, hmem, hitem⟩)
    rw [hfound, hunique (List.mem_of_find?_eq_some hfound) hmem (List.find?_some hfound) hitem]

namespace Store

/-- When a branch has one revision in a role at most, that is the one that is found. -/
theorem findRevision_eq_some {s : Store} {name : BranchName} {role : Role} {revision : Revision}
    (hunique : ∀ {id id' a b}, s.revision? id = some a → s.revision? id' = some b →
      a.branch = name → b.branch = name → a.plays role = true → b.plays role = true → a = b) :
    s.findRevision name role = some revision ↔
      (∃ id, s.revision? id = some revision) ∧ revision.branch = name ∧
        revision.plays role = true := by
  rw [findRevision, find?_eq_some_iff_of_unique, List.mem_reverse, mem_branchRevisions, and_assoc]
  intro a b ha hb
  obtain ⟨⟨id, hid⟩, hbranch⟩ := mem_branchRevisions.mp (List.mem_reverse.mp ha)
  obtain ⟨⟨id', hid'⟩, hbranch'⟩ := mem_branchRevisions.mp (List.mem_reverse.mp hb)
  exact hunique hid hid' hbranch hbranch'

/-- A key that tells the tables of a revision apart is not found twice in their list. -/
theorem Intact.nodup_tablesOf {s : Store} (h : s.Intact) {κ : Type} {key : TableVersion → κ}
    (htells : s.graph.tables.Tells key) (id : RevisionId) : ((s.tablesOf id).map key).Nodup := by
  have hnodup : ((s.tablesOf id).map (·.version)).Nodup := by
    rw [h.versions_tablesOf]
    exact Links.nodup_targets _ id
  -- Links are kept without repetition, and one key stands for one version here.
  refine hnodup.of_map.map_on fun table hmem table' hmem' hkey => ?_
  refine List.inj_on_of_nodup_map hnodup hmem hmem' ?_
  obtain ⟨hshows, htable⟩ := h.mem_tablesOf.mp hmem
  obtain ⟨hshows', htable'⟩ := h.mem_tablesOf.mp hmem'
  exact htells hshows hshows' htable htable' hkey

/-- A key that tells the rows of a table version apart is not found twice in their list. -/
theorem Intact.nodup_rowsOf {s : Store} (h : s.Intact) {κ : Type} {key : RowVersion → κ}
    (htells : s.graph.rows.Tells key) (v : VersionId) : ((s.rowsOf v).map key).Nodup := by
  have hnodup : ((s.rowsOf v).map (·.version)).Nodup := by
    rw [h.versions_rowsOf]
    exact Links.nodup_targets _ v
  refine hnodup.of_map.map_on fun row hmem row' hmem' hkey => ?_
  refine List.inj_on_of_nodup_map hnodup hmem hmem' ?_
  obtain ⟨hholds, hrow⟩ := h.mem_rowsOf.mp hmem
  obtain ⟨hholds', hrow'⟩ := h.mem_rowsOf.mp hmem'
  exact htells hholds hholds' hrow hrow' hkey

variable {supply : Supply} {s : Store}

namespace Openable

/-- A table is found by a name just when it is named by it. -/
theorem findTable_eq_some (h : s.Openable supply) {revision : RevisionId} {name : String}
    {table : TableVersion} :
    s.findTable revision name = some table ↔ s.graph.NamesTable revision name table := by
  have hnames {t : TableVersion} (hmem : t ∈ s.tablesOf revision) (ht : t.name.matches name = true) :
      s.graph.NamesTable revision name t :=
    ⟨(h.intact.mem_tablesOf.mp hmem).1, (h.intact.mem_tablesOf.mp hmem).2, ht⟩
  rw [findTable, find?_eq_some_iff_of_unique fun ha hb hpa hpb =>
    Graph.NamesTable.unique h.tableNames (hnames ha hpa) (hnames hb hpb)]
  refine ⟨?_, ?_⟩
  · exact fun ⟨hmem, hmatches⟩ => hnames hmem hmatches
  · exact fun hnamed => ⟨h.intact.mem_tablesOf.mpr ⟨hnamed.shown, hnamed.stored⟩, hnamed.named⟩

/-- A row is found by a name just when it is named by it. -/
theorem findRow_eq_some (h : s.Openable supply) {v : VersionId} {name : String} {row : RowVersion} :
    s.findRow v name = some row ↔ s.graph.NamesRow v name row := by
  have hnames {r : RowVersion} (hmem : r ∈ s.rowsOf v) (hr : (r.name.text == name) = true) :
      s.graph.NamesRow v name r :=
    ⟨(h.intact.mem_rowsOf.mp hmem).1, (h.intact.mem_rowsOf.mp hmem).2, beq_iff_eq.mp hr⟩
  rw [findRow, find?_eq_some_iff_of_unique fun ha hb hpa hpb =>
    Graph.NamesRow.unique h.rowNames (hnames ha hpa) (hnames hb hpb)]
  refine ⟨?_, ?_⟩
  · exact fun ⟨hmem, hname⟩ => hnames hmem hname
  · exact fun hnamed =>
      ⟨h.intact.mem_rowsOf.mpr ⟨hnamed.held, hnamed.stored⟩, beq_iff_eq.mpr hnamed.text_eq⟩

end Openable

namespace Sound

theorem findTable_eq_some (h : s.Sound supply) {revision : RevisionId} {name : String}
    {table : TableVersion} :
    s.findTable revision name = some table ↔ s.graph.NamesTable revision name table :=
  h.openable.findTable_eq_some

theorem findRow_eq_some (h : s.Sound supply) {v : VersionId} {name : String} {row : RowVersion} :
    s.findRow v name = some row ↔ s.graph.NamesRow v name row :=
  h.openable.findRow_eq_some

/-- The head of a branch is found. -/
theorem findRevision_head (h : s.Sound supply) {name : BranchName} {head : Revision} :
    s.findRevision name .head = some head ↔ ∃ draft, s.graph.lines.Line name head draft := by
  have hline {id : RevisionId} {revision : Revision} (hid : s.revision? id = some revision)
      (hbranch : revision.branch = name) (hhead : revision.isHead = true) :
      ∃ draft, s.graph.lines.Line name revision draft := by
    obtain ⟨head, draft, hline⟩ :=
      h.coherent.lines.line (hbranch ▸ h.coherent.lines.branch_exists hid)
    obtain rfl := hline.head_unique hid hbranch hhead
    exact ⟨draft, hline⟩
  -- The search goes through all revisions of the branch, but finds no two heads.
  rw [findRevision_eq_some fun hid hid' hbranch hbranch' hhead hhead' => by
    obtain ⟨draft, hline⟩ := hline hid hbranch hhead
    exact (hline.head_unique hid' hbranch' hhead').symm]
  refine ⟨?_, ?_⟩
  · rintro ⟨⟨id, hid⟩, hbranch, hhead⟩
    exact hline hid hbranch hhead
  · rintro ⟨draft, hline⟩
    exact ⟨⟨_, hline.head_stored⟩, hline.head_branch, hline.isHead⟩

/-- The draft of a branch is found. -/
theorem findRevision_draft (h : s.Sound supply) {name : BranchName} {draft : Revision} :
    s.findRevision name .draft = some draft ↔ ∃ head, s.graph.lines.Line name head draft := by
  have hline {id : RevisionId} {revision : Revision} (hid : s.revision? id = some revision)
      (hbranch : revision.branch = name) (hdraft : revision.isDraft = true) :
      ∃ head, s.graph.lines.Line name head revision := by
    obtain ⟨head, hline⟩ := h.coherent.lines.line_of_draft hid hdraft
    exact ⟨head, hbranch ▸ hline⟩
  rw [findRevision_eq_some fun hid hid' hbranch hbranch' hdraft hdraft' => by
    obtain ⟨head, hline⟩ := hline hid hbranch hdraft
    exact (hline.draft_unique hid' hbranch' hdraft').symm]
  refine ⟨?_, ?_⟩
  · rintro ⟨⟨id, hid⟩, hbranch, hdraft⟩
    exact hline hid hbranch hdraft
  · rintro ⟨head, hline⟩
    exact ⟨⟨_, hline.draft_stored⟩, hline.draft_branch, hline.isDraft⟩

end Sound

end Store

end VersionedTables
