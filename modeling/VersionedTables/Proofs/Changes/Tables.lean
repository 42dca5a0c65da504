import VersionedTables.Proofs.Changes.Rows

/-!
# Changes to the tables of a draft

What commands do to the upper layer of the graph for one draft: a new table version takes a place
(`Graph.placeTable`), a record is replaced where it stands (`Graph.putTable`), and a table version
is let go of (`Graph.removeTable`), together with the rows that only it held if nobody else can see
it. A new version takes over the rows of the version whose place it takes.
-/

namespace VersionedTables

namespace Layer

variable {α ν : Type} [DecidableEq α]

/-- One owner links what another one does, if one is given, and nothing else. -/
def inherit (L : Layer α ν) (a : α) (source : Option α) : Layer α ν :=
  { L with Linked := fun b v =>
      if b = a then ∃ other, source = some other ∧ L.Linked other v else L.Linked b v }

variable {L : Layer α ν} {a b : α} {source : Option α} {v : VersionId}

@[simp] theorem record?_inherit : (L.inherit a source).record? v = L.record? v := rfl

@[simp] theorem linked_inherit :
    (L.inherit a source).Linked b v ↔
      if b = a then ∃ other, source = some other ∧ L.Linked other v else L.Linked b v := Iff.rfl

@[simp] theorem published_inherit [Versioned ν] : (L.inherit a source).Published v ↔ L.Published v :=
  Iff.rfl

/-- What a published owner links may be linked by others. -/
theorem owns_inherit [Versioned ν] {P P' : α → Prop} (h : Owns P L.Linked L.Published)
    (hsource : ∀ other, source = some other → P other)
    (howners : ∀ {b v}, b ≠ a → L.Linked b v → P' b → P b) :
    Owns P' (L.inherit a source).Linked (L.inherit a source).Published := by
  refine h.step (fun _ => id) ?_
  intro b v hlinked hv
  rw [linked_inherit] at hlinked
  split at hlinked
  · obtain ⟨other, hother, hlinked⟩ := hlinked
    exact absurd (h.published hlinked (hsource other hother)) hv
  · next hba => exact .inl ⟨hlinked, howners hba hlinked⟩

/-- What some owner takes over is not taken from anyone. -/
theorem anchored_inherit [Versioned ν] {P P' : α → Prop} (h : Anchored P L.Linked L.Published)
    (howners : ∀ {b}, P b → b ≠ a ∧ P' b) :
    Anchored P' (L.inherit a source).Linked (L.inherit a source).Published := by
  refine h.step fun hv => .inr ⟨hv, fun hb hlinked => ?_⟩
  obtain ⟨hne, hb'⟩ := howners hb
  exact ⟨hb', by rwa [linked_inherit, if_neg hne]⟩

theorem Tells.inherit {κ : Type} {key : ν → κ} (h : L.Tells key) :
    (L.inherit a source).Tells key := by
  refine h.step (fun b => ?_) fun hrecord => ⟨_, hrecord, rfl⟩
  simp only [linked_inherit]
  split
  · cases source with
    | none => exact ⟨b, by simp⟩
    | some other => exact ⟨other, by simp⟩
  · exact ⟨b, fun _ => id⟩

omit [DecidableEq α] in
theorem Stray.of_put {record : ν} {u : VersionId} (h : (L.put v record).Stray u)
    (hstored : ∃ current, L.record? v = some current) : L.Stray u := by
  obtain ⟨⟨other, hother⟩, hunlinked⟩ := h
  refine ⟨?_, hunlinked⟩
  rw [record?_put] at hother
  split at hother
  · next hu => rwa [hu]
  · exact ⟨other, hother⟩

omit [DecidableEq α] in
theorem Tells.put {κ : Type} {key : ν → κ} (h : L.Tells key) {record : ν}
    (hkey : ∀ {a u other}, L.Linked a v → L.Linked a u → u ≠ v → L.record? u = some other →
      key other ≠ key record) : (L.put v record).Tells key := by
  intro b u u' other other' hu hu' hother hother' hsame
  rw [linked_put] at hu hu'
  rw [record?_put] at hother hother'
  grind [Tells]

omit [DecidableEq α] in
theorem All.put {P : ν → Prop} (h : L.All P) {record : ν} (hrecord : P record) :
    (L.put v record).All P := by
  refine h.step fun {u other} hother => ?_
  rw [record?_put] at hother
  split at hother
  · cases hother
    exact .inr hrecord
  · exact .inl ⟨other, hother, id⟩

omit [DecidableEq α] in
theorem Agrees.put [Versioned ν] {κ : Type} {key : ν → κ} (h : L.Agrees key) {record current : ν}
    (hcurrent : L.record? v = some current)
    (hentity : Versioned.entity record = Versioned.entity current)
    (hkey : key record = key current) : (L.put v record).Agrees key := by
  refine h.step fun {u other} hother => ?_
  rw [record?_put] at hother
  split at hother
  · cases hother
    exact ⟨v, current, hcurrent, hentity, hkey⟩
  · exact ⟨u, other, hother, rfl, rfl⟩

end Layer

namespace Graph

variable {g : Graph} {revision : RevisionId} {old : Option VersionId} {table current : TableVersion}
  {v : VersionId}

/-- A revision shows a new table version, in the place of an old one if one is given; the new
version holds what the old one does. -/
def placeTable (g : Graph) (revision : RevisionId) (old : Option VersionId) (table : TableVersion) :
    Graph where
  lines := g.lines
  tables := g.tables.place revision old table.version table
  rows := g.rows.inherit table.version old

/-- Replaces the record of a table version where it stands. -/
def putTable (g : Graph) (table : TableVersion) : Graph :=
  { g with tables := g.tables.put table.version table }

/-- A revision lets go of a table version, which is dropped unless it is published, together with
the rows that only it held. -/
noncomputable def removeTable (g : Graph) (revision : RevisionId) (v : VersionId) : Graph where
  lines := g.lines
  tables := g.tables.prune (fun r x => ¬(r = revision ∧ x = v))
    (fun x => x = v ∧ ¬g.tables.Published v)
  rows := g.rows.prune (fun b _ => b = v → g.tables.Published v)
    (fun u => g.rows.Linked v u ∧ ¬g.tables.Published v)

theorem Closed.not_shown (hc : g.Closed) (hnew : g.tables.record? v = none) (r : RevisionId) :
    ¬g.tables.Linked r v := by
  intro hlinked
  obtain ⟨table, htable⟩ := hc.shown hlinked
  rw [hnew] at htable
  cases htable

theorem Closed.not_shower (hc : g.Closed) {r : RevisionId} (hnew : g.lines.revision? r = none)
    (v : VersionId) : ¬g.tables.Linked r v := by
  intro hlinked
  obtain ⟨revision, hrevision⟩ := hc.shower hlinked
  rw [hnew] at hrevision
  cases hrevision

theorem Closed.not_holder (hc : g.Closed) (hnew : g.tables.record? v = none) (u : VersionId) :
    ¬g.rows.Linked v u := by
  intro hlinked
  obtain ⟨table, htable⟩ := hc.holder hlinked
  rw [hnew] at htable
  cases htable

/-- A new table version takes a place in a draft: the place of a published one, or a place of its
own. -/
theorem Coherent.placeTable (hc : g.Closed) (h : g.Coherent) (hdraft : ¬g.lines.Published revision)
    (hmutable : table.readonly = false) (hnew : g.tables.record? table.version = none) (hold : ∀ o, old = some o → g.tables.Published o)
    (hentity : ∀ {u other}, g.tables.Linked revision u → old ≠ some u →
      g.tables.record? u = some other → other.entity ≠ table.entity)
    (hname : ∀ {u other}, g.tables.Linked revision u → old ≠ some u →
      g.tables.record? u = some other → tableKey other ≠ tableKey table)
    (hidentifier : IsIdentifier table.name.text)
    (hsystem : ∀ {u other}, g.tables.record? u = some other → other.entity = table.entity →
      other.system = table.system) : (g.placeTable revision old table).Coherent where
  lines := h.lines
  ownedTables := Layer.owns_place h.ownedTables hdraft hnew (hc.not_shown hnew)
  ownedRows := by
    -- The rows that are taken over are published, since the version that had them is.
    refine Layer.owns_inherit h.ownedRows hold fun hne _ => ?_
    exact (Layer.published_place_of_ne hne).mp
  anchoredTables := Layer.anchored_place h.anchoredTables hdraft hmutable
  anchoredRows := by
    refine Layer.anchored_inherit h.anchoredRows fun {b} hb => ?_
    have hne : b ≠ table.version := by
      rintro rfl
      exact Layer.not_published_of_none hnew hb
    exact ⟨hne, (Layer.published_place_of_ne hne).mpr hb⟩
  heldRows := by
    intro u row hrow hmutable
    obtain ⟨b, hb⟩ := h.heldRows hrow hmutable
    have hne : b ≠ table.version := by
      rintro rfl
      exact hc.not_holder hnew u hb
    exact ⟨b, by simpa [Graph.placeTable, hne] using hb⟩
  tableEntities := h.tableEntities.place (hc.not_shown hnew) hentity
  tableNames := h.tableNames.place (hc.not_shown hnew) hname
  rowEntities := h.rowEntities.inherit
  rowNames := h.rowNames.inherit
  tableIdentifiers := h.tableIdentifiers.place hidentifier
  rowIdentifiers := h.rowIdentifiers
  systems := h.systems.place hsystem

/-- A copy takes the place of a published table version. -/
theorem Coherent.placeCopy (hc : g.Closed) (h : g.Coherent) (hopen : ¬g.lines.Published revision)
    {now : Instant} (hnew : g.tables.record? v = none)
    (hshown : g.tables.Linked revision current.version)
    (hcurrent : g.tables.record? current.version = some current) (hreadonly : current.readonly = true) :
    (g.placeTable revision (some current.version) (current.copy v now)).Coherent := by
  have hidentifier : IsIdentifier current.name.text := h.tableIdentifiers hcurrent
  refine h.placeTable hc hopen rfl hnew ?_ ?_ ?_ hidentifier ?_
  · rintro o ho
    cases ho
    exact ⟨current, hcurrent, hreadonly⟩
  · exact h.tableEntities.kept_ne hshown hcurrent
  · exact h.tableNames.kept_ne hshown hcurrent
  · intro u other hother hsame
    have hsystem : other.system = current.system := h.systems hother hcurrent hsame
    exact hsystem

/-- A copy has the name of the table whose place it takes. -/
theorem NamesTable.placeCopy {name : String} {now : Instant}
    (hnamed : g.NamesTable revision name current) :
    (g.placeTable revision (some current.version) (current.copy v now)).NamesTable revision name
      (current.copy v now) where
  shown := by simp [Graph.placeTable]
  stored := by simp [Graph.placeTable]
  named := hnamed.named

/-- The record of a table is replaced by another of the same table, of a name that is still told
apart. -/
theorem Coherent.putTable (h : g.Coherent) (hcurrent : g.tables.record? table.version = some current)
    (hentity : table.entity = current.entity) (hreadonly : table.readonly = current.readonly)
    (hsystem : table.system = current.system) (hidentifier : IsIdentifier table.name.text)
    (hname : ∀ {r u other}, g.tables.Linked r table.version → g.tables.Linked r u →
      u ≠ table.version → g.tables.record? u = some other → tableKey other ≠ tableKey table) :
    (g.putTable table).Coherent := by
  have hpublished {u : VersionId} : (g.putTable table).tables.Published u ↔ g.tables.Published u := by
    simp only [Layer.Published, Graph.putTable, Layer.record?_put]
    split
    · next hu => simp [hu, hcurrent, Versioned.readonly, hreadonly]
    · rfl
  exact {
    lines := h.lines
    ownedTables := h.ownedTables.step (fun _ => hpublished.mpr) fun hlinked _ => .inl ⟨hlinked, id⟩
    ownedRows := h.ownedRows.step (fun _ => id) fun hlinked _ => .inl ⟨hlinked, hpublished.mp⟩
    anchoredTables := h.anchoredTables.step fun hu =>
      .inr ⟨hpublished.mp hu, fun hr hlinked => ⟨hr, hlinked⟩⟩
    anchoredRows := h.anchoredRows.step fun hu =>
      .inr ⟨hu, fun hv hlinked => ⟨hpublished.mpr hv, hlinked⟩⟩
    heldRows := h.heldRows
    tableEntities := by
      refine h.tableEntities.put fun hshown hother hne hstored hsame => hne ?_
      exact h.tableEntities hother hshown hstored hcurrent (hsame.trans hentity)
    tableNames := h.tableNames.put hname
    rowEntities := h.rowEntities
    rowNames := h.rowNames
    tableIdentifiers := h.tableIdentifiers.put hidentifier
    rowIdentifiers := h.rowIdentifiers
    systems := h.systems.put hcurrent hentity hsystem }

/-- A draft lets go of a table. -/
theorem Coherent.removeTable (h : g.Coherent) (hdraft : ¬g.lines.Published revision) :
    (g.removeTable revision v).Coherent where
  lines := h.lines
  ownedTables := Layer.owns_prune h.ownedTables fun _ _ => id
  ownedRows := by
    refine Layer.owns_prune h.ownedRows fun _ _ => ?_
    rintro ⟨table, htable, hreadonly⟩
    exact ⟨table, Layer.record?_of_prune htable, hreadonly⟩
  anchoredTables := Layer.anchored_prune h.anchoredTables fun hr _ _ =>
    ⟨hr, fun hremoved => hdraft (hremoved.1 ▸ hr)⟩
  anchoredRows := by
    refine Layer.anchored_prune h.anchoredRows fun {b u} hb _ _ => ?_
    -- A table that is published stays, whichever it is.
    obtain ⟨table, htable, hreadonly⟩ := id hb
    refine ⟨⟨table, (Layer.record?_prune_of_not ?_).trans htable, hreadonly⟩, fun hbv => hbv ▸ hb⟩
    rintro ⟨rfl, hopen⟩
    exact hopen hb
  heldRows := by
    intro u row hrow hmutable
    obtain ⟨b, hb⟩ := h.heldRows (Layer.record?_of_prune hrow) hmutable
    -- A row whose one table is gone would have been dropped with it.
    by_cases hgone : b = v ∧ ¬g.tables.Published v
    · exact Layer.linked_of_prune hrow ⟨hgone.1 ▸ hb, hgone.2⟩
    · exact ⟨b, hb, fun hbv => not_not.mp fun hopen => hgone ⟨hbv, hopen⟩⟩
  tableEntities := h.tableEntities.prune
  tableNames := h.tableNames.prune
  rowEntities := h.rowEntities.prune
  rowNames := h.rowNames.prune
  tableIdentifiers := h.tableIdentifiers.prune
  rowIdentifiers := h.rowIdentifiers.prune
  systems := h.systems.prune

/-! ### Versions left behind -/

/-- A published table has another revision than a draft that shows it. -/
theorem Coherent.shown_elsewhere (h : g.Coherent) (hdraft : ¬g.lines.Published revision)
    (hv : g.tables.Published v) : ∃ r, r ≠ revision ∧ g.tables.Linked r v := by
  obtain ⟨r, hr, hshown⟩ := h.anchoredTables hv
  exact ⟨r, fun heq => hdraft (heq ▸ hr), hshown⟩

theorem Coherent.stray_of_placeTable (h : g.Coherent) (hdraft : ¬g.lines.Published revision)
    (hold : ∀ o, old = some o → g.tables.Published o)
    (hstray : (g.placeTable revision old table).tables.Stray v) : g.tables.Stray v :=
  hstray.of_place fun o ho => h.shown_elsewhere hdraft (hold o ho)

theorem Coherent.stray_of_removeTable {u : VersionId} (h : g.Coherent)
    (hdraft : ¬g.lines.Published revision) (hstray : (g.removeTable revision v).tables.Stray u) :
    g.tables.Stray u := by
  refine hstray.of_prune fun {r} hshown hkept => ?_
  by_cases hu : u = v
  · -- What may not be dropped is published, so somebody else shows it.
    subst hu
    obtain ⟨r', hne, hshown'⟩ := h.shown_elsewhere hdraft (not_not.mp fun hopen => hkept ⟨rfl, hopen⟩)
    exact ⟨r', hshown', fun hremoved => hne hremoved.1⟩
  · exact ⟨r, hshown, fun hremoved => hu hremoved.2⟩

/-! ### Identifiers -/

variable {used : String → Prop}

theorem Uses.placeTable (h : g.Uses used) (hversion : used table.version.text)
    (hentity : used table.entity.text) : (g.placeTable revision old table).Uses used where
  revisions := h.revisions
  tables := h.tables.place hversion hentity
  rows := h.rows

theorem Uses.putTable (h : g.Uses used) (hcurrent : g.tables.record? table.version = some current)
    (hentity : table.entity = current.entity) : (g.putTable table).Uses used where
  revisions := h.revisions
  tables := by
    refine h.tables.step id fun {u other} hother => .inl ?_
    simp only [Graph.putTable, Layer.record?_put] at hother
    split at hother
    · next hu =>
      cases hother
      exact ⟨current, hu ▸ hcurrent, hentity⟩
    · exact ⟨other, hother, rfl⟩
  rows := h.rows

theorem Uses.removeTable (h : g.Uses used) : (g.removeTable revision v).Uses used where
  revisions := h.revisions
  tables := h.tables.prune
  rows := h.rows.prune

end Graph

end VersionedTables
