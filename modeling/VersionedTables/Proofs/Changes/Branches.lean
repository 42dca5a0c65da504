import VersionedTables.Proofs.Changes.Lines
import VersionedTables.Proofs.Changes.Tables

/-!
# Changes to what revisions show

What commands do to the graph beyond a single table. Table versions are shared and thereby published
(`Graph.share`): every revision of a group comes to show them, and they and their rows are locked. A
draft is put back to what another revision shows (`Graph.reset`). Everything nobody can see is swept
away (`Graph.sweep`). The branches and revisions change along with the first of these, because it is
the locking that makes it safe to publish a draft.
-/

namespace VersionedTables

namespace Layer

variable {α ν : Type} {L : Layer α ν}

/-! ## Showing more -/

/-- Some owners come to link some versions. -/
def expose (L : Layer α ν) (Owner : α → Prop) (Shared : VersionId → Prop) : Layer α ν :=
  { L with Linked := fun a v => L.Linked a v ∨ Owner a ∧ Shared v }

theorem expose_expose {Owner : α → Prop} {Shared Shared' : VersionId → Prop} :
    (L.expose Owner Shared).expose Owner Shared' =
      L.expose Owner fun v => Shared v ∨ Shared' v := by
  ext a v
  · rfl
  · simp only [expose, or_assoc, and_or_left]

/-- Showing one version to one owner. -/
theorem link_true [DecidableEq α] {a : α} {v : VersionId} :
    L.link a v true = L.expose (· = a) (· = v) := by
  ext b u
  · rfl
  · simp only [linked_link, expose]
    split <;> simp_all

theorem expose_nothing {Owner : α → Prop} : L.expose Owner (fun _ => False) = L := by
  ext a v
  · rfl
  · simp only [expose, and_false, or_false]

/-! ## Locking -/

variable [Versioned ν] {Locked Locked' : VersionId → Prop} {v : VersionId} {record : ν}

open scoped Classical in
/-- Publishes some versions. -/
noncomputable def lock (L : Layer α ν) (Locked : VersionId → Prop) : Layer α ν :=
  { L with record? := fun v =>
      (L.record? v).map fun record => if Locked v then Versioned.lock record else record }

@[simp] theorem linked_lock {a : α} : (L.lock Locked).Linked a v ↔ L.Linked a v := Iff.rfl

theorem record?_lock_of (h : Locked v) :
    (L.lock Locked).record? v = (L.record? v).map Versioned.lock := by
  simp [lock, h]

theorem record?_lock_of_not (h : ¬Locked v) : (L.lock Locked).record? v = L.record? v := by
  simp [lock, h]

theorem record?_lock_self : (L.lock (· = v)).record? v = (L.record? v).map Versioned.lock :=
  record?_lock_of rfl

theorem record?_lock_ne {u : VersionId} (hu : u ≠ v) :
    (L.lock (· = v)).record? u = L.record? u :=
  record?_lock_of_not hu

/-- Locking what is published already does nothing. -/
theorem record?_lock_of_published (h : L.Published v) :
    (L.lock Locked).record? v = L.record? v := by
  by_cases hlocked : Locked v
  · obtain ⟨record, hrecord, hreadonly⟩ := h
    rw [record?_lock_of hlocked, hrecord, Option.map_some, Versioned.lock_eq_self record hreadonly]
  · exact record?_lock_of_not hlocked

/-- A locked record is an old one, or an old one that was locked. -/
theorem record?_of_lock (h : (L.lock Locked).record? v = some record) :
    ∃ old, L.record? v = some old ∧ (Locked v ∧ record = Versioned.lock old ∨
      ¬Locked v ∧ record = old) := by
  by_cases hlocked : Locked v
  · rw [record?_lock_of hlocked] at h
    obtain ⟨old, hold, rfl⟩ := Option.map_eq_some_iff.mp h
    exact ⟨old, hold, .inl ⟨hlocked, rfl⟩⟩
  · rw [record?_lock_of_not hlocked] at h
    exact ⟨record, h, .inr ⟨hlocked, rfl⟩⟩

theorem published_lock (hstored : ∃ record, L.record? v = some record) :
    (L.lock Locked).Published v ↔ Locked v ∨ L.Published v := by
  by_cases hlocked : Locked v
  · obtain ⟨record, hrecord⟩ := hstored
    simp [Published, record?_lock_of hlocked, hrecord, hlocked, Versioned.readonly_lock]
  · simp [Published, record?_lock_of_not hlocked, hlocked]

theorem Tells.lock {κ : Type} {key : ν → κ} (h : L.Tells key)
    (hkey : ∀ record, key (Versioned.lock record) = key record) : (L.lock Locked).Tells key := by
  refine h.step (fun a => ⟨a, fun _ => id⟩) fun hrecord => ?_
  obtain ⟨old, hold, ⟨-, rfl⟩ | ⟨-, rfl⟩⟩ := record?_of_lock hrecord
  · exact ⟨old, hold, hkey old⟩
  · exact ⟨_, hold, rfl⟩

theorem Uses.lock {used : String → Prop} (h : L.Uses used) : (L.lock Locked).Uses used := by
  refine h.step id fun hrecord => ?_
  obtain ⟨old, hold, ⟨-, rfl⟩ | ⟨-, rfl⟩⟩ := record?_of_lock hrecord
  · exact .inl ⟨old, hold, Versioned.entity_lock old⟩
  · exact .inl ⟨_, hold, rfl⟩

theorem All.lock {P : ν → Prop} (h : L.All P)
    (hlock : ∀ record, P record → P (Versioned.lock record)) : (L.lock Locked).All P := by
  refine h.step fun hrecord => .inl ?_
  obtain ⟨old, hold, ⟨-, rfl⟩ | ⟨-, rfl⟩⟩ := record?_of_lock hrecord
  · exact ⟨old, hold, hlock old⟩
  · exact ⟨_, hold, id⟩

theorem Agrees.lock {κ : Type} {key : ν → κ} (h : L.Agrees key)
    (hkey : ∀ record, key (Versioned.lock record) = key record) : (L.lock Locked).Agrees key := by
  refine h.step fun hrecord => ?_
  obtain ⟨old, hold, ⟨-, rfl⟩ | ⟨-, rfl⟩⟩ := record?_of_lock hrecord
  · exact ⟨_, old, hold, Versioned.entity_lock old, hkey old⟩
  · exact ⟨_, _, hold, rfl, rfl⟩

theorem lock_nothing : L.lock (fun _ => False) = L := by
  ext v record
  · rw [record?_lock_of_not id]
  · rfl

/-- Locking a version that is published already does nothing. -/
theorem lock_of_published (h : L.Published v) : L.lock (· = v) = L := by
  ext u record
  · by_cases hu : u = v
    · rw [hu, record?_lock_of_published h]
    · rw [record?_lock_ne hu]
  · rfl

/-- Locking one version puts a locked record, which may have been locked before. -/
theorem lock_eq_put (h : L.record? v = some record ∨ L.record? v = some (Versioned.lock record)) :
    L.lock (· = v) = L.put v (Versioned.lock record) := by
  ext u other
  · by_cases hu : u = v
    · subst hu
      rw [record?_lock_self, record?_put, if_pos rfl]
      rcases h with h | h
      · rw [h, Option.map_some]
      · rw [h, Option.map_some, Versioned.lock_eq_self _ (Versioned.readonly_lock record)]
    · rw [record?_lock_ne hu, record?_put, if_neg hu]
  · rfl

/-- A record that was read before may have been locked since, and still may after more locking. -/
theorem record?_lock_or (h : L.record? v = some record ∨ L.record? v = some (Versioned.lock record)) :
    (L.lock Locked).record? v = some record ∨
      (L.lock Locked).record? v = some (Versioned.lock record) := by
  by_cases hlocked : Locked v
  · refine .inr ?_
    rw [record?_lock_of hlocked]
    rcases h with h | h
    · rw [h, Option.map_some]
    · rw [h, Option.map_some, Versioned.lock_eq_self _ (Versioned.readonly_lock record)]
  · rwa [record?_lock_of_not hlocked]

/-- Locking twice is locking once. -/
theorem lock_lock : (L.lock Locked).lock Locked' = L.lock fun v => Locked v ∨ Locked' v := by
  ext v record
  · by_cases hlocked : Locked v <;> by_cases hlocked' : Locked' v <;>
      cases hrecord : L.record? v <;>
      simp [lock, hlocked, hlocked', hrecord, Versioned.lock_eq_self, Versioned.readonly_lock]
  · rfl

end Layer

namespace Graph

variable {g : Graph} {l : Lines} {draft head source : RevisionId} {Shower : RevisionId → Prop}
  {Shared : VersionId → Prop} {flag : Bool} {revision : Revision}

/-- Publishes some table versions, and all rows they hold. -/
noncomputable def lock (g : Graph) (Shared : VersionId → Prop) : Graph where
  lines := g.lines
  tables := g.tables.lock Shared
  rows := g.rows.lock fun u => ∃ v, Shared v ∧ g.rows.Linked v u

/-- Some revisions come to show some table versions, which are published with all their rows. The
branches and revisions become others. -/
noncomputable def share (g : Graph) (l : Lines) (Shower : RevisionId → Prop)
    (Shared : VersionId → Prop) : Graph where
  lines := l
  tables := (g.tables.lock Shared).expose Shower Shared
  rows := g.rows.lock fun u => ∃ v, Shared v ∧ g.rows.Linked v u

theorem table?_share {v : VersionId} :
    (g.share l Shower Shared).tables.record? v = (g.tables.lock Shared).record? v := rfl

/-- A draft shows what another revision does. -/
def reset (g : Graph) (draft head : RevisionId) : Graph :=
  { g with tables := g.tables.inherit draft (some head) }

/-- Drops the table versions that no revision shows, and then the row versions that no table version
holds. -/
noncomputable def sweep (g : Graph) : Graph where
  lines := g.lines
  tables := g.tables.prune (fun _ _ => True) (fun _ => True)
  rows := g.rows.prune (fun v _ => ∃ r, g.tables.Linked r v) (fun _ => True)

/-- Sharing in two steps. -/
theorem share_share {Shared' : VersionId → Prop} :
    (g.share l Shower Shared).share l Shower Shared' =
      g.share l Shower fun v => Shared v ∨ Shared' v := by
  have htables : ((g.tables.lock Shared).expose Shower Shared).lock Shared' =
      (g.tables.lock fun v => Shared v ∨ Shared' v).expose Shower Shared :=
    congrArg (Layer.expose · Shower Shared) Layer.lock_lock
  have hrows : (fun u => (∃ v, Shared v ∧ g.rows.Linked v u) ∨ ∃ v, Shared' v ∧ g.rows.Linked v u) =
      fun u => ∃ v, (Shared v ∨ Shared' v) ∧ g.rows.Linked v u := by
    ext u
    simp only [or_and_right, exists_or]
  rw [share, share, share, mk.injEq]
  refine ⟨rfl, ?_, Layer.lock_lock.trans (congrArg g.rows.lock hrows)⟩
  rw [htables, Layer.expose_expose]

/-- Sharing nothing. -/
theorem share_nothing : g.share g.lines Shower (fun _ => False) = g := by
  have hrows : (fun u => ∃ v, False ∧ g.rows.Linked v u) = fun _ => False := by
    ext u
    simp
  rw [share, hrows, Layer.lock_nothing, Layer.lock_nothing, Layer.expose_nothing]

/-- A mark changes nothing else. -/
theorem Coherent.mark (hc : g.Closed) (h : g.Coherent)
    (hstored : g.lines.revision? revision.id = some revision) :
    (g.withLines (g.lines.mark revision flag)).Coherent where
  lines := h.lines.mark hc.id_eq hstored
  ownedTables := h.ownedTables.step (fun _ => id) fun hlinked _ =>
    .inl ⟨hlinked, (Lines.published_mark hstored).mp⟩
  ownedRows := h.ownedRows
  anchoredTables := h.anchoredTables.step fun hv =>
    .inr ⟨hv, fun hr hlinked => ⟨(Lines.published_mark hstored).mpr hr, hlinked⟩⟩
  anchoredRows := h.anchoredRows
  heldRows := h.heldRows
  tableEntities := h.tableEntities
  tableNames := h.tableNames
  rowEntities := h.rowEntities
  rowNames := h.rowNames
  tableIdentifiers := h.tableIdentifiers
  rowIdentifiers := h.rowIdentifiers
  systems := h.systems

/-- Revisions that come to show what one revision does show no two tables of one key. -/
theorem tells_share {κ : Type} {key : TableVersion → κ} (h : g.tables.Tells key)
    (hkey : ∀ table : TableVersion, key table.lock = key table)
    (hshower : ∀ {r v}, Shower r → ¬g.tables.Linked r v)
    (hshared : ∀ {v}, Shared v → g.tables.Linked source v) :
    (g.share l Shower Shared).tables.Tells key := by
  refine (Layer.Tells.lock h hkey).step (fun r => ?_) fun hrecord => ⟨_, hrecord, rfl⟩
  by_cases hr : Shower r
  · exact ⟨source, fun v hv => hshared (hv.resolve_left (hshower hr)).2⟩
  · exact ⟨r, fun v hv => hv.resolve_right fun hnew => hr hnew.1⟩

/-- New revisions come to show tables of one revision. A revision that is published along with this
shows nothing else, and each of the tables has one that is published then. -/
theorem Coherent.share (hc : g.Closed) (h : g.Coherent) (hlines : l.Sound)
    (hpublished : ∀ {r}, l.Published r → g.lines.Published r ∨ Shower r ∨
      ∀ v, g.tables.Linked r v → Shared v)
    (hkept : ∀ {r}, g.lines.Published r → l.Published r)
    (hanchor : ∀ {v}, Shared v → ∃ r, l.Published r ∧ (g.tables.Linked r v ∨ Shower r))
    (hshower : ∀ {r v}, Shower r → ¬g.tables.Linked r v)
    (hshared : ∀ {v}, Shared v → g.tables.Linked source v) : (g.share l Shower Shared).Coherent where
  lines := hlines
  ownedTables := by
    have hlock {v : VersionId} (hstored : ∃ table, g.tables.record? v = some table) :
        (g.share l Shower Shared).tables.Published v ↔ Shared v ∨ g.tables.Published v :=
      Layer.published_lock hstored
    refine h.ownedTables.step ?_ ?_
    · rintro r v - ⟨table, htable, hreadonly⟩
      exact (hlock ⟨table, htable⟩).mpr (.inr ⟨table, htable, hreadonly⟩)
    · rintro r v (hlinked | ⟨-, hv⟩) hopen
      -- A revision that is published by this shows shared tables only, which are locked.
      · refine .inl ⟨hlinked, fun hr => ?_⟩
        rcases hpublished hr with hr | hr | hall
        · exact hr
        · exact absurd hlinked (hshower hr)
        · exact absurd ((hlock (hc.shown hlinked)).mpr (.inl (hall v hlinked))) hopen
      · exact absurd ((hlock (hc.shown (hshared hv))).mpr (.inl hv)) hopen
  ownedRows := by
    refine h.ownedRows.step ?_ ?_
    · rintro v u - ⟨row, hrow, hreadonly⟩
      exact (Layer.published_lock ⟨row, hrow⟩).mpr (.inr ⟨row, hrow, hreadonly⟩)
    · intro v u hlinked hopen
      -- A table that is locked by this has its rows locked too.
      refine .inl ⟨hlinked, fun hv => ?_⟩
      rcases (Layer.published_lock (hc.holder hlinked)).mp hv with hv | hv
      · exact absurd ((Layer.published_lock (hc.held hlinked)).mpr (.inl ⟨v, hv, hlinked⟩)) hopen
      · exact hv
  anchoredTables := by
    refine h.anchoredTables.step ?_
    rintro v ⟨table, htable, hreadonly⟩
    obtain ⟨old, hold, -⟩ := Layer.record?_of_lock htable
    rcases (Layer.published_lock ⟨old, hold⟩).mp ⟨table, htable, hreadonly⟩ with hv | hv
    · obtain ⟨r, hr, hlinked | hshower⟩ := hanchor hv
      · exact .inl ⟨r, hr, .inl hlinked⟩
      · exact .inl ⟨r, hr, .inr ⟨hshower, hv⟩⟩
    · exact .inr ⟨hv, fun hr hlinked => ⟨hkept hr, .inl hlinked⟩⟩
  anchoredRows := by
    have hlock {v : VersionId} (hv : Shared v ∨ g.tables.Published v)
        (hstored : ∃ table, g.tables.record? v = some table) :
        (g.share l Shower Shared).tables.Published v := (Layer.published_lock hstored).mpr hv
    refine h.anchoredRows.step ?_
    rintro u ⟨row, hrow, hreadonly⟩
    obtain ⟨old, hold, -⟩ := Layer.record?_of_lock hrow
    -- A row is locked because of a table that is locked with it.
    rcases (Layer.published_lock ⟨old, hold⟩).mp ⟨row, hrow, hreadonly⟩ with ⟨v, hv, hlinked⟩ | hu
    · exact .inl ⟨v, hlock (.inl hv) (hc.holder hlinked), hlinked⟩
    · exact .inr ⟨hu, fun hv hlinked => ⟨hlock (.inr hv) (hc.holder hlinked), hlinked⟩⟩
  heldRows := by
    intro u row hrow hmutable
    obtain ⟨old, hold, ⟨-, rfl⟩ | ⟨-, rfl⟩⟩ := Layer.record?_of_lock hrow
    · cases hmutable
    · exact h.heldRows hold hmutable
  tableEntities := tells_share h.tableEntities (fun _ => rfl) hshower hshared
  tableNames := tells_share h.tableNames (fun _ => rfl) hshower hshared
  rowEntities := h.rowEntities.lock fun _ => rfl
  rowNames := h.rowNames.lock fun _ => rfl
  tableIdentifiers := Layer.All.lock h.tableIdentifiers fun _ => id
  rowIdentifiers := Layer.All.lock h.rowIdentifiers fun _ => id
  systems := Layer.Agrees.lock h.systems fun _ => rfl

/-- A draft that is put back shows published tables only. -/
theorem Coherent.reset (h : g.Coherent) (hhead : g.lines.Published head)
    (hdraft : ¬g.lines.Published draft) : (g.reset draft head).Coherent where
  lines := h.lines
  ownedTables := by
    refine Layer.owns_inherit h.ownedTables ?_ fun _ _ => id
    rintro other hother
    cases hother
    exact hhead
  ownedRows := h.ownedRows
  anchoredTables := Layer.anchored_inherit h.anchoredTables fun {r} hr =>
    ⟨fun heq => hdraft (heq ▸ hr), hr⟩
  anchoredRows := h.anchoredRows
  heldRows := h.heldRows
  tableEntities := h.tableEntities.inherit
  tableNames := h.tableNames.inherit
  rowEntities := h.rowEntities
  rowNames := h.rowNames
  tableIdentifiers := h.tableIdentifiers
  rowIdentifiers := h.rowIdentifiers
  systems := h.systems

/-- What is swept away is not seen. -/
theorem Coherent.sweep (h : g.Coherent) : g.sweep.Coherent where
  lines := h.lines
  ownedTables := Layer.owns_prune h.ownedTables fun _ _ => id
  ownedRows := by
    refine Layer.owns_prune h.ownedRows fun _ _ => ?_
    rintro ⟨table, htable, hreadonly⟩
    exact ⟨table, Layer.record?_of_prune htable, hreadonly⟩
  anchoredTables := Layer.anchored_prune h.anchoredTables fun hr _ _ => ⟨hr, trivial⟩
  anchoredRows := by
    refine Layer.anchored_prune h.anchoredRows fun {v u} hv _ _ => ?_
    -- A published table is shown, so it is not swept away.
    obtain ⟨r, -, hshown⟩ := h.anchoredTables hv
    obtain ⟨table, htable, hreadonly⟩ := hv
    exact ⟨⟨table, (Layer.record?_prune_of_linked hshown trivial).trans htable, hreadonly⟩,
      r, hshown⟩
  heldRows hrow _ := Layer.linked_of_prune hrow trivial
  tableEntities := h.tableEntities.prune
  tableNames := h.tableNames.prune
  rowEntities := h.rowEntities.prune
  rowNames := h.rowNames.prune
  tableIdentifiers := h.tableIdentifiers.prune
  rowIdentifiers := h.rowIdentifiers.prune
  systems := h.systems.prune

/-! ### Versions left behind -/

theorem stray_of_share {v : VersionId} (hstray : (g.share l Shower Shared).tables.Stray v) :
    g.tables.Stray v := by
  obtain ⟨⟨table, htable⟩, hunshown⟩ := hstray
  obtain ⟨old, hold, -⟩ := Layer.record?_of_lock htable
  exact ⟨⟨old, hold⟩, fun r hshown => hunshown r (.inl hshown)⟩

/-- What is left behind is swept away. -/
theorem not_stray_sweep {v : VersionId} : ¬g.sweep.tables.Stray v := by
  rintro ⟨⟨table, htable⟩, hunshown⟩
  obtain ⟨r, hshown⟩ := Layer.linked_of_prune htable trivial
  exact hunshown r hshown

/-! ### Identifiers -/

variable {used : String → Prop}

theorem Uses.mark (h : g.Uses used) (hstored : g.lines.revision? revision.id = some revision) :
    (g.withLines (g.lines.mark revision flag)).Uses used where
  revisions := by
    intro id other hother
    rw [withLines_lines, Lines.revision?_mark] at hother
    split at hother
    · next hid => exact hid ▸ h.revisions hstored
    · exact h.revisions hother
  tables := h.tables
  rows := h.rows

theorem Uses.share (h : g.Uses used)
    (hrevisions : ∀ {id revision}, l.revision? id = some revision → used id.text) :
    (g.share l Shower Shared).Uses used where
  revisions := hrevisions
  tables := (Layer.Uses.lock h.tables).step id fun hrecord => .inl ⟨_, hrecord, rfl⟩
  rows := h.rows.lock

theorem Uses.reset (h : g.Uses used) : (g.reset draft head).Uses used where
  revisions := h.revisions
  tables := h.tables.step id fun hrecord => .inl ⟨_, hrecord, rfl⟩
  rows := h.rows

theorem Uses.sweep (h : g.Uses used) : g.sweep.Uses used where
  revisions := h.revisions
  tables := h.tables.prune
  rows := h.rows.prune

end Graph

end VersionedTables
