import VersionedTables.Proofs.Coherence

/-!
# Changes to the rows of a table

What commands do to the lower layer of the graph, one table version at a time: a new row version
takes a place (`Graph.placeRow`), records are replaced where they stand (`Graph.amendRows`), and a
row version is let go of, and dropped if nothing else holds it (`Graph.removeRow`). Each keeps the
graph coherent as long as the table version is not published.
-/

namespace VersionedTables

/-! ## Dropping what nobody links -/

namespace Layer

variable {α ν : Type}

open scoped Classical in
/-- Keeps some of the links, and drops those of some versions that nobody links any more. -/
noncomputable def prune (L : Layer α ν) (Keeps : α → VersionId → Prop) (MayDrop : VersionId → Prop) :
    Layer α ν where
  record? v := if MayDrop v ∧ ∀ a, ¬(L.Linked a v ∧ Keeps a v) then none else L.record? v
  Linked a v := L.Linked a v ∧ Keeps a v

variable {L : Layer α ν} {Keeps : α → VersionId → Prop} {MayDrop : VersionId → Prop} {a : α}
  {v : VersionId} {record : ν}

theorem linked_prune : (L.prune Keeps MayDrop).Linked a v ↔ L.Linked a v ∧ Keeps a v := Iff.rfl

theorem record?_prune_of_linked (h : L.Linked a v) (hkeeps : Keeps a v) :
    (L.prune Keeps MayDrop).record? v = L.record? v :=
  if_neg fun hdrop => hdrop.2 a ⟨h, hkeeps⟩

theorem record?_prune_of_not (h : ¬MayDrop v) :
    (L.prune Keeps MayDrop).record? v = L.record? v :=
  if_neg fun hdrop => h hdrop.1

theorem record?_prune_of_unlinked (h : MayDrop v) (hunlinked : ∀ a, ¬(L.Linked a v ∧ Keeps a v)) :
    (L.prune Keeps MayDrop).record? v = none :=
  if_pos ⟨h, hunlinked⟩

/-- What is left was there before. -/
theorem record?_of_prune (h : (L.prune Keeps MayDrop).record? v = some record) :
    L.record? v = some record := by
  rw [prune] at h
  simp only at h
  split at h
  · cases h
  · exact h

/-- What is left and may have been dropped is linked. -/
theorem linked_of_prune (h : (L.prune Keeps MayDrop).record? v = some record) (hdrop : MayDrop v) :
    ∃ a, L.Linked a v ∧ Keeps a v := by
  by_contra hunlinked
  rw [record?_prune_of_unlinked hdrop fun a ha => hunlinked ⟨a, ha⟩] at h
  cases h

theorem owns_prune [Versioned ν] {P P' : α → Prop} (h : Owns P L.Linked L.Published)
    (howners : ∀ {a v}, L.Linked a v → Keeps a v → P' a → P a) :
    Owns P' (L.prune Keeps MayDrop).Linked (L.prune Keeps MayDrop).Published := by
  refine h.step ?_ fun hlinked _ => .inl ⟨hlinked.1, howners hlinked.1 hlinked.2⟩
  rintro a v ⟨hlinked, hkeeps⟩ ⟨record, hrecord, hreadonly⟩
  exact ⟨record, (record?_prune_of_linked hlinked hkeeps).trans hrecord, hreadonly⟩

/-- No version is left behind that may have been dropped, or has an owner that keeps it. -/
theorem Stray.of_prune (h : (L.prune Keeps MayDrop).Stray v)
    (hkeeps : ∀ {a}, L.Linked a v → ¬MayDrop v → ∃ b, L.Linked b v ∧ Keeps b v) : L.Stray v := by
  obtain ⟨⟨record, hrecord⟩, hunlinked⟩ := h
  refine ⟨⟨record, record?_of_prune hrecord⟩, fun a ha => ?_⟩
  by_cases hdrop : MayDrop v
  · obtain ⟨b, hb⟩ := linked_of_prune hrecord hdrop
    exact hunlinked b hb
  · obtain ⟨b, hb⟩ := hkeeps ha hdrop
    exact hunlinked b hb

theorem anchored_prune [Versioned ν] {P P' : α → Prop} (h : Anchored P L.Linked L.Published)
    (hkeeps : ∀ {a v}, P a → L.Linked a v → L.Published v → P' a ∧ Keeps a v) :
    Anchored P' (L.prune Keeps MayDrop).Linked (L.prune Keeps MayDrop).Published := by
  refine h.step ?_
  rintro v ⟨record, hrecord, hreadonly⟩
  have hpublished : L.Published v := ⟨record, record?_of_prune hrecord, hreadonly⟩
  refine .inr ⟨hpublished, fun ha hlinked => ?_⟩
  obtain ⟨ha', hkept⟩ := hkeeps ha hlinked hpublished
  exact ⟨ha', hlinked, hkept⟩

theorem Tells.prune {κ : Type} {key : ν → κ} (h : L.Tells key) :
    (L.prune Keeps MayDrop).Tells key :=
  h.step (fun a => ⟨a, fun _ hlinked => hlinked.1⟩) fun hrecord =>
    ⟨_, record?_of_prune hrecord, rfl⟩

theorem Uses.prune [Versioned ν] {used : String → Prop} (h : L.Uses used) :
    (L.prune Keeps MayDrop).Uses used :=
  h.step id fun hrecord => .inl ⟨_, record?_of_prune hrecord, rfl⟩

theorem All.prune {P : ν → Prop} (h : L.All P) : (L.prune Keeps MayDrop).All P :=
  h.step fun hrecord => .inl ⟨_, record?_of_prune hrecord, id⟩

theorem Agrees.prune [Versioned ν] {κ : Type} {key : ν → κ} (h : L.Agrees key) :
    (L.prune Keeps MayDrop).Agrees key :=
  h.step fun hrecord => ⟨_, _, record?_of_prune hrecord, rfl, rfl⟩

/-! ## Replacing records -/

/-- Replaces records where they stand. -/
def amend (L : Layer α ν) (f : ν → ν) : Layer α ν :=
  { L with record? := fun v => (L.record? v).map f }

variable {f : ν → ν}

@[simp] theorem record?_amend : (L.amend f).record? v = (L.record? v).map f := rfl

@[simp] theorem linked_amend : (L.amend f).Linked a v ↔ L.Linked a v := Iff.rfl

theorem published_amend [Versioned ν]
    (h : ∀ {record}, L.record? v = some record →
      Versioned.readonly (f record) = Versioned.readonly record) :
    (L.amend f).Published v ↔ L.Published v := by
  rcases hrecord : L.record? v with _ | record
  · simp [Published, hrecord]
  · simp [Published, hrecord, h hrecord]

theorem Tells.amend {κ : Type} {key : ν → κ} (h : L.Tells key)
    (hkey : ∀ {v record}, L.record? v = some record → key (f record) = key record) :
    (L.amend f).Tells key := by
  refine h.step (fun a => ⟨a, fun _ hlinked => hlinked⟩) fun hrecord => ?_
  obtain ⟨record, hold, rfl⟩ := Option.map_eq_some_iff.mp hrecord
  exact ⟨record, hold, hkey hold⟩

theorem Uses.amend [Versioned ν] {used : String → Prop} (h : L.Uses used)
    (hentity : ∀ {v record}, L.record? v = some record →
      Versioned.entity (f record) = Versioned.entity record) : (L.amend f).Uses used := by
  refine h.step id fun hrecord => ?_
  obtain ⟨record, hold, rfl⟩ := Option.map_eq_some_iff.mp hrecord
  exact .inl ⟨record, hold, hentity hold⟩

theorem All.amend {P : ν → Prop} (h : L.All P)
    (hrecords : ∀ {v record}, L.record? v = some record → P record → P (f record)) :
    (L.amend f).All P := by
  refine h.step fun hrecord => .inl ?_
  obtain ⟨record, hold, rfl⟩ := Option.map_eq_some_iff.mp hrecord
  exact ⟨record, hold, hrecords hold⟩

/-- Putting a record in the place of the one that is stored. -/
theorem put_eq_amend {record : ν} (hstored : ∃ old, L.record? v = some old)
    (hself : ∀ {old}, L.record? v = some old → f old = record)
    (hothers : ∀ {u other}, u ≠ v → L.record? u = some other → f other = other) :
    L.put v record = L.amend f := by
  ext u other
  · rw [record?_put, record?_amend]
    split
    · next hu =>
      obtain ⟨old, hold⟩ := hstored
      rw [hu, hold, Option.map_some, hself hold]
    · next hu =>
      rcases hrecord : L.record? u with _ | current
      · rfl
      · rw [Option.map_some, hothers hu hrecord]
  · rfl

end Layer

/-! ## Rows -/

namespace Graph

variable {g : Graph} {v u : VersionId} {old : Option VersionId} {row : RowVersion}
  {f : RowVersion → RowVersion} {used : String → Prop}

/-- A table version holds a new row version, in the place of an old one if one is given. -/
def placeRow (g : Graph) (v : VersionId) (old : Option VersionId) (row : RowVersion) : Graph :=
  { g with rows := g.rows.place v old row.version row }

/-- Replaces records of row versions where they stand. -/
def amendRows (g : Graph) (f : RowVersion → RowVersion) : Graph :=
  { g with rows := g.rows.amend f }

/-- A table version lets go of a row version, which is dropped if nothing else holds it. -/
noncomputable def removeRow (g : Graph) (v u : VersionId) : Graph :=
  { g with rows := g.rows.prune (fun b x => ¬(b = v ∧ x = u)) (· = u) }

theorem Closed.not_held (hc : g.Closed) (hnew : g.rows.record? u = none) (b : VersionId) :
    ¬g.rows.Linked b u := by
  intro hlinked
  obtain ⟨row, hrow⟩ := hc.held hlinked
  rw [hnew] at hrow
  cases hrow

/-- A new row version takes a place in a table version that is not published: the place of a
published one, or a place of its own. -/
theorem Coherent.placeRow (hc : g.Closed) (h : g.Coherent) (hopen : ¬g.tables.Published v)
    (hmutable : row.readonly = false) (hnew : g.rows.record? row.version = none) (hold : ∀ u, old = some u → g.rows.Published u)
    (hentity : ∀ {u other}, g.rows.Linked v u → old ≠ some u → g.rows.record? u = some other →
      other.entity ≠ row.entity)
    (hname : ∀ {u other}, g.rows.Linked v u → old ≠ some u → g.rows.record? u = some other →
      other.name ≠ row.name) (hidentifier : IsIdentifier row.name.text) :
    (g.placeRow v old row).Coherent where
  lines := h.lines
  ownedTables := h.ownedTables
  ownedRows := Layer.owns_place h.ownedRows hopen hnew (hc.not_held hnew)
  anchoredTables := h.anchoredTables
  anchoredRows := Layer.anchored_place h.anchoredRows hopen hmutable
  heldRows := by
    intro u other hother hreadonly
    by_cases hu : u = row.version
    · exact ⟨v, by simp [Graph.placeRow, hu]⟩
    · have hstored : g.rows.record? u = some other := by
        rw [← hother]
        exact (Layer.record?_place_of_ne hu).symm
      obtain ⟨b, hb⟩ := h.heldRows hstored hreadonly
      refine ⟨b, ?_⟩
      simp only [Graph.placeRow, Layer.linked_place]
      split
      · next hbv =>
        subst hbv
        -- The place that was taken is that of a published row, and this row is not published.
        refine .inr ⟨hb, fun hold' => ?_⟩
        have hpublished := (Layer.published_iff hstored).mp (hold u hold')
        exact Bool.false_ne_true (hreadonly.symm.trans hpublished)
      · exact hb
  tableEntities := h.tableEntities
  tableNames := h.tableNames
  rowEntities := h.rowEntities.place (hc.not_held hnew) hentity
  rowNames := h.rowNames.place (hc.not_held hnew) hname
  tableIdentifiers := h.tableIdentifiers
  rowIdentifiers := h.rowIdentifiers.place hidentifier
  systems := h.systems

/-- A copy takes the place of a published row version. -/
theorem Coherent.placeRowCopy (hc : g.Closed) (h : g.Coherent) (hopen : ¬g.tables.Published v)
    {now : Instant} (hnew : g.rows.record? u = none) (hheld : g.rows.Linked v row.version)
    (hcurrent : g.rows.record? row.version = some row) (hreadonly : row.readonly = true) :
    (g.placeRow v (some row.version) (row.copy u now)).Coherent := by
  have hidentifier : IsIdentifier row.name.text := h.rowIdentifiers hcurrent
  refine h.placeRow hc hopen rfl hnew ?_ ?_ ?_ hidentifier
  · rintro o ho
    cases ho
    exact ⟨row, hcurrent, hreadonly⟩
  · exact h.rowEntities.kept_ne hheld hcurrent
  · exact h.rowNames.kept_ne hheld hcurrent

/-- A copy has the name of the row whose place it takes. -/
theorem NamesRow.placeRowCopy {name : String} {now : Instant} (hnamed : g.NamesRow v name row) :
    (g.placeRow v (some row.version) (row.copy u now)).NamesRow v name (row.copy u now) where
  held := by simp [Graph.placeRow]
  stored := by simp [Graph.placeRow]
  text_eq := hnamed.text_eq

/-- Records of rows are replaced by others of the same rows, of names that are still told apart. -/
theorem Coherent.amendRows (h : g.Coherent)
    (hentity : ∀ {u row}, g.rows.record? u = some row → (f row).entity = row.entity)
    (hreadonly : ∀ {u row}, g.rows.record? u = some row → (f row).readonly = row.readonly)
    (hnames : (g.rows.amend f).Tells RowVersion.name)
    (hidentifier : ∀ {u row}, g.rows.record? u = some row → IsIdentifier row.name.text →
      IsIdentifier (f row).name.text) : (g.amendRows f).Coherent where
  lines := h.lines
  ownedTables := h.ownedTables
  ownedRows := by
    refine h.ownedRows.step (fun _ => (Layer.published_amend hreadonly).mpr) ?_
    exact fun hlinked _ => .inl ⟨hlinked, id⟩
  anchoredTables := h.anchoredTables
  anchoredRows := h.anchoredRows.step fun hpublished =>
    .inr ⟨(Layer.published_amend hreadonly).mp hpublished, fun hv hlinked => ⟨hv, hlinked⟩⟩
  heldRows := by
    intro u row hrow hmutable
    obtain ⟨row, hold, rfl⟩ := Option.map_eq_some_iff.mp hrow
    exact h.heldRows hold ((hreadonly hold).symm.trans hmutable)
  tableEntities := h.tableEntities
  tableNames := h.tableNames
  rowEntities := h.rowEntities.amend hentity
  rowNames := hnames
  tableIdentifiers := h.tableIdentifiers
  rowIdentifiers := h.rowIdentifiers.amend hidentifier
  systems := h.systems

/-- A row version that is not published is held by no other table version, so it goes with its place
in a table version that is not published. -/
theorem Coherent.removeRow (h : g.Coherent) (hopen : ¬g.tables.Published v) :
    (g.removeRow v u).Coherent where
  lines := h.lines
  ownedTables := h.ownedTables
  ownedRows := Layer.owns_prune h.ownedRows fun _ _ => id
  anchoredTables := h.anchoredTables
  anchoredRows := Layer.anchored_prune h.anchoredRows fun hb _ _ =>
    ⟨hb, fun hremoved => hopen (hremoved.1 ▸ hb)⟩
  heldRows := by
    intro x row hrow hmutable
    by_cases hx : x = u
    -- The row itself is still there only if another table holds it.
    · exact Layer.linked_of_prune hrow hx
    · obtain ⟨b, hb⟩ := h.heldRows (Layer.record?_of_prune hrow) hmutable
      exact ⟨b, hb, fun hremoved => hx hremoved.2⟩
  tableEntities := h.tableEntities
  tableNames := h.tableNames
  rowEntities := h.rowEntities.prune
  rowNames := h.rowNames.prune
  tableIdentifiers := h.tableIdentifiers
  rowIdentifiers := h.rowIdentifiers.prune
  systems := h.systems

/-! ### Identifiers -/

theorem Uses.placeRow (h : g.Uses used) (hversion : used row.version.text)
    (hentity : used row.entity.text) : (g.placeRow v old row).Uses used where
  revisions := h.revisions
  tables := h.tables
  rows := h.rows.place hversion hentity

theorem Uses.amendRows (h : g.Uses used)
    (hentity : ∀ {u row}, g.rows.record? u = some row → (f row).entity = row.entity) :
    (g.amendRows f).Uses used where
  revisions := h.revisions
  tables := h.tables
  rows := h.rows.amend hentity

theorem Uses.removeRow (h : g.Uses used) : (g.removeRow v u).Uses used where
  revisions := h.revisions
  tables := h.tables
  rows := h.rows.prune

end Graph

end VersionedTables
