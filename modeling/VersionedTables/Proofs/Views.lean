import VersionedTables.Proofs.Changes.Branches
import VersionedTables.Proofs.DeepCopy

/-!
# What a revision can see

A revision sees the table versions it shows, and the row versions these hold. `Graph.SameView g g' r`
says that a change from `g` to `g'` is none for the revision `r`: not only does it see the same
content, it sees the very same versions with the very same records. `Graph.content g r` is the content
that it sees, with the versions forgotten.

For each change of the graph there are two kinds of lemma: which tables it leaves alone
(`Graph.sameTable_placeRow` and its companions), and what it does to the content of the revision it is
made for (`Graph.content_placeTable_none` and its companions).
-/

namespace VersionedTables

namespace Graph

variable {g g' g'' : Graph} {r revision : RevisionId} {v u T : VersionId} {old : Option VersionId}
  {table current : TableVersion} {row : RowVersion} {f : RowVersion → RowVersion}

/-! ## The same view -/

/-- A change that leaves a table version and its rows alone. -/
structure SameTable (g g' : Graph) (v : VersionId) : Prop where
  record : g'.tables.record? v = g.tables.record? v
  holds : ∀ u, g'.rows.Linked v u ↔ g.rows.Linked v u
  rows : ∀ u, g.rows.Linked v u → g'.rows.record? u = g.rows.record? u

/-- A change that a revision cannot see. -/
structure SameView (g g' : Graph) (r : RevisionId) : Prop where
  shows : ∀ v, g'.tables.Linked r v ↔ g.tables.Linked r v
  table : ∀ v, g.tables.Linked r v → SameTable g g' v

theorem SameTable.refl (g : Graph) (v : VersionId) : SameTable g g v :=
  ⟨rfl, fun _ => Iff.rfl, fun _ _ => rfl⟩

theorem SameTable.trans (h : SameTable g g' v) (h' : SameTable g' g'' v) : SameTable g g'' v where
  record := h'.record.trans h.record
  holds u := (h'.holds u).trans (h.holds u)
  rows u hu := (h'.rows u ((h.holds u).mpr hu)).trans (h.rows u hu)

theorem SameView.refl (g : Graph) (r : RevisionId) : SameView g g r :=
  ⟨fun _ => Iff.rfl, fun v _ => .refl g v⟩

theorem SameView.trans (h : SameView g g' r) (h' : SameView g' g'' r) : SameView g g'' r where
  shows v := (h'.shows v).trans (h.shows v)
  table v hv := (h.table v hv).trans (h'.table v ((h.shows v).mpr hv))

/-- What cannot be seen does not show in the lists either. -/
theorem SameView.tablesOf {s s' : Store} (h : SameView s.graph s'.graph r) :
    s'.tablesOf r = s.tablesOf r :=
  Store.tablesOf_congr h.shows fun v hv => (h.table v hv).record

theorem SameView.rowsOf {s s' : Store} (h : SameView s.graph s'.graph r) (hv : s.Shows r v) :
    s'.rowsOf v = s.rowsOf v :=
  Store.rowsOf_congr (h.table v hv).holds (h.table v hv).rows

/-! ## Contents -/

/-- The content of the rows that a table version holds. -/
def rowsIn (g : Graph) (v : VersionId) : Set RowContent :=
  {c | ∃ u row, g.rows.Linked v u ∧ g.rows.record? u = some row ∧ row.content = c}

/-- The content of a table version. -/
def tableContent (g : Graph) (v : VersionId) : Option TableContent :=
  (g.tables.record? v).map fun table => ⟨table.name, table.system, table.entity, g.rowsIn v⟩

/-- The content of a revision. -/
def content (g : Graph) (r : RevisionId) : Content :=
  {c | ∃ v, g.tables.Linked r v ∧ g.tableContent v = some c}

theorem SameTable.rowsIn_eq (h : SameTable g g' v) : g'.rowsIn v = g.rowsIn v := by
  ext c
  refine ⟨?_, ?_⟩
  · rintro ⟨u, row, hholds, hrow, rfl⟩
    have hold := (h.holds u).mp hholds
    exact ⟨u, row, hold, (h.rows u hold).symm.trans hrow, rfl⟩
  · rintro ⟨u, row, hholds, hrow, rfl⟩
    exact ⟨u, row, (h.holds u).mpr hholds, (h.rows u hholds).trans hrow, rfl⟩

theorem SameTable.tableContent_eq (h : SameTable g g' v) :
    g'.tableContent v = g.tableContent v := by
  rw [tableContent, tableContent, h.record, h.rowsIn_eq]

/-- A content is the same when the same tables are shown, with the same contents. -/
theorem content_congr (hshows : ∀ v, g'.tables.Linked r v ↔ g.tables.Linked r v)
    (htable : ∀ v, g.tables.Linked r v → g'.tableContent v = g.tableContent v) :
    g'.content r = g.content r :=
  Layer.gather_congr hshows htable

theorem SameView.content_eq (h : SameView g g' r) : g'.content r = g.content r :=
  content_congr h.shows fun v hv => (h.table v hv).tableContent_eq

/-- The tables of a content are those that are shown. -/
theorem mem_content (hc : g.Closed) {c : TableContent} :
    c ∈ g.content r ↔ ∃ table, g.tables.Linked r table.version ∧
      g.tables.record? table.version = some table ∧
      ⟨table.name, table.system, table.entity, g.rowsIn table.version⟩ = c := by
  refine ⟨?_, ?_⟩
  · rintro ⟨v, hshown, hcontent⟩
    obtain ⟨table, htable, rfl⟩ := Option.map_eq_some_iff.mp hcontent
    obtain rfl := hc.table_eq htable
    exact ⟨table, hshown, htable, rfl⟩
  · rintro ⟨table, hshown, htable, rfl⟩
    exact ⟨table.version, hshown, by rw [tableContent, htable, Option.map_some]⟩

/-- A name is that of a table of the content when it names a table. -/
theorem canRemoveTable_iff (hc : g.Closed) {name : String} :
    (g.content r).CanRemoveTable name ↔ ∃ table, g.NamesTable r name table := by
  refine ⟨?_, ?_⟩
  · rintro ⟨c, hmem, hname⟩
    obtain ⟨table, hshown, htable, rfl⟩ := (mem_content hc).mp hmem
    exact ⟨table, hshown, htable, hname⟩
  · rintro ⟨table, hnamed⟩
    exact ⟨_, (mem_content hc).mpr ⟨table, hnamed.shown, hnamed.stored, rfl⟩, hnamed.named⟩

/-- The table of a name is the one that it names. -/
theorem onTable_iff (hc : g.Closed) {name : String} {P : Set RowContent → Prop} :
    (g.content r).OnTable name P ↔
      ∃ table, g.NamesTable r name table ∧ P (g.rowsIn table.version) := by
  refine ⟨?_, ?_⟩
  · rintro ⟨c, hmem, hname, hrows⟩
    obtain ⟨table, hshown, htable, rfl⟩ := (mem_content hc).mp hmem
    exact ⟨table, ⟨hshown, htable, hname⟩, hrows⟩
  · rintro ⟨table, hnamed, hrows⟩
    exact ⟨_, (mem_content hc).mpr ⟨table, hnamed.shown, hnamed.stored, rfl⟩, hnamed.named, hrows⟩

/-- A name is that of a row of the content when it names a row. -/
theorem hasRow_iff (hc : g.Closed) {name : String} :
    HasRow (g.rowsIn v) name ↔ ∃ row, g.NamesRow v name row := by
  refine ⟨?_, ?_⟩
  · rintro ⟨c, ⟨u, row, hheld, hrow, rfl⟩, hname⟩
    obtain rfl := hc.row_eq hrow
    exact ⟨row, hheld, hrow, hname⟩
  · rintro ⟨row, hnamed⟩
    exact ⟨row.content, ⟨row.version, row, hnamed.held, hnamed.stored, rfl⟩, hnamed.text_eq⟩

/-- A change to one table of a revision, as a change to the table of that name. -/
theorem content_modify {name : String} {F : TableContent → TableContent}
    (hshows : ∀ v, g'.tables.Linked r v ↔ g.tables.Linked r v)
    (hmatches : ∀ {v table}, g.tables.Linked r v → g.tables.record? v = some table →
      (table.name.matches name = true ↔ v = T))
    (hself : g'.tableContent T = (g.tableContent T).map F)
    (hothers : ∀ v, v ≠ T → g.tables.Linked r v → g'.tableContent v = g.tableContent v) :
    g'.content r = (g.content r).modify name F := by
  -- The name is that of `T` and of no other table, so `F` is applied to this one alone.
  have hnamed {v : VersionId} {c : TableContent} (hshown : g.tables.Linked r v)
      (hc : g.tableContent v = some c) : c.name.matches name = true ↔ v = T := by
    obtain ⟨table, htable, rfl⟩ := Option.map_eq_some_iff.mp hc
    exact hmatches hshown htable
  ext c
  refine ⟨?_, ?_⟩
  · rintro ⟨v, hshown, hc⟩
    rw [hshows] at hshown
    by_cases hv : v = T
    · subst hv
      rw [hself] at hc
      obtain ⟨old, hold, rfl⟩ := Option.map_eq_some_iff.mp hc
      exact ⟨old, ⟨v, hshown, hold⟩, if_pos ((hnamed hshown hold).mpr rfl)⟩
    · rw [hothers v hv hshown] at hc
      exact ⟨c, ⟨v, hshown, hc⟩, if_neg fun hname => hv ((hnamed hshown hc).mp hname)⟩
  · rintro ⟨old, ⟨v, hshown, hold⟩, rfl⟩
    refine ⟨v, (hshows v).mpr hshown, ?_⟩
    simp only [hnamed hshown hold]
    split
    · next hv =>
      subst hv
      rw [hself, hold, Option.map_some]
    · next hv => rw [hothers v hv hshown, hold]

/-! ## Changes to branches and revisions alone -/

theorem sameView_lines (l : Lines) (r : RevisionId) : SameView g (g.withLines l) r :=
  ⟨fun _ => Iff.rfl, fun _ _ => ⟨rfl, fun _ => Iff.rfl, fun _ _ => rfl⟩⟩

/-! ## Changes to rows -/

theorem sameTable_placeRow (hc : g.Closed) (hnew : g.rows.record? row.version = none) (hne : v ≠ T) :
    SameTable g (g.placeRow T old row) v where
  record := rfl
  holds u := by simp [placeRow, hne]
  rows u hu := by
    refine Layer.record?_place_of_ne ?_
    rintro rfl
    exact hc.not_held hnew v hu

/-- A row in a place of its own adds its content. -/
theorem rowsIn_placeRow_none (hc : g.Closed) (hnew : g.rows.record? row.version = none) :
    (g.placeRow T none row).rowsIn T = insert row.content (g.rowsIn T) := by
  have hold {u : VersionId} (hu : g.rows.Linked T u) : u ≠ row.version := by
    rintro rfl
    exact hc.not_held hnew T hu
  ext c
  refine ⟨?_, ?_⟩
  · rintro ⟨u, other, hholds, hother, rfl⟩
    simp only [placeRow, Layer.linked_place, Layer.record?_place, if_true] at hholds hother
    rcases hholds with rfl | ⟨hholds, -⟩
    · rw [if_pos rfl] at hother
      cases hother
      exact .inl rfl
    · rw [if_neg (hold hholds)] at hother
      exact .inr ⟨u, other, hholds, hother, rfl⟩
  · rintro (rfl | ⟨u, other, hholds, hother, rfl⟩)
    · exact ⟨row.version, row, by simp [placeRow], by simp [placeRow], rfl⟩
    · exact ⟨u, other, by simp [placeRow, hholds], by simp [placeRow, hold hholds, hother], rfl⟩

/-- A row of the same content in the place of another changes no content. -/
theorem rowsIn_placeRow_some (hc : g.Closed) (hnew : g.rows.record? row.version = none)
    {current : RowVersion} (hheld : g.rows.Linked T u) (hcurrent : g.rows.record? u = some current)
    (hcontent : row.content = current.content) :
    (g.placeRow T (some u) row).rowsIn T = g.rowsIn T := by
  have hold {x : VersionId} (hx : g.rows.Linked T x) : x ≠ row.version := by
    rintro rfl
    exact hc.not_held hnew T hx
  ext c
  refine ⟨?_, ?_⟩
  · rintro ⟨x, other, hholds, hother, rfl⟩
    simp only [placeRow, Layer.linked_place, Layer.record?_place, if_true] at hholds hother
    rcases hholds with rfl | ⟨hholds, -⟩
    · rw [if_pos rfl] at hother
      cases hother
      exact ⟨u, current, hheld, hcurrent, hcontent.symm⟩
    · rw [if_neg (hold hholds)] at hother
      exact ⟨x, other, hholds, hother, rfl⟩
  · rintro ⟨x, other, hholds, hother, rfl⟩
    by_cases hx : x = u
    · -- What was seen in the old version is seen in its copy.
      subst hx
      rw [hcurrent] at hother
      cases hother
      exact ⟨row.version, row, by simp [placeRow], by simp [placeRow], hcontent⟩
    · refine ⟨x, other, ?_, by simp [placeRow, hold hholds, hother], rfl⟩
      simp [placeRow, hholds, Ne.symm hx]

theorem sameTable_amendRows
    (h : ∀ {u row}, g.rows.Linked v u → g.rows.record? u = some row → f row = row) :
    SameTable g (g.amendRows f) v where
  record := rfl
  holds _ := Iff.rfl
  rows u hu := by
    simp only [amendRows, Layer.record?_amend]
    rcases hrow : g.rows.record? u with _ | row
    · rfl
    · rw [Option.map_some, h hu hrow]

/-- Replacing records changes each content in the same way. -/
theorem rowsIn_amendRows {F : RowContent → RowContent}
    (h : ∀ {u row}, g.rows.Linked T u → g.rows.record? u = some row →
      (f row).content = F row.content) :
    (g.amendRows f).rowsIn T = F '' g.rowsIn T := by
  ext c
  refine ⟨?_, ?_⟩
  · rintro ⟨u, row, hholds, hrow, rfl⟩
    obtain ⟨old, hold, rfl⟩ := Option.map_eq_some_iff.mp hrow
    exact ⟨old.content, ⟨u, old, hholds, hold, rfl⟩, (h hholds hold).symm⟩
  · rintro ⟨_, ⟨u, old, hholds, hold, rfl⟩, rfl⟩
    refine ⟨u, f old, hholds, ?_, h hholds hold⟩
    simp only [amendRows, Layer.record?_amend, hold, Option.map_some]

theorem sameTable_removeRow (hne : v ≠ T) : SameTable g (g.removeRow T u) v where
  record := rfl
  holds x := by simp [removeRow, Layer.linked_prune, hne]
  rows x hx := Layer.record?_prune_of_linked hx fun hremoved => hne hremoved.1

/-- Letting go of a row drops the content of its name. -/
theorem rowsIn_removeRow (h : g.Coherent) (hheld : g.rows.Linked T u)
    (hrow : g.rows.record? u = some row) :
    (g.removeRow T u).rowsIn T = {c ∈ g.rowsIn T | c.name ≠ row.name} := by
  ext c
  refine ⟨?_, ?_⟩
  · rintro ⟨x, other, ⟨hholds, hkept⟩, hother, rfl⟩
    have hold := Layer.record?_of_prune hother
    -- A row of the same name would be the one that is let go of.
    refine ⟨⟨x, other, hholds, hold, rfl⟩, fun hname => hkept ⟨rfl, ?_⟩⟩
    exact h.rowNames hholds hheld hold hrow hname
  · rintro ⟨⟨x, other, hholds, hother, rfl⟩, hname⟩
    have hkept : ¬(T = T ∧ x = u) := by
      rintro ⟨-, rfl⟩
      rw [hrow] at hother
      cases hother
      exact hname rfl
    exact ⟨x, other, ⟨hholds, hkept⟩, (Layer.record?_prune_of_linked hholds hkept).trans hother, rfl⟩

/-! ## Changes to tables -/

theorem sameTable_placeTable (hne : v ≠ table.version) :
    SameTable g (g.placeTable revision old table) v where
  record := Layer.record?_place_of_ne hne
  holds u := by simp [placeTable, hne]
  rows _ _ := rfl

/-- Only the draft in which a table takes a place can see it. -/
theorem sameView_placeTable (hc : g.Closed) (hnew : g.tables.record? table.version = none)
    (hne : r ≠ revision) : SameView g (g.placeTable revision old table) r where
  shows v := by simp [placeTable, hne]
  table v hv := by
    refine sameTable_placeTable ?_
    rintro rfl
    exact hc.not_shown hnew r hv

/-- A version that takes a place takes the rows along. -/
theorem rowsIn_placeTable_some :
    (g.placeTable revision (some v) table).rowsIn table.version = g.rowsIn v := by
  ext c
  simp [rowsIn, placeTable]

/-- A new table adds an empty content. -/
theorem content_placeTable_none (hc : g.Closed) (hnew : g.tables.record? table.version = none) :
    (g.placeTable revision none table).content revision =
      (g.content revision).createTable table.name table.system table.entity := by
  have hrows : (g.placeTable revision none table).rowsIn table.version = ∅ := by
    ext c
    simp [rowsIn, placeTable]
  have htable : (g.placeTable revision none table).tableContent table.version =
      some ⟨table.name, table.system, table.entity, ∅⟩ := by
    rw [tableContent, hrows]
    simp [placeTable]
  have hold {v : VersionId} (hv : g.tables.Linked revision v) :
      (g.placeTable revision none table).tableContent v = g.tableContent v := by
    refine (sameTable_placeTable ?_).tableContent_eq
    rintro rfl
    exact hc.not_shown hnew revision hv
  ext c
  refine ⟨?_, ?_⟩
  · rintro ⟨v, hshown, hcontent⟩
    simp only [placeTable, Layer.linked_place, if_true] at hshown
    rcases hshown with rfl | ⟨hshown, -⟩
    · rw [htable] at hcontent
      exact .inl (Option.some.inj hcontent).symm
    · exact .inr ⟨v, hshown, (hold hshown).symm.trans hcontent⟩
  · rintro (rfl | ⟨v, hshown, hcontent⟩)
    · exact ⟨table.version, by simp [placeTable], htable⟩
    · exact ⟨v, by simp [placeTable, hshown], (hold hshown).trans hcontent⟩

/-- A copy in the place of a table changes no content. -/
theorem content_placeTable_some (hc : g.Closed) (hnew : g.tables.record? table.version = none)
    (hshown : g.tables.Linked revision v) (hcurrent : g.tables.record? v = some current)
    (hname : table.name = current.name) (hsystem : table.system = current.system)
    (hentity : table.entity = current.entity) :
    (g.placeTable revision (some v) table).content revision = g.content revision := by
  have htable : (g.placeTable revision (some v) table).tableContent table.version =
      g.tableContent v := by
    rw [tableContent, tableContent, rowsIn_placeTable_some, hcurrent]
    simp [placeTable, hname, hsystem, hentity]
  refine Layer.gather_place hshown htable fun x hx => ?_
  refine (sameTable_placeTable ?_).tableContent_eq
  rintro rfl
  exact hc.not_shown hnew revision hx

theorem sameTable_putTable (hne : v ≠ table.version) : SameTable g (g.putTable table) v where
  record := if_neg hne
  holds _ := Iff.rfl
  rows _ _ := rfl

/-- Replacing the record of a table changes its name alone. -/
theorem tableContent_putTable (hcurrent : g.tables.record? table.version = some current)
    (hsystem : table.system = current.system) (hentity : table.entity = current.entity) :
    (g.putTable table).tableContent table.version =
      (g.tableContent table.version).map fun c => { c with name := table.name } := by
  rw [tableContent, tableContent, hcurrent, Option.map_some, Option.map_some, ← hsystem, ← hentity]
  simp [putTable, rowsIn]

theorem sameTable_removeTable (h : v ≠ T ∨ g.tables.Published T) :
    SameTable g (g.removeTable revision T) v where
  record := Layer.record?_prune_of_not fun hdrop => by
    rcases h with hne | hpublished
    · exact hne hdrop.1
    · exact hdrop.2 hpublished
  holds u := by
    rw [removeTable, Layer.linked_prune]
    refine and_iff_left fun hv => ?_
    rcases h with hne | hpublished
    · exact absurd hv hne
    · exact hpublished
  rows u hu := by
    refine Layer.record?_prune_of_linked hu fun hv => ?_
    rcases h with hne | hpublished
    · exact absurd hv hne
    · exact hpublished

/-- Only the draft that lets go of a table can see that. -/
theorem sameView_removeTable (h : g.Coherent) (hshown : g.tables.Linked revision T)
    (hne : r ≠ revision) : SameView g (g.removeTable revision T) r where
  shows v := by
    rw [removeTable, Layer.linked_prune]
    exact and_iff_left fun hremoved => hne hremoved.1
  table v hv := by
    refine sameTable_removeTable (or_iff_not_imp_right.mpr fun hopen => ?_)
    rintro rfl
    exact hne (h.ownedTables.unique hv hshown hopen)

/-- Letting go of a table drops the content of its name. -/
theorem content_removeTable {name : String} (h : g.Coherent) (hnamed : g.NamesTable revision name table) :
    (g.removeTable revision table.version).content revision =
      (g.content revision).removeTable name := by
  have hsame {v : VersionId} (hv : v ≠ table.version) :
      (g.removeTable revision table.version).tableContent v = g.tableContent v :=
    (sameTable_removeTable (.inl hv)).tableContent_eq
  ext c
  refine ⟨?_, ?_⟩
  · rintro ⟨v, ⟨hshown, hkept⟩, hcontent⟩
    have hv : v ≠ table.version := fun hv => hkept ⟨rfl, hv⟩
    rw [hsame hv] at hcontent
    refine ⟨⟨v, hshown, hcontent⟩, ?_⟩
    obtain ⟨other, hother, rfl⟩ := Option.map_eq_some_iff.mp hcontent
    refine Bool.eq_false_iff.mpr fun hname => hv ?_
    refine h.tableNames hshown hnamed.shown hother hnamed.stored ?_
    exact (beq_iff_eq.mp hname).trans (beq_iff_eq.mp hnamed.named).symm
  · rintro ⟨⟨v, hshown, hcontent⟩, hname⟩
    have hv : v ≠ table.version := by
      rintro rfl
      rw [tableContent, hnamed.stored] at hcontent
      cases hcontent
      rw [hnamed.named] at hname
      cases hname
    exact ⟨v, ⟨hshown, fun hremoved => hv hremoved.2⟩, (hsame hv).trans hcontent⟩

/-! ## Changes to what revisions show -/

section Share

variable {l : Lines} {Shower : RevisionId → Prop} {Shared : VersionId → Prop} {source : RevisionId}

/-- Locking changes no content. -/
theorem rowsIn_share : (g.share l Shower Shared).rowsIn v = g.rowsIn v := by
  ext c
  refine ⟨?_, ?_⟩
  · rintro ⟨u, row, hholds, hrow, rfl⟩
    obtain ⟨old, hold, ⟨-, rfl⟩ | ⟨-, rfl⟩⟩ := Layer.record?_of_lock hrow
    · exact ⟨u, old, hholds, hold, rfl⟩
    · exact ⟨u, _, hholds, hold, rfl⟩
  · rintro ⟨u, row, hholds, hrow, rfl⟩
    by_cases hu : ∃ v, Shared v ∧ g.rows.Linked v u
    · refine ⟨u, row.lock, hholds, ?_, rfl⟩
      exact (Layer.record?_lock_of hu).trans (by rw [hrow]; rfl)
    · exact ⟨u, row, hholds, (Layer.record?_lock_of_not hu).trans hrow, rfl⟩

theorem tableContent_share : (g.share l Shower Shared).tableContent v = g.tableContent v := by
  rw [tableContent, tableContent, rowsIn_share, table?_share]
  by_cases hv : Shared v
  · rw [Layer.record?_lock_of hv, Option.map_map]
    rfl
  · rw [Layer.record?_lock_of_not hv]

/-- A table that is published already is not changed by being shared, and one that is not shared is
not changed by its neighbours' being so. -/
theorem sameTable_share (h : g.Coherent) (hv : Shared v → g.tables.Published v) :
    SameTable g (g.share l Shower Shared) v where
  record := by
    by_cases hshared : Shared v
    · exact Layer.record?_lock_of_published (hv hshared)
    · exact Layer.record?_lock_of_not hshared
  holds _ := Iff.rfl
  rows u hu := by
    by_cases hlocked : ∃ v, Shared v ∧ g.rows.Linked v u
    -- An open row is held by this table alone, which is then the one that is shared.
    · refine Layer.record?_lock_of_published ?_
      by_contra hopen
      obtain ⟨v', hshared, hu'⟩ := hlocked
      obtain rfl := h.ownedRows.unique hu hu' hopen
      exact hopen (h.ownedRows.published hu (hv hshared))
    · exact Layer.record?_lock_of_not hlocked

/-- Sharing cannot be seen by a revision that is not shown more by it, unless it has an unpublished
table that is shared. -/
theorem sameView_share (h : g.Coherent) (hr : ¬Shower r)
    (hv : ∀ v, g.tables.Linked r v → Shared v → g.tables.Published v) :
    SameView g (g.share l Shower Shared) r where
  shows _ := or_iff_left fun hnew => hr hnew.1
  table v hshown := sameTable_share h (hv v hshown)

theorem content_share_of_not (hr : ¬Shower r) :
    (g.share l Shower Shared).content r = g.content r :=
  content_congr (fun _ => or_iff_left fun hnew => hr hnew.1) fun _ _ => tableContent_share

/-- A new revision gets the content of the one whose tables it shares. -/
theorem content_share_of (hr : Shower r) (hnew : ∀ v, ¬g.tables.Linked r v)
    (hshared : ∀ v, Shared v ↔ g.tables.Linked source v) :
    (g.share l Shower Shared).content r = g.content source := by
  refine Layer.gather_congr (fun v => ?_) fun v _ => tableContent_share
  exact (or_iff_right (hnew v)).trans ((and_iff_right hr).trans (hshared v))

/-- A new revision that shares no tables has no content. -/
theorem content_share_nothing (hnew : ∀ v, ¬g.tables.Linked r v) (hshared : ∀ v, ¬Shared v) :
    (g.share l Shower Shared).content r = ∅ := by
  ext c
  simp only [Set.mem_empty_iff_false, iff_false]
  rintro ⟨v, hshown | ⟨-, hv⟩, -⟩
  · exact hnew v hshown
  · exact hshared v hv

end Share

section Reset

variable {draft head : RevisionId}

theorem sameView_reset (hne : r ≠ draft) : SameView g (g.reset draft head) r where
  shows v := by simp [reset, hne]
  table _ _ := ⟨rfl, fun _ => Iff.rfl, fun _ _ => rfl⟩

/-- A draft that is put back has the content of the other revision. -/
theorem content_reset : (g.reset draft head).content draft = g.content head :=
  Layer.gather_congr (fun v => by simp [reset]) fun _ _ => rfl

end Reset

/-- Nobody can see what is swept away. -/
theorem sameView_sweep : SameView g g.sweep r where
  shows v := by rw [sweep, Layer.linked_prune, and_true]
  table v hv :=
    { record := Layer.record?_prune_of_linked hv trivial
      holds := fun u => by
        rw [sweep, Layer.linked_prune]
        exact and_iff_left ⟨r, hv⟩
      rows := fun u hu => Layer.record?_prune_of_linked hu ⟨r, hv⟩ }

end Graph

end VersionedTables
