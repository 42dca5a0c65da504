import VersionedTables.Edit
import VersionedTables.Proofs.Maps
import VersionedTables.Proofs.Outlines

/-!
# What differences say

A difference compares revisions entity by entity, in maps that are filled from lists. On a sound
store it comes out empty exactly when the outlines of the two revisions are the same
(`Store.Sound.diff_isEmpty_iff`), and so a draft is found to differ from its parent exactly when it
does (`Store.Sound.differsFromParent_iff`).
-/

namespace VersionedTables

open Std

/-! ## Views that are filled from lists -/

theorem RowViews.getElem?_ofList {rows : List (EntityId × RowView)} (hnodup : (rows.map (·.1)).Nodup)
    {entity : EntityId} {row : RowView} :
    (ofList rows)[entity]? = some row ↔ (entity, row) ∈ rows := by
  have hfold : ofList rows = rows.foldl (fun views row => views.insert row.1 row.2) ∅ := rfl
  rw [hfold, getElem?_foldl_insert _ _ hnodup fun _ _ => by simp]
  simp

theorem TableView.getElem?_byEntity {tables : List TableView}
    (hnodup : (tables.map (·.entity)).Nodup) {entity : EntityId} {table : TableView} :
    (byEntity tables)[entity]? = some table ↔ table ∈ tables ∧ table.entity = entity := by
  have hfold : byEntity tables =
      tables.foldl (fun views table => views.insert table.entity (id table)) ∅ := rfl
  rw [hfold, getElem?_foldl_insert _ _ hnodup fun _ _ => by simp]
  simp

/-! ## Empty differences -/

/-- Only the same version does not differ. -/
theorem RowChange.between?_eq_none {entity : EntityId} {old new : RowView} :
    between? entity old new = none ↔ old.version = new.version := by
  rw [between?]
  grind

/-- The rows of a table do not differ when the same entities have the same versions. -/
theorem RowChange.list_eq_nil {before after : RowViews} :
    list before after = [] ↔
      (∀ (entity : EntityId) (old : RowView), before[entity]? = some old →
        ∃ new : RowView, after[entity]? = some new) ∧
      ∀ (entity : EntityId) (new : RowView), after[entity]? = some new →
        ∃ old : RowView, before[entity]? = some old ∧ old.version = new.version := by
  rw [list, List.append_eq_nil_iff, filterMap_toList_eq_nil, filterMap_toList_eq_nil]
  refine and_congr (forall₃_congr fun entity old _ => ?_) (forall₃_congr fun entity new _ => ?_)
  · rw [ite_eq_left_iff, ← contains_iff_exists]
    simp
  · dsimp only
    rcases before[entity]? with _ | old
    · simp
    · simp [between?_eq_none]

/-- A table does not differ when it is the same version, or has the same name and rows that do not
differ. -/
theorem TableChange.between?_eq_none {old new : TableView} :
    between? old new = none ↔
      old.version = new.version ∨ old.name = new.name ∧ RowChange.list old.rows new.rows = [] := by
  rw [between?]
  grind

/-- Two views do not differ when the same entities have tables that do not. -/
theorem Diff.isEmpty_between {before after : List TableView}
    (hbefore : (before.map (·.entity)).Nodup) (hafter : (after.map (·.entity)).Nodup) :
    (between before after).isEmpty = true ↔
      (∀ old ∈ before, ∃ new ∈ after, new.entity = old.entity) ∧
        ∀ new ∈ after, ∃ old ∈ before, old.entity = new.entity ∧
          TableChange.between? old new = none := by
  rw [isEmpty, List.isEmpty_iff, between]
  simp only [List.append_eq_nil_iff, filterMap_toList_eq_nil]
  refine and_congr ?_ ?_
  · simp only [TableView.getElem?_byEntity hbefore, ite_eq_left_iff, reduceCtorEq, imp_false,
      not_not, contains_iff_exists, TableView.getElem?_byEntity hafter]
    refine ⟨fun h old hold => h _ old ⟨hold, rfl⟩, ?_⟩
    rintro h _ old ⟨hold, rfl⟩
    exact h old hold
  · simp only [TableView.getElem?_byEntity hafter]
    refine ⟨fun h new hnew => ?_, ?_⟩
    · have hnone := h _ new ⟨hnew, rfl⟩
      split at hnone
      · cases hnone
      · next old hold =>
        obtain ⟨hmem, hentity⟩ := (TableView.getElem?_byEntity hbefore).mp hold
        exact ⟨old, hmem, hentity, hnone⟩
    · rintro h _ new ⟨hnew, rfl⟩
      obtain ⟨old, hmem, hentity, hnone⟩ := h new hnew
      rw [(TableView.getElem?_byEntity hbefore).mpr ⟨hmem, hentity⟩]
      exact hnone

/-! ## Differences of revisions -/

/-- Two lists match by their keys when they come to the same, provided that only items of one key
come to the same and that the keys of the first list differ. -/
theorem matched_iff {α κ γ : Type} {before : List α} (after : List α) {key : α → κ} {f : α → γ}
    (hnodup : (before.map key).Nodup) (hkey : ∀ {a b}, f a = f b → key a = key b) :
    ((∀ old ∈ before, ∃ new ∈ after, key new = key old) ∧
        ∀ new ∈ after, ∃ old ∈ before, f old = f new) ↔
      ∀ c, (∃ new ∈ after, f new = c) ↔ ∃ old ∈ before, f old = c := by
  refine ⟨?_, fun h => ⟨fun old hold => ?_, fun new hnew => ?_⟩⟩
  · rintro ⟨hkept, hfound⟩ c
    refine ⟨?_, ?_⟩
    · rintro ⟨new, hnew, rfl⟩
      exact hfound new hnew
    · rintro ⟨old, hold, rfl⟩
      obtain ⟨new, hnew, hsame⟩ := hkept old hold
      obtain ⟨other, hother, hlike⟩ := hfound new hnew
      -- What the new item is like has the key of the old one, and so it is the old one.
      obtain rfl := List.inj_on_of_nodup_map hnodup hother hold ((hkey hlike).trans hsame)
      exact ⟨new, hnew, hlike.symm⟩
  · obtain ⟨new, hnew, hlike⟩ := (h (f old)).mpr ⟨old, hold, rfl⟩
    exact ⟨new, hnew, hkey hlike⟩
  · exact (h (f new)).mp ⟨new, hnew, rfl⟩

namespace Store

variable {supply : Supply} {s : Store} {table table' : TableVersion} {draft : Revision}
  {before after : List TableVersion}

/-- A table version as a comparison sees it. -/
def outlineOf (s : Store) (table : TableVersion) : TableOutline :=
  ⟨table.name, table.system, table.entity, {u | s.Holds table.version u}⟩

theorem Intact.mem_outline (h : s.Intact) {id : RevisionId} {o : TableOutline} :
    o ∈ s.graph.outline id ↔ ∃ table ∈ s.tablesOf id, s.outlineOf table = o := by
  rw [Graph.mem_outline h.closed]
  simp only [h.mem_tablesOf, and_assoc]
  rfl

/-- Table versions hold the same versions when they have the same rows. -/
theorem Intact.mem_rowsOf_iff_holds (h : s.Intact) {v v' : VersionId} :
    (∀ row, row ∈ s.rowsOf v' ↔ row ∈ s.rowsOf v) ↔ ∀ u, s.Holds v' u ↔ s.Holds v u := by
  refine ⟨fun hrows u => ?_, fun hholds row => by rw [h.mem_rowsOf, h.mem_rowsOf, hholds]⟩
  have hversion {v : VersionId} : s.Holds v u ↔ ∃ row ∈ s.rowsOf v, row.version = u := by
    refine ⟨fun hu => ?_, ?_⟩
    · obtain ⟨row, hrow, rfl⟩ := h.exists_row hu
      exact ⟨row, h.mem_rowsOf.mpr ⟨hu, hrow⟩, rfl⟩
    · rintro ⟨row, hrow, rfl⟩
      exact (h.mem_rowsOf.mp hrow).1
  rw [hversion, hversion]
  exact exists_congr fun row => and_congr_left fun _ => hrows row

namespace Sound

variable (h : s.Sound supply)

include h

theorem getElem?_rows {entity : EntityId} {view : RowView} :
    (s.tableView table).rows[entity]? = some view ↔
      ∃ row ∈ s.rowsOf table.version, row.entity = entity ∧ ⟨row.version, row.name⟩ = view := by
  rw [tableView, RowViews.getElem?_ofList]
  · simp
  · rw [List.map_map]
    exact h.intact.nodup_rowsOf h.coherent.rowEntities table.version

/-- The rows of two table versions do not differ when they are the same versions. -/
theorem rowChanges_eq_nil :
    RowChange.list (s.tableView table).rows (s.tableView table').rows = [] ↔
      ∀ u, s.Holds table'.version u ↔ s.Holds table.version u := by
  have hsame {row row' : RowVersion} (hrow : row ∈ s.rowsOf table.version)
      (hrow' : row' ∈ s.rowsOf table'.version) (hversion : row.version = row'.version) :
      row = row' := by
    have hstored := (h.intact.mem_rowsOf.mp hrow).2
    rw [hversion, (h.intact.mem_rowsOf.mp hrow').2] at hstored
    exact (Option.some.inj hstored).symm
  have hmatched := matched_iff (f := fun row => row) (s.rowsOf table'.version)
    (h.intact.nodup_rowsOf h.coherent.rowEntities table.version) (congrArg RowVersion.entity)
  simp only [exists_eq_right] at hmatched
  rw [← h.intact.mem_rowsOf_iff_holds, ← hmatched, RowChange.list_eq_nil]
  simp only [h.getElem?_rows]
  refine and_congr ⟨fun hkept row hrow => ?_, ?_⟩ ⟨fun hfound row' hrow' => ?_, ?_⟩
  · obtain ⟨_, row', hrow', hentity, -⟩ := hkept _ _ ⟨row, hrow, rfl, rfl⟩
    exact ⟨row', hrow', hentity⟩
  · rintro hkept _ _ ⟨row, hrow, rfl, rfl⟩
    obtain ⟨row', hrow', hentity⟩ := hkept row hrow
    exact ⟨_, row', hrow', hentity, rfl⟩
  · obtain ⟨_, ⟨row, hrow, -, rfl⟩, hversion⟩ := hfound _ _ ⟨row', hrow', rfl, rfl⟩
    exact hsame hrow hrow' hversion ▸ hrow
  · rintro hfound _ _ ⟨row', hrow', rfl, rfl⟩
    exact ⟨_, ⟨row', hfound row' hrow', rfl, rfl⟩, rfl⟩

/-- Versions of one table do not differ just when a comparison sees them as the same. -/
theorem between?_eq_none (hstored : s.table? table.version = some table)
    (hstored' : s.table? table'.version = some table') :
    table.entity = table'.entity ∧
        TableChange.between? (s.tableView table) (s.tableView table') = none ↔
      s.outlineOf table = s.outlineOf table' := by
  rw [TableChange.between?_eq_none, h.rowChanges_eq_nil, outlineOf, outlineOf, TableOutline.mk.injEq]
  refine ⟨?_, ?_⟩
  · rintro ⟨hentity, hversion | ⟨hname, hrows⟩⟩
    · have hversion : table.version = table'.version := hversion
      rw [hversion, hstored'] at hstored
      cases hstored
      exact ⟨rfl, rfl, rfl, rfl⟩
    · exact ⟨hname, h.coherent.systems hstored hstored' hentity, hentity,
        Set.ext fun u => (hrows u).symm⟩
  · rintro ⟨hname, -, hentity, hrows⟩
    exact ⟨hentity, .inr ⟨hname, fun u => (Set.ext_iff.mp hrows u).symm⟩⟩

/-- Lists of versions of tables that differ do not differ just when a comparison sees them as the
same. -/
theorem isEmpty_between (hbefore : (before.map (·.entity)).Nodup)
    (hafter : (after.map (·.entity)).Nodup)
    (hstored : ∀ table ∈ before, s.table? table.version = some table)
    (hstored' : ∀ table ∈ after, s.table? table.version = some table) :
    (Diff.between (before.map s.tableView) (after.map s.tableView)).isEmpty = true ↔
      ∀ o, (∃ table ∈ after, s.outlineOf table = o) ↔ ∃ table ∈ before, s.outlineOf table = o := by
  rw [← matched_iff after hbefore (congrArg TableOutline.entity), Diff.isEmpty_between]
  · simp only [List.forall_mem_map]
    simp only [List.mem_map, exists_exists_and_eq_and]
    refine and_congr Iff.rfl (forall₂_congr fun new hnew => ?_)
    refine exists_congr fun old => and_congr_right fun hold => ?_
    exact h.between?_eq_none (hstored old hold) (hstored' new hnew)
  · rwa [List.map_map]
  · rwa [List.map_map]

/-- There is no difference between two revisions just when they have the same outline. -/
theorem diff_isEmpty_iff {id id' : RevisionId} :
    (s.diff id id').isEmpty = true ↔ s.graph.outline id' = s.graph.outline id := by
  rw [Set.ext_iff]
  simp only [h.intact.mem_outline]
  exact h.isEmpty_between (h.intact.nodup_tablesOf h.coherent.tableEntities id)
    (h.intact.nodup_tablesOf h.coherent.tableEntities id')
    (fun _ hmem => (h.intact.mem_tablesOf.mp hmem).2)
    fun _ hmem => (h.intact.mem_tablesOf.mp hmem).2

/-- A draft is found to differ from its parent just when it does. -/
theorem differsFromParent_iff :
    s.differsFromParent draft.id draft = true ↔ s.graph.Differs draft := by
  rw [differsFromParent, Graph.Differs, Graph.baseline, Bool.not_eq_true', ← Bool.not_eq_true,
    not_iff_not]
  cases draft.parent with
  | some parent => exact h.diff_isEmpty_iff
  | none =>
    have hnothing : (Diff.between ([].map s.tableView) (s.view draft.id)).isEmpty = true ↔ _ :=
      h.isEmpty_between List.nodup_nil (h.intact.nodup_tablesOf h.coherent.tableEntities draft.id)
        (fun _ hmem => absurd hmem List.not_mem_nil) fun _ hmem => (h.intact.mem_tablesOf.mp hmem).2
    rw [Option.elim_none, Set.ext_iff]
    simp only [h.intact.mem_outline]
    exact hnothing.trans (forall_congr' fun o => iff_congr Iff.rfl (by simp))

end Sound

end Store

end VersionedTables
