import VersionedTables.Proofs.Differences
import VersionedTables.Proofs.Runs

/-!
# Differences as patches

A difference is worth having if it can be carried out: it takes what the first revision shows to
what the second one shows. What revisions show is asked of the store here, entity by entity
(`Store.shown`), and not of the views that a difference is made from; and a difference is carried
out one listed change after the other (`Diff.apply`).

A comparison of maps lists at most one change for a key (`nodup_changes`), so it makes no difference
in which order the changes are carried out, and each of them can be looked at by itself
(`patch_eq`). What it says is what the store has on the two sides (`RowChange.Describes`,
`TableChange.Describes`). `Store.IsPatch` puts this together, and every difference between
revisions is such a patch (`Database.Fresh.run_isPatch`).
-/

namespace VersionedTables

open Std

/-! ## Comparing two maps -/

section Keyed

variable {κ ν δ γ : Type} [Ord κ] [TransOrd κ] [LawfulEqOrd κ] [DecidableEq κ]

/-- What a comparison lists of one key, told what each of the two maps has there. -/
def change? (removed added : κ → ν → δ) (between? : κ → ν → ν → Option δ) (k : κ) :
    Option ν → Option ν → Option δ
  | none, none => none
  | some old, none => some (removed k old)
  | none, some new => some (added k new)
  | some old, some new => between? k old new

/-- All that a comparison of two maps lists: the keys that are gone first, and then the others. -/
def changes (removed added : κ → ν → δ) (between? : κ → ν → ν → Option δ)
    (before after : ExtTreeMap κ ν compare) : List δ :=
  (before.toList.filterMap fun (k, old) =>
      if after.contains k then none else some (removed k old)) ++
    after.toList.filterMap fun (k, new) =>
      match before[k]? with
      | none => some (added k new)
      | some old => between? k old new

variable {removed added : κ → ν → δ} {between? : κ → ν → ν → Option δ}
  {before after : ExtTreeMap κ ν compare}

omit [DecidableEq κ] in
theorem mem_changes {d : δ} :
    d ∈ changes removed added between? before after ↔
      ∃ k, change? removed added between? k before[k]? after[k]? = some d := by
  simp only [changes, List.mem_append, List.mem_filterMap, Prod.exists,
    ExtTreeMap.mem_toList_iff_getElem?_eq_some, ExtTreeMap.contains_eq_isSome_getElem?,
    ← exists_or]
  refine exists_congr fun k => ?_
  rcases before[k]? with _ | old <;> rcases after[k]? with _ | new <;> simp [change?]

omit [Ord κ] [TransOrd κ] [LawfulEqOrd κ] [DecidableEq κ] in
/-- The keys of what is made from entries are some of their keys, in the same order. -/
theorem map_filterMap_sublist {entries : List (κ × ν)} {f : κ × ν → Option δ} {key : δ → κ}
    (hkey : ∀ entry ∈ entries, ∀ d, f entry = some d → key d = entry.1) :
    ((entries.filterMap f).map key).Sublist (entries.map (·.1)) := by
  induction entries with
  | nil => exact List.Sublist.slnil
  | cons first rest ih =>
    have hrest := ih fun entry hmem => hkey entry (List.mem_cons_of_mem _ hmem)
    rw [List.filterMap_cons]
    split
    · exact hrest.cons _
    · next d hd =>
      rw [List.map_cons, List.map_cons, hkey first List.mem_cons_self d hd]
      exact hrest.cons_cons _

omit [DecidableEq κ] in
/-- A comparison lists a key once, if the changes know the keys they belong to. -/
theorem nodup_changes {key : δ → κ}
    (hkey : ∀ k d, change? removed added between? k before[k]? after[k]? = some d → key d = k) :
    ((changes removed added between? before after).map key).Nodup := by
  have hnodup (map : ExtTreeMap κ ν compare) : (map.toList.map (·.1)).Nodup := by
    rw [ExtTreeMap.map_fst_toList_eq_keys]
    exact Store.nodup_keys map
  have hgone : ∀ entry ∈ before.toList, ∀ d,
      (if after.contains entry.1 then none else some (removed entry.1 entry.2)) = some d →
        key d = entry.1 := by
    rintro ⟨k, old⟩ hmem d hd
    rw [ExtTreeMap.mem_toList_iff_getElem?_eq_some] at hmem
    refine hkey k d ?_
    rw [hmem]
    rw [ExtTreeMap.contains_eq_isSome_getElem?] at hd
    rcases hnew : after[k]? with _ | new
    · simpa [hnew, change?] using hd
    · simp [hnew] at hd
  have hleft : ∀ entry ∈ after.toList, ∀ d,
      (match before[entry.1]? with
        | none => some (added entry.1 entry.2)
        | some old => between? entry.1 old entry.2) = some d → key d = entry.1 := by
    rintro ⟨k, new⟩ hmem d hd
    rw [ExtTreeMap.mem_toList_iff_getElem?_eq_some] at hmem
    refine hkey k d ?_
    rw [hmem]
    rcases hold : before[k]? with _ | old
    · simpa [hold, change?] using hd
    · simpa [hold, change?] using hd
  rw [changes, List.map_append]
  refine List.nodup_append'.mpr ⟨(hnodup before).sublist (map_filterMap_sublist hgone),
    (hnodup after).sublist (map_filterMap_sublist hleft), ?_⟩
  -- What is gone is not in the second map, and all others are.
  intro k hk hk'
  obtain ⟨d, hd, rfl⟩ := List.mem_map.mp hk
  obtain ⟨⟨e, old⟩, hmem, hd⟩ := List.mem_filterMap.mp hd
  obtain ⟨d', hd', hsame⟩ := List.mem_map.mp hk'
  obtain ⟨⟨e', new⟩, hmem', hd'⟩ := List.mem_filterMap.mp hd'
  rw [hleft _ hmem' d' hd', hgone _ hmem d hd] at hsame
  obtain rfl : e' = e := hsame
  rw [ExtTreeMap.mem_toList_iff_getElem?_eq_some] at hmem'
  simp [contains_iff_exists.mpr ⟨new, hmem'⟩] at hd

/-! ## Carrying out changes -/

/-- Carries out changes one after the other. Each gives its key a new value, made from the one that
it finds there, or no value. -/
def patch (key : δ → κ) (outcome : δ → Option γ → Option γ) :
    List δ → (κ → Option γ) → κ → Option γ
  | [], content => content
  | d :: rest, content =>
    patch key outcome rest (Function.update content (key d) (outcome d (content (key d))))

omit [Ord κ] [TransOrd κ] [LawfulEqOrd κ] in
/-- Changes of keys that differ lead to what each of them leads to, and what none of them changes
stays. -/
theorem patch_eq {key : δ → κ} {outcome : δ → Option γ → Option γ} {changes : List δ}
    {content target : κ → Option γ} (hnodup : (changes.map key).Nodup)
    (hlisted : ∀ d ∈ changes, outcome d (content (key d)) = target (key d))
    (hunlisted : ∀ k, k ∉ changes.map key → content k = target k) :
    patch key outcome changes content = target := by
  induction changes generalizing content with
  | nil => exact funext fun k => hunlisted k (by simp)
  | cons first rest ih =>
    obtain ⟨hfirst, hnodup⟩ := List.nodup_cons.mp hnodup
    refine ih hnodup (fun d hd => ?_) fun k hk => ?_
    · have hne : key d ≠ key first := fun heq => hfirst (heq ▸ List.mem_map_of_mem hd)
      rw [Function.update_of_ne hne]
      exact hlisted d (List.mem_cons_of_mem _ hd)
    · by_cases heq : k = key first
      · rw [heq, Function.update_self]
        exact hlisted first List.mem_cons_self
      · rw [Function.update_of_ne heq]
        refine hunlisted k ?_
        rw [List.map_cons, List.mem_cons, not_or]
        exact ⟨heq, hk⟩

end Keyed

/-- What becomes of a row under a change. -/
def RowChange.outcome (c : RowChange) (row : Option RowView) : Option RowView :=
  match c.kind with
  | .removed => none
  | .added => c.toVersion.map (⟨·, c.name⟩)
  | .modified | .renamed => row.bind fun _ => c.toVersion.map (⟨·, c.name⟩)

/-- Carries out changes of the rows of a table. -/
def RowChange.applyAll (changes : List RowChange) (rows : EntityId → Option RowView) :
    EntityId → Option RowView :=
  patch RowChange.entity RowChange.outcome changes rows

/-- A table as it is shown, told by its content: its name, and the versions and names of its
rows. -/
structure ShownTable where
  /-- The table's name. -/
  name : TableName
  /-- Its rows, by entity. -/
  rows : EntityId → Option RowView

/-- What becomes of a table under a change. -/
def TableChange.outcome (c : TableChange) (table : Option ShownTable) : Option ShownTable :=
  match c.kind with
  | .removed => none
  | .added => some ⟨c.name, RowChange.applyAll c.rows fun _ => none⟩
  | .modified | .renamed => table.map fun table => ⟨c.name, RowChange.applyAll c.rows table.rows⟩

/-- Carries out a difference. -/
def Diff.apply (d : Diff) (shown : EntityId → Option ShownTable) : EntityId → Option ShownTable :=
  patch TableChange.entity TableChange.outcome d.tables shown

/-! ## What a revision shows -/

/-- How a table version shows a row version. -/
def RowVersion.view (row : RowVersion) : RowView :=
  ⟨row.version, row.name⟩

namespace Store

/-- The version of a table that a revision shows. -/
def tableIn (s : Store) (revision : RevisionId) (entity : EntityId) : Option TableVersion :=
  (s.tablesOf revision).find? (·.entity = entity)

/-- The version of a row in a table version, if there is one. -/
def rowIn (s : Store) (table : Option TableVersion) (entity : EntityId) : Option RowVersion :=
  table.bind fun table => (s.rowsOf table.version).find? (·.entity = entity)

/-- The rows of a table version as a comparison sees them. -/
def rowViews (s : Store) (table : Option TableVersion) : RowViews :=
  table.elim ∅ fun table => (s.tableView table).rows

/-- What a table version shows. -/
def shownTable (s : Store) (table : TableVersion) : ShownTable :=
  ⟨table.name, fun entity => (s.rowIn (some table) entity).map (·.view)⟩

/-- What a revision shows, by entity. -/
def shown (s : Store) (revision : RevisionId) : EntityId → Option ShownTable :=
  fun entity => (s.tableIn revision entity).map s.shownTable

/-- Which version of a row there is, is shown. -/
theorem map_version_rowIn (s : Store) (table : Option TableVersion) (entity : EntityId) :
    (s.rowIn table entity).map (·.version) =
      ((table.map s.shownTable).bind (·.rows entity)).map (·.version) := by
  rcases table with _ | table
  · rfl
  · rw [Option.map_some, Option.bind_some, shownTable, Option.map_map]
    rfl

end Store

/-! ## What changes say -/

/-- What a change says of the two sides that it was found between, where each side is a version and
a name, or nothing. -/
structure ChangeKind.Tells {ν : Type} (kind : ChangeKind) (name : ν) (previousName : Option ν)
    (fromVersion toVersion : Option VersionId) (old new : Option (VersionId × ν)) : Prop where
  /-- What is on the second side only was added. -/
  added_iff : kind = .added ↔ old = none
  /-- What is on the first side only was removed. -/
  removed_iff : kind = .removed ↔ new = none
  /-- What has two names was renamed. -/
  renamed_iff : kind = .renamed ↔ ∃ a ∈ old, ∃ b ∈ new, a.2 ≠ b.2
  /-- The name is the new one, if there is one. -/
  name : (new <|> old).map (·.2) = some name
  /-- Only for what was renamed there is a previous name, and that is the old one. -/
  previousName : previousName = if kind = .renamed then old.map (·.2) else none
  /-- The first version is the one on the first side. -/
  fromVersion : fromVersion = old.map (·.1)
  /-- The second version is the one on the second side. -/
  toVersion : toVersion = new.map (·.1)

namespace ChangeKind.Tells

variable {ν : Type} {v v' : VersionId} {name name' : ν}

theorem added : ChangeKind.added.Tells name none none (some v) none (some (v, name)) where
  added_iff := by simp
  removed_iff := by simp
  renamed_iff := by simp
  name := rfl
  previousName := rfl
  fromVersion := rfl
  toVersion := rfl

theorem removed : ChangeKind.removed.Tells name none (some v) none (some (v, name)) none where
  added_iff := by simp
  removed_iff := by simp
  renamed_iff := by simp
  name := rfl
  previousName := rfl
  fromVersion := rfl
  toVersion := rfl

theorem modified (h : name = name') :
    ChangeKind.modified.Tells name' none (some v) (some v') (some (v, name))
      (some (v', name')) where
  added_iff := by simp
  removed_iff := by simp
  renamed_iff := by simp [h]
  name := rfl
  previousName := rfl
  fromVersion := rfl
  toVersion := rfl

theorem renamed (h : name ≠ name') :
    ChangeKind.renamed.Tells name' (some name) (some v) (some v') (some (v, name))
      (some (v', name')) where
  added_iff := by simp
  removed_iff := by simp
  renamed_iff := by simpa using h
  name := rfl
  previousName := rfl
  fromVersion := rfl
  toVersion := rfl

end ChangeKind.Tells

/-- What a change of a row says is true of the row's versions on the two sides. -/
structure RowChange.Describes (c : RowChange) (old new : Option RowVersion) : Prop where
  /-- It tells the two sides. -/
  tells : c.kind.Tells c.name c.previousName c.fromVersion c.toVersion
    (old.map fun row => (row.version, row.name)) (new.map fun row => (row.version, row.name))
  /-- The sides do differ: only one of them has the row, or they have different versions. -/
  differ : old.map (·.version) ≠ new.map (·.version)

/-- What a change of a table says is true of the table's versions on the two sides. -/
structure TableChange.Describes (c : TableChange) (s : Store) (old new : Option TableVersion) :
    Prop where
  /-- It tells the two sides. -/
  tells : c.kind.Tells c.name c.previousName c.fromVersion c.toVersion
    (old.map fun table => (table.version, table.name))
    (new.map fun table => (table.version, table.name))
  /-- The sides do differ: only one of them has the table, or the names differ, or the versions of
  some row. -/
  differ : old.map (·.name) ≠ new.map (·.name) ∨
    ∃ entity, (s.rowIn old entity).map (·.version) ≠ (s.rowIn new entity).map (·.version)
  /-- No row is listed twice. -/
  nodup_rows : (c.rows.map (·.entity)).Nodup
  /-- Rows of a table that is gone are not listed. -/
  rows_removed : c.kind = .removed → c.rows = []
  /-- What is said of a row is true of it. -/
  rows_listed : ∀ row ∈ c.rows, row.Describes (s.rowIn old row.entity) (s.rowIn new row.entity)
  /-- A row that is not listed is the same, with all its data. -/
  rows_unlisted : c.kind ≠ .removed → ∀ entity, entity ∉ c.rows.map (·.entity) →
    s.rowIn new entity = s.rowIn old entity

/-- A difference is a correct patch from one revision to another, and lists nothing in vain. -/
structure Store.IsPatch (s : Store) (before after : RevisionId) (d : Diff) : Prop where
  /-- No table is listed twice. -/
  nodup_tables : (d.tables.map (·.entity)).Nodup
  /-- Carried out on what the first revision shows, it gives what the second one shows. -/
  apply : d.apply (s.shown before) = s.shown after
  /-- What is said of a table is true of it. -/
  listed : ∀ c ∈ d.tables, c.Describes s (s.tableIn before c.entity) (s.tableIn after c.entity)
  /-- A table that is not listed is shown by neither revision, or by both with the same name, of
  the same sort and with the same rows, down to their data. -/
  unlisted : ∀ entity, entity ∉ d.tables.map (·.entity) →
    Option.Rel (fun old new => new.name = old.name ∧ new.system = old.system ∧
        ∀ row, row ∈ s.rowsOf new.version ↔ row ∈ s.rowsOf old.version)
      (s.tableIn before entity) (s.tableIn after entity)
  /-- It is empty just when the revisions show the same. -/
  isEmpty_iff : d.isEmpty = true ↔ s.shown before = s.shown after

/-! ## Differences of sound stores -/

/-- The list of changes between rows compares two maps. -/
theorem RowChange.list_eq_changes (before after : RowViews) :
    list before after = changes removed added between? before after := by
  refine congrArg₂ (· ++ ·) (List.filterMap_congr fun _ _ => rfl)
    (List.filterMap_congr fun ⟨entity, new⟩ _ => ?_)
  dsimp only
  rcases before[entity]? with _ | old <;> rfl

/-- The list of changes between tables compares two maps. -/
theorem Diff.tables_between (before after : List TableView) :
    (between before after).tables =
      changes (fun _ => TableChange.removed) (fun _ => TableChange.added)
        (fun _ => TableChange.between?) (TableView.byEntity before) (TableView.byEntity after) := by
  refine congrArg₂ (· ++ ·) (List.filterMap_congr fun _ _ => rfl)
    (List.filterMap_congr fun ⟨entity, new⟩ _ => ?_)
  dsimp only
  rcases (TableView.byEntity before)[entity]? with _ | old <;> rfl

/-- What is listed of a row is what its versions on the two sides call for. -/
theorem RowChange.of_change? {entity : EntityId} {old new : Option RowVersion} {c : RowChange}
    (hc : change? removed added between? entity (old.map (·.view)) (new.map (·.view)) = some c) :
    c.entity = entity ∧ c.Describes old new ∧ c.outcome (old.map (·.view)) = new.map (·.view) := by
  rcases old with _ | old <;> rcases new with _ | new
  · cases hc
  · cases hc
    exact ⟨rfl, ⟨.added, by simp⟩, rfl⟩
  · cases hc
    exact ⟨rfl, ⟨.removed, by simp⟩, rfl⟩
  · simp only [Option.map_some, change?, between?, RowVersion.view] at hc
    split at hc
    · cases hc
    next hversion =>
    split at hc <;> cases hc
    · next hname => exact ⟨rfl, ⟨.modified hname, by simpa using hversion⟩, rfl⟩
    · next hname => exact ⟨rfl, ⟨.renamed hname, by simpa using hversion⟩, rfl⟩

/-- Of a row that is not listed both sides have one version, or none. -/
theorem RowChange.change?_eq_none (entity : EntityId) {old new : Option RowVersion} :
    change? removed added between? entity (old.map (·.view)) (new.map (·.view)) = none ↔
      old.map (·.version) = new.map (·.version) := by
  rcases old with _ | old <;> rcases new with _ | new <;>
    simp [change?, between?_eq_none, RowVersion.view]

namespace Store.Sound

variable {s : Store} {supply : Supply} (h : s.Sound supply)

include h

theorem tableIn_eq_some {revision : RevisionId} {entity : EntityId} {table : TableVersion} :
    s.tableIn revision entity = some table ↔
      table ∈ s.tablesOf revision ∧ table.entity = entity := by
  have hnodup := h.intact.nodup_tablesOf h.coherent.tableEntities revision
  rw [tableIn, find?_eq_some_iff_of_unique fun ha hb hpa hpb => ?_, decide_eq_true_iff]
  exact List.inj_on_of_nodup_map hnodup ha hb
    ((of_decide_eq_true hpa).trans (of_decide_eq_true hpb).symm)

theorem rowIn_eq_some {table : TableVersion} {entity : EntityId} {row : RowVersion} :
    s.rowIn (some table) entity = some row ↔
      row ∈ s.rowsOf table.version ∧ row.entity = entity := by
  have hnodup := h.intact.nodup_rowsOf h.coherent.rowEntities table.version
  rw [rowIn, Option.bind_some, find?_eq_some_iff_of_unique fun ha hb hpa hpb => ?_,
    decide_eq_true_iff]
  exact List.inj_on_of_nodup_map hnodup ha hb
    ((of_decide_eq_true hpa).trans (of_decide_eq_true hpb).symm)

/-- The views of a revision's tables, by entity. -/
theorem getElem?_byEntity {revision : RevisionId} {entity : EntityId} :
    (TableView.byEntity (s.view revision))[entity]? =
      (s.tableIn revision entity).map s.tableView := by
  have hnodup : ((s.view revision).map (·.entity)).Nodup := by
    rw [view, List.map_map]
    exact h.intact.nodup_tablesOf h.coherent.tableEntities revision
  refine Option.ext fun table => ?_
  rw [TableView.getElem?_byEntity hnodup, view]
  simp only [List.mem_map, Option.map_eq_some_iff, h.tableIn_eq_some]
  refine ⟨?_, ?_⟩
  · rintro ⟨⟨table, hmem, rfl⟩, hentity⟩
    exact ⟨table, ⟨hmem, hentity⟩, rfl⟩
  · rintro ⟨table, ⟨hmem, hentity⟩, rfl⟩
    exact ⟨⟨table, hmem, rfl⟩, hentity⟩

/-- The views of a table version's rows, by entity. -/
theorem getElem?_rowViews {table : Option TableVersion} {entity : EntityId} :
    (s.rowViews table)[entity]? = (s.rowIn table entity).map (·.view) := by
  rcases table with _ | table
  · exact ExtTreeMap.getElem?_empty
  · refine Option.ext fun row => ?_
    rw [rowViews, Option.elim_some, h.getElem?_rows]
    simp only [Option.map_eq_some_iff, h.rowIn_eq_some, RowVersion.view, and_assoc]

/-- What is listed of rows comes from what the two sides have. -/
theorem mem_rowChanges {old new : Option TableVersion} {c : RowChange} :
    c ∈ RowChange.list (s.rowViews old) (s.rowViews new) ↔
      ∃ entity, change? RowChange.removed RowChange.added RowChange.between? entity
        ((s.rowIn old entity).map (·.view)) ((s.rowIn new entity).map (·.view)) = some c := by
  simp only [RowChange.list_eq_changes, mem_changes, h.getElem?_rowViews]

theorem nodup_rowChanges (old new : Option TableVersion) :
    ((RowChange.list (s.rowViews old) (s.rowViews new)).map (·.entity)).Nodup := by
  rw [RowChange.list_eq_changes]
  refine nodup_changes fun entity c hc => ?_
  rw [h.getElem?_rowViews, h.getElem?_rowViews] at hc
  exact (RowChange.of_change? hc).1

theorem describes_rowChanges {old new : Option TableVersion} {c : RowChange}
    (hc : c ∈ RowChange.list (s.rowViews old) (s.rowViews new)) :
    c.Describes (s.rowIn old c.entity) (s.rowIn new c.entity) ∧
      c.outcome ((s.rowIn old c.entity).map (·.view)) = (s.rowIn new c.entity).map (·.view) := by
  obtain ⟨entity, hc⟩ := h.mem_rowChanges.mp hc
  obtain ⟨rfl, hdescribes⟩ := RowChange.of_change? hc
  exact hdescribes

theorem row?_of_rowIn {table : Option TableVersion} {entity : EntityId} {row : RowVersion}
    (hrow : s.rowIn table entity = some row) : s.row? row.version = some row := by
  obtain ⟨table, rfl, -⟩ := Option.bind_eq_some_iff.mp hrow
  exact (h.intact.mem_rowsOf.mp (h.rowIn_eq_some.mp hrow).1).2

/-- The version of a row settles what it holds. -/
theorem rowIn_eq_of_version {old new : Option TableVersion} {entity : EntityId}
    (hversion : (s.rowIn old entity).map (·.version) = (s.rowIn new entity).map (·.version)) :
    s.rowIn new entity = s.rowIn old entity := by
  rcases hold : s.rowIn old entity with _ | row <;>
    rcases hnew : s.rowIn new entity with _ | row' <;> rw [hold, hnew] at hversion
  · cases hversion
  · cases hversion
  · have hstored := h.row?_of_rowIn hold
    have hsame : row.version = row'.version := Option.some.inj hversion
    rw [hsame, h.row?_of_rowIn hnew] at hstored
    exact hstored

/-- A row that is not listed is the same on both sides. -/
theorem rowIn_eq_of_notMem {old new : Option TableVersion} {entity : EntityId}
    (hunlisted : entity ∉ (RowChange.list (s.rowViews old) (s.rowViews new)).map (·.entity)) :
    s.rowIn new entity = s.rowIn old entity := by
  refine h.rowIn_eq_of_version ((RowChange.change?_eq_none entity).mp ?_)
  refine Option.eq_none_iff_forall_not_mem.mpr fun c hc => hunlisted ?_
  obtain ⟨rfl, -⟩ := RowChange.of_change? hc
  exact List.mem_map_of_mem (h.mem_rowChanges.mpr ⟨_, hc⟩)

/-- The changes of rows lead from the one side to the other. -/
theorem applyAll_rowChanges (old new : Option TableVersion) :
    RowChange.applyAll (RowChange.list (s.rowViews old) (s.rowViews new))
        (fun entity => (s.rowIn old entity).map (·.view)) =
      fun entity => (s.rowIn new entity).map (·.view) :=
  patch_eq (h.nodup_rowChanges old new) (fun _ hc => (h.describes_rowChanges hc).2)
    fun _ hunlisted => congrArg _ (h.rowIn_eq_of_notMem hunlisted).symm

/-- A change that lists what the rows call for is right about them. -/
theorem describes_of_rows {old new : Option TableVersion} {c : TableChange}
    (htells : c.kind.Tells c.name c.previousName c.fromVersion c.toVersion
      (old.map fun table => (table.version, table.name))
      (new.map fun table => (table.version, table.name)))
    (hdiffer : old.map (·.name) ≠ new.map (·.name) ∨
      ∃ entity, (s.rowIn old entity).map (·.version) ≠ (s.rowIn new entity).map (·.version))
    (hremoved : c.kind = .removed → c.rows = [])
    (hrows : c.kind ≠ .removed → c.rows = RowChange.list (s.rowViews old) (s.rowViews new)) :
    c.Describes s old new where
  tells := htells
  differ := hdiffer
  rows_removed := hremoved
  nodup_rows := by
    by_cases hkind : c.kind = .removed
    · rw [hremoved hkind]
      exact List.nodup_nil
    · rw [hrows hkind]
      exact h.nodup_rowChanges old new
  rows_listed row hrow := by
    by_cases hkind : c.kind = .removed
    · rw [hremoved hkind] at hrow
      cases hrow
    · rw [hrows hkind] at hrow
      exact (h.describes_rowChanges hrow).1
  rows_unlisted hkind entity hunlisted := by
    rw [hrows hkind] at hunlisted
    exact h.rowIn_eq_of_notMem hunlisted

/-- What is listed of a table is what its versions on the two sides call for. -/
theorem of_change? {entity : EntityId} {old new : Option TableVersion} {c : TableChange}
    (hold : ∀ table ∈ old, table.entity = entity) (hnew : ∀ table ∈ new, table.entity = entity)
    (hc : change? (fun _ => TableChange.removed) (fun _ => TableChange.added)
      (fun _ => TableChange.between?) entity (old.map s.tableView) (new.map s.tableView) = some c) :
    c.entity = entity ∧ c.Describes s old new ∧
      c.outcome (old.map s.shownTable) = new.map s.shownTable := by
  have hpatched (table : TableVersion) :
      (⟨table.name, RowChange.applyAll (RowChange.list (s.rowViews old) (s.rowViews (some table)))
          fun entity => (s.rowIn old entity).map (·.view)⟩ : ShownTable) = s.shownTable table := by
    rw [h.applyAll_rowChanges, shownTable]
  rcases old with _ | old <;> rcases new with _ | new
  · cases hc
  · cases hc
    refine ⟨hnew new rfl, h.describes_of_rows .added (.inl (by simp)) (by simp [TableChange.added])
      fun _ => rfl, congrArg some (hpatched new)⟩
  · cases hc
    refine ⟨hold old rfl, h.describes_of_rows .removed (.inl (by simp)) (fun _ => rfl)
      (by simp [TableChange.removed]), rfl⟩
  · simp only [Option.map_some, change?, TableChange.between?] at hc
    split at hc
    · cases hc
    split at hc
    · next hname =>
      split at hc
      · cases hc
      next hrows =>
      cases hc
      obtain ⟨row, hrow⟩ := List.exists_mem_of_ne_nil _ fun hnil => hrows (List.isEmpty_iff.mpr hnil)
      have hrow : row ∈ RowChange.list (s.rowViews (some old)) (s.rowViews (some new)) := hrow
      have hdiffer := (h.describes_rowChanges hrow).1.differ
      exact ⟨hnew new rfl, h.describes_of_rows (.modified hname) (.inr ⟨row.entity, hdiffer⟩)
        (by simp) fun _ => rfl, congrArg some (hpatched new)⟩
    · next hname =>
      cases hc
      exact ⟨hnew new rfl, h.describes_of_rows (.renamed hname) (.inl fun hsame => hname (Option.some.inj hsame))
        (by simp) fun _ => rfl, congrArg some (hpatched new)⟩

variable {before after : RevisionId}

theorem mem_diff {c : TableChange} :
    c ∈ (s.diff before after).tables ↔
      ∃ entity, change? (fun _ => TableChange.removed) (fun _ => TableChange.added)
        (fun _ => TableChange.between?) entity ((s.tableIn before entity).map s.tableView)
        ((s.tableIn after entity).map s.tableView) = some c := by
  simp only [diff, Diff.tables_between, mem_changes, h.getElem?_byEntity]

theorem entity_of_mem_tableIn {revision : RevisionId} {entity : EntityId} :
    ∀ table ∈ s.tableIn revision entity, table.entity = entity :=
  fun _ htable => (h.tableIn_eq_some.mp htable).2

theorem nodup_diff : ((s.diff before after).tables.map (·.entity)).Nodup := by
  rw [diff, Diff.tables_between]
  refine nodup_changes fun entity c hc => ?_
  rw [h.getElem?_byEntity, h.getElem?_byEntity] at hc
  exact (h.of_change? h.entity_of_mem_tableIn h.entity_of_mem_tableIn hc).1

/-- What is listed of a table is true of it, and leads from the one side to the other. -/
theorem describes_diff {c : TableChange} (hc : c ∈ (s.diff before after).tables) :
    c.Describes s (s.tableIn before c.entity) (s.tableIn after c.entity) ∧
      c.outcome (s.shown before c.entity) = s.shown after c.entity := by
  obtain ⟨entity, hc⟩ := h.mem_diff.mp hc
  obtain ⟨rfl, hdescribes⟩ := h.of_change? h.entity_of_mem_tableIn h.entity_of_mem_tableIn hc
  exact hdescribes

/-- A table that is not listed is shown by neither revision, or by both in the same way. -/
theorem unlisted_diff {entity : EntityId}
    (hunlisted : entity ∉ (s.diff before after).tables.map (·.entity)) :
    Option.Rel (fun old new => new.name = old.name ∧ new.system = old.system ∧
        ∀ row, row ∈ s.rowsOf new.version ↔ row ∈ s.rowsOf old.version)
      (s.tableIn before entity) (s.tableIn after entity) := by
  have hnone : change? (fun _ => TableChange.removed) (fun _ => TableChange.added)
      (fun _ => TableChange.between?) entity ((s.tableIn before entity).map s.tableView)
      ((s.tableIn after entity).map s.tableView) = none := by
    refine Option.eq_none_iff_forall_not_mem.mpr fun c hc => hunlisted ?_
    obtain ⟨rfl, -⟩ := h.of_change? h.entity_of_mem_tableIn h.entity_of_mem_tableIn hc
    exact List.mem_map_of_mem (h.mem_diff.mpr ⟨_, hc⟩)
  rcases hold : s.tableIn before entity with _ | old <;>
    rcases hnew : s.tableIn after entity with _ | new <;> rw [hold, hnew] at hnone
  · exact .none
  · cases hnone
  · cases hnone
  · obtain ⟨hmem, hentity⟩ := h.tableIn_eq_some.mp hold
    obtain ⟨hmem', hentity'⟩ := h.tableIn_eq_some.mp hnew
    have hsame := (h.between?_eq_none (h.intact.mem_tablesOf.mp hmem).2
      (h.intact.mem_tablesOf.mp hmem').2).mp ⟨hentity.trans hentity'.symm, hnone⟩
    rw [outlineOf, outlineOf, TableOutline.mk.injEq] at hsame
    obtain ⟨hname, hsystem, -, hholds⟩ := hsame
    refine .some ⟨hname.symm, hsystem.symm, h.intact.mem_rowsOf_iff_holds.mpr fun u => ?_⟩
    exact (Set.ext_iff.mp hholds u).symm

/-- Tables with the same name and rows are shown in the same way. -/
theorem shownTable_eq {old new : TableVersion} (hname : new.name = old.name)
    (hrows : ∀ row, row ∈ s.rowsOf new.version ↔ row ∈ s.rowsOf old.version) :
    s.shownTable new = s.shownTable old := by
  have hrowIn (entity : EntityId) : s.rowIn (some new) entity = s.rowIn (some old) entity :=
    Option.ext fun row => by rw [h.rowIn_eq_some, h.rowIn_eq_some, hrows]
  simp only [shownTable, hname, hrowIn]

theorem apply_diff : (s.diff before after).apply (s.shown before) = s.shown after := by
  refine patch_eq h.nodup_diff (fun _ hc => (h.describes_diff hc).2) fun entity hunlisted => ?_
  have hsame := h.unlisted_diff hunlisted
  rw [shown, shown]
  generalize s.tableIn before entity = old, s.tableIn after entity = new at hsame
  cases hsame with
  | none => rfl
  | some hrel => exact congrArg some (h.shownTable_eq hrel.1 hrel.2.2).symm

/-- There are no differences just when the revisions show the same. -/
theorem diff_isEmpty_iff_shown :
    (s.diff before after).isEmpty = true ↔ s.shown before = s.shown after := by
  rw [Diff.isEmpty, List.isEmpty_iff]
  refine ⟨fun hnil => ?_, fun hshown => ?_⟩
  · have happly : (s.diff before after).apply (s.shown before) = s.shown after := h.apply_diff
    rw [Diff.apply, hnil] at happly
    exact happly
  · refine List.eq_nil_iff_forall_not_mem.mpr fun c hc => ?_
    -- A change that is listed would say that the two sides differ in what they show.
    have hsame : (s.tableIn before c.entity).map s.shownTable =
        (s.tableIn after c.entity).map s.shownTable := congrFun hshown c.entity
    rcases (h.describes_diff hc).1.differ with hname | ⟨entity, hrow⟩
    · refine hname ?_
      have hnames := congrArg (Option.map ShownTable.name) hsame
      rwa [Option.map_map, Option.map_map] at hnames
    · refine hrow ?_
      rw [map_version_rowIn, map_version_rowIn, hsame]

/-- The differences between two revisions are a patch from the one to the other. -/
theorem isPatch_diff (before after : RevisionId) : s.IsPatch before after (s.diff before after) where
  nodup_tables := h.nodup_diff
  apply := h.apply_diff
  listed _ hc := (h.describes_diff hc).1
  unlisted _ hunlisted := h.unlisted_diff hunlisted
  isEmpty_iff := h.diff_isEmpty_iff_shown

end Store.Sound

namespace Database

variable {db : Database}

/-- After a run any two revisions there are can be compared, and what comes out is a patch from the
first to the second. -/
theorem Fresh.run_isPatch (h : db.Fresh) (commands : List Command) {before after : RevisionId}
    {old new : Revision} (hbefore : (db.run commands).store.revision? before = some old)
    (hafter : (db.run commands).store.revision? after = some new) :
    (db.run commands).diff before after = .ok ((db.run commands).store.diff before after) ∧
      (db.run commands).store.IsPatch before after ((db.run commands).store.diff before after) := by
  refine ⟨?_, (h.run_sound commands).isPatch_diff before after⟩
  rw [diff, revision, revision, hbefore, hafter]
  rfl

/-- The draft that is edited in `editedInEveryWay`. -/
def editedDraft : RevisionId :=
  ⟨"iiiiiiiiiiiiiiiii"⟩

/-- Of three tables that were committed one is removed, one is renamed, with rows that swap their
names, go and come, and one gets new data in its row. A fourth one is added. -/
def editedInEveryWay : List Command :=
  [.createBranch "main" none, .createTable ⟨"ii"⟩ "users" false, .createTable ⟨"ii"⟩ "places" false,
    .createTable ⟨"ii"⟩ "tags" false,
    .createRows ⟨"ii"⟩ "users" [⟨"ada", .null, none, none, none⟩, ⟨"bob", .null, none, none, none⟩,
      ⟨"cyd", .null, none, none, none⟩],
    .createRows ⟨"ii"⟩ "tags" [⟨"new", .null, none, none, none⟩], .commit ⟨"main"⟩ none,
    .renameRows editedDraft "users" [⟨"ada", "bob"⟩, ⟨"bob", "ada"⟩],
    .removeRows editedDraft "users" ["cyd"],
    .createRows editedDraft "users" [⟨"dan", .null, none, none, none⟩],
    .renameTable editedDraft "users" "people", .removeTable editedDraft "places",
    .updateRows editedDraft "tags" [⟨"new", .bool true, none, none, none⟩],
    .createTable editedDraft "notes" false,
    .createRows editedDraft "notes" [⟨"one", .null, none, none, none⟩]]

/-- All of that is listed, and makes up a patch. -/
theorem run_isPatch_editedInEveryWay :
    let s := ((inMemory (.unary fun _ => ⟨0, 0⟩)).run editedInEveryWay).store
    s.IsPatch ⟨"ii"⟩ editedDraft (s.diff ⟨"ii"⟩ editedDraft) ∧
      (s.diff ⟨"ii"⟩ editedDraft).tables.map
          (fun c => (c.kind, c.name.text, c.rows.map fun row => (row.kind, row.name.text))) =
        [(.removed, "places", []),
          (.renamed, "people",
            [(.removed, "cyd"), (.renamed, "bob"), (.renamed, "ada"), (.added, "dan")]),
          (.modified, "tags", [(.modified, "new")]), (.added, "notes", [(.added, "one")])] := by
  intro s
  have hrun : (s.revision? ⟨"ii"⟩).isSome ∧ (s.revision? editedDraft).isSome ∧
      (s.diff ⟨"ii"⟩ editedDraft).tables.map
          (fun c => (c.kind, c.name.text, c.rows.map fun row => (row.kind, row.name.text))) =
        [(.removed, "places", []),
          (.renamed, "people",
            [(.removed, "cyd"), (.renamed, "bob"), (.renamed, "ada"), (.added, "dan")]),
          (.modified, "tags", [(.modified, "new")]), (.added, "notes", [(.added, "one")])] := by
    decide +kernel
  obtain ⟨hbefore, hafter, hlisted⟩ := hrun
  obtain ⟨old, hbefore⟩ := Option.isSome_iff_exists.mp hbefore
  obtain ⟨new, hafter⟩ := Option.isSome_iff_exists.mp hafter
  have hpatch := Fresh.run_isPatch (fresh_inMemory (Supply.distinct_unary fun _ => ⟨0, 0⟩))
    editedInEveryWay hbefore hafter
  exact ⟨hpatch.2, hlisted⟩

end Database

end VersionedTables
