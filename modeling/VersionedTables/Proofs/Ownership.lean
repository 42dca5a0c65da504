import VersionedTables.Proofs.Runs

/-!
# Ownership of versions

Versions are changed in place when nobody else can see the change. What makes that safe is said here
by the lists that can be asked for (`Store.OwnsVersions`), and it holds after every run
(`Database.Fresh.run_ownsVersions`). So does that no list has two versions of one thing
(`Store.SingleVersions`, `Database.Fresh.run_singleVersions`), for the rows of a table also when no
revision shows the table any more.
-/

namespace VersionedTables

/-- A list without repetitions in which nothing but one item is. -/
theorem eq_singleton_of_mem {α : Type} {items : List α} (h : items.Nodup) {item : α}
    (hmem : item ∈ items) (honly : ∀ other ∈ items, other = item) : items = [item] := by
  cases items with
  | nil => cases hmem
  | cons first rest =>
    obtain rfl := honly first List.mem_cons_self
    have hempty : rest = [] := by
      rw [List.eq_nil_iff_forall_not_mem]
      intro other hother
      obtain rfl := honly other (List.mem_cons_of_mem _ hother)
      exact (List.nodup_cons.mp h).1 hother
    rw [hempty]

namespace Store

variable {s : Store} {supply : Supply}

/-! ## Who may change a version -/

/-- Versions that may be changed belong to one owner. -/
structure OwnsVersions (s : Store) : Prop where
  /-- A revision that is not a draft shows read-only tables. -/
  shown_readonly : ∀ {id revision table}, s.revision? id = some revision →
    revision.isDraft = false → table ∈ s.tablesOf id → table.readonly = true
  /-- A read-only table version holds read-only rows. -/
  held_readonly : ∀ {v table row}, s.table? v = some table → table.readonly = true →
    row ∈ s.rowsOf v → row.readonly = true
  /-- Another table version is shown by one revision at most, which is a draft. -/
  shown_once : ∀ {v table}, s.table? v = some table → table.readonly = false →
    s.revisionsOf v = [] ∨ ∃ id draft, s.revisionsOf v = [id] ∧ s.revision? id = some draft ∧
      draft.isDraft = true
  /-- Another row version is held by exactly one table version, which is not read-only. -/
  held_once : ∀ {u row}, s.row? u = some row → row.readonly = false →
    ∃ v table, s.tablesHolding u = [v] ∧ s.table? v = some table ∧ table.readonly = false

/-- A table version that may be changed is shown by drafts only. -/
theorem Sound.shower_isDraft (h : s.Sound supply) {v : VersionId} {table : TableVersion}
    (htable : s.table? v = some table) (hmutable : table.readonly = false) {id : RevisionId}
    (hshows : s.Shows id v) : ∃ draft, s.revision? id = some draft ∧ draft.isDraft = true := by
  obtain ⟨draft, hdraft⟩ := h.intact.closed.shower hshows
  refine ⟨draft, hdraft, ?_⟩
  by_contra hflag
  obtain ⟨other, hother, hreadonly⟩ :=
    h.coherent.ownedTables.published hshows ⟨draft, hdraft, Bool.eq_false_iff.mpr hflag⟩
  rw [graph_table?, htable] at hother
  cases hother
  exact Bool.false_ne_true (hmutable.symm.trans hreadonly)

theorem Sound.ownsVersions (h : s.Sound supply) : s.OwnsVersions where
  shown_readonly := by
    intro id revision table hrevision hflag hmem
    obtain ⟨hshows, htable⟩ := h.intact.mem_tablesOf.mp hmem
    exact (Layer.published_iff htable).mp
      (h.coherent.ownedTables.published hshows ⟨revision, hrevision, hflag⟩)
  held_readonly := by
    intro v table row htable hreadonly hmem
    obtain ⟨hholds, hrow⟩ := h.intact.mem_rowsOf.mp hmem
    exact (Layer.published_iff hrow).mp
      (h.coherent.ownedRows.published hholds ⟨table, htable, hreadonly⟩)
  shown_once := by
    intro v table htable hmutable
    have hopen : ¬s.graph.tables.Published v := fun hpublished =>
      Bool.false_ne_true (hmutable.symm.trans ((Layer.published_iff htable).mp hpublished))
    by_cases hshown : ∃ id, s.Shows id v
    · -- What shows it is a draft, and two drafts cannot both show it.
      obtain ⟨id, hshows⟩ := hshown
      obtain ⟨draft, hdraft, hflag⟩ := h.shower_isDraft htable hmutable hshows
      have hlist : s.revisionsOf v = [id] :=
        eq_singleton_of_mem (Links.nodup_sources _ v) (h.intact.mem_revisionsOf.mpr hshows)
          fun other hother => h.coherent.ownedTables.unique
            (h.intact.mem_revisionsOf.mp hother) hshows hopen
      exact .inr ⟨id, draft, hlist, hdraft, hflag⟩
    · exact .inl (h.intact.revisionsOf_eq_nil_iff.mpr (not_exists.mp hshown))
  held_once := by
    intro u row hrow hmutable
    have hopen : ¬s.graph.rows.Published u := fun hpublished =>
      Bool.false_ne_true (hmutable.symm.trans ((Layer.published_iff hrow).mp hpublished))
    obtain ⟨v, hholds⟩ := h.coherent.heldRows hrow hmutable
    obtain ⟨table, htable⟩ := h.intact.closed.holder hholds
    have hlist : s.tablesHolding u = [v] :=
      eq_singleton_of_mem (Links.nodup_sources _ u) (h.intact.mem_tablesHolding.mpr hholds)
        fun other hother => h.coherent.ownedRows.unique
          (h.intact.mem_tablesHolding.mp hother) hholds hopen
    refine ⟨v, table, hlist, htable, ?_⟩
    by_contra hreadonly
    exact hopen (h.coherent.ownedRows.published hholds
      ⟨table, htable, Bool.not_eq_false _ |>.mp hreadonly⟩)

/-! ## One version of each thing -/

/-- No list of versions has two of one table or of one row. -/
structure SingleVersions (s : Store) : Prop where
  /-- Not of one table in a revision. -/
  tables : ∀ id, ((s.tablesOf id).map (·.entity)).Nodup
  /-- Not of one row in a table version, whether it is shown or not. -/
  rows : ∀ v, ((s.rowsOf v).map (·.entity)).Nodup

theorem Sound.singleVersions (h : s.Sound supply) : s.SingleVersions where
  tables := h.intact.nodup_tablesOf h.coherent.tableEntities
  rows := h.intact.nodup_rowsOf h.coherent.rowEntities

end Store

/-! ## After every run -/

namespace Database

variable {db : Database}

/-- After every run, versions that may be changed belong to one owner. -/
theorem Fresh.run_ownsVersions (h : db.Fresh) (commands : List Command) :
    (db.run commands).store.OwnsVersions :=
  (h.run_sound commands).ownsVersions

/-- A run with a commit and a fork. -/
theorem run_ownsVersions_of_fork :
    (inMemory (.unary fun _ => ⟨0, 0⟩)).Fresh ∧
      ((inMemory (.unary fun _ => ⟨0, 0⟩)).run [.createBranch "main" none,
        .createTable ⟨"ii"⟩ "users" false, .commit ⟨"main"⟩ none,
        .createBranch "fork" (some ⟨"ii"⟩)]).store.OwnsVersions :=
  ⟨fresh_inMemory (Supply.distinct_unary _),
    Fresh.run_ownsVersions (fresh_inMemory (Supply.distinct_unary _)) _⟩

/-- After every run, no list of versions has two of one thing. -/
theorem Fresh.run_singleVersions (h : db.Fresh) (commands : List Command) :
    (db.run commands).store.SingleVersions :=
  (h.run_sound commands).singleVersions

/-- A run with a table that is detached by a revert. -/
theorem run_singleVersions_of_revert :
    (inMemory (.unary fun _ => ⟨0, 0⟩)).Fresh ∧
      ((inMemory (.unary fun _ => ⟨0, 0⟩)).run [.createBranch "main" none,
        .createTable ⟨"ii"⟩ "users" false, .revert ⟨"main"⟩]).store.SingleVersions :=
  ⟨fresh_inMemory (Supply.distinct_unary _),
    Fresh.run_singleVersions (fresh_inMemory (Supply.distinct_unary _)) _⟩

end Database

end VersionedTables
