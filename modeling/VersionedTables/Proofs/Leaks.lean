import VersionedTables.Proofs.Runs

/-!
# What is left behind

A version is garbage when nothing links it. Whatever is published has published owners all the way up
(`Store.Anchors`), so it never is garbage, and collecting garbage spares it. A version that is not
published may be let go of, but all commands but one then delete it themselves, so as long as no draft
is put back there is nothing to collect (`Database.Fresh.run_leaks`).

Row versions are never left behind, not even by putting a draft back: one that is not published has a
table version that holds it (`Graph.Coherent.heldRows`), and one that is published is anchored. What
can be left behind is a table version, and the only way to do it is to put back the draft that showed
it.
-/

namespace VersionedTables

/-! ## Published versions -/

/-- Whatever is published can be seen from a published revision. -/
structure Store.Anchors (s : Store) : Prop where
  /-- A published table is shown by a published revision. -/
  tables : ∀ v table, s.table? v = some table → table.readonly = true →
    ∃ id revision, s.revision? id = some revision ∧ revision.isDraft = false ∧ s.Shows id v
  /-- A published row is held by a published table. -/
  rows : ∀ u row, s.row? u = some row → row.readonly = true →
    ∃ v table, s.table? v = some table ∧ table.readonly = true ∧ s.Holds v u

theorem Graph.Coherent.anchors {s : Store} (h : s.graph.Coherent) : s.Anchors where
  tables v table htable hreadonly := by
    obtain ⟨id, ⟨revision, hrevision, hdraft⟩, hshown⟩ := h.anchoredTables ⟨table, htable, hreadonly⟩
    exact ⟨id, revision, hrevision, hdraft, hshown⟩
  rows u row hrow hreadonly := by
    obtain ⟨v, ⟨table, htable, hpublished⟩, hheld⟩ := h.anchoredRows ⟨row, hrow, hreadonly⟩
    exact ⟨v, table, htable, hpublished, hheld⟩

namespace Graph

variable {g : Graph} {v u : VersionId}

/-- A published table is not swept away. -/
theorem Coherent.table?_sweep (h : g.Coherent) (hv : g.tables.Published v) :
    g.sweep.tables.record? v = g.tables.record? v := by
  obtain ⟨id, -, hshown⟩ := h.anchoredTables hv
  exact Layer.record?_prune_of_linked hshown trivial

/-- Nor is a published row, since a published table holds it. -/
theorem Coherent.row?_sweep (h : g.Coherent) (hu : g.rows.Published u) :
    g.sweep.rows.record? u = g.rows.record? u := by
  obtain ⟨v, hv, hheld⟩ := h.anchoredRows hu
  obtain ⟨id, -, hshown⟩ := h.anchoredTables hv
  exact Layer.record?_prune_of_linked hheld ⟨id, hshown⟩

/-- Every row has a table that holds it. -/
theorem Coherent.held (h : g.Coherent) {row : RowVersion} (hrow : g.rows.record? u = some row) :
    ∃ v, g.rows.Linked v u := by
  rcases hreadonly : row.readonly with _ | _
  · exact h.heldRows hrow hreadonly
  · obtain ⟨v, -, hheld⟩ := h.anchoredRows ⟨row, hrow, hreadonly⟩
    exact ⟨v, hheld⟩

end Graph

/-! ## Collecting nothing -/

namespace Edit

variable {α : Type} {w : Workspace} {f : α → Edit Bool} {items : List α}

/-- A filter that keeps nothing and changes nothing. -/
theorem filterM_yields_nothing
    (h : ∀ item ∈ items, (f item).Yields w fun kept w' => kept = false ∧ w' = w) :
    (items.filterM f).Yields w fun kept w' => kept = [] ∧ w' = w := by
  induction items with
  | nil => exact yields_filterM_nil.mpr ⟨rfl, rfl⟩
  | cons first rest ih =>
    refine yields_filterM_cons.mpr ((h first List.mem_cons_self).imp ?_)
    rintro _ _ ⟨rfl, rfl⟩
    exact ih fun item hmem => h item (List.mem_cons_of_mem _ hmem)

/-- Where everything is linked, collecting garbage does nothing at all. -/
theorem collectGarbage_yields_nothing (h : w.store.Intact)
    (htables : ∀ v, ¬w.graph.tables.Stray v)
    (hrows : ∀ {u row}, w.graph.rows.record? u = some row → ∃ v, w.graph.rows.Linked v u) :
    collectGarbage.Yields w fun report w' => report = ⟨[], []⟩ ∧ w' = w := by
  simp only [collectGarbage, yields_bind, yields_store, yields_pure]
  refine (filterM_yields_nothing fun v hv => ?_).imp ?_
  · rw [deleteTableIfUnshown]
    simp only [yields_bind, yields_store]
    rw [if_neg, yields_pure]
    · exact ⟨rfl, rfl⟩
    · rw [List.isEmpty_iff, h.revisionsOf_eq_nil_iff]
      exact fun hunshown => htables v ⟨Store.mem_tableVersions.mp hv, hunshown⟩
  · rintro _ _ ⟨rfl, rfl⟩
    refine (filterM_yields_nothing fun u hu => ?_).imp ?_
    · rw [deleteRowIfUnheld]
      simp only [yields_bind, yields_store]
      rw [if_neg, yields_pure]
      · exact ⟨rfl, rfl⟩
      · obtain ⟨row, hrow⟩ := Store.mem_rowVersions.mp hu
        obtain ⟨v, hv⟩ := hrows hrow
        rw [List.isEmpty_iff, h.tablesHolding_eq_nil_iff]
        exact fun hunheld => hunheld v hv
    · rintro _ _ ⟨rfl, rfl⟩
      exact ⟨rfl, rfl⟩

end Edit

/-! ## Commands -/

/-- Only putting a draft back leaves a table version behind. -/
theorem Effect.strays {w w' : Workspace} {command : Command} {reply : Reply}
    (h : Effect w w' command reply) (hcommand : ∀ branch, command ≠ .revert branch) {v : VersionId}
    (hv : w'.graph.tables.Stray v) : w.graph.tables.Stray v := by
  cases command <;> cases reply <;> try exact False.elim h
  case createBranch.branchCreated => exact NewBranch.strays h hv
  case commit.committed =>
    obtain ⟨head, draft, -, -, -, hnewHead⟩ := h
    exact hnewHead.strays hv
  case revert.reverted branch result => exact absurd rfl (hcommand branch)
  case collectGarbage.garbageCollected => exact HiddenStep.strays h hv
  all_goals
    obtain ⟨draft, -, -, hedit, -⟩ := h
    exact hedit.strays hv

namespace Database

variable {db : Database} {command : Command} {commands : List Command}

/-- A command that is not a revert that goes through leaves no table version behind. -/
theorem execute_strays (h : db.store.Sound db.supply)
    (hcommand : ∀ branch reply, command = .revert branch → (db.execute command).1 ≠ .ok reply)
    {v : VersionId} (hv : (db.execute command).2.store.graph.tables.Stray v) :
    db.store.graph.tables.Stray v := by
  rcases hresult : db.execute command with ⟨fault | reply, db'⟩ <;> rw [hresult] at hv hcommand
  · rwa [(execute_refused h hresult).1] at hv
  · obtain ⟨w, heffect, hstore, -⟩ := execute_effect h hresult
    rw [hstore] at hv
    exact heffect.strays (fun branch heq => hcommand branch reply heq rfl) hv

/-- A draft is put back at some point of a run. -/
def Reverts (db : Database) (commands : List Command) : Prop :=
  ∃ before branch after reply, commands = before ++ .revert branch :: after ∧
    ((db.run before).execute (.revert branch)).1 = .ok reply

/-- A run in which no draft is put back leaves no table version behind. -/
theorem run_strays (h : db.store.Sound db.supply) (hreverts : ¬db.Reverts commands) {v : VersionId}
    (hv : (db.run commands).store.graph.tables.Stray v) : db.store.graph.tables.Stray v := by
  induction commands generalizing db with
  | nil => exact hv
  | cons first rest ih =>
    refine execute_strays h ?_ (ih (execute_sound h first) ?_ hv)
    · rintro branch reply rfl hreply
      exact hreverts ⟨[], branch, rest, reply, rfl, hreply⟩
    · rintro ⟨before, branch, after, reply, rfl, hreply⟩
      exact hreverts ⟨first :: before, branch, after, reply, rfl, hreply⟩

/-! ## Garbage collections -/

/-- A garbage collection that goes through sweeps away what it reports. -/
theorem execute_collectGarbage (h : db.store.Sound db.supply) {reply : Reply} {db' : Database}
    (hresult : db.execute .collectGarbage = (.ok reply, db')) :
    ∃ report, reply = .garbageCollected report ∧ db'.store.graph = db.store.graph.sweep ∧
      (∀ v, v ∈ report.tables ↔ db.store.graph.tables.Stray v) ∧
      ∀ u, u ∈ report.rows ↔ (∃ row, db.store.row? u = some row) ∧
        ∀ v, db.store.Holds v u → ∀ id, ¬db.store.Shows id v := by
  have hyields := Edit.yields_map.mp (transact_eq_ok hresult)
  obtain ⟨report, w, -, ⟨rfl, hstore, -⟩, hgraph, -, htables, hrows⟩ :=
    hyields.and (Edit.collectGarbage_yields h.intact)
  exact ⟨report, rfl, by rw [hstore]; exact hgraph, htables, hrows⟩

/-- A garbage collection deletes nothing that is published. -/
structure SparesPublished (db : Database) : Prop where
  /-- The tables it reports are not published. -/
  tables : ∀ report, (db.execute .collectGarbage).1 = .ok (.garbageCollected report) →
    ∀ v ∈ report.tables, ∃ table, db.store.table? v = some table ∧ table.readonly = false
  /-- The rows it reports are not published. -/
  rows : ∀ report, (db.execute .collectGarbage).1 = .ok (.garbageCollected report) →
    ∀ u ∈ report.rows, ∃ row, db.store.row? u = some row ∧ row.readonly = false
  /-- Published tables are stored as before. -/
  table? : ∀ v table, db.store.table? v = some table → table.readonly = true →
    (db.execute .collectGarbage).2.store.table? v = some table
  /-- Published rows are stored as before. -/
  row? : ∀ u row, db.store.row? u = some row → row.readonly = true →
    (db.execute .collectGarbage).2.store.row? u = some row

theorem sparesPublished (h : db.store.Sound db.supply) : db.SparesPublished := by
  rcases hresult : db.execute .collectGarbage with ⟨fault | reply, db'⟩
  · -- A collection that fails changes nothing.
    have hstore := (execute_refused h hresult).1
    refine ⟨?_, ?_, ?_, ?_⟩ <;> rw [hresult]
    · rintro report ⟨⟩
    · rintro report ⟨⟩
    · intro v table htable _
      rwa [hstore]
    · intro u row hrow _
      rwa [hstore]
  · obtain ⟨found, rfl, hgraph, htables, hrows⟩ := execute_collectGarbage h hresult
    refine ⟨?_, ?_, ?_, ?_⟩ <;> rw [hresult]
    · rintro report ⟨⟩ v hv
      obtain ⟨⟨table, htable⟩, hunshown⟩ := (htables v).mp hv
      refine ⟨table, htable, Bool.eq_false_iff.mpr fun hreadonly => ?_⟩
      obtain ⟨id, -, hshown⟩ := h.coherent.anchoredTables ⟨table, htable, hreadonly⟩
      exact hunshown id hshown
    · rintro report ⟨⟩ u hu
      obtain ⟨⟨row, hrow⟩, hunseen⟩ := (hrows u).mp hu
      refine ⟨row, hrow, Bool.eq_false_iff.mpr fun hreadonly => ?_⟩
      obtain ⟨v, hv, hheld⟩ := h.coherent.anchoredRows ⟨row, hrow, hreadonly⟩
      obtain ⟨id, -, hshown⟩ := h.coherent.anchoredTables hv
      exact hunseen v hheld id hshown
    · intro v table htable hreadonly
      rw [← Store.graph_table?, hgraph, h.coherent.table?_sweep ⟨table, htable, hreadonly⟩]
      exact htable
    · intro u row hrow hreadonly
      rw [← Store.graph_row?, hgraph, h.coherent.row?_sweep ⟨row, hrow, hreadonly⟩]
      exact hrow

/-- Nothing is left behind: everything is linked, and a garbage collection does nothing. -/
structure Spotless (db : Database) : Prop where
  /-- Every table version is shown by some revision. -/
  tables : ∀ v table, db.store.table? v = some table → ∃ id, db.store.Shows id v
  /-- Every row version is held by some table version. -/
  rows : ∀ u row, db.store.row? u = some row → ∃ v, db.store.Holds v u
  /-- A garbage collection goes through, reports nothing and changes nothing. -/
  collects : db.execute .collectGarbage = (.ok (.garbageCollected ⟨[], []⟩), db)

theorem spotless (h : db.store.Sound db.supply) (hstrays : ∀ v, ¬db.store.graph.tables.Stray v) :
    db.Spotless where
  tables v table htable := by
    by_contra hunshown
    exact hstrays v ⟨⟨table, htable⟩, fun id hshown => hunshown ⟨id, hshown⟩⟩
  rows u row hrow := h.coherent.held hrow
  collects := by
    obtain ⟨report, w, hrun, rfl, rfl⟩ :=
      Edit.collectGarbage_yields_nothing (w := db.begin) h.intact hstrays h.coherent.held
    have hmap : (Command.run .collectGarbage).outcome db.begin =
        (.ok (.garbageCollected ⟨[], []⟩), db.begin) := by
      rw [Command.run, ← bind_pure_comp, Edit.outcome_bind, hrun]
      rfl
    have hrun' : (Command.run .collectGarbage).run.run db.begin = _ := hmap
    -- Nothing was written, so there is nothing to persist.
    have hcommit : db.commit db.begin = (.ok (), db) := by
      rw [commit, if_neg (by simp [persists, begin])]
      rfl
    simp only [execute, transact, hrun', hcommit]

/-- At every point of a run, whatever is published is in sight and spared by garbage collections; and
as long as no draft was put back, nothing at all was left behind. -/
theorem Fresh.run_leaks (h : db.Fresh) (commands : List Command) :
    (db.run commands).store.Anchors ∧ (db.run commands).SparesPublished ∧
      (¬db.Reverts commands → (db.run commands).Spotless) := by
  have hsound := h.run_sound commands
  refine ⟨hsound.coherent.anchors, sparesPublished hsound, fun hreverts => ?_⟩
  refine spotless hsound fun v hv => ?_
  obtain ⟨⟨table, htable⟩, -⟩ := run_strays h.sound hreverts hv
  rw [h.store_eq] at htable
  simp [Store.table?_empty] at htable

/-- A table is committed and then edited, and so is a row of it; then both are taken out. -/
def editedInMemory : List Command :=
  [.createBranch "main" none, .createTable ⟨"ii"⟩ "users" false,
    .createRows ⟨"ii"⟩ "users" [⟨"ada", .null, none, none, none⟩], .commit ⟨"main"⟩ none,
    .updateRows ⟨"iiiiiii"⟩ "users" [⟨"ada", .bool true, none, none, none⟩],
    .removeRows ⟨"iiiiiii"⟩ "users" ["ada"], .removeTable ⟨"iiiiiii"⟩ "users"]

/-- Nothing is left of the edits, and the two versions that were committed are the only ones. -/
theorem run_leaks_of_edits :
    ((inMemory (.unary fun _ => ⟨0, 0⟩)).run editedInMemory).Spotless ∧
      ((inMemory (.unary fun _ => ⟨0, 0⟩)).run editedInMemory).store.tableVersions = [⟨"iiii"⟩] ∧
      ((inMemory (.unary fun _ => ⟨0, 0⟩)).run editedInMemory).store.rowVersions = [⟨"iiiiii"⟩] := by
  obtain ⟨-, -, hspotless⟩ := Fresh.run_leaks
    (fresh_inMemory (Supply.distinct_unary fun _ => ⟨0, 0⟩)) editedInMemory
  refine ⟨hspotless ?_, by decide +kernel, by decide +kernel⟩
  rintro ⟨before, branch, after, reply, heq, -⟩
  have hmem : Command.revert branch ∈ editedInMemory := by simp [heq]
  simp [editedInMemory] at hmem

/-- Putting a draft back leaves the copy behind that it had made of a table. -/
example : (((inMemory (.unary fun _ => ⟨0, 0⟩)).run [.createBranch "main" none,
    .createTable ⟨"ii"⟩ "users" false, .commit ⟨"main"⟩ none, .renameTable ⟨"iiiii"⟩ "users" "people",
    .revert ⟨"main"⟩]).execute .collectGarbage).1 =
      .ok (.garbageCollected ⟨[⟨"iiiiii"⟩], []⟩) := by
  decide +kernel

end Database

end VersionedTables
