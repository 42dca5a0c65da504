import VersionedTables.Proofs.Runs

/-!
# Frozen revisions and isolated branches

What can be read of a revision is its list of tables and, for each of these, its list of rows, with
every field of every record (`Store.SameReading`). A revision that is not a draft reads the same at
every later point of a run, and a draft reads the same after every command that is not addressed to
its branch (`Database.Fresh.run_frozen_and_isolated`).
-/

namespace VersionedTables

/-! ## Readings -/

/-- A revision reads the same in two stores. -/
structure Store.SameReading (s s' : Store) (r : RevisionId) : Prop where
  tables : s'.tablesOf r = s.tablesOf r
  rows : ∀ table ∈ s.tablesOf r, s'.rowsOf table.version = s.rowsOf table.version

namespace Store.SameReading

variable {s s' s'' : Store} {r : RevisionId}

theorem refl (s : Store) (r : RevisionId) : SameReading s s r :=
  ⟨rfl, fun _ _ => rfl⟩

theorem trans (h : SameReading s s' r) (h' : SameReading s' s'' r) : SameReading s s'' r where
  tables := h'.tables.trans h.tables
  rows table hmem := (h'.rows table (by rwa [h.tables])).trans (h.rows table hmem)

/-- A revision that looks the same reads the same. -/
theorem of_sameView (hintact : s.Intact) (h : s.graph.SameView s'.graph r) : SameReading s s' r where
  tables := h.tablesOf
  rows _ hmem := h.rowsOf (hintact.mem_tablesOf.mp hmem).1

end Store.SameReading

namespace Database

variable {db : Database} {r : RevisionId} {revision : Revision} {command : Command}

/-! ## One command -/

/-- A published revision reads the same after a command. -/
theorem execute_frozen (h : db.store.Sound db.supply) (command : Command)
    (hstored : db.store.revision? r = some revision) (hflag : revision.isDraft = false) :
    (∃ isHead, (db.execute command).2.store.revision? r = some { revision with isHead }) ∧
      db.store.SameReading (db.execute command).2.store r := by
  rcases execute_step h command with ⟨hstore, -⟩ | ⟨w, hstep, hstore, -⟩
  · rw [hstore]
    exact ⟨⟨revision.isHead, hstored⟩, .refl _ r⟩
  · rw [hstore]
    obtain ⟨hrecord, hview⟩ := hstep.frozen hstored hflag
    exact ⟨hrecord, .of_sameView h.intact hview⟩

/-- A draft reads the same after a command that is not addressed to its branch. -/
theorem execute_isolated (h : db.store.Sound db.supply)
    (hstored : db.store.revision? r = some revision) (hflag : revision.isDraft = true)
    (hbranch : command.branch? db.store ≠ some revision.branch) :
    (db.execute command).2.store.revision? r = some revision ∧
      db.store.SameReading (db.execute command).2.store r := by
  rcases execute_step h command with ⟨hstore, -⟩ | ⟨w, hstep, hstore, -⟩
  · rw [hstore]
    exact ⟨hstored, .refl _ r⟩
  · rw [hstore]
    obtain ⟨hrecord, hview⟩ := hstep.isolated hstored hflag hbranch
    exact ⟨hrecord, .of_sameView h.intact hview⟩

/-! ## Many commands -/

/-- A published revision reads the same after a run. -/
theorem run_frozen (h : db.store.Sound db.supply) (commands : List Command)
    (hstored : db.store.revision? r = some revision) (hflag : revision.isDraft = false) :
    (∃ isHead, (db.run commands).store.revision? r = some { revision with isHead }) ∧
      db.store.SameReading (db.run commands).store r := by
  induction commands generalizing db revision with
  | nil => exact ⟨⟨revision.isHead, hstored⟩, .refl _ r⟩
  | cons first rest ih =>
    obtain ⟨⟨isHead, hnext⟩, hreading⟩ := execute_frozen h first hstored hflag
    -- The revision is still published, whether it is the head or not.
    obtain ⟨hrecord, hreading'⟩ := ih (execute_sound h first) hnext hflag
    exact ⟨hrecord, hreading.trans hreading'⟩

/-- At every point of a run, what is published stays as it is from then on, and the next command
changes no draft but that of the branch it is addressed to. -/
theorem Fresh.run_frozen_and_isolated (h : db.Fresh) (commands : List Command) :
    (∀ r revision, (db.run commands).store.revision? r = some revision →
      revision.isDraft = false → ∀ more,
      (∃ isHead, ((db.run commands).run more).store.revision? r = some { revision with isHead }) ∧
        (db.run commands).store.SameReading ((db.run commands).run more).store r) ∧
    (∀ r draft, (db.run commands).store.revision? r = some draft → draft.isDraft = true →
      ∀ command, command.branch? (db.run commands).store ≠ some draft.branch →
      ((db.run commands).execute command).2.store.revision? r = some draft ∧
        (db.run commands).store.SameReading ((db.run commands).execute command).2.store r) := by
  have hsound := h.run_sound commands
  refine ⟨?_, ?_⟩
  · intro r revision hstored hflag more
    exact run_frozen hsound more hstored hflag
  · intro r draft hstored hflag command hbranch
    exact execute_isolated hsound hstored hflag hbranch

/-- Two branches, the second forked from the first revision of the first. -/
def forkedInMemory : Database :=
  (inMemory (.unary fun _ => ⟨0, 0⟩)).run [.createBranch "main" none,
    .createBranch "fork" (some ⟨"i"⟩)]

/-- The first revision stays as it is while its branch is edited and committed, and so does the draft
of the fork when a table is created beside it. -/
theorem run_frozen_and_isolated_of_fork :
    ((∃ isHead, (forkedInMemory.run [.createTable ⟨"ii"⟩ "users" false,
          .commit ⟨"main"⟩ none]).store.revision? ⟨"i"⟩ =
        some { Revision.start ⟨"i"⟩ ⟨"main"⟩ none ⟨0, 0⟩ with isHead }) ∧
      forkedInMemory.store.SameReading (forkedInMemory.run [.createTable ⟨"ii"⟩ "users" false,
          .commit ⟨"main"⟩ none]).store ⟨"i"⟩) ∧
    (forkedInMemory.execute (.createTable ⟨"ii"⟩ "users" false)).2.store.revision? ⟨"iiii"⟩ =
        some (Revision.draft ⟨"iiii"⟩ ⟨"fork"⟩ ⟨"iii"⟩ ⟨0, 0⟩) ∧
      forkedInMemory.store.SameReading
        (forkedInMemory.execute (.createTable ⟨"ii"⟩ "users" false)).2.store ⟨"iiii"⟩ := by
  obtain ⟨hfrozen, hisolated⟩ := Fresh.run_frozen_and_isolated
    (fresh_inMemory (Supply.distinct_unary fun _ => ⟨0, 0⟩))
    [.createBranch "main" none, .createBranch "fork" (some ⟨"i"⟩)]
  have hstart : forkedInMemory.store.revision? ⟨"i"⟩ =
      some (Revision.start ⟨"i"⟩ ⟨"main"⟩ none ⟨0, 0⟩) := by decide +kernel
  have hdraft : forkedInMemory.store.revision? ⟨"iiii"⟩ =
      some (Revision.draft ⟨"iiii"⟩ ⟨"fork"⟩ ⟨"iii"⟩ ⟨0, 0⟩) := by decide +kernel
  refine ⟨hfrozen _ _ hstart rfl _, hisolated _ _ hdraft rfl _ ?_⟩
  change Command.branch? forkedInMemory.store (.createTable ⟨"ii"⟩ "users" false) ≠ some ⟨"fork"⟩
  decide +kernel

end Database

end VersionedTables
