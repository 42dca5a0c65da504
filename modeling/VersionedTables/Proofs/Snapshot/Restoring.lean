import VersionedTables.Proofs.Runs
import VersionedTables.Proofs.Snapshot.RoundTrip

/-!
# Databases that can be restored

As long as everything that commands bring along comes back from a snapshot, so does the store they
lead to (`Database.run_restored`). What is asked of a database for this is `Database.Restorable`, which
every transaction keeps, together with the branches of all revisions being there, which every command
keeps (`Command.housed_run`).
-/

namespace VersionedTables

namespace Database

variable {α : Type} {db db' : Database} {e : Edit α} {command : Command} {commands : List Command}

/-! ## Transactions -/

/-- What a store needs to come back from snapshots, now and later, but for the branches of its
revisions. -/
structure Restorable (db : Database) : Prop where
  /-- The store is intact. -/
  intact : db.store.Intact
  /-- Everything in it comes back. -/
  madeOf : db.store.MadeOf .storable
  /-- So does what the clock will show. -/
  clock : ∀ n, (db.supply.clock n).Valid

namespace Restorable

theorem begin (h : db.Restorable) : db.begin.MadeOf .storable :=
  ⟨h.madeOf, h.clock⟩

/-- A transaction that writes what comes back keeps a store that comes back. -/
theorem transact (h : db.Restorable) {Q : α → Prop} (he : e.Makes .storable Q) :
    (db.transact e).2.Restorable := by
  have hmade := (he h.begin).1
  obtain ⟨hlater, hstore⟩ := transact_store hmade h.intact.orderly
  have hclock : ∀ n, ((db.transact e).2.supply.clock n).Valid := by
    rw [hlater.clock]
    exact h.clock
  rcases hstore with hstore | ⟨-, hstore⟩
  · exact ⟨hstore ▸ h.intact, hstore ▸ h.madeOf, hclock⟩
  · exact ⟨hstore ▸ hmade.intact h.intact, hstore ▸ (hmade.madeOf h.begin).store, hclock⟩

theorem execute (h : db.Restorable) (hcommand : command.MadeOf .storable) :
    (db.execute command).2.Restorable :=
  h.transact (Command.makes_run hcommand)

theorem run (h : db.Restorable)
    (hcommands : ∀ command ∈ commands, command.MadeOf .storable) :
    (db.run commands).Restorable :=
  run_induction (fun command hmem h => h.execute (hcommands command hmem)) h

end Restorable

/-! ## Branches -/

/-- The branch that a command has created is there. -/
theorem created_execute {reply : Reply} (hresult : db.execute command = (.ok reply, db'))
    {name : BranchName} (hcreates : command.Creates name) : (db'.store.branch? name).isSome := by
  obtain ⟨value, w, hrun, -, hstore, -⟩ := transact_eq_ok hresult
  have hyields : command.run.Yields db.begin fun _ _ => True := ⟨value, w, hrun, trivial⟩
  obtain ⟨value', w', hrun', hcreated⟩ := Command.creates_stored hyields
  rw [hrun] at hrun'
  cases hrun'
  rw [hstore]
  exact hcreated name hcreates

/-- A command leaves the branch of every revision there. -/
theorem housed_execute (hintact : db.store.Intact) (h : db.store.Housed) (command : Command) :
    (db.execute command).2.store.Housed := by
  obtain ⟨-, hstore | ⟨hyields, hstore⟩⟩ :=
    transact_store (command.journaled_run.made db.begin) hintact.orderly
  · rw [execute, hstore]
    exact h
  · obtain ⟨value, w, hrun, hhoused⟩ := Command.housed_run (w := db.begin) h hyields
    rw [execute, hstore, hrun]
    exact hhoused

theorem intact_execute (h : db.store.Intact) (command : Command) :
    (db.execute command).2.store.Intact := by
  have hmade := command.journaled_run.made db.begin
  obtain ⟨-, hstore | ⟨-, hstore⟩⟩ := transact_store hmade h.orderly
  · rw [execute, hstore]
    exact h
  · rw [execute, hstore]
    exact hmade.intact h

theorem housed_run (hintact : db.store.Intact) (h : db.store.Housed) (commands : List Command) :
    (db.run commands).store.Housed := by
  refine (run_induction (P := fun db => db.store.Intact ∧ db.store.Housed) ?_ ⟨hintact, h⟩).2
  rintro db command - ⟨hintact, h⟩
  exact ⟨intact_execute hintact command, housed_execute hintact h command⟩

/-! ## Runs -/

/-- What commands have led to from an empty store comes back from its snapshot, but for notes that
are the null document. -/
theorem run_restored (hempty : db.store = ∅) (hclock : ∀ n, (db.supply.clock n).Valid)
    (hcommands : ∀ command ∈ commands, command.MadeOf .storable) {savedAt : Instant}
    (hsavedAt : savedAt.Valid) (path : String) :
    Store.ofSnapshotText path ((db.run commands).store.snapshotText savedAt) =
      .ok (db.run commands).store.withoutNullNotes := by
  have hstart : db.Restorable :=
    ⟨hempty ▸ Store.intact_empty, hempty ▸ Store.MadeOf.empty, hclock⟩
  have hhoused := housed_run hstart.intact (hempty ▸ Store.housed_empty) commands
  have hafter := hstart.run hcommands
  exact (hafter.intact.ofSnapshotText_eq_ok_iff hafter.madeOf hsavedAt path).mpr hhoused

end Database

/-- One half. -/
def Binary64.half : Binary64 :=
  ⟨false, 0x10000000000000, -53, by decide, by decide, by decide, .inl (by decide)⟩

/-- A document with a number that is not whole, and an entry that is null. -/
def Document.measurement : Document :=
  .object [("unit", .null), ("values", .array [.ofInt 3, .number (.double Binary64.half), "none"])]

theorem Document.storable_measurement : Document.measurement.Storable where
  legible := by
    have hthree : (Number.whole 3).ReadsBack := by decide +kernel
    have hhalf : (Number.double Binary64.half).ReadsBack := by decide +kernel
    exact ⟨trivial, ⟨hthree, hhalf, trivial, trivial⟩, trivial⟩
  sorted := by
    have hkeys : compare "unit" "values" = .lt := by decide +kernel
    simp [measurement, Sorted, SortedEntries, SortedItems, SortedKeys, ofInt, hkeys]
  nesting_le := by decide +kernel

namespace Database

/-- A database in memory after one row was created, with a note that is null. -/
def measured : Database :=
  (inMemory (.unary fun _ => ⟨0, 0⟩)).run [.createBranch "main" none,
    .createTable ⟨"ii"⟩ "readings" false,
    .createRows ⟨"ii"⟩ "readings" [⟨"first", .measurement, none, some .null, none⟩]]

/-- All of it comes back but for the note. -/
theorem run_restored_measured :
    Store.ofSnapshotText "" (measured.store.snapshotText ⟨0, 0⟩) =
        .ok measured.store.withoutNullNotes ∧
      measured.store.rows.values.map (·.note.isSome) = [true] ∧
      measured.store.withoutNullNotes.rows.values.map (·.note.isSome) = [false] := by
  have hzero : (⟨0, 0⟩ : Instant).Valid := by decide +kernel
  refine ⟨run_restored rfl (fun _ => hzero) ?_ hzero "", by decide +kernel, by decide +kernel⟩
  have hrow : (⟨"first", .measurement, none, some .null, none⟩ : RowInput).MadeOf .storable := by
    refine ⟨Document.storable_measurement, ?_, nofun⟩
    rintro - ⟨⟩
    exact ⟨trivial, trivial, by decide⟩
  simp only [List.forall_mem_cons, List.not_mem_nil, false_imp_iff, implies_true, and_true]
  exact ⟨fun _ _ => trivial, trivial, List.forall_mem_singleton.mpr hrow⟩

end Database

end VersionedTables
