import VersionedTables.Database
import VersionedTables.Proofs.Built
import VersionedTables.Proofs.Commands

/-!
# What is left of a transaction

All that later proofs need to know about transactions of a database: one that was accepted leaves the
store of its edit behind (`Database.transact_eq_ok`), and one that failed leaves the store there was
before (`Database.transact_eq_error`). The latter covers the snapshot that could not be written as
well. In short, a transaction that does not go through leaves no trace (`Database.RollsBack`).
-/

namespace VersionedTables

/-- Whether a write is refused does not depend on what is written. -/
theorem Disk.write_fst (d : Disk) (text : String) :
    (d.write text).1 = if d.refusesNext then .error (.notReplaced d.path) else .ok () := by
  simp only [write]
  split <;> rfl

namespace Database

variable {α : Type} {db db' : Database} {e : Edit α}

/-- The identifiers and clock readings a database draws from. -/
abbrev supply (db : Database) : Supply :=
  db.surroundings.supply

/-- Writing a snapshot reads the clock and draws no identifier. -/
theorem later_persist (surroundings : Surroundings) (store : Store) :
    surroundings.supply.Later (persist surroundings store).2.supply :=
  Supply.later_readClock

/-- Whether a commit succeeds does not depend on what it writes. -/
theorem commit_fst (db : Database) (w : Workspace) :
    (db.commit w).1 =
      if db.persists w.transaction && db.surroundings.disk.refusesNext then
        .error (.notReplaced db.surroundings.disk.path)
      else .ok () := by
  have hwrite : (persist (db.resume w w.store).surroundings w.store).1 =
      if db.surroundings.disk.refusesNext then .error (.notReplaced db.surroundings.disk.path)
      else .ok () := Disk.write_fst ..
  rw [commit]
  rcases db.persists w.transaction with _ | _
  · rfl
  · rw [if_pos rfl, Bool.true_and, ← hwrite]
    rcases persist (db.resume w w.store).surroundings w.store with ⟨fault | _, after⟩ <;> rfl

/-- A commit that succeeds keeps the store. -/
theorem commit_eq_ok {w : Workspace} (h : db.commit w = (.ok (), db')) :
    db'.store = w.store ∧ w.supply.Later db'.supply := by
  rw [commit] at h
  split at h
  · have hlater := later_persist (db.resume w w.store).surroundings w.store
    rcases hpersist : persist (db.resume w w.store).surroundings w.store with ⟨fault | _, after⟩ <;>
      simp only [hpersist] at h hlater
    · cases h
    · cases h
      exact ⟨rfl, hlater⟩
  · cases h
    exact ⟨rfl, .refl _⟩

/-- A commit fails only for want of a snapshot, and then rolls back. -/
theorem commit_eq_error {w : Workspace} {fault : StoreFault}
    (h : db.commit w = (.error fault, db')) :
    db.config.onDisk = true ∧ db'.store = w.transaction.rollback ∧ w.supply.Later db'.supply := by
  rw [commit] at h
  split at h
  · next hpersists =>
    have hlater := later_persist (db.resume w w.store).surroundings w.store
    rw [persists, Bool.and_eq_true, Bool.and_eq_true] at hpersists
    rcases hpersist : persist (db.resume w w.store).surroundings w.store with ⟨fault | _, after⟩ <;>
      simp only [hpersist] at h hlater
    · cases h
      exact ⟨hpersists.1.1, rfl, hlater⟩
    · cases h
  · cases h

/-- A transaction that was accepted leaves the store of its edit. -/
theorem transact_eq_ok {value : α} (h : db.transact e = (.ok value, db')) :
    e.Yields db.begin fun value' w =>
      value' = value ∧ db'.store = w.store ∧ w.supply.Later db'.supply := by
  rw [transact] at h
  rcases hrun : e.outcome db.begin with ⟨fault | value', w⟩ <;> rw [Edit.outcome] at hrun <;>
    simp only [hrun] at h
  · cases h
  · rcases hcommit : db.commit w with ⟨fault | _, db₁⟩ <;> simp only [hcommit] at h
    · cases h
    · cases h
      exact ⟨_, w, hrun, rfl, commit_eq_ok hcommit⟩

/-- A transaction that failed leaves the store that is left when its edit is undone. -/
theorem transact_eq_rollback {fault : DatabaseFault} (h : db.transact e = (.error fault, db')) :
    db'.store = (e.outcome db.begin).2.transaction.rollback ∧
      (e.outcome db.begin).2.supply.Later db'.supply := by
  rw [transact] at h
  rcases hrun : e.outcome db.begin with ⟨fault' | value, w⟩ <;> rw [Edit.outcome] at hrun <;>
    simp only [hrun] at h
  · cases h
    exact ⟨rfl, .refl _⟩
  · -- The edit went through, so it was the snapshot that failed.
    rcases hcommit : db.commit w with ⟨fault' | _, db₁⟩ <;> simp only [hcommit] at h <;> cases h
    exact (commit_eq_error hcommit).2

/-- A transaction that failed leaves the store there was before. -/
theorem transact_eq_error {m : Material} (hmade : Edit.Made m db.begin (e.outcome db.begin).2)
    (horderly : db.store.Orderly) {fault : DatabaseFault}
    (h : db.transact e = (.error fault, db')) :
    db'.store = db.store ∧ db.supply.Later db'.supply := by
  obtain ⟨hstore, hlater⟩ := transact_eq_rollback h
  exact ⟨hstore.trans (hmade.reverts (.begin horderly)).rollback, hmade.later.trans hlater⟩

/-- A transaction leaves the store that its edit made, or the store there was before if it fails. -/
theorem transact_store {m : Material} (hmade : Edit.Made m db.begin (e.outcome db.begin).2)
    (horderly : db.store.Orderly) :
    db.supply.Later (db.transact e).2.supply ∧
      ((db.transact e).2.store = db.store ∨
        (e.Yields db.begin fun _ _ => True) ∧
          (db.transact e).2.store = (e.outcome db.begin).2.store) := by
  rcases hresult : db.transact e with ⟨fault | value, db'⟩
  · obtain ⟨hstore, hlater⟩ := transact_eq_error hmade horderly hresult
    exact ⟨hlater, .inl hstore⟩
  · obtain ⟨value', w, hrun, -, hstore, hlater⟩ := transact_eq_ok hresult
    rw [hrun] at hmade ⊢
    exact ⟨hmade.later.trans hlater, .inr ⟨⟨value', w, hrun, trivial⟩, hstore⟩⟩

/-- A commit does not change how a database was opened. -/
theorem opened_commit (db : Database) (w : Workspace) :
    (db.commit w).2.config = db.config ∧ (db.commit w).2.defaultBranch = db.defaultBranch := by
  rw [commit]
  split
  · rcases persist (db.resume w w.store).surroundings w.store with ⟨fault | _, after⟩ <;>
      exact ⟨rfl, rfl⟩
  · exact ⟨rfl, rfl⟩

/-- A transaction does not change how a database was opened. -/
theorem opened_transact (db : Database) (e : Edit α) :
    (db.transact e).2.config = db.config ∧ (db.transact e).2.defaultBranch = db.defaultBranch := by
  rw [transact]
  rcases hrun : e.run.run db.begin with ⟨fault | value, w⟩
  · exact ⟨rfl, rfl⟩
  · have hopened := opened_commit db w
    rcases hcommit : db.commit w with ⟨fault | _, db₁⟩ <;> simp only [hcommit] at hopened ⊢ <;>
      exact hopened

/-- A transaction is refused just when its edit does not go through. -/
theorem transact_refused_iff :
    (∃ fault, (db.transact e).1 = .error (.command fault)) ↔
      ¬e.Yields db.begin fun _ _ => True := by
  rw [transact]
  rcases hrun : e.outcome db.begin with ⟨fault | value, w⟩ <;>
    have hrun' : e.run.run db.begin = _ := hrun <;> simp only [hrun']
  · refine ⟨?_, fun _ => ⟨fault, rfl⟩⟩
    rintro - ⟨value, w', hrun'', -⟩
    cases hrun.symm.trans hrun''
  · have hyields : e.Yields db.begin fun _ _ => True := ⟨value, w, hrun, trivial⟩
    rcases hcommit : db.commit w with ⟨fault | _, db₁⟩ <;> simp [hyields]

/-- A transaction that does not go through leaves no trace in the store, in whatever way it ends. -/
structure RollsBack (db : Database) : Prop where
  /-- Undoing writes gives the store at the beginning, whichever were tried and accepted. -/
  undo : ∀ writes, (db.begin.transaction.attemptAll writes).rollback = db.store
  /-- So does ending a transaction without keeping its changes. -/
  rollback : ∀ w writes, w.transaction = db.begin.transaction.attemptAll writes →
    (db.rollback w).store = db.store
  /-- So does a commit that fails. -/
  commit : ∀ w writes, w.transaction = db.begin.transaction.attemptAll writes →
    ∀ fault db', db.commit w = (.error fault, db') → db'.store = db.store
  /-- So does an edit that is refused, if all it does to its transaction is to try writes. -/
  transact : ∀ (α : Type) (e : Edit α), e.Journaled →
    ∀ fault db', db.transact e = (.error fault, db') → db'.store = db.store
  /-- So does a command that fails. -/
  execute : ∀ command fault db', db.execute command = (.error fault, db') → db'.store = db.store

/-- Every orderly store survives transactions that do not go through, and what was built is orderly. -/
theorem rollsBack_of_orderly (db : Database) :
    (db.store.Built → db.store.Orderly) ∧ (db.store.Orderly → db.RollsBack) := by
  refine ⟨fun hbuilt => hbuilt.intact.orderly, fun h => ?_⟩
  have hundo (writes : List Write) :
      (db.begin.transaction.attemptAll writes).rollback = db.store :=
    ((Transaction.Reverts.begin h).attemptAll writes).rollback
  refine ⟨hundo, ?_, ?_, ?_, ?_⟩
  · intro w writes hwrites
    rw [Database.rollback, resume, hwrites]
    exact hundo writes
  · intro w writes hwrites fault db' hcommit
    rw [(commit_eq_error hcommit).2.1, hwrites]
    exact hundo writes
  · intro α e he fault db' hresult
    exact (transact_eq_error (he.made _) h hresult).1
  · intro command fault db' hresult
    exact (transact_eq_error (command.journaled_run.made _) h hresult).1

/-- A database with one table and one row in it that is kept in memory. -/
def oneRowInMemory : Database :=
  ⟨{}, .main, Store.oneRow, ⟨⟨fun _ => "", fun _ => ⟨0, 0⟩, 0, 0⟩, ⟨"", .absent, fun _ => false, 0⟩⟩⟩

/-- The table version is refused to be deleted as long as it is shown; then it is deleted with its
link, and another one comes in its place and holds another row. -/
def tableReplaced : Transaction :=
  oneRowInMemory.begin.transaction.attemptAll [.deleteTable ⟨"t"⟩,
    .disconnectTable ⟨"r"⟩ ⟨"t"⟩, .deleteTable ⟨"t"⟩,
    .createTable (.new ⟨"people"⟩ true ⟨"h"⟩ ⟨"t"⟩ ⟨1, 0⟩), .connectRow ⟨"t"⟩ ⟨"b"⟩]

/-- After all of it is undone the first table version is there again, with its own row. -/
theorem rollback_tableReplaced :
    oneRowInMemory.store.Orderly ∧ tableReplaced.store.tableRows.targets ⟨"t"⟩ = [⟨"b"⟩] ∧
      tableReplaced.rollback = oneRowInMemory.store ∧
      tableReplaced.rollback.tableRows.targets ⟨"t"⟩ = [⟨"a"⟩] := by
  obtain ⟨horderly, hrolls⟩ := rollsBack_of_orderly oneRowInMemory
  have h := horderly (.tried .empty _)
  have hundo : tableReplaced.rollback = oneRowInMemory.store := (hrolls h).undo _
  refine ⟨h, by decide +kernel, hundo, ?_⟩
  rw [hundo]
  decide +kernel

end Database

end VersionedTables
