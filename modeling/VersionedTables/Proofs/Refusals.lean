import VersionedTables.Proofs.Runs

/-!
# What commands are refused for

A command on a sound store is never refused for an internal reason (`Command.outcome_refused`). It
would have admitted its request then, so its request would be in order; but a request that is in order
goes through. No write has to be looked at again for this: what the writes of a command need was shown
when it was shown what they do.

A request to a database that is kept in memory is therefore carried out, or refused for its own sake,
wherever a run has led to (`Database.Fresh.run_answered`).
-/

namespace VersionedTables

/-- What refuses a command on a sound store is the request's fault. -/
theorem Command.outcome_refused {w w' : Workspace} {command : Command} {fault : CommandFault}
    (h : w.Sound) (hrun : command.run.outcome w = (.error fault, w')) : fault.isInternal = false := by
  refine Bool.eq_false_iff.mpr fun hinternal => ?_
  have hadmits : command.run.Admits w fun _ _ => True := by rwa [Edit.Admits, hrun]
  obtain ⟨reply, w'', hyields, -⟩ := run_effect h (allows_of_admits h hadmits)
  cases hrun.symm.trans hyields

namespace Database

variable {db db' : Database} {command : Command}

/-- A request was carried out, or refused for its own sake. -/
def Answered {α : Type} (result : Except DatabaseFault α) : Prop :=
  ∀ fault, result = .error fault → ∃ cause, fault = .command cause ∧ cause.isInternal = false

/-- What refuses a transaction refused its edit, unless it is the disk. -/
theorem transact_fault {α : Type} {e : Edit α} {fault : DatabaseFault}
    (h : db.transact e = (.error fault, db')) :
    (∃ cause w, fault = .command cause ∧ e.outcome db.begin = (.error cause, w)) ∨
      db.config.onDisk = true := by
  rw [transact] at h
  rcases hrun : e.outcome db.begin with ⟨cause | value, w⟩ <;>
    have hrun' : e.run.run db.begin = _ := hrun <;> simp only [hrun'] at h
  · cases h
    exact .inl ⟨cause, w, rfl, rfl⟩
  · rcases hcommit : db.commit w with ⟨fault' | _, db₁⟩ <;> simp only [hcommit] at h
    · exact .inr (commit_eq_error hcommit).1
    · cases h

/-- A command in memory is answered. -/
theorem execute_answered (h : db.store.Sound db.supply) (hmemory : db.config.onDisk = false)
    (command : Command) : Answered (db.execute command).1 := by
  intro fault hfault
  rcases transact_fault (Prod.ext hfault rfl : db.execute command = (.error fault, _)) with
    ⟨cause, w, rfl, hrun⟩ | hdisk
  · exact ⟨cause, rfl, Command.outcome_refused h hrun⟩
  · exact absurd (hmemory.symm.trans hdisk) Bool.false_ne_true

/-- A command that is not allowed is refused for its own sake, and changes nothing. -/
theorem execute_of_not_allows (h : db.store.Sound db.supply) (hnot : ¬db.begin.Allows command) :
    ∃ fault db', db.execute command = (.error (.command fault), db') ∧ fault.isInternal = false ∧
      db'.store = db.store := by
  rcases hrun : command.run.outcome db.begin with ⟨fault | reply, w⟩
  · have hrun' : command.run.run.run db.begin = (.error fault, w) := hrun
    have hresult : db.execute command = (.error (.command fault), db.rollback w) := by
      rw [execute, transact]
      simp only [hrun']
    exact ⟨fault, _, hresult, Command.outcome_refused h hrun, (execute_refused h hresult).1⟩
  · exact absurd ((Command.yields_iff h).mp ⟨reply, w, hrun, trivial⟩) hnot

/-- So is one that names its branch by a text. -/
theorem answered_parseBranch {α : Type} {branch : String}
    {answer : BranchName → Except DatabaseFault α × Database} (h : ∀ name, Answered (answer name).1) :
    Answered (match parseBranch branch with
      | .ok name => answer name
      | .error fault => (.error fault, db)).1 := by
  rw [parseBranch]
  rcases BranchName.parse branch with cause | name
  · rintro _ ⟨⟩
    exact ⟨_, rfl, rfl⟩
  · exact h name

/-- After a run in memory from a fresh database, whatever is asked is answered: the store never has to
find fault with itself. -/
theorem Fresh.run_answered (h : db.Fresh) (hmemory : db.config.onDisk = false)
    (commands : List Command) :
    (∀ command, Answered ((db.run commands).execute command).1) ∧
      (∀ branch comment, Answered ((db.run commands).commitBranch branch comment).1) ∧
      ∀ branch, Answered ((db.run commands).revertBranch branch).1 := by
  have hexecute (command : Command) : Answered ((db.run commands).execute command).1 :=
    execute_answered (h.run_sound commands) (by rwa [(opened_run db commands).1]) command
  exact ⟨hexecute, fun _ _ => answered_parseBranch fun _ => hexecute _,
    fun _ => answered_parseBranch fun _ => hexecute _⟩

/-- A table with a row is committed and then removed from the next draft. -/
def tableRemovedInMemory : List Command :=
  [.createBranch "main" none, .createTable ⟨"ii"⟩ "users" false,
    .createRows ⟨"ii"⟩ "users" [⟨"ada", .null, none, none, none⟩], .commit ⟨"main"⟩ none,
    .removeTable ⟨"iiiiiii"⟩ "users"]

/-- A row of a table that is gone cannot be removed, for want of the table; nor can a branch be
committed that is not there. -/
theorem run_answered_tableRemoved :
    (((inMemory (.unary fun _ => ⟨0, 0⟩)).run tableRemovedInMemory).execute
        (.removeRows ⟨"iiiiiii"⟩ "users" ["ada"])).1 =
      .error (.command (.tableNotFound "users" ⟨"iiiiiii"⟩)) ∧
    Answered (((inMemory (.unary fun _ => ⟨0, 0⟩)).run tableRemovedInMemory).execute
      (.removeRows ⟨"iiiiiii"⟩ "users" ["ada"])).1 ∧
    Answered (((inMemory (.unary fun _ => ⟨0, 0⟩)).run tableRemovedInMemory).commitBranch
      "nowhere" none).1 := by
  obtain ⟨hexecute, hcommit, -⟩ := Fresh.run_answered
    (fresh_inMemory (Supply.distinct_unary fun _ => ⟨0, 0⟩)) rfl tableRemovedInMemory
  exact ⟨by decide +kernel, hexecute _, hcommit _ _⟩

end Database

end VersionedTables
