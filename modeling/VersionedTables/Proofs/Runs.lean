import VersionedTables.Proofs.Effects

/-!
# Runs

A run is a list of commands, carried out one after the other on a database that was empty at first
(`Database.run`, `Database.Fresh`). Commands may fail, and the run goes on. Identifiers never
repeat, and nothing is asked of the clock or of the disk.

One command either changes nothing or has its effect (`Database.execute_refused`,
`Database.execute_effect`). So every store that a run can lead to is sound (`Database.run_sound`),
and what is true of sound stores is true of all of them.
-/

namespace VersionedTables

/-- Texts that differ in their lengths, one for each number. -/
def Supply.unary (clock : Nat → Instant) : Supply :=
  ⟨fun n => String.ofList (List.replicate (n + 1) 'i'), clock, 0, 0⟩

/-- A supply can be without repetitions. -/
theorem Supply.distinct_unary (clock : Nat → Instant) : (unary clock).Distinct := by
  intro m n hsame
  have hlength := congrArg List.length (String.ofList_injective hsame)
  rw [List.length_replicate, List.length_replicate] at hlength
  omega

namespace Database

/-- Nothing was committed so far, and no identifier will be drawn twice. -/
structure Fresh (db : Database) : Prop where
  store_eq : db.store = ∅
  distinct : db.supply.Distinct

/-- A database with nothing in it that is kept in memory. -/
def inMemory (supply : Supply) : Database :=
  ⟨{}, .main, ∅, ⟨supply, ⟨"", .absent, fun _ => false, 0⟩⟩⟩

theorem fresh_inMemory {supply : Supply} (h : supply.Distinct) : (inMemory supply).Fresh :=
  ⟨rfl, h⟩

/-- Runs commands one after the other, whether they fail or not. -/
def run (db : Database) (commands : List Command) : Database :=
  commands.foldl (fun db command => (db.execute command).2) db

variable {db db' : Database} {command : Command} {commands : List Command} {reply : Reply}

@[simp] theorem run_nil : db.run [] = db := rfl

@[simp] theorem run_cons : db.run (command :: commands) = (db.execute command).2.run commands := rfl

theorem run_append (db : Database) (first second : List Command) :
    db.run (first ++ second) = (db.run first).run second :=
  List.foldl_append

/-! ## One command -/

/-- A command that fails changes nothing. -/
theorem execute_refused (h : db.store.Sound db.supply) {fault : DatabaseFault}
    (hresult : db.execute command = (.error fault, db')) :
    db'.store = db.store ∧ db.supply.Later db'.supply :=
  transact_eq_error (command.journaled_run.made _) h.intact.orderly hresult

/-- That a command succeeded shows that it was allowed. -/
theorem allows_of_execute (h : db.store.Sound db.supply)
    (hresult : db.execute command = (.ok reply, db')) : db.begin.Allows command :=
  (Command.yields_iff h).mp ((transact_eq_ok hresult).imp fun _ _ _ => trivial)

/-- A command that succeeds has its effect. -/
theorem execute_effect (h : db.store.Sound db.supply)
    (hresult : db.execute command = (.ok reply, db')) :
    ∃ w, Effect db.begin w command reply ∧ db'.store = w.store ∧ w.supply.Later db'.supply := by
  obtain ⟨value, w, -, ⟨rfl, hstore, hlater⟩, heffect⟩ :=
    (transact_eq_ok hresult).and (Command.run_effect h (allows_of_execute h hresult))
  exact ⟨w, heffect, hstore, hlater⟩

/-- A command leaves the store as it is or makes a step on its branch. -/
theorem execute_step (h : db.store.Sound db.supply) (command : Command) :
    ((db.execute command).2.store = db.store ∧ db.supply.Later (db.execute command).2.supply) ∨
      ∃ w, Step db.begin (command.branch? db.store) w ∧ (db.execute command).2.store = w.store ∧
        w.supply.Later (db.execute command).2.supply := by
  rcases hresult : db.execute command with ⟨fault | reply, db'⟩
  · exact .inl (execute_refused h hresult)
  · obtain ⟨w, heffect, hstore, hlater⟩ := execute_effect h hresult
    exact .inr ⟨w, heffect.step, hstore, hlater⟩

theorem execute_sound (h : db.store.Sound db.supply) (command : Command) :
    (db.execute command).2.store.Sound (db.execute command).2.supply := by
  rcases execute_step h command with ⟨hstore, hlater⟩ | ⟨w, hstep, hstore, hlater⟩
  · rw [hstore]
    exact h.later hlater
  · rw [hstore]
    exact hstep.sound.later hlater

/-! ## Many commands -/

/-- What each of some commands keeps is kept when they are run. -/
theorem run_induction {P : Database → Prop}
    (hstep : ∀ {db : Database}, ∀ command ∈ commands, P db → P (db.execute command).2) (h : P db) :
    P (db.run commands) := by
  induction commands generalizing db with
  | nil => exact h
  | cons first rest ih =>
    exact ih (fun command hmem => hstep command (List.mem_cons_of_mem _ hmem))
      (hstep first List.mem_cons_self h)

theorem run_sound (h : db.store.Sound db.supply) (commands : List Command) :
    (db.run commands).store.Sound (db.run commands).supply :=
  run_induction (P := fun db => db.store.Sound db.supply) (fun command _ h => execute_sound h command) h

/-- What every step keeps is kept by a run. -/
theorem run_keeps {P : Graph → Prop}
    (hstep : ∀ {w w' : Workspace} {branch : Option BranchName}, w.Sound → Step w branch w' →
      P w.graph → P w'.graph)
    (h : db.store.Sound db.supply) (hstart : P db.store.graph) (commands : List Command) :
    P (db.run commands).store.graph := by
  refine (run_induction (P := fun db => db.store.Sound db.supply ∧ P db.store.graph) ?_
    ⟨h, hstart⟩).2
  rintro db command - ⟨h, hkept⟩
  refine ⟨execute_sound h command, ?_⟩
  rcases execute_step h command with ⟨hstore, -⟩ | ⟨w, hw, hstore, -⟩
  · rwa [hstore]
  · rw [hstore]
    exact hstep h hw hkept

/-- A database that is fresh is sound. -/
theorem Fresh.sound (h : db.Fresh) : db.store.Sound db.supply := by
  rw [h.store_eq]
  exact Store.sound_empty h.distinct

/-- What a run from a fresh database leads to is sound. -/
theorem Fresh.run_sound (h : db.Fresh) (commands : List Command) :
    (db.run commands).store.Sound (db.run commands).supply :=
  Database.run_sound h.sound commands

/-- A run does not change how a database was opened. -/
theorem opened_run (db : Database) (commands : List Command) :
    (db.run commands).config = db.config ∧ (db.run commands).defaultBranch = db.defaultBranch := by
  refine run_induction (P := fun after => after.config = db.config ∧
    after.defaultBranch = db.defaultBranch) ?_ ⟨rfl, rfl⟩
  rintro before command - ⟨hconfig, hdefault⟩
  obtain ⟨hconfig', hdefault'⟩ := opened_transact before command.run
  exact ⟨hconfig'.trans hconfig, hdefault'.trans hdefault⟩

/-! ## Opening -/

variable {config : Config} {surroundings : Surroundings}

/-- A database is opened with the store that is on the disk. Only when its default branch is missing
does it do something. -/
theorem openWith_eq {name : BranchName} {s : Store}
    (hparse : BranchName.parse config.defaultBranch = .ok name)
    (hstore : initialStore config surroundings.disk = .ok s) :
    openWith config surroundings =
      if (s.branch? name).isSome then .ok ⟨config, name, s, surroundings⟩
      else match (⟨config, name, s, surroundings⟩ : Database).execute
          (.createBranch name.text none) with
        | (.ok _, db) => .ok db
        | (.error fault, db) => .error (fault, db.surroundings) := by
  rw [openWith]
  simp only [hparse, hstore, Except.mapError, bind, Except.bind]
  rcases s.branch? name with _ | branch
  · rfl
  · rfl

/-- What can be wrong before there is a database leaves the surroundings as they are. -/
theorem openWith_cases (config : Config) (surroundings : Surroundings) :
    (∃ fault, openWith config surroundings = .error (fault, surroundings)) ∨
      ∃ name s, BranchName.parse config.defaultBranch = .ok name ∧
        initialStore config surroundings.disk = .ok s := by
  rcases hparse : BranchName.parse config.defaultBranch with cause | name
  · refine .inl ⟨.badDefaultBranch config.defaultBranch cause, ?_⟩
    simp [openWith, hparse, Except.mapError, bind, Except.bind]
  rcases hstore : initialStore config surroundings.disk with fault | s
  · refine .inl ⟨fault, ?_⟩
    simp [openWith, hparse, hstore, Except.mapError, bind, Except.bind]
  · exact .inr ⟨name, s, rfl, rfl⟩

/-- A database that was opened has run one command at most: it has created its default branch, if that
was missing. -/
theorem openWith_eq_run (hopen : openWith config surroundings = .ok db) :
    ∃ s, initialStore config surroundings.disk = .ok s ∧
      db = (⟨config, db.defaultBranch, s, surroundings⟩ : Database).run
        (if (s.branch? db.defaultBranch).isSome then []
          else [.createBranch db.defaultBranch.text none]) := by
  rcases openWith_cases config surroundings with ⟨fault, herror⟩ | ⟨name, s, hparse, hstore⟩
  · rw [herror] at hopen
    cases hopen
  refine ⟨s, hstore, ?_⟩
  rw [openWith_eq hparse hstore] at hopen
  by_cases hstored : (s.branch? name).isSome
  · rw [if_pos hstored] at hopen
    cases hopen
    rw [if_pos hstored, run_nil]
  · rw [if_neg hstored] at hopen
    have hopened := opened_transact ⟨config, name, s, surroundings⟩
      (Command.createBranch name.text none).run
    rcases hresult : (⟨config, name, s, surroundings⟩ : Database).execute
      (.createBranch name.text none) with ⟨fault | reply, db₁⟩ <;> rw [hresult] at hopen <;>
      cases hopen
    rw [execute] at hresult
    rw [hresult] at hopened
    rw [hopened.2, if_neg hstored, run_cons, run_nil, execute, hresult]

end Database

end VersionedTables
