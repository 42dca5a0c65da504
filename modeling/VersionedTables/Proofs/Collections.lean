import VersionedTables.Proofs.Edit.Overlooking
import VersionedTables.Proofs.Leaks
import VersionedTables.Proofs.Sight

/-!
# Collecting garbage makes no difference

Whether and when garbage is collected cannot be told from anything else that a database answers. Two
runs of the same commands, between which only garbage collections differ, get the same replies and the
same refusals, and afterwards every question about branches and revisions has the same answer
(`Database.Fresh.attend_collections`).

Collecting garbage keeps what is in sight (`Graph.SameSight`), and stores of runs in which the same is in
sight are twins (`Store.Sound.twins`). So every other command does the same in both
(`Database.Alike.execute`), while a garbage collection can be left out (`Database.Alike.collect`).

A command is given its readings of the clock and its disk by the `Occasion` it is run on, so that the
corresponding commands of two runs can be given the same. Identifiers need no such care, because
collecting garbage draws none.
-/

namespace VersionedTables

/-! ## Occasions -/

/-- What the world has ready when a command is run. -/
structure Occasion where
  /-- What the clock shows. -/
  clock : Nat → Instant
  /-- How often the clock was read before. -/
  readings : Nat := 0
  /-- Where a snapshot is kept. -/
  disk : Disk

/-- A command that only collects garbage. -/
def Command.collects : Command → Bool
  | .collectGarbage => true
  | _ => false

namespace Database

/-- A database on an occasion. It goes on drawing identifiers where it has got to. -/
def on (db : Database) (o : Occasion) : Database :=
  { db with surroundings := ⟨{ db.supply with clock := o.clock, readings := o.readings }, o.disk⟩ }

/-- Runs commands one after the other, each on its occasion. -/
def attend (db : Database) (steps : List (Occasion × Command)) : Database :=
  steps.foldl (fun db (o, command) => ((db.on o).execute command).2) db

/-- What the commands of a run answer, those apart that only collect garbage. -/
def replies (db : Database) : List (Occasion × Command) → List (Except DatabaseFault Reply)
  | [] => []
  | (o, command) :: rest =>
    let (result, db') := (db.on o).execute command
    if command.collects then db'.replies rest else result :: db'.replies rest

variable {α : Type} {db db' db'' : Database} {d : Debris} {w w' : Workspace} {command : Command}
  {o : Occasion} {steps steps' : List (Occasion × Command)}

@[simp] theorem attend_nil : db.attend [] = db := rfl

@[simp] theorem attend_cons :
    db.attend ((o, command) :: steps) = ((db.on o).execute command).2.attend steps := rfl

/-- Every run is one on occasions, those that come of themselves. -/
theorem exists_attend (db : Database) (commands : List Command) :
    ∃ steps : List (Occasion × Command), steps.map (·.2) = commands ∧
      db.attend steps = db.run commands := by
  induction commands generalizing db with
  | nil => exact ⟨[], rfl, rfl⟩
  | cons first rest ih =>
    obtain ⟨steps, hsteps, heq⟩ := ih (db.execute first).2
    refine ⟨(⟨db.supply.clock, db.supply.readings, db.surroundings.disk⟩, first) :: steps, ?_, heq⟩
    rw [List.map_cons, hsteps]

/-! ### What a transaction answers -/

/-- A commit draws no identifier. -/
theorem commit_supply (db : Database) (w : Workspace) :
    (db.commit w).2.supply.ids = w.supply.ids ∧ (db.commit w).2.supply.drawn = w.supply.drawn := by
  rw [commit]
  split
  · have hsupply : (persist (db.resume w w.store).surroundings w.store).2.supply =
        w.supply.readClock.2 := rfl
    rcases hpersist : persist (db.resume w w.store).surroundings w.store with ⟨fault | _, after⟩
    all_goals
      rw [hpersist] at hsupply
      change after.supply.ids = _ ∧ after.supply.drawn = _
      rw [show after.supply = w.supply.readClock.2 from hsupply]
      exact ⟨rfl, rfl⟩
  · exact ⟨rfl, rfl⟩

/-- A transaction draws the identifiers that its edit draws. -/
theorem transact_supply (db : Database) (e : Edit α) :
    (db.transact e).2.supply.ids = (e.outcome db.begin).2.supply.ids ∧
      (db.transact e).2.supply.drawn = (e.outcome db.begin).2.supply.drawn := by
  rcases hrun : e.outcome db.begin with ⟨fault | value, w⟩ <;>
    have hrun' : e.run.run db.begin = _ := hrun <;> simp only [transact, hrun']
  · exact ⟨rfl, rfl⟩
  · have hsupply := commit_supply db w
    rcases hcommit : db.commit w with ⟨fault | _, db₁⟩ <;> rw [hcommit] at hsupply <;> exact hsupply

/-- An edit that overlooks debris gets the same answer from twins. -/
theorem transact_overlooks {e : Edit α} {Q : α → Prop} (he : e.Overlooks d Q)
    (hbegin : db.begin.Twins d db'.begin) (hconfig : db'.config = db.config)
    (hdisk : db'.surroundings.disk = db.surroundings.disk) :
    (db'.transact e).1 = (db.transact e).1 := by
  obtain ⟨hsame, htwins, -⟩ := he hbegin
  rcases hrun : e.outcome db.begin with ⟨result, w⟩
  rcases hrun' : e.outcome db'.begin with ⟨result', w'⟩
  rw [hrun, hrun'] at hsame htwins
  obtain rfl : result' = result := hsame
  have hcommit : (db'.commit w').1 = (db.commit w).1 := by
    rw [commit_fst, commit_fst, persists, persists, hconfig, hdisk, htwins.transaction.journal_eq]
  have hrun₁ : e.run.run db.begin = _ := hrun
  have hrun₁' : e.run.run db'.begin = _ := hrun'
  rw [transact, transact, hrun₁, hrun₁']
  rcases result' with fault | value
  · rfl
  · rcases hdone : db.commit w with ⟨fault | _, db₁⟩ <;>
      rcases hdone' : db'.commit w' with ⟨fault' | _, db₁'⟩ <;>
      rw [hdone, hdone'] at hcommit <;> simp_all

/-! ### Databases in which the same is in sight -/

/-- The same is in sight in two databases, and they draw the same identifiers from now on. -/
structure Alike (db db' : Database) : Prop where
  config_eq : db'.config = db.config
  ids_eq : db'.supply.ids = db.supply.ids
  drawn_eq : db'.supply.drawn = db.supply.drawn
  sound : db.store.Sound db.supply
  sound' : db'.store.Sound db'.supply
  sweep_eq : db'.store.graph.sweep = db.store.graph.sweep

namespace Alike

theorem refl (h : db.store.Sound db.supply) : db.Alike db :=
  ⟨rfl, rfl, rfl, h, h, rfl⟩

theorem symm (h : db.Alike db') : db'.Alike db :=
  ⟨h.config_eq.symm, h.ids_eq.symm, h.drawn_eq.symm, h.sound', h.sound, h.sweep_eq.symm⟩

theorem trans (h : db.Alike db') (h' : db'.Alike db'') : db.Alike db'' :=
  ⟨h'.config_eq.trans h.config_eq, h'.ids_eq.trans h.ids_eq, h'.drawn_eq.trans h.drawn_eq, h.sound,
    h'.sound', h'.sweep_eq.trans h.sweep_eq⟩

end Alike

theorem supply_on (db : Database) (o : Occasion) :
    (db.on o).supply = ⟨db.supply.ids, o.clock, db.supply.drawn, o.readings⟩ := rfl

theorem sound_on (h : db.store.Sound db.supply) (o : Occasion) :
    (db.on o).store.Sound (db.on o).supply :=
  h.of_draws rfl rfl

namespace Alike

variable (h : db.Alike db')

include h

/-- The stores of two such databases are twins. -/
theorem twins : db.store.Twins (db.store.debris db.supply) db'.store :=
  h.sound.twins (h.sound'.of_draws h.ids_eq.symm h.drawn_eq.symm) (.of_sweep h.sweep_eq)

/-- On the same occasion they begin as twins. -/
theorem begin (o : Occasion) :
    (db.on o).begin.Twins (db.store.debris db.supply) (db'.on o).begin where
  transaction := ⟨h.twins, rfl⟩
  supply_eq := by
    change (db'.on o).supply = (db.on o).supply
    rw [supply_on, supply_on, h.ids_eq, h.drawn_eq]
  distinct := h.sound.distinct
  drawn := h.sound.uses_debris

/-- On the same occasion they answer the same, and the same is in sight afterwards. -/
theorem execute (hcommand : command ≠ .collectGarbage) (o : Occasion) :
    ((db'.on o).execute command).1 = ((db.on o).execute command).1 ∧
      ((db.on o).execute command).2.Alike ((db'.on o).execute command).2 := by
  have hbegin := h.begin o
  have hedit := Command.run_overlooks (d := db.store.debris db.supply) hcommand
  have hreply : ((db'.on o).execute command).1 = ((db.on o).execute command).1 :=
    transact_overlooks hedit hbegin h.config_eq rfl
  obtain ⟨hsame, hafter, -⟩ := hedit hbegin
  have hsupply := transact_supply (db.on o) command.run
  have hsupply' := transact_supply (db'.on o) command.run
  refine ⟨hreply, ?_, ?_, ?_, execute_sound (sound_on h.sound o) command,
    execute_sound (sound_on h.sound' o) command, ?_⟩
  · have hopened := (opened_transact (db.on o) command.run).1
    exact (opened_transact (db'.on o) command.run).1.trans (h.config_eq.trans hopened.symm)
  · exact hsupply'.1.trans ((congrArg Supply.ids hafter.supply_eq).trans hsupply.1.symm)
  · exact hsupply'.2.trans ((congrArg Supply.drawn hafter.supply_eq).trans hsupply.2.symm)
  · rcases hresult : (db.on o).execute command with ⟨fault | reply, db₁⟩ <;>
      rcases hresult' : (db'.on o).execute command with ⟨fault' | reply', db₁'⟩ <;>
      rw [hresult, hresult'] at hreply
    · -- A command that is refused leaves both as they were.
      rw [(execute_refused (sound_on h.sound o) hresult).1,
        (execute_refused (sound_on h.sound' o) hresult').1]
      exact h.sweep_eq
    · cases hreply
    · cases hreply
    · obtain ⟨value, w, hrun, -, hstore, -⟩ := transact_eq_ok hresult
      obtain ⟨value', w', hrun', -, hstore', -⟩ := transact_eq_ok hresult'
      rw [hrun, hrun'] at hafter
      rw [hstore, hstore']
      exact hafter.transaction.store.sameSight.sweep_eq

omit h in
/-- A garbage collection can be left out. -/
theorem collect (h : db.store.Sound db.supply) (o : Occasion) :
    ((db.on o).execute .collectGarbage).2.Alike db := by
  have hsound := sound_on h o
  have hsupply := transact_supply (db.on o) (Command.run .collectGarbage)
  have hdraws : ((Command.run .collectGarbage).outcome (db.on o).begin).2.supply =
      (db.on o).supply := by
    obtain ⟨report, w, hrun, -, hsupply, -⟩ :=
      Edit.collectGarbage_yields (w := (db.on o).begin) hsound.intact
    rw [Command.run, ← bind_pure_comp, Edit.outcome_bind, hrun]
    exact hsupply
  rw [hdraws] at hsupply
  refine ⟨(opened_transact (db.on o) (Command.run .collectGarbage)).1.symm, hsupply.1.symm,
    hsupply.2.symm, execute_sound hsound _, h, ?_⟩
  rcases hresult : (db.on o).execute .collectGarbage with ⟨fault | reply, db₁⟩
  · rw [(execute_refused hsound hresult).1]
    rfl
  · obtain ⟨-, -, hgraph, -⟩ := execute_collectGarbage hsound hresult
    rw [hgraph]
    exact Graph.sweep_sweep.symm

end Alike

/-! ### Runs -/

/-- Garbage collections can be left out of a run. -/
theorem Alike.attend (h : db.Alike db') (steps : List (Occasion × Command)) :
    db'.replies (steps.filter fun step => !step.2.collects) = db.replies steps ∧
      (db.attend steps).Alike (db'.attend (steps.filter fun step => !step.2.collects)) := by
  induction steps generalizing db db' with
  | nil => exact ⟨rfl, h⟩
  | cons first rest ih =>
    obtain ⟨o, command⟩ := first
    rcases hcollects : command.collects with _ | _
    · have hcommand : command ≠ .collectGarbage := by
        rintro rfl
        cases hcollects
      obtain ⟨hreply, hafter⟩ := h.execute hcommand o
      obtain ⟨hreplies, hrest⟩ := ih hafter
      rw [List.filter_cons_of_pos (by simp [hcollects]), replies, replies]
      simp only [hcollects, Bool.false_eq_true, if_false]
      exact ⟨by rw [hreply, hreplies], hrest⟩
    · obtain rfl : command = .collectGarbage := by
        cases command <;> first | rfl | cases hcollects
      obtain ⟨hreplies, hrest⟩ := ih ((collect h.sound o).trans h)
      rw [List.filter_cons_of_neg (by simp [hcollects]), replies]
      simp only [hcollects, if_true]
      exact ⟨hreplies, hrest⟩

/-- Every question about branches and revisions has the same answer. -/
structure SameAnswers (db db' : Database) : Prop where
  /-- The head and the draft of a branch are the same. -/
  revisionInRole : ∀ branch role, db'.revisionInRole branch role = db.revisionInRole branch role
  revision : ∀ id, db'.revision id = db.revision id
  tables : ∀ revision, db'.tables revision = db.tables revision
  table : ∀ revision name, db'.table revision name = db.table revision name
  rows : ∀ revision table, db'.rows revision table = db.rows revision table
  row : ∀ revision table name, db'.row revision table name = db.row revision table name
  history : ∀ branch limit, db'.history branch limit = db.history branch limit
  diff : ∀ before after, db'.diff before after = db.diff before after
  /-- There are as many branches. -/
  branches : db'.stats.branches = db.stats.branches
  /-- There are as many revisions. -/
  revisions : db'.stats.revisions = db.stats.revisions

/-- What is asked for is answered by what is in sight. -/
theorem sameAnswers (h : db.store.Twins d db'.store) : db.SameAnswers db' where
  revisionInRole branch role := by simp only [Database.revisionInRole, h.findRevision_eq]
  revision id := by rw [Database.revision, h.revision?_eq, Database.revision]
  tables revision := by
    simp only [Database.tables, Database.revision, h.revision?_eq, h.tablesOf_eq]
  table revision name := by rw [Database.table, h.findTable_eq, Database.table]
  rows revision table := by
    simp only [Database.rows, Database.table, h.findTable_eq]
    rcases hfound : db.store.findTable revision table with _ | record
    · rfl
    · exact congrArg Except.ok (h.rowsOf_eq (h.seen_of_findTable hfound).1)
  row revision table name := by
    simp only [Database.row, Database.table, h.findTable_eq]
    rcases hfound : db.store.findTable revision table with _ | record
    · rfl
    · exact congrArg (found _) (h.findRow_eq (h.seen_of_findTable hfound).1 name)
  history branch limit := by simp only [Database.history, h.history_eq]
  diff before after := by
    simp only [Database.diff, Database.revision, h.revision?_eq, h.diff_eq]
  branches := by simp only [stats, Store.branchList, h.branches_eq]
  revisions := by simp only [stats, Store.branchList, h.branches_eq, h.branchRevisions_eq]

/-- Of two runs that differ in garbage collections only, each other command gets the same answer, and so
does every question afterwards. -/
theorem Fresh.attend_collections (h : db.Fresh)
    (hsteps : steps.filter (fun step => !step.2.collects) =
      steps'.filter fun step => !step.2.collects) :
    db.replies steps' = db.replies steps ∧ (db.attend steps).SameAnswers (db.attend steps') := by
  obtain ⟨hreplies, halike⟩ := (Alike.refl h.sound).attend steps
  obtain ⟨hreplies', halike'⟩ := (Alike.refl h.sound).attend steps'
  rw [← hsteps] at hreplies' halike'
  have hboth := halike.trans halike'.symm
  exact ⟨hreplies'.symm.trans hreplies, sameAnswers hboth.twins⟩

/-- An occasion on which the clock stands still, and there is no disk to speak of. -/
def uneventful : Occasion :=
  ⟨fun _ => ⟨0, 0⟩, 0, ⟨"", .absent, fun _ => false, 0⟩⟩

/-- A published table is renamed and put back, which leaves a copy behind that holds its row. After some
more commands the row is taken out. -/
def renamedAndReverted (between : List Command) : List (Occasion × Command) :=
  ([.createBranch "main" none, .createTable ⟨"ii"⟩ "users" false,
    .createRows ⟨"ii"⟩ "users" [⟨"ada", .null, none, none, none⟩], .commit ⟨"main"⟩ none,
    .renameTable ⟨"iiiiiii"⟩ "users" "people", .revert ⟨"main"⟩] ++ between ++
    [.removeRows ⟨"iiiiiii"⟩ "users" ["ada"]] : List Command).map (uneventful, ·)

/-- Whether the copy is collected first makes no difference to taking out the row. -/
theorem collections_renamedAndReverted :
    (inMemory (.unary fun _ => ⟨0, 0⟩)).replies (renamedAndReverted [.collectGarbage]) =
        (inMemory (.unary fun _ => ⟨0, 0⟩)).replies (renamedAndReverted []) ∧
      ((inMemory (.unary fun _ => ⟨0, 0⟩)).attend (renamedAndReverted [])).SameAnswers
        ((inMemory (.unary fun _ => ⟨0, 0⟩)).attend (renamedAndReverted [.collectGarbage])) ∧
      ((inMemory (.unary fun _ => ⟨0, 0⟩)).attend (renamedAndReverted [])).stats = ⟨1, 3, 3, 1⟩ ∧
      ((inMemory (.unary fun _ => ⟨0, 0⟩)).attend
        (renamedAndReverted [.collectGarbage])).stats = ⟨1, 3, 2, 1⟩ := by
  have hsteps : (renamedAndReverted []).filter (fun step => !step.2.collects) =
      (renamedAndReverted [.collectGarbage]).filter fun step => !step.2.collects := rfl
  obtain ⟨hreplies, hanswers⟩ := Fresh.attend_collections
    (fresh_inMemory (Supply.distinct_unary fun _ => ⟨0, 0⟩)) hsteps
  exact ⟨hreplies, hanswers, by decide +kernel, by decide +kernel⟩

end Database

end VersionedTables
