import VersionedTables.Proofs.Mirror
import VersionedTables.Proofs.Snapshot.Loading
import VersionedTables.Proofs.Undoing

/-!
# Databases that can be opened again

A file that is accepted may have been written elsewhere, so opening a database does not make its store
intact. Two things that the check does not look at matter later on. A table version may have an entry
among the links although it holds no row. When it is deleted its links are dropped one by one, so the
entry stays, and what is written then is refused (`Database.unreadable_emptyTable`). And a version may be
kept under the identifier of another one. When it was deleted and this is undone, it goes where its own
identifier says, and a link may still lead to where it was (`Database.damaged_foreignRows`).

Where neither is the case (`Store.WellKept`), every run of commands leaves a store that passes the check,
and what is written of it can be opened again (`Database.reopenable_run`). Branches and revisions may be
kept under any identifier, and revisions may have entries without links.
-/

namespace VersionedTables

/-! ## Stores that are well kept -/

namespace Store

variable {s : Store} {path text : String}

/-- What a store that passed the check needs besides. -/
structure WellKept (s : Store) : Prop where
  /-- No table version has an entry among the links without holding a row version. -/
  tableRows : s.tableRows.forward.Canonical
  /-- A table version is kept under its identifier. -/
  table_eq : ∀ {version record}, s.table? version = some record → record.version = version
  /-- A row version is kept under its identifier. -/
  row_eq : ∀ {version record}, s.row? version = some record → record.version = version

/-- An accepted store that is well kept is sturdy. -/
theorem WellKept.sturdy (h : s.WellKept) (haccepted : ofSnapshotText path text = .ok s) :
    s.Sturdy := by
  obtain ⟨-, hundamaged⟩ := ofSnapshotText_eq_ok haccepted
  obtain ⟨hrevisionTables, htableRows⟩ := links_of_ofSnapshotText haccepted
  exact
    { revisionTables := hrevisionTables ▸ Links.mirrored_ofForward _
      tableRows := htableRows ▸ Links.tidy_ofForward h.tableRows
      table_eq := h.table_eq
      row_eq := h.row_eq
      shower_exists := hundamaged.shower_exists
      shown_exists := hundamaged.shown_exists
      holder_exists := fun hholds => hundamaged.holder_exists (Side.mem_of_holds hholds)
      held_exists := hundamaged.held_exists }

/-- What is read back of a sturdy store is well kept. -/
theorem Sturdy.wellKept_reread (h : s.Sturdy) : s.reread.WellKept where
  tableRows := h.tableRows.forward
  table_eq := h.table_eq
  row_eq hrecord := by
    obtain ⟨record, hstored, rfl⟩ := of_row?_withoutNullNotes hrecord
    exact (h.row_eq hstored :)

end Store

/-! ## Commands -/

/-- Undoing a command leaves at most revisions of branches that were there on top. A command that
creates a branch replaces no revision, and the others create none. -/
theorem Command.recedes_run {w : Workspace} {s : Store} (hw : w.transaction = ⟨s, []⟩)
    (hsturdy : s.Sturdy) (hhoused : s.Housed) (command : Command) :
    ∃ extra : Revision → Prop, (∀ record, extra record → (s.branch? record.branch).isSome) ∧
      (command.run.outcome w).2.transaction.Recedes extra s := by
  have hbegin (extra : Revision → Prop) : w.transaction.Recedes extra s := hw ▸ .begin hsturdy
  by_cases hcreates : ∃ name, command.Creates name
  · refine ⟨fun _ => False, fun _ => False.elim, ?_⟩
    have htries : command.run.Tries Edit.SparesRevisions := by
      obtain ⟨name, hname⟩ := hcreates
      cases command with
      | createBranch branch source => exact (Edit.tries_createBranch branch source).map _
      | _ => exact hname.elim
    obtain ⟨writes, hwrites, heq⟩ := htries w
    rw [heq]
    exact Transaction.attemptAll_keeps (·.Recedes (fun _ => False) s) Edit.SparesRevisions
      (fun hwrite ht hok => ht.perform (fun record heq => (hwrite record heq).elim) hok) hwrites
      (hbegin _)
  · refine ⟨(·.MadeOf (.housing s command)), fun record hrecord => ?_, ?_⟩
    · exact hrecord.branch.resolve_right fun hname => hcreates ⟨_, hname⟩
    · have hstore : w.store = s := congrArg Transaction.store hw
      have hmade : w.MadeOf (.housing s command) :=
        ⟨hstore ▸ hhoused.madeOf command, fun _ => trivial⟩
      exact (makes_run (command.madeOf_housing s) hmade).1.recedes hmade (hbegin _)

namespace Database

variable {α : Type} {db db' : Database} {command : Command} {commands : List Command}

/-! ## Stores that stay sturdy -/

theorem sturdy_execute (h : db.store.Sturdy) (hhoused : db.store.Housed) (command : Command) :
    (db.execute command).2.store.Sturdy ∧ (db.execute command).2.store.Housed := by
  obtain ⟨extra, hextra, hrecedes⟩ :=
    Command.recedes_run (w := db.begin) rfl h hhoused command
  rcases hresult : db.execute command with ⟨fault | reply, db'⟩
  · rw [(transact_eq_rollback hresult).1]
    exact ⟨hrecedes.rollback.sturdy h, hrecedes.rollback.housed hhoused hextra⟩
  · obtain ⟨value, w, hrun, -, hstore, -⟩ := transact_eq_ok hresult
    have hyields : command.run.Yields db.begin fun _ _ => True := ⟨value, w, hrun, trivial⟩
    obtain ⟨value', w', hrun', hhoused'⟩ := Command.housed_run (w := db.begin) hhoused hyields
    rw [hrun] at hrecedes hrun'
    cases hrun'
    rw [hstore]
    exact ⟨hrecedes.sturdy, hhoused'⟩

/-- What a command has committed is made of what was there, of the clock and of the command. -/
theorem madeOf_execute_ok {m : Material} (hmade : db.begin.MadeOf m) (hcommand : command.MadeOf m)
    {reply : Reply} (hresult : db.execute command = (.ok reply, db')) : db'.begin.MadeOf m := by
  have hafter := (Command.makes_run hcommand hmade).1.madeOf hmade
  obtain ⟨value, w, hrun, -, hstore, hlater⟩ := transact_eq_ok hresult
  rw [hrun] at hafter
  refine ⟨?_, fun n => ?_⟩
  · change db'.store.MadeOf m
    rw [hstore]
    exact hafter.store
  · change m.time (db'.supply.clock n)
    rw [hlater.clock]
    exact hafter.clock n

/-- So is what is left if it was undone, though what is left may not be what was there. -/
theorem madeOf_execute {m : Material} (h : db.store.Sturdy) (hmade : db.begin.MadeOf m)
    (hcommand : command.MadeOf m) : (db.execute command).2.begin.MadeOf m := by
  rcases hresult : db.execute command with ⟨fault | reply, db'⟩
  · have hmakes := (Command.makes_run hcommand hmade).1
    obtain ⟨hstore, hlater⟩ := transact_eq_rollback hresult
    refine ⟨?_, fun n => ?_⟩
    · change db'.store.MadeOf m
      rw [hstore]
      exact (hmakes.recedes hmade (.begin h)).rollback.madeOf hmade.store
    · change m.time (db'.supply.clock n)
      rw [hlater.clock]
      exact (hmakes.madeOf hmade).clock n
  · exact madeOf_execute_ok hmade hcommand hresult

/-- Sturdy stores with the branches of all their revisions are left by every run. -/
theorem sturdy_run (h : db.store.Sturdy) (hhoused : db.store.Housed) (commands : List Command) :
    (db.run commands).store.Sturdy ∧ (db.run commands).store.Housed := by
  refine run_induction (P := fun db => db.store.Sturdy ∧ db.store.Housed) ?_ ⟨h, hhoused⟩
  rintro db command - ⟨h, hhoused⟩
  exact sturdy_execute h hhoused command

/-! ## Files that can be read -/

/-- The file of a database is accepted, and what is read from it is well kept and comes back again. -/
def Readable (db : Database) : Prop :=
  ∃ s, load db.disk = .ok s ∧ s.WellKept ∧ s.MadeOf .storable

theorem Readable.congr (h : db.Readable) (hentry : db'.disk.entry = db.disk.entry) :
    db'.Readable := by
  obtain ⟨s, hload, hs⟩ := h
  refine ⟨s, ?_, hs⟩
  rw [load, Disk.isPresent, Disk.read] at hload ⊢
  rw [hentry]
  rcases hdisk : db.disk.entry with _ | text | _ <;> rw [hdisk] at hload
  · exact hload
  · exact Store.ofSnapshotText_congr hload db'.disk.path
  · cases hload

/-- What was written of a store is read back, unless it is damaged. -/
theorem load_eq_of_written (hmade : db.begin.MadeOf .storable) {disk : Disk} {n : Nat}
    (hentry : disk.entry = .file (db.store.snapshotText (db.supply.clock n))) :
    load disk = match db.store.damage? with
      | some damage => .error (.damaged disk.path damage)
      | none => .ok db.store.reread := by
  rw [load_eq_of_entry hentry]
  exact Store.ofSnapshotText_snapshotText hmade.store (hmade.clock n) disk.path

/-- What was written of a sturdy store is read back. -/
theorem readable_of_written (h : db.store.Sturdy) (hhoused : db.store.Housed)
    (hmade : db.begin.MadeOf .storable) {n : Nat}
    (hentry : db'.disk.entry = .file (db.store.snapshotText (db.supply.clock n))) :
    db'.Readable ∧ load db'.disk = .ok db.store.reread := by
  have hload : load db'.disk = .ok db.store.reread := by
    rw [load_eq_of_written hmade hentry, h.damage?_eq_none_iff.mpr hhoused]
  exact ⟨⟨_, hload, h.wellKept_reread, hmade.store.reread⟩, hload⟩

/-- A transaction leaves the file as it is, or writes the store that it leaves. -/
theorem entry_transact (db : Database) (e : Edit α) :
    (db.transact e).2.disk.entry = db.disk.entry ∨
      ∃ n, (db.transact e).2.disk.entry =
        .file ((db.transact e).2.store.snapshotText ((db.transact e).2.supply.clock n)) := by
  rcases hresult : db.transact e with ⟨fault | value, db'⟩
  · exact .inl (entry_transact_error hresult)
  · have hdisk := disk_transact_ok hresult
    split at hdisk
    · exact .inr hdisk
    · exact .inl (congrArg Disk.entry hdisk)

/-- A database whose file can be opened, as it is and once it was saved. -/
structure Reopenable (db : Database) : Prop where
  /-- The file is accepted. -/
  readable : db.Readable
  /-- So is the snapshot that is written next, and nothing but notes that are null is lost. -/
  saved : ∀ db', db.save = (.ok (), db') → db'.Readable ∧ load db'.disk = .ok db.store.reread

/-- A database with a sturdy store that comes back from snapshots, and with a file that can be read. -/
structure Durable (db : Database) : Prop where
  /-- The store is sturdy. -/
  sturdy : db.store.Sturdy
  /-- The branch of every revision is there. -/
  housed : db.store.Housed
  /-- All that is written comes back. -/
  madeOf : db.begin.MadeOf .storable
  /-- The file can be read. -/
  readable : db.Readable

namespace Durable

theorem execute (h : db.Durable) (hcommand : command.MadeOf .storable) :
    (db.execute command).2.Durable := by
  obtain ⟨hsturdy, hhoused⟩ := sturdy_execute h.sturdy h.housed command
  have hmade := madeOf_execute h.sturdy h.madeOf hcommand
  refine ⟨hsturdy, hhoused, hmade, ?_⟩
  rcases entry_transact db command.run with hentry | ⟨n, hentry⟩
  · exact h.readable.congr hentry
  · exact (readable_of_written hsturdy hhoused hmade hentry).1

theorem run (h : db.Durable) (hcommands : ∀ command ∈ commands, command.MadeOf .storable) :
    (db.run commands).Durable :=
  run_induction (fun command hmem h => h.execute (hcommands command hmem)) h

theorem reopenable (h : db.Durable) : db.Reopenable where
  readable := h.readable
  saved db' hsave := by
    rw [save] at hsave
    split at hsave
    · rcases hpersist : persist db.surroundings db.store with ⟨fault | _, after⟩ <;>
        rw [hpersist] at hsave <;> cases hsave
      exact readable_of_written h.sturdy h.housed h.madeOf (entry_persist_ok hpersist)
    · cases hsave

end Durable

/-! ## Opening -/

variable {config : Config} {surroundings : Surroundings} {s : Store}

/-- What is read is what a text holds, or nothing. -/
theorem load_cases {disk : Disk} (h : load disk = .ok s) :
    s = ∅ ∨ ∃ text, Store.ofSnapshotText disk.path text = .ok s := by
  rw [load, Disk.isPresent, Disk.read] at h
  rcases hentry : disk.entry with _ | text | _ <;> rw [hentry] at h
  · cases h
    exact .inl rfl
  · exact .inr ⟨text, h⟩
  · cases h

theorem sturdy_of_load {disk : Disk} (h : load disk = .ok s) (hs : s.WellKept) :
    s.Sturdy ∧ s.Housed := by
  rcases load_cases h with rfl | ⟨text, haccepted⟩
  · exact ⟨Store.intact_empty.sturdy, Store.housed_empty⟩
  · exact ⟨hs.sturdy haccepted, (Store.ofSnapshotText_eq_ok haccepted).2.housed⟩

theorem madeOf_of_load {disk : Disk} (h : load disk = .ok s) (hlegible : s.MadeOf .legible) :
    s.MadeOf .storable := by
  rcases load_cases h with rfl | ⟨text, haccepted⟩
  · exact .empty
  · exact Store.madeOf_of_ofSnapshotText haccepted hlegible

/-- What was opened on disk has started with what is read there, and has run at most a command. -/
theorem openWith_onDisk (hopen : openWith config surroundings = .ok db)
    (honDisk : config.onDisk = true) (hload : load surroundings.disk = .ok s) :
    ∃ (start : Database) (opening : List Command), start.store = s ∧
      start.surroundings = surroundings ∧ (∀ command ∈ opening, command.MadeOf .storable) ∧
      start.run opening = db := by
  obtain ⟨s', hstore, heq⟩ := openWith_eq_run hopen
  obtain rfl : s = s' := by
    rw [initialStore, if_pos honDisk, hload] at hstore
    split at hstore <;> cases hstore
    rfl
  refine ⟨⟨config, db.defaultBranch, s, surroundings⟩, _, rfl, rfl, fun command hmem => ?_, heq.symm⟩
  split at hmem
  · cases hmem
  · cases List.mem_singleton.mp hmem
    exact fun _ _ => trivial

/-- A database that was opened with a file that is well kept can always be opened again. No run of
commands leaves a store that does not pass the check, and if its documents and the readings of the clock
come back from snapshots, what is written of it is accepted. -/
theorem reopenable_run (hopen : openWith config surroundings = .ok db)
    (honDisk : config.onDisk = true) (hload : load surroundings.disk = .ok s) (hs : s.WellKept)
    (commands : List Command) :
    (db.run commands).store.damage? = none ∧
      (s.MadeOf .legible → (∀ n, (surroundings.supply.clock n).Valid) →
        (∀ command ∈ commands, command.MadeOf .storable) → (db.run commands).Reopenable) := by
  obtain ⟨start, opening, rfl, rfl, hopening, rfl⟩ := openWith_onDisk hopen honDisk hload
  obtain ⟨hsturdy, hhoused⟩ := sturdy_of_load hload hs
  rw [← run_append]
  refine ⟨?_, fun hlegible hclock hcommands => ?_⟩
  · obtain ⟨hsturdy', hhoused'⟩ := sturdy_run hsturdy hhoused (opening ++ commands)
    exact hsturdy'.damage?_eq_none_iff.mpr hhoused'
  · have hmade := madeOf_of_load hload hlegible
    have hdurable : start.Durable := ⟨hsturdy, hhoused, ⟨hmade, hclock⟩, _, hload, hs, hmade⟩
    refine (hdurable.run fun command hmem => ?_).reopenable
    exact (List.mem_append.mp hmem).elim (hopening command) (hcommands command)

/-! ### Files from elsewhere -/

/-- A path where a snapshot of a store is. -/
def whereIs (s : Store) : Surroundings :=
  ⟨.unary fun _ => ⟨0, 0⟩, ⟨"revisions.json", .file (s.snapshotText ⟨0, 0⟩), fun _ => false, 0⟩⟩

/-- The database that is opened there. -/
def openedFrom (s : Store) : Database :=
  ⟨{ onDisk := true }, .main, s.reread, whereIs s⟩

theorem load_whereIs (hmade : s.MadeOf .storable) (hundamaged : s.damage? = none) :
    load (whereIs s).disk = .ok s.reread := by
  rw [load_eq_of_entry rfl, Store.ofSnapshotText_snapshotText hmade valid_zero, hundamaged]

theorem openWith_whereIs (hload : load (whereIs s).disk = .ok s.reread)
    (hmain : (s.branch? .main).isSome) :
    openWith { onDisk := true } (whereIs s) = .ok (openedFrom s) := by
  have hparse : BranchName.parse BranchName.main.text = .ok .main := by decide +kernel
  have hstore : initialStore { onDisk := true } (whereIs s).disk = .ok s.reread := by
    rw [initialStore, hload]
    rfl
  have hmain' : (s.reread.branch? .main).isSome := hmain
  rw [openWith_eq hparse hstore, if_pos hmain']
  rfl

/-- A draft that shows nothing, but has an entry among the links. -/
def emptyDraft : Store :=
  { ((∅ : Store).putBranch ⟨.main, ⟨0, 0⟩⟩).putRevision (.draft ⟨"d"⟩ .main ⟨"r"⟩ ⟨0, 0⟩) with
    revisionTables := .ofForward ((∅ : Side _ _).insert ⟨"d"⟩ ∅) }

theorem madeOf_emptyDraft {m : Material} (htime : m.time ⟨0, 0⟩) (hbranch : m.branch .main) :
    emptyDraft.MadeOf m := by
  have hmain : Branch.MadeOf m ⟨.main, ⟨0, 0⟩⟩ := htime
  have hdraft : (Revision.draft ⟨"d"⟩ .main ⟨"r"⟩ ⟨0, 0⟩).MadeOf m := ⟨hbranch, htime⟩
  exact { (Store.MadeOf.empty.putBranch hmain).putRevision hdraft with }

/-- A table is created in the draft and removed, and the file can be opened again. -/
theorem reopenable_emptyDraft :
    openWith { onDisk := true } (whereIs emptyDraft) = .ok (openedFrom emptyDraft) ∧
      ((openedFrom emptyDraft).execute (.createTable ⟨"d"⟩ "users" false)).1.isOk = true ∧
      ((openedFrom emptyDraft).run
        [.createTable ⟨"d"⟩ "users" false, .removeTable ⟨"d"⟩ "users"]).Reopenable := by
  have hload := load_whereIs (madeOf_emptyDraft valid_zero trivial) (by decide +kernel)
  have hopen := openWith_whereIs hload (by decide +kernel)
  have hkept : emptyDraft.reread.WellKept :=
    ⟨Side.canonical_empty, nofun, nofun⟩
  refine ⟨hopen, by decide +kernel, ?_⟩
  exact (reopenable_run hopen rfl hload hkept _).2 (madeOf_emptyDraft trivial trivial).reread
    (fun _ => valid_zero) (by simp [Command.MadeOf])

/-- A table version that no revision shows. It holds no row, but has an entry among the links. -/
def emptyTable : Store :=
  { ((∅ : Store).putBranch ⟨.main, ⟨0, 0⟩⟩).putTable (.new ⟨"users"⟩ false ⟨"e"⟩ ⟨"t"⟩ ⟨0, 0⟩) with
    tableRows := .ofForward ((∅ : Side _ _).insert ⟨"t"⟩ ∅) }

theorem madeOf_emptyTable : emptyTable.MadeOf .storable := by
  have hmain : Branch.MadeOf .storable ⟨.main, ⟨0, 0⟩⟩ := valid_zero
  have htable : (TableVersion.new ⟨"users"⟩ false ⟨"e"⟩ ⟨"t"⟩ ⟨0, 0⟩).MadeOf .storable :=
    ⟨valid_zero, valid_zero⟩
  exact { (Store.MadeOf.empty.putBranch hmain).putTable htable with }

/-- The file is accepted. When garbage is collected the table version goes and its entry stays, and
the file that is written then is refused. -/
theorem unreadable_emptyTable :
    load (whereIs emptyTable).disk = .ok emptyTable.reread ∧
      openWith { onDisk := true } (whereIs emptyTable) = .ok (openedFrom emptyTable) ∧
      ((openedFrom emptyTable).execute .collectGarbage).1.isOk = true ∧
      load ((openedFrom emptyTable).run [.collectGarbage]).disk =
        .error (.damaged "revisions.json" (.linksFromTable ⟨"t"⟩)) := by
  have hload := load_whereIs madeOf_emptyTable (by decide +kernel)
  have hok : ((openedFrom emptyTable).execute .collectGarbage).1.isOk = true := by decide +kernel
  refine ⟨hload, openWith_whereIs hload (by decide +kernel), hok, ?_⟩
  have hdamage : ((openedFrom emptyTable).execute .collectGarbage).2.store.damage? =
      some (.linksFromTable ⟨"t"⟩) := by decide +kernel
  have hpath : ((openedFrom emptyTable).execute .collectGarbage).2.disk.path = "revisions.json" := by
    decide +kernel
  have hmade : (openedFrom emptyTable).begin.MadeOf .storable :=
    ⟨madeOf_emptyTable.reread, fun _ => valid_zero⟩
  have hgarbage : Command.collectGarbage.MadeOf .storable := trivial
  rcases hresult : (openedFrom emptyTable).execute .collectGarbage with ⟨fault | reply, db'⟩ <;>
    rw [hresult] at hok hdamage hpath
  · cases hok
  have hdisk := disk_transact_ok hresult
  rw [if_pos (by decide +kernel)] at hdisk
  obtain ⟨n, hentry⟩ := hdisk
  rw [run_cons, run_nil, hresult, load_eq_of_written (madeOf_execute_ok hmade hgarbage hresult) hentry,
    hdamage, hpath]

/-- A draft with a table of two rows, each of them kept under the identifier of another one. -/
def foreignRows : Store :=
  { ((((∅ : Store).putBranch ⟨.main, ⟨0, 0⟩⟩).putRevision (.draft ⟨"d"⟩ .main ⟨"r"⟩ ⟨0, 0⟩)).putTable
      (.new ⟨"users"⟩ false ⟨"e"⟩ ⟨"t"⟩ ⟨0, 0⟩)).linkTable ⟨"d"⟩ ⟨"t"⟩ true with
    rows := ((∅ : Std.ExtTreeMap VersionId RowVersion compare).insert ⟨"a"⟩
      (.new ⟨"ada"⟩ .null ⟨"f"⟩ ⟨"b"⟩ ⟨0, 0⟩)).insert ⟨"b"⟩ (.new ⟨"bob"⟩ .null ⟨"g"⟩ ⟨"c"⟩ ⟨0, 0⟩)
    tableRows := .ofForward (((∅ : Side _ _).add ⟨"t"⟩ ⟨"a"⟩).add ⟨"t"⟩ ⟨"b"⟩) }

/-- Both rows are to be removed. The second cannot be found, so the removal of the first is undone: its
link is there again, but what was deleted is put back somewhere else. -/
theorem damaged_foreignRows :
    foreignRows.damage? = none ∧
      ((openedFrom foreignRows).execute (.removeRows ⟨"d"⟩ "users" ["ada", "bob"])).1.isOk = false ∧
      ((openedFrom foreignRows).run [.removeRows ⟨"d"⟩ "users" ["ada", "bob"]]).store.damage? =
        some (.linkToRow ⟨"t"⟩ ⟨"b"⟩) := by
  decide +kernel

end Database

end VersionedTables
