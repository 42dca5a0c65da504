import VersionedTables.Proofs.Snapshot.Restoring

/-!
# Databases that are kept in a file

A database that writes a snapshot with every commit has two copies of its store: one in memory, and one
in a file. `Database.Filed` says that the file holds a snapshot of the committed store. Every call keeps
this, whether it succeeds or fails, and whether the disk lets it write or not
(`Database.Filed.call`), so it holds after every sequence of calls since the database was opened where
there was no file (`Database.mirrored_callAll`).

That the file can be *read* is another matter. It is read as the committed store just when the branch
of every revision is there (`Store.Housed`). Commands see to that, but a transaction may replace the
record of a revision by one that names a branch there is not. It is committed and written all the same,
and then the file is refused as damaged (`Database.unreadable_strayDraft`).
-/

namespace VersionedTables

/-! ## Disks -/

namespace Disk

variable {d d' : Disk} {text : String}

/-- A file that was written is there. -/
theorem entry_write_ok (h : d.write text = (.ok (), d')) : d'.entry = .file text := by
  rw [write] at h
  split at h <;> cases h
  rfl

/-- An attempt that fails leaves what was there. -/
theorem entry_write_error {fault : StoreFault} (h : d.write text = (.error fault, d')) :
    d'.entry = d.entry := by
  rw [write] at h
  split at h <;> cases h
  rfl

end Disk

namespace Database

variable {α : Type} {db db' : Database} {e : Edit α} {w : Workspace}

/-- Where a database is kept. -/
abbrev disk (db : Database) : Disk :=
  db.surroundings.disk

/-- The file holds a snapshot of the committed store. -/
def Recorded (db : Database) : Prop :=
  ∃ savedAt : Instant, savedAt.Valid ∧ db.disk.entry = .file (db.store.snapshotText savedAt)

theorem Recorded.congr (h : db.Recorded) (hstore : db'.store = db.store)
    (hentry : db'.disk.entry = db.disk.entry) : db'.Recorded := by
  obtain ⟨savedAt, hvalid, hfile⟩ := h
  exact ⟨savedAt, hvalid, by rw [hentry, hstore, hfile]⟩

/-! ## Commits and the file -/

theorem persist_eq (surroundings : Surroundings) (s : Store) :
    persist surroundings s =
      ((surroundings.disk.write (s.snapshotText surroundings.supply.readClock.1)).1,
        ⟨surroundings.supply.readClock.2,
          (surroundings.disk.write (s.snapshotText surroundings.supply.readClock.1)).2⟩) :=
  rfl

theorem entry_persist_ok {surroundings after : Surroundings} {s : Store}
    (h : persist surroundings s = (.ok (), after)) :
    after.disk.entry = .file (s.snapshotText surroundings.supply.readClock.1) := by
  rw [persist_eq, Prod.mk.injEq] at h
  obtain ⟨hwrite, rfl⟩ := h
  exact Disk.entry_write_ok (Prod.ext hwrite rfl)

theorem entry_persist_error {surroundings after : Surroundings} {s : Store} {fault : StoreFault}
    (h : persist surroundings s = (.error fault, after)) :
    after.disk.entry = surroundings.disk.entry := by
  rw [persist_eq, Prod.mk.injEq] at h
  obtain ⟨hwrite, rfl⟩ := h
  exact Disk.entry_write_error (Prod.ext hwrite rfl)

/-- A commit that fails leaves the file as it was. -/
theorem entry_commit_error {fault : StoreFault} (h : db.commit w = (.error fault, db')) :
    db'.disk.entry = db.disk.entry := by
  rw [commit] at h
  split at h
  · rcases hpersist : persist (db.resume w w.store).surroundings w.store with ⟨fault | _, after⟩ <;>
      simp only [hpersist] at h
    · obtain ⟨-, rfl⟩ := Prod.mk.inj h
      have hentry := entry_persist_error hpersist
      exact hentry
    · cases h
  · cases h

/-- A commit that succeeds writes a snapshot, or leaves the disk as it was if there was no need. -/
theorem disk_commit_ok (h : db.commit w = (.ok (), db')) :
    if db.persists w.transaction then
      db'.disk.entry = .file (w.store.snapshotText w.supply.readClock.1)
    else db'.disk = db.disk := by
  rw [commit] at h
  split at h
  · next hpersists =>
    rw [if_pos hpersists]
    rcases hpersist : persist (db.resume w w.store).surroundings w.store with ⟨fault | _, after⟩ <;>
      simp only [hpersist] at h
    · cases h
    · obtain ⟨-, rfl⟩ := Prod.mk.inj h
      have hentry := entry_persist_ok hpersist
      exact hentry
  · next hpersists =>
    cases h
    rw [if_neg hpersists]
    rfl

/-- A transaction that fails leaves the file as it was. -/
theorem entry_transact_error {fault : DatabaseFault} (h : db.transact e = (.error fault, db')) :
    db'.disk.entry = db.disk.entry := by
  rw [transact] at h
  rcases hrun : e.run.run db.begin with ⟨fault' | value, w⟩ <;> simp only [hrun] at h
  · cases h
    rfl
  · rcases hcommit : db.commit w with ⟨fault' | _, db₁⟩ <;> simp only [hcommit] at h <;> cases h
    exact entry_commit_error hcommit

/-- A transaction that succeeds writes the store that it leaves, or leaves the disk as it was if there
was no need. -/
theorem disk_transact_ok {value : α} (h : db.transact e = (.ok value, db')) :
    if db.persists (e.outcome db.begin).2.transaction then
      ∃ n, db'.disk.entry = .file (db'.store.snapshotText (db'.supply.clock n))
    else db'.disk = db.disk := by
  rw [transact] at h
  rcases hrun : e.outcome db.begin with ⟨fault | value', w⟩ <;> rw [Edit.outcome] at hrun <;>
    simp only [hrun] at h
  · cases h
  rcases hcommit : db.commit w with ⟨fault | _, db₁⟩ <;> simp only [hcommit] at h <;> cases h
  obtain ⟨hstore, hlater⟩ := commit_eq_ok hcommit
  have hdisk := disk_commit_ok hcommit
  split at hdisk
  · next hpersists =>
    rw [if_pos hpersists]
    exact ⟨w.supply.readings, by rw [hstore, hlater.clock]; exact hdisk⟩
  · next hpersists =>
    rw [if_neg hpersists]
    exact hdisk

/-! ## Transactions on a file -/

/-- A database that writes a snapshot with every commit, of a store that comes back from it. -/
structure OnFile (db : Database) : Prop where
  /-- It was opened as one that is kept on disk. -/
  onDisk : db.config.onDisk = true
  /-- Every commit writes a snapshot. -/
  persistOnCommit : db.config.persistOnCommit = true
  /-- The store comes back from snapshots. -/
  restorable : db.Restorable

namespace OnFile

variable {Q : α → Prop}

/-- It does not matter where a database goes on, as long as the clock there can be written. -/
theorem resettle (h : db.OnFile) {after : Surroundings}
    (hclock : ∀ n, (after.supply.clock n).Valid) :
    ({ db with surroundings := after } : Database).OnFile :=
  ⟨h.onDisk, h.persistOnCommit, h.restorable.intact, h.restorable.madeOf, hclock⟩

theorem transact (h : db.OnFile) (he : e.Makes .storable Q) : (db.transact e).2.OnFile := by
  obtain ⟨hconfig, -⟩ := opened_transact db e
  refine ⟨?_, ?_, h.restorable.transact he⟩
  · rw [hconfig]
    exact h.onDisk
  · rw [hconfig]
    exact h.persistOnCommit

/-- A transaction that was accepted without a journal leaves store and disk as they were. -/
theorem transact_unjournaled (h : db.OnFile) (he : e.Makes .storable Q) {value : α}
    (hrun : e.outcome db.begin = (.ok value, w)) (hjournal : w.transaction.journal = []) :
    (db.transact e).1 = .ok value ∧ (db.transact e).2.store = db.store ∧
      (db.transact e).2.disk = db.disk := by
  have hreverts := (he h.restorable.begin).1.reverts (.begin h.restorable.intact.orderly)
  rw [hrun] at hreverts
  have hrun' : e.run.run db.begin = (.ok value, w) := hrun
  have hpersists : db.persists w.transaction = false := by simp [persists, hjournal]
  have hcommit : db.commit w = (.ok (), db.resume w w.store) := by
    rw [commit, hpersists]
    rfl
  rw [Database.transact]
  simp only [hrun', hcommit]
  exact ⟨trivial, hreverts.store_eq hjournal, rfl⟩

/-- A transaction that succeeds has recorded its store, or left store and disk as they were. -/
theorem transact_ok (h : db.OnFile) (he : e.Makes .storable Q) {value : α}
    (hok : db.transact e = (.ok value, db')) :
    db'.Recorded ∨ db'.store = db.store ∧ db'.disk = db.disk := by
  have hdisk := disk_transact_ok hok
  have hafter := h.transact he
  rcases hrun : e.outcome db.begin with ⟨result, w⟩
  rw [hok] at hafter
  rw [hrun] at hdisk
  by_cases hjournal : w.transaction.journal = []
  · obtain ⟨value', w', hrun', -⟩ := transact_eq_ok hok
    obtain ⟨-, rfl⟩ := Prod.mk.inj (hrun.symm.trans hrun')
    obtain ⟨-, hsame⟩ := h.transact_unjournaled he hrun' hjournal
    rw [hok] at hsame
    exact .inr hsame
  · -- There is a journal, so a snapshot was written.
    have hpersists : db.persists w.transaction = true := by
      simp [persists, h.onDisk, h.persistOnCommit, hjournal]
    rw [if_pos hpersists] at hdisk
    obtain ⟨n, hentry⟩ := hdisk
    exact .inl ⟨_, hafter.restorable.clock n, hentry⟩

/-- A transaction that fails leaves store and file as they were. -/
theorem transact_error (h : db.OnFile) (he : e.Makes .storable Q) {fault : DatabaseFault}
    (herror : db.transact e = (.error fault, db')) :
    db'.store = db.store ∧ db'.disk.entry = db.disk.entry :=
  ⟨(transact_eq_error (he h.restorable.begin).1 h.restorable.intact.orderly herror).1,
    entry_transact_error herror⟩

theorem recorded_transact (h : db.OnFile) (he : e.Makes .storable Q) (hrecorded : db.Recorded) :
    (db.transact e).2.Recorded := by
  rcases hresult : db.transact e with ⟨fault | value, db'⟩
  · obtain ⟨hstore, hentry⟩ := h.transact_error he hresult
    exact hrecorded.congr hstore hentry
  · rcases h.transact_ok he hresult with hnow | ⟨hstore, hdisk⟩
    · exact hnow
    · exact hrecorded.congr hstore (by rw [hdisk])

end OnFile

/-- A database that writes a snapshot with every commit, with its committed store in the file. -/
structure Filed (db : Database) : Prop extends db.OnFile where
  /-- The file holds a snapshot of the committed store. -/
  recorded : db.Recorded

theorem Filed.transact {Q : α → Prop} (h : db.Filed) (he : e.Makes .storable Q) :
    (db.transact e).2.Filed :=
  ⟨h.toOnFile.transact he, h.toOnFile.recorded_transact he h.recorded⟩

/-! ## Reading the file -/

/-- A file is read as the text in it is. -/
theorem load_eq_of_entry {disk : Disk} {text : String} (h : disk.entry = .file text) :
    load disk = Store.ofSnapshotText disk.path text := by
  rw [load, Disk.isPresent, Disk.read, h]
  rfl

/-- What the file is read as. -/
theorem Filed.load_eq (h : db.Filed) :
    load db.disk = match db.store.withoutNullNotes.damage? with
      | some damage => .error (.damaged db.disk.path damage)
      | none => .ok db.store.withoutNullNotes := by
  obtain ⟨savedAt, hvalid, hentry⟩ := h.recorded
  rw [load_eq_of_entry hentry]
  exact h.restorable.intact.ofSnapshotText_snapshotText h.restorable.madeOf hvalid db.disk.path

/-- The committed store is read just when the branch of every revision is there. -/
theorem Filed.load_eq_ok_iff (h : db.Filed) :
    load db.disk = .ok db.store.withoutNullNotes ↔ db.store.Housed := by
  have hhoused : db.store.withoutNullNotes.Housed ↔ db.store.Housed := Iff.rfl
  rw [h.load_eq, ← hhoused, ← h.restorable.intact.withoutNullNotes.damage?_eq_none_iff]
  rcases db.store.withoutNullNotes.damage? with _ | damage <;> simp

/-- Nothing else is read. -/
theorem Filed.load_eq_error (h : db.Filed) (hstray : ¬db.store.Housed) :
    ∃ damage, load db.disk = .error (.damaged db.disk.path damage) := by
  have hhoused : db.store.withoutNullNotes.Housed ↔ db.store.Housed := Iff.rfl
  rw [← hhoused, ← h.restorable.intact.withoutNullNotes.damage?_eq_none_iff,
    ← ne_eq, Option.ne_none_iff_exists'] at hstray
  obtain ⟨damage, hdamage⟩ := hstray
  exact ⟨damage, by rw [h.load_eq, hdamage]⟩

/-! ## Opening -/

variable {config : Config} {surroundings : Surroundings}

/-- Where nothing is, there is nothing to start with. -/
theorem initialStore_absent (habsent : surroundings.disk.entry = .absent) {s : Store}
    (h : initialStore config surroundings.disk = .ok s) : s = ∅ := by
  have hload : load surroundings.disk = .ok ∅ := by simp [load, Disk.isPresent, habsent]
  rw [initialStore, hload] at h
  split at h
  · split at h <;> cases h
    rfl
  · cases h
    rfl

/-- A database that was opened where there was no file is in the file now, with its default branch. -/
theorem filed_openWith (hopen : openWith config surroundings = .ok db)
    (habsent : surroundings.disk.entry = .absent) (honDisk : config.onDisk = true)
    (hpersist : config.persistOnCommit = true) (hclock : ∀ n, (surroundings.supply.clock n).Valid) :
    db.Filed ∧ db.store.Housed := by
  rcases openWith_cases config surroundings with ⟨fault, herror⟩ | ⟨name, s, hparse, hstore⟩
  · rw [herror] at hopen
    cases hopen
  obtain rfl := initialStore_absent habsent hstore
  rw [openWith_eq hparse hstore, if_neg (by simp [Store.branch?_empty])] at hopen
  obtain ⟨hok, rfl⟩ := BranchName.parse_eq_ok.mp hparse
  let empty : Database := ⟨config, ⟨config.defaultBranch⟩, ∅, surroundings⟩
  have honFile : empty.OnFile := ⟨honDisk, hpersist, Store.intact_empty, .empty, hclock⟩
  have hmakes : (Command.createBranch config.defaultBranch none).run.Makes .storable fun _ => True :=
    Command.makes_run fun _ _ => trivial
  rcases hresult : empty.execute (.createBranch config.defaultBranch none) with ⟨fault | reply, db₁⟩ <;>
    rw [hresult] at hopen <;> cases hopen
  have hbranch := created_execute hresult hparse
  have hhoused : (empty.execute (.createBranch config.defaultBranch none)).2.store.Housed :=
    housed_execute Store.intact_empty Store.housed_empty _
  have hkept := honFile.transact hmakes
  rw [execute] at hresult hhoused
  rw [hresult] at hkept hhoused
  refine ⟨⟨hkept, ?_⟩, hhoused⟩
  rcases honFile.transact_ok hmakes hresult with hrecorded | ⟨hsame, -⟩
  · exact hrecorded
  · -- The store has changed: there is a branch in it.
    rw [hsame] at hbranch
    cases hbranch

/-! ## Opening again -/

/-- Opens the file of a database anew. If that fails, the database stays as it was. -/
def reopen (db : Database) (config : Config) : Except DatabaseFault Unit × Database :=
  match openWith config db.surroundings with
  | .ok opened => (.ok (), opened)
  | .error (fault, surroundings) => (.error fault, { db with surroundings })

/-- The database that is there after its file was read again. -/
def reread (db : Database) (config : Config) (name : BranchName) : Database :=
  ⟨config, name, db.store.withoutNullNotes, db.surroundings⟩

theorem Filed.reread (h : db.Filed) (honDisk : config.onDisk = true)
    (hpersist : config.persistOnCommit = true) (name : BranchName) :
    (db.reread config name).Filed := by
  obtain ⟨savedAt, hvalid, hentry⟩ := h.recorded
  refine ⟨⟨honDisk, hpersist, ?_⟩, savedAt, hvalid, ?_⟩
  · exact ⟨h.restorable.intact.withoutNullNotes, h.restorable.madeOf.withoutNullNotes,
      h.restorable.clock⟩
  · rw [Database.reread, Store.snapshotText_withoutNullNotes]
    exact hentry

/-- A file that is there is read. -/
theorem Filed.initialStore_eq (h : db.Filed) (honDisk : config.onDisk = true) :
    initialStore config db.disk = (load db.disk).mapError .store := by
  obtain ⟨savedAt, -, hentry⟩ := h.recorded
  rw [initialStore, if_pos honDisk, if_neg (by simp [Disk.isPresent, hentry])]

/-- A store that is read is the committed one, with the branch of every revision. -/
theorem Filed.initialStore_eq_ok_iff (h : db.Filed) (honDisk : config.onDisk = true) {s : Store} :
    initialStore config db.disk = .ok s ↔ db.store.Housed ∧ s = db.store.withoutNullNotes := by
  rw [h.initialStore_eq honDisk]
  by_cases hhoused : db.store.Housed
  · rw [h.load_eq_ok_iff.mpr hhoused]
    simp [Except.mapError, hhoused, eq_comm]
  · obtain ⟨damage, hdamage⟩ := h.load_eq_error hhoused
    rw [hdamage]
    simp [Except.mapError, hhoused]

/-- What comes of opening a file anew: the store that was read, to which the default branch is added
if it is missing. If anything goes wrong, the database stays as it was. -/
theorem Filed.reopen_cases (h : db.Filed) (honDisk : config.onDisk = true) :
    (∃ fault, db.reopen config = (.error fault, db)) ∨
      ∃ name, BranchName.parse config.defaultBranch = .ok name ∧ db.store.Housed ∧
        db.reopen config =
          if (db.store.branch? name).isSome then (.ok (), db.reread config name)
          else match (db.reread config name).execute (.createBranch name.text none) with
            | (.ok _, db') => (.ok (), db')
            | (.error fault, db') => (.error fault, { db with surroundings := db'.surroundings }) := by
  rcases openWith_cases config db.surroundings with ⟨fault, herror⟩ | ⟨name, s, hparse, hstore⟩
  · exact .inl ⟨fault, by rw [reopen, herror]⟩
  · obtain ⟨hhoused, rfl⟩ := (h.initialStore_eq_ok_iff honDisk).mp hstore
    refine .inr ⟨name, hparse, hhoused, ?_⟩
    have hbranch : db.store.withoutNullNotes.branch? name = db.store.branch? name := rfl
    rw [reopen, openWith_eq hparse hstore, hbranch]
    by_cases hstored : (db.store.branch? name).isSome
    · rw [if_pos hstored, if_pos hstored]
      rfl
    · rw [if_neg hstored, if_neg hstored]
      rcases hresult : (db.reread config name).execute (.createBranch name.text none) with
        ⟨fault | reply, db'⟩ <;> rw [Database.reread] at hresult <;> rw [hresult]

/-! ## Calls -/

/-- Something that is asked of a database that is kept in a file. -/
inductive Call where
  /-- A command. -/
  | execute (command : Command)
  /-- A transaction with an edit of its own. -/
  | transact (edit : Edit Unit)
  /-- A snapshot. -/
  | save
  /-- The file is opened anew. -/
  | reopen (config : Config)

/-- What a call answers, and the database it leaves. -/
def call (db : Database) : Call → Except DatabaseFault Unit × Database
  | .execute command => ((db.execute command).1.map fun _ => (), (db.execute command).2)
  | .transact edit => db.transact edit
  | .save => (db.save.1.mapError .store, db.save.2)
  | .reopen config => db.reopen config

/-- Calls one after the other, whether they fail or not. -/
def callAll (db : Database) (calls : List Call) : Database :=
  calls.foldl (fun db call => (db.call call).2) db

/-- A call writes nothing but what comes back from a snapshot, by edits that do nothing but try
writes, and it opens the database as one that is kept in a file. -/
def Call.Lasting : Call → Prop
  | .execute command => command.MadeOf .storable
  | .transact edit => edit.Makes .storable fun _ => True
  | .save => True
  | .reopen config => config.onDisk = true ∧ config.persistOnCommit = true

/-- A call leaves the branch of every revision there, if its edit does. -/
def Call.Housing : Call → Prop
  | .transact edit => ∀ w : Workspace, w.store.Housed → edit.Yields w (fun _ _ => True) →
      (edit.outcome w).2.store.Housed
  | _ => True

/-- What a call on a database in a file comes to. -/
structure Settled (db : Database) (result : Except DatabaseFault Unit × Database) : Prop where
  /-- The database is in the file afterwards. -/
  filed : result.2.Filed
  /-- If the call failed, store and file are what they were. -/
  failed : ∀ fault, result.1 = .error fault →
    result.2.store = db.store ∧ result.2.disk.entry = db.disk.entry

theorem Filed.transact_settled (h : db.Filed) {edit : Edit Unit} {Q : Unit → Prop}
    (he : edit.Makes .storable Q) : db.Settled (db.transact edit) where
  filed := h.transact he
  failed _ herror := h.toOnFile.transact_error he (Prod.ext herror rfl)

theorem Filed.execute_settled (h : db.Filed) {command : Command} (hcommand : command.MadeOf .storable) :
    db.Settled ((db.execute command).1.map fun _ => (), (db.execute command).2) where
  filed := h.transact (Command.makes_run hcommand)
  failed _ herror := by
    rcases hresult : db.execute command with ⟨fault' | reply, db'⟩
    · exact h.toOnFile.transact_error (Command.makes_run hcommand) hresult
    · rw [hresult] at herror
      cases herror

theorem Filed.save_settled (h : db.Filed) : db.Settled (db.save.1.mapError .store, db.save.2) := by
  rw [save, if_pos h.onDisk]
  have hclock : ∀ n, ((persist db.surroundings db.store).2.supply.clock n).Valid := by
    rw [(later_persist db.surroundings db.store).clock]
    exact h.restorable.clock
  rcases hpersist : persist db.surroundings db.store with ⟨fault | _, after⟩ <;>
    rw [hpersist] at hclock
  · have hentry := entry_persist_error hpersist
    exact ⟨⟨h.toOnFile.resettle hclock, h.recorded.congr rfl hentry⟩, fun _ _ => ⟨rfl, hentry⟩⟩
  · refine ⟨⟨h.toOnFile.resettle hclock, _, h.restorable.clock _, entry_persist_ok hpersist⟩, ?_⟩
    rintro fault ⟨⟩

theorem Filed.reopen_settled (h : db.Filed) (honDisk : config.onDisk = true)
    (hpersist : config.persistOnCommit = true) : db.Settled (db.reopen config) := by
  rcases h.reopen_cases honDisk with ⟨_, heq⟩ | ⟨name, -, -, heq⟩
  · rw [heq]
    exact ⟨h, fun _ _ => ⟨rfl, rfl⟩⟩
  have hreread := h.reread honDisk hpersist name
  have hmakes : (Command.createBranch name.text none).run.Makes .storable fun _ => True :=
    Command.makes_run fun _ _ => trivial
  rw [heq]
  split
  · refine ⟨hreread, ?_⟩
    rintro fault ⟨⟩
  · have hafter := hreread.transact hmakes
    rcases hresult : (db.reread config name).execute (.createBranch name.text none) with
      ⟨fault | reply, db'⟩ <;> rw [execute] at hresult <;> rw [hresult] at hafter
    · obtain ⟨-, hentry⟩ := hreread.toOnFile.transact_error hmakes hresult
      exact ⟨⟨h.toOnFile.resettle hafter.restorable.clock, h.recorded.congr rfl hentry⟩,
        fun _ _ => ⟨rfl, hentry⟩⟩
    · refine ⟨hafter, ?_⟩
      rintro fault ⟨⟩

/-- Every call leaves the database in the file, and without a trace if it fails. -/
theorem Filed.call (h : db.Filed) {call : Call} (hcall : call.Lasting) :
    db.Settled (db.call call) := by
  cases call with
  | execute command => exact h.execute_settled hcall
  | transact edit => exact h.transact_settled hcall
  | save => exact h.save_settled
  | reopen config => exact h.reopen_settled hcall.1 hcall.2

theorem Filed.callAll (h : db.Filed) {calls : List Call} (hcalls : ∀ call ∈ calls, call.Lasting) :
    (db.callAll calls).Filed := by
  induction calls generalizing db with
  | nil => exact h
  | cons first rest ih =>
    exact ih (h.call (hcalls first List.mem_cons_self)).filed
      fun call hmem => hcalls call (List.mem_cons_of_mem _ hmem)

/-! ## Where revisions belong -/

theorem Filed.housed_execute (h : db.Filed) (hhoused : db.store.Housed) (command : Command) :
    (db.execute command).2.store.Housed :=
  Database.housed_execute h.restorable.intact hhoused command

theorem Filed.housed_reopen (h : db.Filed) (hhoused : db.store.Housed)
    (honDisk : config.onDisk = true) (hpersist : config.persistOnCommit = true) :
    (db.reopen config).2.store.Housed := by
  rcases h.reopen_cases honDisk with ⟨fault, heq⟩ | ⟨name, -, -, heq⟩
  · rw [heq]
    exact hhoused
  have hafter := (h.reread honDisk hpersist name).housed_execute hhoused
    (.createBranch name.text none)
  rw [heq]
  split
  · exact hhoused
  · rcases hresult : (db.reread config name).execute (.createBranch name.text none) with
      ⟨fault | reply, db'⟩ <;> rw [hresult] at hafter
    · exact hhoused
    · exact hafter

theorem Filed.housed_call (h : db.Filed) (hhoused : db.store.Housed) {call : Call}
    (hcall : call.Lasting) (hhousing : call.Housing) : (db.call call).2.store.Housed := by
  cases call with
  | execute command => exact h.housed_execute hhoused command
  | transact edit =>
    obtain ⟨-, hstore | ⟨hyields, hstore⟩⟩ :=
      transact_store (hcall h.restorable.begin).1 h.restorable.intact.orderly
    · rw [Database.call, hstore]
      exact hhoused
    · rw [Database.call, hstore]
      exact hhousing _ hhoused hyields
  | save =>
    rw [Database.call, save, if_pos h.onDisk]
    exact hhoused
  | reopen config => exact h.housed_reopen hhoused hcall.1 hcall.2

theorem Filed.housed_callAll (h : db.Filed) (hhoused : db.store.Housed) {calls : List Call}
    (hcalls : ∀ call ∈ calls, call.Lasting) (hhousing : ∀ call ∈ calls, call.Housing) :
    (db.callAll calls).store.Housed := by
  induction calls generalizing db with
  | nil => exact hhoused
  | cons first rest ih =>
    have hfirst := hcalls first List.mem_cons_self
    exact ih (h.call hfirst).filed
      (h.housed_call hhoused hfirst (hhousing first List.mem_cons_self))
      (fun call hmem => hcalls call (List.mem_cons_of_mem _ hmem))
      fun call hmem => hhousing call (List.mem_cons_of_mem _ hmem)

/-! ## After every sequence of calls -/

/-- File and memory agree, and the next call will not part them. -/
structure Mirrored (db : Database) : Prop where
  /-- The file holds a snapshot of the committed store. -/
  recorded : db.Recorded
  /-- The committed store is what is read, just when the branch of every revision is there. -/
  load_ok : load db.disk = .ok db.store.withoutNullNotes ↔ db.store.Housed
  /-- If it is not, the file is refused as damaged. -/
  load_damaged : ¬db.store.Housed →
    ∃ damage, load db.disk = .error (.damaged db.disk.path damage)
  /-- A call that fails leaves store and file as they were. -/
  failed : ∀ call : Call, call.Lasting → ∀ fault, (db.call call).1 = .error fault →
    (db.call call).2.store = db.store ∧ (db.call call).2.disk.entry = db.disk.entry
  /-- A transaction that is committed without a journal has changed neither. -/
  unjournaled : ∀ edit : Edit Unit, edit.Makes .storable (fun _ => True) →
    ∀ w, edit.outcome db.begin = (.ok (), w) → w.transaction.journal = [] →
      (db.transact edit).1 = .ok () ∧ (db.transact edit).2.store = db.store ∧
        (db.transact edit).2.disk = db.disk
  /-- Opening the file anew with a default branch that is there changes neither. -/
  reopened : ∀ config : Config, config.onDisk = true →
    ∀ name, BranchName.parse config.defaultBranch = .ok name → (db.store.branch? name).isSome →
      db.store.Housed →
        db.reopen config = (.ok (), ⟨config, name, db.store.withoutNullNotes, db.surroundings⟩)

theorem Filed.mirrored (h : db.Filed) : db.Mirrored where
  recorded := h.recorded
  load_ok := h.load_eq_ok_iff
  load_damaged := h.load_eq_error
  failed _ hcall := (h.call hcall).failed
  unjournaled _ hedit _ := h.toOnFile.transact_unjournaled hedit
  reopened config honDisk name hparse hstored hhoused := by
    have hstore := (h.initialStore_eq_ok_iff honDisk).mpr ⟨hhoused, rfl⟩
    have hbranch : (db.store.withoutNullNotes.branch? name).isSome := hstored
    rw [reopen, openWith_eq hparse hstore, if_pos hbranch]

/-- Since a database was opened where there was no file, file and memory have agreed after every
sequence of calls. The file can be read unless a transaction has left a revision without its branch. -/
theorem mirrored_callAll (hopen : openWith config surroundings = .ok db)
    (habsent : surroundings.disk.entry = .absent) (honDisk : config.onDisk = true)
    (hpersist : config.persistOnCommit = true) (hclock : ∀ n, (surroundings.supply.clock n).Valid)
    (calls : List Call) (hcalls : ∀ call ∈ calls, call.Lasting) :
    (db.callAll calls).Mirrored ∧
      ((∀ call ∈ calls, call.Housing) → (db.callAll calls).store.Housed) := by
  obtain ⟨hfiled, hhoused⟩ := filed_openWith hopen habsent honDisk hpersist hclock
  exact ⟨(hfiled.callAll hcalls).mirrored, hfiled.housed_callAll hhoused hcalls⟩

/-! ### A draft without its branch -/

/-- A path where there is nothing. -/
def nowhere : Surroundings :=
  ⟨.unary fun _ => ⟨0, 0⟩, ⟨"revisions.json", .absent, fun _ => false, 0⟩⟩

/-- The database that is created there. -/
def created : Database :=
  match openWith { onDisk := true } nowhere with
  | .ok db => db
  | .error (_, surroundings) => ⟨{}, .main, ∅, surroundings⟩

theorem openWith_nowhere : openWith { onDisk := true } nowhere = .ok created := by
  have hok : (openWith { onDisk := true } nowhere).isOk = true := by decide +kernel
  rw [created]
  rcases hopen : openWith { onDisk := true } nowhere with fault | db
  · rw [hopen] at hok
    cases hok
  · rfl

/-- Replaces the record of the draft by one that names a branch there is not. -/
def strayDraft : Edit Unit := do
  let draft ← Edit.orFault .noDraft ((← Edit.store).findRevision .main .draft)
  Edit.write (·.updateRevision { draft with branch := ⟨"ghost"⟩ })

theorem makes_strayDraft : strayDraft.Makes .storable fun _ => True := by
  refine Edit.Makes.store.bind fun s hs => (Edit.Makes.orFault _ _).bind fun draft hdraft => ?_
  exact Edit.Makes.write (.updateRevision _) ⟨trivial, (hs.of_findRevision hdraft).1.createdAt⟩

theorem valid_zero : (⟨0, 0⟩ : Instant).Valid := by
  decide +kernel

/-- The transaction succeeds, and what it leaves in the file is not read. -/
theorem unreadable_strayDraft :
    openWith { onDisk := true } nowhere = .ok created ∧
      (∀ call ∈ [Call.transact strayDraft], call.Lasting) ∧
      (created.call (.transact strayDraft)).1 = .ok () ∧
      load (created.callAll [.transact strayDraft]).disk ≠
        .ok (created.callAll [.transact strayDraft]).store.withoutNullNotes := by
  have hlasting : ∀ call ∈ [Call.transact strayDraft], call.Lasting :=
    List.forall_mem_singleton.mpr makes_strayDraft
  refine ⟨openWith_nowhere, hlasting, ?_, fun hload => ?_⟩
  · have hok : (created.call (.transact strayDraft)).1.isOk = true := by decide +kernel
    rcases hresult : (created.call (.transact strayDraft)).1 with fault | _
    · rw [hresult] at hok
      cases hok
    · rfl
  · obtain ⟨hfiled, -⟩ := filed_openWith openWith_nowhere rfl rfl rfl fun _ => valid_zero
    have hhoused := (hfiled.callAll hlasting).load_eq_ok_iff.mp hload
    have hstray : (created.callAll [.transact strayDraft]).store.revisions.values.any
        (fun record => ((created.callAll [.transact strayDraft]).store.branch?
          record.branch).isNone) = true := by
      decide +kernel
    obtain ⟨record, hmem, hnone⟩ := List.any_eq_true.mp hstray
    rw [Store.values_eq_map_toList] at hmem
    obtain ⟨⟨id, _⟩, hentry, rfl⟩ := List.mem_map.mp hmem
    have hstored := hhoused (Std.ExtTreeMap.mem_toList_iff_getElem?_eq_some.mp hentry)
    rw [Option.isNone_iff_eq_none] at hnone
    rw [hnone] at hstored
    cases hstored

/-- A table is created, and the file is opened anew. -/
def createdAnew : Database :=
  created.callAll [.execute (.createTable ⟨"ii"⟩ "users" false), .reopen { onDisk := true }]

/-- What is in the file then can be read. -/
theorem mirrored_createdAnew : createdAnew.Mirrored ∧
    load createdAnew.disk = .ok createdAnew.store.withoutNullNotes := by
  obtain ⟨hmirrored, hhoused⟩ := mirrored_callAll openWith_nowhere rfl rfl rfl
    (fun _ => valid_zero)
    [.execute (.createTable ⟨"ii"⟩ "users" false), .reopen { onDisk := true }]
    (by simp [Call.Lasting, Command.MadeOf])
  exact ⟨hmirrored, hmirrored.load_ok.mpr (hhoused (by simp [Call.Housing]))⟩

end Database

end VersionedTables
