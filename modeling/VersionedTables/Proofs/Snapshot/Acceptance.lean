import VersionedTables.Proofs.Built
import VersionedTables.Proofs.Mirror

/-!
# Stores that readers accept

Writes are checked one at a time, and each for something else. A reader of snapshots checks the store
as a whole. This is where the two are compared, over all the stores that can be built
(`Store.checked_of_built`).

They agree on links. They do not agree on branches: a revision is *added* only to a branch that is there,
but its record may be *replaced* by one that names any branch. So all that readers can object to in a
store that was built is a revision whose branch is missing, and they do (`Store.refused_moved`). If a
record is replaced only by one whose branch is there at that moment (`Transaction.Houses`), the store is
accepted, and so is every snapshot of it that was written with a commit.
-/

namespace VersionedTables

/-! ## Writes that leave revisions on branches -/

namespace Transaction

variable {t t' : Transaction} {write : Write}

/-- A write does not move a revision to a branch that is missing. -/
def Houses (t : Transaction) : Write → Prop
  | .updateRevision record => (t.store.branch? record.branch).isSome
  | _ => True

/-- No write of a list moves a revision to a branch that is missing by then. -/
def HousesAll (t : Transaction) : List Write → Prop
  | [] => True
  | write :: rest => t.Houses write ∧ (t.attempt write).HousesAll rest

/-- Writes that are all accepted lead to where they lead when they are tried. -/
theorem attemptAll_of_accepted {writes : List Write} (h : writes.foldlM perform t = .ok t') :
    t.attemptAll writes = t' := by
  induction writes generalizing t with
  | nil => exact Except.ok.inj h
  | cons first rest ih =>
    rw [List.foldlM_cons] at h
    rcases hok : t.perform first with fault | t₁
    · rw [hok] at h
      cases h
    · rw [hok] at h
      rw [← ih h, ← attempt_of_ok hok]
      rfl

/-- The branches that are there, as what revisions are made of. -/
def housing (t : Transaction) : Material where
  time _ := True
  document _ := True
  branch name := (t.store.branch? name).isSome

/-- An accepted write that does not move a revision to a missing branch brings only revisions along
whose branch is there. -/
theorem Houses.madeOf (h : t.Houses write) (hok : t.perform write = .ok t') :
    write.MadeOf t.housing := by
  cases write with
  | createRevision record =>
    obtain ⟨-, hbranch, -⟩ := createRevision_eq_ok.mp hok
    exact ⟨hbranch, trivial⟩
  | updateRevision record => exact ⟨h, trivial⟩
  | createTable record | updateTable record => exact ⟨trivial, trivial⟩
  | createRow record | updateRow record =>
    exact ⟨trivial, fun _ _ => trivial, fun _ _ => trivial, trivial, trivial⟩
  | _ => exact trivial

/-- An accepted write keeps all revisions on branches just when it does not move one to a branch that
is missing. -/
theorem housed_perform_iff (h : t.store.Housed) (hok : t.perform write = .ok t') :
    t'.store.Housed ↔ t.Houses write := by
  refine ⟨fun hhoused => ?_, fun hhouses id record hrecord => ?_⟩
  · cases write with
    | updateRevision record =>
      obtain ⟨old, -, rfl⟩ := updateRevision_eq_ok.mp hok
      have hstored : (t.store.putRevision record).revision? record.id = some record := by
        rw [Store.revision?_putRevision, if_pos rfl]
      -- No branch has come along with the record, so what is there now was there before.
      exact hhoused hstored
    | _ => trivial
  · have hmade : t.store.MadeOf t.housing :=
      { Store.MadeOf.everything t.store with
        revision := fun hrecord => ⟨h hrecord, trivial⟩
        table := fun _ => ⟨trivial, trivial⟩
        row := fun _ => ⟨trivial, fun _ _ => trivial, fun _ _ => trivial, trivial, trivial⟩ }
    have hbranch := ((hmade.perform (hhouses.madeOf hok) hok).revision hrecord).branch
    exact isSome_branch?_perform write hbranch hok

theorem housed_attempt (h : t.store.Housed) (hhouses : t.Houses write) :
    (t.attempt write).store.Housed := by
  rcases hok : t.perform write with fault | t'
  · rwa [attempt_of_error hok]
  · rw [attempt_of_ok hok]
    exact (housed_perform_iff h hok).mpr hhouses

/-- Writes that move no revision to a missing branch keep all of them on branches. -/
theorem housed_attemptAll {writes : List Write} (h : t.store.Housed) (hhouses : t.HousesAll writes) :
    (t.attemptAll writes).store.Housed := by
  induction writes generalizing t with
  | nil => exact h
  | cons first rest ih => exact ih (housed_attempt h hhouses.1) hhouses.2

end Transaction

namespace Store

variable {s : Store}

/-- The stores that can be built from an empty one without moving a revision to a branch that is
missing. It does not matter what was rolled back. -/
inductive BuiltInPlace : Store → Prop where
  /-- The empty store. -/
  | empty : BuiltInPlace ∅
  /-- The store within a transaction, and after it if it is kept. -/
  | tried {s : Store} (h : BuiltInPlace s) (writes : List Write)
      (hhouses : (Transaction.mk s []).HousesAll writes) :
    BuiltInPlace ((Transaction.mk s []).attemptAll writes).store
  /-- The store after a transaction that was rolled back. -/
  | undone {s : Store} (h : BuiltInPlace s) (writes : List Write) :
    BuiltInPlace ((Transaction.mk s []).attemptAll writes).rollback

theorem BuiltInPlace.built (h : s.BuiltInPlace) : s.Built := by
  induction h with
  | empty => exact .empty
  | tried _ writes _ ih => exact .tried ih writes
  | undone _ writes ih => exact .undone ih writes

theorem BuiltInPlace.housed (h : s.BuiltInPlace) : s.Housed := by
  induction h with
  | empty => exact housed_empty
  | tried _ writes hhouses ih => exact Transaction.housed_attemptAll ih hhouses
  | @undone s h writes ih =>
    rw [((Transaction.Reverts.begin h.built.intact.orderly).attemptAll writes).rollback]
    exact ih

/-! ## What readers object to -/

/-- All that is checked of a sturdy store are the branches of its revisions. -/
theorem Sturdy.damage?_eq (h : s.Sturdy) : s.damage? = s.revisions.values.findSome? s.branchDamage? := by
  have hshown : s.revisionTables.forward.toList.findSome? s.tableLinkDamage? = none :=
    findSome?_tableLinkDamage?_eq_none_iff.mpr ⟨fun _ => h.shower_exists, fun _ _ => h.shown_exists⟩
  have hheld : s.tableRows.forward.toList.findSome? s.rowLinkDamage? = none := by
    refine findSome?_rowLinkDamage?_eq_none_iff.mpr ⟨fun table hmem => ?_, fun _ _ => h.held_exists⟩
    obtain ⟨row, hholds⟩ := h.tableRows.forward.mem_iff.mp hmem
    exact h.holder_exists hholds
  rw [damage?, hshown, hheld]
  rcases s.revisions.values.findSome? s.branchDamage? with _ | damage <;> rfl

theorem branchDamage?_eq_some {record : Revision} {damage : Damage} :
    s.branchDamage? record = some damage ↔
      s.branch? record.branch = none ∧ damage = .revisionWithoutBranch record.id record.branch := by
  rw [branchDamage?, Std.ExtTreeMap.contains_eq_isSome_getElem?, branch?]
  rcases s.branches[record.branch]? with _ | branch <;> simp [eq_comm]

/-- The damage of an intact store is a revision whose branch is missing. -/
theorem Intact.of_damage?_eq_some (h : s.Intact) {damage : Damage} (hdamage : s.damage? = some damage) :
    ∃ id record, s.revision? id = some record ∧ s.branch? record.branch = none ∧
      damage = .revisionWithoutBranch id record.branch := by
  rw [h.sturdy.damage?_eq] at hdamage
  obtain ⟨record, hmem, hrecord⟩ := List.exists_of_findSome?_eq_some hdamage
  obtain ⟨hbranch, rfl⟩ := branchDamage?_eq_some.mp hrecord
  rw [values_eq_map_toList] at hmem
  obtain ⟨⟨id, _⟩, hentry, rfl⟩ := List.mem_map.mp hmem
  have hstored := Std.ExtTreeMap.mem_toList_iff_getElem?_eq_some.mp hentry
  exact ⟨id, _, hstored, hbranch, by rw [h.id_eq hstored]⟩

end Store

/-! ## Snapshots that were written with a commit -/

namespace Database

variable {db db' : Database} {w : Workspace}

/-- A commit has succeeded and written a snapshot, at a time that can be written. -/
structure Wrote (db : Database) (w : Workspace) (db' : Database) : Prop where
  /-- There was need of a snapshot. -/
  persists : db.persists w.transaction = true
  /-- The commit has succeeded. -/
  commit_eq : db.commit w = (.ok (), db')
  /-- The clock has shown a time that can be written. -/
  clock : w.supply.readClock.1.Valid

/-- What a snapshot is read as that was written with a commit. -/
theorem Wrote.load_eq (h : db.Wrote w db') (hintact : w.store.Intact)
    (hmade : w.store.MadeOf .storable) :
    load db'.disk = match w.store.damage? with
      | some damage => .error (.damaged db'.disk.path damage)
      | none => .ok w.store.withoutNullNotes := by
  have hdisk := disk_commit_ok h.commit_eq
  rw [if_pos h.persists] at hdisk
  have hread := Store.ofSnapshotText_snapshotText hmade h.clock db'.disk.path
  rw [Store.reread_eq_withoutNullNotes hintact.revisionTables hintact.tableRows] at hread
  exact (load_eq_of_entry hdisk).trans hread

/-- What is read from the file is what a database starts with. -/
theorem Wrote.initialStore_eq (h : db.Wrote w db') {config : Config} (honDisk : config.onDisk = true) :
    initialStore config db'.disk = (load db'.disk).mapError .store := by
  have hdisk := disk_commit_ok h.commit_eq
  rw [if_pos h.persists] at hdisk
  rw [initialStore, if_pos honDisk, if_neg (by simp [Disk.isPresent, hdisk])]

end Database

namespace Store

variable {s : Store}

/-- What becomes of a store when it is checked as a whole. -/
structure Checked (s : Store) : Prop where
  /-- It passes just when the branch of every revision is there. -/
  passes_iff : s.damage? = none ↔ s.Housed
  /-- If it does not pass, then for a revision whose branch is missing and for nothing else. -/
  damaged : ∀ damage, s.damage? = some damage →
    ∃ id record, s.revision? id = some record ∧ s.branch? record.branch = none ∧
      damage = .revisionWithoutBranch id record.branch
  /-- It passes if no revision was moved to a missing branch. -/
  in_place : s.BuiltInPlace → s.damage? = none
  /-- If it passes, an accepted write leads to another store that does just when it moves no revision
  to a missing branch. -/
  passes_perform_iff : s.damage? = none → ∀ (write : Write) (t : Transaction),
    (Transaction.mk s []).perform write = .ok t →
      (t.store.damage? = none ↔ (Transaction.mk s []).Houses write)
  /-- The snapshot that a commit has written is read as the store, or refused for what is damaged. -/
  loaded : ∀ (db db' : Database) (w : Workspace), w.store = s → db.Wrote w db' →
    s.MadeOf .storable → Database.load db'.disk = match s.damage? with
      | some damage => .error (.damaged db'.disk.path damage)
      | none => .ok s.withoutNullNotes
  /-- A store that passes is what the next database starts with, and if its default branch is there,
  the database is open. -/
  opened : ∀ (db db' : Database) (w : Workspace), w.store = s → db.Wrote w db' →
    s.MadeOf .storable → s.damage? = none → ∀ config : Config, config.onDisk = true →
      Database.initialStore config db'.disk = .ok s.withoutNullNotes ∧
        ∀ name, BranchName.parse config.defaultBranch = .ok name → (s.branch? name).isSome →
          Database.openWith config db'.surroundings =
            .ok ⟨config, name, s.withoutNullNotes, db'.surroundings⟩

/-- However a store was built, all that can be wrong with it is a revision that was moved to a branch
that is missing. -/
theorem checked_of_built (h : s.Built) : s.Checked where
  passes_iff := h.intact.damage?_eq_none_iff
  damaged _ hdamage := h.intact.of_damage?_eq_some hdamage
  in_place hplace := h.intact.damage?_eq_none_iff.mpr hplace.housed
  passes_perform_iff := by
    intro hpasses write t hok
    have hintact : t.store.Intact := by
      rw [← Transaction.attempt_of_ok hok]
      exact Intact.attemptAll (t := ⟨s, []⟩) h.intact [write]
    rw [hintact.damage?_eq_none_iff]
    exact Transaction.housed_perform_iff (h.intact.damage?_eq_none_iff.mp hpasses) hok
  loaded := by
    rintro db db' w rfl hwrote hmade
    exact hwrote.load_eq h.intact hmade
  opened := by
    rintro db db' w rfl hwrote hmade hpasses config honDisk
    have hstart : Database.initialStore config db'.disk = .ok w.store.withoutNullNotes := by
      rw [hwrote.initialStore_eq honDisk, hwrote.load_eq h.intact hmade, hpasses]
      rfl
    refine ⟨hstart, fun name hparse hstored => ?_⟩
    have hbranch : (w.store.withoutNullNotes.branch? name).isSome := hstored
    rw [Database.openWith_eq hparse hstart, if_pos hbranch]

/-! ### A revision that is moved -/

/-- A revision is added to the branch `dev` and then moved to another one. The branch `main` is there
as well. -/
def moves (branch : BranchName) : List Write :=
  [.createBranch ⟨.main, ⟨0, 0⟩⟩, .createBranch ⟨⟨"dev"⟩, ⟨0, 0⟩⟩,
    .createRevision (.start ⟨"r"⟩ ⟨"dev"⟩ none ⟨0, 0⟩),
    .updateRevision (.start ⟨"r"⟩ branch none ⟨0, 0⟩)]

/-- The transaction in which it is moved. -/
def moving (branch : BranchName) : Workspace :=
  ⟨(Transaction.mk ∅ []).attemptAll (moves branch), Database.nowhere.supply⟩

/-- The database on disk in which this happens. -/
def unmoved : Database :=
  ⟨{ onDisk := true }, .main, ∅, Database.nowhere⟩

theorem built_moving (branch : BranchName) : (moving branch).store.Built :=
  .tried .empty _

theorem madeOf_moving (branch : BranchName) : (moving branch).store.MadeOf .storable := by
  have hzero : (⟨0, 0⟩ : Instant).Valid := by decide +kernel
  refine Store.MadeOf.attemptAll (t := ⟨∅, []⟩) .empty ?_
  simp only [moves, List.forall_mem_cons, List.not_mem_nil, false_imp_iff, implies_true, and_true]
  exact ⟨hzero, hzero, ⟨trivial, hzero⟩, ⟨trivial, hzero⟩⟩

/-- A commit that is not refused has written a snapshot. -/
theorem wrote_moving {branch : BranchName} (hok : (unmoved.commit (moving branch)).1.isOk = true)
    (hpersists : unmoved.persists (moving branch).transaction = true) :
    unmoved.Wrote (moving branch) (unmoved.commit (moving branch)).2 := by
  have hzero : (⟨0, 0⟩ : Instant).Valid := by decide +kernel
  refine ⟨hpersists, ?_, hzero⟩
  rcases hcommit : unmoved.commit (moving branch) with ⟨fault | _, db⟩
  · rw [hcommit] at hok
    cases hok
  · rfl

/-- On a branch that is there the revision passes, and the file is opened again. -/
theorem checked_moved :
    (moving .main).store.Checked ∧ (moving .main).store.damage? = none ∧
      Database.openWith { onDisk := true } (unmoved.commit (moving .main)).2.surroundings =
        .ok ⟨{ onDisk := true }, .main, (moving .main).store.withoutNullNotes,
          (unmoved.commit (moving .main)).2.surroundings⟩ := by
  have hchecked := checked_of_built (built_moving .main)
  have hplace : (moving .main).store.BuiltInPlace :=
    .tried .empty _ ⟨trivial, trivial, trivial, by
      change Option.isSome _ = true
      decide +kernel, trivial⟩
  have hpasses := hchecked.in_place hplace
  have hwrote : unmoved.Wrote (moving .main) (unmoved.commit (moving .main)).2 :=
    wrote_moving (by decide +kernel) (by decide +kernel)
  obtain ⟨-, hopen⟩ := hchecked.opened unmoved _ _ rfl hwrote (madeOf_moving .main) hpasses
    { onDisk := true } rfl
  exact ⟨hchecked, hpasses, hopen .main (by decide +kernel) (by decide +kernel)⟩

/-- On a branch that is missing it does not pass. All the writes are accepted, the commit succeeds, and
what it has written cannot be opened. -/
theorem refused_moved :
    (moves ⟨"ghost"⟩).foldlM Transaction.perform (Transaction.mk ∅ []) =
        .ok (moving ⟨"ghost"⟩).transaction ∧
      (moving ⟨"ghost"⟩).store.damage? = some (.revisionWithoutBranch ⟨"r"⟩ ⟨"ghost"⟩) ∧
      unmoved.Wrote (moving ⟨"ghost"⟩) (unmoved.commit (moving ⟨"ghost"⟩)).2 ∧
      ∀ db, Database.openWith { onDisk := true }
        (unmoved.commit (moving ⟨"ghost"⟩)).2.surroundings ≠ .ok db := by
  have hdamage : (moving ⟨"ghost"⟩).store.damage? =
      some (.revisionWithoutBranch ⟨"r"⟩ ⟨"ghost"⟩) := by
    decide +kernel
  have hwrote : unmoved.Wrote (moving ⟨"ghost"⟩) (unmoved.commit (moving ⟨"ghost"⟩)).2 :=
    wrote_moving (by decide +kernel) (by decide +kernel)
  refine ⟨?_, hdamage, hwrote, fun db hopen => ?_⟩
  · have hok : ((moves ⟨"ghost"⟩).foldlM Transaction.perform (Transaction.mk ∅ [])).isOk = true := by
      decide +kernel
    rcases haccepted : (moves ⟨"ghost"⟩).foldlM Transaction.perform (Transaction.mk ∅ []) with
      fault | t
    · rw [haccepted] at hok
      cases hok
    · rw [moving, Transaction.attemptAll_of_accepted haccepted]
  have hload := hwrote.load_eq (built_moving _).intact (madeOf_moving _)
  rw [hdamage] at hload
  rcases Database.openWith_cases { onDisk := true }
    (unmoved.commit (moving ⟨"ghost"⟩)).2.surroundings with ⟨fault, herror⟩ | ⟨name, s, -, hstart⟩
  · rw [herror] at hopen
    cases hopen
  · rw [hwrote.initialStore_eq rfl, hload] at hstart
    cases hstart

end Store

end VersionedTables
