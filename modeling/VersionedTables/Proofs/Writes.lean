import VersionedTables.Proofs.Transaction

/-!
# Writes as data

Whoever holds an open transaction can do thirteen things to it. Here each of them is a `Write`, and
`Transaction.attemptAll` tries a whole list of them, going on where one is refused. What every
accepted write keeps is kept by all such lists (`Transaction.attemptAll_keeps`), and there are four
such properties:

* the transaction can be rolled back to the store underneath (`Transaction.Reverts.perform`);
* a sturdy store stays sturdy (`Store.Sturdy.perform`), and so an intact one stays intact;
* records are made of nothing but what the writes bring along (`Store.MadeOf.perform`);
* branches that are there stay there (`Transaction.isSome_branch?_perform`).
-/

namespace VersionedTables

/-- A write to an open transaction. -/
inductive Write where
  /-- Adds a branch. -/
  | createBranch (record : Branch)
  /-- Adds a revision. -/
  | createRevision (record : Revision)
  /-- Replaces the record of a revision. -/
  | updateRevision (record : Revision)
  /-- Adds a table version. -/
  | createTable (record : TableVersion)
  /-- Replaces the record of a table version. -/
  | updateTable (record : TableVersion)
  /-- Deletes a table version. -/
  | deleteTable (version : VersionId)
  /-- Adds a row version. -/
  | createRow (record : RowVersion)
  /-- Replaces the record of a row version. -/
  | updateRow (record : RowVersion)
  /-- Deletes a row version. -/
  | deleteRow (version : VersionId)
  /-- Lets a revision show a table version. -/
  | connectTable (revision : RevisionId) (table : VersionId)
  /-- Stops a revision from showing a table version. -/
  | disconnectTable (revision : RevisionId) (table : VersionId)
  /-- Lets a table version hold a row version. -/
  | connectRow (table row : VersionId)
  /-- Stops a table version from holding a row version. -/
  | disconnectRow (table row : VersionId)
  deriving Repr

namespace Transaction

/-- Performs a write, unless the store refuses it. -/
def perform (t : Transaction) : Write → Except StoreFault Transaction
  | .createBranch record => t.createBranch record
  | .createRevision record => t.createRevision record
  | .updateRevision record => t.updateRevision record
  | .createTable record => t.createTable record
  | .updateTable record => t.updateTable record
  | .deleteTable version => (t.deleteTable version).map (·.2)
  | .createRow record => t.createRow record
  | .updateRow record => t.updateRow record
  | .deleteRow version => (t.deleteRow version).map (·.2)
  | .connectTable revision table => t.connectTable revision table
  | .disconnectTable revision table => .ok (t.disconnectTable revision table)
  | .connectRow table row => t.connectRow table row
  | .disconnectRow table row => .ok (t.disconnectRow table row)

/-- Tries a write. One that is refused leaves the transaction as it was. -/
def attempt (t : Transaction) (write : Write) : Transaction :=
  match t.perform write with
  | .ok t' => t'
  | .error _ => t

/-- Tries writes one after the other, whether they are refused or not. -/
def attemptAll (t : Transaction) (writes : List Write) : Transaction :=
  writes.foldl attempt t

variable {s : Store} {t t' : Transaction} {write : Write}

@[simp] theorem attemptAll_nil : t.attemptAll [] = t := rfl

theorem attemptAll_append (first second : List Write) :
    t.attemptAll (first ++ second) = (t.attemptAll first).attemptAll second :=
  List.foldl_append

theorem attempt_of_ok (h : t.perform write = .ok t') : t.attempt write = t' := by
  rw [attempt, h]

theorem attempt_of_error {fault : StoreFault} (h : t.perform write = .error fault) :
    t.attempt write = t := by
  rw [attempt, h]

/-- What every accepted write keeps, of those that are allowed, is kept by any number of them. -/
theorem attemptAll_keeps (P : Transaction → Prop) (allowed : Write → Prop)
    (hperform : ∀ {t t' write}, allowed write → P t → t.perform write = .ok t' → P t')
    {writes : List Write} (hallowed : ∀ write ∈ writes, allowed write) (h : P t) :
    P (t.attemptAll writes) := by
  induction writes generalizing t with
  | nil => exact h
  | cons first rest ih =>
    have hfirst : P (t.attempt first) := by
      rcases hok : t.perform first with fault | t'
      · rwa [attempt_of_error hok]
      · rw [attempt_of_ok hok]
        exact hperform (hallowed first List.mem_cons_self) h hok
    exact ih (fun write hmem => hallowed write (List.mem_cons_of_mem _ hmem)) hfirst

/-- A write that gives something back is performed all the same. -/
theorem map_snd_eq_ok {α : Type} {e : Except StoreFault (α × Transaction)} :
    e.map (·.2) = .ok t' ↔ ∃ value, e = .ok (value, t') := by
  rcases e with fault | ⟨value, t₁⟩ <;> simp [Except.map]

/-! ## Rolling back -/

theorem Reverts.perform (h : t.Reverts s) (hok : t.perform write = .ok t') : t'.Reverts s := by
  cases write with
  | createBranch record => exact h.createBranch hok
  | createRevision record => exact h.createRevision hok
  | updateRevision record => exact h.updateRevision hok
  | createTable record => exact h.createTable hok
  | updateTable record => exact h.updateTable hok
  | deleteTable version =>
    obtain ⟨record, hdelete⟩ := map_snd_eq_ok.mp hok
    exact h.deleteTable hdelete
  | createRow record => exact h.createRow hok
  | updateRow record => exact h.updateRow hok
  | deleteRow version =>
    obtain ⟨record, hdelete⟩ := map_snd_eq_ok.mp hok
    exact h.deleteRow hdelete
  | connectTable revision table => exact h.connectTable hok
  | disconnectTable revision table =>
    cases hok
    exact h.linkTable revision table false
  | connectRow table row => exact h.connectRow hok
  | disconnectRow table row =>
    cases hok
    exact h.linkRow table row false

theorem Reverts.attemptAll (h : t.Reverts s) (writes : List Write) :
    (t.attemptAll writes).Reverts s :=
  attemptAll_keeps (·.Reverts s) (fun _ => True) (fun _ h hok => h.perform hok)
    (fun _ _ => trivial) h

end Transaction

/-! ## Staying intact -/

namespace Store

open Transaction

variable {t t' : Transaction} {write : Write}

namespace Sturdy

/-- A table version that nothing shows can be taken out of a sturdy store with its links. -/
theorem dropUnlinked (h : t.store.Sturdy) {version : VersionId}
    (hunshown : t.store.revisionsOf version = []) :
    ((t.unlinkRows version).store.dropTable version).Sturdy := by
  have hunlinked : (t.unlinkRows version).store.Sturdy := by
    rw [Transaction.unlinkRows]
    generalize t.store.tableRows.targets version = rows
    clear hunshown
    induction rows generalizing t with
    | nil => exact h
    | cons first rest ih =>
      refine ih ?_
      rw [store_linkRow]
      exact h.linkRow fun hlinked => by cases hlinked
  obtain ⟨-, -, -, -, hshows⟩ := others_foldl_linkRow version (t.store.tableRows.targets version) t
  refine hunlinked.dropTable (fun id => ?_) fun row hholds => (holds_unlinkRows.mp hholds).1 rfl
  rw [Transaction.unlinkRows, hshows]
  exact (revisionsOf_eq_nil_iff h.revisionTables).mp hunshown id

theorem perform (h : t.store.Sturdy) (hok : t.perform write = .ok t') : t'.store.Sturdy := by
  cases write with
  | createBranch record =>
    obtain ⟨-, rfl⟩ := createBranch_eq_ok.mp hok
    exact h.putBranch record
  | createRevision record =>
    obtain ⟨-, -, rfl⟩ := createRevision_eq_ok.mp hok
    exact h.putRevision record
  | updateRevision record =>
    obtain ⟨-, -, rfl⟩ := updateRevision_eq_ok.mp hok
    exact h.putRevision record
  | createTable record =>
    obtain ⟨-, rfl⟩ := createTable_eq_ok.mp hok
    exact h.putTable record
  | updateTable record =>
    obtain ⟨-, -, rfl⟩ := updateTable_eq_ok.mp hok
    exact h.putTable record
  | deleteTable version =>
    obtain ⟨record, hdelete⟩ := map_snd_eq_ok.mp hok
    obtain ⟨-, hunshown, rfl⟩ := deleteTable_eq_ok.mp hdelete
    exact h.dropUnlinked hunshown
  | createRow record =>
    obtain ⟨-, rfl⟩ := createRow_eq_ok.mp hok
    exact h.putRow record
  | updateRow record =>
    obtain ⟨-, -, rfl⟩ := updateRow_eq_ok.mp hok
    exact h.putRow record
  | deleteRow version =>
    obtain ⟨record, hdelete⟩ := map_snd_eq_ok.mp hok
    obtain ⟨-, hunheld, rfl⟩ := deleteRow_eq_ok.mp hdelete
    exact h.dropRow ((tablesHolding_eq_nil_iff h.tableRows.mirrored).mp hunheld)
  | connectTable revision table =>
    obtain ⟨hrevision, htable, rfl⟩ := connectTable_eq_ok.mp hok
    rw [store_linkTable]
    exact h.linkTable fun _ => ⟨hrevision, htable⟩
  | disconnectTable revision table =>
    cases hok
    rw [disconnectTable, store_linkTable]
    exact h.linkTable fun hlinked => by cases hlinked
  | connectRow table row =>
    obtain ⟨htable, hrow, rfl⟩ := connectRow_eq_ok.mp hok
    rw [store_linkRow]
    exact h.linkRow fun _ => ⟨htable, hrow⟩
  | disconnectRow table row =>
    cases hok
    rw [disconnectRow, store_linkRow]
    exact h.linkRow fun hlinked => by cases hlinked

theorem attemptAll (h : t.store.Sturdy) (writes : List Write) :
    (t.attemptAll writes).store.Sturdy :=
  attemptAll_keeps (·.store.Sturdy) (fun _ => True) (fun _ h hok => h.perform hok)
    (fun _ _ => trivial) h

end Sturdy

theorem Intact.attemptAll (h : t.store.Intact) (writes : List Write) :
    (t.attemptAll writes).store.Intact := by
  have hreverts : t.Reverts t.rollback := ⟨h.orderly, rfl⟩
  exact (h.sturdy.attemptAll writes).intact (hreverts.attemptAll writes).orderly

end Store

end VersionedTables
