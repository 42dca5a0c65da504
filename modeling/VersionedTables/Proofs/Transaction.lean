import VersionedTables.Proofs.Store
import VersionedTables.Transaction

/-!
# The laws of transactions

`Transaction.Reverts s t` says that `t` is a transaction on top of the store `s`: its store is
orderly, and rolling it back gives `s`. Every write keeps this, whatever its arguments
(`Reverts.createBranch` and its companions), because a write journals exactly what undoes it. So a
transaction can be rolled back to the very store it began with, no matter what was done in it.

A refused write leaves no trace at all; when a write is accepted is said by the `_eq_ok` theorems.
-/

namespace VersionedTables

open Std

namespace Transaction

/-- A transaction on top of a store: it keeps an orderly store, and can be rolled back exactly. -/
structure Reverts (s : Store) (t : Transaction) : Prop where
  /-- The store as it is now is orderly. -/
  orderly : t.store.Orderly
  /-- Rolling back gives the store underneath. -/
  rollback : t.rollback = s

/-! ## When writes are accepted -/

variable {s : Store} {t t' : Transaction}

theorem contains_eq_isSome {κ ν : Type} [Ord κ] [TransOrd κ] {map : ExtTreeMap κ ν compare} {k : κ} :
    map.contains k = map[k]?.isSome :=
  ExtTreeMap.contains_eq_isSome_getElem?

theorem createBranch_eq_ok {record : Branch} :
    t.createBranch record = .ok t' ↔ t.store.branch? record.name = none ∧
      t' = t.record (t.store.putBranch record) (.branch record.name none) := by
  rw [createBranch, contains_eq_isSome, ← Store.branch?]
  rcases t.store.branch? record.name with _ | old <;> simp [eq_comm]

theorem createRevision_eq_ok {record : Revision} :
    t.createRevision record = .ok t' ↔ t.store.revision? record.id = none ∧
      (t.store.branch? record.branch).isSome ∧
      t' = t.record (t.store.putRevision record) (.revision record.id none) := by
  rw [createRevision, contains_eq_isSome, contains_eq_isSome, ← Store.revision?, ← Store.branch?]
  rcases t.store.revision? record.id with _ | old <;>
    rcases t.store.branch? record.branch with _ | branch <;> simp [eq_comm]

theorem updateRevision_eq_ok {record : Revision} :
    t.updateRevision record = .ok t' ↔ ∃ old, t.store.revision? record.id = some old ∧
      t' = t.record (t.store.putRevision record) (.revision record.id (some old)) := by
  rw [updateRevision]
  rcases t.store.revision? record.id with _ | old <;> simp [eq_comm]

theorem createTable_eq_ok {record : TableVersion} :
    t.createTable record = .ok t' ↔ t.store.table? record.version = none ∧
      t' = t.record (t.store.putTable record) (.table record.version none) := by
  rw [createTable, contains_eq_isSome, ← Store.table?]
  rcases t.store.table? record.version with _ | old <;> simp [eq_comm]

theorem updateTable_eq_ok {record : TableVersion} :
    t.updateTable record = .ok t' ↔ ∃ old, t.store.table? record.version = some old ∧
      t' = t.record (t.store.putTable record) (.table record.version (some old)) := by
  rw [updateTable]
  rcases t.store.table? record.version with _ | old <;> simp [eq_comm]

theorem createRow_eq_ok {record : RowVersion} :
    t.createRow record = .ok t' ↔ t.store.row? record.version = none ∧
      t' = t.record (t.store.putRow record) (.row record.version none) := by
  rw [createRow, contains_eq_isSome, ← Store.row?]
  rcases t.store.row? record.version with _ | old <;> simp [eq_comm]

theorem updateRow_eq_ok {record : RowVersion} :
    t.updateRow record = .ok t' ↔ ∃ old, t.store.row? record.version = some old ∧
      t' = t.record (t.store.putRow record) (.row record.version (some old)) := by
  rw [updateRow]
  rcases t.store.row? record.version with _ | old <;> simp [eq_comm]

theorem connectTable_eq_ok {revision : RevisionId} {table : VersionId} :
    t.connectTable revision table = .ok t' ↔ (t.store.revision? revision).isSome ∧
      (t.store.table? table).isSome ∧ t' = t.linkTable revision table true := by
  rw [connectTable, contains_eq_isSome, contains_eq_isSome, ← Store.revision?, ← Store.table?]
  rcases t.store.revision? revision with _ | old <;>
    rcases t.store.table? table with _ | record <;> simp [eq_comm]

theorem connectRow_eq_ok {table row : VersionId} :
    t.connectRow table row = .ok t' ↔ (t.store.table? table).isSome ∧
      (t.store.row? row).isSome ∧ t' = t.linkRow table row true := by
  rw [connectRow, contains_eq_isSome, contains_eq_isSome, ← Store.table?, ← Store.row?]
  rcases t.store.table? table with _ | old <;>
    rcases t.store.row? row with _ | record <;> simp [eq_comm]

/-- The transaction in which a table version holds nothing any more. -/
def unlinkRows (t : Transaction) (version : VersionId) : Transaction :=
  (t.store.tableRows.targets version).foldl (fun t row => t.linkRow version row false) t

theorem deleteTable_eq_ok {version : VersionId} {record : TableVersion} :
    t.deleteTable version = .ok (record, t') ↔ t.store.table? version = some record ∧
      t.store.revisionsOf version = [] ∧
      t' = (t.unlinkRows version).record ((t.unlinkRows version).store.dropTable version)
        (.table version (some record)) := by
  rw [deleteTable, unlinkRows]
  rcases t.store.table? version with _ | old
  · simp
  · rcases t.store.revisionsOf version with _ | ⟨first, rest⟩
    · simp only [List.length_nil, gt_iff_lt, Nat.lt_irrefl, if_false, Except.ok.injEq,
        Prod.mk.injEq, Option.some.injEq, true_and]
      refine ⟨?_, ?_⟩
      · rintro ⟨rfl, rfl⟩
        exact ⟨rfl, rfl⟩
      · rintro ⟨rfl, rfl⟩
        exact ⟨rfl, rfl⟩
    · simp

theorem deleteRow_eq_ok {version : VersionId} {record : RowVersion} :
    t.deleteRow version = .ok (record, t') ↔ t.store.row? version = some record ∧
      t.store.tablesHolding version = [] ∧
      t' = t.record (t.store.dropRow version) (.row version (some record)) := by
  rw [deleteRow]
  rcases t.store.row? version with _ | old
  · simp
  · rcases t.store.tablesHolding version with _ | ⟨first, rest⟩
    · simp only [List.length_nil, gt_iff_lt, Nat.lt_irrefl, if_false, Except.ok.injEq,
        Prod.mk.injEq, Option.some.injEq, true_and]
      refine ⟨?_, ?_⟩
      · rintro ⟨rfl, rfl⟩
        exact ⟨rfl, rfl⟩
      · rintro ⟨rfl, rfl⟩
        exact ⟨rfl, rfl⟩
    · simp

/-! ## What writes leave behind -/

@[simp] theorem store_record (store : Store) (undo : Undo) : (t.record store undo).store = store :=
  rfl

@[simp] theorem store_linkTable (revision : RevisionId) (table : VersionId) (linked : Bool) :
    (t.linkTable revision table linked).store = t.store.linkTable revision table linked := by
  rw [linkTable]
  split <;> rfl

@[simp] theorem store_linkRow (table row : VersionId) (linked : Bool) :
    (t.linkRow table row linked).store = t.store.linkRow table row linked := by
  rw [linkRow]
  split <;> rfl

/-- Unlinking rows one by one, starting anywhere, unlinks those and no others. -/
theorem holds_foldl_linkRow {version : VersionId} (rows : List VersionId) (t : Transaction)
    (holder row : VersionId) :
    (rows.foldl (fun t row => t.linkRow version row false) t).store.Holds holder row ↔
      ¬(holder = version ∧ row ∈ rows) ∧ t.store.Holds holder row := by
  induction rows generalizing t with
  | nil => simp
  | cons first rest ih =>
    rw [List.foldl_cons, ih, store_linkRow, Store.holds_linkRow]
    by_cases hfirst : holder = version ∧ row = first
    · simp [hfirst]
    · rw [if_neg hfirst, List.mem_cons]
      exact and_congr_left fun _ => by tauto

/-- Unlinking rows touches nothing but links to rows. -/
theorem others_foldl_linkRow (version : VersionId) (rows : List VersionId) (t : Transaction) :
    let after := rows.foldl (fun t row => t.linkRow version row false) t
    after.store.branch? = t.store.branch? ∧ after.store.revision? = t.store.revision? ∧
      after.store.table? = t.store.table? ∧ after.store.row? = t.store.row? ∧
      after.store.Shows = t.store.Shows := by
  induction rows generalizing t with
  | nil => exact ⟨rfl, rfl, rfl, rfl, rfl⟩
  | cons first rest ih =>
    have hfirst := ih (t.linkRow version first false)
    rw [store_linkRow] at hfirst
    exact hfirst

/-- After unlinking its rows, a table version holds none, and the others hold what they held. -/
theorem holds_unlinkRows {version holder row : VersionId} :
    (t.unlinkRows version).store.Holds holder row ↔
      holder ≠ version ∧ t.store.Holds holder row := by
  rw [unlinkRows, holds_foldl_linkRow, Links.mem_targets]
  refine ⟨?_, ?_⟩
  · rintro ⟨hnot, hholds⟩
    refine ⟨?_, hholds⟩
    rintro rfl
    exact hnot ⟨rfl, hholds⟩
  · rintro ⟨hne, hholds⟩
    exact ⟨fun heq => hne heq.1, hholds⟩

/-! ## Undoing -/

theorem rollback_record (store : Store) (undo : Undo) :
    (t.record store undo).rollback = (Transaction.mk (undo.apply store) t.journal).rollback :=
  rfl

theorem Reverts.begin (h : s.Orderly) : (Transaction.mk s []).Reverts s :=
  ⟨h, rfl⟩

/-- Without a journal a transaction has changed nothing. -/
theorem Reverts.store_eq (h : t.Reverts s) (hjournal : t.journal = []) : t.store = s := by
  rw [← h.rollback, Transaction.rollback, hjournal]
  rfl

/-- A change that is journaled with what undoes it can be rolled back. -/
theorem Reverts.record (h : t.Reverts s) {store : Store} {undo : Undo} (horderly : store.Orderly)
    (hundo : undo.apply store = t.store) : (t.record store undo).Reverts s := by
  refine ⟨horderly, ?_⟩
  rw [rollback_record, hundo]
  exact h.rollback

/-- Putting a record back in the place of a new one. -/
theorem insert_insert {κ ν : Type} [Ord κ] [TransOrd κ] [LawfulEqOrd κ] [DecidableEq κ]
    {map : ExtTreeMap κ ν compare} {k : κ} {old new : ν} (h : map[k]? = some old) :
    (map.insert k new).insert k old = map := by
  apply ExtTreeMap.ext_getElem?
  intro a
  rw [Store.getElem?_insert_eq, Store.getElem?_insert_eq]
  split
  · next heq => rw [heq, h]
  · rfl

/-- Dropping a record that was new. -/
theorem erase_insert {κ ν : Type} [Ord κ] [TransOrd κ] [LawfulEqOrd κ] [DecidableEq κ]
    {map : ExtTreeMap κ ν compare} {k : κ} {new : ν} (h : map[k]? = none) :
    (map.insert k new).erase k = map := by
  apply ExtTreeMap.ext_getElem?
  intro a
  rw [Store.getElem?_erase_eq, Store.getElem?_insert_eq]
  split
  · next heq => rw [heq, h]
  · rfl

/-- Putting back a record that was dropped. -/
theorem insert_erase {κ ν : Type} [Ord κ] [TransOrd κ] [LawfulEqOrd κ] [DecidableEq κ]
    {map : ExtTreeMap κ ν compare} {k : κ} {old : ν} (h : map[k]? = some old) :
    (map.erase k).insert k old = map := by
  apply ExtTreeMap.ext_getElem?
  intro a
  rw [Store.getElem?_insert_eq, Store.getElem?_erase_eq]
  split
  · next heq => rw [heq, h]
  · rfl

namespace Reverts

variable (h : t.Reverts s)

include h

theorem createBranch {record : Branch} (hok : t.createBranch record = .ok t') : t'.Reverts s := by
  obtain ⟨hnew, rfl⟩ := createBranch_eq_ok.mp hok
  refine h.record (h.orderly.putBranch record) ?_
  rw [Undo.apply, Store.dropBranch, Store.putBranch, erase_insert hnew]

theorem createRevision {record : Revision} (hok : t.createRevision record = .ok t') :
    t'.Reverts s := by
  obtain ⟨hnew, -, rfl⟩ := createRevision_eq_ok.mp hok
  refine h.record (h.orderly.putRevision record) ?_
  rw [Undo.apply, Store.dropRevision, Store.putRevision, erase_insert hnew]

theorem updateRevision {record : Revision} (hok : t.updateRevision record = .ok t') :
    t'.Reverts s := by
  obtain ⟨old, hold, rfl⟩ := updateRevision_eq_ok.mp hok
  refine h.record (h.orderly.putRevision record) ?_
  rw [Undo.apply, Store.putRevision, Store.putRevision, h.orderly.id_eq hold, insert_insert hold]

theorem createTable {record : TableVersion} (hok : t.createTable record = .ok t') : t'.Reverts s := by
  obtain ⟨hnew, rfl⟩ := createTable_eq_ok.mp hok
  refine h.record (h.orderly.putTable record) ?_
  rw [Undo.apply, Store.dropTable, Store.putTable, erase_insert hnew]

theorem updateTable {record : TableVersion} (hok : t.updateTable record = .ok t') : t'.Reverts s := by
  obtain ⟨old, hold, rfl⟩ := updateTable_eq_ok.mp hok
  refine h.record (h.orderly.putTable record) ?_
  rw [Undo.apply, Store.putTable, Store.putTable, h.orderly.table_eq hold, insert_insert hold]

theorem createRow {record : RowVersion} (hok : t.createRow record = .ok t') : t'.Reverts s := by
  obtain ⟨hnew, rfl⟩ := createRow_eq_ok.mp hok
  refine h.record (h.orderly.putRow record) ?_
  rw [Undo.apply, Store.dropRow, Store.putRow, erase_insert hnew]

theorem updateRow {record : RowVersion} (hok : t.updateRow record = .ok t') : t'.Reverts s := by
  obtain ⟨old, hold, rfl⟩ := updateRow_eq_ok.mp hok
  refine h.record (h.orderly.putRow record) ?_
  rw [Undo.apply, Store.putRow, Store.putRow, h.orderly.row_eq hold, insert_insert hold]

theorem linkTable (revision : RevisionId) (table : VersionId) (linked : Bool) :
    (t.linkTable revision table linked).Reverts s := by
  -- A link that is already as it should be is not journaled, and there is nothing to undo.
  rw [Transaction.linkTable]
  split
  · next hsame =>
    have hstore : t.store.linkTable revision table linked = t.store := by
      rw [Store.linkTable, ← hsame, h.orderly.revisionTables.set_self]
    rw [hstore]
    exact h
  · refine h.record (h.orderly.linkTable revision table linked) ?_
    rw [Undo.apply, Store.linkTable, Store.linkTable, h.orderly.revisionTables.set_set]

theorem linkRow (table row : VersionId) (linked : Bool) :
    (t.linkRow table row linked).Reverts s := by
  rw [Transaction.linkRow]
  split
  · next hsame =>
    have hstore : t.store.linkRow table row linked = t.store := by
      rw [Store.linkRow, ← hsame, h.orderly.tableRows.set_self]
    rw [hstore]
    exact h
  · refine h.record (h.orderly.linkRow table row linked) ?_
    rw [Undo.apply, Store.linkRow, Store.linkRow, h.orderly.tableRows.set_set]

theorem connectTable {revision : RevisionId} {table : VersionId}
    (hok : t.connectTable revision table = .ok t') : t'.Reverts s := by
  obtain ⟨-, -, rfl⟩ := connectTable_eq_ok.mp hok
  exact h.linkTable revision table true

theorem connectRow {table row : VersionId} (hok : t.connectRow table row = .ok t') :
    t'.Reverts s := by
  obtain ⟨-, -, rfl⟩ := connectRow_eq_ok.mp hok
  exact h.linkRow table row true

theorem unlinkRows (version : VersionId) : (t.unlinkRows version).Reverts s := by
  rw [Transaction.unlinkRows]
  -- The list of rows is read once, before any of its links is removed.
  generalize t.store.tableRows.targets version = rows
  induction rows generalizing t with
  | nil => exact h
  | cons first rest ih => exact ih (h.linkRow version first false)

theorem deleteTable {version : VersionId} {record : TableVersion}
    (hok : t.deleteTable version = .ok (record, t')) : t'.Reverts s := by
  obtain ⟨hrecord, -, rfl⟩ := deleteTable_eq_ok.mp hok
  obtain ⟨-, -, htables, -, -⟩ :=
    others_foldl_linkRow version (t.store.tableRows.targets version) t
  -- The rows are unlinked first, and the record is dropped from the store that this leaves.
  have hunlinked := h.unlinkRows version
  have hrecord' : (t.unlinkRows version).store.table? version = some record := by
    rw [Transaction.unlinkRows, htables]
    exact hrecord
  refine hunlinked.record (hunlinked.orderly.dropTable version) ?_
  rw [Undo.apply, Store.putTable, Store.dropTable, h.orderly.table_eq hrecord,
    insert_erase hrecord']

theorem deleteRow {version : VersionId} {record : RowVersion}
    (hok : t.deleteRow version = .ok (record, t')) : t'.Reverts s := by
  obtain ⟨hrecord, -, rfl⟩ := deleteRow_eq_ok.mp hok
  refine h.record (h.orderly.dropRow version) ?_
  rw [Undo.apply, Store.putRow, Store.dropRow, h.orderly.row_eq hrecord, insert_erase hrecord]

end Reverts

end Transaction

end VersionedTables
