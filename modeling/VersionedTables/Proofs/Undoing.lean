import VersionedTables.Proofs.Rollback
import VersionedTables.Proofs.Housing

/-!
# Undoing on stores that are not orderly

A store that was loaded may keep branches and revisions under identifiers of others, and empty entries
among the links of its revisions. Rolling a transaction back does not give such a store back as it
was, because what is undone goes back to where its own identifier says. But it gives back a store that
*resembles* it (`Store.Resembles`): everything is there but for some empty entries, and all that came on
top is revisions of a certain kind. Every write keeps this (`Transaction.Recedes.perform`), as long as a
revision that it replaces is of this kind, and the one that takes its place.
-/

namespace VersionedTables

open Std

/-! ## Links without some empty entries -/

namespace Links

variable {α β : Type} [Ord α] [TransOrd α] [Ord β] [TransOrd β]

/-- Links that are those of another relation, but for empty entries that were dropped. -/
structure Trims (links' links : Links α β) : Prop where
  /-- The same links are told of from the one end. -/
  forward : ∀ a b, links'.forward.holds a b = links.forward.holds a b
  /-- So they are from the other. -/
  backward : ∀ b a, links'.backward.holds b a = links.backward.holds b a
  /-- No entry has come. -/
  mem : ∀ a, a ∈ links'.forward → a ∈ links.forward

variable {links links' links'' : Links α β}

namespace Trims

theorem refl (links : Links α β) : links.Trims links :=
  ⟨fun _ _ => rfl, fun _ _ => rfl, fun _ => id⟩

theorem trans (h : links''.Trims links') (h' : links'.Trims links) : links''.Trims links :=
  ⟨fun a b => (h.forward a b).trans (h'.forward a b),
    fun b a => (h.backward b a).trans (h'.backward b a), fun a hmem => h'.mem a (h.mem a hmem)⟩

theorem mirrored (h : links'.Trims links) (hmirrored : links.Mirrored) : links'.Mirrored := by
  intro a b
  rw [h.forward, h.backward, hmirrored]

end Trims

/-- Links that both ends tell of alike are trimmed by others that do, if these are the same links. -/
theorem Mirrored.trims (h : links.Mirrored) (h' : links'.Mirrored)
    (hlinks : ∀ a b, links'.contains a b = links.contains a b)
    (hmem : ∀ a, a ∈ links'.forward → a ∈ links.forward) : links'.Trims links :=
  ⟨hlinks, fun b a => by rw [h, h']; exact hlinks a b, hmem⟩

variable [LawfulEqOrd α] [LawfulEqOrd β]

/-- Setting a link keeps what is trimmed trimmed. -/
protected theorem Trims.set (h : links'.Trims links) (a : α) (b : β) (linked : Bool) :
    (links'.set a b linked).Trims (links.set a b linked) := by
  cases linked with
  | true =>
    simp only [Links.set, if_true]
    refine ⟨fun a' b' => ?_, fun b' a' => ?_, fun a' hmem => ?_⟩
    · rw [Bool.eq_iff_iff, Side.holds_add, Side.holds_add, h.forward]
    · rw [Bool.eq_iff_iff, Side.holds_add, Side.holds_add, h.backward]
    · exact Side.mem_add.mpr ((Side.mem_add.mp hmem).imp_right (h.mem a'))
  | false =>
    simp only [Links.set, Bool.false_eq_true, if_false]
    refine ⟨fun a' b' => ?_, fun b' a' => ?_, fun a' hmem => ?_⟩
    · rw [Bool.eq_iff_iff, Side.holds_remove, Side.holds_remove, h.forward]
    · rw [Bool.eq_iff_iff, Side.holds_remove, Side.holds_remove, h.backward]
    · -- An entry that still has a partner has it in both.
      obtain ⟨hmem, hother⟩ := Side.mem_remove.mp hmem
      refine Side.mem_remove.mpr ⟨h.mem a' hmem, fun heq => ?_⟩
      obtain ⟨b', hne, hholds⟩ := hother heq
      exact ⟨b', hne, h.forward a b' ▸ hholds⟩

variable [DecidableEq α] [DecidableEq β]

/-- Setting a link to what it is already drops an empty entry at most. -/
theorem Mirrored.trims_set_self (h : links.Mirrored) (a : α) (b : β) :
    (links.set a b (links.contains a b)).Trims links := by
  refine h.trims (h.set a b _) (fun a' b' => ?_) fun a' hmem => ?_
  · rw [Bool.eq_iff_iff, contains_set]
    split
    · next heq => rw [heq.1, heq.2]
    · exact Iff.rfl
  · rcases mem_forward_set hmem with ⟨rfl, hlinked⟩ | hold
    · exact Side.mem_of_holds hlinked
    · exact hold

/-- Setting a link and setting it back drops an empty entry at most. -/
theorem Mirrored.trims_set_set (h : links.Mirrored) (a : α) (b : β) (linked : Bool) :
    ((links.set a b linked).set a b (links.contains a b)).Trims links := by
  refine h.trims ((h.set a b linked).set a b _) (fun a' b' => ?_) fun a' hmem => ?_
  · rw [Bool.eq_iff_iff, contains_set, contains_set]
    split
    · next heq => rw [heq.1, heq.2]
    · exact Iff.rfl
  rcases hlinked : links.contains a b with _ | _ <;> rw [hlinked] at hmem
  · -- The link was not there: an entry is left only if it has another partner.
    obtain ⟨hmem, hother⟩ := Side.mem_remove.mp hmem
    rcases mem_forward_set hmem with ⟨rfl, -⟩ | hold
    · obtain ⟨b', hne, hholds⟩ := hother rfl
      have hholds := contains_set.mp hholds
      rw [if_neg fun heq => hne heq.2] at hholds
      exact Side.mem_of_holds hholds
    · exact hold
  · rcases mem_forward_set hmem with ⟨rfl, -⟩ | hmem
    · exact Side.mem_of_holds hlinked
    rcases mem_forward_set hmem with ⟨rfl, -⟩ | hold
    · exact Side.mem_of_holds hlinked
    · exact hold

end Links

/-! ## Stores that resemble one another -/

namespace Store

/-- A store that has all that another one has, but for some empty entries, and on top of it at most
revisions of a certain kind. -/
structure Resembles (extra : Revision → Prop) (s' s : Store) : Prop where
  branches_eq : s'.branches = s.branches
  tables_eq : s'.tables = s.tables
  rows_eq : s'.rows = s.rows
  tableRows_eq : s'.tableRows = s.tableRows
  /-- The links of revisions are the same. -/
  revisionTables : s'.revisionTables.Trims s.revisionTables
  /-- No revision is missing. -/
  revision_isSome : ∀ {id}, (s.revision? id).isSome → (s'.revision? id).isSome
  /-- A revision that was not there is of this kind. -/
  revision_or : ∀ {id record}, s'.revision? id = some record →
    s.revision? id = some record ∨ extra record

variable {extra : Revision → Prop} {s s' s'' : Store}

namespace Resembles

theorem refl (s : Store) : s.Resembles extra s :=
  ⟨rfl, rfl, rfl, rfl, .refl _, id, .inl⟩

theorem trans (h : s''.Resembles extra s') (h' : s'.Resembles extra s) : s''.Resembles extra s where
  branches_eq := h.branches_eq.trans h'.branches_eq
  tables_eq := h.tables_eq.trans h'.tables_eq
  rows_eq := h.rows_eq.trans h'.rows_eq
  tableRows_eq := h.tableRows_eq.trans h'.tableRows_eq
  revisionTables := h.revisionTables.trans h'.revisionTables
  revision_isSome hid := h.revision_isSome (h'.revision_isSome hid)
  revision_or hrecord := (h.revision_or hrecord).elim h'.revision_or .inr

theorem putRevision (h : s'.Resembles extra s) (record : Revision) :
    (s'.putRevision record).Resembles extra (s.putRevision record) :=
  { h with
    revision_isSome := by grind [h.revision_isSome, revision?_putRevision]
    revision_or := by grind [h.revision_or, revision?_putRevision] }

theorem dropRevision (h : s'.Resembles extra s) (id : RevisionId) :
    (s'.dropRevision id).Resembles extra (s.dropRevision id) :=
  { h with
    revision_isSome := by grind [h.revision_isSome, revision?_dropRevision]
    revision_or := by grind [h.revision_or, revision?_dropRevision] }

/-- A revision that was replaced goes back to where its own identifier says, so the one that took its
place may be left. -/
theorem of_putRevision {record old : Revision} (hrecord : extra record) (hold : extra old) :
    ((s.putRevision record).putRevision old).Resembles extra s :=
  { (refl s : s.Resembles extra s) with
    revision_isSome := by grind [revision?_putRevision]
    revision_or := by grind [revision?_putRevision] }

/-- Undoing a change keeps the resemblance. -/
theorem apply (h : s'.Resembles extra s) (undo : Undo) :
    (undo.apply s').Resembles extra (undo.apply s) := by
  cases undo with
  | branch name previous =>
    cases previous with
    | none => exact { h with branches_eq := congrArg (·.erase name) h.branches_eq }
    | some record => exact { h with branches_eq := congrArg (·.insert record.name record) h.branches_eq }
  | revision id previous =>
    cases previous with
    | none => exact h.dropRevision id
    | some record => exact h.putRevision record
  | table version previous =>
    cases previous with
    | none => exact { h with tables_eq := congrArg (·.erase version) h.tables_eq }
    | some record => exact { h with tables_eq := congrArg (·.insert record.version record) h.tables_eq }
  | row version previous =>
    cases previous with
    | none => exact { h with rows_eq := congrArg (·.erase version) h.rows_eq }
    | some record => exact { h with rows_eq := congrArg (·.insert record.version record) h.rows_eq }
  | tableLink holder version linked =>
    exact { h with revisionTables := h.revisionTables.set holder version linked }
  | rowLink holder version linked =>
    exact { h with tableRows_eq := congrArg (·.set holder version linked) h.tableRows_eq }

/-- Undoing many changes keeps it as well. -/
theorem rollback (h : s'.Resembles extra s) (journal : List Undo) :
    (Transaction.mk s' journal).rollback.Resembles extra (Transaction.mk s journal).rollback := by
  induction journal generalizing s s' with
  | nil => exact h
  | cons undo rest ih => exact ih (h.apply undo)

/-! ### What a store that resembles a sturdy one is like -/

theorem branch?_eq (h : s'.Resembles extra s) (name : BranchName) : s'.branch? name = s.branch? name := by
  rw [branch?, h.branches_eq, branch?]

theorem table?_eq (h : s'.Resembles extra s) (version : VersionId) :
    s'.table? version = s.table? version := by
  rw [table?, h.tables_eq, table?]

theorem row?_eq (h : s'.Resembles extra s) (version : VersionId) : s'.row? version = s.row? version := by
  rw [row?, h.rows_eq, row?]

theorem shows_iff (h : s'.Resembles extra s) {id : RevisionId} {version : VersionId} :
    s'.Shows id version ↔ s.Shows id version :=
  Bool.eq_iff_iff.mp (h.revisionTables.forward id version)

theorem holds_iff (h : s'.Resembles extra s) {table row : VersionId} :
    s'.Holds table row ↔ s.Holds table row := by
  rw [Holds, h.tableRows_eq, Holds]

theorem sturdy (h : s'.Resembles extra s) (hs : s.Sturdy) : s'.Sturdy where
  revisionTables := h.revisionTables.mirrored hs.revisionTables
  tableRows := h.tableRows_eq ▸ hs.tableRows
  table_eq hrecord := hs.table_eq (h.table?_eq _ ▸ hrecord)
  row_eq hrecord := hs.row_eq (h.row?_eq _ ▸ hrecord)
  shower_exists hmem := h.revision_isSome (hs.shower_exists (h.revisionTables.mem _ hmem))
  shown_exists hshows := by
    rw [h.table?_eq]
    exact hs.shown_exists (h.shows_iff.mp hshows)
  holder_exists hholds := by
    rw [h.table?_eq]
    exact hs.holder_exists (h.holds_iff.mp hholds)
  held_exists hholds := by
    rw [h.row?_eq]
    exact hs.held_exists (h.holds_iff.mp hholds)

/-- The branch of every revision is there, if what came on top is of branches that are. -/
theorem housed (h : s'.Resembles extra s) (hs : s.Housed)
    (hextra : ∀ record, extra record → (s.branch? record.branch).isSome) : s'.Housed := by
  intro id record hrecord
  rw [h.branch?_eq]
  exact (h.revision_or hrecord).elim (fun hold => hs hold) (hextra record)

/-- It is made of the same material, if what came on top is. -/
theorem madeOf {m : Material} (h : s'.Resembles (·.MadeOf m) s) (hs : s.MadeOf m) : s'.MadeOf m where
  branch hrecord := hs.branch (h.branch?_eq _ ▸ hrecord)
  revision hrecord := (h.revision_or hrecord).elim hs.revision id
  table hrecord := hs.table (h.table?_eq _ ▸ hrecord)
  row hrecord := hs.row (h.row?_eq _ ▸ hrecord)

end Resembles

end Store

/-! ## Transactions -/

namespace Transaction

open Store

/-- A transaction on top of a store: it keeps a sturdy store, and rolling it back gives a store that
resembles the one underneath. -/
structure Recedes (extra : Revision → Prop) (s : Store) (t : Transaction) : Prop where
  /-- The store as it is now is sturdy. -/
  sturdy : t.store.Sturdy
  /-- Rolling back gives what resembles the store underneath. -/
  rollback : t.rollback.Resembles extra s

variable {extra : Revision → Prop} {s : Store} {t t' : Transaction} {write : Write}

/-- If a write replaces a revision, both the old record and the new one may be left on top. -/
def Replaces (extra : Revision → Prop) (t : Transaction) (write : Write) : Prop :=
  ∀ record, write = .updateRevision record → extra record ∧
    ∀ old, t.store.revision? record.id = some old → extra old

theorem Recedes.begin (h : s.Sturdy) : (Transaction.mk s []).Recedes extra s :=
  ⟨h, .refl s⟩

namespace Recedes

/-- A change that is journaled with what undoes it, but for a resemblance. -/
theorem record (h : t.Recedes extra s) {store : Store} {undo : Undo} (hsturdy : store.Sturdy)
    (hundo : (undo.apply store).Resembles extra t.store) : (t.record store undo).Recedes extra s :=
  ⟨hsturdy, (hundo.rollback t.journal).trans h.rollback⟩

/-- A change that is journaled with exactly what undoes it. -/
theorem record_exact (h : t.Recedes extra s) {store : Store} {undo : Undo} (hsturdy : store.Sturdy)
    (hundo : undo.apply store = t.store) : (t.record store undo).Recedes extra s :=
  h.record hsturdy (hundo ▸ .refl _)

theorem linkTable (h : t.Recedes extra s) {revision : RevisionId} {table : VersionId} {linked : Bool}
    (hends : linked = true →
      (t.store.revision? revision).isSome ∧ (t.store.table? table).isSome) :
    (t.linkTable revision table linked).Recedes extra s := by
  have hsturdy := h.sturdy.linkTable hends
  have hmirrored := h.sturdy.revisionTables
  rw [Transaction.linkTable]
  split
  · -- A link that is already as it should be is not journaled, but an empty entry may be dropped.
    next hsame =>
    refine ⟨hsturdy, (Resembles.rollback ?_ t.journal).trans h.rollback⟩
    exact { Resembles.refl t.store with
      revisionTables := hsame ▸ hmirrored.trims_set_self revision table }
  · refine h.record hsturdy ?_
    exact { Resembles.refl t.store with
      revisionTables := hmirrored.trims_set_set revision table linked }

theorem linkRow (h : t.Recedes extra s) {table row : VersionId} {linked : Bool}
    (hends : linked = true → (t.store.table? table).isSome ∧ (t.store.row? row).isSome) :
    (t.linkRow table row linked).Recedes extra s := by
  have hsturdy := h.sturdy.linkRow hends
  rw [Transaction.linkRow]
  split
  · next hsame =>
    have hstore : t.store.linkRow table row linked = t.store := by
      rw [Store.linkRow, ← hsame, h.sturdy.tableRows.set_self]
    rw [hstore]
    exact h
  · refine h.record_exact hsturdy ?_
    rw [Undo.apply, Store.linkRow, Store.linkRow, h.sturdy.tableRows.set_set]

theorem unlinkRows (h : t.Recedes extra s) (version : VersionId) :
    (t.unlinkRows version).Recedes extra s := by
  rw [Transaction.unlinkRows]
  generalize t.store.tableRows.targets version = rows
  induction rows generalizing t with
  | nil => exact h
  | cons first rest ih => exact ih (h.linkRow fun hlinked => by cases hlinked)

theorem updateRevision (h : t.Recedes extra s) {record : Revision} (hrecord : extra record)
    (hreplaced : ∀ old, t.store.revision? record.id = some old → extra old)
    (hok : t.updateRevision record = .ok t') : t'.Recedes extra s := by
  obtain ⟨old, hold, rfl⟩ := updateRevision_eq_ok.mp hok
  exact h.record (h.sturdy.putRevision record) (.of_putRevision hrecord (hreplaced old hold))

theorem perform (h : t.Recedes extra s) (hwrite : t.Replaces extra write) (hok : t.perform write = .ok t') :
    t'.Recedes extra s := by
  have hsturdy := h.sturdy.perform hok
  cases write with
  | createBranch record =>
    obtain ⟨hnew, rfl⟩ := createBranch_eq_ok.mp hok
    refine h.record_exact hsturdy ?_
    rw [Undo.apply, Store.dropBranch, Store.putBranch, erase_insert hnew]
  | createRevision record =>
    obtain ⟨hnew, -, rfl⟩ := createRevision_eq_ok.mp hok
    refine h.record_exact hsturdy ?_
    rw [Undo.apply, Store.dropRevision, Store.putRevision, erase_insert hnew]
  | updateRevision record =>
    obtain ⟨hrecord, hreplaced⟩ := hwrite record rfl
    exact h.updateRevision hrecord hreplaced hok
  | createTable record =>
    obtain ⟨hnew, rfl⟩ := createTable_eq_ok.mp hok
    refine h.record_exact hsturdy ?_
    rw [Undo.apply, Store.dropTable, Store.putTable, erase_insert hnew]
  | updateTable record =>
    obtain ⟨old, hold, rfl⟩ := updateTable_eq_ok.mp hok
    refine h.record_exact hsturdy ?_
    rw [Undo.apply, Store.putTable, Store.putTable, h.sturdy.table_eq hold, insert_insert hold]
  | deleteTable version =>
    obtain ⟨record, hdelete⟩ := map_snd_eq_ok.mp hok
    obtain ⟨hrecord, -, rfl⟩ := deleteTable_eq_ok.mp hdelete
    obtain ⟨-, -, htables, -, -⟩ :=
      others_foldl_linkRow version (t.store.tableRows.targets version) t
    have hrecord' : (t.unlinkRows version).store.table? version = some record := by
      rw [Transaction.unlinkRows, htables]
      exact hrecord
    refine (h.unlinkRows version).record_exact hsturdy ?_
    rw [Undo.apply, Store.putTable, Store.dropTable, h.sturdy.table_eq hrecord,
      insert_erase hrecord']
  | createRow record =>
    obtain ⟨hnew, rfl⟩ := createRow_eq_ok.mp hok
    refine h.record_exact hsturdy ?_
    rw [Undo.apply, Store.dropRow, Store.putRow, erase_insert hnew]
  | updateRow record =>
    obtain ⟨old, hold, rfl⟩ := updateRow_eq_ok.mp hok
    refine h.record_exact hsturdy ?_
    rw [Undo.apply, Store.putRow, Store.putRow, h.sturdy.row_eq hold, insert_insert hold]
  | deleteRow version =>
    obtain ⟨record, hdelete⟩ := map_snd_eq_ok.mp hok
    obtain ⟨hrecord, -, rfl⟩ := deleteRow_eq_ok.mp hdelete
    refine h.record_exact hsturdy ?_
    rw [Undo.apply, Store.putRow, Store.dropRow, h.sturdy.row_eq hrecord, insert_erase hrecord]
  | connectTable revision table =>
    obtain ⟨hrevision, htable, rfl⟩ := connectTable_eq_ok.mp hok
    exact h.linkTable fun _ => ⟨hrevision, htable⟩
  | disconnectTable revision table =>
    cases hok
    exact h.linkTable fun hlinked => by cases hlinked
  | connectRow table row =>
    obtain ⟨htable, hrow, rfl⟩ := connectRow_eq_ok.mp hok
    exact h.linkRow fun _ => ⟨htable, hrow⟩
  | disconnectRow table row =>
    cases hok
    exact h.linkRow fun hlinked => by cases hlinked

end Recedes

end Transaction

/-! ## Edits -/

namespace Edit

open Transaction

variable {α β : Type} {s : Store} {w w' : Workspace}

/-- What an edit leaves on top when it is undone is made of what it was made of itself. -/
theorem Made.recedes {m : Material} (h : Made m w w') (hw : w.MadeOf m)
    (hrecedes : w.transaction.Recedes (·.MadeOf m) s) :
    w'.transaction.Recedes (·.MadeOf m) s := by
  obtain ⟨⟨writes, hwrites, heq⟩, -⟩ := h
  rw [heq]
  refine (attemptAll_keeps (fun t => t.Recedes (·.MadeOf m) s ∧ t.store.MadeOf m) (·.MadeOf m)
    (fun {t t' write} hwrite ht hok => ⟨ht.1.perform ?_ hok, ht.2.perform hwrite hok⟩) hwrites
    ⟨hrecedes, hw.store⟩).1
  rintro record rfl
  exact ⟨hwrite, fun old hold => ht.2.revision hold⟩

/-- Refused or not, all an edit does to the transaction is to try writes of a certain kind. -/
def Tries (allowed : Write → Prop) (e : Edit α) : Prop :=
  ∀ w : Workspace, ∃ writes : List Write, (∀ write ∈ writes, allowed write) ∧
    (e.outcome w).2.transaction = w.transaction.attemptAll writes

namespace Tries

variable {allowed : Write → Prop}

theorem of_keeps {e : Edit α} (h : ∀ w, (e.outcome w).2.transaction = w.transaction) :
    e.Tries allowed :=
  fun w => ⟨[], by simp, h w⟩

theorem pure (value : α) : (Pure.pure value : Edit α).Tries allowed :=
  of_keeps fun _ => rfl

theorem throw (fault : CommandFault) : (MonadExcept.throw fault : Edit α).Tries allowed :=
  of_keeps fun _ => rfl

theorem bind {e : Edit α} {f : α → Edit β} (he : e.Tries allowed)
    (hf : ∀ value, (f value).Tries allowed) : (e >>= f).Tries allowed := by
  intro w
  obtain ⟨first, hfirst, heq⟩ := he w
  rw [outcome_bind]
  rcases hrun : e.outcome w with ⟨fault | value, w₁⟩ <;> rw [hrun] at heq
  · exact ⟨first, hfirst, heq⟩
  · obtain ⟨second, hsecond, heq'⟩ := hf value w₁
    refine ⟨first ++ second, fun write hmem => ?_, ?_⟩
    · exact (List.mem_append.mp hmem).elim (hfirst write) (hsecond write)
    · rw [attemptAll_append, ← heq]
      exact heq'

theorem map {e : Edit α} (he : e.Tries allowed) (f : α → β) : (f <$> e).Tries allowed := by
  rw [← bind_pure_comp]
  exact he.bind fun _ => .pure _

theorem ite {c : Prop} [Decidable c] {e f : Edit α} (he : e.Tries allowed) (hf : f.Tries allowed) :
    (if c then e else f).Tries allowed := by
  split
  · exact he
  · exact hf

/-- A check that refuses, and an edit behind it. -/
theorem guard {c : Prop} [Decidable c] {fault : CommandFault} {f : α → Edit β} {e : Edit β}
    (he : e.Tries allowed) : (if c then (MonadExcept.throw fault >>= f) else e).Tries allowed := by
  refine ite (of_keeps fun w => ?_) he
  rw [outcome_bind]
  rfl

theorem parseName {ν : Type} {parse : String → Except NameFault ν} {text : String} :
    (Edit.parseName parse text).Tries allowed := by
  rw [Edit.parseName]
  split
  · exact pure _
  · exact throw _

theorem write (x : Write) (hx : allowed x) : (Edit.write (·.perform x)).Tries allowed := by
  intro w
  rw [outcome_write]
  rcases hok : w.transaction.perform x with fault | t
  · exact ⟨[], by simp, rfl⟩
  · exact ⟨[x], List.forall_mem_singleton.mpr hx, (attempt_of_ok hok).symm⟩

theorem forM {f : α → Edit Unit} (hf : ∀ item, (f item).Tries allowed) (items : List α) :
    (items.forM f).Tries allowed := by
  induction items with
  | nil => exact pure ()
  | cons first rest ih => exact (hf first).bind fun _ => ih

end Tries

/-! ### Branches -/

/-- A write that does not replace a revision. -/
def SparesRevisions (write : Write) : Prop :=
  ∀ record, write ≠ .updateRevision record

theorem tries_requireSource (id : RevisionId) : (requireSource id).Tries SparesRevisions := by
  refine (Tries.of_keeps fun _ => rfl).bind fun s => Tries.bind ?_ fun _ => Tries.guard (.pure _)
  cases s.revision? id with
  | none => exact .throw _
  | some revision => exact .pure revision

theorem tries_lockTable (table : TableVersion) : (lockTable table).Tries SparesRevisions := by
  refine (Tries.of_keeps fun _ => rfl).bind fun s => (Tries.forM (fun row => ?_) _).bind fun _ => ?_
  · exact .ite (.write (.updateRow _) nofun) (.pure ())
  · exact .ite (.write (.updateTable _) nofun) (.pure ())

theorem tries_shareTables (created : BranchCreated) (source : Option Revision) :
    (shareTables created source).Tries SparesRevisions := by
  cases source with
  | none => exact .pure created
  | some source =>
    refine (Tries.of_keeps fun _ => rfl).bind fun s => (Tries.forM (fun table => ?_) _).bind
      fun _ => .pure created
    refine (Tries.write (.connectTable _ _) nofun).bind fun _ => ?_
    exact (Tries.write (.connectTable _ _) nofun).bind fun _ => tries_lockTable table

theorem tries_addBranch (name : BranchName) (parent : Option RevisionId) :
    (addBranch name parent).Tries SparesRevisions := by
  refine (Tries.of_keeps fun _ => rfl).bind fun time => ?_
  refine (Tries.write (.createBranch _) nofun).bind fun _ => ?_
  refine (Tries.of_keeps fun _ => rfl).bind fun startId => ?_
  refine (Tries.of_keeps fun _ => rfl).bind fun startTime => ?_
  refine (Tries.of_keeps fun _ => rfl).bind fun draftId => ?_
  refine (Tries.of_keeps fun _ => rfl).bind fun draftTime => ?_
  refine (Tries.write (.createRevision _) nofun).bind fun _ => ?_
  exact (Tries.write (.createRevision _) nofun).bind fun _ => .pure _

/-- A branch is created without replacing a revision. -/
theorem tries_createBranch (text : String) (source : Option RevisionId) :
    (createBranch text source).Tries SparesRevisions := by
  rw [createBranch_eq]
  refine Tries.parseName.bind fun name => (Tries.of_keeps fun _ => rfl).bind fun s => ?_
  refine Tries.guard (Tries.bind ?_ fun source => ?_)
  · cases source with
    | none => exact .pure none
    | some id => exact (tries_requireSource id).bind fun _ => .pure _
  · exact (tries_addBranch name _).bind fun created => tries_shareTables created source

end Edit

end VersionedTables
