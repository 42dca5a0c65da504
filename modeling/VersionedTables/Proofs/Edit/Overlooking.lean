import VersionedTables.Proofs.Commands
import VersionedTables.Proofs.Twins

/-!
# What edits do not see

An edit *overlooks* debris (`Edit.Overlooks`) when it does the same in twins: it gives the same answer or
is refused for the same reason, it journals the same changes, and it leaves twins behind. Every command
but the garbage collection does (`Command.run_overlooks`). As with `Edit.Makes`, there is one rule for
each way to build an edit; what an edit reads is compared where it is read (`Overlooks.read`).
-/

namespace VersionedTables

/-- Two workspaces with twin transactions, drawing from one supply. -/
structure Workspace.Twins (d : Debris) (w w' : Workspace) : Prop where
  transaction : w.transaction.Twins d w'.transaction
  supply_eq : w'.supply = w.supply
  /-- No identifier is drawn twice. -/
  distinct : w.supply.Distinct
  /-- The debris has been there before. -/
  drawn : d.Uses w.supply.Drawn

variable {d : Debris}

/-- Twins draw the same, and stay twins. -/
theorem Workspace.Twins.draw {w w' : Workspace} (h : w.Twins d w') {supply : Supply}
    (hlater : w.supply.Later supply) :
    Workspace.Twins d { w with supply := supply } { w' with supply := supply } where
  transaction := h.transaction
  supply_eq := rfl
  distinct := hlater.distinct h.distinct
  drawn :=
    { tables := fun hv => hlater.drawn_of (h.drawn.tables hv)
      rows := fun hu => hlater.drawn_of (h.drawn.rows hu)
      anchors := fun hv => hlater.drawn_of (h.drawn.anchors hv) }

theorem Workspace.Twins.write {w w' : Workspace} (h : w.Twins d w') {t t' : Transaction}
    (ht : t.Twins d t') :
    Workspace.Twins d { w with transaction := t } { w' with transaction := t' } :=
  { h with transaction := ht }

namespace Edit

variable {α β : Type}

/-- An edit does the same in twins, and what it gives back satisfies what is asked for. -/
def Overlooks (d : Debris) (e : Edit α) (Q : α → Prop) : Prop :=
  ∀ ⦃w w' : Workspace⦄, w.Twins d w' → (e.outcome w').1 = (e.outcome w).1 ∧
    (e.outcome w).2.Twins d (e.outcome w').2 ∧ ∀ value, (e.outcome w).1 = .ok value → Q value

namespace Overlooks

/-! ## Rules -/

theorem imp {e : Edit α} {Q R : α → Prop} (he : e.Overlooks d Q)
    (himp : ∀ value, Q value → R value) : e.Overlooks d R := by
  intro w w' hw
  obtain ⟨hsame, htwins, hQ⟩ := he hw
  exact ⟨hsame, htwins, fun value hvalue => himp value (hQ value hvalue)⟩

/-- What an edit gives back need not be known. -/
theorem any {e : Edit α} {Q : α → Prop} (he : e.Overlooks d Q) : e.Overlooks d fun _ => True :=
  he.imp fun _ _ => trivial

theorem pure {value : α} {Q : α → Prop} (h : Q value) :
    (Pure.pure value : Edit α).Overlooks d Q := by
  refine fun w w' hw => ⟨rfl, hw, fun value' hvalue => ?_⟩
  obtain rfl : value = value' := Except.ok.inj hvalue
  exact h

theorem throw (fault : CommandFault) {Q : α → Prop} :
    (MonadExcept.throw fault : Edit α).Overlooks d Q := by
  refine fun w w' hw => ⟨rfl, hw, ?_⟩
  rintro value ⟨⟩

theorem bind {e : Edit α} {f : α → Edit β} {Q : α → Prop} {R : β → Prop} (he : e.Overlooks d Q)
    (hf : ∀ value, Q value → (f value).Overlooks d R) : (e >>= f).Overlooks d R := by
  intro w w' hw
  obtain ⟨hsame, htwins, hQ⟩ := he hw
  rw [outcome_bind, outcome_bind]
  rcases hrun : e.outcome w with ⟨result, w₁⟩
  rcases hrun' : e.outcome w' with ⟨result', w₁'⟩
  rw [hrun, hrun'] at hsame htwins
  rw [hrun] at hQ
  obtain rfl : result' = result := hsame
  cases result' with
  | error fault =>
    refine ⟨rfl, htwins, ?_⟩
    rintro value ⟨⟩
  | ok value => exact hf value (hQ value rfl) htwins

theorem map {e : Edit α} {Q : α → Prop} (he : e.Overlooks d Q) (f : α → β) :
    (f <$> e).Overlooks d fun _ => True := by
  rw [← bind_pure_comp]
  exact he.bind fun value _ => pure trivial

theorem ite {c : Prop} [Decidable c] {e f : Edit α} {Q : α → Prop} (he : c → e.Overlooks d Q)
    (hf : ¬c → f.Overlooks d Q) : (if c then e else f).Overlooks d Q := by
  split
  · next hc => exact he hc
  · next hc => exact hf hc

/-- What would come behind a refusal does not matter. -/
theorem refuse (fault : CommandFault) (f : α → Edit β) {Q : β → Prop} :
    ((MonadExcept.throw fault : Edit α) >>= f).Overlooks d Q :=
  (throw (Q := fun _ => False) fault).bind fun _ hfalse => hfalse.elim

/-- A check that refuses, and an edit behind it. -/
theorem guard {c : Prop} [Decidable c] {fault : CommandFault} {f : α → Edit β} {e : Edit β}
    {Q : β → Prop} (he : ¬c → e.Overlooks d Q) :
    (if c then (MonadExcept.throw fault >>= f) else e).Overlooks d Q :=
  ite (fun _ => refuse fault f) he

/-- What is read of a store has to be the same in its twin. -/
theorem read {f : Store → Edit α} {Q : α → Prop}
    (hread : ∀ {s s' : Store}, s.Twins d s' → f s' = f s)
    (hf : ∀ {s s' : Store}, s.Twins d s' → (f s).Overlooks d Q) :
    (Edit.store >>= f).Overlooks d Q := by
  intro w w' hw
  have hstore := hw.transaction.store
  obtain ⟨hsame, htwins, hQ⟩ := hf hstore hw
  change ((f w'.store).outcome w').1 = ((f w.store).outcome w).1 ∧
    ((f w.store).outcome w).2.Twins d ((f w'.store).outcome w').2 ∧ _
  rw [hread hstore]
  exact ⟨hsame, htwins, hQ⟩

/-- A fresh identifier is none of the debris. -/
theorem freshId (kind : IdKind) : (Edit.freshId kind).Overlooks d fun id =>
    ∀ v : VersionId, v.text = id.text → d.Open v ∧ ¬d.rows v := by
  intro w w' hw
  change Except.ok (w'.supply.drawId kind).1 = Except.ok (w.supply.drawId kind).1 ∧
    Workspace.Twins d { w with supply := (w.supply.drawId kind).2 }
      { w' with supply := (w'.supply.drawId kind).2 } ∧
    ∀ value, Except.ok (w.supply.drawId kind).1 = .ok value → _
  rw [hw.supply_eq]
  refine ⟨rfl, hw.draw (Supply.later_drawId kind), ?_⟩
  rintro id hid v htext
  have hfresh := (Supply.between_drawId hw.distinct kind).1
  rw [Except.ok.inj hid, ← htext] at hfresh
  exact ⟨⟨fun hv => hfresh (hw.drawn.tables hv), fun hv => hfresh (hw.drawn.anchors hv)⟩,
    fun hv => hfresh (hw.drawn.rows hv)⟩

theorem now : Edit.now.Overlooks d fun _ => True := by
  intro w w' hw
  change Except.ok w'.supply.readClock.1 = Except.ok w.supply.readClock.1 ∧
    Workspace.Twins d { w with supply := w.supply.readClock.2 }
      { w' with supply := w'.supply.readClock.2 } ∧ _
  rw [hw.supply_eq]
  exact ⟨rfl, hw.draw Supply.later_readClock, fun _ _ => trivial⟩

theorem write {f : Transaction → Except StoreFault Transaction}
    (hf : ∀ {t t' : Transaction}, t.Twins d t' → SameOutcome (Transaction.Twins d) (f t) (f t')) :
    (Edit.write f).Overlooks d fun _ => True := by
  intro w w' hw
  rw [outcome_write, outcome_write]
  rcases (hf hw.transaction).eq_or with ⟨t, t', hok, hok', ht⟩ | ⟨fault, herror, herror'⟩
  · rw [hok, hok']
    exact ⟨rfl, hw.write ht, fun _ _ => trivial⟩
  · rw [herror, herror']
    exact ⟨rfl, hw, fun _ _ => trivial⟩

/-- A write that gives something back. -/
theorem take {f : Transaction → Except StoreFault (α × Transaction)}
    (hf : ∀ {t t' : Transaction}, t.Twins d t' →
      SameOutcome (fun a a' => a'.1 = a.1 ∧ a.2.Twins d a'.2) (f t) (f t')) :
    (Edit.take f).Overlooks d fun _ => True := by
  intro w w' hw
  rw [outcome_take, outcome_take]
  rcases (hf hw.transaction).eq_or with
    ⟨⟨value, t⟩, ⟨value', t'⟩, hok, hok', rfl, ht⟩ | ⟨fault, herror, herror'⟩
  · rw [hok, hok']
    exact ⟨rfl, hw.write ht, fun _ _ => trivial⟩
  · rw [herror, herror']
    exact ⟨rfl, hw, fun _ _ => trivial⟩

/-- A write that always succeeds. -/
theorem change {f : Transaction → Transaction}
    (hf : ∀ {t t' : Transaction}, t.Twins d t' → (f t).Twins d (f t')) :
    (Edit.change f).Overlooks d fun _ => True :=
  fun _ _ hw => ⟨rfl, hw.write (hf hw.transaction), fun _ _ => trivial⟩

theorem parseName {ν : Type} (parse : String → Except NameFault ν) (text : String) :
    (Edit.parseName parse text).Overlooks d fun _ => True := by
  rw [Edit.parseName]
  split
  · exact pure trivial
  · exact throw _

theorem orFault (fault : CommandFault) (o : Option α) :
    (Edit.orFault fault o).Overlooks d (o = some ·) := by
  cases o with
  | some value => exact pure rfl
  | none => exact throw fault

theorem lift (e : Except CommandFault α) : (liftExcept e : Edit α).Overlooks d fun _ => True := by
  cases e with
  | ok value => exact pure trivial
  | error fault => exact throw fault

/-! ### Loops -/

theorem forM {f : α → Edit Unit} {items : List α}
    (hf : ∀ item ∈ items, (f item).Overlooks d fun _ => True) :
    (items.forM f).Overlooks d fun _ => True := by
  induction items with
  | nil => exact pure trivial
  | cons first rest ih =>
    exact (hf first List.mem_cons_self).bind fun _ _ =>
      ih fun item hmem => hf item (List.mem_cons_of_mem _ hmem)

theorem mapM {f : α → Edit β} {items : List α} {Q : β → Prop}
    (hf : ∀ item ∈ items, (f item).Overlooks d Q) :
    (items.mapM f).Overlooks d fun values => ∀ value ∈ values, Q value := by
  induction items with
  | nil =>
    rw [List.mapM_nil]
    exact pure (by simp)
  | cons first rest ih =>
    rw [List.mapM_cons]
    refine (hf first List.mem_cons_self).bind fun value hvalue => ?_
    refine (ih fun item hmem => hf item (List.mem_cons_of_mem _ hmem)).bind fun values hvalues => ?_
    exact pure (List.forall_mem_cons.mpr ⟨hvalue, hvalues⟩)

theorem filterAuxM {f : α → Edit Bool} {items : List α}
    (hf : ∀ item ∈ items, (f item).Overlooks d fun _ => True) (kept : List α) :
    (items.filterAuxM f kept).Overlooks d fun _ => True := by
  induction items generalizing kept with
  | nil => exact pure trivial
  | cons first rest ih =>
    exact (hf first List.mem_cons_self).bind fun _ _ =>
      ih (fun item hmem => hf item (List.mem_cons_of_mem _ hmem)) _

theorem filterM {f : α → Edit Bool} {items : List α}
    (hf : ∀ item ∈ items, (f item).Overlooks d fun _ => True) :
    (items.filterM f).Overlooks d fun _ => True :=
  (filterAuxM hf []).bind fun _ _ => pure trivial

/-! ## Checks and marks -/

theorem requireDraft (id : RevisionId) : (Edit.requireDraft id).Overlooks d fun _ => True :=
  read (fun h => by rw [h.revision?_eq]) fun _ =>
    (orFault _ _).bind fun _ _ => guard fun _ => pure trivial

/-- A table that is found is in sight, and if it is not read-only it may be written to. -/
theorem requireTable (revision : RevisionId) (name : String) :
    (Edit.requireTable revision name).Overlooks d fun table =>
      ¬d.tables table.version ∧ (table.readonly = false → d.Open table.version) :=
  read (fun h => by rw [h.findTable_eq]) fun h => (orFault _ _).imp fun _ => h.seen_of_findTable

theorem markChanged (draft : Revision) : (Edit.markChanged draft).Overlooks d fun _ => True :=
  ite (fun _ => write fun h => h.updateRevision _) fun _ => pure trivial

theorem refreshHasChanges (id : RevisionId) :
    (Edit.refreshHasChanges id).Overlooks d fun _ => True := by
  refine read (fun h => by simp only [h.revision?_eq, h.differsFromParent_eq]) fun _ => ?_
  refine (orFault _ _).bind fun revision _ => ite (fun _ => ?_) fun _ => pure trivial
  exact (write fun h => h.updateRevision _).bind fun _ _ => pure trivial

/-! ## Sharing versions -/

theorem lockRow {row : RowVersion} (hrow : ¬d.rows row.version) :
    (Edit.lockRow row).Overlooks d fun _ => True :=
  ite (fun _ => write fun h => h.updateRow hrow) fun _ => pure trivial

theorem lockTable {table : TableVersion} (htable : ¬d.tables table.version) :
    (Edit.lockTable table).Overlooks d fun _ => True := by
  refine read (fun h => by rw [h.rowsOf_eq htable]) fun h => ?_
  refine (forM fun row hmem => lockRow (h.seen_of_rowsOf htable hmem)).bind fun _ _ => ?_
  exact ite (fun _ => write fun h => h.updateTable htable fun _ => rfl) fun _ => pure trivial

theorem copyTable (revision : RevisionId) {table : TableVersion} (htable : ¬d.tables table.version) :
    (Edit.copyTable revision table).Overlooks d fun copy => d.Open copy.version := by
  refine (freshId _).bind fun version hversion => now.bind fun time _ => ?_
  have hopen : d.Open (table.copy version time).version := (hversion version rfl).1
  refine (write fun h => h.createTable hopen).bind fun _ _ => ?_
  refine read (fun h => by rw [h.rowsOf_eq htable]) fun {s _} h => ?_
  have hrow (row : RowVersion) (hmem : row ∈ s.rowsOf table.version) :
      (Edit.write (·.connectRow version row.version)).Overlooks d fun _ => True :=
    write fun h' => h'.connectRow hopen (h.seen_of_rowsOf htable hmem)
  refine (forM hrow).bind fun _ _ => ?_
  refine (change fun h => h.linkTable revision fun hlinked => by cases hlinked).bind fun _ _ => ?_
  exact (write fun h => h.connectTable revision hopen.seen).bind fun _ _ => pure hopen

theorem draftTable (revision : RevisionId) (name : String) :
    (Edit.draftTable revision name).Overlooks d fun target => d.Open target.table.version := by
  refine (requireTable revision name).bind fun table ⟨hseen, hopen⟩ => ite (fun _ => ?_) fun hfree => ?_
  · exact (copyTable revision hseen).bind fun _ hcopy => pure hcopy
  · exact pure (hopen (Bool.eq_false_iff.mpr hfree))

theorem copyRow {table : VersionId} (htable : d.Open table) (row : RowVersion) :
    (Edit.copyRow table row).Overlooks d fun copy => ¬d.rows copy.version := by
  refine (freshId _).bind fun version hversion => now.bind fun time _ => ?_
  have hseen : ¬d.rows (row.copy version time).version := (hversion version rfl).2
  refine (write fun h => h.createRow hseen).bind fun _ _ => ?_
  refine (change fun h => h.linkRow htable fun hlinked => by cases hlinked).bind fun _ _ => ?_
  exact (write fun h => h.connectRow htable hseen).bind fun _ _ => pure hseen

theorem draftRow {table : TableVersion} (htable : d.Open table.version) (name : String) :
    (Edit.draftRow table name).Overlooks d fun target => ¬d.rows target.row.version := by
  refine guard fun _ => read (fun h => by rw [h.findRow_eq htable.seen]) fun h => ?_
  refine (orFault _ _).bind fun row hfound => ite (fun _ => ?_) fun _ => ?_
  · exact (copyRow htable row).bind fun _ hcopy => pure hcopy
  · exact pure (h.seen_of_findRow htable.seen hfound)

/-! ## Deleting -/

/-- Whether a row in sight goes does not depend on debris. -/
theorem deleteRowIfUnheld {u : VersionId} (hu : ¬d.rows u) :
    (Edit.deleteRowIfUnheld u).Overlooks d fun _ => True := by
  intro w w' hw
  have hiff := hw.transaction.store.tablesHolding_eq_nil_iff hu
  change (((if (w'.store.tablesHolding u).isEmpty then _ else _ : Edit Bool).outcome w').1 =
    ((if (w.store.tablesHolding u).isEmpty then _ else _ : Edit Bool).outcome w).1) ∧
    ((if (w.store.tablesHolding u).isEmpty then _ else _ : Edit Bool).outcome w).2.Twins d
      ((if (w'.store.tablesHolding u).isEmpty then _ else _ : Edit Bool).outcome w').2 ∧ _
  simp only [List.isEmpty_iff, hiff]
  split
  · next hunheld =>
    rw [outcome_bind, outcome_bind, outcome_take, outcome_take]
    rcases (hw.transaction.deleteRow hu hunheld).eq_or with
      ⟨⟨row, t⟩, ⟨row', t'⟩, hok, hok', -, ht⟩ | ⟨fault, herror, herror'⟩
    · rw [hok, hok']
      exact ⟨rfl, hw.write ht, fun _ _ => trivial⟩
    · rw [herror, herror']
      exact ⟨rfl, hw, fun _ _ => trivial⟩
  · exact ⟨rfl, hw, fun _ _ => trivial⟩

theorem deleteTableWithRows {v : VersionId} (hv : d.Open v) :
    (Edit.deleteTableWithRows v).Overlooks d fun _ => True := by
  refine read (fun h => by rw [h.rowsOf_eq hv.seen]) fun h => ?_
  refine (take fun h' => h'.deleteTable hv).bind fun _ _ => filterM fun u hmem => ?_
  obtain ⟨row, hrow, rfl⟩ := List.mem_map.mp hmem
  exact deleteRowIfUnheld (h.seen_of_rowsOf hv.seen hrow)

/-! ## Tables -/

theorem createTable (revision : RevisionId) (table : String) (system : Bool) :
    (Edit.createTable revision table system).Overlooks d fun _ => True := by
  refine (requireDraft revision).bind fun draft _ => (parseName _ _).bind fun name _ => ?_
  refine read (fun h => by rw [h.findTable_eq]) fun _ => guard fun _ => ?_
  refine (freshId _).bind fun entity _ => (freshId _).bind fun version hversion => ?_
  refine now.bind fun time _ => ?_
  have hopen : d.Open (TableVersion.new name system entity version time).version :=
    (hversion version rfl).1
  refine (write fun h => h.createTable hopen).bind fun _ _ => ?_
  refine (write fun h => h.connectTable draft.id hopen.seen).bind fun _ _ => ?_
  exact (markChanged draft).bind fun _ _ => pure trivial

theorem renameTable (revision : RevisionId) (table next : String) :
    (Edit.renameTable revision table next).Overlooks d fun _ => True := by
  refine (requireDraft revision).bind fun draft _ => (parseName _ _).bind fun name _ => ?_
  refine (requireTable draft.id table).bind fun current _ => guard fun _ => ?_
  refine read (fun h => by rw [h.findTable_eq]) fun _ => ?_
  -- Only a table that has the new name already is checked.
  split
  case' h_1 => refine guard fun _ => ?_
  all_goals
    refine (draftTable draft.id table).bind fun target hopen => now.bind fun time _ => ?_
    have hrenamed : d.Open { target.table with name := name, updatedAt := time }.version := hopen
    refine (write fun h =>
      h.updateTable hrenamed.seen fun hanchor => absurd hanchor hrenamed.free).bind fun _ _ => ?_
    exact (markChanged draft).bind fun _ _ => pure trivial

theorem removeTable (revision : RevisionId) (table : String) :
    (Edit.removeTable revision table).Overlooks d fun _ => True := by
  refine (requireDraft revision).bind fun draft _ => ?_
  refine (requireTable draft.id table).bind fun current ⟨_, hopen⟩ => ?_
  refine read (fun h => by simp only [h.revision?_eq]) fun _ => guard fun _ => ?_
  refine (change fun h => h.linkTable draft.id fun hlinked => by cases hlinked).bind fun _ _ => ?_
  refine read (fun h => by simp only [h.revisionsOf_eq]) fun _ => ite (fun hdeleted => ?_) fun _ => ?_
  · have hfree : current.readonly = false := by
      rw [Bool.and_eq_true, Bool.not_eq_true'] at hdeleted
      exact hdeleted.1
    refine (deleteTableWithRows (hopen hfree)).bind fun rows _ => ?_
    exact (refreshHasChanges draft.id).bind fun _ _ => pure trivial
  · exact (refreshHasChanges draft.id).bind fun _ _ => pure trivial

/-! ## Rows -/

theorem rowNames {v : VersionId} (hv : ¬d.tables v) :
    (Edit.rowNames v).Overlooks d fun _ => True :=
  read (fun h => by rw [h.rowsOf_eq hv]) fun _ => pure trivial

theorem createRow {table : VersionId} (htable : d.Open table) (name : RowName) (input : RowInput) :
    (Edit.createRow table name input).Overlooks d fun _ => True := by
  refine (freshId _).bind fun entity _ => (freshId _).bind fun version hversion => ?_
  refine now.bind fun time _ => ?_
  have hseen : ¬d.rows { RowVersion.new name input.data entity version time with
      schemaHash := input.schemaHash, note := input.note
      publishedAt := input.publishedAt }.version := (hversion version rfl).2
  refine (write fun h => h.createRow hseen).bind fun _ _ => ?_
  exact (write fun h => h.connectRow htable hseen).bind fun _ _ => pure trivial

theorem createRows (revision : RevisionId) (table : String) (inputs : List RowInput) :
    (Edit.createRows revision table inputs).Overlooks d fun _ => True := by
  refine (requireDraft revision).bind fun draft _ => ?_
  refine (draftTable draft.id table).bind fun target hopen => (lift _).bind fun names _ => ?_
  refine (rowNames hopen.seen).bind fun existing _ => guard fun _ => ?_
  refine (mapM fun (name, input) _ => createRow hopen name input).bind fun rows _ => ?_
  exact ite (fun _ => (markChanged draft).bind fun _ _ => pure trivial) fun _ => pure trivial

theorem updateRow {table : TableVersion} (htable : d.Open table.version) (input : RowInput) :
    (Edit.updateRow table input).Overlooks d fun _ => True := by
  refine (draftRow htable input.name).bind fun target htarget => now.bind fun time _ => ?_
  have hseen : ¬d.rows { target.row.setData input.data time with
      schemaHash := input.schemaHash <|> target.row.schemaHash
      note := input.note <|> target.row.note
      publishedAt := input.publishedAt <|> target.row.publishedAt }.version := htarget
  exact (write fun h => h.updateRow hseen).bind fun _ _ => pure trivial

theorem updateRows (revision : RevisionId) (table : String) (inputs : List RowInput) :
    (Edit.updateRows revision table inputs).Overlooks d fun _ => True := by
  refine (requireDraft revision).bind fun draft _ => ?_
  refine (draftTable draft.id table).bind fun target hopen => guard fun _ => ?_
  refine (mapM fun input _ => updateRow hopen input).bind fun rows _ => ?_
  exact ite (fun _ => (markChanged draft).bind fun _ _ => pure trivial) fun _ => pure trivial

theorem removeRow {table : VersionId} (htable : d.Open table) {row : RowVersion}
    (hrow : ¬d.rows row.version) : (Edit.removeRow table row).Overlooks d fun _ => True := by
  refine (change fun h => h.linkRow htable fun hlinked => by cases hlinked).bind fun _ _ => ?_
  exact (deleteRowIfUnheld hrow).bind fun _ _ => pure trivial

theorem removeRows (revision : RevisionId) (table : String) (names : List String) :
    (Edit.removeRows revision table names).Overlooks d fun _ => True := by
  refine (requireDraft revision).bind fun draft _ => ?_
  refine (draftTable draft.id table).bind fun target hopen => ?_
  have hfind (name : String) : (do
      Edit.orFault (.rowNotFound name target.table.name)
        ((← Edit.store).findRow target.table.version name) : Edit RowVersion).Overlooks d
        fun row => ¬d.rows row.version :=
    read (fun h => by rw [h.findRow_eq hopen.seen]) fun h =>
      (orFault _ _).imp fun _ => h.seen_of_findRow hopen.seen
  refine (mapM fun name _ => hfind name).bind fun found hfound => ?_
  refine (mapM fun row hmem => removeRow hopen (hfound row hmem)).bind fun rows _ => ?_
  exact (refreshHasChanges draft.id).bind fun _ _ => pure trivial

theorem renameRow {target : DraftRow} (htarget : ¬d.rows target.row.version) (next : RowName) :
    (Edit.renameRow target next).Overlooks d fun _ => True := by
  refine now.bind fun time _ => ?_
  have hseen : ¬d.rows { target.row with name := next, updatedAt := time }.version := htarget
  exact (write fun h => h.updateRow hseen).bind fun _ _ => pure trivial

theorem renameRows (revision : RevisionId) (table : String) (renames : List RowRename) :
    (Edit.renameRows revision table renames).Overlooks d fun _ => True := by
  refine (requireDraft revision).bind fun draft _ => (lift _).bind fun nextNames _ => ?_
  refine (requireTable draft.id table).bind fun current ⟨hseen, _⟩ => ?_
  refine (rowNames hseen).bind fun existing _ => ?_
  dsimp only
  split
  · exact refuse _ _
  · refine guard fun _ => (draftTable draft.id table).bind fun target hopen => ?_
    refine (mapM fun rename _ => draftRow hopen rename.name).bind fun drafts hdrafts => ?_
    refine (mapM fun (draft, next) hmem =>
      renameRow (hdrafts _ (List.of_mem_zip hmem).1) next).bind fun rows _ => ?_
    exact ite (fun _ => (markChanged draft).bind fun _ _ => pure trivial) fun _ => pure trivial

/-! ## Branches -/

theorem requireSource (id : RevisionId) : (Edit.requireSource id).Overlooks d fun _ => True :=
  read (fun h => by rw [h.revision?_eq]) fun _ =>
    (orFault _ _).bind fun _ _ => guard fun _ => pure trivial

theorem shareTable (start draft : RevisionId) {table : TableVersion}
    (htable : ¬d.tables table.version) :
    (Edit.shareTable start draft table).Overlooks d fun _ => True := by
  refine (write fun h => h.connectTable start htable).bind fun _ _ => ?_
  exact (write fun h => h.connectTable draft htable).bind fun _ _ => lockTable htable

theorem addBranch (name : BranchName) (parent : Option RevisionId) :
    (Edit.addBranch name parent).Overlooks d fun _ => True := by
  refine now.bind fun time _ => (write fun h => h.createBranch _).bind fun _ _ => ?_
  refine (freshId _).bind fun startId _ => now.bind fun startTime _ => ?_
  refine (freshId _).bind fun draftId _ => now.bind fun draftTime _ => ?_
  refine (write fun h => h.createRevision _).bind fun _ _ => ?_
  exact (write fun h => h.createRevision _).bind fun _ _ => pure trivial

theorem shareTables (created : BranchCreated) (source : Option Revision) :
    (Edit.shareTables created source).Overlooks d fun _ => True := by
  cases source with
  | none => exact pure trivial
  | some source =>
    refine read (fun h => by rw [h.tablesOf_eq]) fun h => ?_
    refine (forM fun table hmem => ?_).bind fun _ _ => pure trivial
    exact shareTable created.start created.draft (h.seen_of_tablesOf hmem)

theorem createBranch (branch : String) (source : Option RevisionId) :
    (Edit.createBranch branch source).Overlooks d fun _ => True := by
  rw [createBranch_eq]
  refine (parseName _ _).bind fun name _ => ?_
  refine read (fun h => by rw [h.branch?_eq]) fun _ => guard fun _ => ?_
  have hsource : (source.mapM Edit.requireSource).Overlooks d fun _ => True := by
    cases source with
    | none => exact pure trivial
    | some id => exact (requireSource id).map _
  refine hsource.bind fun source _ => (addBranch name _).bind fun created _ => ?_
  exact shareTables created source

theorem requireChanges (branch : BranchName) :
    (Edit.requireChanges branch).Overlooks d fun _ => True := by
  refine read (fun h => by rw [h.findRevision_eq]) fun _ => (orFault _ _).bind fun head _ => ?_
  refine read (fun h => by rw [h.findRevision_eq]) fun _ => (orFault _ _).bind fun draft _ => ?_
  exact guard fun _ => pure trivial

theorem commit (branch : BranchName) (comment : Option String) :
    (Edit.commit branch comment).Overlooks d fun _ => True := by
  refine (requireChanges branch).bind fun (head, draft) _ => ?_
  refine (write fun h =>
    h.updateRevision { head with isHead := false, isDraft := false }).bind fun _ _ => ?_
  refine (write fun h => h.updateRevision
    { draft with isHead := true, isDraft := false, hasChanges := false, comment }).bind fun _ _ => ?_
  refine (freshId _).bind fun nextDraft _ => now.bind fun time _ => ?_
  refine (write fun h => h.createRevision _).bind fun _ _ => ?_
  refine read (fun h => by rw [h.tablesOf_eq]) fun h => ?_
  refine (forM fun table hmem => ?_).bind fun _ _ => pure trivial
  have hseen := h.seen_of_tablesOf hmem
  exact (write fun h => h.connectTable nextDraft hseen).bind fun _ _ => lockTable hseen

theorem revert (branch : BranchName) : (Edit.revert branch).Overlooks d fun _ => True := by
  refine (requireChanges branch).bind fun (head, draft) _ => ?_
  refine read (fun h => by simp only [h.tablesOf_eq]) fun {s _} hhead => ?_
  refine read (fun h => by simp only [h.tablesOf_eq]) fun _ => ?_
  have hleave (v : VersionId) :
      (Edit.change (·.disconnectTable draft.id v)).Overlooks d fun _ => True :=
    change fun h => h.linkTable draft.id fun hlinked => by cases hlinked
  have hreturn (v : VersionId) (hmem : v ∈ (s.tablesOf head.id).map (·.version)) :
      (Edit.write (·.connectTable draft.id v)).Overlooks d fun _ => True := by
    obtain ⟨table, htable, rfl⟩ := List.mem_map.mp hmem
    exact write fun h => h.connectTable draft.id (hhead.seen_of_tablesOf htable)
  refine (forM fun v _ => hleave v).bind fun _ _ => (forM hreturn).bind fun _ _ => ?_
  exact (write fun h => h.updateRevision { draft with hasChanges := false }).bind
    fun _ _ => pure trivial

end Overlooks

end Edit

/-! ## Commands -/

/-- No command but the garbage collection sees debris. -/
theorem Command.run_overlooks {command : Command} (hcommand : command ≠ .collectGarbage) :
    command.run.Overlooks d fun _ => True := by
  cases command with
  | createBranch branch source => exact (Edit.Overlooks.createBranch branch source).map _
  | commit branch comment => exact (Edit.Overlooks.commit branch comment).map _
  | revert branch => exact (Edit.Overlooks.revert branch).map _
  | collectGarbage => exact absurd rfl hcommand
  | createTable revision table system =>
    exact (Edit.Overlooks.createTable revision table system).map _
  | renameTable revision table next =>
    exact (Edit.Overlooks.renameTable revision table next).map _
  | removeTable revision table => exact (Edit.Overlooks.removeTable revision table).map _
  | createRows revision table rows => exact (Edit.Overlooks.createRows revision table rows).map _
  | updateRows revision table rows => exact (Edit.Overlooks.updateRows revision table rows).map _
  | removeRows revision table rows => exact (Edit.Overlooks.removeRows revision table rows).map _
  | renameRows revision table renames =>
    exact (Edit.Overlooks.renameRows revision table renames).map _

end VersionedTables
