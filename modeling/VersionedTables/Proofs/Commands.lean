import VersionedTables.Proofs.Edit

/-!
# What commands write

Every command tries writes and draws identifiers, and that is all it does to its transaction. What it
writes is made of the request, of the clock, and of what was in the store (`Command.makes_run`). One
walk through all edits shows this; the rules for walking are those of `Edit.Makes`.
-/

namespace VersionedTables

variable {m : Material}

/-- A request for a row is made of the documents and the instant it brings along. -/
structure RowInput.MadeOf (m : Material) (input : RowInput) : Prop where
  data : m.document input.data
  note : ∀ document, input.note = some document → m.document document
  publishedAt : ∀ time, input.publishedAt = some time → m.time time

namespace Edit

namespace Makes

/-! ## Rules and checks -/

theorem requireDraft (id : RevisionId) : (Edit.requireDraft id).Makes m (·.MadeOf m) := by
  refine store.bind fun s hs => (orFault _ _).bind fun revision hrevision => ?_
  exact guard (pure (hs.revision hrevision))

theorem requireTable (revision : RevisionId) (name : String) :
    (Edit.requireTable revision name).Makes m (·.MadeOf m) :=
  store.bind fun _ hs => (orFault _ _).imp fun _ hfound => hs.of_findTable hfound

theorem markChanged {draft : Revision} (hdraft : draft.MadeOf m) :
    (Edit.markChanged draft).Makes m fun _ => True := by
  have hmarked : ({ draft with hasChanges := true }).MadeOf m := { hdraft with }
  exact ite (write (.updateRevision _) hmarked) (pure trivial)

theorem refreshHasChanges (id : RevisionId) :
    (Edit.refreshHasChanges id).Makes m fun _ => True := by
  refine store.bind fun s hs => (orFault _ _).bind fun revision hrevision => ?_
  have hmarked : ({ revision with hasChanges := s.differsFromParent id revision }).MadeOf m :=
    { hs.revision hrevision with }
  exact ite ((write (.updateRevision _) hmarked).bind fun _ _ => pure trivial) (pure trivial)

/-! ## Sharing versions -/

theorem lockRow {row : RowVersion} (hrow : row.MadeOf m) :
    (Edit.lockRow row).Makes m fun _ => True :=
  ite (write (.updateRow _) { hrow with }) (pure trivial)

theorem lockTable {table : TableVersion} (htable : table.MadeOf m) :
    (Edit.lockTable table).Makes m fun _ => True := by
  refine store.bind fun s hs => (forM fun row hmem => lockRow (hs.of_rowsOf hmem)).bind fun _ _ => ?_
  exact ite (write (.updateTable _) { htable with }) (pure trivial)

theorem copyTable (revision : RevisionId) {table : TableVersion} (htable : table.MadeOf m) :
    (Edit.copyTable revision table).Makes m (·.MadeOf m) := by
  refine (freshId _).bind fun version _ => now.bind fun time htime => ?_
  have hcopy : (table.copy version time).MadeOf m := { htable with updatedAt := htime }
  refine (write (.createTable _) hcopy).bind fun _ _ => store.bind fun s _ => ?_
  refine (forM fun row _ => write (.connectRow _ _) trivial).bind fun _ _ => ?_
  refine (change (.disconnectTable _ _) (fun _ => rfl) trivial).bind fun _ _ => ?_
  exact (write (.connectTable _ _) trivial).bind fun _ _ => pure hcopy

theorem draftTable (revision : RevisionId) (name : String) :
    (Edit.draftTable revision name).Makes m (·.table.MadeOf m) := by
  refine (requireTable revision name).bind fun table htable => ?_
  exact ite ((copyTable revision htable).bind fun _ hcopy => pure hcopy) (pure htable)

theorem copyRow (table : VersionId) {row : RowVersion} (hrow : row.MadeOf m) :
    (Edit.copyRow table row).Makes m (·.MadeOf m) := by
  refine (freshId _).bind fun version _ => now.bind fun time htime => ?_
  have hcopy : (row.copy version time).MadeOf m := { hrow with updatedAt := htime }
  refine (write (.createRow _) hcopy).bind fun _ _ => ?_
  refine (change (.disconnectRow _ _) (fun _ => rfl) trivial).bind fun _ _ => ?_
  exact (write (.connectRow _ _) trivial).bind fun _ _ => pure hcopy

theorem draftRow (table : TableVersion) (name : String) :
    (Edit.draftRow table name).Makes m (·.row.MadeOf m) := by
  refine guard (store.bind fun s hs => (orFault _ _).bind fun row hfound => ?_)
  have hrow := hs.of_findRow hfound
  exact ite ((copyRow table.version hrow).bind fun _ hcopy => pure hcopy) (pure hrow)

/-! ## Deleting -/

theorem deleteTableIfUnshown (version : VersionId) :
    (Edit.deleteTableIfUnshown version).Makes m fun _ => True := by
  refine store.bind fun s _ => ite ?_ (pure trivial)
  exact (take (.deleteTable version) (fun _ => rfl) trivial).bind fun _ _ => pure trivial

theorem deleteRowIfUnheld (version : VersionId) :
    (Edit.deleteRowIfUnheld version).Makes m fun _ => True := by
  refine store.bind fun s _ => ite ?_ (pure trivial)
  exact (take (.deleteRow version) (fun _ => rfl) trivial).bind fun _ _ => pure trivial

theorem deleteTableWithRows (version : VersionId) :
    (Edit.deleteTableWithRows version).Makes m fun _ => True := by
  refine store.bind fun s _ => ?_
  refine (take (.deleteTable version) (fun _ => rfl) trivial).bind fun _ _ => ?_
  exact filterM deleteRowIfUnheld _

theorem collectGarbage : Edit.collectGarbage.Makes m fun _ => True := by
  refine store.bind fun s _ => (filterM deleteTableIfUnshown _).bind fun tables _ => ?_
  exact store.bind fun s' _ => (filterM deleteRowIfUnheld _).bind fun rows _ => pure trivial

/-! ## Tables -/

theorem createTable (revision : RevisionId) (table : String) (system : Bool) :
    (Edit.createTable revision table system).Makes m fun _ => True := by
  refine (requireDraft revision).bind fun draft hdraft => (parseName _ _).bind fun name _ => ?_
  refine store.bind fun s _ => guard ?_
  refine (freshId _).bind fun entity _ => (freshId _).bind fun version _ => ?_
  refine now.bind fun time htime => (write (.createTable _) ⟨htime, htime⟩).bind fun _ _ => ?_
  refine (write (.connectTable _ _) trivial).bind fun _ _ => ?_
  exact (markChanged hdraft).bind fun _ _ => pure trivial

theorem renameTable (revision : RevisionId) (table next : String) :
    (Edit.renameTable revision table next).Makes m fun _ => True := by
  refine (requireDraft revision).bind fun draft hdraft => (parseName _ _).bind fun name _ => ?_
  refine (requireTable draft.id table).bind fun current _ => guard (store.bind fun s _ => ?_)
  -- Only a table that has the new name already is checked.
  split
  case' h_1 => refine guard ?_
  all_goals
    refine (draftTable draft.id table).bind fun target htarget => now.bind fun time htime => ?_
    have hrenamed : ({ target.table with name := name, updatedAt := time }).MadeOf m :=
      { htarget with updatedAt := htime }
    refine (write (.updateTable _) hrenamed).bind fun _ _ => ?_
    exact (markChanged hdraft).bind fun _ _ => pure trivial

theorem removeTable (revision : RevisionId) (table : String) :
    (Edit.removeTable revision table).Makes m fun _ => True := by
  refine (requireDraft revision).bind fun draft _ => (requireTable draft.id table).bind fun current _ => ?_
  refine store.bind fun s _ => guard ?_
  refine (change (.disconnectTable _ _) (fun _ => rfl) trivial).bind fun _ _ => ?_
  refine store.bind fun s' _ => Makes.ite ?_ ?_
  · refine (deleteTableWithRows current.version).bind fun rows _ => ?_
    exact (refreshHasChanges draft.id).bind fun _ _ => pure trivial
  · exact (refreshHasChanges draft.id).bind fun _ _ => pure trivial

/-! ## Rows -/

theorem rowNames (table : VersionId) : (Edit.rowNames table).Makes m fun _ => True :=
  store.bind fun _ _ => pure trivial

theorem createRow (table : VersionId) (name : RowName) {input : RowInput} (hinput : input.MadeOf m) :
    (Edit.createRow table name input).Makes m fun _ => True := by
  refine (freshId _).bind fun entity _ => (freshId _).bind fun version _ => ?_
  refine now.bind fun time htime => ?_
  refine (write (.createRow _)
    ⟨hinput.data, hinput.note, hinput.publishedAt, htime, htime⟩).bind fun _ _ => ?_
  exact (write (.connectRow _ _) trivial).bind fun _ _ => pure trivial

theorem createRows (revision : RevisionId) (table : String) {inputs : List RowInput}
    (hinputs : ∀ input ∈ inputs, input.MadeOf m) :
    (Edit.createRows revision table inputs).Makes m fun _ => True := by
  refine (requireDraft revision).bind fun draft hdraft => ?_
  refine (draftTable draft.id table).bind fun target _ => (lift _).bind fun names _ => ?_
  refine (rowNames _).bind fun existing _ => guard ?_
  refine (mapM fun (name, input) hmem =>
    createRow _ _ (hinputs _ (List.of_mem_zip hmem).2)).bind fun rows _ => ?_
  exact ite ((markChanged hdraft).bind fun _ _ => pure trivial) (pure trivial)

/-- What a request gives takes the place of what was there, and the rest stays. -/
theorem of_orElse {ν : Type} {P : ν → Prop} {given kept : Option ν}
    (hgiven : ∀ value, given = some value → P value) (hkept : ∀ value, kept = some value → P value) :
    ∀ value, (given <|> kept) = some value → P value := by
  cases given with
  | none => exact hkept
  | some value => exact hgiven

theorem updateRow (table : TableVersion) {input : RowInput} (hinput : input.MadeOf m) :
    (Edit.updateRow table input).Makes m fun _ => True := by
  refine (draftRow table input.name).bind fun target htarget => now.bind fun time htime => ?_
  have hupdated : ({ target.row.setData input.data time with
      schemaHash := input.schemaHash <|> target.row.schemaHash
      note := input.note <|> target.row.note
      publishedAt := input.publishedAt <|> target.row.publishedAt }).MadeOf m :=
    ⟨hinput.data, of_orElse hinput.note htarget.note,
      of_orElse hinput.publishedAt htarget.publishedAt, htarget.createdAt, htime⟩
  exact (write (.updateRow _) hupdated).bind fun _ _ => pure trivial

theorem updateRows (revision : RevisionId) (table : String) {inputs : List RowInput}
    (hinputs : ∀ input ∈ inputs, input.MadeOf m) :
    (Edit.updateRows revision table inputs).Makes m fun _ => True := by
  refine (requireDraft revision).bind fun draft hdraft => ?_
  refine (draftTable draft.id table).bind fun target _ => guard ?_
  refine (mapM fun input hmem => updateRow target.table (hinputs input hmem)).bind fun rows _ => ?_
  exact ite ((markChanged hdraft).bind fun _ _ => pure trivial) (pure trivial)

theorem removeRow (table : VersionId) (row : RowVersion) :
    (Edit.removeRow table row).Makes m fun _ => True := by
  refine (change (.disconnectRow _ _) (fun _ => rfl) trivial).bind fun _ _ => ?_
  exact (deleteRowIfUnheld row.version).bind fun _ _ => pure trivial

theorem removeRows (revision : RevisionId) (table : String) (names : List String) :
    (Edit.removeRows revision table names).Makes m fun _ => True := by
  refine (requireDraft revision).bind fun draft _ => (draftTable draft.id table).bind fun target _ => ?_
  have hfind (name : String) : (do
      Edit.orFault (.rowNotFound name target.table.name)
        ((← Edit.store).findRow target.table.version name) : Edit RowVersion).Makes m fun _ => True :=
    store.bind fun _ _ => (orFault _ _).any
  refine (mapM fun name _ => hfind name).bind fun found _ => ?_
  refine (mapM fun row _ => removeRow target.table.version row).bind fun rows _ => ?_
  exact (refreshHasChanges draft.id).bind fun _ _ => pure trivial

theorem renameRow {target : DraftRow} (htarget : target.row.MadeOf m) (next : RowName) :
    (Edit.renameRow target next).Makes m fun _ => True := by
  refine now.bind fun time htime => ?_
  have hrenamed : ({ target.row with name := next, updatedAt := time }).MadeOf m :=
    { htarget with updatedAt := htime }
  exact (write (.updateRow _) hrenamed).bind fun _ _ => pure trivial

theorem renameRows (revision : RevisionId) (table : String) (renames : List RowRename) :
    (Edit.renameRows revision table renames).Makes m fun _ => True := by
  refine (requireDraft revision).bind fun draft hdraft => (lift _).bind fun nextNames _ => ?_
  refine (requireTable draft.id table).bind fun current _ => (rowNames _).bind fun existing _ => ?_
  dsimp only
  split
  · exact refuse _ _
  · refine guard ((draftTable draft.id table).bind fun target _ => ?_)
    refine (mapM fun rename _ => draftRow target.table rename.name).bind fun drafts hdrafts => ?_
    refine (mapM fun (draft, next) hmem =>
      renameRow (hdrafts _ (List.of_mem_zip hmem).1) next).bind fun rows _ => ?_
    exact ite ((markChanged hdraft).bind fun _ _ => pure trivial) (pure trivial)

/-! ## Branches -/

theorem requireSource (id : RevisionId) : (Edit.requireSource id).Makes m fun _ => True :=
  store.bind fun _ _ => (orFault _ _).bind fun _ _ => guard (pure trivial)

theorem shareTable (start draft : RevisionId) {table : TableVersion} (htable : table.MadeOf m) :
    (Edit.shareTable start draft table).Makes m fun _ => True := by
  refine (write (.connectTable _ _) trivial).bind fun _ _ => ?_
  exact (write (.connectTable _ _) trivial).bind fun _ _ => lockTable htable

end Makes

/-- Writes a branch with its first revision and its draft, which show nothing yet. -/
def addBranch (name : BranchName) (parent : Option RevisionId) : Edit BranchCreated := do
  write (·.createBranch ⟨name, ← now⟩)
  let startId ← freshId .revision
  let start := Revision.start startId name parent (← now)
  let draftId ← freshId .revision
  let draft := Revision.draft draftId name startId (← now)
  write (·.createRevision start)
  write (·.createRevision draft)
  return ⟨name, startId, draftId⟩

/-- Lets a new branch share the tables of its source, if there is one. -/
def shareTables (created : BranchCreated) : Option Revision → Edit BranchCreated
  | some source => do
    ((← store).tablesOf source.id).forM (shareTable created.start created.draft)
    return created
  | none => return created

/-- A branch is written first and shares the tables of its source then. -/
theorem createBranch_eq (text : String) (source : Option RevisionId) :
    createBranch text source = (do
      let name ← parseName BranchName.parse text
      if ((← store).branch? name).isSome then throw (.branchExists name)
      let source ← source.mapM requireSource
      let created ← addBranch name (source.map (·.id))
      shareTables created source) := by
  simp only [createBranch, addBranch, bind_assoc, pure_bind]
  rfl

namespace Makes

theorem addBranch {name : BranchName} (hname : m.branch name) (parent : Option RevisionId) :
    (Edit.addBranch name parent).Makes m fun _ => True := by
  refine now.bind fun time htime => ?_
  have hrecord : (⟨name, time⟩ : Branch).MadeOf m := htime
  refine (write (.createBranch _) hrecord).bind fun _ _ => ?_
  refine (freshId _).bind fun startId _ => now.bind fun startTime hstartTime => ?_
  refine (freshId _).bind fun draftId _ => now.bind fun draftTime hdraftTime => ?_
  refine (write (.createRevision _) ⟨hname, hstartTime⟩).bind fun _ _ => ?_
  exact (write (.createRevision _) ⟨hname, hdraftTime⟩).bind fun _ _ => pure trivial

theorem shareTables (created : BranchCreated) (source : Option Revision) :
    (Edit.shareTables created source).Makes m fun _ => True := by
  cases source with
  | none => exact pure trivial
  | some source =>
    refine store.bind fun s hs => (forM fun table hmem => ?_).bind fun _ _ => pure trivial
    exact shareTable created.start created.draft (hs.of_tablesOf hmem)

theorem createBranch {branch : String} (source : Option RevisionId)
    (hbranch : ∀ name, BranchName.parse branch = .ok name → m.branch name) :
    (Edit.createBranch branch source).Makes m fun _ => True := by
  rw [createBranch_eq]
  refine (parseName _ _).bind fun name hname => store.bind fun s _ => guard ?_
  have hsource : (source.mapM Edit.requireSource).Makes m fun _ => True := by
    cases source with
    | none => exact pure trivial
    | some id => exact (requireSource id).map _
  refine hsource.bind fun source _ => (addBranch (hbranch name hname) _).bind fun created _ => ?_
  exact shareTables created source

theorem requireChanges (branch : BranchName) :
    (Edit.requireChanges branch).Makes m fun (head, draft) =>
      (head.MadeOf m ∧ head.branch = branch) ∧ draft.MadeOf m := by
  refine store.bind fun s hs => (orFault _ _).bind fun head hhead => ?_
  refine store.bind fun s' hs' => (orFault _ _).bind fun draft hdraft => guard (pure ?_)
  exact ⟨hs.of_findRevision hhead, (hs'.of_findRevision hdraft).1⟩

/-- Lets a draft show a table version, which nobody may change from now on. -/
theorem keepTable (draft : RevisionId) {table : TableVersion} (htable : table.MadeOf m) :
    (do Edit.write (·.connectTable draft table.version)
        Edit.lockTable table : Edit Unit).Makes m fun _ => True :=
  (write (.connectTable _ _) trivial).bind fun _ _ => lockTable htable

theorem commit (branch : BranchName) (comment : Option String) :
    (Edit.commit branch comment).Makes m fun _ => True := by
  refine (requireChanges branch).bind fun (head, draft) ⟨⟨hhead, hname⟩, hdraft⟩ => ?_
  have hleft : ({ head with isHead := false, isDraft := false }).MadeOf m := { hhead with }
  have hreached : ({ draft with
      isHead := true, isDraft := false, hasChanges := false, comment }).MadeOf m := { hdraft with }
  refine (write (.updateRevision _) hleft).bind fun _ _ => ?_
  refine (write (.updateRevision _) hreached).bind fun _ _ => ?_
  refine (freshId _).bind fun nextDraft _ => now.bind fun time htime => ?_
  refine (write (.createRevision _) ⟨hname ▸ hhead.branch, htime⟩).bind fun _ _ => ?_
  refine store.bind fun s hs => (forM fun table hmem => ?_).bind fun _ _ => pure trivial
  exact keepTable nextDraft (hs.of_tablesOf hmem)

theorem revert (branch : BranchName) : (Edit.revert branch).Makes m fun _ => True := by
  refine (requireChanges branch).bind fun (head, draft) ⟨_, hdraft⟩ => ?_
  refine store.bind fun s _ => store.bind fun s' _ => ?_
  refine (forM fun table _ => change (.disconnectTable draft.id table) (fun _ => rfl) trivial).bind
    fun _ _ => ?_
  refine (forM fun table _ => write (.connectTable draft.id table) trivial).bind fun _ _ => ?_
  have hreverted : ({ draft with hasChanges := false }).MadeOf m := { hdraft with }
  exact (write (.updateRevision _) hreverted).bind fun _ _ => pure trivial

end Makes

end Edit

/-! ## Commands -/

/-- A command is made of the rows it brings along, and of the branch it creates. -/
def Command.MadeOf (m : Material) : Command → Prop
  | .createBranch branch _ => ∀ name, BranchName.parse branch = .ok name → m.branch name
  | .createRows _ _ rows | .updateRows _ _ rows => ∀ input ∈ rows, input.MadeOf m
  | _ => True

/-- A command writes nothing but what it is made of. -/
theorem Command.makes_run {command : Command} (h : command.MadeOf m) :
    command.run.Makes m fun _ => True := by
  cases command with
  | createBranch branch source => exact (Edit.Makes.createBranch source h).map _
  | commit branch comment => exact (Edit.Makes.commit branch comment).map _
  | revert branch => exact (Edit.Makes.revert branch).map _
  | collectGarbage => exact Edit.Makes.collectGarbage.map _
  | createTable revision table system =>
    exact (Edit.Makes.createTable revision table system).map _
  | renameTable revision table next =>
    exact (Edit.Makes.renameTable revision table next).map _
  | removeTable revision table => exact (Edit.Makes.removeTable revision table).map _
  | createRows revision table rows => exact (Edit.Makes.createRows revision table h).map _
  | updateRows revision table rows => exact (Edit.Makes.updateRows revision table h).map _
  | removeRows revision table rows => exact (Edit.Makes.removeRows revision table rows).map _
  | renameRows revision table renames =>
    exact (Edit.Makes.renameRows revision table renames).map _

/-- Every command is made of the material with everything in it. -/
theorem Command.madeOf_everything (command : Command) : command.MadeOf .everything := by
  have hinputs (inputs : List RowInput) : ∀ input ∈ inputs, input.MadeOf .everything :=
    fun _ _ => ⟨trivial, fun _ _ => trivial, fun _ _ => trivial⟩
  cases command with
  | createBranch branch source => exact fun _ _ => trivial
  | createRows revision table rows => exact hinputs rows
  | updateRows revision table rows => exact hinputs rows
  | _ => exact trivial

/-- All a command does to the transaction is to try writes. -/
theorem Command.journaled_run (command : Command) : command.run.Journaled :=
  (makes_run command.madeOf_everything).journaled

end VersionedTables
