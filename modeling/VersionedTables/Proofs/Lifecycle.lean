import VersionedTables.Proofs.Marks

/-!
# The life of a draft

A draft that was changed ends in one of two ways. It is put back to what the head shows, or it becomes
the head itself, with another draft on top. Here both are described over the whole store: what is
different afterwards, and that everything else is what it was (`Store.PutBack`, `Store.Promoted`).

Both go through wherever a run has led to (`Database.Fresh.run_reverts`, `Database.Fresh.run_commits`).
Only a disk that does not let the snapshot be written can prevent it, and then the store is what it was
(`Database.CarriesOut`).
-/

namespace VersionedTables

/-! ## Commands that go through -/

namespace Edit

variable {w : Workspace}

/-- A branch without changes is neither committed nor reverted. -/
theorem outcome_requireChanges_of_unchanged {branch : BranchName} {head draft : Revision}
    (hhead : w.store.findRevision branch .head = some head)
    (hdraft : w.store.findRevision branch .draft = some draft) (hflag : draft.hasChanges = false) :
    (requireChanges branch).outcome w = (.error .noChanges, w) := by
  have hstore : store.outcome w = (.ok w.store, w) := rfl
  have hfound {fault : CommandFault} {revision : Revision} :
      (orFault fault (some revision)).outcome w = (.ok revision, w) := rfl
  simp only [requireChanges, outcome_bind, hstore, hhead, hfound, hdraft, hflag]
  rfl

end Edit

namespace Database

variable {db db' : Database} {command : Command} {w : Workspace}

/-- A command succeeds in what is said of its reply and of the database that it leaves, unless the disk
of the database refuses to write. Then the store is what it was. -/
def CarriesOut (db : Database) (command : Command) (P : Reply → Database → Prop) : Prop :=
  (∃ reply db', db.execute command = (.ok reply, db') ∧ P reply db') ∨
    ∃ db', db.execute command =
        (.error (.store (.notReplaced db.surroundings.disk.path)), db') ∧ db'.store = db.store ∧
      db.config.onDisk = true ∧ db.surroundings.disk.refusesNext = true

/-- A commit fails only if the disk refuses to write. -/
theorem refusesNext_of_commit {fault : StoreFault} (h : db.commit w = (.error fault, db')) :
    fault = .notReplaced db.surroundings.disk.path ∧ db.config.onDisk = true ∧
      db.surroundings.disk.refusesNext = true := by
  have hfault : (db.commit w).1 = .error fault := congrArg Prod.fst h
  rw [commit_fst] at hfault
  split at hfault
  · next hrefused =>
    cases hfault
    exact ⟨rfl, (commit_eq_error h).1, (Bool.and_eq_true_iff.mp hrefused).2⟩
  · cases hfault

/-- A command whose edit is not refused is carried out. -/
theorem carriesOut_of_yields (h : db.store.Sound db.supply) {P : Reply → Store → Prop}
    (hyields : command.run.Yields db.begin fun reply w => P reply w.store) :
    db.CarriesOut command fun reply db' => P reply db'.store := by
  rcases hresult : db.execute command with ⟨fault | reply, db'⟩
  · have hstore := (execute_refused h hresult).1
    obtain ⟨reply, w, hrun, -⟩ := hyields
    have hrun' : command.run.run.run db.begin = (.ok reply, w) := hrun
    rw [execute, transact] at hresult
    simp only [hrun'] at hresult
    rcases hcommit : db.commit w with ⟨cause | _, db₁⟩ <;> simp only [hcommit] at hresult <;>
      cases hresult
    obtain ⟨rfl, hrefused⟩ := refusesNext_of_commit hcommit
    refine .inr ⟨db', ?_, hstore, hrefused⟩
    rw [execute, transact]
    simp only [hrun', hcommit]
  · obtain ⟨_, w, -, ⟨rfl, hstore, -⟩, hP⟩ := (transact_eq_ok hresult).and hyields
    rw [← hstore] at hP
    exact .inl ⟨_, db', hresult, hP⟩

theorem CarriesOut.imp {P Q : Reply → Database → Prop} (h : db.CarriesOut command P)
    (himp : ∀ reply db', P reply db' → Q reply db') : db.CarriesOut command Q := by
  rcases h with ⟨reply, db', hresult, hP⟩ | hrefused
  · exact .inl ⟨reply, db', hresult, himp reply db' hP⟩
  · exact .inr hrefused

/-- In memory there is nothing that can prevent it. -/
theorem CarriesOut.of_memory {P : Reply → Database → Prop} (h : db.CarriesOut command P)
    (hmemory : db.config.onDisk = false) :
    ∃ reply db', db.execute command = (.ok reply, db') ∧ P reply db' := by
  rcases h with hdone | ⟨-, -, -, honDisk, -⟩
  · exact hdone
  · rw [hmemory] at honDisk
    cases honDisk

/-- A command that is refused before it writes anything leaves the database as it was. -/
theorem execute_of_outcome {fault : CommandFault}
    (h : command.run.outcome db.begin = (.error fault, db.begin)) :
    db.execute command = (.error (.command fault), db) := by
  have hrun : command.run.run.run db.begin = (.error fault, db.begin) := h
  rw [execute, transact]
  simp only [hrun]
  rfl

/-- A branch without changes is neither reverted nor committed. -/
theorem execute_of_unchanged {branch : BranchName} {head draft : Revision}
    (hhead : db.store.findRevision branch .head = some head)
    (hdraft : db.store.findRevision branch .draft = some draft) (hflag : draft.hasChanges = false) :
    db.execute (.revert branch) = (.error (.command .noChanges), db) ∧
      ∀ comment, db.execute (.commit branch comment) = (.error (.command .noChanges), db) := by
  have hchanges : (Edit.requireChanges branch).outcome db.begin = (.error .noChanges, db.begin) :=
    Edit.outcome_requireChanges_of_unchanged hhead hdraft hflag
  -- Both commands ask for changes before they do anything else.
  have hrefused {command : Command} {k : Revision × Revision → Edit Reply}
      (hk : command.run = Edit.requireChanges branch >>= k) :
      db.execute command = (.error (.command .noChanges), db) := by
    refine execute_of_outcome ?_
    rw [hk, Edit.outcome_bind, hchanges]
  exact ⟨hrefused (map_bind _ _ _), fun comment => hrefused (map_bind _ _ _)⟩

end Database

/-! ## Putting a draft back -/

/-- A draft that is marked is still the draft of its branch, on top of the same head. -/
theorem Lines.Line.mark_draft {l : Lines} {name : BranchName} {head draft : Revision} {flag : Bool}
    (h : l.Line name head draft)
    (hid : ∀ {id other}, l.revision? id = some other → other.id = id) :
    (l.mark draft flag).Line name head { draft with hasChanges := flag } := by
  have hmarked : (l.mark draft flag).Line name (marked draft flag head) (marked draft flag draft) :=
    h.mark hid h.draft_stored
  rwa [marked, if_neg h.head_ne_draft, marked, if_pos rfl] at hmarked

/-- The draft of a branch shows what the head does, is not marked as changed, and nothing else is
different. -/
structure Store.PutBack (s : Store) (branch : BranchName) (head draft : Revision) (result : Reverted)
    (s' : Store) : Prop where
  /-- The answer names the head. -/
  head_eq : result.head = head.id
  /-- The answer names the draft, which is another revision. -/
  draft_eq : result.draft = draft.id ∧ head.id ≠ draft.id
  /-- It lists no table version twice. -/
  nodup_detached : result.detached.Nodup
  /-- It lists the table versions that the draft showed and the head does not. -/
  mem_detached : ∀ v, v ∈ result.detached ↔ s.Shows draft.id v ∧ ¬s.Shows head.id v
  /-- The draft shows what the head does. -/
  shows_draft : ∀ v, s'.Shows draft.id v ↔ s.Shows head.id v
  /-- The other revisions show what they did. -/
  shows_other : ∀ id, id ≠ draft.id → ∀ v, s'.Shows id v ↔ s.Shows id v
  /-- Table versions hold what they did. -/
  holds : ∀ v u, s'.Holds v u ↔ s.Holds v u
  /-- The draft is not marked any more, and is the draft of the branch as before. -/
  findRevision_draft : s'.findRevision branch .draft = some { draft with hasChanges := false }
  /-- The head is the head of the branch as before. -/
  findRevision_head : s'.findRevision branch .head = some head
  /-- Nothing but the mark of the draft is different. -/
  revision?_draft : s'.revision? draft.id = some { draft with hasChanges := false }
  /-- The other revisions are what they were. -/
  revision?_other : ∀ id, id ≠ draft.id → s'.revision? id = s.revision? id
  /-- Branches are what they were. -/
  branch? : ∀ name, s'.branch? name = s.branch? name
  /-- Table versions are what they were. -/
  table? : ∀ v, s'.table? v = s.table? v
  /-- Row versions are what they were. -/
  row? : ∀ u, s'.row? u = s.row? u

/-- A changed draft is put back. -/
theorem Edit.revert_putsBack {w : Workspace} {branch : BranchName} {head draft : Revision}
    (h : w.Sound) (hline : w.graph.lines.Line branch head draft) (hflag : draft.hasChanges = true) :
    (revert branch).Yields w fun result w' => w.store.PutBack branch head draft result w'.store := by
  refine ((revert_yields h hline hflag).and (revert_edit h hline hflag)).imp ?_
  rintro result w' ⟨⟨⟨hhead, hdraft, hnodup, hdetached⟩, w₁, -, hgraph₁, -, hgraph⟩, hedit, -⟩
  rw [hgraph₁] at hgraph
  have hlines : w'.graph.lines = w.graph.lines.mark draft false := congrArg Graph.lines hgraph
  have htables : w'.graph.tables = w.graph.tables.inherit draft.id (some head.id) :=
    congrArg Graph.tables hgraph
  have hrows : w'.graph.rows = w.graph.rows := by
    rw [hgraph]
    rfl
  have hne := hline.head_ne_draft
  have hshows (id : RevisionId) (v : VersionId) : w'.store.Shows id v ↔
      if id = draft.id then w.store.Shows head.id v else w.store.Shows id v := by
    change w'.graph.tables.Linked id v ↔ _
    rw [htables, Layer.linked_inherit]
    simp only [Option.some.injEq, exists_eq_left', Store.graph_shows]
  have hline' : w'.graph.lines.Line branch head { draft with hasChanges := false } := by
    rw [hlines]
    exact hline.mark_draft h.intact.closed.id_eq
  exact {
    head_eq := hhead
    draft_eq := ⟨hdraft, hne⟩
    nodup_detached := hnodup
    mem_detached := hdetached
    shows_draft := by
      intro v
      rw [hshows, if_pos rfl]
    shows_other := by
      intro id hid v
      rw [hshows, if_neg hid]
    holds := by
      intro v u
      rw [← Store.graph_holds, ← Store.graph_holds]
      exact iff_of_eq (congrArg (fun rows => rows.Linked v u) hrows)
    findRevision_draft := hedit.sound.findRevision_draft.mpr ⟨head, hline'⟩
    findRevision_head := hedit.sound.findRevision_head.mpr ⟨_, hline'⟩
    revision?_draft := hline'.draft_stored
    revision?_other := by
      intro id hid
      rw [Workspace.revision?_eq, hlines, Lines.revision?_mark, if_neg hid]
      rfl
    branch? := congrFun (congrArg Lines.branch? hlines)
    table? := congrFun (congrArg Layer.record? htables)
    row? := congrFun (congrArg Layer.record? hrows) }

namespace Database

variable {db db' : Database} {branch : BranchName} {draft : Revision}

/-- Wherever a run has led to, a changed draft is put back, and then there are no changes. -/
theorem Fresh.run_reverts (h : db.Fresh) (commands : List Command)
    (hdraft : (db.run commands).store.findRevision branch .draft = some draft)
    (hflag : draft.hasChanges = true) :
    ∃ head, (db.run commands).store.findRevision branch .head = some head ∧
      (db.run commands).CarriesOut (.revert branch) fun reply db' =>
        (∃ result, reply = .reverted result ∧
          (db.run commands).store.PutBack branch head draft result db'.store) ∧
        db'.execute (.revert branch) = (.error (.command .noChanges), db') ∧
        ∀ comment, db'.execute (.commit branch comment) = (.error (.command .noChanges), db') := by
  have hsound := h.run_sound commands
  obtain ⟨head, hline⟩ := hsound.findRevision_draft.mp hdraft
  refine ⟨head, hsound.findRevision_head.mpr ⟨draft, hline⟩, ?_⟩
  refine CarriesOut.imp (carriesOut_of_yields (P := fun reply s' => ∃ result,
    reply = .reverted result ∧ (db.run commands).store.PutBack branch head draft result s') hsound
    (Edit.yields_map.mpr ((Edit.revert_putsBack hsound hline hflag).imp ?_))) ?_
  · intro result w' hputBack
    exact ⟨result, rfl, hputBack⟩
  · rintro reply db' ⟨result, hreply, hputBack⟩
    exact ⟨⟨result, hreply, hputBack⟩,
      execute_of_unchanged hputBack.findRevision_head hputBack.findRevision_draft rfl⟩

/-- A table with a row is committed. In the next draft it is renamed, and another one is created. -/
def renamedBesideAnother : List Command :=
  [.createBranch "main" none, .createTable ⟨"ii"⟩ "users" false,
    .createRows ⟨"ii"⟩ "users" [⟨"ada", .null, none, none, none⟩], .commit ⟨"main"⟩ none,
    .renameTable ⟨"iiiiiii"⟩ "users" "people", .createTable ⟨"iiiiiii"⟩ "places" false]

/-- The draft in which this was done is marked. -/
theorem findRevision_renamedBesideAnother :
    ((inMemory (.unary fun _ => ⟨0, 0⟩)).run renamedBesideAnother).store.findRevision ⟨"main"⟩
        .draft =
      some { Revision.draft ⟨"iiiiiii"⟩ ⟨"main"⟩ ⟨"ii"⟩ ⟨0, 0⟩ with hasChanges := true } := by
  decide +kernel

/-- The copy that was renamed and the table that was created are let go of, and the table that was
committed is shown again. -/
theorem run_reverts_of_rename : ∃ result db',
    ((inMemory (.unary fun _ => ⟨0, 0⟩)).run renamedBesideAnother).execute (.revert ⟨"main"⟩) =
        (.ok (.reverted result), db') ∧
      result = ⟨⟨"ii"⟩, ⟨"iiiiiii"⟩, [⟨"iiiiiiii"⟩, ⟨"iiiiiiiiii"⟩]⟩ ∧
      db'.store.Shows ⟨"iiiiiii"⟩ ⟨"iiii"⟩ ∧
      db'.execute (.commit ⟨"main"⟩ none) = (.error (.command .noChanges), db') := by
  obtain ⟨head, -, hcarried⟩ := Fresh.run_reverts
    (fresh_inMemory (Supply.distinct_unary fun _ => ⟨0, 0⟩)) renamedBesideAnother
    findRevision_renamedBesideAnother rfl
  obtain ⟨reply, db', hresult, ⟨result, rfl, hputBack⟩, -, hcommit⟩ :=
    hcarried.of_memory (by rw [(opened_run _ _).1]; rfl)
  have hreply : (((inMemory (.unary fun _ => ⟨0, 0⟩)).run renamedBesideAnother).execute
      (.revert ⟨"main"⟩)).1 =
        .ok (.reverted ⟨⟨"ii"⟩, ⟨"iiiiiii"⟩, [⟨"iiiiiiii"⟩, ⟨"iiiiiiiiii"⟩]⟩) := by
    decide +kernel
  obtain rfl : result = _ := Reply.reverted.inj (Except.ok.inj
    ((congrArg Prod.fst hresult).symm.trans hreply))
  have hshown : ((inMemory (.unary fun _ => ⟨0, 0⟩)).run
      renamedBesideAnother).store.revisionTables.contains ⟨"ii"⟩ ⟨"iiii"⟩ = true := by
    decide +kernel
  refine ⟨_, db', hresult, rfl, (hputBack.shows_draft _).mpr ?_, hcommit none⟩
  rw [← hputBack.head_eq]
  exact hshown

end Database

/-! ## Promoting a draft -/

namespace Store

/-- A new revision has come to show what another one shows. All of that is published with the rows in
it, and apart from this no version and no link is different. -/
structure SharedWith (s : Store) (source next : RevisionId) (s' : Store) : Prop where
  /-- They are two revisions. -/
  source_ne_next : source ≠ next
  /-- The new revision shows what the other one showed. -/
  shows_next : ∀ v, s'.Shows next v ↔ s.Shows source v
  /-- All other revisions show what they did, and so does the one it is shared with. -/
  shows_other : ∀ id, id ≠ next → ∀ v, s'.Shows id v ↔ s.Shows id v
  /-- Table versions hold what they did. -/
  holds : ∀ v u, s'.Holds v u ↔ s.Holds v u
  /-- Table versions that are shared are read-only, and not different otherwise. -/
  table?_shared : ∀ v, s.Shows source v → s'.table? v = (s.table? v).map TableVersion.lock
  /-- The other table versions are what they were. -/
  table?_other : ∀ v, ¬s.Shows source v → s'.table? v = s.table? v
  /-- Row versions that these hold are read-only, and not different otherwise. -/
  row?_shared : ∀ v u, s.Shows source v → s.Holds v u →
    s'.row? u = (s.row? u).map RowVersion.lock
  /-- The other row versions are what they were. -/
  row?_other : ∀ u, (∀ v, s.Shows source v → ¬s.Holds v u) → s'.row? u = s.row? u
  /-- So all that is shared is there and read-only. -/
  readonly : ∀ v, s'.Shows next v → ∃ table, s'.table? v = some table ∧ table.readonly = true ∧
    ∀ u, s'.Holds v u → ∃ row, s'.row? u = some row ∧ row.readonly = true

/-- What is shared with a revision that shows nothing yet. -/
theorem SharedWith.of_graph {s s' : Store} {l : Lines} {source next : RevisionId}
    (hclosed : s.graph.Closed) (hne : source ≠ next) (hnew : s.revision? next = none)
    (hgraph : s'.graph = s.graph.share l (· = next) (s.graph.tables.Linked source)) :
    s.SharedWith source next s' := by
  have hshows (id : RevisionId) (v : VersionId) :
      s'.Shows id v ↔ s.Shows id v ∨ id = next ∧ s.Shows source v := by
    rw [← graph_shows, hgraph]
    exact Iff.rfl
  have hholds (v u : VersionId) : s'.Holds v u ↔ s.Holds v u := by
    rw [← graph_holds, hgraph]
    exact Iff.rfl
  have htable (v : VersionId) (hv : s.Shows source v) :
      s'.table? v = (s.table? v).map TableVersion.lock := by
    rw [← graph_table?, hgraph]
    exact Layer.record?_lock_of hv
  have hrow (v u : VersionId) (hv : s.Shows source v) (hu : s.Holds v u) :
      s'.row? u = (s.row? u).map RowVersion.lock := by
    rw [← graph_row?, hgraph]
    exact Layer.record?_lock_of ⟨v, hv, hu⟩
  have hnext (v : VersionId) : s'.Shows next v ↔ s.Shows source v := by
    have hunshown : ¬s.Shows next v := hclosed.not_shower hnew v
    rw [hshows, or_iff_right hunshown, and_iff_right rfl]
  exact {
    source_ne_next := hne
    shows_next := hnext
    shows_other := by
      intro id hid v
      rw [hshows, or_iff_left fun hnext => hid hnext.1]
    holds := hholds
    table?_shared := htable
    table?_other := by
      intro v hv
      rw [← graph_table?, hgraph]
      exact Layer.record?_lock_of_not hv
    row?_shared := hrow
    row?_other := by
      intro u hu
      rw [← graph_row?, hgraph]
      refine Layer.record?_lock_of_not ?_
      rintro ⟨v, hv, hheld⟩
      exact hu v hv hheld
    readonly := by
      intro v hv
      have hshown := (hnext v).mp hv
      obtain ⟨table, hstored⟩ := hclosed.shown hshown
      refine ⟨table.lock, by rw [htable v hshown, ← graph_table?, hstored]; rfl, rfl, ?_⟩
      intro u hu
      have hheld := (hholds v u).mp hu
      obtain ⟨row, hstored⟩ := hclosed.held hheld
      exact ⟨row.lock, by rw [hrow v u hshown hheld, ← graph_row?, hstored]; rfl, rfl⟩ }

/-- The draft of a branch has become its head, and shares all that it shows with another draft. Nothing
else is different. -/
structure Promoted (s : Store) (branch : BranchName) (head draft : Revision) (comment : Option String)
    (result : Committed) (s' : Store) : Prop extends s.SharedWith draft.id result.nextDraft s' where
  /-- The answer names the head and the draft before, and the draft once more as the head now. -/
  result_eq : result = ⟨head.id, draft.id, draft.id, result.nextDraft⟩
  /-- The draft now is a revision that there was not. -/
  next_new : s.revision? result.nextDraft = none
  /-- The draft before is the head now. -/
  findRevision_head : s'.findRevision branch .head =
    some { draft with isHead := true, isDraft := false, hasChanges := false, comment }
  /-- The draft now is on top of it, without changes. -/
  findRevision_draft : ∃ time,
    s'.findRevision branch .draft = some (.draft result.nextDraft branch draft.id time) ∧
      s'.revision? result.nextDraft = some (.draft result.nextDraft branch draft.id time)
  /-- The draft before is not different otherwise. -/
  revision?_draft : s'.revision? draft.id =
    some { draft with isHead := true, isDraft := false, hasChanges := false, comment }
  /-- The head before is neither head nor draft, and not different otherwise. -/
  revision?_head : s'.revision? head.id = some { head with isHead := false, isDraft := false }
  /-- The other revisions are what they were. -/
  revision?_other : ∀ id, id ≠ head.id → id ≠ draft.id → id ≠ result.nextDraft →
    s'.revision? id = s.revision? id
  /-- Branches are what they were. -/
  branch? : ∀ name, s'.branch? name = s.branch? name
  /-- There is no difference between the head now and the draft now. -/
  diff_isEmpty : (s'.diff draft.id result.nextDraft).isEmpty = true

end Store

/-- A changed draft is promoted. -/
theorem Edit.commit_promotes {w : Workspace} {branch : BranchName} {head draft : Revision}
    {comment : Option String} (h : w.Sound) (hline : w.graph.lines.Line branch head draft)
    (hflag : draft.hasChanges = true) :
    (commit branch comment).Yields w fun result w' =>
      w.store.Promoted branch head draft comment result w'.store := by
  refine (commit_yields h hline hflag).imp ?_
  rintro result w' ⟨hresult, hkeeps, hnext, time, hgraph⟩
  have hclosed := h.intact.closed
  have hnewHead := NewHead.of_share h hline hkeeps hnext hgraph
  have hnew : w.store.revision? result.nextDraft = none := hnewHead.next_new
  have hlines := congrArg Graph.lines hgraph
  have hline' : w'.graph.lines.Line branch
      { draft with isHead := true, isDraft := false, hasChanges := false, comment }
      (.draft result.nextDraft branch draft.id time) := by
    rw [hlines]
    exact hline.promote hclosed.id_eq hnew
  have hother {id : RevisionId} (hdraft : id ≠ draft.id) (hid : id ≠ result.nextDraft) :=
    hnewHead.revision?_other (not_or.mpr ⟨hdraft, hid⟩)
  exact {
    Store.SharedWith.of_graph hclosed (hnewHead.draft_ne_next hline) hnew hgraph with
    result_eq := hresult
    next_new := hnew
    findRevision_head := hnewHead.sound.findRevision_head.mpr ⟨_, hline'⟩
    findRevision_draft := ⟨time, hnewHead.sound.findRevision_draft.mpr ⟨_, hline'⟩,
      hline'.draft_stored⟩
    revision?_draft := hline'.head_stored
    revision?_head := (hother hline.head_ne_draft (Lines.ne_of_new hline.head_stored hnew)).trans
      (if_pos rfl)
    revision?_other := fun id hhead hdraft hid => (hother hdraft hid).trans (if_neg hhead)
    branch? := congrFun (congrArg Lines.branch? hlines)
    diff_isEmpty := by
      rw [hnewHead.sound.diff_isEmpty_iff, hnewHead.outline _ (.inl rfl),
        hnewHead.outline _ (.inr rfl)] }

namespace Database

variable {db : Database} {branch : BranchName} {draft : Revision}

/-- Wherever a run has led to, a changed draft is promoted. -/
theorem Fresh.run_commits (h : db.Fresh) (commands : List Command)
    (hdraft : (db.run commands).store.findRevision branch .draft = some draft)
    (hflag : draft.hasChanges = true) (comment : Option String) :
    ∃ head, (db.run commands).store.findRevision branch .head = some head ∧
      (db.run commands).CarriesOut (.commit branch comment) fun reply db' =>
        ∃ result, reply = .committed result ∧
          (db.run commands).store.Promoted branch head draft comment result db'.store := by
  have hsound := h.run_sound commands
  obtain ⟨head, hline⟩ := hsound.findRevision_draft.mp hdraft
  refine ⟨head, hsound.findRevision_head.mpr ⟨draft, hline⟩, ?_⟩
  refine carriesOut_of_yields (P := fun reply s' => ∃ result, reply = .committed result ∧
      (db.run commands).store.Promoted branch head draft comment result s') hsound
    (Edit.yields_map.mpr ((Edit.commit_promotes hsound hline hflag).imp ?_))
  intro result w' hpromoted
  exact ⟨result, rfl, hpromoted⟩

/-- The draft after that shows the same two tables, which are published by then. -/
theorem run_commits_of_rename : ∃ result db',
    ((inMemory (.unary fun _ => ⟨0, 0⟩)).run renamedBesideAnother).execute
        (.commit ⟨"main"⟩ (some "names")) = (.ok (.committed result), db') ∧
      result = ⟨⟨"ii"⟩, ⟨"iiiiiii"⟩, ⟨"iiiiiii"⟩, ⟨"iiiiiiiiiii"⟩⟩ ∧
      (db'.store.diff ⟨"iiiiiii"⟩ ⟨"iiiiiiiiiii"⟩).isEmpty = true ∧
      db'.store.Shows ⟨"iiiiiiiiiii"⟩ ⟨"iiiiiiii"⟩ ∧
      ∃ table, db'.store.table? ⟨"iiiiiiii"⟩ = some table ∧ table.readonly = true := by
  obtain ⟨head, -, hcarried⟩ := Fresh.run_commits
    (fresh_inMemory (Supply.distinct_unary fun _ => ⟨0, 0⟩)) renamedBesideAnother
    findRevision_renamedBesideAnother rfl (some "names")
  obtain ⟨reply, db', hresult, result, rfl, hpromoted⟩ :=
    hcarried.of_memory (by rw [(opened_run _ _).1]; rfl)
  have hreply : (((inMemory (.unary fun _ => ⟨0, 0⟩)).run renamedBesideAnother).execute
      (.commit ⟨"main"⟩ (some "names"))).1 =
        .ok (.committed ⟨⟨"ii"⟩, ⟨"iiiiiii"⟩, ⟨"iiiiiii"⟩, ⟨"iiiiiiiiiii"⟩⟩) := by
    decide +kernel
  obtain rfl : result = _ := Reply.committed.inj (Except.ok.inj
    ((congrArg Prod.fst hresult).symm.trans hreply))
  have hbefore : ((inMemory (.unary fun _ => ⟨0, 0⟩)).run
      renamedBesideAnother).store.revisionTables.contains ⟨"iiiiiii"⟩ ⟨"iiiiiiii"⟩ = true := by
    decide +kernel
  have hshown := (hpromoted.shows_next _).mpr hbefore
  obtain ⟨table, htable, hreadonly, -⟩ := hpromoted.readonly _ hshown
  exact ⟨_, db', hresult, rfl, hpromoted.diff_isEmpty, hshown, table, htable, hreadonly⟩

end Database

end VersionedTables
