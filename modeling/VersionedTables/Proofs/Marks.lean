import VersionedTables.Proofs.Differences
import VersionedTables.Proofs.Runs

/-!
# Marks

The mark of a draft is kept up in two ways. Commands that add something set it, and commands that
take something away compare the draft with its parent. `Graph.Marks` is what is true of the marks of
all drafts, and a command keeps what is true of marks that are right (`Effect.marks`). There is one
exception: a table that gets back the name it has in the parent (`Graph.RenamesBack`) sets the mark
where there may be no difference.

So no change is without a mark (`Database.Fresh.run_noticesChanges`). A mark may be without a change
(`Database.mark_without_change`), but only on a draft where a table was renamed back
(`Database.Fresh.run_marksExactly`).
-/

namespace VersionedTables

variable {w w' : Workspace} {command : Command} {reply : Reply} {draft : Revision}
  {F : Content → Content} {R : RevisionId → Bool → Prop → Prop}

/-! ## The marks of all drafts -/

/-- What is true of the mark of each draft and of whether it differs from its parent. -/
def Graph.Marks (g : Graph) (R : RevisionId → Bool → Prop → Prop) : Prop :=
  ∀ draft, g.lines.Drafts draft → R draft.id draft.hasChanges (g.Differs draft)

/-! ## Steps -/

/-- A step does not change whether a draft of another branch differs from its parent. -/
theorem Step.differs_iff {branch : Option BranchName} (hw : w.Sound) (h : Step w branch w')
    (hdraft : w.graph.lines.Drafts draft) (hbranch : branch ≠ some draft.branch) :
    w'.graph.Differs draft ↔ w.graph.Differs draft := by
  obtain ⟨head, hline, -⟩ := hw.coherent.baseline_eq hdraft
  obtain ⟨-, hview⟩ := h.isolated hdraft.stored hdraft.isDraft hbranch
  obtain ⟨-, hview'⟩ := h.frozen hline.head_stored hline.head_published
  rw [Graph.differs_iff hline.parent, Graph.differs_iff hline.parent, hview.outline_eq,
    hview'.outline_eq]

/-- What is true of the marks stays true when it is true of the marks that are new. -/
theorem Step.marks {branch : Option BranchName} (hw : w.Sound) (h : Step w branch w')
    (hmarks : w.graph.Marks R)
    (hnew : ∀ draft, w'.graph.lines.Drafts draft →
      w.graph.lines.Drafts draft ∧ branch ≠ some draft.branch ∨
        R draft.id draft.hasChanges (w'.graph.Differs draft)) : w'.graph.Marks R := by
  intro draft hdraft
  rcases hnew draft hdraft with ⟨hold, hbranch⟩ | hright
  · rw [h.differs_iff hw hold hbranch]
    exact hmarks draft hold
  · exact hright

section Marks

variable (hR : ∀ {id flag p}, (flag = true ↔ p) → R id flag p)

include hR

/-- The draft of a new branch is like the first revision of the branch, and has no mark. -/
theorem NewBranch.marks {name : BranchName} {source : Option RevisionId} {result : BranchCreated}
    (hw : w.Sound) (h : NewBranch name source result w w') (hmarks : w.graph.Marks R) :
    w'.graph.Marks R := by
  refine (Step.newBranch h).marks hw hmarks fun draft hdraft => ?_
  obtain ⟨time, time', time'', hlines⟩ := h.lines
  have hstored := hdraft.stored
  rw [hlines] at hstored
  rcases Lines.revision?_addBranch_cases hstored with rfl | rfl | hold
  · exact absurd hdraft.isDraft Bool.false_ne_true
  · have hlike := not_not_intro h.outline
    exact .inr (hR (iff_of_false Bool.false_ne_true ((Graph.differs_iff rfl).not.mpr hlike)))
  · exact .inl ⟨⟨hold, hdraft.isDraft⟩, Option.some_ne_none _ |>.symm⟩

/-- The draft after a commit is like the head, and has no mark. -/
theorem NewHead.marks {name : BranchName} {head : Revision} {comment : Option String}
    {nextId : RevisionId} (hw : w.Sound) (hline : w.graph.lines.Line name head draft)
    (h : NewHead name head draft comment nextId w w') (hmarks : w.graph.Marks R) :
    w'.graph.Marks R := by
  refine (Step.newHead hline h).marks hw hmarks fun other hother => ?_
  obtain ⟨time, hlines⟩ := h.lines
  have hstored := hother.stored
  rw [hlines] at hstored
  rcases Lines.revision?_promote_cases hstored with rfl | rfl | rfl | ⟨-, hne, hold⟩
  · have hlike := not_not_intro
      ((h.outline nextId (.inr rfl)).trans (h.outline draft.id (.inl rfl)).symm)
    exact .inr (hR (iff_of_false Bool.false_ne_true ((Graph.differs_iff rfl).not.mpr hlike)))
  · exact absurd hother.isDraft Bool.false_ne_true
  · exact absurd hother.isDraft Bool.false_ne_true
  · refine .inl ⟨⟨hold, hother.isDraft⟩, fun hbranch => hne ?_⟩
    rw [hline.draft_unique hold (Option.some.inj hbranch).symm hother.isDraft]

omit hR in
/-- An edit of a draft may change the mark of that draft only. -/
theorem DraftEdit.marks (hw : w.Sound) (hdraft : w.graph.lines.Drafts draft)
    (h : DraftEdit draft F w w') (hmarks : w.graph.Marks R)
    (hmark : ∃ flag, w'.graph.lines.HasMark draft flag ∧ R draft.id flag (w'.graph.Differs draft)) :
    w'.graph.Marks R := by
  refine (Step.edit hdraft h).marks hw hmarks fun other hother => ?_
  obtain ⟨flag, hstored, hright⟩ := hmark
  by_cases hid : other.id = draft.id
  · -- Whether a revision differs from its parent does not depend on its mark.
    have hsame : other = { draft with hasChanges := flag } := by
      have hstored' := hother.stored
      rw [hid] at hstored'
      exact Option.some.inj (hstored'.symm.trans hstored)
    subst hsame
    exact .inr hright
  · obtain ⟨flag', hlines⟩ := h.lines
    have hold := hother.stored
    rw [hlines, Lines.revision?_mark, if_neg hid] at hold
    obtain ⟨head, hline⟩ := hw.coherent.lines.line_of_draft hdraft.stored hdraft.isDraft
    refine .inl ⟨⟨hold, hother.isDraft⟩, fun hbranch => hid ?_⟩
    rw [hline.draft_unique hold (Option.some.inj hbranch).symm hother.isDraft]

/-- A comparison gives the draft the mark that is right. -/
theorem Compared.marks {flag : Bool} (hw : w.Sound) (hdraft : w.graph.lines.Drafts draft)
    (h : DraftEdit draft F w w') (hmark : Compared draft flag w') (hmarks : w.graph.Marks R) :
    w'.graph.Marks R :=
  h.marks hw hdraft hmarks ⟨flag, hmark.stored, hR hmark.differs⟩

omit hR in
/-- What leaves the mark as it is has not made a difference either. -/
theorem Kept.marks (hw : w.Sound) (hdraft : w.graph.lines.Drafts draft) (h : DraftEdit draft F w w')
    (hmark : Kept draft w w') (hmarks : w.graph.Marks R) : w'.graph.Marks R := by
  refine h.marks hw hdraft hmarks ⟨draft.hasChanges, hmark.stored, ?_⟩
  obtain ⟨head, hline, -⟩ := hw.coherent.baseline_eq hdraft
  have hhead := (h.others head.id hline.head_ne_draft).outline_eq
  have hsame : w'.graph.Differs draft ↔ w.graph.Differs draft := by
    rw [Graph.differs_iff hline.parent, Graph.differs_iff hline.parent, hmark.outline, hhead]
  rw [hsame]
  exact hmarks draft hdraft

theorem Batched.marks {ι : Type} {batch : List ι} (hw : w.Sound)
    (hdraft : w.graph.lines.Drafts draft) (h : DraftEdit draft F w w') (hmark : Batched batch draft w w') (hmarks : w.graph.Marks R) :
    w'.graph.Marks R := by
  cases batch with
  | nil => exact Kept.marks hw hdraft h hmark hmarks
  | cons first rest => exact Compared.marks hR hw hdraft h hmark hmarks

/-- Every command keeps what is true of marks that are right, if it is also true of a mark that is
set by renaming a table back. -/
theorem Effect.marks (hw : w.Sound) (h : Effect w w' command reply) (hmarks : w.graph.Marks R)
    (hback : ∀ {draft table next p}, command = .renameTable draft.id table next →
      w.graph.lines.Drafts draft → w.graph.RenamesBack draft table next → R draft.id true p) :
    w'.graph.Marks R := by
  cases command <;> cases reply <;> try exact False.elim h
  case createBranch.branchCreated => exact NewBranch.marks hR hw h hmarks
  case commit.committed =>
    obtain ⟨head, draft, hline, -, -, hnewHead⟩ := h
    exact NewHead.marks hR hw hline hnewHead hmarks
  case revert.reverted =>
    obtain ⟨head, draft, hline, hedit, hmark⟩ := h
    exact hmark.marks hR hw ⟨hline.draft_stored, hline.isDraft⟩ hedit hmarks
  case collectGarbage.garbageCollected =>
    refine (Step.hidden h).marks hw hmarks fun draft hdraft => .inl ⟨?_, nofun⟩
    rwa [← h.lines]
  case renameTable.tableRenamed =>
    obtain ⟨draft, hdraft, rfl, hedit, hmark⟩ := h
    refine hedit.marks hw hdraft hmarks ⟨true, hmark.stored, ?_⟩
    rcases hmark.differs with hdiffers | hrenamed
    · exact hR (iff_of_true rfl hdiffers)
    · exact hback rfl hdraft hrenamed
  case createRows.rowsCreated =>
    obtain ⟨draft, hdraft, rfl, hedit, hmark⟩ := h
    exact Batched.marks hR hw hdraft hedit.toDraftEdit hmark hmarks
  case updateRows.rowsUpdated =>
    obtain ⟨draft, hdraft, rfl, hedit, hmark⟩ := h
    exact Batched.marks hR hw hdraft hedit.toDraftEdit hmark hmarks
  case renameRows.rowsRenamed =>
    obtain ⟨draft, hdraft, rfl, hedit, hmark⟩ := h
    exact Batched.marks hR hw hdraft hedit.toDraftEdit hmark hmarks
  all_goals
    obtain ⟨draft, hdraft, rfl, hedit, hmark⟩ := h
    exact Compared.marks hR hw hdraft hedit.toDraftEdit hmark hmarks

end Marks

/-- A commit makes no difference just when there was none. -/
theorem NewHead.diff_isEmpty_iff {name : BranchName} {head : Revision} {comment : Option String}
    {nextId : RevisionId} (h : NewHead name head draft comment nextId w w')
    (hline : w.graph.lines.Line name head draft) :
    (w'.store.diff head.id draft.id).isEmpty = true ↔ ¬w.graph.Differs draft := by
  have hhead : ¬(head.id = draft.id ∨ head.id = nextId) := by
    rintro (heq | heq)
    · exact hline.head_ne_draft heq
    · exact Lines.ne_of_new hline.head_stored h.next_new heq
  rw [Graph.differs_iff hline.parent, not_not, Store.Sound.diff_isEmpty_iff h.sound,
    h.outline draft.id (.inl rfl), (h.others head.id hhead).outline_eq]

/-! ## What a mark says -/

namespace Store

variable {s : Store} {supply : Supply} {id id' : RevisionId} {flag : Bool}

/-- Two revisions show the same tables. -/
structure SameTables (s : Store) (id id' : RevisionId) : Prop where
  /-- There is no difference between them. -/
  diff_isEmpty : (s.diff id id').isEmpty = true
  /-- Every table of the first is in the second, and all that can be seen of it is the same. -/
  kept : ∀ table ∈ s.tablesOf id, ∃ table' ∈ s.tablesOf id', table'.entity = table.entity ∧
    table'.name = table.name ∧ table'.system = table.system ∧
      s.rowsOf table'.version = s.rowsOf table.version
  /-- Every table of the second is in the first. -/
  only : ∀ table' ∈ s.tablesOf id', ∃ table ∈ s.tablesOf id, table.entity = table'.entity

/-- The draft of a branch shows the same tables as its head. -/
def Unchanged (s : Store) (branch : BranchName) : Prop :=
  ∃ head draft, s.findRevision branch .head = some head ∧
    s.findRevision branch .draft = some draft ∧ s.SameTables head.id draft.id

/-- The mark of a revision is also what a comparison with its parent finds. -/
def MarkedAs (s : Store) (id : RevisionId) (flag : Bool) : Prop :=
  ∃ revision parent, s.revision? id = some revision ∧ revision.parent = some parent ∧
    revision.hasChanges = flag ∧ (!(s.diff parent id).isEmpty) = flag

/-- A command gives a table of a revision the name that it has in the parent. -/
def renamesBack (s : Store) (id : RevisionId) : Command → Bool
  | .renameTable id' table next =>
    match s.findTable id table, (s.revision? id).bind (·.parent) with
    | some current, some parent => id' = id &&
      (s.tablesOf parent).any fun old => old.entity = current.entity && old.name.text = next
    | _, _ => false
  | _ => false

namespace Sound

variable (h : s.Sound supply)

include h

/-- Revisions with the same outline show the same tables. -/
theorem sameTables (hsame : s.graph.outline id' = s.graph.outline id) : s.SameTables id id' where
  diff_isEmpty := h.diff_isEmpty_iff.mpr hsame
  kept := by
    intro table hmem
    have houtline : s.outlineOf table ∈ s.graph.outline id :=
      h.intact.mem_outline.mpr ⟨table, hmem, rfl⟩
    rw [← hsame] at houtline
    obtain ⟨table', hmem', hlike⟩ := h.intact.mem_outline.mp houtline
    obtain ⟨hname, hsystem, hentity, hrows⟩ := TableOutline.mk.inj hlike
    exact ⟨table', hmem', hentity, hname, hsystem,
      rowsOf_congr (fun u => Set.ext_iff.mp hrows u) fun _ _ => rfl⟩
  only := by
    intro table' hmem'
    have houtline : s.outlineOf table' ∈ s.graph.outline id' :=
      h.intact.mem_outline.mpr ⟨table', hmem', rfl⟩
    rw [hsame] at houtline
    obtain ⟨table, hmem, hlike⟩ := h.intact.mem_outline.mp houtline
    exact ⟨table, hmem, congrArg TableOutline.entity hlike⟩

/-- A draft that does not differ from its parent shows the same tables. -/
theorem sameTables_of_line {name : BranchName} {head : Revision}
    (hline : s.graph.lines.Line name head draft) (hdiffers : ¬s.graph.Differs draft) :
    s.SameTables head.id draft.id := by
  rw [Graph.differs_iff hline.parent, not_not] at hdiffers
  exact h.sameTables hdiffers

/-- The mark of a draft is right when it says whether the draft differs from its parent. -/
theorem markedAs {head : Revision} {name : BranchName} (hline : s.graph.lines.Line name head draft)
    (hdiffers : draft.hasChanges = true ↔ s.graph.Differs draft) :
    s.MarkedAs draft.id draft.hasChanges := by
  refine ⟨draft, head.id, hline.draft_stored, hline.parent, rfl, ?_⟩
  rw [Bool.eq_iff_iff, hdiffers, Graph.differs_iff hline.parent, Ne, ← h.diff_isEmpty_iff,
    Bool.not_eq_true', Bool.not_eq_true]

/-- Renaming a table back can be found out by looking the table up. -/
theorem renamesBack_eq_true {table next : String} (hdraft : s.graph.lines.Drafts draft)
    (hback : s.graph.RenamesBack draft table next) :
    s.renamesBack draft.id (.renameTable draft.id table next) = true := by
  obtain ⟨current, hnamed, o, ho, hentity, hname⟩ := hback
  obtain ⟨head, hline, hbaseline⟩ := h.coherent.baseline_eq hdraft
  rw [hbaseline] at ho
  obtain ⟨old, hold, rfl⟩ := h.intact.mem_outline.mp ho
  have hstored : s.revision? draft.id = some draft := hdraft.stored
  simp only [renamesBack, h.findTable_eq_some.mpr hnamed, hstored, Option.bind_some, hline.parent,
    decide_true, Bool.true_and, List.any_eq_true, Bool.and_eq_true, decide_eq_true_eq]
  exact ⟨old, hold, hentity, congrArg TableName.text hname⟩

end Sound

end Store

/-- What a comparison finds becomes the mark of the draft. -/
theorem Edits.markedAs {id : RevisionId} {flag : Bool} (h : Edits id F (Compared · flag w') w w') :
    w'.store.MarkedAs id flag := by
  obtain ⟨draft, hdraft, rfl, hedit, hmark⟩ := h
  obtain ⟨head, hline⟩ := hedit.sound.coherent.lines.line_of_draft hmark.stored hdraft.isDraft
  exact Store.Sound.markedAs hedit.sound hline hmark.differs

/-! ## Commands that need a mark -/

/-- Without a head there is nothing to be committed or reverted. -/
theorem Edit.outcome_requireChanges_of_no_head {branch : BranchName}
    (hhead : w.store.findRevision branch .head = none) :
    (requireChanges branch).outcome w = (.error .noHead, w) := by
  have hstore : store.outcome w = (.ok w.store, w) := rfl
  simp only [requireChanges, outcome_bind, hstore, hhead]
  rfl

namespace Database

variable {db db' : Database} {branch : BranchName} {commands : List Command} {id : RevisionId}

/-- A commit and a revert are refused for want of changes only if the draft is not marked. -/
theorem execute_noChanges (h : db.store.Sound db.supply)
    (hcommand : (∃ comment, command = .commit branch comment) ∨ command = .revert branch)
    (hresult : db.execute command = (.error (.command .noChanges), db')) :
    ∃ head draft, db.store.graph.lines.Line branch head draft ∧ draft.hasChanges = false := by
  have hrefused : ¬command.run.Yields db.begin fun _ _ => True :=
    transact_refused_iff.mp ⟨.noChanges, congrArg Prod.fst hresult⟩
  -- The branch has a head, since otherwise the fault would be another one.
  have hrun : ∃ k : Revision × Revision → Edit Reply,
      command.run = Edit.requireChanges branch >>= k := by
    rcases hcommand with ⟨comment, rfl⟩ | rfl
    · exact ⟨_, map_bind _ _ _⟩
    · exact ⟨_, map_bind _ _ _⟩
  obtain ⟨k, hk⟩ := hrun
  rcases hhead : db.store.findRevision branch .head with _ | head
  · have houtcome : (command.run.run.run db.begin) = (.error .noHead, db.begin) := by
      rw [hk]
      refine (Edit.outcome_bind _ _ _).trans ?_
      rw [Edit.outcome_requireChanges_of_no_head hhead]
    rw [execute, transact, houtcome] at hresult
    cases hresult
  · obtain ⟨draft, hline⟩ := h.findRevision_head.mp hhead
    refine ⟨head, draft, hline, Bool.eq_false_iff.mpr fun hflag => hrefused ?_⟩
    rw [Command.yields_iff h]
    rcases hcommand with ⟨comment, rfl⟩ | rfl
    · exact ⟨head, draft, hline, hflag⟩
    · exact ⟨head, draft, hline, hflag⟩

/-- When changes are missed, there are none. -/
theorem unchanged_of_noChanges (h : db.store.Sound db.supply)
    (hmarks : db.store.graph.Marks fun _ flag p => p → flag = true)
    (hcommand : (∃ comment, command = .commit branch comment) ∨ command = .revert branch)
    (hresult : db.execute command = (.error (.command .noChanges), db')) :
    db.store.Unchanged branch := by
  obtain ⟨head, draft, hline, hflag⟩ := execute_noChanges h hcommand hresult
  refine ⟨head, draft, h.findRevision_head.mpr ⟨draft, hline⟩,
    h.findRevision_draft.mpr ⟨head, hline⟩, h.sameTables_of_line hline fun hdiffers => ?_⟩
  have hmark := hmarks draft ⟨hline.draft_stored, hline.isDraft⟩ hdiffers
  exact Bool.false_ne_true (hflag.symm.trans hmark)

/-! ## Runs -/

/-- One of the commands of a run goes through and gives a table of a revision the name that it has
in the parent. -/
def renamesBack (db : Database) (id : RevisionId) : List Command → Bool
  | [] => false
  | first :: rest => (db.execute first).1.isOk && db.store.renamesBack id first ||
      (db.execute first).2.renamesBack id rest

section Marks

variable (hR : ∀ {id flag p}, (flag = true ↔ p) → R id flag p)

include hR

theorem execute_marks (h : db.store.Sound db.supply) (hmarks : db.store.graph.Marks R)
    (hback : ∀ {id p}, (db.execute command).1.isOk = true → db.store.renamesBack id command = true →
      R id true p) : (db.execute command).2.store.graph.Marks R := by
  rcases hresult : db.execute command with ⟨fault | reply, db'⟩
  · rw [(execute_refused h hresult).1]
    exact hmarks
  · obtain ⟨w, heffect, hstore, -⟩ := execute_effect h hresult
    rw [hstore]
    refine heffect.marks hR h hmarks fun heq hdraft hrenamed => ?_
    subst heq
    refine hback ?_ (h.renamesBack_eq_true hdraft hrenamed)
    rw [hresult]
    rfl

/-- A run keeps what is true of marks that are right, if it is also true of the marks of drafts
where it renames a table back. -/
theorem run_marks (h : db.store.Sound db.supply) (hmarks : db.store.graph.Marks R)
    (hback : ∀ {id p}, db.renamesBack id commands = true → R id true p) :
    (db.run commands).store.graph.Marks R := by
  induction commands generalizing db with
  | nil => exact hmarks
  | cons first rest ih =>
    refine ih (execute_sound h first) (execute_marks hR h hmarks fun hok hfirst => hback ?_)
      fun hrest => hback ?_
    · rw [renamesBack, hok, hfirst, Bool.and_self, Bool.true_or]
    · rw [renamesBack, hrest, Bool.or_true]

/-- There are no drafts at first. -/
theorem Fresh.run_marks (h : db.Fresh)
    (hback : ∀ {id p}, db.renamesBack id commands = true → R id true p) :
    (db.run commands).store.graph.Marks R := by
  refine Database.run_marks hR h.sound (fun draft hdraft => ?_) hback
  have hstored := hdraft.stored
  rw [h.store_eq, Store.graph_revision?, Store.revision?_empty] at hstored
  cases hstored

end Marks

/-! ## No change without a mark -/

/-- No change goes unnoticed. -/
structure NoticesChanges (db : Database) : Prop where
  /-- A draft that is not marked shows the same tables as its parent. -/
  unmarked : ∀ {id draft}, db.store.revision? id = some draft → draft.isDraft = true →
    draft.hasChanges = false → ∃ parent, draft.parent = some parent ∧ db.store.SameTables parent id
  /-- When a commit finds no changes, the draft shows the same tables as the head. -/
  commit : ∀ {branch comment db'},
    db.execute (.commit branch comment) = (.error (.command .noChanges), db') →
      db.store.Unchanged branch
  /-- When a revert finds no changes, the draft shows the same tables as the head. -/
  revert : ∀ {branch db'}, db.execute (.revert branch) = (.error (.command .noChanges), db') →
    db.store.Unchanged branch
  /-- When a table is removed, the answer says what the mark is and what a comparison finds. -/
  removeTable : ∀ {id table reply db'}, db.execute (.removeTable id table) = (.ok reply, db') →
    ∃ result, reply = .tableRemoved result ∧ db'.store.MarkedAs id result.hasChanges
  /-- When rows are removed, the answer says what the mark is and what a comparison finds. -/
  removeRows : ∀ {id table names reply db'},
    db.execute (.removeRows id table names) = (.ok reply, db') →
      ∃ result, reply = .rowsRemoved result ∧ db'.store.MarkedAs id result.hasChanges

/-- If every draft that differs is marked, no change goes unnoticed. -/
theorem noticesChanges (h : db.store.Sound db.supply)
    (hmarks : db.store.graph.Marks fun _ flag p => p → flag = true) : db.NoticesChanges where
  unmarked := by
    intro id draft hstored hdraft hflag
    obtain rfl := h.intact.closed.id_eq hstored
    obtain ⟨head, hline⟩ := h.coherent.lines.line_of_draft hstored hdraft
    refine ⟨head.id, hline.parent, h.sameTables_of_line hline fun hdiffers => ?_⟩
    exact Bool.false_ne_true (hflag.symm.trans (hmarks draft ⟨hstored, hdraft⟩ hdiffers))
  commit hresult := unchanged_of_noChanges h hmarks (.inl ⟨_, rfl⟩) hresult
  revert hresult := unchanged_of_noChanges h hmarks (.inr rfl) hresult
  removeTable := by
    intro id table reply db' hresult
    obtain ⟨w, heffect, hstore, -⟩ := execute_effect h hresult
    rw [hstore]
    cases reply <;> try exact False.elim heffect
    case tableRemoved result => exact ⟨result, rfl, Edits.markedAs heffect⟩
  removeRows := by
    intro id table names reply db' hresult
    obtain ⟨w, heffect, hstore, -⟩ := execute_effect h hresult
    rw [hstore]
    cases reply <;> try exact False.elim heffect
    case rowsRemoved result => exact ⟨result, rfl, Edits.markedAs heffect⟩

/-- After every run, no change goes unnoticed. -/
theorem Fresh.run_noticesChanges (h : db.Fresh) (commands : List Command) :
    (db.run commands).NoticesChanges :=
  noticesChanges (h.run_sound commands)
    (h.run_marks (fun hright hdiffers => hright.mpr hdiffers) fun _ _ => rfl)

/-- A run that adds a row and removes it again, and adds no rows to a table that was committed. -/
theorem run_noticesChanges_of_removal :
    (inMemory (.unary fun _ => ⟨0, 0⟩)).Fresh ∧
      ((inMemory (.unary fun _ => ⟨0, 0⟩)).run [.createBranch "main" none,
        .createTable ⟨"ii"⟩ "users" false, .commit ⟨"main"⟩ none,
        .createRows ⟨"iiiii"⟩ "users" [⟨"ada", .null, none, none, none⟩],
        .removeRows ⟨"iiiii"⟩ "users" ["ada"], .createRows ⟨"iiiii"⟩ "users" []]).NoticesChanges :=
  ⟨fresh_inMemory (Supply.distinct_unary _),
    Fresh.run_noticesChanges (fresh_inMemory (Supply.distinct_unary _)) _⟩

/-! ## Marks without a change -/

/-- The mark of a draft is right, and only what differs is committed. -/
structure MarksExactly (db : Database) (draft : Revision) : Prop where
  /-- The draft is marked just when it differs from its parent. -/
  mark : db.store.MarkedAs draft.id draft.hasChanges
  /-- If the draft is committed, the new head differs from the head before. -/
  commit : ∀ {comment result db'},
    db.execute (.commit draft.branch comment) = (.ok (.committed result), db') →
      (db'.store.diff result.previousHead result.nextHead).isEmpty = false

/-- If a draft is marked just when it differs, only what differs is committed. -/
theorem marksExactly (h : db.store.Sound db.supply) (hdraft : db.store.graph.lines.Drafts draft)
    (hmark : draft.hasChanges = true ↔ db.store.graph.Differs draft) : db.MarksExactly draft := by
  obtain ⟨head, hline⟩ := h.coherent.lines.line_of_draft hdraft.stored hdraft.isDraft
  refine ⟨h.markedAs hline hmark, fun {comment result db'} hresult => ?_⟩
  obtain ⟨w, ⟨head', draft', hline', hflag, hids, hnewHead⟩, hstore, -⟩ := execute_effect h hresult
  obtain ⟨rfl, rfl⟩ := hline.eq hline'
  rw [hids, hstore, ← Bool.not_eq_true, hnewHead.diff_isEmpty_iff hline, not_not]
  exact hmark.mp hflag

/-- After every run, the mark of a draft is right unless the run has renamed a table of the draft
back. -/
theorem Fresh.run_marksExactly (h : db.Fresh)
    (hstored : (db.run commands).store.revision? draft.id = some draft)
    (hdraft : draft.isDraft = true) (hback : db.renamesBack draft.id commands = false) :
    (db.run commands).MarksExactly draft := by
  have hmarks : (db.run commands).store.graph.Marks fun id flag p =>
      id = draft.id → (flag = true ↔ p) := by
    refine h.run_marks (fun hright _ => hright) fun hback' heq => ?_
    rw [heq, hback] at hback'
    cases hback'
  exact marksExactly (h.run_sound commands) ⟨hstored, hdraft⟩ (hmarks draft ⟨hstored, hdraft⟩ rfl)

/-- A run that renames a table to a name it did not have. -/
theorem run_marksExactly_of_rename :
    (inMemory (.unary fun _ => ⟨0, 0⟩)).Fresh ∧
      ((inMemory (.unary fun _ => ⟨0, 0⟩)).run [.createBranch "main" none,
        .createTable ⟨"ii"⟩ "users" false, .commit ⟨"main"⟩ none,
        .renameTable ⟨"iiiii"⟩ "users" "people"]).store.revision? ⟨"iiiii"⟩ =
          some { Revision.draft ⟨"iiiii"⟩ ⟨"main"⟩ ⟨"ii"⟩ ⟨0, 0⟩ with hasChanges := true } ∧
      (inMemory (.unary fun _ => ⟨0, 0⟩)).renamesBack ⟨"iiiii"⟩ [.createBranch "main" none,
        .createTable ⟨"ii"⟩ "users" false, .commit ⟨"main"⟩ none,
        .renameTable ⟨"iiiii"⟩ "users" "people"] = false ∧
      ((inMemory (.unary fun _ => ⟨0, 0⟩)).run [.createBranch "main" none,
        .createTable ⟨"ii"⟩ "users" false, .commit ⟨"main"⟩ none,
        .renameTable ⟨"iiiii"⟩ "users" "people"]).MarksExactly
          { Revision.draft ⟨"iiiii"⟩ ⟨"main"⟩ ⟨"ii"⟩ ⟨0, 0⟩ with hasChanges := true } :=
  ⟨fresh_inMemory (Supply.distinct_unary _), by decide +kernel, by decide +kernel,
    Fresh.run_marksExactly (fresh_inMemory (Supply.distinct_unary _)) (by decide +kernel) rfl
      (by decide +kernel)⟩

/-- A table is renamed there and back after it was committed. -/
def renamedThereAndBack : Database :=
  (inMemory (.unary fun _ => ⟨0, 0⟩)).run [.createBranch "main" none,
    .createTable ⟨"ii"⟩ "users" false, .commit ⟨"main"⟩ none,
    .renameTable ⟨"iiiii"⟩ "users" "people", .renameTable ⟨"iiiii"⟩ "people" "users"]

/-- The mark stays when a table was renamed back, and then a commit may be of nothing. -/
theorem mark_without_change :
    (inMemory (.unary fun _ => ⟨0, 0⟩)).Fresh ∧
      ((renamedThereAndBack.store.revision? ⟨"iiiii"⟩).map fun draft =>
        (draft.isDraft, draft.hasChanges, draft.parent)) = some (true, true, some ⟨"ii"⟩) ∧
      (renamedThereAndBack.store.diff ⟨"ii"⟩ ⟨"iiiii"⟩).isEmpty = true ∧
      (match renamedThereAndBack.execute (.commit ⟨"main"⟩ none) with
        | (.ok (.committed result), db) =>
          (db.store.diff result.previousHead result.nextHead).isEmpty
        | _ => false) = true := by
  refine ⟨fresh_inMemory (Supply.distinct_unary _), ?_⟩
  decide +kernel

end Database

end VersionedTables
