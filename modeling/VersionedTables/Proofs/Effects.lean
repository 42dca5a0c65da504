import VersionedTables.Proofs.Edit.Branches
import VersionedTables.Proofs.Edit.Renames

/-!
# What commands do

All commands in one place: `Workspace.Allows` says when a command goes through, and `Effect` what it
does then. On a sound workspace a command goes through exactly when it is allowed
(`Command.yields_iff`), and then it has its effect (`Command.run_effect`).

An effect is one of four kinds of step (`Step`): there is a new branch, there is a new head, one
draft was edited, or nothing can be seen of it. What holds of every step holds of every command. It
is sound (`Step.sound`), cannot be seen in a published revision (`Step.frozen`), and cannot be seen
in a draft of a branch that it is not a step on (`Step.isolated`).
-/

namespace VersionedTables

variable {w w' : Workspace} {command : Command} {reply : Reply}

/-! ## Commands -/

/-- A revision is a draft whose content is as a command needs it. -/
def Workspace.AllowsOn (w : Workspace) (id : RevisionId) (P : Content → Prop) : Prop :=
  ∃ draft, w.graph.lines.Drafts draft ∧ draft.id = id ∧ P (w.graph.content id)

/-- A branch has a draft that is marked as changed. -/
def Workspace.AllowsChanged (w : Workspace) (branch : BranchName) : Prop :=
  ∃ head draft, w.graph.lines.Line branch head draft ∧ draft.hasChanges = true

/-- When a command goes through. -/
def Workspace.Allows (w : Workspace) : Command → Prop
  | .createBranch text source =>
    (BranchName.parse text).isOk = true ∧ w.graph.lines.branch? ⟨text⟩ = none ∧
      ∀ id ∈ source, w.graph.lines.Published id
  | .commit branch _ => w.AllowsChanged branch
  | .revert branch => w.AllowsChanged branch
  | .collectGarbage => True
  | .createTable id table _ => w.AllowsOn id (·.CanCreateTable table)
  | .renameTable id table next => w.AllowsOn id (·.CanRenameTable table next)
  | .removeTable id table => w.AllowsOn id (·.CanRemoveTable table)
  | .createRows id table rows => w.AllowsOn id (·.OnTable table (CanCreate · rows))
  | .updateRows id table rows => w.AllowsOn id (·.OnTable table (CanUpdate · rows))
  | .removeRows id table names => w.AllowsOn id (·.OnTable table (CanRemove · names))
  | .renameRows id table renames => w.AllowsOn id (·.OnTable table (CanRename · renames))

/-- A draft was edited: its content changed by `F`, and its mark is as `Marks` says. -/
def Edits (id : RevisionId) (F : Content → Content) (Marks : Revision → Prop) (w w' : Workspace) :
    Prop :=
  ∃ draft, w.graph.lines.Drafts draft ∧ draft.id = id ∧ CleanEdit draft F w w' ∧ Marks draft

/-- What a command does. -/
def Effect (w w' : Workspace) : Command → Reply → Prop
  | .createBranch text source, .branchCreated result => NewBranch ⟨text⟩ source result w w'
  | .commit branch comment, .committed result => ∃ head draft,
    w.graph.lines.Line branch head draft ∧ draft.hasChanges = true ∧
      result = ⟨head.id, draft.id, draft.id, result.nextDraft⟩ ∧
        NewHead branch head draft comment result.nextDraft w w'
  | .revert branch, .reverted _ => ∃ head draft, w.graph.lines.Line branch head draft ∧
    DraftEdit draft (fun _ => w.graph.content head.id) w w' ∧ Compared draft false w'
  | .collectGarbage, .garbageCollected _ => HiddenStep w w'
  | .createTable id table system, .tableCreated result =>
    Edits id (·.createTable ⟨table⟩ system result.entity) (Compared · true w') w w'
  | .renameTable id table next, .tableRenamed _ =>
    Edits id (·.renameTable table ⟨next⟩) (RenameMarked table next · w w') w w'
  | .removeTable id table, .tableRemoved result =>
    Edits id (·.removeTable table) (Compared · result.hasChanges w') w w'
  | .createRows id table rows, .rowsCreated result =>
    Edits id (·.createRows table rows (result.rows.map (·.entity))) (Batched rows · w w') w w'
  | .updateRows id table rows, .rowsUpdated _ =>
    Edits id (·.updateRows table rows) (Batched rows · w w') w w'
  | .removeRows id table names, .rowsRemoved result =>
    Edits id (·.removeRows table names) (Compared · result.hasChanges w') w w'
  | .renameRows id table renames, .rowsRenamed _ =>
    Edits id (·.renameRows table renames) (Batched renames · w w') w w'
  | _, _ => False

/-- What is allowed goes through, and does what it should. -/
theorem Command.run_effect (h : w.Sound) (hallowed : w.Allows command) :
    command.run.Yields w fun reply w' => Effect w w' command reply := by
  cases command with
  | createBranch text source =>
    obtain ⟨hparse, hname, hsource⟩ := hallowed
    exact Edit.yields_map.mpr (Edit.createBranch_edit h hparse hname hsource)
  | commit branch comment =>
    obtain ⟨head, draft, hline, hflag⟩ := hallowed
    refine Edit.yields_map.mpr ((Edit.commit_edit h hline hflag).imp ?_)
    rintro result w' ⟨hresult, hnewHead⟩
    exact ⟨head, draft, hline, hflag, hresult, hnewHead⟩
  | revert branch =>
    obtain ⟨head, draft, hline, hflag⟩ := hallowed
    refine Edit.yields_map.mpr ((Edit.revert_edit h hline hflag).imp ?_)
    intro result w' hedit
    exact ⟨head, draft, hline, hedit⟩
  | collectGarbage => exact Edit.yields_map.mpr (Edit.collectGarbage_edit h)
  | createTable id table system =>
    obtain ⟨draft, hdraft, rfl, hcan⟩ := hallowed
    exact Edit.yields_map.mpr ((Edit.createTable_edit h hdraft hcan).imp
      fun result w' hedit => ⟨draft, hdraft, rfl, hedit⟩)
  | renameTable id table next =>
    obtain ⟨draft, hdraft, rfl, hcan⟩ := hallowed
    exact Edit.yields_map.mpr ((Edit.renameTable_edit h hdraft hcan).imp
      fun result w' hedit => ⟨draft, hdraft, rfl, hedit⟩)
  | removeTable id table =>
    obtain ⟨draft, hdraft, rfl, hcan⟩ := hallowed
    exact Edit.yields_map.mpr ((Edit.removeTable_edit h hdraft hcan).imp
      fun result w' hedit => ⟨draft, hdraft, rfl, hedit⟩)
  | createRows id table rows =>
    obtain ⟨draft, hdraft, rfl, hcan⟩ := hallowed
    exact Edit.yields_map.mpr ((Edit.createRows_edit h hdraft hcan).imp
      fun result w' hedit => ⟨draft, hdraft, rfl, hedit⟩)
  | updateRows id table rows =>
    obtain ⟨draft, hdraft, rfl, hcan⟩ := hallowed
    exact Edit.yields_map.mpr ((Edit.updateRows_edit h hdraft hcan).imp
      fun result w' hedit => ⟨draft, hdraft, rfl, hedit⟩)
  | removeRows id table names =>
    obtain ⟨draft, hdraft, rfl, hcan⟩ := hallowed
    exact Edit.yields_map.mpr ((Edit.removeRows_edit h hdraft hcan).imp
      fun result w' hedit => ⟨draft, hdraft, rfl, hedit⟩)
  | renameRows id table renames =>
    obtain ⟨draft, hdraft, rfl, hcan⟩ := hallowed
    exact Edit.yields_map.mpr ((Edit.renameRows_edit h hdraft hcan).imp
      fun result w' hedit => ⟨draft, hdraft, rfl, hedit⟩)

/-- Whether a command looks its request through before it changes anything. The others get hold of a
table first, of which they may leave a copy behind when they are refused. -/
def Command.vetsFirst : Command → Bool
  | .createBranch .. | .commit .. | .revert .. | .collectGarbage => true
  | .createTable .. | .renameTable .. | .removeTable .. | .renameRows .. => true
  | .createRows .. | .updateRows .. | .removeRows .. => false

/-- Such a command turns its request down with nothing changed, or it is allowed. -/
theorem Command.vets_allows (h : w.Sound) (hfirst : command.vetsFirst = true) :
    command.run.Vets w (w.Allows command) := by
  cases command with
  | createBranch text source => exact Edit.vets_map.mpr Edit.createBranch_vets
  | commit branch comment => exact Edit.vets_map.mpr (Edit.commit_vets h)
  | revert branch => exact Edit.vets_map.mpr (Edit.revert_vets h)
  | collectGarbage => exact .inr trivial
  | createTable id table system => exact Edit.vets_map.mpr (Edit.createTable_vets h)
  | renameTable id table next => exact Edit.vets_map.mpr (Edit.renameTable_vets h)
  | removeTable id table => exact Edit.vets_map.mpr (Edit.removeTable_vets h)
  | createRows id table rows => cases hfirst
  | updateRows id table rows => cases hfirst
  | removeRows id table names => cases hfirst
  | renameRows id table renames => exact Edit.vets_map.mpr (Edit.renameRows_vets h)

/-- A command admits a request only if it is allowed. -/
theorem Command.allows_of_admits (h : w.Sound)
    (hadmits : command.run.Admits w fun _ _ => True) : w.Allows command := by
  cases command with
  | createRows id table rows => exact Edit.createRows_requires h (Edit.admits_map.mp hadmits)
  | updateRows id table rows => exact Edit.updateRows_requires h (Edit.admits_map.mp hadmits)
  | removeRows id table names => exact Edit.removeRows_requires h (Edit.admits_map.mp hadmits)
  | _ => exact (vets_allows h rfl).of_admits hadmits

/-- A command goes through exactly when it is allowed. -/
theorem Command.yields_iff (h : w.Sound) :
    (command.run.Yields w fun _ _ => True) ↔ w.Allows command :=
  ⟨fun hyields => allows_of_admits h hyields.admits,
    fun hallowed => (run_effect h hallowed).imp fun _ _ _ => trivial⟩

/-! ## Steps -/

/-- The branch that a command is addressed to: the one it names, or that of the draft it names. -/
def Command.branch? (s : Store) : Command → Option BranchName
  | .createBranch _ _ => none
  | .commit branch _ => some branch
  | .revert branch => some branch
  | .collectGarbage => none
  | .createTable id _ _ => (s.revision? id).map (·.branch)
  | .renameTable id _ _ => (s.revision? id).map (·.branch)
  | .removeTable id _ => (s.revision? id).map (·.branch)
  | .createRows id _ _ => (s.revision? id).map (·.branch)
  | .updateRows id _ _ => (s.revision? id).map (·.branch)
  | .removeRows id _ _ => (s.revision? id).map (·.branch)
  | .renameRows id _ _ => (s.revision? id).map (·.branch)

/-- A step on a branch, or on none. -/
inductive Step (w : Workspace) : Option BranchName → Workspace → Prop where
  /-- A branch is created, and no other is touched. -/
  | newBranch {w' : Workspace} {name : BranchName} {source : Option RevisionId}
      {result : BranchCreated} (h : NewBranch name source result w w') : Step w none w'
  /-- The draft of a branch becomes its head. -/
  | newHead {w' : Workspace} {name : BranchName} {head draft : Revision} {comment : Option String}
      {nextId : RevisionId} (hline : w.graph.lines.Line name head draft)
      (h : NewHead name head draft comment nextId w w') : Step w (some name) w'
  /-- The draft of a branch is edited. -/
  | edit {w' : Workspace} {draft : Revision} {F : Content → Content}
      (hdraft : w.graph.lines.Drafts draft) (h : DraftEdit draft F w w') :
      Step w (some draft.branch) w'
  /-- Nobody sees a difference. -/
  | hidden {w' : Workspace} (h : HiddenStep w w') : Step w none w'

/-- An edit of a draft is a step on its branch. -/
theorem Edits.step {id : RevisionId} {F : Content → Content} {Marks : Revision → Prop}
    (h : Edits id F Marks w w') : Step w ((w.store.revision? id).map (·.branch)) w' := by
  obtain ⟨draft, hdraft, rfl, hedit, -⟩ := h
  rw [Workspace.revision?_eq, hdraft.stored]
  exact .edit hdraft hedit.toDraftEdit

/-- Every command that goes through is a step on the branch it is addressed to. -/
theorem Effect.step (h : Effect w w' command reply) : Step w (command.branch? w.store) w' := by
  cases command <;> cases reply <;> try exact False.elim h
  case createBranch.branchCreated => exact .newBranch h
  case commit.committed =>
    obtain ⟨head, draft, hline, -, -, hnewHead⟩ := h
    exact .newHead hline hnewHead
  case revert.reverted =>
    obtain ⟨head, draft, hline, hedit, -⟩ := h
    have hstep := Step.edit ⟨hline.draft_stored, hline.isDraft⟩ hedit
    rwa [hline.draft_branch] at hstep
  case collectGarbage.garbageCollected => exact .hidden h
  all_goals exact Edits.step h

namespace Step

variable {branch : Option BranchName}

theorem sound (h : Step w branch w') : w'.Sound := by
  cases h with
  | newBranch h => exact h.sound
  | newHead _ h => exact h.sound
  | edit _ h => exact h.sound
  | hidden h => exact h.sound

theorem later (h : Step w branch w') : w.supply.Later w'.supply := by
  cases h with
  | newBranch h => exact h.later
  | newHead _ h => exact h.later
  | edit _ h => exact h.later
  | hidden h => exact h.later

/-- Only the draft of its own branch is touched by a step: every other revision there is looks the
same after it. Its record changes only when it stops being the head. -/
theorem untouched (h : Step w branch w') {r : RevisionId} {revision : Revision}
    (hstored : w.graph.lines.revision? r = some revision)
    (hother : revision.isDraft = true → branch ≠ some revision.branch) :
    (w'.graph.lines.revision? r = some revision ∨ revision.isDraft = false ∧
        w'.graph.lines.revision? r = some { revision with isHead := false }) ∧
      w.graph.SameView w'.graph r := by
  have hold {id : RevisionId} (hnew : w.graph.lines.revision? id = none) : r ≠ id :=
    Lines.ne_of_new hstored hnew
  cases h with
  | @newBranch _ name source result h =>
    -- The two new revisions were not there before.
    have hr : ¬(r = result.start ∨ r = result.draft) := fun hr =>
      hr.elim (hold h.start_new) (hold h.draft_new)
    exact ⟨.inl ((h.revision?_other hr).trans hstored), h.others r hr⟩
  | @newHead _ name head draft _ nextId hline h =>
    have hdraft : r ≠ draft.id := by
      rintro rfl
      rw [hline.draft_stored] at hstored
      cases hstored
      exact hother hline.isDraft (congrArg some hline.draft_branch.symm)
    have hr : ¬(r = draft.id ∨ r = nextId) := fun hr => hr.elim hdraft (hold h.next_new)
    refine ⟨?_, h.others r hr⟩
    rw [h.revision?_other hr]
    by_cases hhead : r = head.id
    · -- The head before is the one revision whose record changes.
      subst hhead
      rw [hline.head_stored] at hstored
      cases hstored
      refine .inr ⟨hline.head_published, ?_⟩
      rw [hline.head_published]
      exact if_pos rfl
    · exact .inl ((if_neg hhead).trans hstored)
  | @edit _ draft F hdraft h =>
    have hne : r ≠ draft.id := by
      rintro rfl
      rw [hdraft.stored] at hstored
      cases hstored
      exact hother hdraft.isDraft rfl
    obtain ⟨flag, hlines⟩ := h.lines
    refine ⟨.inl ?_, h.others r hne⟩
    rw [hlines, Lines.revision?_mark]
    exact (if_neg hne).trans hstored
  | hidden h => exact ⟨.inl (by rw [h.lines, hstored]), h.views r⟩

/-- A published revision looks the same after a step, and its record changes at most in whether it
is the head of its branch. -/
theorem frozen (h : Step w branch w') {r : RevisionId} {revision : Revision}
    (hstored : w.graph.lines.revision? r = some revision) (hflag : revision.isDraft = false) :
    (∃ isHead, w'.graph.lines.revision? r = some { revision with isHead }) ∧
      w.graph.SameView w'.graph r := by
  obtain ⟨hrecord, hview⟩ := h.untouched hstored fun hdraft =>
    absurd (hflag.symm.trans hdraft) Bool.false_ne_true
  rcases hrecord with hsame | ⟨-, hnotHead⟩
  · exact ⟨⟨revision.isHead, hsame⟩, hview⟩
  · exact ⟨⟨false, hnotHead⟩, hview⟩

/-- A draft of another branch looks the same after a step, and its record is the same. -/
theorem isolated (h : Step w branch w') {r : RevisionId} {draft : Revision}
    (hstored : w.graph.lines.revision? r = some draft) (hflag : draft.isDraft = true)
    (hbranch : branch ≠ some draft.branch) :
    w'.graph.lines.revision? r = some draft ∧ w.graph.SameView w'.graph r := by
  obtain ⟨hrecord, hview⟩ := h.untouched hstored fun _ => hbranch
  rcases hrecord with hsame | ⟨hpublished, -⟩
  · exact ⟨hsame, hview⟩
  · exact absurd (hpublished.symm.trans hflag) Bool.false_ne_true

end Step

end VersionedTables
