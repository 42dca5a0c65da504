import VersionedTables.Proofs.Commands

/-!
# Where revisions belong

A store is *housed* when the branch of every revision is there (`Store.Housed`). Writes do not see to
this by themselves: a revision is added only to a branch that exists, but its record may be replaced
by one that names any branch. Commands do (`Command.housed_run`). They write revisions of branches
that were there before and of the branch they create, and no write takes a branch away.
-/

namespace VersionedTables

/-- The branch of every revision is there. -/
def Store.Housed (s : Store) : Prop :=
  ∀ ⦃id record⦄, s.revision? id = some record → (s.branch? record.branch).isSome

theorem Store.housed_empty : (∅ : Store).Housed := by
  intro id record hrecord
  simp [revision?_empty] at hrecord

/-! ## Branches stay -/

namespace Transaction

variable {t t' : Transaction} {name : BranchName}

/-- No write takes a branch away. -/
theorem isSome_branch?_perform (write : Write) (h : (t.store.branch? name).isSome)
    (hok : t.perform write = .ok t') : (t'.store.branch? name).isSome := by
  cases write with
  | createBranch record =>
    obtain ⟨-, rfl⟩ := createBranch_eq_ok.mp hok
    rw [Transaction.record, Store.branch?_putBranch]
    split
    · rfl
    · exact h
  | createRevision record =>
    obtain ⟨-, -, rfl⟩ := createRevision_eq_ok.mp hok
    exact h
  | updateRevision record =>
    obtain ⟨-, -, rfl⟩ := updateRevision_eq_ok.mp hok
    exact h
  | createTable record =>
    obtain ⟨-, rfl⟩ := createTable_eq_ok.mp hok
    exact h
  | updateTable record =>
    obtain ⟨-, -, rfl⟩ := updateTable_eq_ok.mp hok
    exact h
  | deleteTable version =>
    obtain ⟨record, hdelete⟩ := map_snd_eq_ok.mp hok
    obtain ⟨-, -, rfl⟩ := deleteTable_eq_ok.mp hdelete
    obtain ⟨hbranch, -⟩ := others_foldl_linkRow version (t.store.tableRows.targets version) t
    change ((t.unlinkRows version).store.branch? name).isSome
    rwa [unlinkRows, hbranch]
  | createRow record =>
    obtain ⟨-, rfl⟩ := createRow_eq_ok.mp hok
    exact h
  | updateRow record =>
    obtain ⟨-, -, rfl⟩ := updateRow_eq_ok.mp hok
    exact h
  | deleteRow version =>
    obtain ⟨record, hdelete⟩ := map_snd_eq_ok.mp hok
    obtain ⟨-, -, rfl⟩ := deleteRow_eq_ok.mp hdelete
    exact h
  | connectTable revision table =>
    obtain ⟨-, -, rfl⟩ := connectTable_eq_ok.mp hok
    rwa [store_linkTable]
  | disconnectTable revision table =>
    cases hok
    rwa [disconnectTable, store_linkTable]
  | connectRow table row =>
    obtain ⟨-, -, rfl⟩ := connectRow_eq_ok.mp hok
    rwa [store_linkRow]
  | disconnectRow table row =>
    cases hok
    rwa [disconnectRow, store_linkRow]

theorem isSome_branch?_attemptAll (h : (t.store.branch? name).isSome) (writes : List Write) :
    ((t.attemptAll writes).store.branch? name).isSome :=
  attemptAll_keeps (fun t => (t.store.branch? name).isSome) (fun _ => True)
    (fun _ h hok => isSome_branch?_perform _ h hok) (fun _ _ => trivial) h

end Transaction

namespace Edit

variable {w : Workspace} {name : BranchName}

/-- No edit takes a branch away. -/
theorem Made.isSome_branch? {m : Material} {w' : Workspace} (hmade : Made m w w')
    (h : (w.store.branch? name).isSome) : (w'.store.branch? name).isSome := by
  obtain ⟨⟨writes, -, heq⟩, -⟩ := hmade
  rw [Workspace.store, heq]
  exact Transaction.isSome_branch?_attemptAll h writes

/-- The branch that is written is there. -/
theorem addBranch_stores {parent : Option RevisionId} {Q : BranchCreated → Workspace → Prop}
    (h : (addBranch name parent).Yields w Q) :
    (addBranch name parent).Yields w fun _ w' => (w'.store.branch? name).isSome := by
  simp only [addBranch, yields_bind, yields_now, yields_write, yields_freshId, yields_pure] at h ⊢
  obtain ⟨t, hbranch, t₁, hstart, t₂, hdraft, -⟩ := h
  refine ⟨t, hbranch, t₁, hstart, t₂, hdraft, ?_⟩
  refine Transaction.isSome_branch?_perform (.createRevision _) ?_ hdraft
  refine Transaction.isSome_branch?_perform (.createRevision _) ?_ hstart
  obtain ⟨-, rfl⟩ := Transaction.createBranch_eq_ok.mp hbranch
  rw [Transaction.record, Store.branch?_putBranch, if_pos rfl]
  rfl

/-- A branch that was created is there. -/
theorem createBranch_stores {text : String} {source : Option RevisionId}
    {Q : BranchCreated → Workspace → Prop} (h : (createBranch text source).Yields w Q) :
    (createBranch text source).Yields w fun _ w' =>
      ∀ name, BranchName.parse text = .ok name → (w'.store.branch? name).isSome := by
  simp only [createBranch_eq, yields_bind, yields_parseName, yields_store, yields_ite,
    not_yields_throw, if_false_left] at h ⊢
  obtain ⟨name, hname, hnew, hsource⟩ := h
  refine ⟨name, hname, hnew, hsource.imp fun source w₁ hadd => ?_⟩
  refine (hadd.and (addBranch_stores hadd)).imp ?_
  rintro created w₂ ⟨⟨value, w₃, hshare, -⟩, hstored⟩
  refine ⟨value, w₃, hshare, fun name' hname' => ?_⟩
  obtain rfl : name' = name := Except.ok.inj (hname'.symm.trans hname)
  have hmade := (Makes.shareTables created source).journaled.made w₂
  rw [hshare] at hmade
  exact hmade.isSome_branch? hstored

end Edit

/-! ## Commands -/

/-- The branch that a command creates. -/
def Command.Creates (name : BranchName) : Command → Prop
  | .createBranch branch _ => BranchName.parse branch = .ok name
  | _ => False

/-- The branches of a store, and one that a command creates. -/
def Material.housing (s : Store) (command : Command) : Material where
  time _ := True
  document _ := True
  branch name := (s.branch? name).isSome ∨ command.Creates name

theorem Command.madeOf_housing (s : Store) (command : Command) :
    command.MadeOf (.housing s command) := by
  have hinputs (inputs : List RowInput) : ∀ input ∈ inputs, input.MadeOf (.housing s command) :=
    fun _ _ => ⟨trivial, fun _ _ => trivial, fun _ _ => trivial⟩
  cases command with
  | createBranch branch source => exact fun _ hname => .inr hname
  | createRows revision table rows => exact hinputs rows
  | updateRows revision table rows => exact hinputs rows
  | _ => exact trivial

theorem Store.Housed.madeOf {s : Store} (h : s.Housed) (command : Command) :
    s.MadeOf (.housing s command) where
  branch _ := trivial
  revision hrecord := ⟨.inl (h hrecord), trivial⟩
  table _ := ⟨trivial, trivial⟩
  row _ := ⟨trivial, fun _ _ => trivial, fun _ _ => trivial, trivial, trivial⟩

variable {w : Workspace} {command : Command}

/-- The branch that a command creates is there in the end. -/
theorem Command.creates_stored {Q : Reply → Workspace → Prop} (h : command.run.Yields w Q) :
    command.run.Yields w fun _ w' => ∀ name, command.Creates name → (w'.store.branch? name).isSome := by
  cases command with
  | createBranch branch source =>
    simp only [run, Edit.yields_map] at h ⊢
    exact Edit.createBranch_stores h
  | _ => exact h.imp fun _ _ _ _ hcreates => hcreates.elim

/-- A command that succeeds leaves the branch of every revision there. -/
theorem Command.housed_run (h : w.store.Housed) {Q : Reply → Workspace → Prop}
    (hyields : command.run.Yields w Q) : command.run.Yields w fun _ w' => w'.store.Housed := by
  obtain ⟨value, w', hrun, hcreated⟩ := Command.creates_stored hyields
  refine ⟨value, w', hrun, fun id record hrecord => ?_⟩
  have hmade : w.MadeOf (.housing w.store command) := ⟨h.madeOf command, fun _ => trivial⟩
  obtain ⟨hwrites, -⟩ := Command.makes_run (command.madeOf_housing w.store) hmade
  rw [hrun] at hwrites
  rcases ((hwrites.madeOf hmade).store.revision hrecord).branch with hstored | hcreates
  · exact hwrites.isSome_branch? hstored
  · exact hcreated _ hcreates

end VersionedTables
