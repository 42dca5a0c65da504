import VersionedTables.Proofs.Edit.Requests
import VersionedTables.Proofs.Edit.Steps

/-!
# What is asked of requests

Most refusals are answers to a request: a name cannot be read, a table is not there, a draft has no
changes. The others (`CommandFault.isInternal`) find fault with the store instead, and on a sound
store no command should come across them.

`Edit.Admits e w Q` says that `e` finds no fault with the request: if it goes through, then with
`Q`, and if it is refused, then for an internal reason. It is weaker than `Edit.Yields`, and still
strong enough to show what a request must be like, because writes may be skipped over: each primitive
edit has an equation here too. What the checks of a command ask for is therefore shown once, from
`Admits`, and holds of commands that go through as well as of those that would fail internally. Where a
command checks everything before its first write, more can be said (`Edit.Vets`).
-/

namespace VersionedTables

/-- Whether a fault says that something is wrong with the store, and not with the request. -/
def CommandFault.isInternal : CommandFault → Bool
  | .noDraft | .noParent | .readonlyTable .. | .store _ => true
  | _ => false

/-! ## Checks of batches -/

theorem mapError_eq_error {ε ε' α : Type} {e : Except ε α} {f : ε → ε'} {fault : ε'} :
    e.mapError f = .error fault ↔ ∃ cause, e = .error cause ∧ f cause = fault := by
  cases e <;> simp [Except.mapError]

theorem Except.bind_eq_error {ε α β : Type} {e : Except ε α} {f : α → Except ε β} {fault : ε} :
    (e >>= f) = .error fault ↔
      e = .error fault ∨ ∃ first, e = .ok first ∧ f first = .error fault := by
  cases e <;> simp [bind, Except.bind]

/-- A check either throws, or what is behind it does. -/
theorem check_eq_error {ε α β : Type} {c : Prop} [Decidable c] {thrown fault : ε}
    {f : β → Except ε α} {e : Except ε α} :
    (if c then (throw thrown : Except ε β) >>= f else e) = .error fault ↔
      c ∧ thrown = fault ∨ ¬c ∧ e = .error fault := by
  by_cases hc : c
  · simp [hc, bind, Except.bind, throw, throwThe, MonadExceptOf.throw]
  · simp [hc]

/-- The names of rows to create are refused for the request's sake only. -/
theorem RowInput.newNames?_refused {seen : List String} {inputs : List RowInput}
    {fault : CommandFault} (h : newNames? seen inputs = .error fault) : fault.isInternal = false := by
  induction inputs generalizing seen with
  | nil => cases h
  | cons input rest ih =>
    rw [newNames?] at h
    simp only [Except.bind_eq_error, mapError_eq_error, check_eq_error] at h
    obtain ⟨cause, -, rfl⟩ | ⟨name, -, ⟨-, rfl⟩ | ⟨-, hrest | ⟨names, -, hpure⟩⟩⟩ := h
    · rfl
    · rfl
    · exact ih hrest
    · cases hpure

/-- The new names of rows to rename are refused for the request's sake only. -/
theorem RowRename.nextNames?_refused {sources targets : List String} {renames : List RowRename}
    {fault : CommandFault} (h : nextNames? sources targets renames = .error fault) :
    fault.isInternal = false := by
  induction renames generalizing sources targets with
  | nil => cases h
  | cons rename rest ih =>
    rw [nextNames?] at h
    simp only [Except.bind_eq_error, mapError_eq_error, check_eq_error] at h
    obtain ⟨cause, -, rfl⟩ | ⟨next, -, ⟨-, rfl⟩ | ⟨-, ⟨-, rfl⟩ | ⟨-, ⟨-, rfl⟩ |
      ⟨-, hrest | ⟨names, -, hpure⟩⟩⟩⟩⟩ := h
    · rfl
    · rfl
    · rfl
    · rfl
    · exact ih hrest
    · cases hpure

namespace Edit

variable {α β : Type} {w : Workspace} {id : RevisionId} {name : String}

/-- An edit finds no fault with the request: it ends in what is asked for, unless it is refused for
an internal reason. -/
def Admits (e : Edit α) (w : Workspace) (Q : α → Workspace → Prop) : Prop :=
  match e.outcome w with
  | (.ok value, w') => Q value w'
  | (.error fault, _) => fault.isInternal = true

theorem Yields.admits {e : Edit α} {Q : α → Workspace → Prop} (h : e.Yields w Q) :
    e.Admits w Q := by
  obtain ⟨value, w', hrun, hQ⟩ := h
  rwa [Admits, hrun]

/-- An edit that is known to go through does so with what it admits. -/
theorem Yields.and_admits {e : Edit α} {Q R : α → Workspace → Prop} (h : e.Yields w Q)
    (hadmits : e.Admits w R) : e.Yields w fun value w' => Q value w' ∧ R value w' := by
  obtain ⟨value, w', hrun, hQ⟩ := h
  rw [Admits, hrun] at hadmits
  exact ⟨value, w', hrun, hQ, hadmits⟩

theorem Admits.imp {e : Edit α} {Q R : α → Workspace → Prop} (h : e.Admits w Q)
    (himp : ∀ value w', Q value w' → R value w') : e.Admits w R := by
  rw [Admits] at h ⊢
  split
  · next hrun =>
    rw [hrun] at h
    exact himp _ _ h
  · next hrun => rwa [hrun] at h

/-! ## Executing edits -/

@[simp] theorem admits_pure {value : α} {Q : α → Workspace → Prop} :
    (pure value : Edit α).Admits w Q ↔ Q value w :=
  Iff.rfl

@[simp] theorem admits_throw {fault : CommandFault} {Q : α → Workspace → Prop} :
    (throw fault : Edit α).Admits w Q ↔ fault.isInternal = true :=
  Iff.rfl

@[simp] theorem admits_bind {e : Edit α} {f : α → Edit β} {Q : β → Workspace → Prop} :
    (e >>= f).Admits w Q ↔ e.Admits w fun value w' => (f value).Admits w' Q := by
  simp only [Admits, outcome_bind]
  rcases e.outcome w with ⟨fault | value, w'⟩
  · rfl
  · rfl

@[simp] theorem admits_map {e : Edit α} {f : α → β} {Q : β → Workspace → Prop} :
    (f <$> e).Admits w Q ↔ e.Admits w fun value w' => Q (f value) w' := by
  rw [← bind_pure_comp, admits_bind]
  simp only [admits_pure]

@[simp] theorem admits_ite {c : Prop} [Decidable c] {e f : Edit α} {Q : α → Workspace → Prop} :
    (if c then e else f).Admits w Q ↔ if c then e.Admits w Q else f.Admits w Q := by
  split <;> rfl

@[simp] theorem admits_store {Q : Store → Workspace → Prop} :
    store.Admits w Q ↔ Q w.store w :=
  Iff.rfl

theorem admits_orFault (fault : CommandFault) (hfault : fault.isInternal = false) {o : Option α}
    {Q : α → Workspace → Prop} :
    (orFault fault o).Admits w Q ↔ ∃ value, o = some value ∧ Q value w := by
  rcases o with _ | value <;> simp [orFault, hfault]

theorem admits_liftExcept {e : Except CommandFault α}
    (he : ∀ fault, e = .error fault → fault.isInternal = false) {Q : α → Workspace → Prop} :
    (liftExcept e : Edit α).Admits w Q ↔ ∃ value, e = .ok value ∧ Q value w := by
  rcases e with fault | value
  · simp [liftExcept, he fault rfl]
  · simp [liftExcept]

@[simp] theorem admits_mapM_cons {first : α} {rest : List α} {f : α → Edit β}
    {Q : List β → Workspace → Prop} :
    ((first :: rest).mapM f).Admits w Q ↔
      (f first).Admits w fun value w₁ =>
        (rest.mapM f).Admits w₁ fun values w₂ => Q (value :: values) w₂ := by
  rw [List.mapM_cons]
  simp only [admits_bind, admits_pure]

/-! ## Checks -/

@[simp] theorem admits_requireDraft {Q : Revision → Workspace → Prop} :
    (requireDraft id).Admits w Q ↔
      ∃ revision, w.store.revision? id = some revision ∧ revision.isDraft = true ∧ Q revision w := by
  simp only [requireDraft, admits_bind, admits_store, admits_orFault (.revisionNotFound id) rfl]
  refine exists_congr fun revision => and_congr_right fun _ => ?_
  cases revision.isDraft <;> simp [CommandFault.isInternal]

@[simp] theorem admits_requireTable {Q : TableVersion → Workspace → Prop} :
    (requireTable id name).Admits w Q ↔
      ∃ table, w.store.findTable id name = some table ∧ Q table w := by
  simp only [requireTable, admits_bind, admits_store,
    admits_orFault (.tableNotFound name id) rfl]

end Edit

end VersionedTables
