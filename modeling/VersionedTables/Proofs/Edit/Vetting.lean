import VersionedTables.Proofs.Edit.Admission

/-!
# Requests that are looked through first

Most commands look their request through before they change anything. `Edit.Vets e w P` says this of an
edit, without a word on what it does later: either the request is turned down for its own sake with
nothing changed, or `P` holds, which is what the checks ask for. Each check has an equation for what
comes after it, and where the checks of a command end its proof ends too.

What a command vets its request for is what it asks of it: had it admitted the request, then it would not
have turned it down (`Edit.Vets.of_admits`). And if what it asks for is enough for it to go through, then
it is refused only by its checks (`Edit.Vets.eq_of_refused`).
-/

namespace VersionedTables

namespace Edit

variable {α β : Type} {w w' : Workspace} {P : Prop} {id : RevisionId} {name : String}

/-- A request is turned down for its own sake before anything is changed, or it is as the checks ask for
it to be. -/
def Vets (e : Edit α) (w : Workspace) (P : Prop) : Prop :=
  (∃ fault, e.outcome w = (.error fault, w) ∧ fault.isInternal = false) ∨ P

/-- What is asked for, if an edit does not turn its request down. -/
theorem Vets.of_admits {e : Edit α} {Q : α → Workspace → Prop} (h : e.Vets w P)
    (hadmits : e.Admits w Q) : P := by
  obtain ⟨fault, hrun, hfault⟩ | hP := h
  · rw [Admits, hrun] at hadmits
    exact absurd (hfault.symm.trans hadmits) Bool.false_ne_true
  · exact hP

/-- When all that an edit needs is what it asks for, it changes nothing if it is refused. -/
theorem Vets.eq_of_refused {e : Edit α} {fault : CommandFault} {Q : α → Workspace → Prop}
    (h : e.Vets w P) (hyields : P → e.Yields w Q) (hrun : e.outcome w = (.error fault, w')) :
    w' = w := by
  obtain ⟨fault', hrun', -⟩ | hP := h
  · exact (Prod.mk.inj (hrun.symm.trans hrun')).2
  · obtain ⟨value, w'', hrun', -⟩ := hyields hP
    cases hrun.symm.trans hrun'

/-! ## Executing edits -/

theorem vets_bind_of_ok {e : Edit α} {f : α → Edit β} {value : α}
    (h : e.outcome w = (.ok value, w)) : (e >>= f).Vets w P ↔ (f value).Vets w P := by
  rw [Vets, outcome_bind, h]
  rfl

theorem vets_bind_of_error {e : Edit α} {f : α → Edit β} {fault : CommandFault}
    (h : e.outcome w = (.error fault, w)) (hfault : fault.isInternal = false) :
    (e >>= f).Vets w P := by
  refine .inl ⟨fault, ?_, hfault⟩
  rw [outcome_bind, h]

@[simp] theorem vets_map {e : Edit α} {f : α → β} : (f <$> e).Vets w P ↔ e.Vets w P := by
  rw [Vets, Vets, ← bind_pure_comp, outcome_bind]
  rcases e.outcome w with ⟨fault | value, w'⟩
  · simp
  · refine or_congr_left (iff_of_false ?_ ?_) <;>
    · rintro ⟨_, hrun, -⟩
      cases hrun

@[simp] theorem vets_store {f : Store → Edit β} : (store >>= f).Vets w P ↔ (f w.store).Vets w P :=
  vets_bind_of_ok rfl

theorem vets_orFault (fault : CommandFault) (hfault : fault.isInternal = false) {o : Option α}
    {f : α → Edit β} :
    (orFault fault o >>= f).Vets w P ↔ ∀ value, o = some value → (f value).Vets w P := by
  rcases o with _ | value
  · exact iff_of_true (vets_bind_of_error rfl hfault) (by simp)
  · exact (vets_bind_of_ok rfl).trans (by simp)

@[simp] theorem vets_parseName {ν : Type} {parse : String → Except NameFault ν} {text : String}
    {f : ν → Edit β} :
    (parseName parse text >>= f).Vets w P ↔ ∀ name, parse text = .ok name → (f name).Vets w P := by
  rw [parseName]
  rcases parse text with cause | name
  · exact iff_of_true (vets_bind_of_error rfl rfl) (by simp)
  · exact (vets_bind_of_ok rfl).trans (by simp)

theorem vets_liftExcept {e : Except CommandFault α}
    (he : ∀ fault, e = .error fault → fault.isInternal = false) {f : α → Edit β} :
    (liftExcept e >>= f).Vets w P ↔ ∀ value, e = .ok value → (f value).Vets w P := by
  rcases e with fault | value
  · exact iff_of_true (vets_bind_of_error rfl (he fault rfl)) (by simp)
  · exact (vets_bind_of_ok rfl).trans (by simp)

/-! ## Checks -/

@[simp] theorem vets_requireDraft {f : Revision → Edit β} :
    (requireDraft id >>= f).Vets w P ↔ ∀ revision, w.store.revision? id = some revision →
      revision.isDraft = true → (f revision).Vets w P := by
  simp only [requireDraft, bind_assoc, vets_store, vets_orFault (.revisionNotFound id) rfl]
  refine forall_congr' fun revision => forall_congr' fun _ => ?_
  cases revision.isDraft
  · exact iff_of_true (vets_bind_of_error rfl rfl) (by simp)
  · exact (vets_bind_of_ok rfl).trans (by simp)

@[simp] theorem vets_requireTable {f : TableVersion → Edit β} :
    (requireTable id name >>= f).Vets w P ↔
      ∀ table, w.store.findTable id name = some table → (f table).Vets w P := by
  simp only [requireTable, bind_assoc, vets_store, vets_orFault (.tableNotFound name id) rfl]

@[simp] theorem vets_requireSource {f : Revision → Edit β} :
    (requireSource id >>= f).Vets w P ↔ ∀ revision, w.store.revision? id = some revision →
      revision.isDraft = false → (f revision).Vets w P := by
  simp only [requireSource, bind_assoc, vets_store, vets_orFault (.revisionNotFound id) rfl]
  refine forall_congr' fun revision => forall_congr' fun _ => ?_
  cases revision.isDraft
  · exact (vets_bind_of_ok rfl).trans (by simp)
  · exact iff_of_true (vets_bind_of_error rfl rfl) (by simp)

end Edit

end VersionedTables
