import VersionedTables.Proofs.DeepCopy

/-!
# Checks of requests

What the checks of a batch ask for, without the order in which they ask for it: each is an
equivalence between its own recursion and a condition on the whole list. The lists of texts that the
checks carry along occur in the statements as what the texts of the request must not be in.
-/

namespace VersionedTables

/-- A name is read as it is, if it can be read. -/
theorem RowName.parse_eq_ok {name : RowName} {text : String} :
    RowName.parse text = .ok name ↔ (RowName.parse text).isOk = true ∧ name = ⟨text⟩ := by
  rw [RowName.parse]
  rcases checkIdentifier text with fault | _
  · simp [bind, Except.bind, Except.isOk, Except.toBool]
  · simp [bind, Except.bind, Except.isOk, Except.toBool, pure, Except.pure, eq_comm]

theorem mapError_eq_ok {ε ε' α : Type} {e : Except ε α} {f : ε → ε'} {value : α} :
    e.mapError f = .ok value ↔ e = .ok value := by
  cases e <;> simp [Except.mapError]

theorem Except.bind_eq_ok {ε α β : Type} {e : Except ε α} {f : α → Except ε β} {value : β} :
    (e >>= f) = .ok value ↔ ∃ first, e = .ok first ∧ f first = .ok value := by
  cases e <;> simp [bind, Except.bind]

/-- A check that throws has to be passed. -/
theorem check_eq_ok {ε α β : Type} {c : Prop} [Decidable c] {fault : ε} {f : β → Except ε α}
    {e : Except ε α} {value : α} :
    (if c then (throw fault : Except ε β) >>= f else e) = .ok value ↔ ¬c ∧ e = .ok value := by
  by_cases hc : c
  · simp [hc, bind, Except.bind, throw, throwThe, MonadExceptOf.throw]
  · simp [hc]

/-- What it takes for a list to stay without repetition when an item is put in front. -/
theorem nodup_map_cons {α β : Type} {f : α → β} {first : α} {rest : List α} :
    ((first :: rest).map f).Nodup ↔ (∀ item ∈ rest, f item ≠ f first) ∧ (rest.map f).Nodup := by
  rw [List.map_cons, List.nodup_cons, List.mem_map]
  exact and_congr_left fun _ => by simp

/-- No text occurs twice. -/
theorem hasRepetition_eq_false {texts : List String} :
    hasRepetition texts = false ↔ texts.Nodup := by
  induction texts with
  | nil => simp [hasRepetition]
  | cons text rest ih => simp [hasRepetition, ih]

/-- No text of a request is there already. -/
theorem isEmpty_clashes {texts existing : List String} :
    (texts.filter existing.contains).isEmpty = true ↔ ∀ text ∈ texts, text ∉ existing := by
  simp [List.isEmpty_iff, List.filter_eq_nil_iff]

/-- No text of a request is missing. -/
theorem find?_missing {texts existing : List String} :
    (sortTexts texts).find? (!existing.contains ·) = none ↔ ∀ text ∈ texts, text ∈ existing := by
  simp [sortTexts, List.find?_eq_none]

/-- No new name of a request is there already, unless the request gives it up. -/
theorem isEmpty_taken {sources targets existing : List String} :
    ((sortTexts targets).filter fun next =>
        existing.contains next && !(sortTexts sources).contains next).isEmpty = true ↔
      ∀ next ∈ targets, next ∈ existing → next ∈ sources := by
  simp [sortTexts, List.isEmpty_iff, List.filter_eq_nil_iff]

/-- The names of rows to create. -/
theorem RowInput.newNames?_eq_ok {seen : List String} {inputs : List RowInput}
    {names : List RowName} :
    RowInput.newNames? seen inputs = .ok names ↔
      (∀ input ∈ inputs, (RowName.parse input.name).isOk = true ∧ input.name ∉ seen) ∧
        (inputs.map (·.name)).Nodup ∧ names = inputs.map (⟨·.name⟩) := by
  induction inputs generalizing seen names with
  | nil => simp [newNames?, pure, Except.pure, @eq_comm _ [] names]
  | cons input rest ih =>
    rw [newNames?]
    simp only [Except.bind_eq_ok, mapError_eq_ok, RowName.parse_eq_ok, check_eq_ok, ih,
      nodup_map_cons, List.forall_mem_cons, List.contains_iff_mem]
    refine ⟨?_, ?_⟩
    · rintro ⟨_, ⟨hok, rfl⟩, hseen, _, ⟨hall, hnodup, rfl⟩, hnames⟩
      cases hnames
      grind
    · rintro ⟨⟨⟨hok, hseen⟩, hall⟩, ⟨hfirst, hnodup⟩, rfl⟩
      refine ⟨_, ⟨hok, rfl⟩, hseen, _, ⟨?_, hnodup, rfl⟩, rfl⟩
      grind

/-- The new names of rows to rename. -/
theorem RowRename.nextNames?_eq_ok {sources targets : List String} {renames : List RowRename}
    {names : List RowName} :
    RowRename.nextNames? sources targets renames = .ok names ↔
      (∀ rename ∈ renames, (RowName.parse rename.next).isOk = true ∧ rename.name ≠ rename.next ∧
        rename.name ∉ sources ∧ rename.next ∉ targets) ∧
        (renames.map (·.name)).Nodup ∧ (renames.map (·.next)).Nodup ∧
        names = renames.map (⟨·.next⟩) := by
  induction renames generalizing sources targets names with
  | nil => simp [nextNames?, pure, Except.pure, @eq_comm _ [] names]
  | cons rename rest ih =>
    rw [nextNames?]
    simp only [Except.bind_eq_ok, mapError_eq_ok, RowName.parse_eq_ok, check_eq_ok, ih,
      nodup_map_cons, List.forall_mem_cons, List.contains_iff_mem]
    refine ⟨?_, ?_⟩
    · rintro ⟨_, ⟨hok, rfl⟩, hkept, hsource, htarget, _, ⟨hall, hnodup, hnodup', rfl⟩, hnames⟩
      cases hnames
      grind
    · rintro ⟨⟨⟨hok, hkept, hsource, htarget⟩, hall⟩, ⟨hfirst, hnodup⟩, ⟨hfirst', hnodup'⟩, rfl⟩
      refine ⟨_, ⟨hok, rfl⟩, hkept, hsource, htarget, _, ⟨?_, hnodup, hnodup', rfl⟩, rfl⟩
      grind

section Forall₂

variable {α β : Type} {R : α → β → Prop} {items : List α} {others : List β}

/-- In two lists that are related item by item, every item has another. -/
theorem exists_of_forall₂ (h : List.Forall₂ R items others) {item : α} (hmem : item ∈ items) :
    ∃ other ∈ others, R item other := by
  induction h with
  | nil => cases hmem
  | @cons first firstOther rest restOthers hfirst hrest ih =>
    rcases List.mem_cons.mp hmem with rfl | hmem
    · exact ⟨firstOther, List.mem_cons_self, hfirst⟩
    · obtain ⟨other, hother, hR⟩ := ih hmem
      exact ⟨other, List.mem_cons_of_mem _ hother, hR⟩

/-- A list in which every item has another is related to a list of these. -/
theorem exists_forall₂ (h : ∀ item ∈ items, ∃ other, R item other) :
    ∃ others, List.Forall₂ R items others := by
  induction items with
  | nil => exact ⟨[], .nil⟩
  | cons first rest ih =>
    obtain ⟨other, hother⟩ := h first List.mem_cons_self
    obtain ⟨others, hothers⟩ := ih fun item hmem => h item (List.mem_cons_of_mem _ hmem)
    exact ⟨other :: others, .cons hother hothers⟩

end Forall₂

/-- Of equal texts one is kept, unless it was seen before. -/
theorem mem_keepFirst {seen texts : List String} {text : String} :
    text ∈ keepFirst seen texts ↔ text ∈ texts ∧ text ∉ seen := by
  induction texts generalizing seen with
  | nil => simp [keepFirst]
  | cons first rest ih =>
    rw [keepFirst]
    split
    · next hseen =>
      rw [List.contains_iff_mem] at hseen
      rw [ih, List.mem_cons]
      refine and_congr_left fun hnew => (or_iff_right ?_).symm
      rintro rfl
      exact hnew hseen
    · next hnew =>
      rw [List.contains_iff_mem] at hnew
      rw [List.mem_cons, ih, List.mem_cons, List.mem_cons]
      by_cases htext : text = first
      · subst htext
        simp [hnew]
      · simp [htext]

/-- No text is kept twice. -/
theorem nodup_keepFirst (seen texts : List String) : (keepFirst seen texts).Nodup := by
  induction texts generalizing seen with
  | nil => exact .nil
  | cons first rest ih =>
    rw [keepFirst]
    split
    · exact ih seen
    · refine List.nodup_cons.mpr ⟨fun hmem => ?_, ih _⟩
      exact (mem_keepFirst.mp hmem).2 List.mem_cons_self

end VersionedTables
