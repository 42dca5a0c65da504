/-!
# Sorting

Sorting by insertion. The lists sorted here are short or nearly in order already, and the
recursion follows the list, so that a sorted list can be computed within a proof. The main
statements: sorting keeps the items (`perm_sortBy`) and puts them in order (`pairwise_sortBy`).
-/

namespace VersionedTables

variable {α : Type} {le : α → α → Bool}

/-- Puts an item into a sorted list, as far to the front as its order allows. -/
def insertBy (le : α → α → Bool) (item : α) : List α → List α
  | [] => [item]
  | first :: rest =>
    if le item first then item :: first :: rest else first :: insertBy le item rest

/-- Sorts a list; items of which neither comes before the other stay as they stood. -/
def sortBy (le : α → α → Bool) (items : List α) : List α :=
  items.foldr (insertBy le) []

/-- Inserting adds the item and nothing else. -/
theorem perm_insertBy (item : α) (items : List α) :
    (insertBy le item items).Perm (item :: items) := by
  induction items with
  | nil => exact .refl _
  | cons first rest ih =>
    rw [insertBy]
    split
    · exact .refl _
    · exact (ih.cons first).trans (.swap item first rest)

/-- Sorting keeps the items. -/
theorem perm_sortBy (items : List α) : (sortBy le items).Perm items := by
  induction items with
  | nil => exact .refl _
  | cons first rest ih => exact (perm_insertBy first _).trans (ih.cons first)

@[simp] theorem mem_sortBy {item : α} {items : List α} : item ∈ sortBy le items ↔ item ∈ items :=
  (perm_sortBy items).mem_iff

/-- Inserting keeps a list in order. -/
theorem pairwise_insertBy (trans : ∀ a b c, le a b → le b c → le a c)
    (total : ∀ a b, le a b || le b a) (item : α) {items : List α}
    (h : items.Pairwise (le · ·)) : (insertBy le item items).Pairwise (le · ·) := by
  induction items with
  | nil => exact List.pairwise_singleton _ _
  | cons first rest ih =>
    obtain ⟨hfirst, hrest⟩ := List.pairwise_cons.mp h
    rw [insertBy]
    split
    case isTrue hle =>
      refine List.pairwise_cons.mpr ⟨fun other hother => ?_, h⟩
      rcases List.mem_cons.mp hother with rfl | hother
      · exact hle
      · exact trans _ _ _ hle (hfirst other hother)
    case isFalse hnle =>
      refine List.pairwise_cons.mpr ⟨fun other hother => ?_, ih hrest⟩
      rcases List.mem_cons.mp ((perm_insertBy item rest).mem_iff.mp hother) with rfl | hother
      · have htotal := total other first
        rw [Bool.or_eq_true] at htotal
        exact htotal.resolve_left hnle
      · exact hfirst other hother

/-- Sorting puts the items in order. -/
theorem pairwise_sortBy (trans : ∀ a b c, le a b → le b c → le a c)
    (total : ∀ a b, le a b || le b a) (items : List α) :
    (sortBy le items).Pairwise (le · ·) := by
  induction items with
  | nil => exact .nil
  | cons first rest ih => exact pairwise_insertBy trans total first ih

end VersionedTables
