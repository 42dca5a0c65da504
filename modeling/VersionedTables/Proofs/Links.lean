import Mathlib
import VersionedTables.Links

/-!
# The laws of links

A relation is kept from both ends, and each end as a map to sets. What a reader needs of it is less:
whether a link is there. Below, `Links.contains` is the *view* of a relation, and every operation
gets its equation through it.

* `Links.contains_set` — setting a link changes that one answer and no other.
* `Links.Tidy` — the two ends tell the same story, and neither keeps an empty entry. Every `set`
  keeps it (`Links.Tidy.set`).
* `Links.Tidy.set_set` — a tidy relation is determined by its view, so setting a link and setting it
  back is the identity *as data*. This is what makes undoing a change exact.
-/

set_option linter.unusedSectionVars false

namespace VersionedTables

open Std

variable {α β : Type} [Ord α] [TransOrd α] [LawfulEqOrd α] [Ord β] [TransOrd β] [LawfulEqOrd β]

/-! ## One side -/

namespace Side

/-- No thing has an empty set of partners. -/
def Canonical (side : Side α β) : Prop :=
  ∀ a : α, side[a]? ≠ some (∅ : ExtTreeSet β compare)

theorem mem_partners {side : Side α β} {a : α} {b : β} :
    b ∈ side.partners a ↔ side.holds a b = true := by
  rw [partners, holds, ExtTreeSet.mem_toList, ExtTreeSet.mem_iff_contains]

theorem nodup_partners (side : Side α β) (a : α) : (side.partners a).Nodup := by
  refine List.Pairwise.imp (fun h => ?_) (ExtTreeSet.distinct_toList (t := side.getD a ∅))
  rintro rfl
  exact h ReflCmp.compare_self

@[simp] theorem holds_empty (a : α) (b : β) : (∅ : Side α β).holds a b = false := by
  simp [holds]

/-- Adding a link makes it there and changes no other. -/
theorem holds_add {side : Side α β} {a a' : α} {b b' : β} :
    (side.add a b).holds a' b' = true ↔ a' = a ∧ b' = b ∨ side.holds a' b' = true := by
  by_cases ha : a' = a
  · subst ha
    simp only [add, holds, ExtTreeMap.getD_insert_self, ExtTreeSet.contains_insert, Bool.or_eq_true,
      beq_iff_eq, LawfulEqCmp.compare_eq_iff_eq, true_and]
    rw [eq_comm]
  · have hne : compare a a' ≠ .eq := fun h => ha (LawfulEqCmp.eq_of_compare h).symm
    simp [add, holds, ExtTreeMap.getD_insert, hne, ha]

/-- Removing a link makes it not there and changes no other. -/
theorem holds_remove {side : Side α β} {a a' : α} {b b' : β} :
    (side.remove a b).holds a' b' = true ↔ ¬(a' = a ∧ b' = b) ∧ side.holds a' b' = true := by
  have hne : a' ≠ a → compare a a' ≠ .eq := fun hne h => hne (LawfulEqCmp.eq_of_compare h).symm
  rw [remove]
  rcases hentry : side[a]? with _ | partners
  · -- nothing to remove: the link was not there
    by_cases ha : a' = a
    · subst ha
      simp [holds, ExtTreeMap.getD_eq_getD_getElem?, hentry]
    · simp [ha]
  · have hleft : ∀ c, (partners.erase b).contains c = true ↔ c ≠ b ∧ partners.contains c = true := by
      intro c
      rw [ExtTreeSet.contains_erase, Bool.and_eq_true, bne_iff_ne, ne_eq,
        LawfulEqCmp.compare_eq_iff_eq, eq_comm]
    have hold : side.getD a ∅ = partners := by
      rw [ExtTreeMap.getD_eq_getD_getElem?, hentry, Option.getD_some]
    by_cases ha : a' = a
    · subst ha
      have hview : ∀ other : Side α β, other.getD a' ∅ = partners.erase b →
          (other.holds a' b' = true ↔ ¬(a' = a' ∧ b' = b) ∧ side.holds a' b' = true) := by
        intro other h
        simp only [holds, h, hold, hleft, true_and, ne_eq]
      dsimp only
      split
      · next hempty =>
        refine hview _ ?_
        rw [ExtTreeMap.getD_erase_self, ExtTreeSet.isEmpty_iff.mp hempty]
      · exact hview _ ExtTreeMap.getD_insert_self
    · dsimp only
      split
      · simp [holds, ExtTreeMap.getD_erase, hne ha, ha]
      · simp [holds, ExtTreeMap.getD_insert, hne ha, ha]

theorem canonical_empty : (∅ : Side α β).Canonical := by
  intro a
  simp

theorem Canonical.add {side : Side α β} (h : side.Canonical) (a : α) (b : β) :
    (side.add a b).Canonical := by
  intro a'
  rw [Side.add, ExtTreeMap.getElem?_insert]
  split
  · intro hempty
    have hb : ((side.getD a ∅).insert b).contains b = true := ExtTreeSet.contains_insert_self
    rw [Option.some.inj hempty, ExtTreeSet.contains_empty] at hb
    cases hb
  · exact h a'

theorem Canonical.remove {side : Side α β} (h : side.Canonical) (a : α) (b : β) :
    (side.remove a b).Canonical := by
  rw [Side.remove]
  rcases side[a]? with _ | partners
  · exact h
  · intro a'
    dsimp only
    split
    · rw [ExtTreeMap.getElem?_erase]
      split
      · simp
      · exact h a'
    · next hempty =>
      rw [ExtTreeMap.getElem?_insert]
      split
      · intro heq
        exact hempty (ExtTreeSet.isEmpty_iff.mpr (Option.some.inj heq))
      · exact h a'

/-- A canonical side is determined by its links. -/
theorem Canonical.ext {side side' : Side α β} (h : side.Canonical) (h' : side'.Canonical)
    (hholds : ∀ a b, side.holds a b = side'.holds a b) : side = side' := by
  apply ExtTreeMap.ext_getElem?
  intro a
  have hsets : side.getD a ∅ = side'.getD a ∅ := ExtTreeSet.ext_contains (hholds a)
  rw [ExtTreeMap.getD_eq_getD_getElem?, ExtTreeMap.getD_eq_getD_getElem?] at hsets
  rcases hs : side[a]? with _ | set <;> rcases hs' : side'[a]? with _ | set' <;>
    rw [hs, hs'] at hsets <;> simp only [Option.getD_none, Option.getD_some] at hsets
  · exact absurd (hs'.trans (congrArg some hsets.symm)) (h' a)
  · exact absurd (hs.trans (congrArg some hsets)) (h a)
  · rw [hsets]

/-- The partners of a thing are those of its entry. -/
theorem holds_iff_mem {side : Side α β} {a : α} {b : β} {partners : ExtTreeSet β compare}
    (hentry : side[a]? = some partners) : side.holds a b = true ↔ b ∈ partners := by
  rw [holds, ExtTreeMap.getD_eq_getD_getElem?, hentry, Option.getD_some, ExtTreeSet.mem_iff_contains]

theorem holds_iff_exists {side : Side α β} {a : α} {b : β} :
    side.holds a b = true ↔ ∃ partners, side[a]? = some partners ∧ b ∈ partners := by
  rcases hentry : side[a]? with _ | partners
  · simp [holds, ExtTreeMap.getD_eq_getD_getElem?, hentry]
  · simp [holds_iff_mem hentry]

/-- What has a partner has an entry. -/
theorem mem_of_holds {side : Side α β} {a : α} {b : β} (h : side.holds a b = true) : a ∈ side := by
  obtain ⟨partners, hentry, -⟩ := holds_iff_exists.mp h
  rw [ExtTreeMap.mem_iff_isSome_getElem?, hentry]
  rfl

/-- What has an entry in a canonical side has a partner. -/
theorem Canonical.exists_holds {side : Side α β} (h : side.Canonical) {a : α}
    {partners : ExtTreeSet β compare} (hentry : side[a]? = some partners) :
    ∃ b, side.holds a b = true := by
  by_contra hnone
  refine h a (hentry.trans (congrArg some ?_))
  refine ExtTreeSet.ext_contains fun b => ?_
  rw [ExtTreeSet.contains_empty, ← Bool.not_eq_true, ← ExtTreeSet.mem_iff_contains,
    ← holds_iff_mem hentry]
  exact fun hholds => hnone ⟨b, hholds⟩

/-- What has an entry in a canonical side is what has partners. -/
theorem Canonical.mem_iff {side : Side α β} (h : side.Canonical) {a : α} :
    a ∈ side ↔ ∃ b, side.holds a b = true := by
  refine ⟨fun hmem => ?_, fun ⟨_, hholds⟩ => mem_of_holds hholds⟩
  obtain ⟨partners, hentry⟩ := Option.isSome_iff_exists.mp
    (ExtTreeMap.mem_iff_isSome_getElem?.mp hmem)
  exact h.exists_holds hentry

theorem mem_add {side : Side α β} {a a' : α} {b : β} :
    a' ∈ side.add a b ↔ a' = a ∨ a' ∈ side := by
  rw [add, ExtTreeMap.mem_insert, LawfulEqCmp.compare_eq_iff_eq, eq_comm]

/-- An entry is dropped with its last partner, and so is one that had none. -/
theorem mem_remove {side : Side α β} {a a' : α} {b : β} :
    a' ∈ side.remove a b ↔ a' ∈ side ∧ (a' = a → ∃ b', b' ≠ b ∧ side.holds a b' = true) := by
  rw [remove]
  rcases hentry : side[a]? with _ | partners
  · refine ⟨fun hmem => ⟨hmem, ?_⟩, And.left⟩
    rintro rfl
    rw [ExtTreeMap.mem_iff_isSome_getElem?, hentry] at hmem
    cases hmem
  · have hleft : (partners.erase b).isEmpty = true ↔ ¬∃ b', b' ≠ b ∧ side.holds a b' = true := by
      rw [ExtTreeSet.isEmpty_iff, ExtTreeSet.eq_empty_iff_forall_not_mem, not_exists]
      refine forall_congr' fun b' => not_congr ?_
      rw [ExtTreeSet.mem_erase, ne_eq, LawfulEqCmp.compare_eq_iff_eq, eq_comm, holds_iff_mem hentry]
    have ha : a ∈ side := by
      rw [ExtTreeMap.mem_iff_isSome_getElem?, hentry]
      rfl
    dsimp only
    split
    · next hempty =>
      rw [ExtTreeMap.mem_erase, ne_eq, LawfulEqCmp.compare_eq_iff_eq, and_comm]
      refine and_congr_right fun _ => ⟨fun hne heq => absurd heq.symm hne, ?_⟩
      rintro hother rfl
      exact hleft.mp hempty (hother rfl)
    · next hnonempty =>
      rw [ExtTreeMap.mem_insert, LawfulEqCmp.compare_eq_iff_eq]
      refine ⟨?_, fun hmem => .inr hmem.1⟩
      rintro (rfl | hmem)
      · exact ⟨ha, fun _ => not_not.mp fun hnone => hnonempty (hleft.mpr hnone)⟩
      · exact ⟨hmem, fun _ => not_not.mp fun hnone => hnonempty (hleft.mpr hnone)⟩

/-! ### The other side -/

/-- Adding one link for each item of a list. -/
theorem holds_foldl_add {side : Side β α} {a a' : α} {b' : β} (items : List β) :
    (items.foldl (fun side b => side.add b a) side).holds b' a' = true ↔
      (b' ∈ items ∧ a' = a) ∨ side.holds b' a' = true := by
  induction items generalizing side with
  | nil => simp
  | cons first rest ih =>
    rw [List.foldl_cons, ih, holds_add, List.mem_cons, ← or_assoc, ← or_and_right, or_comm (a := b' ∈ rest)]

theorem holds_foldl_entries {side : Side β α} {a : α} {b : β}
    (entries : List (α × ExtTreeSet β compare)) :
    (entries.foldl (fun side entry =>
        entry.2.toList.foldl (fun side b => side.add b entry.1) side) side).holds b a = true ↔
      (∃ entry ∈ entries, entry.1 = a ∧ b ∈ entry.2) ∨ side.holds b a = true := by
  induction entries generalizing side with
  | nil => simp
  | cons first rest ih =>
    rw [List.foldl_cons, ih, holds_foldl_add, ExtTreeSet.mem_toList, List.exists_mem_cons_iff]
    grind

theorem opposite_eq (side : Side α β) :
    side.opposite = side.toList.foldl (fun other entry =>
      entry.2.toList.foldl (fun other b => other.add b entry.1) other) ∅ := by
  simp only [opposite, ExtTreeMap.foldl_eq_foldl_toList, ExtTreeSet.foldl_eq_foldl_toList]

/-- The other side of a relation has the same links. -/
theorem holds_opposite {side : Side α β} {a : α} {b : β} :
    side.opposite.holds b a = true ↔ side.holds a b = true := by
  rw [opposite_eq, holds_foldl_entries, holds_empty]
  simp only [Bool.false_eq_true, or_false, Prod.exists, ExtTreeMap.mem_toList_iff_getElem?_eq_some,
    holds_iff_exists]
  exact ⟨fun ⟨_, partners, hentry, rfl, hmem⟩ => ⟨partners, hentry, hmem⟩,
    fun ⟨partners, hentry, hmem⟩ => ⟨_, partners, hentry, rfl, hmem⟩⟩

theorem canonical_opposite (side : Side α β) : side.opposite.Canonical := by
  have hitems (a : α) (items : List β) (other : Side β α) (h : other.Canonical) :
      (items.foldl (fun other b => other.add b a) other).Canonical := by
    induction items generalizing other with
    | nil => exact h
    | cons first rest ih => exact ih _ (h.add first a)
  rw [opposite_eq]
  generalize side.toList = entries
  have hentries (other : Side β α) (h : other.Canonical) :
      (entries.foldl (fun other entry =>
        entry.2.toList.foldl (fun other b => other.add b entry.1) other) other).Canonical := by
    induction entries generalizing other with
    | nil => exact h
    | cons first rest ih => exact ih _ (hitems first.1 _ other h)
  exact hentries ∅ canonical_empty

end Side

/-! ## Both sides -/

namespace Links

/-- Both ends of a relation say the same. -/
def Mirrored (links : Links α β) : Prop :=
  ∀ a b, links.backward.holds b a = links.forward.holds a b

/-- Both ends of a relation say the same, and neither keeps an empty entry. -/
structure Tidy (links : Links α β) : Prop where
  forward : links.forward.Canonical
  backward : links.backward.Canonical
  mirrored : ∀ a b, links.backward.holds b a = links.forward.holds a b

theorem tidy_empty : (∅ : Links α β).Tidy where
  forward := Side.canonical_empty
  backward := Side.canonical_empty
  mirrored _ _ := by
    change (∅ : Side β α).holds _ _ = (∅ : Side α β).holds _ _
    simp

@[simp] theorem contains_empty (a : α) (b : β) : (∅ : Links α β).contains a b = false :=
  Side.holds_empty a b

/-- Setting a link changes this one answer and no other. -/
theorem contains_set [DecidableEq α] [DecidableEq β] {links : Links α β} {a a' : α} {b b' : β} {linked : Bool} :
    (links.set a b linked).contains a' b' = true ↔
      if a' = a ∧ b' = b then linked = true else links.contains a' b' = true := by
  cases linked with
  | true =>
    rw [set, if_pos rfl, contains, Side.holds_add]
    split <;> simp_all [contains]
  | false =>
    rw [set, if_neg (by decide), contains, Side.holds_remove]
    split <;> simp_all [contains]

/-- Only what is linked gets an entry. -/
theorem mem_forward_set {links : Links α β} {a a' : α} {b : β} {linked : Bool}
    (h : a' ∈ (links.set a b linked).forward) : a' = a ∧ linked = true ∨ a' ∈ links.forward := by
  cases linked with
  | true => exact (Side.mem_add.mp h).imp_left fun heq => ⟨heq, rfl⟩
  | false => exact .inr (Side.mem_remove.mp h).1

theorem mem_targets {links : Links α β} {a : α} {b : β} :
    b ∈ links.targets a ↔ links.contains a b = true :=
  Side.mem_partners

theorem nodup_targets (links : Links α β) (a : α) : (links.targets a).Nodup :=
  Side.nodup_partners _ a

theorem nodup_sources (links : Links α β) (b : β) : (links.sources b).Nodup :=
  Side.nodup_partners _ b

/-- What a thing links is listed the same wherever it is the same. -/
theorem targets_congr {links links' : Links α β} {a a' : α}
    (h : ∀ b, links.contains a b = links'.contains a' b) : links.targets a = links'.targets a' := by
  rw [targets, targets, Side.partners, Side.partners, ExtTreeSet.ext_contains h]

namespace Mirrored

variable {links : Links α β} (h : links.Mirrored)

include h

theorem mem_sources {a : α} {b : β} : a ∈ links.sources b ↔ links.contains a b = true := by
  rw [Links.sources, Side.mem_partners, h, Links.contains]

/-- Who links a thing is listed the same wherever it is the same. -/
theorem sources_congr {links' : Links α β} (h' : links'.Mirrored) {b b' : β}
    (hsame : ∀ a, links.contains a b = links'.contains a b') :
    links.sources b = links'.sources b' := by
  have hbackward (a : α) : links.backward.holds b a = links'.backward.holds b' a := by
    rw [h, h']
    exact hsame a
  rw [sources, sources, Side.partners, Side.partners, ExtTreeSet.ext_contains hbackward]

/-- Setting a link keeps both ends in step. -/
protected theorem set (a : α) (b : β) (linked : Bool) : (links.set a b linked).Mirrored := by
  intro a' b'
  cases linked with
  | true =>
    rw [Bool.eq_iff_iff, Links.set, if_pos rfl, Side.holds_add, Side.holds_add, h, and_comm]
  | false =>
    rw [Bool.eq_iff_iff, Links.set, if_neg (by decide), Side.holds_remove, Side.holds_remove,
      h, and_comm (a := b' = b)]

end Mirrored

/-- What one side tells of is told by both. -/
theorem mirrored_ofForward (forward : Side α β) : (ofForward forward).Mirrored := by
  intro a b
  rw [Bool.eq_iff_iff, ofForward, Side.holds_opposite]

/-- What is told of by a side without empty entries is tidy. -/
theorem tidy_ofForward {forward : Side α β} (h : forward.Canonical) : (ofForward forward).Tidy :=
  ⟨h, forward.canonical_opposite, mirrored_ofForward forward⟩

namespace Tidy

variable {links : Links α β} (h : links.Tidy)

include h

theorem mem_sources {a : α} {b : β} : a ∈ links.sources b ↔ links.contains a b = true :=
  Mirrored.mem_sources h.mirrored

/-- Setting a link keeps the relation tidy. -/
protected theorem set (a : α) (b : β) (linked : Bool) : (links.set a b linked).Tidy := by
  refine ⟨?_, ?_, Mirrored.set h.mirrored a b linked⟩ <;> cases linked
  · exact h.forward.remove a b
  · exact h.forward.add a b
  · exact h.backward.remove b a
  · exact h.backward.add b a

/-- A tidy relation is determined by its links. -/
protected theorem ext {links' : Links α β} (h' : links'.Tidy)
    (hlinks : ∀ a b, links.contains a b = links'.contains a b) : links = links' := by
  have hforward : links.forward = links'.forward := h.forward.ext h'.forward hlinks
  have hbackward : links.backward = links'.backward := by
    refine h.backward.ext h'.backward fun b a => ?_
    rw [h.mirrored, h'.mirrored]
    exact hlinks a b
  cases links; cases links'
  simp only [mk.injEq]
  exact ⟨hforward, hbackward⟩

/-- Setting a link and setting it back changes nothing. -/
theorem set_set (a : α) (b : β) (linked : Bool) :
    (links.set a b linked).set a b (links.contains a b) = links := by
  classical
  refine ((h.set a b linked).set a b _).ext h fun a' b' => ?_
  rw [Bool.eq_iff_iff, contains_set, contains_set]
  split
  · next heq => rw [heq.1, heq.2]
  · exact Iff.rfl

/-- Setting a link to what it is already changes nothing. -/
theorem set_self (a : α) (b : β) : links.set a b (links.contains a b) = links := by
  classical
  refine (h.set a b _).ext h fun a' b' => ?_
  rw [Bool.eq_iff_iff, contains_set]
  split
  · next heq => rw [heq.1, heq.2]
  · exact Iff.rfl

/-- A tidy relation is told by one side. -/
theorem ofForward_forward : ofForward links.forward = links := by
  have hbackward : links.forward.opposite = links.backward := by
    refine (Side.canonical_opposite _).ext h.backward fun b a => ?_
    rw [Bool.eq_iff_iff, Side.holds_opposite, h.mirrored]
  rw [ofForward, hbackward]

end Tidy

end Links

end VersionedTables
