import VersionedTables.Record
import Mathlib

/-!
# Layers

The version graph has two layers of one shape: revisions link table versions, and table versions
link row versions. A `Layer` is such a shape, with the records of the versions as a function and
the links as a relation. A few properties of a layer carry everything that is proved about
copy-on-write:

* `Owns` — what a published owner links is published, and what is not published has one owner at
  most. This is why a version may be changed in place: nobody else can see it.
* `Anchored` — what is published has a published owner, so it never gets out of sight.
* `Layer.Stray` — a version is left behind: it is there, and nobody links it.
* `Layer.Tells key` — versions with one owner differ in `key`, which is their name or the entity
  they are versions of.
* `Layer.Uses used` — all identifiers in the layer satisfy `used`, so an identifier that does not is
  a fresh one.
* `Layer.All P` — all records have a property, whether anything links them or not.
* `Layer.Agrees key` — all versions of one thing have the same `key`, wherever they are linked.

Each has one lemma that says which changes keep it (`Owns.step`, `Anchored.step`, `Layer.Tells.step`
and its companions); a change then only has to be described.
-/

namespace VersionedTables

/-! ## Ownership -/

section Owns

variable {α β : Type}

/-- What a published owner links is published; what is not published has one owner at most. -/
structure Owns (OwnerPublished : α → Prop) (Linked : α → β → Prop) (Published : β → Prop) : Prop where
  published : ∀ {a b}, Linked a b → OwnerPublished a → Published b
  unique : ∀ {a a' b}, Linked a b → Linked a' b → ¬Published b → a = a'

variable {P P' : α → Prop} {R R' : α → β → Prop} {Q Q' : β → Prop}

/-- A change keeps ownership when nothing that is linked stops being published, and every link to
something unpublished either was there before, from an owner that is not published now unless it
was then, or is its only link. -/
theorem Owns.step (h : Owns P R Q) (hkept : ∀ {a b}, R' a b → Q b → Q' b)
    (hlinks : ∀ {a b}, R' a b → ¬Q' b →
      R a b ∧ (P' a → P a) ∨ ¬P' a ∧ ∀ a', R' a' b → a' = a) : Owns P' R' Q' := by
  refine ⟨?_, ?_⟩
  · intro a b hab ha
    by_contra hb
    rcases hlinks hab hb with ⟨hold, howner⟩ | ⟨hopen, -⟩
    · exact hb (hkept hab (h.published hold (howner ha)))
    · exact hopen ha
  · intro a a' b hab ha'b hb
    -- Of two links to one open version, both are old, or one of them is the only one.
    rcases hlinks hab hb with ⟨hold, -⟩ | ⟨-, honly⟩
    · rcases hlinks ha'b hb with ⟨hold', -⟩ | ⟨-, honly'⟩
      · exact h.unique hold hold' fun hpublished => hb (hkept hab hpublished)
      · exact honly' a hab
    · exact (honly a' ha'b).symm

/-- What is published has a published owner. -/
def Anchored (OwnerPublished : α → Prop) (Linked : α → β → Prop) (Published : β → Prop) : Prop :=
  ∀ ⦃b⦄, Published b → ∃ a, OwnerPublished a ∧ Linked a b

/-- A change keeps what is published in its place when each of it has a published owner afterwards, or
was published before and none of its published owners has let go of it. -/
theorem Anchored.step (h : Anchored P R Q)
    (hanchors : ∀ {b}, Q' b → (∃ a, P' a ∧ R' a b) ∨
      Q b ∧ ∀ {a}, P a → R a b → P' a ∧ R' a b) : Anchored P' R' Q' := by
  intro b hb
  rcases hanchors hb with hnew | ⟨hold, hkept⟩
  · exact hnew
  · obtain ⟨a, ha, hab⟩ := h hold
    exact ⟨a, hkept ha hab⟩

end Owns

/-! ## Layers -/

/-- A table version that must not change any more. -/
def TableVersion.lock (table : TableVersion) : TableVersion :=
  { table with readonly := true }

/-- A row version that must not change any more. -/
def RowVersion.lock (row : RowVersion) : RowVersion :=
  { row with readonly := true }

@[simp] theorem TableVersion.version_copy (table : TableVersion) (v : VersionId) (now : Instant) :
    (table.copy v now).version = v := rfl

@[simp] theorem RowVersion.version_copy (row : RowVersion) (v : VersionId) (now : Instant) :
    (row.copy v now).version = v := rfl

/-- Records of physical versions. -/
class Versioned (ν : Type) where
  /-- Whether the version is published. -/
  readonly : ν → Bool
  /-- What it is a version of. -/
  entity : ν → EntityId
  /-- Publishes the version. -/
  lock : ν → ν
  readonly_lock : ∀ record, readonly (lock record) = true
  entity_lock : ∀ record, entity (lock record) = entity record
  lock_eq_self : ∀ record, readonly record = true → lock record = record

instance : Versioned TableVersion where
  readonly := TableVersion.readonly
  entity := TableVersion.entity
  lock := TableVersion.lock
  readonly_lock _ := rfl
  entity_lock _ := rfl
  lock_eq_self table h := by
    cases table
    cases h
    rfl

instance : Versioned RowVersion where
  readonly := RowVersion.readonly
  entity := RowVersion.entity
  lock := RowVersion.lock
  readonly_lock _ := rfl
  entity_lock _ := rfl
  lock_eq_self row h := by
    cases row
    cases h
    rfl

/-- The records of versions of one kind, and who links which of them. -/
@[ext] structure Layer (α ν : Type) where
  /-- The record of a version. -/
  record? : VersionId → Option ν
  /-- An owner links a version. -/
  Linked : α → VersionId → Prop

namespace Layer

variable {α ν κ : Type} {L L' : Layer α ν}

/-- A version is there and must not change any more. -/
def Published [Versioned ν] (L : Layer α ν) (v : VersionId) : Prop :=
  ∃ record, L.record? v = some record ∧ Versioned.readonly record = true

/-- Versions with one owner differ in a key. -/
def Tells (key : ν → κ) (L : Layer α ν) : Prop :=
  ∀ ⦃a v v' record record'⦄, L.Linked a v → L.Linked a v' → L.record? v = some record →
    L.record? v' = some record' → key record = key record' → v = v'

/-- A version is there, and nobody links it. -/
def Stray (L : Layer α ν) (v : VersionId) : Prop :=
  (∃ record, L.record? v = some record) ∧ ∀ a, ¬L.Linked a v

/-- All versions, and all that they are versions of, have identifiers of a kind. -/
def Uses [Versioned ν] (used : String → Prop) (L : Layer α ν) : Prop :=
  ∀ ⦃v record⦄, L.record? v = some record → used v.text ∧ used (Versioned.entity record).text

/-- All records have a property. -/
def All (P : ν → Prop) (L : Layer α ν) : Prop :=
  ∀ ⦃v record⦄, L.record? v = some record → P record

/-- All versions of one thing agree in a key. -/
def Agrees [Versioned ν] (key : ν → κ) (L : Layer α ν) : Prop :=
  ∀ ⦃v v' record record'⦄, L.record? v = some record → L.record? v' = some record' →
    Versioned.entity record = Versioned.entity record' → key record = key record'

/-! ### Which changes keep what -/

theorem published_iff [Versioned ν] {v : VersionId} {record : ν} (h : L.record? v = some record) :
    L.Published v ↔ Versioned.readonly record = true := by
  simp [Published, h]

theorem not_published_of_none [Versioned ν] {v : VersionId} (h : L.record? v = none) :
    ¬L.Published v := by
  simp [Published, h]

/-- Versions stay told apart when no owner links more than some owner did before, and records keep
their keys. -/
theorem Tells.step {key : ν → κ} (h : L.Tells key)
    (hlinks : ∀ a, ∃ b, ∀ v, L'.Linked a v → L.Linked b v)
    (hrecords : ∀ {v record'}, L'.record? v = some record' →
      ∃ record, L.record? v = some record ∧ key record' = key record) : L'.Tells key := by
  intro a v v' record record' hv hv' hrecord hrecord' hkey
  obtain ⟨b, hb⟩ := hlinks a
  obtain ⟨old, hold, hkeyold⟩ := hrecords hrecord
  obtain ⟨old', hold', hkeyold'⟩ := hrecords hrecord'
  refine h (hb v hv) (hb v' hv') hold hold' ?_
  rw [← hkeyold, ← hkeyold', hkey]

/-- Identifiers stay of their kind when every version is an old one of the same entity, or has
identifiers of that kind. -/
theorem Uses.step [Versioned ν] {used used' : String → Prop} (h : L.Uses used)
    (hused : ∀ {text}, used text → used' text)
    (hrecords : ∀ {v record'}, L'.record? v = some record' →
      (∃ record, L.record? v = some record ∧
        Versioned.entity record' = Versioned.entity record) ∨
      used' v.text ∧ used' (Versioned.entity record').text) : L'.Uses used' := by
  intro v record' hrecord'
  rcases hrecords hrecord' with ⟨record, hrecord, hentity⟩ | hnew
  · obtain ⟨hversion, hold⟩ := h hrecord
    exact ⟨hused hversion, hentity ▸ hused hold⟩
  · exact hnew

/-- A property stays true of all records when every record has it that was not there with it. -/
theorem All.step {P : ν → Prop} (h : L.All P)
    (hrecords : ∀ {v record'}, L'.record? v = some record' →
      (∃ record, L.record? v = some record ∧ (P record → P record')) ∨ P record') : L'.All P := by
  intro v record' hrecord'
  rcases hrecords hrecord' with ⟨record, hrecord, himp⟩ | hnew
  · exact himp (h hrecord)
  · exact hnew

/-- Versions go on agreeing when every record is of a thing that there was, with the same key. -/
theorem Agrees.step [Versioned ν] {key : ν → κ} (h : L.Agrees key)
    (hrecords : ∀ {v record'}, L'.record? v = some record' → ∃ u record, L.record? u = some record ∧
      Versioned.entity record' = Versioned.entity record ∧ key record' = key record) :
    L'.Agrees key := by
  intro v v' record record' hrecord hrecord' hsame
  obtain ⟨u, old, hold, hentity, hkey⟩ := hrecords hrecord
  obtain ⟨u', old', hold', hentity', hkey'⟩ := hrecords hrecord'
  rw [hkey, hkey']
  refine h hold hold' ?_
  rw [← hentity, ← hentity', hsame]

/-! ### What the versions of an owner amount to -/

section Gather

variable {γ : Type} {a a' : α} {f f' : VersionId → Option γ}

/-- What an owner's versions are taken to, one by one. -/
def gather (L : Layer α ν) (f : VersionId → Option γ) (a : α) : Set γ :=
  {c | ∃ v, L.Linked a v ∧ f v = some c}

/-- Two owners of the same versions gather the same from them. -/
theorem gather_congr (hlinks : ∀ v, L'.Linked a' v ↔ L.Linked a v)
    (hf : ∀ v, L.Linked a v → f' v = f v) : L'.gather f' a' = L.gather f a := by
  ext c
  refine ⟨?_, ?_⟩
  · rintro ⟨v, hlinked, hc⟩
    have hold := (hlinks v).mp hlinked
    exact ⟨v, hold, (hf v hold).symm.trans hc⟩
  · rintro ⟨v, hlinked, hc⟩
    exact ⟨v, (hlinks v).mpr hlinked, (hf v hlinked).trans hc⟩

end Gather

/-! ### Putting a version in the place of another -/

variable [DecidableEq α]

/-- An owner links a new version, in the place of an old one if one is given. -/
def place (L : Layer α ν) (a : α) (old : Option VersionId) (v : VersionId) (record : ν) :
    Layer α ν where
  record? u := if u = v then some record else L.record? u
  Linked b u := if b = a then u = v ∨ L.Linked a u ∧ old ≠ some u else L.Linked b u

variable {a b : α} {old : Option VersionId} {u v : VersionId} {record : ν}

@[simp] theorem record?_place :
    (L.place a old v record).record? u = if u = v then some record else L.record? u := rfl

@[simp] theorem linked_place :
    (L.place a old v record).Linked b u ↔
      if b = a then u = v ∨ L.Linked a u ∧ old ≠ some u else L.Linked b u := Iff.rfl

theorem record?_place_of_ne (h : u ≠ v) : (L.place a old v record).record? u = L.record? u :=
  if_neg h

/-- A version in the place of one that it is like makes no difference to what is gathered. -/
theorem gather_place {γ : Type} {f f' : VersionId → Option γ} (hlinked : L.Linked a u)
    (hlike : f' v = f u) (hold : ∀ x, L.Linked a x → f' x = f x) :
    (L.place a (some u) v record).gather f' a = L.gather f a := by
  ext c
  refine ⟨?_, ?_⟩
  · rintro ⟨x, hx, hc⟩
    rw [linked_place, if_pos rfl] at hx
    rcases hx with rfl | ⟨hx, -⟩
    · exact ⟨u, hlinked, hlike.symm.trans hc⟩
    · exact ⟨x, hx, (hold x hx).symm.trans hc⟩
  · rintro ⟨x, hx, hc⟩
    by_cases hxu : x = u
    · -- What was seen in the old version is seen in its copy.
      subst hxu
      exact ⟨v, by simp, hlike.trans hc⟩
    · exact ⟨x, by simp [hx, Ne.symm hxu], (hold x hx).trans hc⟩

/-- Placing a version publishes nothing else and hides nothing that was published. -/
theorem published_place_of_ne [Versioned ν] (h : u ≠ v) :
    (L.place a old v record).Published u ↔ L.Published u := by
  rw [Published, record?_place_of_ne h, Published]

/-- A new version in the hands of an owner that is not published. -/
theorem owns_place [Versioned ν] {OwnerPublished : α → Prop}
    (h : Owns OwnerPublished L.Linked L.Published) (hopen : ¬OwnerPublished a)
    (hnew : L.record? v = none) (hunlinked : ∀ b, ¬L.Linked b v) :
    Owns OwnerPublished (L.place a old v record).Linked (L.place a old v record).Published := by
  have hne {u : VersionId} (hu : L.Published u) : u ≠ v := by
    rintro rfl
    exact not_published_of_none hnew hu
  refine h.step (fun _ hu => (published_place_of_ne (hne hu)).mpr hu) ?_
  intro b u hlinked hu
  by_cases huv : u = v
  · subst huv
    have honly (b : α) (hb : (L.place a old u record).Linked b u) : b = a := by
      by_contra hba
      rw [linked_place, if_neg hba] at hb
      exact hunlinked b hb
    obtain rfl := honly b hlinked
    exact .inr ⟨hopen, honly⟩
  · rw [linked_place] at hlinked
    split at hlinked
    · next hba =>
      subst hba
      exact .inl ⟨(hlinked.resolve_left huv).1, id⟩
    · exact .inl ⟨hlinked, id⟩

/-- A new version that is not published takes no place from a published owner. -/
theorem anchored_place [Versioned ν] {OwnerPublished : α → Prop}
    (h : Anchored OwnerPublished L.Linked L.Published) (hopen : ¬OwnerPublished a)
    (hmutable : Versioned.readonly record = false) :
    Anchored OwnerPublished (L.place a old v record).Linked (L.place a old v record).Published := by
  refine h.step fun {u} hu => .inr ?_
  have hne : u ≠ v := by
    rintro rfl
    rw [published_iff (if_pos rfl), hmutable] at hu
    cases hu
  refine ⟨(published_place_of_ne hne).mp hu, fun {b} hb hlinked => ⟨hb, ?_⟩⟩
  have hba : b ≠ a := by
    rintro rfl
    exact hopen hb
  rwa [linked_place, if_neg hba]

/-- The version whose place is taken is not left behind if somebody else links it. -/
theorem Stray.of_place (h : (L.place a old v record).Stray u)
    (hold : ∀ o, old = some o → ∃ b, b ≠ a ∧ L.Linked b o) : L.Stray u := by
  obtain ⟨⟨other, hother⟩, hunlinked⟩ := h
  have hne : u ≠ v := by
    rintro rfl
    exact hunlinked a (linked_place.mpr (by simp))
  refine ⟨⟨other, (record?_place_of_ne hne).symm.trans hother⟩, fun b hb => ?_⟩
  by_cases hkept : b = a ∧ old = some u
  · obtain ⟨c, hca, hc⟩ := hold u hkept.2
    exact hunlinked c (by rwa [linked_place, if_neg hca])
  · refine hunlinked b (linked_place.mpr ?_)
    split
    · next hba =>
      subst hba
      exact .inr ⟨hb, fun hplace => hkept ⟨rfl, hplace⟩⟩
    · exact hb

omit [DecidableEq α] in
/-- What an owner keeps is told apart from a version that it gives up, and so from a copy of it. -/
theorem Tells.kept_ne {key : ν → κ} (h : L.Tells key) (hlinked : L.Linked a v)
    (hrecord : L.record? v = some record) {other : ν} (hkept : L.Linked a u)
    (hne : some v ≠ some u) (hother : L.record? u = some other) : key other ≠ key record := by
  intro hsame
  exact hne (congrArg some (h hlinked hkept hrecord hother hsame.symm))

/-- A new version is told apart from what its owner keeps. -/
theorem Tells.place {key : ν → κ} (h : L.Tells key) (hunlinked : ∀ b, ¬L.Linked b v)
    (hkey : ∀ {u other}, L.Linked a u → old ≠ some u → L.record? u = some other →
      key other ≠ key record) : (L.place a old v record).Tells key := by
  intro b u u' other other' hu hu' hother hother' hsame
  -- Old versions were told apart before, and the new one is told apart from them by `hkey`.
  rw [linked_place] at hu hu'
  rw [record?_place] at hother hother'
  grind [Tells]

theorem Uses.place [Versioned ν] {used : String → Prop} (h : L.Uses used) (hv : used v.text)
    (hentity : used (Versioned.entity record).text) : (L.place a old v record).Uses used := by
  refine h.step id fun {u other} hother => ?_
  rw [record?_place] at hother
  split at hother
  · next huv =>
    subst huv
    cases hother
    exact .inr ⟨hv, hentity⟩
  · exact .inl ⟨other, hother, rfl⟩

theorem All.place {P : ν → Prop} (h : L.All P) (hrecord : P record) :
    (L.place a old v record).All P := by
  refine h.step fun {u other} hother => ?_
  rw [record?_place] at hother
  split at hother
  · cases hother
    exact .inr hrecord
  · exact .inl ⟨other, hother, id⟩

/-- A new version agrees with those of the same thing that there are. -/
theorem Agrees.place [Versioned ν] {key : ν → κ} (h : L.Agrees key)
    (hkey : ∀ {u other}, L.record? u = some other →
      Versioned.entity other = Versioned.entity record → key other = key record) :
    (L.place a old v record).Agrees key := by
  intro u u' other other' hother hother' hsame
  rw [record?_place] at hother hother'
  grind [Agrees]

end Layer

end VersionedTables
