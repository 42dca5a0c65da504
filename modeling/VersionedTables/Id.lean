import Std.Data.ExtTreeMap

/-!
# Identifiers the database hands out

Three kinds of thing carry an identifier that nobody chose: a revision, one physical *version* of
a table or row, and the *entity* all versions of one table or row have in common. The kinds share
one representation and differ in type, so an identifier of one kind cannot stand for another.
-/

namespace VersionedTables

/-- What an identifier identifies. -/
inductive IdKind where
  /-- A revision of a branch. -/
  | revision
  /-- One physical version of a table or of a row. -/
  | version
  /-- What every version of one table, or of one row, has in common. -/
  | entity
  deriving DecidableEq, Repr

/-- An identifier of the given kind. -/
structure Id (kind : IdKind) where
  /-- Its text, which means nothing by itself. -/
  text : String
  deriving DecidableEq, Repr

/-- Identifies a revision. -/
abbrev RevisionId := Id .revision

/-- Identifies one physical version of a table or row. No two versions ever share one, not even
after the first of them is gone. -/
abbrev VersionId := Id .version

/-- Identifies a table or row through all its versions. -/
abbrev EntityId := Id .entity

namespace Id

variable {kind : IdKind}

/-- Identifiers are listed by their texts. -/
instance : Ord (Id kind) where
  compare a b := compare a.text b.text

instance : Std.TransOrd (Id kind) where
  eq_swap {a b} := @Std.OrientedCmp.eq_swap String compare _ a.text b.text
  isLE_trans {a b c} h₁ h₂ :=
    @Std.TransCmp.isLE_trans String compare _ a.text b.text c.text h₁ h₂

instance : Std.LawfulEqOrd (Id kind) where
  eq_of_compare {a b} h := by
    obtain ⟨a⟩ := a
    obtain ⟨b⟩ := b
    exact congrArg _ (@Std.LawfulEqCmp.eq_of_compare String compare _ a b h)

end Id

end VersionedTables
