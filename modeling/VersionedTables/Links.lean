import Std.Data.ExtTreeMap
import Std.Data.ExtTreeSet

/-!
# Links

A relation between two kinds of things that can be followed in both directions. It is kept twice,
once from each end, and both sides are changed together. A side is a map to sets of partners and
stays *canonical*: a thing without partners has no entry, rather than an empty one, so that equal
relations are equal as data.
-/

namespace VersionedTables

open Std

/-- One side of a relation: the partners of each thing that has any. -/
abbrev Side (α β : Type) [Ord α] [TransOrd α] [Ord β] [TransOrd β] : Type :=
  ExtTreeMap α (ExtTreeSet β compare) compare

namespace Side

variable {α β : Type} [Ord α] [TransOrd α] [Ord β] [TransOrd β]

/-- The partners of `a`, in order. -/
def partners (side : Side α β) (a : α) : List β :=
  (side.getD a ∅).toList

/-- Whether `b` is a partner of `a`. -/
def holds (side : Side α β) (a : α) (b : β) : Bool :=
  (side.getD a ∅).contains b

/-- Makes `b` a partner of `a`. -/
def add (side : Side α β) (a : α) (b : β) : Side α β :=
  side.insert a ((side.getD a ∅).insert b)

/-- Makes `b` no partner of `a` any more. An entry that has become empty is dropped. -/
def remove (side : Side α β) (a : α) (b : β) : Side α β :=
  match side[a]? with
  | none => side
  | some partners =>
    let left := partners.erase b
    if left.isEmpty then side.erase a else side.insert a left

/-- The other side of the same relation. -/
def opposite (side : Side α β) : Side β α :=
  side.foldl (fun other a partners => partners.foldl (fun other b => other.add b a) other) ∅

end Side

/-- A relation, kept from both ends. -/
structure Links (α β : Type) [Ord α] [TransOrd α] [Ord β] [TransOrd β] where
  /-- From the first things to the second. -/
  forward : Side α β
  /-- From the second things to the first. -/
  backward : Side β α

namespace Links

variable {α β : Type} [Ord α] [TransOrd α] [Ord β] [TransOrd β]

/-- No links. -/
def empty : Links α β := ⟨∅, ∅⟩

instance : EmptyCollection (Links α β) := ⟨empty⟩

/-- The links that one side tells of. -/
def ofForward (forward : Side α β) : Links α β :=
  ⟨forward, forward.opposite⟩

/-- What `a` links, in order. -/
def targets (links : Links α β) (a : α) : List β :=
  links.forward.partners a

/-- What links `b`, in order. -/
def sources (links : Links α β) (b : β) : List α :=
  links.backward.partners b

/-- Whether `a` links `b`. -/
def contains (links : Links α β) (a : α) (b : β) : Bool :=
  links.forward.holds a b

/-- Sets or removes the link from `a` to `b`. -/
def set (links : Links α β) (a : α) (b : β) (linked : Bool) : Links α β :=
  if linked then ⟨links.forward.add a b, links.backward.add b a⟩
  else ⟨links.forward.remove a b, links.backward.remove b a⟩

end Links

end VersionedTables
