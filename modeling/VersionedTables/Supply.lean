import VersionedTables.Id
import VersionedTables.Instant

/-!
# What the world supplies

A database draws two things from outside: identifiers that nobody has used yet, and readings of a
clock. Both are kept as data: a `Supply` is an endless sequence of each, with a count of how many
have been taken. A run of commands is then a function of its supply, and a statement about all
runs is a statement about all supplies. No order is asked of the readings; that the identifiers
differ is `Supply.Distinct`.
-/

namespace VersionedTables

/-- Fresh identifiers and clock readings. -/
structure Supply where
  /-- The text of the `n`th identifier. -/
  ids : Nat → String
  /-- The `n`th reading of the clock. -/
  clock : Nat → Instant
  /-- How many identifiers have been drawn. -/
  drawn : Nat := 0
  /-- How often the clock was read. -/
  readings : Nat := 0

namespace Supply

/-- No identifier is handed out twice. -/
def Distinct (s : Supply) : Prop :=
  ∀ m n, s.ids m = s.ids n → m = n

/-- Draws an identifier. -/
def drawId (kind : IdKind) (s : Supply) : Id kind × Supply :=
  (⟨s.ids s.drawn⟩, { s with drawn := s.drawn + 1 })

/-- Reads the clock. -/
def readClock (s : Supply) : Instant × Supply :=
  (s.clock s.readings, { s with readings := s.readings + 1 })

@[simp] theorem drawId_fst (kind : IdKind) (s : Supply) :
    (s.drawId kind).1 = ⟨s.ids s.drawn⟩ := rfl

@[simp] theorem drawId_snd (kind : IdKind) (s : Supply) :
    (s.drawId kind).2 = { s with drawn := s.drawn + 1 } := rfl

@[simp] theorem readClock_fst (s : Supply) : s.readClock.1 = s.clock s.readings := rfl

@[simp] theorem readClock_snd (s : Supply) :
    s.readClock.2 = { s with readings := s.readings + 1 } := rfl

end Supply

end VersionedTables
