import VersionedTables.Fault

/-!
# The place of a file

All a database knows of the file system is one path, and what is there. A file is replaced as a
whole or not at all. Writing can fail for reasons nobody here knows; `refuses` says which attempts
do, so that a statement about all disks covers every pattern of failures.
-/

namespace VersionedTables

/-- What can be found at a path. -/
inductive Entry where
  /-- Nothing. -/
  | absent
  /-- A file with this text. -/
  | file (text : String)
  /-- A directory. -/
  | directory
  deriving DecidableEq, Repr

/-- A path, and what is there. -/
structure Disk where
  /-- The path. -/
  path : String
  /-- What is there. -/
  entry : Entry := .absent
  /-- Which attempts to write fail, whatever is there. -/
  refuses : Nat → Bool := fun _ => false
  /-- How many attempts to write there were. -/
  attempts : Nat := 0

namespace Disk

/-- Whether anything is there. -/
def isPresent (d : Disk) : Bool :=
  d.entry ≠ .absent

/-- The text of the file that is there. -/
def read (d : Disk) : Except StoreFault String :=
  match d.entry with
  | .file text => .ok text
  | _ => .error .io

/-- Whether the next attempt to write fails: no file can take the place of a directory. -/
def refusesNext (d : Disk) : Bool :=
  d.entry = .directory || d.refuses d.attempts

/-- Puts a file with this text in the place of what was there. -/
def write (d : Disk) (text : String) : Except StoreFault Unit × Disk :=
  let d' := { d with attempts := d.attempts + 1 }
  if d.refusesNext then (.error (.notReplaced d.path), d')
  else (.ok (), { d' with entry := .file text })

end Disk

end VersionedTables
