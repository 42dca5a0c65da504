import VersionedTables.Fault

/-!
# History

The committed revisions of a branch, from its head back to its first one. The walk follows parents
and stops behind the first revision of the branch, at a revision of another branch, or where a
parent is missing.

Nothing stops a stored database from holding revisions that are their own ancestors. A walk that
asks for so many revisions ends all the same; a walk without limit has no end there, and
`Store.history` then answers `none`. It is enough to look as far as there are revisions: a walk
that gets further has come to some revision for a second time.
-/

namespace VersionedTables

namespace Store

/-- Where the walk goes from a revision. -/
def previous? (s : Store) (branch : BranchName) (revision : Revision) : Option Revision :=
  if revision.isStart || revision.branch ≠ branch then none
  else revision.parent.bind s.revision?

/-- Walks back from a revision, at most so many steps: the revisions of the branch it came by, and
where it would go on. -/
def walkBack (s : Store) (branch : BranchName) :
    (steps : Nat) → Option Revision → List Revision × Option Revision
  | _, none => ([], none)
  | 0, some revision => ([], some revision)
  | steps + 1, some revision =>
    let (rest, left) := walkBack s branch steps (s.previous? branch revision)
    (if revision.branch = branch then revision :: rest else rest, left)

/-- The committed revisions of a branch, the newest first, at most `limit` of them; `none` when
there is no limit and the walk has no end. -/
def history (s : Store) (branch : BranchName) (limit : Option Nat) :
    Except CommandFault (Option (List Revision)) :=
  match s.branch? branch with
  | none => .error (.branchNotFound branch)
  | some _ =>
    match s.findRevision branch .head with
    | none => .error .noHead
    | some head =>
      match limit with
      | some limit => .ok (some (s.walkBack branch limit (some head)).1)
      | none =>
        match s.walkBack branch s.revisions.size (some head) with
        | (revisions, none) => .ok (some revisions)
        | (_, some _) => .ok none

end Store

end VersionedTables
