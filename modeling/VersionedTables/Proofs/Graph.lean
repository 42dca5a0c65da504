import VersionedTables.Proofs.Edit
import VersionedTables.Proofs.Layer

/-!
# The version graph

What can be seen of a store, as functions and relations: the branches and revisions
(`Graph.lines`), and the two layers below them (`Graph.tables`, `Graph.rows`). `Store.graph` takes a
store there, and every elementary change of a store is the change of the same name of its graph
(`Store.graph_putRow` and its companions). What an edit does is then said by one equation between
the graph before and the graph after, and an invariant of a command is an invariant of that
equation's right-hand side.
-/

namespace VersionedTables

/-! ## Elementary changes of a layer -/

namespace Layer

variable {α ν : Type} (L : Layer α ν)

/-- Keeps a record for a version. -/
def put (v : VersionId) (record : ν) : Layer α ν :=
  { L with record? := fun u => if u = v then some record else L.record? u }

/-- Forgets the record of a version. -/
def drop (v : VersionId) : Layer α ν :=
  { L with record? := fun u => if u = v then none else L.record? u }

/-- Sets or removes one link. -/
def link [DecidableEq α] (a : α) (v : VersionId) (linked : Bool) : Layer α ν :=
  { L with Linked := fun b u => if b = a ∧ u = v then linked = true else L.Linked b u }

variable {L} {a b : α} {u v : VersionId} {record : ν} {linked : Bool}

@[simp] theorem record?_put :
    (L.put v record).record? u = if u = v then some record else L.record? u := rfl

@[simp] theorem linked_put : (L.put v record).Linked b u ↔ L.Linked b u := Iff.rfl

@[simp] theorem record?_drop : (L.drop v).record? u = if u = v then none else L.record? u := rfl

@[simp] theorem linked_drop : (L.drop v).Linked b u ↔ L.Linked b u := Iff.rfl

variable [DecidableEq α]

@[simp] theorem record?_link : (L.link a v linked).record? u = L.record? u := rfl

@[simp] theorem linked_link :
    (L.link a v linked).Linked b u ↔ if b = a ∧ u = v then linked = true else L.Linked b u :=
  Iff.rfl

/-- Putting a fresh version, letting go of the old one and linking the new one. -/
theorem place_some :
    ((L.put v record).link a u false).link a v true = L.place a (some u) v record := by
  ext x y
  · rfl
  · simp only [linked_link, linked_put, linked_place]
    grind

/-- Putting a fresh version and linking it. -/
theorem place_none : (L.put v record).link a v true = L.place a none v record := by
  ext x y
  · rfl
  · simp only [linked_link, linked_put, linked_place]
    grind

end Layer

/-! ## Graphs -/

/-- The branches and revisions there are. -/
@[ext] structure Lines where
  /-- The branch of a name. -/
  branch? : BranchName → Option Branch
  /-- The revision with an identifier. -/
  revision? : RevisionId → Option Revision

namespace Lines

variable (l : Lines)

/-- Keeps a branch under its name. -/
def putBranch (record : Branch) : Lines :=
  { l with branch? := fun name => if name = record.name then some record else l.branch? name }

/-- Keeps a revision under its identifier. -/
def putRevision (record : Revision) : Lines :=
  { l with revision? := fun id => if id = record.id then some record else l.revision? id }

/-- A revision is there and cannot be edited. -/
def Published (id : RevisionId) : Prop :=
  ∃ revision, l.revision? id = some revision ∧ revision.isDraft = false

variable {l}

@[simp] theorem branch?_putBranch {record : Branch} {name : BranchName} :
    (l.putBranch record).branch? name = if name = record.name then some record else l.branch? name :=
  rfl

@[simp] theorem revision?_putBranch {record : Branch} {id : RevisionId} :
    (l.putBranch record).revision? id = l.revision? id := rfl

@[simp] theorem branch?_putRevision {record : Revision} {name : BranchName} :
    (l.putRevision record).branch? name = l.branch? name := rfl

@[simp] theorem revision?_putRevision {record : Revision} {id : RevisionId} :
    (l.putRevision record).revision? id = if id = record.id then some record else l.revision? id :=
  rfl

theorem putRevision_self {record : Revision} (h : l.revision? record.id = some record) :
    l.putRevision record = l := by
  ext id : 2
  · rfl
  · rw [revision?_putRevision]
    split
    · next hid => rw [hid, h]
    · rfl

end Lines

/-- What can be seen of a store. -/
@[ext] structure Graph where
  /-- The branches and revisions. -/
  lines : Lines
  /-- Table versions, linked by revisions. -/
  tables : Layer RevisionId TableVersion
  /-- Row versions, linked by table versions. -/
  rows : Layer VersionId RowVersion

namespace Graph

variable (g : Graph)

/-- The graph with other branches and revisions. -/
@[simps] def withLines (lines : Lines) : Graph := ⟨lines, g.tables, g.rows⟩

/-- The graph with another layer of tables. -/
@[simps] def withTables (tables : Layer RevisionId TableVersion) : Graph := ⟨g.lines, tables, g.rows⟩

/-- The graph with another layer of rows. -/
@[simps] def withRows (rows : Layer VersionId RowVersion) : Graph := ⟨g.lines, g.tables, rows⟩

variable {g} {lines : Lines} {tables : Layer RevisionId TableVersion}
  {rows rows' : Layer VersionId RowVersion}

@[simp] theorem withLines_self : g.withLines g.lines = g := rfl

@[simp] theorem withTables_self : g.withTables g.tables = g := rfl

@[simp] theorem withRows_self : g.withRows g.rows = g := rfl

@[simp] theorem withRows_withRows : (g.withRows rows).withRows rows' = g.withRows rows' := rfl

end Graph

/-- What can be seen of a store. -/
def Store.graph (s : Store) : Graph :=
  ⟨⟨s.branch?, s.revision?⟩, ⟨s.table?, s.Shows⟩, ⟨s.row?, s.Holds⟩⟩

/-- What can be seen of the store of a workspace. -/
abbrev Workspace.graph (w : Workspace) : Graph :=
  w.store.graph

namespace Workspace

variable {w : Workspace} {v : VersionId}

theorem branch?_eq {name : BranchName} : w.store.branch? name = w.graph.lines.branch? name := rfl

theorem revision?_eq {id : RevisionId} : w.store.revision? id = w.graph.lines.revision? id := rfl

theorem table?_eq : w.store.table? v = w.graph.tables.record? v := rfl

theorem row?_eq : w.store.row? v = w.graph.rows.record? v := rfl

end Workspace

namespace Store

variable (s : Store)

@[simp] theorem graph_branch? (name : BranchName) : s.graph.lines.branch? name = s.branch? name :=
  rfl

@[simp] theorem graph_revision? (id : RevisionId) : s.graph.lines.revision? id = s.revision? id :=
  rfl

@[simp] theorem graph_table? (v : VersionId) : s.graph.tables.record? v = s.table? v := rfl

@[simp] theorem graph_shows (id : RevisionId) (v : VersionId) :
    s.graph.tables.Linked id v ↔ s.Shows id v := Iff.rfl

@[simp] theorem graph_row? (v : VersionId) : s.graph.rows.record? v = s.row? v := rfl

@[simp] theorem graph_holds (v u : VersionId) : s.graph.rows.Linked v u ↔ s.Holds v u := Iff.rfl

/-- Branches and revisions are all there is to the lines of a graph. -/
theorem lines_eq_of_graph {s s' : Store} (h : s'.graph.lines = s.graph.lines) :
    s'.branches = s.branches ∧ s'.revisions = s.revisions :=
  ⟨Std.ExtTreeMap.ext_getElem? fun {name} => congrFun (congrArg Lines.branch? h) name,
    Std.ExtTreeMap.ext_getElem? fun {id} => congrFun (congrArg Lines.revision? h) id⟩

/-! ### Elementary changes -/

theorem graph_putBranch (record : Branch) :
    (s.putBranch record).graph =
      s.graph.withLines (s.graph.lines.putBranch record) := by
  ext <;> simp

theorem graph_putRevision (record : Revision) :
    (s.putRevision record).graph =
      s.graph.withLines (s.graph.lines.putRevision record) := by
  ext <;> simp

theorem graph_putTable (record : TableVersion) :
    (s.putTable record).graph =
      s.graph.withTables (s.graph.tables.put record.version record) := by
  ext <;> simp

theorem graph_dropTable (version : VersionId) :
    (s.dropTable version).graph = s.graph.withTables (s.graph.tables.drop version) := by
  ext <;> simp

theorem graph_putRow (record : RowVersion) :
    (s.putRow record).graph =
      s.graph.withRows (s.graph.rows.put record.version record) := by
  ext <;> simp

theorem graph_dropRow (version : VersionId) :
    (s.dropRow version).graph = s.graph.withRows (s.graph.rows.drop version) := by
  ext <;> simp

theorem graph_linkTable (revision : RevisionId) (table : VersionId) (linked : Bool) :
    (s.linkTable revision table linked).graph =
      s.graph.withTables (s.graph.tables.link revision table linked) := by
  ext <;> simp

theorem graph_linkRow (table row : VersionId) (linked : Bool) :
    (s.linkRow table row linked).graph =
      s.graph.withRows (s.graph.rows.link table row linked) := by
  ext <;> simp

end Store

end VersionedTables
