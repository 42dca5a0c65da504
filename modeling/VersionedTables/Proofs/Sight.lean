import VersionedTables.Proofs.Changes.Branches
import VersionedTables.Proofs.Twins

/-!
# What is in sight

What can be reached from the revisions of a graph is in sight, and the rest is debris. Two graphs have
the same in sight (`Graph.SameSight`) just when sweeping leaves the same of them, and two stores that
commands have made are twins then (`Store.Sound.twins`): they differ in debris only, and whoever holds a
row in sight besides its debris is an anchor.
-/

namespace VersionedTables

/-! ## Graphs -/

namespace Graph

variable {g g' : Graph}

/-- The same can be reached from the revisions of two graphs. -/
structure SameSight (g g' : Graph) : Prop where
  lines_eq : g'.lines = g.lines
  shows_iff : ∀ {r v}, g'.tables.Linked r v ↔ g.tables.Linked r v
  table?_eq : ∀ {r v}, g.tables.Linked r v → g'.tables.record? v = g.tables.record? v
  holds_iff : ∀ {r v u}, g.tables.Linked r v → (g'.rows.Linked v u ↔ g.rows.Linked v u)
  row?_eq : ∀ {r v u}, g.tables.Linked r v → g.rows.Linked v u →
    g'.rows.record? u = g.rows.record? u

/-- What is left after a sweep was in sight. -/
theorem SameSight.of_sweep (h : g'.sweep = g.sweep) : g.SameSight g' := by
  have hshows {r v} : g'.tables.Linked r v ↔ g.tables.Linked r v := by
    have hlinked := iff_of_eq (congrFun₂ (congrArg (fun g : Graph => g.tables.Linked) h) r v)
    rwa [sweep, sweep, Layer.linked_prune, Layer.linked_prune, and_iff_left trivial,
      and_iff_left trivial] at hlinked
  have hholds {r v u} (hv : g.tables.Linked r v) : g'.rows.Linked v u ↔ g.rows.Linked v u := by
    have hlinked := iff_of_eq (congrFun₂ (congrArg (fun g : Graph => g.rows.Linked) h) v u)
    rwa [sweep, sweep, Layer.linked_prune, Layer.linked_prune, and_iff_left ⟨r, hshows.mpr hv⟩,
      and_iff_left ⟨r, hv⟩] at hlinked
  have hlines : g'.sweep.lines = g.sweep.lines := by rw [h]
  refine ⟨hlines, hshows, fun {r v} hv => ?_, hholds, fun {r v u} hv hu => ?_⟩
  · have hrecord := congrFun (congrArg (fun g : Graph => g.tables.record?) h) v
    rwa [sweep, sweep, Layer.record?_prune_of_linked (hshows.mpr hv) trivial,
      Layer.record?_prune_of_linked hv trivial] at hrecord
  · have hrecord := congrFun (congrArg (fun g : Graph => g.rows.record?) h) u
    rwa [sweep, sweep, Layer.record?_prune_of_linked ((hholds hv).mpr hu) ⟨r, hshows.mpr hv⟩,
      Layer.record?_prune_of_linked hu ⟨r, hv⟩] at hrecord

/-- A sweep leaves nothing but what is in sight. -/
theorem SameSight.sweep_eq (h : g.SameSight g') : g'.sweep = g.sweep := by
  refine Graph.ext h.lines_eq (Layer.ext (funext fun v => ?_) (funext₂ fun r v => ?_))
    (Layer.ext (funext fun u => ?_) (funext₂ fun v u => ?_))
  · by_cases hv : ∃ r, g.tables.Linked r v
    · obtain ⟨r, hv⟩ := hv
      rw [sweep, sweep, Layer.record?_prune_of_linked (h.shows_iff.mpr hv) trivial,
        Layer.record?_prune_of_linked hv trivial, h.table?_eq hv]
    · rw [sweep, sweep, Layer.record?_prune_of_unlinked trivial, Layer.record?_prune_of_unlinked trivial]
      · exact fun r hr => hv ⟨r, hr.1⟩
      · exact fun r hr => hv ⟨r, h.shows_iff.mp hr.1⟩
  · rw [sweep, sweep, Layer.linked_prune, Layer.linked_prune, h.shows_iff]
  · by_cases hu : ∃ v r, g.rows.Linked v u ∧ g.tables.Linked r v
    · obtain ⟨v, r, hu, hv⟩ := hu
      rw [sweep, sweep,
        Layer.record?_prune_of_linked ((h.holds_iff hv).mpr hu) ⟨r, h.shows_iff.mpr hv⟩,
        Layer.record?_prune_of_linked hu ⟨r, hv⟩, h.row?_eq hv hu]
    · rw [sweep, sweep, Layer.record?_prune_of_unlinked trivial, Layer.record?_prune_of_unlinked trivial]
      · rintro v ⟨hv, r, hr⟩
        exact hu ⟨v, r, hv, hr⟩
      · rintro v ⟨hv, r, hr⟩
        have hr' := h.shows_iff.mp hr
        exact hu ⟨v, r, (h.holds_iff hr').mp hv, hr'⟩
  · have hseen : (∃ r, g'.tables.Linked r v) ↔ ∃ r, g.tables.Linked r v :=
      exists_congr fun r => h.shows_iff
    rw [sweep, sweep, Layer.linked_prune, Layer.linked_prune, hseen, eq_iff_iff]
    exact and_congr_left fun ⟨r, hv⟩ => h.holds_iff hv

/-- What is in sight is not swept away. -/
theorem sameSight_sweep : g.SameSight g.sweep where
  lines_eq := rfl
  shows_iff := Layer.linked_prune.trans (and_iff_left trivial)
  table?_eq hv := Layer.record?_prune_of_linked hv trivial
  holds_iff hv := Layer.linked_prune.trans (and_iff_left ⟨_, hv⟩)
  row?_eq hv hu := Layer.record?_prune_of_linked hu ⟨_, hv⟩

/-- A second sweep finds nothing. -/
theorem sweep_sweep : g.sweep.sweep = g.sweep :=
  sameSight_sweep.sweep_eq

end Graph

/-! ## Stores -/

namespace Store

variable {supply : Supply} {s s' : Store} {d : Debris}

/-- What has got out of sight of what was ever there. -/
def debris (s : Store) (supply : Supply) : Debris where
  tables v := supply.Drawn v.text ∧ ∀ id, ¬s.Shows id v
  rows u := supply.Drawn u.text ∧ ∀ id v, s.Shows id v → ¬s.Holds v u
  anchors v := s.graph.tables.Published v ∧ ∃ id, s.Shows id v
  anchors_seen hv hunseen := hv.2.elim hunseen.2

/-- Twins show the same. -/
theorem Twins.sameSight (h : s.Twins d s') : s.graph.SameSight s'.graph where
  lines_eq := Lines.ext (funext h.branch?_eq) (funext h.revision?_eq)
  shows_iff := by
    intro id v
    rw [graph_shows, graph_shows, Shows, Shows, h.revisionTables_eq]
  table?_eq hv := h.table?_eq (h.shown hv)
  holds_iff hv := h.holds_iff (h.shown hv)
  row?_eq hv hu := h.row?_eq (h.held (h.shown hv) hu)

/-- A table version is no debris if it is shown, or if it was never there. -/
theorem not_debris_tables {v : VersionId} :
    ¬(s.debris supply).tables v ↔ ¬supply.Drawn v.text ∨ ∃ id, s.Shows id v := by
  rw [← not_forall_not (p := fun id => s.Shows id v), ← not_and_or]
  rfl

/-- A row version is no debris if a table version that is shown holds it, or if it was never there. -/
theorem not_debris_rows {u : VersionId} :
    ¬(s.debris supply).rows u ↔ ¬supply.Drawn u.text ∨ ∃ id v, s.Shows id v ∧ s.Holds v u := by
  have hexists : (∃ id v, s.Shows id v ∧ s.Holds v u) ↔ ¬∀ id v, s.Shows id v → ¬s.Holds v u := by
    simp only [not_forall, not_not, exists_prop]
  rw [hexists, ← not_and_or]
  rfl

namespace Sound

variable (h : s.Sound supply) (h' : s'.Sound supply) (hsight : s.graph.SameSight s'.graph)
  {v u : VersionId}

include h h' hsight

theorem table?_eq_of_sameSight (hv : ¬(s.debris supply).tables v) : s'.table? v = s.table? v := by
  rcases not_debris_tables.mp hv with hdrawn | ⟨id, hshown⟩
  · exact (h'.table?_eq_none hdrawn).trans (h.table?_eq_none hdrawn).symm
  · exact hsight.table?_eq hshown

theorem row?_eq_of_sameSight (hu : ¬(s.debris supply).rows u) : s'.row? u = s.row? u := by
  rcases not_debris_rows.mp hu with hdrawn | ⟨id, v, hshown, hheld⟩
  · exact (h'.row?_eq_none hdrawn).trans (h.row?_eq_none hdrawn).symm
  · exact hsight.row?_eq hshown hheld

theorem holds_iff_of_sameSight (hv : ¬(s.debris supply).tables v) :
    s'.Holds v u ↔ s.Holds v u := by
  rcases not_debris_tables.mp hv with hdrawn | ⟨id, hshown⟩
  · -- What was never there holds nothing.
    refine ⟨fun hheld => ?_, fun hheld => ?_⟩
    · have hsome := h'.intact.holder_exists hheld
      rw [h'.table?_eq_none hdrawn] at hsome
      cases hsome
    · have hsome := h.intact.holder_exists hheld
      rw [h.table?_eq_none hdrawn] at hsome
      cases hsome
  · exact hsight.holds_iff hshown

/-- A row that is in sight and held by debris has two holders, so it is published. -/
theorem published_of_debris (hv : (s.debris supply).tables v) (hu : ¬(s.debris supply).rows u)
    (hheld : s.Holds v u ∨ s'.Holds v u) : s.graph.rows.Published u := by
  have hsame := h.row?_eq_of_sameSight h' hsight hu
  have hdrawn : supply.Drawn u.text := by
    by_contra hdrawn
    rcases hheld with hheld | hheld
    · have hsome := h.intact.held_exists hheld
      rw [h.row?_eq_none hdrawn] at hsome
      cases hsome
    · have hsome := h'.intact.held_exists hheld
      rw [h'.row?_eq_none hdrawn] at hsome
      cases hsome
  obtain ⟨id, x, hshown, hx⟩ := (not_debris_rows.mp hu).resolve_left (not_not_intro hdrawn)
  have hne : v ≠ x := fun heq => hv.2 id (heq ▸ hshown)
  by_contra hopen
  rcases hheld with hheld | hheld
  · exact hne (h.coherent.ownedRows.unique hheld hx hopen)
  · refine hne (h'.coherent.ownedRows.unique hheld ((hsight.holds_iff hshown).mpr hx) ?_)
    rintro ⟨row, hstored, hreadonly⟩
    exact hopen ⟨row, hsame.symm.trans hstored, hreadonly⟩

/-- Sound stores in which the same is in sight are twins. -/
theorem twins : s.Twins (s.debris supply) s' where
  orderly := h.intact.orderly
  orderly' := h'.intact.orderly
  branches_eq := (lines_eq_of_graph hsight.lines_eq).1
  revisions_eq := (lines_eq_of_graph hsight.lines_eq).2
  revisionTables_eq := h.intact.revisionTables_eq h'.intact fun _ _ => hsight.shows_iff
  table?_eq := h.table?_eq_of_sameSight h' hsight
  row?_eq := h.row?_eq_of_sameSight h' hsight
  holds_iff := h.holds_iff_of_sameSight h' hsight
  shown hshown hunseen := hunseen.2 _ hshown
  held {v u} hv hheld hu := by
    obtain ⟨table, htable⟩ := Option.isSome_iff_exists.mp (h.intact.holder_exists hheld)
    exact hv ⟨(h.uses.tables htable).1, fun id hshown => hu.2 id v hshown hheld⟩
  locked hanchor := hanchor.1
  kept hv hu hheld := by
    obtain ⟨a, ha, hau⟩ := h.coherent.anchoredRows (h.published_of_debris h' hsight hv hu hheld)
    obtain ⟨id, -, hshown⟩ := h.coherent.anchoredTables ha
    exact ⟨a, ⟨ha, id, hshown⟩, hau⟩

end Sound

/-- A store is sound whatever the clock shows. -/
theorem Sound.of_draws {supply' : Supply} (h : s.Sound supply) (hids : supply'.ids = supply.ids)
    (hdrawn : supply'.drawn = supply.drawn) : s.Sound supply' := by
  obtain ⟨ids, clock, drawn, readings⟩ := supply'
  obtain rfl : ids = supply.ids := hids
  obtain rfl : drawn = supply.drawn := hdrawn
  exact ⟨h.intact, h.coherent, h.uses, h.distinct⟩

/-- Debris was there before. -/
theorem Sound.uses_debris (h : s.Sound supply) : (s.debris supply).Uses supply.Drawn where
  tables hv := hv.1
  rows hu := hu.1
  anchors hv := by
    obtain ⟨⟨table, htable, -⟩, -⟩ := hv
    exact (h.uses.tables htable).1

end Store

end VersionedTables
