import VersionedTables.Proofs.Edit.Drafts

/-!
# Deleting versions

What deleting does to the graph. Deleting a version that nobody links, and leaving one that somebody
does, is one and the same change of a layer (`Layer.prune`), so that a loop which deletes whatever it
may is that change for all versions of its list at once (`Layer.prune_prune`).
-/

namespace VersionedTables

open Std

/-! ## Dropping in several steps -/

namespace Layer

variable {α ν : Type} {L : Layer α ν} {a : α} {v : VersionId}
  {Keeps : α → VersionId → Prop} {MayDrop MayDrop' : VersionId → Prop}

/-- Layers are the same when they have the same records and the same links. -/
theorem ext_iff_linked {L L' : Layer α ν} (hrecord : ∀ u, L.record? u = L'.record? u)
    (hlinked : ∀ b u, L.Linked b u ↔ L'.Linked b u) : L = L' :=
  Layer.ext (funext hrecord) (funext fun b => funext fun u => propext (hlinked b u))

theorem link_false [DecidableEq α] :
    L.link a v false = L.prune (fun b u => ¬(b = a ∧ u = v)) (fun _ => False) := by
  refine ext_iff_linked (fun u => by simp [prune]) fun b u => ?_
  rw [linked_link, linked_prune]
  split
  · next heq => simp [heq]
  · next hne => simp [hne]

theorem prune_prune :
    (L.prune Keeps MayDrop).prune (fun _ _ => True) MayDrop' =
      L.prune Keeps fun v => MayDrop v ∨ MayDrop' v := by
  classical
  refine ext_iff_linked (fun u => ?_) fun b u => by simp [linked_prune]
  by_cases hunlinked : ∀ a, ¬(L.Linked a u ∧ Keeps a u)
  · by_cases hdrop : MayDrop u <;> simp [prune, hunlinked, hdrop]
  · simp only [prune, hunlinked, and_true, and_false, if_false]

/-- Two relations of links that are kept, one after the other. -/
theorem prune_keeps {Keeps' : α → VersionId → Prop} :
    (L.prune Keeps fun _ => False).prune Keeps' (fun _ => False) =
      L.prune (fun a v => Keeps a v ∧ Keeps' a v) fun _ => False :=
  ext_iff_linked (fun u => by simp [prune]) fun b u => by simp [linked_prune, and_assoc]

/-- It only matters which links are kept of those there are, and which versions may be dropped of
those that are stored. -/
theorem prune_congr {Keeps' : α → VersionId → Prop}
    (hkeeps : ∀ {a v}, L.Linked a v → (Keeps a v ↔ Keeps' a v))
    (hdrop : ∀ {v record}, L.record? v = some record → (MayDrop v ↔ MayDrop' v)) :
    L.prune Keeps MayDrop = L.prune Keeps' MayDrop' := by
  classical
  have hlinked (b : α) (u : VersionId) : L.Linked b u ∧ Keeps b u ↔ L.Linked b u ∧ Keeps' b u :=
    and_congr_right hkeeps
  refine ext_iff_linked (fun u => ?_) hlinked
  rcases hrecord : L.record? u with _ | record
  · simp [prune, hrecord]
  · simp only [prune, hrecord, hlinked, hdrop hrecord]

theorem prune_nothing : L.prune (fun _ _ => True) (fun _ => False) = L :=
  ext_iff_linked (fun u => by simp [prune]) fun b u => by simp [linked_prune]

/-- A version that nobody links is dropped. -/
theorem drop_eq_prune (h : ∀ a, ¬L.Linked a v) :
    L.drop v = L.prune (fun _ _ => True) (· = v) := by
  refine ext_iff_linked (fun u => ?_) fun b u => by simp [linked_prune]
  rw [record?_drop]
  split
  · next hu =>
    subst hu
    exact (if_pos ⟨rfl, fun a ha => h a ha.1⟩).symm
  · next hu => exact (if_neg fun hdrop => hu hdrop.1).symm

/-- A version that somebody links is not. -/
theorem eq_prune_of_linked (h : L.Linked a v) : L = L.prune (fun _ _ => True) (· = v) := by
  refine ext_iff_linked (fun u => ?_) fun b u => by simp [linked_prune]
  by_cases hu : u = v
  · subst hu
    exact (record?_prune_of_linked h trivial).symm
  · exact (if_neg fun hdrop => hu hdrop.1).symm

end Layer

/-! ## Writes -/

/-- What is seen after unlinking the rows of a table version. -/
theorem Transaction.graph_unlinkRows (t : Transaction) (v : VersionId) :
    (t.unlinkRows v).store.graph = t.store.graph.withRows
      (t.store.graph.rows.prune (fun b _ => b ≠ v) (fun _ => False)) := by
  obtain ⟨hbranch, hrevision, htable, hrow, hshows⟩ :=
    others_foldl_linkRow v (t.store.tableRows.targets v) t
  refine Graph.ext ?_ ?_ ?_
  · exact congrArg₂ Lines.mk hbranch hrevision
  · exact congrArg₂ Layer.mk htable hshows
  · refine Layer.ext_iff_linked (fun u => ?_) fun b u => ?_
    · rw [Graph.withRows_rows, Layer.record?_prune_of_not id]
      exact congrFun hrow u
    · rw [Store.graph_holds, holds_unlinkRows, and_comm]
      rfl

namespace Edit

variable {w : Workspace} {u v : VersionId}

/-- A table version that no revision shows is deleted, and its rows are let go of. -/
theorem deleteTable_yields (h : w.store.Intact) (hstored : ∃ table, w.store.table? v = some table)
    (hunshown : ∀ id, ¬w.store.Shows id v) :
    (take (·.deleteTable v)).Yields w fun _ w' => w'.graph = (w.graph.withTables
        (w.graph.tables.prune (fun _ _ => True) (· = v))).withRows
        (w.graph.rows.prune (fun b _ => b ≠ v) (fun _ => False)) ∧ w'.supply = w.supply := by
  obtain ⟨table, htable⟩ := hstored
  refine yields_take.mpr ⟨table, _, Transaction.deleteTable_eq_ok.mpr
    ⟨htable, h.revisionsOf_eq_nil_iff.mpr hunshown, rfl⟩, ?_, rfl⟩
  rw [← Layer.drop_eq_prune hunshown]
  refine (Store.graph_dropTable _ _).trans ?_
  rw [Transaction.graph_unlinkRows]
  rfl

/-- A row version is deleted unless something holds it. -/
theorem deleteRowIfUnheld_yields (h : w.store.Intact) (hstored : ∃ row, w.store.row? u = some row) :
    (deleteRowIfUnheld u).Yields w fun deleted w' =>
      w'.graph = w.graph.withRows (w.graph.rows.prune (fun _ _ => True) (· = u)) ∧
        w'.supply = w.supply ∧ (deleted = true ↔ ∀ v, ¬w.graph.rows.Linked v u) := by
  simp only [deleteRowIfUnheld, yields_bind, yields_store]
  rw [yields_ite]
  split
  · next hempty =>
    have hunheld := List.isEmpty_iff.mp hempty
    have hunlinked := h.tablesHolding_eq_nil_iff.mp hunheld
    obtain ⟨row, hrow⟩ := hstored
    refine yields_bind.mpr (yields_take.mpr ⟨row, _,
      Transaction.deleteRow_eq_ok.mpr ⟨hrow, hunheld, rfl⟩,
      yields_pure.mpr ⟨?_, rfl, iff_of_true rfl hunlinked⟩⟩)
    rw [← Layer.drop_eq_prune hunlinked]
    exact Store.graph_dropRow _ _
  · next hheld =>
    rw [List.isEmpty_iff, h.tablesHolding_eq_nil_iff] at hheld
    simp only [not_forall, not_not] at hheld
    obtain ⟨b, hb⟩ := hheld
    refine yields_pure.mpr ⟨?_, rfl, iff_of_false Bool.false_ne_true fun hunlinked => hunlinked b hb⟩
    rw [← Layer.eq_prune_of_linked (L := w.graph.rows) hb, Graph.withRows_self]

/-- What a filter keeps of a list, when it keeps the first item just when it has a property, and of the
rest just what has it. -/
theorem mem_filtered {α : Type} {P : α → Prop} {first : α} {rest rest' : List α} {kept : Bool}
    (hfirst : kept = true ↔ P first) (hrest : ∀ a, a ∈ rest' ↔ a ∈ rest ∧ P a) {a : α} :
    a ∈ (if kept then first :: rest' else rest') ↔ a ∈ first :: rest ∧ P a := by
  by_cases hkept : kept = true
  · have hP := hfirst.mp hkept
    rw [if_pos hkept, List.mem_cons, List.mem_cons, hrest, or_and_right]
    exact or_congr_left ⟨fun heq => ⟨heq, heq ▸ hP⟩, And.left⟩
  · have hP : ¬P first := fun hP => hkept (hfirst.mpr hP)
    rw [if_neg hkept, hrest, List.mem_cons, or_and_right]
    exact (or_iff_right fun ⟨heq, ha⟩ => hP (heq ▸ ha)).symm

/-- What a filter keeps of a list stands there in the same order. -/
theorem filterM_yields_sublist {α : Type} {f : α → Edit Bool} {items : List α}
    {Q : List α → Workspace → Prop} (h : (items.filterM f).Yields w Q) :
    (items.filterM f).Yields w fun kept w' => kept.Sublist items ∧ Q kept w' := by
  induction items generalizing w Q with
  | nil =>
    rw [yields_filterM_nil] at h ⊢
    exact ⟨List.Sublist.refl [], h⟩
  | cons first rest ih =>
    rw [yields_filterM_cons] at h ⊢
    refine h.imp ?_
    intro kept w₁ hrest
    refine (ih hrest).imp ?_
    intro values w₂ ⟨hsublist, hQ⟩
    refine ⟨?_, hQ⟩
    cases kept
    · exact hsublist.cons first
    · exact hsublist.cons_cons first

/-- All row versions of a list are deleted unless something holds them. -/
theorem deleteRowsIfUnheld_yields {items : List VersionId} (h : w.store.Intact)
    (hnodup : items.Nodup) (hstored : ∀ u ∈ items, ∃ row, w.store.row? u = some row) :
    (items.filterM deleteRowIfUnheld).Yields w fun deleted w' =>
      w'.graph = w.graph.withRows (w.graph.rows.prune (fun _ _ => True) (· ∈ items)) ∧
        w'.supply = w.supply ∧
        ∀ u, u ∈ deleted ↔ u ∈ items ∧ ∀ v, ¬w.graph.rows.Linked v u := by
  induction items generalizing w with
  | nil =>
    refine yields_filterM_nil.mpr ⟨?_, rfl, by simp⟩
    simp only [List.not_mem_nil, Layer.prune_nothing, Graph.withRows_self]
  | cons first rest ih =>
    obtain ⟨hfirst, hnodup⟩ := List.nodup_cons.mp hnodup
    have hdelete := deleteRowIfUnheld_yields h (hstored first (by simp))
    refine yields_filterM_cons.mpr (((Makes.deleteRowIfUnheld first).journaled.keeps h hdelete).imp ?_)
    rintro deleted w₁ ⟨hkeeps, hgraph, hsupply, hdeleted⟩
    refine (ih hkeeps.1 hnodup fun u hu => ?_).imp ?_
    · obtain ⟨row, hrow⟩ := hstored u (List.mem_cons_of_mem _ hu)
      refine ⟨row, ?_⟩
      rw [Workspace.row?_eq, hgraph, Graph.withRows_rows, Layer.record?_prune_of_not]
      · exact hrow
      · rintro rfl
        exact hfirst hu
    · rintro rest' w₂ ⟨hgraph', hsupply', hrest⟩
      refine ⟨?_, hsupply'.trans hsupply, fun u => ?_⟩
      · rw [hgraph', hgraph, Graph.withRows_withRows, Graph.withRows_rows, Layer.prune_prune]
        simp only [List.mem_cons]
      · simp only [hgraph, Graph.withRows_rows, Layer.linked_prune, and_true] at hrest
        rw [mem_filtered hdeleted hrest]

/-! ## Collecting garbage -/

/-- A table version is deleted unless a revision shows it. -/
theorem deleteTableIfUnshown_yields (h : w.store.Intact)
    (hstored : ∃ table, w.store.table? v = some table) :
    (deleteTableIfUnshown v).Yields w fun deleted w' => w'.graph = (w.graph.withTables
        (w.graph.tables.prune (fun _ _ => True) (· = v))).withRows
        (w.graph.rows.prune (fun b _ => b = v → ∃ id, w.graph.tables.Linked id b)
          (fun _ => False)) ∧ w'.supply = w.supply ∧
        (deleted = true ↔ ∀ id, ¬w.graph.tables.Linked id v) := by
  simp only [deleteTableIfUnshown, yields_bind, yields_store]
  rw [yields_ite]
  split
  · next hempty =>
    have hunshown := h.revisionsOf_eq_nil_iff.mp (List.isEmpty_iff.mp hempty)
    refine yields_bind.mpr ((deleteTable_yields h hstored hunshown).imp ?_)
    rintro - w' ⟨hgraph, hsupply⟩
    -- A version that nobody shows loses all its rows, and one that is shown keeps them: both are
    -- the same condition on its links.
    have hkeeps : (fun (b : VersionId) (_ : VersionId) => b ≠ v) =
        fun b _ => b = v → ∃ id, w.graph.tables.Linked id b := by
      ext b u
      refine imp_congr_right fun hb => iff_of_false id ?_
      rintro ⟨id, hid⟩
      exact hunshown id (hb ▸ hid)
    exact yields_pure.mpr ⟨by rw [hgraph, hkeeps], hsupply, iff_of_true rfl hunshown⟩
  · next hshown =>
    rw [List.isEmpty_iff, h.revisionsOf_eq_nil_iff] at hshown
    simp only [not_forall, not_not] at hshown
    obtain ⟨id, hid⟩ := hshown
    have hkeeps : (fun (b : VersionId) (_ : VersionId) =>
        b = v → ∃ id, w.graph.tables.Linked id b) = fun _ _ => True := by
      ext b u
      exact iff_true_intro fun hb => ⟨id, hb ▸ hid⟩
    refine yields_pure.mpr ⟨?_, rfl, iff_of_false Bool.false_ne_true fun hunshown => hunshown id hid⟩
    rw [hkeeps, Layer.prune_nothing, ← Layer.eq_prune_of_linked (L := w.graph.tables) hid]
    rfl

/-- All table versions of a list are deleted unless a revision shows them. -/
theorem deleteTablesIfUnshown_yields {items : List VersionId} (h : w.store.Intact)
    (hnodup : items.Nodup) (hstored : ∀ v ∈ items, ∃ table, w.store.table? v = some table) :
    (items.filterM deleteTableIfUnshown).Yields w fun deleted w' => w'.graph = (w.graph.withTables
        (w.graph.tables.prune (fun _ _ => True) (· ∈ items))).withRows
        (w.graph.rows.prune (fun b _ => b ∈ items → ∃ id, w.graph.tables.Linked id b)
          (fun _ => False)) ∧ w'.supply = w.supply ∧
        ∀ v, v ∈ deleted ↔ v ∈ items ∧ ∀ id, ¬w.graph.tables.Linked id v := by
  induction items generalizing w with
  | nil =>
    refine yields_filterM_nil.mpr ⟨?_, rfl, by simp⟩
    simp only [List.not_mem_nil, false_imp_iff, Layer.prune_nothing]
    rfl
  | cons first rest ih =>
    obtain ⟨hfirst, hnodup⟩ := List.nodup_cons.mp hnodup
    have hdelete := deleteTableIfUnshown_yields h (hstored first (by simp))
    refine yields_filterM_cons.mpr
      (((Makes.deleteTableIfUnshown first).journaled.keeps h hdelete).imp ?_)
    rintro deleted w₁ ⟨hkeeps, hgraph, hsupply, hdeleted⟩
    refine (ih hkeeps.1 hnodup fun v hv => ?_).imp ?_
    · obtain ⟨table, htable⟩ := hstored v (List.mem_cons_of_mem _ hv)
      refine ⟨table, ?_⟩
      rw [Workspace.table?_eq, hgraph, Graph.withRows_tables, Graph.withTables_tables,
        Layer.record?_prune_of_not]
      · exact htable
      · rintro rfl
        exact hfirst hv
    · rintro rest' w₂ ⟨hgraph', hsupply', hrest⟩
      refine ⟨?_, hsupply'.trans hsupply, fun v => ?_⟩
      · rw [hgraph', hgraph]
        simp only [Graph.withRows_tables, Graph.withTables_tables, Graph.withRows_rows,
          Layer.prune_prune, Layer.prune_keeps, Layer.linked_prune, and_true, List.mem_cons,
          ← or_imp]
        rfl
      · simp only [hgraph, Graph.withRows_tables, Graph.withTables_tables, Layer.linked_prune,
          and_true] at hrest
        rw [mem_filtered hdeleted hrest]

end Edit

namespace Store

variable {s : Store} {v : VersionId}

theorem mem_tableVersions : v ∈ s.tableVersions ↔ ∃ table, s.table? v = some table := by
  rw [tableVersions, ExtTreeMap.mem_keys, ExtTreeMap.mem_iff_isSome_getElem?,
    Option.isSome_iff_exists]
  rfl

theorem mem_rowVersions : v ∈ s.rowVersions ↔ ∃ row, s.row? v = some row := by
  rw [rowVersions, ExtTreeMap.mem_keys, ExtTreeMap.mem_iff_isSome_getElem?,
    Option.isSome_iff_exists]
  rfl

end Store

namespace Edit

/-- What nobody can see is swept away, and reported. -/
theorem collectGarbage_yields (h : w.store.Intact) :
    collectGarbage.Yields w fun report w' => w'.graph = w.graph.sweep ∧ w'.supply = w.supply ∧
      (∀ v, v ∈ report.tables ↔ w.graph.tables.Stray v) ∧
      ∀ u, u ∈ report.rows ↔ (∃ row, w.graph.rows.record? u = some row) ∧
        ∀ v, w.graph.rows.Linked v u → ∀ id, ¬w.graph.tables.Linked id v := by
  simp only [collectGarbage, yields_bind, yields_store, yields_pure]
  have htables := deleteTablesIfUnshown_yields h (Store.nodup_keys w.store.tables)
    fun v => Store.mem_tableVersions.mp
  refine ((Makes.filterM Makes.deleteTableIfUnshown _).journaled.keeps h htables).imp ?_
  rintro tables w₁ ⟨hkeeps, hgraph, hsupply, htables⟩
  refine (deleteRowsIfUnheld_yields hkeeps.1 (Store.nodup_keys _)
    fun u => Store.mem_rowVersions.mp).imp ?_
  rintro rows w₂ ⟨hgraph', hsupply', hrows⟩
  have hrow (u : VersionId) : w₁.store.row? u = w.graph.rows.record? u := by
    rw [Workspace.row?_eq, hgraph, Graph.withRows_rows, Layer.record?_prune_of_not id]
  refine ⟨?_, hsupply'.trans hsupply, fun v => ?_, fun u => ?_⟩
  · rw [hgraph', hgraph, Graph.withRows_withRows, Graph.withRows_rows, Layer.prune_prune, Graph.sweep]
    -- Every table version is in the list that was gone through, and every row version too.
    refine Graph.ext rfl (Layer.prune_congr (fun _ => Iff.rfl) ?_) (Layer.prune_congr ?_ ?_)
    · exact fun htable => iff_true_intro (Store.mem_tableVersions.mpr ⟨_, htable⟩)
    · intro b u hheld
      exact forall_prop_of_true (Store.mem_tableVersions.mpr (h.closed.holder hheld))
    · intro u row hstored
      exact iff_true_intro (.inr (Store.mem_rowVersions.mpr ⟨row, (hrow u).trans hstored⟩))
  · exact (htables v).trans (and_congr_left fun _ => Store.mem_tableVersions)
  · refine (hrows u).trans (and_congr (Store.mem_rowVersions.trans (by rw [hrow]))
      (forall_congr' fun v => ?_))
    rw [hgraph, Graph.withRows_rows, Layer.linked_prune, not_and]
    refine imp_congr_right fun hheld => ?_
    -- A table version that holds something is stored, so it was in the list.
    exact (not_congr (forall_prop_of_true (Store.mem_tableVersions.mpr (h.closed.holder hheld)))).trans
      not_exists

end Edit

end VersionedTables
