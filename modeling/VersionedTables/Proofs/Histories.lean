import VersionedTables.Proofs.Ancestry
import VersionedTables.Proofs.Snapshot.Reopening

/-!
# Which histories end

Parents are not looked at when a snapshot is read. A file that is accepted may hold revisions that are
their own ancestors, and a history without limit that comes by one of them never ends. That is the only
way in which it fails to (`Store.history_of_accepted`): a walk that goes on for longer than there are
revisions has come by one of them twice (`Store.comesBack_of_left`), and a walk that has come by a
revision twice goes round and round (`Store.ComesBack.left`). A history that ends lists nothing twice.

What is listed are records. Reading does not compare the key of a record with its identifier either, so
two records of one history may have the same identifier, unless all are stored under their own.
-/

namespace VersionedTables

open Relation Std

namespace Store

variable {s : Store} {branch : BranchName} {r r' head : Revision} {steps : Nat}

/-! ## Walking back -/

/-- The walk goes from one revision to another. -/
def Leads (s : Store) (branch : BranchName) (r r' : Revision) : Prop :=
  s.previous? branch r = some r'

/-- The walk from a revision comes by some revision twice. -/
def ComesBack (s : Store) (branch : BranchName) (r : Revision) : Prop :=
  ∃ r', ReflTransGen (s.Leads branch) r r' ∧ TransGen (s.Leads branch) r' r'

/-- The revisions a walk comes by in so many steps, of whatever branch they are. -/
def passed (s : Store) (branch : BranchName) : (steps : Nat) → Option Revision → List Revision
  | _, none => []
  | 0, some _ => []
  | steps + 1, some revision => revision :: passed s branch steps (s.previous? branch revision)

theorem walkBack_none : s.walkBack branch steps none = ([], none) := by
  cases steps <;> rfl

theorem passed_none : s.passed branch steps none = [] := by
  cases steps <;> rfl

/-- What a walk lists is what it comes by on the branch. -/
theorem walkBack_eq_filter (s : Store) (branch : BranchName) (steps : Nat) (o : Option Revision) :
    (s.walkBack branch steps o).1 = (s.passed branch steps o).filter (·.branch = branch) := by
  induction steps generalizing o with
  | zero => cases o <;> rfl
  | succ steps ih =>
    cases o with
    | none => rfl
    | some r =>
      simp only [walkBack, passed, List.filter_cons, ih]
      by_cases hbranch : r.branch = branch <;> simp [hbranch]

/-- The walk only goes on from revisions of the branch, and to revisions that are stored. -/
theorem Leads.branch_eq (h : s.Leads branch r r') :
    r.branch = branch ∧ ∃ id, s.revision? id = some r' := by
  rw [Leads, previous?] at h
  split at h
  · cases h
  · next hstop =>
    obtain ⟨id, -, hstored⟩ := Option.bind_eq_some_iff.mp h
    simp only [Bool.or_eq_true, decide_eq_true_eq, not_or, not_not] at hstop
    exact ⟨hstop.2, id, hstored⟩

/-- What a walk comes by is led to from where it starts. -/
theorem reaches_of_mem_passed (hmem : r' ∈ s.passed branch steps (some r)) :
    ReflTransGen (s.Leads branch) r r' := by
  induction steps generalizing r with
  | zero => cases hmem
  | succ steps ih =>
    rcases List.mem_cons.mp hmem with rfl | hmem
    · exact .refl
    · rcases hprevious : s.previous? branch r with _ | p
      · rw [hprevious, passed_none] at hmem
        cases hmem
      · rw [hprevious] at hmem
        exact .head hprevious (ih hmem)

/-- Each revision a walk comes by leads to those it comes by later. -/
theorem pairwise_passed (s : Store) (branch : BranchName) (steps : Nat) (o : Option Revision) :
    (s.passed branch steps o).Pairwise (TransGen (s.Leads branch)) := by
  induction steps generalizing o with
  | zero => cases o <;> exact .nil
  | succ steps ih =>
    cases o with
    | none => exact .nil
    | some r =>
      refine List.pairwise_cons.mpr ⟨fun r' hmem => ?_, ih _⟩
      rcases hprevious : s.previous? branch r with _ | p
      · rw [hprevious, passed_none] at hmem
        cases hmem
      · rw [hprevious] at hmem
        exact .head' hprevious (reaches_of_mem_passed hmem)

/-- A walk that never comes by a revision twice comes by different ones. -/
theorem nodup_passed (h : ¬s.ComesBack branch r) : (s.passed branch steps (some r)).Nodup := by
  refine (s.pairwise_passed branch steps (some r)).imp_of_mem fun hmem _ hleads heq => h ?_
  subst heq
  exact ⟨_, reaches_of_mem_passed hmem, hleads⟩

/-- A walk that has somewhere to go has come by one revision a step, and comes by one more. -/
theorem length_passed (hleft : (s.walkBack branch steps (some r)).2.isSome) :
    (s.passed branch (steps + 1) (some r)).length = steps + 1 := by
  induction steps generalizing r with
  | zero => cases hprevious : s.previous? branch r <;> simp [passed, hprevious]
  | succ steps ih =>
    simp only [walkBack] at hleft
    rcases hprevious : s.previous? branch r with _ | p
    · rw [hprevious, walkBack_none] at hleft
      cases hleft
    · rw [hprevious] at hleft
      rw [passed, hprevious, List.length_cons, ih hleft]

theorem stored_of_reaches (hstored : ∃ id, s.revision? id = some r)
    (h : ReflTransGen (s.Leads branch) r r') : ∃ id, s.revision? id = some r' := by
  rcases ReflTransGen.cases_tail h with rfl | ⟨p, -, hleads⟩
  · exact hstored
  · exact hleads.branch_eq.2

/-- There are no more records in a list of different ones than are stored. -/
theorem length_le_of_stored {l : List Revision} (hnodup : l.Nodup)
    (hstored : ∀ r ∈ l, ∃ id, s.revision? id = some r) : l.length ≤ s.revisions.size := by
  have hsubset : l ⊆ s.revisions.toList.map (·.2) := by
    intro r hr
    obtain ⟨id, hid⟩ := hstored r hr
    exact List.mem_map.mpr ⟨(id, r), ExtTreeMap.mem_toList_iff_getElem?_eq_some.mpr hid, rfl⟩
  have hlength := (hnodup.subperm hsubset).length_le
  rwa [List.length_map, ExtTreeMap.length_toList] at hlength

/-! ## Walks that do not end -/

/-- A walk that will come back does so from where it goes next. -/
theorem ComesBack.next (h : s.ComesBack branch r) :
    ∃ p, s.Leads branch r p ∧ s.ComesBack branch p := by
  obtain ⟨r', hreaches, hcircle⟩ := h
  rcases ReflTransGen.cases_head hreaches with rfl | ⟨p, hleads, hreaches⟩
  · obtain ⟨p, hleads, hreaches⟩ := TransGen.head'_iff.mp hcircle
    exact ⟨p, hleads, _, hreaches, hcircle⟩
  · exact ⟨p, hleads, r', hreaches, hcircle⟩

/-- A walk that comes back has somewhere to go after any number of steps. It lists a revision with each
step, since it never leaves the branch. -/
theorem ComesBack.left (h : s.ComesBack branch r) (steps : Nat) :
    (s.walkBack branch steps (some r)).2.isSome ∧
      (s.walkBack branch steps (some r)).1.length = steps := by
  induction steps generalizing r with
  | zero => exact ⟨rfl, rfl⟩
  | succ steps ih =>
    obtain ⟨p, hleads, hback⟩ := h.next
    obtain ⟨hleft, hlength⟩ := ih hback
    have hprevious : s.previous? branch r = some p := hleads
    simp only [walkBack, hprevious, if_pos hleads.branch_eq.1, List.length_cons, hlength, and_true]
    exact hleft

/-- A walk that goes on for as long as there are revisions has come by one of them twice. -/
theorem comesBack_of_left (hstored : ∃ id, s.revision? id = some r)
    (hleft : (s.walkBack branch s.revisions.size (some r)).2.isSome) : s.ComesBack branch r := by
  by_contra hnot
  have hlength := length_le_of_stored (l := s.passed branch (s.revisions.size + 1) (some r))
    (nodup_passed hnot) fun r' hr' => stored_of_reaches hstored (reaches_of_mem_passed hr')
  rw [length_passed hleft] at hlength
  omega

/-! ## Walks that end -/

/-- A walk that has ended has come by all that it leads to. -/
theorem mem_passed_of_reaches (hend : (s.walkBack branch steps (some r)).2 = none)
    (h : ReflTransGen (s.Leads branch) r r') : r' ∈ s.passed branch steps (some r) := by
  induction steps generalizing r with
  | zero => cases hend
  | succ steps ih =>
    rcases ReflTransGen.cases_head h with rfl | ⟨p, hleads, hreaches⟩
    · exact List.mem_cons_self
    · have hprevious : s.previous? branch r = some p := hleads
      simp only [walkBack, hprevious] at hend
      rw [passed, hprevious]
      exact List.mem_cons_of_mem _ (ih hend hreaches)

/-- With fewer steps a walk lists the first of what it lists with more. -/
theorem walkBack_take (s : Store) (branch : BranchName) (steps more : Nat) (o : Option Revision) :
    (s.walkBack branch steps o).1 = (s.walkBack branch (steps + more) o).1.take steps := by
  induction steps generalizing o with
  | zero => cases o <;> simp [walkBack, walkBack_none]
  | succ steps ih =>
    cases o with
    | none => simp [walkBack_none]
    | some r =>
      rw [Nat.add_right_comm]
      simp only [walkBack]
      by_cases hbranch : r.branch = branch
      · rw [if_pos hbranch, if_pos hbranch, ih, List.take_succ_cons]
      · have hprevious : s.previous? branch r = none := by simp [previous?, hbranch]
        simp [hbranch, hprevious, walkBack_none]

/-- A walk that has ended stays where it is. -/
theorem walkBack_add (more : Nat) {o : Option Revision}
    (hend : (s.walkBack branch steps o).2 = none) :
    s.walkBack branch (steps + more) o = s.walkBack branch steps o := by
  induction steps generalizing o with
  | zero =>
    cases o with
    | none => rw [walkBack_none, walkBack_none]
    | some r => cases hend
  | succ steps ih =>
    cases o with
    | none => rw [walkBack_none, walkBack_none]
    | some r =>
      rw [Nat.add_right_comm]
      simp only [walkBack] at hend ⊢
      rw [ih hend]

/-! ## Histories -/

/-- The history of a branch ends. It lists the revisions of the branch that the walk from its head comes
by, and each of them once. -/
structure HistoryEnds (s : Store) (branch : BranchName) (head : Revision)
    (revisions : List Revision) : Prop where
  /-- This is what is listed without limit. -/
  unlimited : s.history branch none = .ok (some revisions)
  /-- With a limit, the list is cut short. -/
  limited : ∀ limit, s.history branch (some limit) = .ok (some (revisions.take limit))
  /-- The walk comes by what is listed. -/
  mem_iff : ∀ r, r ∈ revisions ↔ ReflTransGen (s.Leads branch) head r ∧ r.branch = branch
  /-- No record is listed twice. -/
  nodup : revisions.Nodup
  /-- No identifier is listed twice either, if records are stored under their own. -/
  nodup_ids : (∀ id r, s.revision? id = some r → r.id = id) → (revisions.map (·.id)).Nodup

/-- The history of a branch has no end. -/
structure HistoryLoops (s : Store) (branch : BranchName) (head : Revision) : Prop where
  /-- There is no answer without limit. -/
  unlimited : s.history branch none = .ok none
  /-- The walk has somewhere to go after any number of steps. -/
  goes_on : ∀ steps, (s.walkBack branch steps (some head)).2.isSome
  /-- As many revisions are listed as are asked for. -/
  limited : ∀ limit, ∃ revisions, s.history branch (some limit) = .ok (some revisions) ∧
    revisions.length = limit

theorem ComesBack.loops (h : s.ComesBack branch head) (hbranch : (s.branch? branch).isSome)
    (hhead : s.findRevision branch .head = some head) : s.HistoryLoops branch head := by
  obtain ⟨record, hrecord⟩ := Option.isSome_iff_exists.mp hbranch
  refine ⟨?_, fun steps => (h.left steps).1, fun limit => ?_⟩
  · have hleft := (h.left s.revisions.size).1
    simp only [history, hrecord, hhead]
    split
    · next hwalk => rw [hwalk] at hleft; cases hleft
    · rfl
  · simp only [history, hrecord, hhead]
    exact ⟨_, rfl, (h.left limit).2⟩

theorem historyEnds_of_not_comesBack (h : ¬s.ComesBack branch head)
    (hbranch : (s.branch? branch).isSome) (hhead : s.findRevision branch .head = some head)
    (hstored : ∃ id, s.revision? id = some head) :
    ∃ revisions, s.HistoryEnds branch head revisions := by
  obtain ⟨record, hrecord⟩ := Option.isSome_iff_exists.mp hbranch
  have hend : (s.walkBack branch s.revisions.size (some head)).2 = none := by
    rw [← Option.not_isSome_iff_eq_none]
    exact fun hleft => h (comesBack_of_left hstored hleft)
  have hnodup : (s.walkBack branch s.revisions.size (some head)).1.Nodup := by
    rw [walkBack_eq_filter]
    exact (nodup_passed h).filter _
  have hmem (r : Revision) : r ∈ (s.walkBack branch s.revisions.size (some head)).1 ↔
      ReflTransGen (s.Leads branch) head r ∧ r.branch = branch := by
    rw [walkBack_eq_filter, List.mem_filter, decide_eq_true_iff]
    exact and_congr_left fun _ => ⟨reaches_of_mem_passed, mem_passed_of_reaches hend⟩
  refine ⟨(s.walkBack branch s.revisions.size (some head)).1, ?_, fun limit => ?_, hmem, hnodup,
    fun hids => ?_⟩
  · simp only [history, hrecord, hhead]
    split
    · next hwalk => rw [hwalk]
    · next hwalk => rw [hwalk] at hend; cases hend
  · simp only [history, hrecord, hhead]
    -- A walk of more steps than there are revisions lists no more.
    rw [walkBack_take s branch limit s.revisions.size, Nat.add_comm, walkBack_add limit hend]
  · refine hnodup.map_on fun a ha b hb hid => ?_
    obtain ⟨i, hi⟩ := stored_of_reaches hstored ((hmem a).mp ha).1
    obtain ⟨j, hj⟩ := stored_of_reaches hstored ((hmem b).mp hb).1
    rw [← hids i a hi, hid, hids j b hj, hj] at hi
    exact (Option.some.inj hi).symm

/-! ## Files from elsewhere -/

/-- A committed revision of the main branch. -/
def committed (id : String) (parent : Option RevisionId) (isStart isHead : Bool) : Revision :=
  ⟨⟨id⟩, .main, parent, isStart, isHead, false, false, none, ⟨0, 0⟩⟩

theorem madeOf_committed {id : String} {parent : Option RevisionId} {isStart isHead : Bool} :
    (committed id parent isStart isHead).MadeOf .storable :=
  ⟨trivial, Database.valid_zero⟩

/-- Two revisions that are the parents of each other. -/
def circular : Store :=
  (((∅ : Store).putBranch ⟨.main, ⟨0, 0⟩⟩).putRevision
    (committed "a" (some ⟨"b"⟩) false true)).putRevision (committed "b" (some ⟨"a"⟩) false false)

/-- A line of three revisions, the last two of which have one identifier. -/
def misfiled : Store :=
  { ((∅ : Store).putBranch ⟨.main, ⟨0, 0⟩⟩) with
    revisions := ((((∅ : ExtTreeMap RevisionId Revision compare).insert ⟨"a"⟩
      (committed "a" (some ⟨"b"⟩) false true)).insert ⟨"b"⟩
      (committed "x" (some ⟨"c"⟩) false false))).insert ⟨"c"⟩ (committed "x" none true false) }

theorem madeOf_main : Branch.MadeOf .storable ⟨.main, ⟨0, 0⟩⟩ :=
  Database.valid_zero

theorem madeOf_circular : circular.MadeOf .storable :=
  ((MadeOf.empty.putBranch madeOf_main).putRevision madeOf_committed).putRevision
    madeOf_committed

theorem madeOf_misfiled : misfiled.MadeOf .storable :=
  { MadeOf.empty.putBranch madeOf_main with
    revision := by
      intro id record hrecord
      simp only [revision?, misfiled, getElem?_insert_eq] at hrecord
      rcases put_or hrecord with rfl | hrecord
      · exact madeOf_committed
      rcases put_or hrecord with rfl | hrecord
      · exact madeOf_committed
      rcases put_or hrecord with rfl | hrecord
      · exact madeOf_committed
      · simp at hrecord }

theorem accepted_circular :
    ofSnapshotText "revisions.json" (circular.snapshotText ⟨0, 0⟩) = .ok circular.reread := by
  rw [ofSnapshotText_snapshotText madeOf_circular Database.valid_zero,
    show circular.damage? = none by decide +kernel]

theorem accepted_misfiled :
    ofSnapshotText "revisions.json" (misfiled.snapshotText ⟨0, 0⟩) = .ok misfiled.reread := by
  rw [ofSnapshotText_snapshotText madeOf_misfiled Database.valid_zero,
    show misfiled.damage? = none by decide +kernel]

/-! ## Histories of accepted files -/

/-- In a store that was read from a snapshot, a branch without a head has no history. Otherwise its
history ends, without repetition, unless the walk from the head comes back to where it has been; and
then it has no end. -/
theorem history_of_accepted {path text : String} (h : ofSnapshotText path text = .ok s)
    (branch : BranchName) :
    (s.findRevision branch .head = none → ∀ limit, ∃ fault, s.history branch limit = .error fault) ∧
      ∀ head, s.findRevision branch .head = some head →
        (s.ComesBack branch head → s.HistoryLoops branch head) ∧
          (¬s.ComesBack branch head → ∃ revisions, s.HistoryEnds branch head revisions) := by
  refine ⟨fun hnone limit => ?_, fun head hhead => ?_⟩
  · rw [history]
    split
    · exact ⟨_, rfl⟩
    · rw [hnone]
      exact ⟨_, rfl⟩
  · obtain ⟨hstored, rfl⟩ := mem_branchRevisions.mp
      (List.mem_reverse.mp (List.mem_of_find?_eq_some hhead))
    obtain ⟨id, hid⟩ := hstored
    have hbranch := (ofSnapshotText_eq_ok h).2.housed hid
    exact ⟨fun hback => hback.loops hbranch hhead,
      fun hnot => historyEnds_of_not_comesBack hnot hbranch hhead ⟨id, hid⟩⟩

/-- The first file has a history that goes round, and that of the second one ends. -/
theorem history_of_accepted_elsewhere :
    ofSnapshotText "revisions.json" (circular.snapshotText ⟨0, 0⟩) = .ok circular.reread ∧
      circular.reread.HistoryLoops .main (committed "a" (some ⟨"b"⟩) false true) ∧
      ofSnapshotText "revisions.json" (misfiled.snapshotText ⟨0, 0⟩) = .ok misfiled.reread ∧
      ∃ revisions,
        misfiled.reread.HistoryEnds .main (committed "a" (some ⟨"b"⟩) false true) revisions := by
  refine ⟨accepted_circular, ?_, accepted_misfiled, ?_⟩
  · have hthere : circular.reread.Leads .main (committed "a" (some ⟨"b"⟩) false true)
        (committed "b" (some ⟨"a"⟩) false false) := by unfold Leads; decide +kernel
    have hback : circular.reread.Leads .main (committed "b" (some ⟨"a"⟩) false false)
        (committed "a" (some ⟨"b"⟩) false true) := by unfold Leads; decide +kernel
    exact ((history_of_accepted accepted_circular .main).2 _ (by decide +kernel)).1
      ⟨_, .refl, .head hthere (.single hback)⟩
  · refine ((history_of_accepted accepted_misfiled .main).2 _ (by decide +kernel)).2 fun hback => ?_
    exact absurd (hback.left 3).1 (by decide +kernel)

/-- Both files are accepted. One of them has a history without an end, and the other one has a history
that lists an identifier twice. -/
theorem endless_circular :
    ofSnapshotText "revisions.json" (circular.snapshotText ⟨0, 0⟩) = .ok circular.reread ∧
      circular.reread.history .main none = .ok none ∧
      circular.reread.history .main (some 3) = .ok (some [committed "a" (some ⟨"b"⟩) false true,
        committed "b" (some ⟨"a"⟩) false false, committed "a" (some ⟨"b"⟩) false true]) ∧
      ofSnapshotText "revisions.json" (misfiled.snapshotText ⟨0, 0⟩) = .ok misfiled.reread ∧
      misfiled.reread.history .main none = .ok (some [committed "a" (some ⟨"b"⟩) false true,
        committed "x" (some ⟨"c"⟩) false false, committed "x" none true false]) :=
  ⟨accepted_circular, by decide +kernel, by decide +kernel, accepted_misfiled,
    by decide +kernel⟩

end Store

end VersionedTables
