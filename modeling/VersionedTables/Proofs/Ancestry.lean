import VersionedTables.History
import VersionedTables.Proofs.Ownership

/-!
# Where revisions come from

The committed revisions of a branch form one line. From the head it leads from parent to parent to
the first revision of the branch, and it passes every committed revision of the branch on its way
(`Lines.Trail`, `Lines.Course`). New branches begin a line and commits prolong one
(`Lines.Course.addBranch`, `Lines.Course.promote`), so after every run each branch has its line, and
its history is that line (`Store.Chronicle`, `Database.Fresh.run_chronicle`). The clock has no part
in this: there is only one revision in each role to be found.
-/

namespace VersionedTables

open Std

namespace Lines

variable {l l' : Lines} {name : BranchName} {r r' head draft : Revision}
  {trail trail' : List Revision}

/-! ## The way back -/

/-- The revisions of a branch from one of them back to the first, each the parent of the one before
it. -/
inductive Trail (l : Lines) (name : BranchName) : Revision → List Revision → Prop where
  /-- The first revision is where the way ends, even if it has a parent on another branch. -/
  | start {r : Revision} (stored : l.revision? r.id = some r) (branch : r.branch = name)
      (isStart : r.isStart = true) : Trail l name r [r]
  /-- From any other revision the way goes on at its parent. -/
  | next {r p : Revision} {rest : List Revision} (stored : l.revision? r.id = some r)
      (branch : r.branch = name) (isStart : r.isStart = false) (parent : r.parent = some p.id)
      (way : Trail l name p rest) : Trail l name r (r :: rest)

namespace Trail

theorem eq_cons (h : l.Trail name r trail) : trail = r :: trail.tail := by
  cases h with
  | start => rfl
  | next => rfl

theorem stored (h : l.Trail name r trail) : l.revision? r.id = some r := by
  cases h with
  | start stored => exact stored
  | next stored => exact stored

/-- There is only one way back. -/
theorem unique (h : l.Trail name r trail) (h' : l.Trail name r trail') : trail = trail' := by
  induction h generalizing trail' with
  | start stored branch isStart =>
    cases h' with
    | start => rfl
    | next _ _ isStart' => exact absurd (isStart'.symm.trans isStart) Bool.false_ne_true
  | @next r p rest stored branch isStart parent way ih =>
    cases h' with
    | start _ _ isStart' => exact absurd (isStart.symm.trans isStart') Bool.false_ne_true
    | @next _ p' rest' _ _ _ parent' way' =>
      have hid : p.id = p'.id := Option.some.inj (parent.symm.trans parent')
      have hsame : p = p' := Option.some.inj (way.stored.symm.trans (hid ▸ way'.stored))
      rw [ih (hsame ▸ way')]

/-- What the way passes has its own way back, which is the rest of it. -/
theorem of_mem (h : l.Trail name r trail) (hmem : r' ∈ trail) :
    ∃ rest, rest <:+ trail ∧ l.Trail name r' rest := by
  induction h with
  | start stored branch isStart =>
    obtain rfl := List.mem_singleton.mp hmem
    exact ⟨_, List.suffix_rfl, .start stored branch isStart⟩
  | next stored branch isStart parent way ih =>
    rcases List.mem_cons.mp hmem with rfl | hmem
    · exact ⟨_, List.suffix_rfl, .next stored branch isStart parent way⟩
    · obtain ⟨rest, hsuffix, hrest⟩ := ih hmem
      exact ⟨rest, hsuffix.trans (List.suffix_cons _ _), hrest⟩

theorem branch_of_mem (h : l.Trail name r trail) (hmem : r' ∈ trail) : r'.branch = name := by
  obtain ⟨rest, -, hrest⟩ := h.of_mem hmem
  cases hrest with
  | start _ branch => exact branch
  | next _ branch => exact branch

theorem stored_of_mem (h : l.Trail name r trail) (hmem : r' ∈ trail) :
    l.revision? r'.id = some r' := by
  obtain ⟨rest, -, hrest⟩ := h.of_mem hmem
  exact hrest.stored

/-- The way passes nothing twice: it would go round and round. -/
theorem nodup (h : l.Trail name r trail) : trail.Nodup := by
  induction h with
  | start => exact List.nodup_singleton _
  | @next r p rest stored branch isStart parent way ih =>
    refine List.nodup_cons.mpr ⟨fun hmem => ?_, ih⟩
    obtain ⟨rest', hsuffix, hway⟩ := way.of_mem hmem
    have hagain := hway.unique (.next stored branch isStart parent way)
    have hlength := hsuffix.length_le
    rw [hagain, List.length_cons] at hlength
    omega

theorem nodup_ids (h : l.Trail name r trail) : (trail.map (·.id)).Nodup := by
  refine h.nodup.map_on fun a ha b hb hid => ?_
  have hstored := h.stored_of_mem ha
  rw [hid, h.stored_of_mem hb] at hstored
  exact (Option.some.inj hstored).symm

theorem linked (h : l.Trail name r trail) : trail.IsChain fun r p => r.parent = some p.id := by
  induction h with
  | start => exact .singleton _
  | next _ _ _ parent way ih =>
    rw [way.eq_cons] at ih ⊢
    exact .cons_cons parent ih

/-- The way ends at a first revision, and passes no other. -/
theorem exists_start (h : l.Trail name r trail) :
    ∃ start, trail.getLast? = some start ∧ start.isStart = true ∧
      ∀ other ∈ trail, other.isStart = true → other = start := by
  induction h with
  | @start r stored branch isStart =>
    exact ⟨r, rfl, isStart, fun other hmem _ => List.mem_singleton.mp hmem⟩
  | @next r p rest stored branch isStart parent way ih =>
    obtain ⟨start, hlast, hstart, honly⟩ := ih
    refine ⟨start, ?_, hstart, fun other hmem hother => ?_⟩
    · rw [way.eq_cons] at hlast ⊢
      exact hlast
    · rcases List.mem_cons.mp hmem with rfl | hmem
      · exact absurd (isStart.symm.trans hother) Bool.false_ne_true
      · exact honly other hmem hother

/-- The way back stays the same as long as what it passes does. -/
theorem congr (h : l.Trail name r trail)
    (hsame : ∀ other ∈ trail, l'.revision? other.id = some other) : l'.Trail name r trail := by
  induction h with
  | start stored branch isStart => exact .start (hsame _ List.mem_cons_self) branch isStart
  | next stored branch isStart parent way ih =>
    exact .next (hsame _ List.mem_cons_self) branch isStart parent
      (ih fun other hother => hsame other (List.mem_cons_of_mem _ hother))

/-- The way back from a revision whose record has changed in nothing that matters to it. -/
theorem amend (h : l.Trail name r trail) (hstored : l'.revision? r'.id = some r')
    (hbranch : r'.branch = r.branch) (hstart : r'.isStart = r.isStart)
    (hparent : r'.parent = r.parent)
    (hsame : ∀ other ∈ trail.tail, l'.revision? other.id = some other) :
    l'.Trail name r' (r' :: trail.tail) := by
  cases h with
  | start stored branch isStart =>
    exact .start hstored (hbranch.trans branch) (hstart.trans isStart)
  | next stored branch isStart parent way =>
    exact .next hstored (hbranch.trans branch) (hstart.trans isStart) (hparent.trans parent)
      (way.congr hsame)

end Trail

/-! ## The line of a branch -/

/-- The committed revisions of a branch, in the order of the way back from its head. -/
structure Course (l : Lines) (name : BranchName) (head draft : Revision) (trail : List Revision) :
    Prop where
  line : l.Line name head draft
  /-- The draft is not the first revision. -/
  draft_notStart : draft.isStart = false
  /-- The way goes back from the head. -/
  way : l.Trail name head trail
  /-- It passes committed revisions, which are not marked as changed. -/
  committed : ∀ r ∈ trail, r.isDraft = false ∧ r.hasChanges = false
  /-- It passes all of them. -/
  complete : ∀ {id r}, l.revision? id = some r → r.branch = name → r.isDraft = false → r ∈ trail

/-- Every branch has its line. -/
def Traced (l : Lines) : Prop :=
  ∀ name, (l.branch? name).isSome → ∃ head draft trail, l.Course name head draft trail

namespace Course

variable {id : RevisionId} {branch : Branch} {next : Revision} {comment : Option String}
  {startId draftId nextId : RevisionId} {parent : Option RevisionId} {time time' : Instant}
  {flag : Bool} {edited : Revision}

/-- A branch keeps its line as long as it keeps its revisions. -/
theorem congr (h : l.Course name head draft trail)
    (hsame : ∀ {id other}, other.branch = name →
      (l'.revision? id = some other ↔ l.revision? id = some other)) :
    l'.Course name head draft trail where
  line := h.line.congr hsame
  draft_notStart := h.draft_notStart
  way := h.way.congr fun _ hmem =>
    (hsame (h.way.branch_of_mem hmem)).mpr (h.way.stored_of_mem hmem)
  committed := h.committed
  complete hstored hbranch := h.complete ((hsame hbranch).mp hstored) hbranch

/-- What the line passes is not a draft. -/
theorem ne_of_isDraft (h : l.Course name head draft trail) (hmem : r ∈ trail)
    (hstored : l.revision? r'.id = some r') (hdraft : r'.isDraft = true) : r.id ≠ r'.id := by
  intro hid
  have hsame := h.way.stored_of_mem hmem
  rw [hid, hstored] at hsame
  cases hsame
  exact Bool.false_ne_true ((h.committed _ hmem).1.symm.trans hdraft)

/-- Marking a draft leaves the line as it is. -/
theorem mark (h : l.Course name head draft trail)
    (hid : ∀ {id other}, l.revision? id = some other → other.id = id)
    (hedited : l.Drafts edited) :
    (l.mark edited flag).Course name head (marked edited flag draft) trail where
  line := by
    have hhead : marked edited flag head = head :=
      if_neg (h.ne_of_isDraft (h.way.eq_cons ▸ List.mem_cons_self) hedited.stored hedited.isDraft)
    have hline : (l.mark edited flag).Line name (marked edited flag head) _ :=
      h.line.mark hid hedited.stored
    rwa [hhead] at hline
  draft_notStart := by
    rw [marked]
    split
    · exact h.draft_notStart
    · exact h.draft_notStart
  way := h.way.congr fun other hmem =>
    (if_neg (h.ne_of_isDraft hmem hedited.stored hedited.isDraft)).trans
      (h.way.stored_of_mem hmem)
  committed := h.committed
  complete := by
    intro id r hstored hbranch hflag
    rw [revision?_mark] at hstored
    split at hstored
    · cases hstored
      exact absurd (hflag.symm.trans hedited.isDraft) Bool.false_ne_true
    · exact h.complete hstored hbranch hflag

/-- A new branch has its first revision in its line. -/
theorem addBranch (hsound : l.Sound) (hname : l.branch? branch.name = none)
    (hne : startId ≠ draftId) :
    (l.addBranch branch (.start startId branch.name parent time)
      (.draft draftId branch.name startId time')).Course branch.name
      (.start startId branch.name parent time) (.draft draftId branch.name startId time')
      [.start startId branch.name parent time] where
  line := hsound.line_addBranch hname hne
  draft_notStart := rfl
  way := .start ((if_neg hne).trans (if_pos rfl)) rfl rfl
  committed r hmem := by
    rw [List.mem_singleton.mp hmem]
    exact ⟨rfl, rfl⟩
  complete := by
    intro id r hstored hbranch hflag
    rcases revision?_addBranch_cases hstored with rfl | rfl | hold
    · exact List.mem_singleton_self _
    · cases hflag
    · exact absurd hbranch (hsound.branch_ne hname hold)

/-- What the line passes is neither the draft nor a revision that is not there. -/
theorem ne_of_mem (h : l.Course name head draft trail) (hnext : l.revision? nextId = none)
    (hmem : r ∈ trail) : r.id ≠ nextId ∧ r.id ≠ draft.id :=
  ⟨ne_of_new (h.way.stored_of_mem hmem) hnext,
    h.ne_of_isDraft hmem h.line.draft_stored h.line.isDraft⟩

/-- What was the head keeps its way back when the draft is promoted. -/
theorem way_promote (h : l.Course name head draft trail) (hnext : l.revision? next.id = none) :
    (l.promote head draft next comment).Trail name { head with isHead := false, isDraft := false }
      ({ head with isHead := false, isDraft := false } :: trail.tail) := by
  have hnodup := h.way.nodup
  rw [h.way.eq_cons] at hnodup
  refine h.way.amend ?_ rfl rfl rfl fun other hmem => ?_
  · have hhead : head ∈ trail := h.way.eq_cons ▸ List.mem_cons_self
    obtain ⟨hnext', hdraft⟩ := h.ne_of_mem hnext hhead
    exact ((if_neg hnext').trans (if_neg hdraft)).trans (if_pos rfl)
  · -- Behind the head, nothing has changed.
    have hother := h.way.stored_of_mem (List.mem_of_mem_tail hmem)
    obtain ⟨hnext', hdraft⟩ := h.ne_of_mem hnext (List.mem_of_mem_tail hmem)
    have hhead : other.id ≠ head.id := by
      intro heq
      rw [heq, h.line.head_stored] at hother
      cases hother
      exact (List.nodup_cons.mp hnodup).1 hmem
    exact (((if_neg hnext').trans (if_neg hdraft)).trans (if_neg hhead)).trans hother

/-- A commit prolongs the line by the draft. -/
theorem promote (h : l.Course name head draft trail)
    (hid : ∀ {id other}, l.revision? id = some other → other.id = id)
    (hnext : l.revision? nextId = none) :
    (l.promote head draft (.draft nextId name draft.id time) comment).Course name
      { draft with isHead := true, isDraft := false, hasChanges := false, comment }
      (.draft nextId name draft.id time)
      ({ draft with isHead := true, isDraft := false, hasChanges := false, comment } ::
        { head with isHead := false, isDraft := false } :: trail.tail) where
  line := h.line.promote hid hnext
  draft_notStart := rfl
  way := .next (p := { head with isHead := false, isDraft := false })
    (h.line.promote hid hnext).head_stored h.line.draft_branch h.draft_notStart h.line.parent
    (h.way_promote hnext)
  committed := by
    intro r hmem
    rcases List.mem_cons.mp hmem with rfl | hmem
    · exact ⟨rfl, rfl⟩
    · rcases List.mem_cons.mp hmem with rfl | hmem
      · exact ⟨rfl, (h.committed head (h.way.eq_cons ▸ List.mem_cons_self)).2⟩
      · exact h.committed r (List.mem_of_mem_tail hmem)
  complete := by
    intro id r hstored hbranch hflag
    rcases revision?_promote_cases hstored with rfl | rfl | rfl | ⟨hhead, -, hformer⟩
    · cases hflag
    · exact List.mem_cons_self
    · exact List.mem_cons_of_mem _ List.mem_cons_self
    · have hmem := h.complete hformer hbranch hflag
      rw [h.way.eq_cons] at hmem
      rcases List.mem_cons.mp hmem with rfl | hmem
      · exact absurd (hid hformer).symm hhead
      · exact List.mem_cons_of_mem _ (List.mem_cons_of_mem _ hmem)

end Course

/-! ## What commands do to lines -/

namespace Traced

variable {branch : Branch} {comment : Option String} {startId draftId nextId : RevisionId}
  {parent : Option RevisionId} {time time' : Instant} {flag : Bool} {edited : Revision}

theorem mark (h : l.Traced) (hid : ∀ {id other}, l.revision? id = some other → other.id = id)
    (hedited : l.Drafts edited) : (l.mark edited flag).Traced := by
  intro name hexists
  obtain ⟨head, draft, trail, hcourse⟩ := h _ hexists
  exact ⟨head, _, trail, hcourse.mark hid hedited⟩

theorem addBranch (h : l.Traced) (hsound : l.Sound) (hname : l.branch? branch.name = none)
    (hstart : l.revision? startId = none) (hdraft : l.revision? draftId = none)
    (hne : startId ≠ draftId) :
    (l.addBranch branch (.start startId branch.name parent time)
      (.draft draftId branch.name startId time')).Traced := by
  intro name hexists
  rw [branch?_addBranch] at hexists
  split at hexists
  · next heq =>
    subst heq
    exact ⟨_, _, _, .addBranch hsound hname hne⟩
  · next hother =>
    obtain ⟨head, draft, trail, hcourse⟩ := h _ hexists
    exact ⟨head, draft, trail, hcourse.congr fun hbranch =>
      revision?_addBranch_iff hstart hdraft (hbranch ▸ hother)⟩

theorem promote (h : l.Traced) (hid : ∀ {id other}, l.revision? id = some other → other.id = id)
    (hline : l.Line name head draft) (hnext : l.revision? nextId = none) :
    (l.promote head draft (.draft nextId name draft.id time) comment).Traced := by
  intro name' hexists
  obtain ⟨head', draft', trail, hcourse⟩ := h _ hexists
  by_cases hname : name' = name
  · subst hname
    obtain ⟨rfl, rfl⟩ := hline.eq hcourse.line
    exact ⟨_, _, _, hcourse.promote hid hnext⟩
  · exact ⟨head', draft', trail, hcourse.congr fun hbranch =>
      revision?_promote_iff hline hnext (hbranch ▸ hname)⟩

end Traced

end Lines

/-- Every step leaves every branch with its line. -/
theorem Step.traced {w w' : Workspace} {branch : Option BranchName} (hw : w.Sound)
    (h : Step w branch w') (htraced : w.graph.lines.Traced) : w'.graph.lines.Traced := by
  have hclosed := hw.intact.closed
  cases h with
  | newBranch h =>
    obtain ⟨time, time', time'', hlines⟩ := h.lines
    rw [hlines]
    have hname : w.graph.lines.branch? (Branch.mk _ time).name = none := h.branch_new
    exact htraced.addBranch hw.coherent.lines hname h.start_new h.draft_new h.start_ne_draft
  | newHead hline h =>
    obtain ⟨time, hlines⟩ := h.lines
    rw [hlines]
    exact htraced.promote hclosed.id_eq hline h.next_new
  | edit hdraft h =>
    obtain ⟨flag, hlines⟩ := h.lines
    rw [hlines]
    exact htraced.mark hclosed.id_eq hdraft
  | hidden h =>
    rw [h.lines]
    exact htraced

/-! ## History -/

namespace Store

variable {s : Store} {supply : Supply} {name : BranchName} {start head draft r : Revision}
  {trail : List Revision}

/-- A walk follows the way back as far as its steps reach, and ends where the way ends. -/
theorem walkBack_of_trail (h : s.graph.lines.Trail name r trail) (steps : Nat) :
    (s.walkBack name steps (some r)).1 = trail.take steps ∧
      (trail.length ≤ steps → (s.walkBack name steps (some r)).2 = none) := by
  induction h generalizing steps with
  | @start r stored branch isStart =>
    cases steps with
    | zero => exact ⟨rfl, fun hlength => absurd hlength (by simp)⟩
    | succ steps =>
      have hprevious : s.previous? name r = none := by simp [previous?, isStart]
      simp [walkBack, hprevious, branch]
  | @next r p rest stored branch isStart parent way ih =>
    cases steps with
    | zero => exact ⟨rfl, fun hlength => absurd hlength (by simp)⟩
    | succ steps =>
      have hprevious : s.previous? name r = some p := by
        rw [previous?, isStart, parent]
        simpa [branch] using way.stored
      obtain ⟨htake, hend⟩ := ih steps
      simp only [walkBack, hprevious, branch, if_true, List.take_succ_cons, List.length_cons,
        Nat.add_le_add_iff_right, htake, true_and]
      exact hend

/-- The revisions in a list are as many as there are at most. -/
theorem length_le_size (hstored : ∀ r ∈ trail, s.revision? r.id = some r)
    (hnodup : (trail.map (·.id)).Nodup) : trail.length ≤ s.revisions.size := by
  have hsubset : trail.map (·.id) ⊆ s.revisions.keys := by
    intro id hmem
    obtain ⟨r, hr, rfl⟩ := List.mem_map.mp hmem
    rw [ExtTreeMap.mem_keys, ExtTreeMap.mem_iff_isSome_getElem?]
    exact Option.isSome_iff_exists.mpr ⟨r, hstored r hr⟩
  have hlength := (hnodup.subperm hsubset).length_le
  rwa [List.length_map, ExtTreeMap.length_keys] at hlength

/-- The revisions of a branch come without repetition. -/
theorem Intact.nodup_branchRevisions (h : s.Intact) (name : BranchName) :
    (s.branchRevisions name).Nodup := by
  have hids : s.revisions.values.map (·.id) = s.revisions.keys := by
    rw [values_eq_map_toList, ← ExtTreeMap.map_fst_toList_eq_keys, List.map_map]
    refine List.map_congr_left fun pair hpair => ?_
    exact h.id_eq (ExtTreeMap.mem_toList_iff_getElem?_eq_some.mp hpair)
  have hnodup : s.revisions.values.Nodup := (hids ▸ nodup_keys s.revisions).of_map
  exact (perm_sortBy _).nodup_iff.mpr (hnodup.filter _)

/-- The revisions of a branch by their roles, and its history. -/
structure Chronicle (s : Store) (name : BranchName) (start head draft : Revision)
    (trail : List Revision) : Prop where
  /-- There is one first revision. -/
  starts : (s.branchRevisions name).filter (·.isStart) = [start]
  /-- There is one head. -/
  heads : (s.branchRevisions name).filter (·.isHead) = [head]
  /-- There is one draft. -/
  drafts : (s.branchRevisions name).filter (·.isDraft) = [draft]
  head_ne_draft : head.id ≠ draft.id
  /-- The draft goes back to the head. -/
  parent : draft.parent = some head.id
  /-- Only the draft may be marked as changed. -/
  unchanged : ∀ r ∈ s.branchRevisions name, r.isDraft = false → r.hasChanges = false
  /-- The history has all revisions but the draft, -/
  complete : trail.Perm ((s.branchRevisions name).filter (!·.isDraft))
  /-- each of them once, -/
  nodup : (trail.map (·.id)).Nodup
  /-- from the head -/
  first : trail.head? = some head
  /-- to the first revision, -/
  last : trail.getLast? = some start
  /-- from parent to parent. -/
  linked : trail.IsChain fun r p => r.parent = some p.id
  /-- Asked for without limit, it is all there. -/
  history : s.history name none = .ok (some trail)
  /-- Asked for with a limit, it is cut off there. -/
  history_limit : ∀ limit, s.history name (some limit) = .ok (some (trail.take limit))

/-- A role that one revision of a branch plays. -/
theorem Intact.filter_branchRevisions (h : s.Intact) {p : Revision → Bool}
    (hstored : s.revision? r.id = some r) (hbranch : r.branch = name) (hr : p r = true)
    (hunique : ∀ {id other}, s.revision? id = some other → other.branch = name →
      p other = true → other = r) : (s.branchRevisions name).filter p = [r] := by
  refine eq_singleton_of_mem ((h.nodup_branchRevisions name).filter p) ?_ fun other hmem => ?_
  · exact List.mem_filter.mpr ⟨mem_branchRevisions.mpr ⟨⟨_, hstored⟩, hbranch⟩, hr⟩
  · obtain ⟨hother, hp⟩ := List.mem_filter.mp hmem
    obtain ⟨⟨id, hid⟩, hname⟩ := mem_branchRevisions.mp hother
    exact hunique hid hname hp

/-- The history of a branch is its line. -/
theorem Sound.history_eq (h : s.Sound supply) (hexists : (s.branch? name).isSome)
    (hcourse : s.graph.lines.Course name head draft trail) :
    s.history name none = .ok (some trail) ∧
      ∀ limit, s.history name (some limit) = .ok (some (trail.take limit)) := by
  obtain ⟨branch, hbranch⟩ := Option.isSome_iff_exists.mp hexists
  have hhead : s.findRevision name .head = some head := h.findRevision_head.mpr ⟨_, hcourse.line⟩
  have hlength : trail.length ≤ s.revisions.size :=
    length_le_size (fun _ hmem => hcourse.way.stored_of_mem hmem) hcourse.way.nodup_ids
  refine ⟨?_, fun limit => ?_⟩
  · obtain ⟨htake, hend⟩ := walkBack_of_trail hcourse.way s.revisions.size
    rw [List.take_of_length_le hlength] at htake
    have hwalk : s.walkBack name s.revisions.size (some head) = (trail, none) :=
      Prod.ext htake (hend hlength)
    simp only [history, hbranch, hhead, hwalk]
  · simp only [history, hbranch, hhead, (walkBack_of_trail hcourse.way limit).1]

/-- What is to be said of a branch is said by its line. -/
theorem Sound.chronicle (h : s.Sound supply) (hexists : (s.branch? name).isSome)
    (hcourse : s.graph.lines.Course name head draft trail) :
    ∃ start, s.Chronicle name start head draft trail := by
  have hline := hcourse.line
  obtain ⟨start, hlast, hstart, honly⟩ := hcourse.way.exists_start
  have hmem : start ∈ trail := List.mem_of_getLast? hlast
  obtain ⟨hhistory, hlimit⟩ := h.history_eq hexists hcourse
  refine ⟨start, ?_⟩
  exact {
    starts := by
      refine h.intact.filter_branchRevisions (hcourse.way.stored_of_mem hmem)
        (hcourse.way.branch_of_mem hmem) hstart fun {id other} hother hbranch hp => ?_
      -- The draft is not a first revision, and of the others only the last one is.
      by_cases hdraft : other.isDraft = true
      · rw [hline.draft_unique hother hbranch hdraft, hcourse.draft_notStart] at hp
        cases hp
      · exact honly other (hcourse.complete hother hbranch (Bool.eq_false_iff.mpr hdraft)) hp
    heads := h.intact.filter_branchRevisions hline.head_stored hline.head_branch hline.isHead
      hline.head_unique
    drafts := h.intact.filter_branchRevisions hline.draft_stored hline.draft_branch hline.isDraft
      hline.draft_unique
    head_ne_draft := hline.head_ne_draft
    parent := hline.parent
    unchanged := by
      intro r hr hflag
      obtain ⟨⟨id, hid⟩, hbranch⟩ := mem_branchRevisions.mp hr
      exact (hcourse.committed r (hcourse.complete hid hbranch hflag)).2
    complete := by
      refine (List.perm_ext_iff_of_nodup hcourse.way.nodup
        ((h.intact.nodup_branchRevisions name).filter _)).mpr fun r => ?_
      rw [List.mem_filter, mem_branchRevisions, Bool.not_eq_true']
      refine ⟨fun hr => ?_, fun ⟨⟨⟨id, hid⟩, hbranch⟩, hflag⟩ => hcourse.complete hid hbranch hflag⟩
      exact ⟨⟨⟨_, hcourse.way.stored_of_mem hr⟩, hcourse.way.branch_of_mem hr⟩,
        (hcourse.committed r hr).1⟩
    nodup := hcourse.way.nodup_ids
    first := by rw [hcourse.way.eq_cons, List.head?_cons]
    last := hlast
    linked := hcourse.way.linked
    history := hhistory
    history_limit := hlimit }

end Store

namespace Database

variable {db : Database}

/-- After every run, the history of a branch is the line of its committed revisions. -/
theorem Fresh.run_chronicle (h : db.Fresh) (commands : List Command) {name : BranchName}
    (hname : ((db.run commands).store.branch? name).isSome) :
    ∃ start head draft trail, (db.run commands).store.Chronicle name start head draft trail := by
  have hempty : db.store.graph.lines.Traced := by
    intro name hexists
    rw [h.store_eq, Store.graph_branch?, Store.branch?_empty] at hexists
    cases hexists
  have htraced : (db.run commands).store.graph.lines.Traced :=
    run_keeps (P := fun g => g.lines.Traced) Step.traced h.sound hempty commands
  obtain ⟨head, draft, trail, hcourse⟩ := htraced _ hname
  obtain ⟨start, hchronicle⟩ := (h.run_sound commands).chronicle hname hcourse
  exact ⟨start, head, draft, trail, hchronicle⟩

/-- A fork with a commit of its own, by a clock that runs backwards. -/
theorem run_chronicle_of_fork :
    (inMemory (.unary fun n => ⟨-n, 0⟩)).Fresh ∧
      (((inMemory (.unary fun n => ⟨-n, 0⟩)).run [.createBranch "main" none,
        .createBranch "fork" (some ⟨"i"⟩), .createTable ⟨"iiii"⟩ "users" false,
        .commit ⟨"fork"⟩ none]).store.branch? ⟨"fork"⟩).isSome ∧
      ∃ start head draft trail, ((inMemory (.unary fun n => ⟨-n, 0⟩)).run [.createBranch "main" none,
        .createBranch "fork" (some ⟨"i"⟩), .createTable ⟨"iiii"⟩ "users" false,
        .commit ⟨"fork"⟩ none]).store.Chronicle ⟨"fork"⟩ start head draft trail :=
  ⟨fresh_inMemory (Supply.distinct_unary _), by decide +kernel,
    Fresh.run_chronicle (fresh_inMemory (Supply.distinct_unary _)) _ (by decide +kernel)⟩

end Database

end VersionedTables
