import VersionedTables.Proofs.Coherence

/-!
# Changes to branches and revisions

The three things commands do to branches and revisions: one revision is marked as changed or
unchanged (`Lines.mark`), a branch is added (`Lines.addBranch`), and a draft becomes the head of its
branch (`Lines.promote`). After each of them every branch still has one head and one draft, and it is
known which revisions are published.
-/

namespace VersionedTables

namespace Lines

variable {l : Lines}

/-- Sets the mark of one revision that says whether it differs from its parent. -/
def mark (l : Lines) (revision : Revision) (flag : Bool) : Lines :=
  l.putRevision { revision with hasChanges := flag }

/-- Adds a branch with its first revision and its draft. -/
def addBranch (l : Lines) (branch : Branch) (start draft : Revision) : Lines :=
  ((l.putBranch branch).putRevision start).putRevision draft

/-- Turns the draft of a branch into its head, with another draft on top. -/
def promote (l : Lines) (head draft next : Revision) (comment : Option String) : Lines :=
  ((l.putRevision { head with isHead := false, isDraft := false }).putRevision
    { draft with isHead := true, isDraft := false, hasChanges := false, comment }).putRevision next

variable {name : BranchName} {head draft revision next start : Revision} {branch : Branch}
  {comment : Option String} {flag : Bool} {id : RevisionId}

/-- A branch has the same head and draft as long as it has the same revisions. -/
theorem Line.congr {l' : Lines} (h : l.Line name head draft)
    (hsame : ∀ {id other}, other.branch = name →
      (l'.revision? id = some other ↔ l.revision? id = some other)) : l'.Line name head draft where
  head_stored := (hsame h.head_branch).mpr h.head_stored
  head_branch := h.head_branch
  isHead := h.isHead
  head_published := h.head_published
  draft_stored := (hsame h.draft_branch).mpr h.draft_stored
  draft_branch := h.draft_branch
  isDraft := h.isDraft
  draft_notHead := h.draft_notHead
  parent := h.parent
  head_unique hstored hbranch := h.head_unique ((hsame hbranch).mp hstored) hbranch
  draft_unique hstored hbranch := h.draft_unique ((hsame hbranch).mp hstored) hbranch

/-! ### Marking a revision -/

theorem revision?_mark :
    (l.mark revision flag).revision? id =
      if id = revision.id then some { revision with hasChanges := flag } else l.revision? id := rfl

/-- A mark that is set already. -/
theorem mark_self (hstored : l.revision? revision.id = some revision)
    (hflag : revision.hasChanges = flag) : l.mark revision flag = l := by
  subst hflag
  exact putRevision_self hstored

theorem published_mark (hstored : l.revision? revision.id = some revision) :
    (l.mark revision flag).Published id ↔ l.Published id := by
  simp only [Published, revision?_mark]
  split
  · next hid => simp [hid, hstored]
  · rfl

/-- A revision with its mark set, if it is the one that is marked. -/
def marked (revision : Revision) (flag : Bool) (other : Revision) : Revision :=
  if other.id = revision.id then { other with hasChanges := flag } else other

@[simp] theorem marked_fields (other : Revision) :
    (marked revision flag other).id = other.id ∧
      (marked revision flag other).branch = other.branch ∧
      (marked revision flag other).parent = other.parent ∧
      (marked revision flag other).isHead = other.isHead ∧
      (marked revision flag other).isDraft = other.isDraft := by
  rw [marked]
  split <;> simp

theorem revision?_mark_eq_map (hid : ∀ {id other}, l.revision? id = some other → other.id = id)
    (hstored : l.revision? revision.id = some revision) :
    (l.mark revision flag).revision? id = (l.revision? id).map (marked revision flag) := by
  rw [revision?_mark]
  split
  · next heq =>
    rw [heq, hstored, Option.map_some, marked, if_pos rfl]
  · next hne =>
    rcases hother : l.revision? id with _ | other
    · rfl
    · rw [Option.map_some, marked, if_neg (by rwa [hid hother])]

/-- A mark changes no role and no parent. -/
theorem Line.mark {other : Revision} (h : l.Line name head other)
    (hid : ∀ {id other}, l.revision? id = some other → other.id = id)
    (hstored : l.revision? revision.id = some revision) :
    (l.mark revision flag).Line name (marked revision flag head) (marked revision flag other) := by
  have hnew {former : Revision} (hformer : l.revision? former.id = some former) :
      (l.mark revision flag).revision? (marked revision flag former).id =
        some (marked revision flag former) := by
    rw [revision?_mark_eq_map hid hstored, (marked_fields former).1, hformer, Option.map_some]
  have hold {id : RevisionId} {later : Revision}
      (hlater : (l.mark revision flag).revision? id = some later) :
      ∃ former, l.revision? id = some former ∧ marked revision flag former = later := by
    rw [revision?_mark_eq_map hid hstored] at hlater
    exact Option.map_eq_some_iff.mp hlater
  exact {
    head_stored := hnew h.head_stored
    head_branch := by simpa using h.head_branch
    isHead := by simpa using h.isHead
    head_published := by simpa using h.head_published
    draft_stored := hnew h.draft_stored
    draft_branch := by simpa using h.draft_branch
    isDraft := by simpa using h.isDraft
    draft_notHead := by simpa using h.draft_notHead
    parent := by simpa using h.parent
    head_unique := by
      intro id later hlater hbranch hhead
      obtain ⟨former, hformer, rfl⟩ := hold hlater
      simp only [marked_fields] at hbranch hhead
      rw [h.head_unique hformer hbranch hhead]
    draft_unique := by
      intro id later hlater hbranch hdraft
      obtain ⟨former, hformer, rfl⟩ := hold hlater
      simp only [marked_fields] at hbranch hdraft
      rw [h.draft_unique hformer hbranch hdraft] }

theorem Sound.mark (h : l.Sound)
    (hid : ∀ {id other}, l.revision? id = some other → other.id = id)
    (hstored : l.revision? revision.id = some revision) : (l.mark revision flag).Sound where
  branch_exists := by
    intro id later hlater
    rw [revision?_mark_eq_map hid hstored] at hlater
    obtain ⟨former, hformer, rfl⟩ := Option.map_eq_some_iff.mp hlater
    rw [(marked_fields former).2.1]
    exact h.branch_exists hformer
  line := by
    intro name hname
    obtain ⟨head, draft, hline⟩ := h.line hname
    exact ⟨_, _, hline.mark hid hstored⟩

/-! ### A new branch -/

theorem revision?_addBranch :
    (l.addBranch branch start draft).revision? id =
      if id = draft.id then some draft else if id = start.id then some start
      else l.revision? id := rfl

theorem branch?_addBranch {other : BranchName} :
    (l.addBranch branch start draft).branch? other =
      if other = branch.name then some branch else l.branch? other := rfl

/-- A branch is added: a revision is one of the two new ones, or was there before. -/
theorem revision?_addBranch_cases {other : Revision}
    (h : (l.addBranch branch start draft).revision? id = some other) :
    other = start ∨ other = draft ∨ l.revision? id = some other := by
  rw [revision?_addBranch] at h
  split at h
  · exact .inr (.inl (Option.some.inj h).symm)
  · split at h
    · exact .inl (Option.some.inj h).symm
    · exact .inr (.inr h)

/-- Revisions that were there before stay. -/
theorem revision?_addBranch_of_stored {other : Revision} (hstart : l.revision? start.id = none)
    (hdraft : l.revision? draft.id = none) (h : l.revision? id = some other) :
    (l.addBranch branch start draft).revision? id = some other := by
  rw [revision?_addBranch, if_neg (ne_of_new h hdraft), if_neg (ne_of_new h hstart), h]

section AddBranch

variable {startId draftId : RevisionId} {parent : Option RevisionId} {time time' : Instant}

/-- Nothing belongs to a branch that is not there. -/
theorem Sound.branch_ne (h : l.Sound) (hname : l.branch? name = none) {other : Revision}
    (hother : l.revision? id = some other) : other.branch ≠ name := by
  rintro rfl
  have hexists := h.branch_exists hother
  rw [hname] at hexists
  cases hexists

/-- A branch starts with a first revision and a draft on top of it. -/
theorem Sound.line_addBranch (h : l.Sound) (hname : l.branch? branch.name = none)
    (hne : startId ≠ draftId) :
    (l.addBranch branch (.start startId branch.name parent time)
      (.draft draftId branch.name startId time')).Line branch.name
      (.start startId branch.name parent time) (.draft draftId branch.name startId time') where
  head_stored := (if_neg hne).trans (if_pos rfl)
  head_branch := rfl
  isHead := rfl
  head_published := rfl
  draft_stored := if_pos rfl
  draft_branch := rfl
  isDraft := rfl
  draft_notHead := rfl
  parent := rfl
  head_unique := by
    intro id other hother hbranch hhead
    rcases revision?_addBranch_cases hother with rfl | rfl | hold
    · rfl
    · cases hhead
    · exact absurd hbranch (h.branch_ne hname hold)
  draft_unique := by
    intro id other hother hbranch hflag
    rcases revision?_addBranch_cases hother with rfl | rfl | hold
    · cases hflag
    · rfl
    · exact absurd hbranch (h.branch_ne hname hold)

/-- The other branches keep their revisions. -/
theorem revision?_addBranch_iff {other : Revision} (hstart : l.revision? startId = none)
    (hdraft : l.revision? draftId = none) (hbranch : other.branch ≠ branch.name) :
    (l.addBranch branch (.start startId branch.name parent time)
      (.draft draftId branch.name startId time')).revision? id = some other ↔
      l.revision? id = some other := by
  refine ⟨fun hnew => ?_, fun hold => revision?_addBranch_of_stored hstart hdraft hold⟩
  rcases revision?_addBranch_cases hnew with rfl | rfl | hold
  · exact absurd rfl hbranch
  · exact absurd rfl hbranch
  · exact hold

/-- The other branches keep their heads and drafts. -/
theorem Line.addBranch (h : l.Line name head draft) (hname : name ≠ branch.name)
    (hstart : l.revision? startId = none) (hdraft : l.revision? draftId = none) :
    (l.addBranch branch (.start startId branch.name parent time)
      (.draft draftId branch.name startId time')).Line name head draft :=
  h.congr fun hbranch => revision?_addBranch_iff hstart hdraft (hbranch ▸ hname)

theorem Sound.addBranch (h : l.Sound) (hname : l.branch? branch.name = none)
    (hstart : l.revision? startId = none) (hdraft : l.revision? draftId = none)
    (hne : startId ≠ draftId) :
    (l.addBranch branch (.start startId branch.name parent time)
      (.draft draftId branch.name startId time')).Sound where
  branch_exists := by
    intro id other hother
    rw [branch?_addBranch]
    rcases revision?_addBranch_cases hother with rfl | rfl | hold
    · simp [Revision.start]
    · simp [Revision.draft]
    · rw [if_neg (h.branch_ne hname hold)]
      exact h.branch_exists hold
  line := by
    intro name hexists
    rw [branch?_addBranch] at hexists
    split at hexists
    · next heq =>
      subst heq
      exact ⟨_, _, h.line_addBranch hname hne⟩
    · next hother =>
      obtain ⟨head, draft, hline⟩ := h.line hexists
      exact ⟨head, draft, hline.addBranch hother hstart hdraft⟩

end AddBranch

theorem published_addBranch (hdraft : draft.isDraft = true) (hstart : start.isDraft = false)
    (hnew : l.revision? draft.id = none) (hne : start.id ≠ draft.id) :
    (l.addBranch branch start draft).Published id ↔ l.Published id ∨ id = start.id := by
  simp only [Published, revision?_addBranch]
  by_cases hid : id = draft.id
  · subst hid
    simp [hdraft, hnew, hne.symm]
  · by_cases hid' : id = start.id
    · simp [hid', hne, hstart]
    · simp [hid, hid']

/-! ### A new head -/

theorem revision?_promote :
    (l.promote head draft next comment).revision? id =
      if id = next.id then some next
      else if id = draft.id then
        some { draft with isHead := true, isDraft := false, hasChanges := false, comment }
      else if id = head.id then some { head with isHead := false, isDraft := false }
      else l.revision? id := rfl

/-- A draft is promoted: a revision is the new draft, the new head, the head before, or another one
that was there before. -/
theorem revision?_promote_cases {other : Revision}
    (h : (l.promote head draft next comment).revision? id = some other) :
    other = next ∨
      other = { draft with isHead := true, isDraft := false, hasChanges := false, comment } ∨
      other = { head with isHead := false, isDraft := false } ∨
      id ≠ head.id ∧ id ≠ draft.id ∧ l.revision? id = some other := by
  rw [revision?_promote] at h
  split at h
  · exact .inl (Option.some.inj h).symm
  · split at h
    · exact .inr (.inl (Option.some.inj h).symm)
    · next hdraft =>
      split at h
      · exact .inr (.inr (.inl (Option.some.inj h).symm))
      · next hhead => exact .inr (.inr (.inr ⟨hhead, hdraft, h⟩))

section Promote

variable {nextId : RevisionId} {time : Instant}

/-- What was the draft is the head from now on, and its new draft is the draft. -/
theorem Line.promote (hline : l.Line name head draft)
    (hid : ∀ {id other}, l.revision? id = some other → other.id = id)
    (hnext : l.revision? nextId = none) :
    (l.promote head draft (.draft nextId name draft.id time) comment).Line name
      { draft with isHead := true, isDraft := false, hasChanges := false, comment }
      (.draft nextId name draft.id time) where
  head_stored := (if_neg (ne_of_new hline.draft_stored hnext)).trans (if_pos rfl)
  head_branch := hline.draft_branch
  isHead := rfl
  head_published := rfl
  draft_stored := if_pos rfl
  draft_branch := rfl
  isDraft := rfl
  draft_notHead := rfl
  parent := rfl
  head_unique := by
    intro id other hother hbranch hhead
    -- The only head there was is no head any more.
    rcases revision?_promote_cases hother with rfl | rfl | rfl | ⟨hidhead, -, hold⟩
    · cases hhead
    · rfl
    · cases hhead
    · exact absurd ((hid hold).symm.trans (congrArg _ (hline.head_unique hold hbranch hhead)))
        hidhead
  draft_unique := by
    intro id other hother hbranch hflag
    -- The only draft there was is no draft any more.
    rcases revision?_promote_cases hother with rfl | rfl | rfl | ⟨-, hiddraft, hold⟩
    · rfl
    · cases hflag
    · cases hflag
    · exact absurd ((hid hold).symm.trans (congrArg _ (hline.draft_unique hold hbranch hflag)))
        hiddraft

/-- The other branches keep their revisions. -/
theorem revision?_promote_iff {other : Revision} (hline : l.Line name head draft)
    (hnext : l.revision? nextId = none) (hbranch : other.branch ≠ name) :
    (l.promote head draft (.draft nextId name draft.id time) comment).revision? id = some other ↔
      l.revision? id = some other := by
  refine ⟨fun hnew => ?_, fun hold => ?_⟩
  · rcases revision?_promote_cases hnew with rfl | rfl | rfl | ⟨-, -, hold⟩
    · exact absurd rfl hbranch
    · exact absurd hline.draft_branch hbranch
    · exact absurd hline.head_branch hbranch
    · exact hold
  · -- What is stored here belongs to another branch than the head and the draft.
    have hne {former : Revision} (hformer : l.revision? former.id = some former)
        (hformerBranch : former.branch = name) : id ≠ former.id := by
      rintro rfl
      rw [hformer] at hold
      cases hold
      exact hbranch hformerBranch
    exact ((if_neg (ne_of_new hold hnext)).trans
      (if_neg (hne hline.draft_stored hline.draft_branch))).trans
        ((if_neg (hne hline.head_stored hline.head_branch)).trans hold)

/-- The other branches keep their heads and drafts. -/
theorem Line.promote_other {name' : BranchName} {head' draft' : Revision}
    (h : l.Line name' head' draft') (hline : l.Line name head draft) (hname : name' ≠ name)
    (hnext : l.revision? nextId = none) :
    (l.promote head draft (.draft nextId name draft.id time) comment).Line name' head' draft' :=
  h.congr fun hbranch => revision?_promote_iff hline hnext (hbranch ▸ hname)

theorem Sound.promote (h : l.Sound) (hid : ∀ {id other}, l.revision? id = some other → other.id = id)
    (hline : l.Line name head draft) (hnext : l.revision? nextId = none) :
    (l.promote head draft (.draft nextId name draft.id time) comment).Sound where
  branch_exists := by
    have hexists : (l.branch? name).isSome := by
      rw [← hline.draft_branch]
      exact h.branch_exists hline.draft_stored
    intro id other hother
    rcases revision?_promote_cases hother with rfl | rfl | rfl | ⟨-, -, hold⟩
    · exact hexists
    · exact hline.draft_branch ▸ hexists
    · exact hline.head_branch ▸ hexists
    · exact h.branch_exists hold
  line := by
    intro name' hexists
    by_cases hname : name' = name
    · subst hname
      exact ⟨_, _, hline.promote hid hnext⟩
    · obtain ⟨head', draft', hline'⟩ := h.line hexists
      exact ⟨head', draft', hline'.promote_other hline hname hnext⟩

end Promote

theorem published_promote (hline : l.Line name head draft) (hnext : next.isDraft = true)
    (hnew : l.revision? next.id = none) :
    (l.promote head draft next comment).Published id ↔ l.Published id ∨ id = draft.id := by
  have hne : next.id ≠ draft.id := (ne_of_new hline.draft_stored hnew).symm
  simp only [Published, revision?_promote]
  by_cases hid : id = next.id
  · subst hid
    simp [hnext, hnew, hne]
  · by_cases hid' : id = draft.id
    · simp [hid', hne.symm]
    · by_cases hid'' : id = head.id
      · simp [hid'', hline.head_stored, hline.head_published, hline.head_ne_draft,
          (hid'' ▸ hid : head.id ≠ next.id)]
      · simp [hid, hid', hid'']

end Lines

end VersionedTables
