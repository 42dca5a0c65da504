import VersionedTables.Proofs.Edit.Garbage
import VersionedTables.Proofs.Edit.Vetting

/-!
# Commands on branches

Creating a branch and committing share the tables of one revision with others (`Graph.share`), and
differ in who shows them and in what becomes of the branches and revisions. Both write the latter
first (`Edit.addBranch`, `Edit.promoteDraft`) and then share in a loop over the tables, for which
there is one lemma (`Edit.forM_share_yields`). Reverting is a command on a draft like those on its
tables (`DraftEdit`), and collecting garbage is one that nobody can see.
-/

namespace VersionedTables

variable {w w' w₁ w₂ : Workspace} {id startId draftId nextId : RevisionId}
  {head draft revision : Revision} {table : TableVersion} {v : VersionId} {name branch : BranchName}
  {Shower Shower' : RevisionId → Prop} {Shared : VersionId → Prop}

namespace Layer

variable {α ν : Type} {L : Layer α ν} {Owner Owner' : α → Prop} {Shared : VersionId → Prop}

/-- What is exposed to some and to others is exposed to all of them. -/
theorem expose_owners :
    (L.expose Owner Shared).expose Owner' Shared = L.expose (fun a => Owner a ∨ Owner' a) Shared :=
  ext_iff_linked (fun _ => rfl) fun b u => by simp [expose, or_assoc, or_and_right]

end Layer

namespace Edit

/-! ## Sharing the tables of a revision -/

/-- An edit that lets some revisions show one table version, which is published with its rows. -/
def Shares (step : TableVersion → Edit Unit) (Shower : RevisionId → Prop) : Prop :=
  ∀ {w : Workspace} {table : TableVersion}, w.store.Intact →
    (∀ r, Shower r → ∃ revision, w.store.revision? r = some revision) →
    (w.store.table? table.version = some table ∨ w.store.table? table.version = some table.lock) →
    (step table).Yields w fun _ w' =>
      w'.graph = w.graph.share w.graph.lines Shower (· = table.version) ∧ w'.supply = w.supply

/-- Letting a revision show a table version is exposing it. -/
theorem connectTable_exposes (hrevision : ∃ revision, w.store.revision? id = some revision)
    (htable : ∃ table, w.store.table? v = some table) :
    (write (·.connectTable id v)).Yields w fun _ w' =>
      w'.graph = w.graph.withTables (w.graph.tables.expose (· = id) (· = v)) ∧
        w'.supply = w.supply := by
  refine (connectTable_yields hrevision htable).imp ?_
  rintro - w' ⟨hgraph, hsupply⟩
  exact ⟨by rw [hgraph, Layer.link_true], hsupply⟩

/-- Publishing what has just been exposed. -/
theorem lockTable_shares (hintact : w₁.store.Intact)
    (hgraph : w₁.graph = w.graph.withTables (w.graph.tables.expose Shower (· = table.version)))
    (h : w.store.table? table.version = some table ∨
      w.store.table? table.version = some table.lock) :
    (lockTable table).Yields w₁ fun _ w₂ =>
      w₂.graph = w.graph.share w.graph.lines Shower (· = table.version) ∧
        w₂.supply = w₁.supply := by
  refine (lockTable_yields hintact ?_).imp ?_
  · rwa [Workspace.table?_eq, hgraph]
  · rintro - w₂ ⟨hgraph₂, hsupply₂⟩
    exact ⟨by rw [hgraph₂, hgraph]; rfl, hsupply₂⟩

/-- A new branch shares the tables of its source in its first revision and in its draft. -/
theorem shares_shareTable : Shares (shareTable startId draftId) fun r => r = startId ∨ r = draftId := by
  intro w table hintact hshower htable
  have hstored : ∃ old, w.store.table? table.version = some old := htable.elim (⟨_, ·⟩) (⟨_, ·⟩)
  simp only [shareTable, yields_bind]
  refine ((Journaled.write (.connectTable _ _)).keeps hintact
    (connectTable_exposes (hshower startId (.inl rfl)) hstored)).imp ?_
  rintro - w₁ ⟨hkeeps₁, hgraph₁, hsupply₁⟩
  refine ((Journaled.write (.connectTable _ _)).keeps hkeeps₁.1
    (connectTable_exposes ?_ ?_)).imp ?_
  · rw [Workspace.revision?_eq, hgraph₁]
    exact hshower draftId (.inr rfl)
  · rw [Workspace.table?_eq, hgraph₁]
    exact hstored
  rintro - w₂ ⟨hkeeps₂, hgraph₂, hsupply₂⟩
  have hgraph : w₂.graph = w.graph.withTables
      (w.graph.tables.expose (fun r => r = startId ∨ r = draftId) (· = table.version)) := by
    rw [hgraph₂, hgraph₁, ← Layer.expose_owners]
    rfl
  refine (lockTable_shares hkeeps₂.1 hgraph htable).imp ?_
  rintro - w₃ ⟨hgraph₃, hsupply₃⟩
  exact ⟨hgraph₃, hsupply₃.trans (hsupply₂.trans hsupply₁)⟩

/-- A new draft shares the tables of the draft before. -/
theorem shares_commit : Shares (fun table => do
    write (·.connectTable nextId table.version)
    lockTable table) (· = nextId) := by
  intro w table hintact hshower htable
  have hstored : ∃ old, w.store.table? table.version = some old := htable.elim (⟨_, ·⟩) (⟨_, ·⟩)
  simp only [yields_bind]
  refine ((Journaled.write (.connectTable _ _)).keeps hintact
    (connectTable_exposes (hshower nextId rfl) hstored)).imp ?_
  rintro - w₁ ⟨hkeeps₁, hgraph₁, hsupply₁⟩
  refine (lockTable_shares hkeeps₁.1 hgraph₁ htable).imp ?_
  rintro - w₂ ⟨hgraph₂, hsupply₂⟩
  exact ⟨hgraph₂, hsupply₂.trans hsupply₁⟩

/-- All tables of a list are shared. -/
theorem forM_share_yields {step : TableVersion → Edit Unit} (hstep : Shares step Shower)
    (hjournaled : ∀ table, (step table).Journaled) {tables : List TableVersion}
    (hintact : w.store.Intact)
    (hshower : ∀ r, Shower r → ∃ revision, w.store.revision? r = some revision)
    (htables : ∀ table ∈ tables, w.store.table? table.version = some table ∨
      w.store.table? table.version = some table.lock) :
    (forM tables step).Yields w fun _ w' =>
      w'.graph = w.graph.share w.graph.lines Shower (fun v => ∃ table ∈ tables, table.version = v) ∧
        w'.supply = w.supply := by
  induction tables generalizing w with
  | nil =>
    refine yields_forM_nil.mpr ⟨?_, rfl⟩
    simp [Graph.share_nothing]
  | cons first rest ih =>
    refine yields_forM_cons.mpr (((hjournaled first).keeps hintact
      (hstep hintact hshower (htables first (by simp)))).imp ?_)
    rintro - w₁ ⟨hkeeps, hgraph, hsupply⟩
    refine (ih hkeeps.1 (fun r hr => ?_) fun table hmem => ?_).imp ?_
    · rw [Workspace.revision?_eq, hgraph]
      exact hshower r hr
    · rw [Workspace.table?_eq, hgraph, Graph.table?_share]
      exact Layer.record?_lock_or (htables table (List.mem_cons_of_mem _ hmem))
    · rintro - w₂ ⟨hgraph₂, hsupply₂⟩
      refine ⟨?_, hsupply₂.trans hsupply⟩
      rw [hgraph₂, hgraph]
      refine Graph.share_share.trans ?_
      simp [eq_comm]

/-- The tables of a revision are what it shows. -/
theorem shared_tablesOf (h : w.store.Intact) :
    (fun v => ∃ table ∈ w.store.tablesOf id, table.version = v) = w.graph.tables.Linked id := by
  ext v
  refine ⟨?_, ?_⟩
  · rintro ⟨table, hmem, rfl⟩
    exact (h.mem_tablesOf.mp hmem).1
  · intro hshown
    obtain ⟨table, htable, rfl⟩ := h.exists_table hshown
    exact ⟨table, h.mem_tablesOf.mpr ⟨hshown, htable⟩, rfl⟩

end Edit

/-! ## Creating -/

/-- What the creation of a branch comes to. -/
structure NewBranch (name : BranchName) (source : Option RevisionId) (result : BranchCreated)
    (w w' : Workspace) : Prop where
  sound : w'.Sound
  later : w.supply.Later w'.supply
  name_eq : result.branch = name
  branch_new : w.graph.lines.branch? name = none
  source_published : ∀ id ∈ source, w.graph.lines.Published id
  start_new : w.graph.lines.revision? result.start = none
  draft_new : w.graph.lines.revision? result.draft = none
  start_ne_draft : result.start ≠ result.draft
  lines : ∃ time time' time'', w'.graph.lines = w.graph.lines.addBranch ⟨name, time⟩
    (.start result.start name source time') (.draft result.draft name result.start time'')
  others : ∀ r, ¬(r = result.start ∨ r = result.draft) → w.graph.SameView w'.graph r
  content : ∀ r, r = result.start ∨ r = result.draft →
    w'.graph.content r = (source.map w.graph.content).getD ∅
  outline : w'.graph.outline result.draft = w'.graph.outline result.start
  strays : ∀ {v}, w'.graph.tables.Stray v → w.graph.tables.Stray v

namespace Graph

variable {g : Graph} {used : String → Prop} {time time' time'' : Instant}

/-- A branch is written with its two revisions, which share tables of a source, if there is one. -/
theorem Coherent.addBranch (hc : g.Closed) (h : g.Coherent) {source : Option RevisionId}
    (hname : g.lines.branch? name = none) (hstart : g.lines.revision? startId = none)
    (hdraft : g.lines.revision? draftId = none) (hne : startId ≠ draftId)
    (hshared : ∀ {v}, Shared v → ∃ id, source = some id ∧ g.tables.Linked id v) :
    (g.share (g.lines.addBranch ⟨name, time⟩ (.start startId name source time')
      (.draft draftId name startId time'')) (fun r => r = startId ∨ r = draftId) Shared).Coherent := by
  have hpublished {r : RevisionId} : (g.lines.addBranch ⟨name, time⟩
      (.start startId name source time') (.draft draftId name startId time'')).Published r ↔
      g.lines.Published r ∨ r = startId :=
    Lines.published_addBranch rfl rfl hdraft hne
  -- Where there is no source nothing is shared, and any revision will do in its place.
  have hshared {v : VersionId} (hv : Shared v) : g.tables.Linked (source.getD startId) v := by
    obtain ⟨id, rfl, hv⟩ := hshared hv
    exact hv
  refine h.share hc (h.lines.addBranch hname hstart hdraft hne) (fun hr => ?_) (fun hr => ?_)
    (fun _ => ?_) (fun hr => ?_) hshared
  · rcases hpublished.mp hr with hr | rfl
    · exact .inl hr
    · exact .inr (.inl (.inl rfl))
  · exact hpublished.mpr (.inl hr)
  · exact ⟨startId, hpublished.mpr (.inr rfl), .inr (.inl rfl)⟩
  · rcases hr with rfl | rfl
    · exact hc.not_shower hstart _
    · exact hc.not_shower hdraft _

theorem Uses.addBranch (h : g.Uses used) {source : Option RevisionId} (hstart : used startId.text)
    (hdraft : used draftId.text) :
    (g.share (g.lines.addBranch ⟨name, time⟩ (.start startId name source time')
      (.draft draftId name startId time'')) Shower Shared).Uses used := by
  refine h.share fun hrevision => ?_
  rw [Lines.revision?_addBranch] at hrevision
  split at hrevision
  · next hid => exact hid ▸ hdraft
  · split at hrevision
    · next hid => exact hid ▸ hstart
    · exact h.revisions hrevision

end Graph

/-- A branch whose revisions share the tables of a published source. -/
theorem NewBranch.of_share (h : w.Sound) {source : Option RevisionId} {time time' time'' : Instant}
    (hkeeps : w'.store.Intact ∧ w.supply.Later w'.supply)
    (hname : w.graph.lines.branch? name = none)
    (hsource : ∀ id ∈ source, w.graph.lines.Published id)
    (hstart : w.supply.Between w'.supply startId.text)
    (hdraft : w.supply.Between w'.supply draftId.text) (hne : startId ≠ draftId)
    (hgraph : w'.graph = w.graph.share (w.graph.lines.addBranch ⟨name, time⟩
        (.start startId name source time') (.draft draftId name startId time''))
      (fun r => r = startId ∨ r = draftId)
      (fun v => ∃ id, source = some id ∧ w.graph.tables.Linked id v)) :
    NewBranch name source ⟨name, startId, draftId⟩ w w' := by
  have hclosed := h.intact.closed
  have hstart_new : w.graph.lines.revision? startId = none := h.revision?_eq_none hstart.1
  have hdraft_new : w.graph.lines.revision? draftId = none := h.revision?_eq_none hdraft.1
  have hunshown {r : RevisionId} {v : VersionId} (hr : r = startId ∨ r = draftId) :
      ¬w.graph.tables.Linked r v := by
    rcases hr with rfl | rfl
    · exact hclosed.not_shower hstart_new v
    · exact hclosed.not_shower hdraft_new v
  exact {
    sound := h.after hkeeps hgraph
      (h.coherent.addBranch hclosed hname hstart_new hdraft_new hne id)
      ((h.uses.mono hkeeps.2.drawn_of).addBranch hstart.2 hdraft.2)
    later := hkeeps.2
    name_eq := rfl
    branch_new := hname
    source_published := hsource
    start_new := hstart_new
    draft_new := hdraft_new
    start_ne_draft := hne
    lines := ⟨time, time', time'', by rw [hgraph]; rfl⟩
    others := by
      intro r hr
      rw [hgraph]
      refine Graph.sameView_share h.coherent hr ?_
      rintro v - ⟨id, hid, hv⟩
      exact h.coherent.ownedTables.published hv (hsource id hid)
    content := by
      intro r hr
      rw [hgraph]
      cases source with
      | none =>
        refine Graph.content_share_nothing (fun v => hunshown hr) ?_
        rintro v ⟨id, hid, -⟩
        cases hid
      | some id =>
        refine Graph.content_share_of hr (fun v => hunshown hr) fun v => ?_
        simp
    outline := by
      rw [hgraph]
      exact Graph.outline_share_eq (.inr rfl) (.inl rfl) (fun _ => hunshown (.inr rfl))
        fun _ => hunshown (.inl rfl)
    strays := by
      intro v hv
      rw [hgraph] at hv
      exact Graph.stray_of_share hv }

namespace NewBranch

variable {source : Option RevisionId} {result : BranchCreated}

theorem revision?_start (h : NewBranch name source result w w') : ∃ time,
    w'.graph.lines.revision? result.start = some (.start result.start name source time) := by
  obtain ⟨_, time, _, hlines⟩ := h.lines
  refine ⟨time, ?_⟩
  rw [hlines, Lines.revision?_addBranch]
  exact (if_neg h.start_ne_draft).trans (if_pos rfl)

theorem revision?_draft (h : NewBranch name source result w w') : ∃ time,
    w'.graph.lines.revision? result.draft = some (.draft result.draft name result.start time) := by
  obtain ⟨_, _, time, hlines⟩ := h.lines
  refine ⟨time, ?_⟩
  rw [hlines, Lines.revision?_addBranch]
  exact if_pos rfl

/-- The other revisions keep their records. -/
theorem revision?_other (h : NewBranch name source result w w')
    (hid : ¬(id = result.start ∨ id = result.draft)) :
    w'.graph.lines.revision? id = w.graph.lines.revision? id := by
  obtain ⟨_, _, _, hlines⟩ := h.lines
  rw [hlines, Lines.revision?_addBranch]
  exact (if_neg fun heq => hid (.inr heq)).trans (if_neg fun heq => hid (.inl heq))

end NewBranch

/-- A name is read as it is, if it can be read. -/
theorem BranchName.parse_eq_ok {text : String} :
    BranchName.parse text = .ok name ↔ (BranchName.parse text).isOk = true ∧ name = ⟨text⟩ := by
  simp only [BranchName.parse]
  split
  · simp [Except.isOk, Except.toBool]
  · split
    · simp [Except.isOk, Except.toBool]
    · simp [Except.isOk, Except.toBool, eq_comm]

namespace Edit

/-- What is asked of the source of a branch, if there is one. -/
@[simp] theorem yields_mapM_requireSource {source : Option RevisionId}
    {Q : Option Revision → Workspace → Prop} :
    (source.mapM requireSource : Edit (Option Revision)).Yields w Q ↔
      (∀ id ∈ source, w.graph.lines.Published id) ∧ Q (source.bind w.store.revision?) w := by
  cases source with
  | none =>
    refine yields_pure.trans ?_
    simp
  | some id =>
    refine yields_map.trans (yields_requireSource.trans ?_)
    simp only [Option.mem_some_iff, forall_eq', Option.bind_some]
    refine ⟨?_, ?_⟩
    · rintro ⟨revision, hrevision, hflag, hQ⟩
      exact ⟨⟨revision, hrevision, hflag⟩, by rwa [hrevision]⟩
    · rintro ⟨⟨revision, hrevision, hflag⟩, hQ⟩
      rw [Workspace.revision?_eq, hrevision] at hQ
      exact ⟨revision, hrevision, hflag, hQ⟩

@[simp] theorem vets_mapM_requireSource {β : Type} {source : Option RevisionId} {P : Prop}
    {f : Option Revision → Edit β} :
    ((source.mapM requireSource : Edit (Option Revision)) >>= f).Vets w P ↔
      ((∀ id ∈ source, w.graph.lines.Published id) →
        (f (source.bind w.store.revision?)).Vets w P) := by
  cases source with
  | none => exact (vets_bind_of_ok rfl).trans (by simp)
  | some id =>
    have hmap : (some id).mapM requireSource = some <$> requireSource id := rfl
    rw [hmap, map_eq_pure_bind, bind_assoc, vets_requireSource]
    simp only [pure_bind, Option.mem_some_iff, forall_eq', Option.bind_some]
    refine ⟨?_, ?_⟩
    · rintro hvets ⟨revision, hrevision, hflag⟩
      rw [Workspace.revision?_eq, hrevision]
      exact hvets revision hrevision hflag
    · intro hvets revision hrevision hflag
      have hrest := hvets ⟨revision, hrevision, hflag⟩
      rwa [hrevision] at hrest

theorem createBranch_vets {source : Option RevisionId} {text : String} :
    (createBranch text source).Vets w ((BranchName.parse text).isOk = true ∧
      w.graph.lines.branch? ⟨text⟩ = none ∧ ∀ id ∈ source, w.graph.lines.Published id) := by
  simp only [createBranch, vets_parseName, vets_store]
  intro parsed hparse
  obtain ⟨hok, rfl⟩ := BranchName.parse_eq_ok.mp hparse
  split
  · exact vets_bind_of_error rfl rfl
  next hnew =>
  rw [vets_mapM_requireSource]
  exact fun hsource => .inr ⟨hok, by simpa using hnew, hsource⟩

/-- A branch of a new name is written, with two new revisions. -/
theorem addBranch_yields (h : w.Sound) {parent : Option RevisionId}
    (hname : w.graph.lines.branch? name = none) :
    (addBranch name parent).Yields w fun created w' =>
      (w'.store.Intact ∧ w.supply.Later w'.supply) ∧ created.branch = name ∧
        created.start ≠ created.draft ∧ w.supply.Between w'.supply created.start.text ∧
        w.supply.Between w'.supply created.draft.text ∧
        ∃ time time' time'', w'.graph = w.graph.withLines (w.graph.lines.addBranch ⟨name, time⟩
          (.start created.start name parent time')
          (.draft created.draft name created.start time'')) := by
  simp only [addBranch, yields_bind, yields_pure]
  refine now_draws.imp ?_
  rintro time w₁ ⟨hstore₁, hlater₁⟩
  refine ((Journaled.write (.createBranch _)).keeps (hstore₁ ▸ h.intact)
    (createBranch_yields (by rw [hstore₁]; exact hname))).imp ?_
  rintro - w₂ ⟨⟨hintact₂, hlater₂⟩, hgraph₂, -⟩
  have hbefore : w.supply.Later w₂.supply := hlater₁.trans hlater₂
  refine record_draws (hbefore.distinct h.distinct) ?_
  intro startId time' w₃ hstore₃ hlater₃ hstart
  have hbetween : w.supply.Later w₃.supply := hbefore.trans hlater₃
  refine record_draws (hbetween.distinct h.distinct) ?_
  intro draftId time'' w₄ hstore₄ hlater₄ hdraft
  have hstore : w₄.store = w₂.store := hstore₄.trans hstore₃
  have hgraph₄ : w₄.graph = w.graph.withLines (w.graph.lines.putBranch ⟨name, time⟩) := by
    refine (congrArg Store.graph hstore).trans (hgraph₂.trans ?_)
    rw [Workspace.graph, hstore₁]
  refine ((Journaled.write (.createRevision _)).keeps (hstore ▸ hintact₂)
    (createRevision_yields ?_ ?_)).imp ?_
  · rw [Workspace.revision?_eq, hgraph₄]
    exact h.revision?_eq_none (hstart.earlier hbefore).1
  · rw [Workspace.branch?_eq, hgraph₄]
    exact Option.isSome_iff_exists.mpr ⟨_, if_pos rfl⟩
  rintro - w₅ ⟨⟨hintact₅, hlater₅⟩, hgraph₅, -⟩
  rw [hgraph₄] at hgraph₅
  -- The second identifier is drawn when the first one has been.
  have hne : startId ≠ draftId := by
    rintro rfl
    exact hdraft.1 hstart.2
  refine ((Journaled.write (.createRevision _)).keeps hintact₅
    (createRevision_yields ?_ ?_)).imp ?_
  · rw [Workspace.revision?_eq, hgraph₅]
    refine (if_neg hne.symm).trans ?_
    exact h.revision?_eq_none (hdraft.earlier hbetween).1
  · rw [Workspace.branch?_eq, hgraph₅]
    exact Option.isSome_iff_exists.mpr ⟨_, if_pos rfl⟩
  rintro - w₆ ⟨⟨hintact₆, hlater₆⟩, hgraph₆, -⟩
  have hafter : w₄.supply.Later w₆.supply := hlater₅.trans hlater₆
  refine ⟨⟨hintact₆, hbetween.trans (hlater₄.trans hafter)⟩, trivial, hne,
    (hstart.earlier hbefore).later (hlater₄.trans hafter), (hdraft.earlier hbetween).later hafter,
    time, time', time'', ?_⟩
  rw [hgraph₆, hgraph₅]
  rfl

/-- The shared tables are those of the source, if there is one. -/
theorem shareTables_yields {found : Option Revision} {created : BranchCreated}
    (hintact : w.store.Intact)
    (hshower : ∀ r, r = created.start ∨ r = created.draft →
      ∃ revision, w.store.revision? r = some revision) :
    (shareTables created found).Yields w fun value w' => value = created ∧
      (w'.store.Intact ∧ w.supply.Later w'.supply) ∧
      w'.graph = w.graph.share w.graph.lines (fun r => r = created.start ∨ r = created.draft)
        (fun v => ∃ id, found.map (·.id) = some id ∧ w.graph.tables.Linked id v) := by
  cases found with
  | none =>
    refine yields_pure.mpr ⟨rfl, ⟨hintact, .refl _⟩, ?_⟩
    simp [Graph.share_nothing]
  | some source =>
    simp only [shareTables, yields_bind, yields_store, yields_pure]
    have hshare (table : TableVersion) : (shareTable created.start created.draft table).Journaled :=
      (Makes.shareTable _ _ (.everything table)).journaled
    refine ((Journaled.forM hshare _).keeps hintact (forM_share_yields shares_shareTable hshare
      hintact hshower fun table hmem => .inl (hintact.mem_tablesOf.mp hmem).2)).imp ?_
    rintro - w' ⟨hkeeps, hgraph, -⟩
    refine ⟨trivial, hkeeps, ?_⟩
    rw [hgraph, shared_tablesOf hintact]
    simp only [Option.map_some, Option.some.injEq, exists_eq_left']

/-- A branch is created, with a first revision and a draft that have the content of the source. -/
theorem createBranch_edit (h : w.Sound) {source : Option RevisionId} {text : String}
    (hparse : (BranchName.parse text).isOk = true) (hname : w.graph.lines.branch? ⟨text⟩ = none)
    (hsource : ∀ id ∈ source, w.graph.lines.Published id) :
    (createBranch text source).Yields w fun result w' => NewBranch ⟨text⟩ source result w w' := by
  have hfound : (source.bind w.store.revision?).map (·.id) = source := by
    cases source with
    | none => rfl
    | some id =>
      obtain ⟨revision, hrevision, -⟩ := hsource id rfl
      exact (congrArg (Option.map _) hrevision).trans (congrArg some (h.intact.id_eq hrevision))
  simp only [createBranch_eq, yields_bind, yields_parseName, yields_store, yields_ite,
    not_yields_throw, yields_mapM_requireSource]
  refine ⟨⟨text⟩, BranchName.parse_eq_ok.mpr ⟨hparse, rfl⟩, ?_⟩
  rw [if_neg (by rw [Workspace.branch?_eq, hname]; simp)]
  refine ⟨hsource, (addBranch_yields h hname).imp ?_⟩
  rintro ⟨_, startId, draftId⟩ w₁
    ⟨⟨hintact₁, hlater₁⟩, rfl, hne, hstart, hdraft, time, time', time'', hlines⟩
  rw [hfound] at hlines
  refine (shareTables_yields hintact₁ ?_).imp ?_
  · rintro r (rfl | rfl) <;> rw [Workspace.revision?_eq, hlines]
    · exact ⟨_, (if_neg hne).trans (if_pos rfl)⟩
    · exact ⟨_, if_pos rfl⟩
  rintro - w₂ ⟨rfl, ⟨hintact₂, hlater₂⟩, hgraph₂⟩
  rw [hlines, hfound] at hgraph₂
  exact NewBranch.of_share h ⟨hintact₂, hlater₁.trans hlater₂⟩ hname hsource
    (hstart.later hlater₂) (hdraft.later hlater₂) hne hgraph₂

end Edit

/-! ## Committing -/

/-- What a commit comes to. -/
structure NewHead (name : BranchName) (head draft : Revision) (comment : Option String)
    (nextId : RevisionId) (w w' : Workspace) : Prop where
  sound : w'.Sound
  later : w.supply.Later w'.supply
  next_new : w.graph.lines.revision? nextId = none
  lines : ∃ time, w'.graph.lines =
    w.graph.lines.promote head draft (.draft nextId name draft.id time) comment
  others : ∀ r, ¬(r = draft.id ∨ r = nextId) → w.graph.SameView w'.graph r
  content : ∀ r, r = draft.id ∨ r = nextId → w'.graph.content r = w.graph.content draft.id
  outline : ∀ r, r = draft.id ∨ r = nextId → w'.graph.outline r = w.graph.outline draft.id
  strays : ∀ {v}, w'.graph.tables.Stray v → w.graph.tables.Stray v

namespace Graph

variable {g : Graph} {used : String → Prop} {time : Instant} {comment : Option String}

/-- A draft is promoted, and the next draft shares its tables. -/
theorem Coherent.promote (hc : g.Closed) (h : g.Coherent) (hline : g.lines.Line name head draft)
    (hnew : g.lines.revision? nextId = none) :
    (g.share (g.lines.promote head draft (.draft nextId name draft.id time) comment) (· = nextId)
      (g.tables.Linked draft.id)).Coherent := by
  have hpublished {r : RevisionId} :
      (g.lines.promote head draft (.draft nextId name draft.id time) comment).Published r ↔
        g.lines.Published r ∨ r = draft.id :=
    Lines.published_promote hline rfl hnew
  refine h.share hc (h.lines.promote hc.id_eq hline hnew) (fun hr => ?_) (fun hr => ?_)
    (fun hv => ?_) (fun hr => ?_) id
  · rcases hpublished.mp hr with hr | rfl
    · exact .inl hr
    · exact .inr (.inr fun v => id)
  · exact hpublished.mpr (.inl hr)
  · exact ⟨draft.id, hpublished.mpr (.inr rfl), .inl hv⟩
  · exact hr ▸ hc.not_shower hnew _

theorem Uses.promote (h : g.Uses used) (hline : g.lines.Line name head draft)
    (hnext : used nextId.text) :
    (g.share (g.lines.promote head draft (.draft nextId name draft.id time) comment) Shower
      Shared).Uses used := by
  refine h.share fun hrevision => ?_
  rw [Lines.revision?_promote] at hrevision
  split at hrevision
  · next hid => exact hid ▸ hnext
  · split at hrevision
    · next hid => exact hid ▸ h.revisions hline.draft_stored
    · split at hrevision
      · next hid => exact hid ▸ h.revisions hline.head_stored
      · exact h.revisions hrevision

end Graph

/-- A draft that becomes the head of its branch shares its tables with the next draft. -/
theorem NewHead.of_share (h : w.Sound) (hline : w.graph.lines.Line name head draft) {time : Instant}
    {comment : Option String} (hkeeps : w'.store.Intact ∧ w.supply.Later w'.supply)
    (hnext : w.supply.Between w'.supply nextId.text)
    (hgraph : w'.graph = w.graph.share
      (w.graph.lines.promote head draft (.draft nextId name draft.id time) comment)
      (· = nextId) (w.graph.tables.Linked draft.id)) :
    NewHead name head draft comment nextId w w' := by
  have hclosed := h.intact.closed
  have hnew : w.graph.lines.revision? nextId = none := h.revision?_eq_none hnext.1
  have hne : draft.id ≠ nextId := Lines.ne_of_new hline.draft_stored hnew
  have hunshown {v : VersionId} : ¬w.graph.tables.Linked nextId v := hclosed.not_shower hnew v
  exact {
    sound := h.after hkeeps hgraph (h.coherent.promote hclosed hline hnew)
      ((h.uses.mono hkeeps.2.drawn_of).promote hline hnext.2)
    later := hkeeps.2
    next_new := hnew
    lines := ⟨time, by rw [hgraph]; rfl⟩
    others := by
      intro r hr
      rw [hgraph]
      refine Graph.sameView_share h.coherent (fun hr' => hr (.inr hr')) fun v hv hv' => ?_
      -- A table that the draft shares with another revision was published before.
      by_contra hopen
      exact hr (.inl (h.coherent.ownedTables.unique hv hv' hopen))
    content := by
      intro r hr
      rw [hgraph]
      rcases hr with rfl | rfl
      · exact Graph.content_share_of_not hne
      · exact Graph.content_share_of rfl (fun v => hunshown) fun v => Iff.rfl
    outline := by
      intro r hr
      rw [hgraph]
      rcases hr with rfl | rfl
      · exact Graph.outline_share_of_not hne
      · exact Graph.outline_share_of rfl (fun v => hunshown) fun v => Iff.rfl
    strays := by
      intro v hv
      rw [hgraph] at hv
      exact Graph.stray_of_share hv }

namespace NewHead

variable {comment : Option String}

theorem draft_ne_next (h : NewHead name head draft comment nextId w w')
    (hline : w.graph.lines.Line name head draft) : draft.id ≠ nextId :=
  Lines.ne_of_new hline.draft_stored h.next_new

theorem revision?_next (h : NewHead name head draft comment nextId w w') : ∃ time,
    w'.graph.lines.revision? nextId = some (.draft nextId name draft.id time) := by
  obtain ⟨time, hlines⟩ := h.lines
  refine ⟨time, ?_⟩
  rw [hlines, Lines.revision?_promote]
  exact if_pos rfl

/-- The draft is the head now. -/
theorem revision?_draft (h : NewHead name head draft comment nextId w w')
    (hline : w.graph.lines.Line name head draft) : w'.graph.lines.revision? draft.id =
      some { draft with isHead := true, isDraft := false, hasChanges := false, comment } := by
  obtain ⟨time, hlines⟩ := h.lines
  rw [hlines, Lines.revision?_promote]
  exact (if_neg (h.draft_ne_next hline)).trans (if_pos rfl)

/-- The head before is none any more, and the other revisions keep their records. -/
theorem revision?_other (h : NewHead name head draft comment nextId w w')
    (hid : ¬(id = draft.id ∨ id = nextId)) : w'.graph.lines.revision? id =
      if id = head.id then some { head with isHead := false, isDraft := false }
      else w.graph.lines.revision? id := by
  obtain ⟨time, hlines⟩ := h.lines
  rw [hlines, Lines.revision?_promote]
  exact (if_neg fun heq => hid (.inr heq)).trans (if_neg fun heq => hid (.inl heq))

end NewHead

namespace Edit

/-- A branch that is to be committed or reverted has a changed draft. That it has a draft if it has
a head is up to the store, and so is that the draft is on top of the head. -/
theorem yields_requireChanges (h : w.Sound) {Q : Revision × Revision → Workspace → Prop} :
    (requireChanges branch).Yields w Q ↔ ∃ head draft,
      w.graph.lines.Line branch head draft ∧ draft.hasChanges = true ∧ Q (head, draft) w := by
  simp only [requireChanges, yields_bind, yields_orFault, yields_store, yields_ite,
    not_yields_throw, yields_pure]
  refine ⟨?_, ?_⟩
  · rintro ⟨head, hhead, draft, hdraft, hrest⟩
    obtain ⟨draft', hline⟩ := h.findRevision_head.mp hhead
    obtain ⟨head', hline'⟩ := h.findRevision_draft.mp hdraft
    obtain ⟨rfl, rfl⟩ := hline.eq hline'
    split at hrest
    · cases hrest
    · next hflag => exact ⟨head', draft, hline, by simpa using hflag, hrest⟩
  · rintro ⟨head, draft, hline, hflag, hQ⟩
    refine ⟨head, h.findRevision_head.mpr ⟨draft, hline⟩, draft,
      h.findRevision_draft.mpr ⟨head, hline⟩, ?_⟩
    rwa [if_neg (by simp [hflag])]

/-- It is asked before anything else. -/
theorem vets_requireChanges (h : w.Sound) {β : Type} {f : Revision × Revision → Edit β} :
    (requireChanges branch >>= f).Vets w
      (∃ head draft, w.graph.lines.Line branch head draft ∧ draft.hasChanges = true) := by
  simp only [requireChanges, bind_assoc, vets_store, vets_orFault .noHead rfl]
  intro head hhead
  obtain ⟨draft, hline⟩ := h.findRevision_head.mp hhead
  rw [h.findRevision_draft.mpr ⟨head, hline⟩]
  refine (vets_bind_of_ok rfl).mpr ?_
  split
  · exact vets_bind_of_error rfl rfl
  · next hflag => exact .inr ⟨head, draft, hline, by simpa using hflag⟩

theorem commit_vets (h : w.Sound) {comment : Option String} : (commit branch comment).Vets w
    (∃ head draft, w.graph.lines.Line branch head draft ∧ draft.hasChanges = true) :=
  vets_requireChanges h

/-- Turns a draft into the head of its branch and writes its next draft, which shows nothing yet. -/
def promoteDraft (branch : BranchName) (head draft : Revision) (comment : Option String) :
    Edit RevisionId := do
  write (·.updateRevision { head with isHead := false, isDraft := false })
  write (·.updateRevision
    { draft with isHead := true, isDraft := false, hasChanges := false, comment })
  let nextDraft ← freshId .revision
  let record := Revision.draft nextDraft branch draft.id (← now)
  write (·.createRevision record)
  return nextDraft

/-- The draft is promoted first and shares its tables with the next one then. -/
theorem commit_eq (branch : BranchName) (comment : Option String) :
    commit branch comment = (do
      let (head, draft) ← requireChanges branch
      let nextDraft ← promoteDraft branch head draft comment
      ((← store).tablesOf draft.id).forM fun table => do
        write (·.connectTable nextDraft table.version)
        lockTable table
      return ⟨head.id, draft.id, draft.id, nextDraft⟩) := by
  simp only [commit, promoteDraft, bind_assoc, pure_bind]

/-- A draft is promoted, with a new draft on top of it. -/
theorem promoteDraft_yields (h : w.Sound) (hline : w.graph.lines.Line branch head draft)
    {comment : Option String} :
    (promoteDraft branch head draft comment).Yields w fun nextId w' =>
      (w'.store.Intact ∧ w.supply.Later w'.supply) ∧ w.supply.Between w'.supply nextId.text ∧
        ∃ time, w'.graph = w.graph.withLines (w.graph.lines.promote head draft
          (.draft nextId branch draft.id time) comment) := by
  simp only [promoteDraft, yields_bind, yields_pure]
  refine ((Journaled.write (.updateRevision _)).keeps h.intact
    (updateRevision_yields ?_)).imp ?_
  · exact ⟨head, hline.head_stored⟩
  rintro - w₁ ⟨⟨hintact₁, hlater₁⟩, hgraph₁, -⟩
  refine ((Journaled.write (.updateRevision _)).keeps hintact₁
    (updateRevision_yields ?_)).imp ?_
  · rw [Workspace.revision?_eq, hgraph₁]
    exact ⟨draft, (if_neg hline.head_ne_draft.symm).trans hline.draft_stored⟩
  rintro - w₂ ⟨⟨hintact₂, hlater₂⟩, hgraph₂, -⟩
  rw [hgraph₁] at hgraph₂
  have hbefore : w.supply.Later w₂.supply := hlater₁.trans hlater₂
  refine record_draws (hbefore.distinct h.distinct) ?_
  intro nextId time w₃ hstore₃ hlater₃ hnext
  have hgraph₃ : w₃.graph = w₂.graph := congrArg Store.graph hstore₃
  rw [hgraph₂] at hgraph₃
  have hnew : w.graph.lines.revision? nextId = none :=
    h.revision?_eq_none (hnext.earlier hbefore).1
  have hne {other : Revision} (hother : w.graph.lines.revision? other.id = some other) :
      nextId ≠ other.id :=
    (Lines.ne_of_new hother hnew).symm
  refine ((Journaled.write (.createRevision _)).keeps (hstore₃ ▸ hintact₂)
    (createRevision_yields ?_ ?_)).imp ?_
  · rw [Workspace.revision?_eq, hgraph₃]
    exact (if_neg (hne hline.draft_stored)).trans ((if_neg (hne hline.head_stored)).trans hnew)
  · have hexists := h.coherent.lines.branch_exists hline.draft_stored
    rw [hline.draft_branch] at hexists
    rw [Workspace.branch?_eq, hgraph₃]
    exact hexists
  rintro - w₄ ⟨⟨hintact₄, hlater₄⟩, hgraph₄, -⟩
  refine ⟨⟨hintact₄, hbefore.trans (hlater₃.trans hlater₄)⟩,
    (hnext.earlier hbefore).later hlater₄, time, ?_⟩
  rw [hgraph₄, hgraph₃]
  rfl

/-- A changed draft is promoted and shares its tables with the next draft. -/
theorem commit_yields (h : w.Sound) (hline : w.graph.lines.Line branch head draft)
    (hflag : draft.hasChanges = true) {comment : Option String} :
    (commit branch comment).Yields w fun result w' =>
      result = ⟨head.id, draft.id, draft.id, result.nextDraft⟩ ∧
        (w'.store.Intact ∧ w.supply.Later w'.supply) ∧
        w.supply.Between w'.supply result.nextDraft.text ∧
        ∃ time, w'.graph = w.graph.share (w.graph.lines.promote head draft
            (.draft result.nextDraft branch draft.id time) comment)
          (· = result.nextDraft) (w.graph.tables.Linked draft.id) := by
  rw [commit_eq, yields_bind, yields_requireChanges h]
  refine ⟨head, draft, hline, hflag, ?_⟩
  simp only [yields_bind, yields_store, yields_pure, List.forM_eq_forM]
  refine (promoteDraft_yields h hline).imp ?_
  rintro nextId w₁ ⟨⟨hintact₁, hlater₁⟩, hnext, time, hlines⟩
  have hshare (table : TableVersion) : (do
      write (·.connectTable nextId table.version)
      lockTable table).Journaled :=
    (Makes.keepTable nextId (.everything table)).journaled
  refine ((Journaled.forM hshare _).keeps hintact₁ (forM_share_yields shares_commit hshare hintact₁
    ?_ fun table hmem => .inl (hintact₁.mem_tablesOf.mp hmem).2)).imp ?_
  · rintro r rfl
    rw [Workspace.revision?_eq, hlines]
    exact ⟨_, if_pos rfl⟩
  rintro - w₂ ⟨⟨hintact₂, hlater₂⟩, hgraph₂, -⟩
  rw [shared_tablesOf hintact₁, hlines] at hgraph₂
  exact ⟨trivial, ⟨hintact₂, hlater₁.trans hlater₂⟩, hnext.later hlater₂, time, hgraph₂⟩

/-- A changed draft is committed. -/
theorem commit_edit (h : w.Sound) (hline : w.graph.lines.Line branch head draft)
    (hflag : draft.hasChanges = true) {comment : Option String} :
    (commit branch comment).Yields w fun result w' =>
      result = ⟨head.id, draft.id, draft.id, result.nextDraft⟩ ∧
        NewHead branch head draft comment result.nextDraft w w' := by
  refine (commit_yields h hline hflag).imp ?_
  rintro result w' ⟨hresult, hkeeps, hnext, time, hgraph⟩
  exact ⟨hresult, .of_share h hline hkeeps hnext hgraph⟩

/-! ## Reverting -/

/-- A draft lets go of the tables of a list. -/
theorem forM_disconnectTable_yields {tables : List VersionId} :
    (forM tables fun v => change (·.disconnectTable id v)).Yields w fun _ w' =>
      w'.graph = w.graph.withTables
          (w.graph.tables.prune (fun r v => ¬(r = id ∧ v ∈ tables)) fun _ => False) ∧
        w'.supply = w.supply := by
  induction tables generalizing w with
  | nil =>
    refine yields_forM_nil.mpr ⟨?_, rfl⟩
    simp [Layer.prune_nothing]
  | cons first rest ih =>
    refine yields_forM_cons.mpr (disconnectTable_yields.imp ?_)
    rintro - w₁ ⟨hgraph₁, hsupply₁⟩
    refine ih.imp ?_
    rintro - w₂ ⟨hgraph₂, hsupply₂⟩
    refine ⟨?_, hsupply₂.trans hsupply₁⟩
    rw [hgraph₂, hgraph₁, Layer.link_false]
    simp only [Graph.withTables_tables, Layer.prune_keeps, List.mem_cons, and_or_left, not_or]
    rfl

/-- A draft comes to show the tables of a list. -/
theorem forM_connectTable_yields {tables : List VersionId}
    (hrevision : ∃ revision, w.store.revision? id = some revision)
    (htables : ∀ v ∈ tables, ∃ table, w.store.table? v = some table) :
    (forM tables fun v => write (·.connectTable id v)).Yields w fun _ w' =>
      w'.graph = w.graph.withTables (w.graph.tables.expose (· = id) (· ∈ tables)) ∧
        w'.supply = w.supply := by
  induction tables generalizing w with
  | nil =>
    refine yields_forM_nil.mpr ⟨?_, rfl⟩
    simp [Layer.expose_nothing]
  | cons first rest ih =>
    refine yields_forM_cons.mpr
      ((connectTable_exposes hrevision (htables first (by simp))).imp ?_)
    rintro - w₁ ⟨hgraph₁, hsupply₁⟩
    refine (ih ?_ fun v hv => ?_).imp ?_
    · rw [Workspace.revision?_eq, hgraph₁]
      exact hrevision
    · rw [Workspace.table?_eq, hgraph₁]
      exact htables v (List.mem_cons_of_mem _ hv)
    · rintro - w₂ ⟨hgraph₂, hsupply₂⟩
      refine ⟨?_, hsupply₂.trans hsupply₁⟩
      rw [hgraph₂, hgraph₁]
      simp only [Graph.withTables_tables, Layer.expose_expose, List.mem_cons]
      rfl

/-- Letting go of all tables and showing those of another revision puts a draft back. -/
theorem expose_prune_eq_inherit {L : Layer RevisionId TableVersion}
    {before after : List VersionId} (hbefore : ∀ v, v ∈ before ↔ L.Linked draft.id v)
    (hafter : ∀ v, v ∈ after ↔ L.Linked head.id v) :
    (L.prune (fun r v => ¬(r = draft.id ∧ v ∈ before)) fun _ => False).expose
        (· = draft.id) (· ∈ after) = L.inherit draft.id (some head.id) := by
  refine Layer.ext_iff_linked (fun u => by simp [Layer.expose, Layer.prune]) fun r v => ?_
  simp only [Layer.expose, Layer.linked_prune, Layer.linked_inherit, hbefore, hafter]
  split
  · next hr =>
    subst hr
    simp
  · next hr => simp [hr]

/-- A draft that is put back to a published revision. -/
theorem reset_step (h : w.Sound) (hhead : w.graph.lines.Published head.id)
    (hopen : ¬w.graph.lines.Published draft.id)
    (hkeeps : w'.store.Intact ∧ w.supply.Later w'.supply)
    (hgraph : w'.graph = w.graph.reset draft.id head.id) :
    DraftStep draft.id (fun _ => w.graph.content head.id) w w' := by
  refine .of_graph h hkeeps hgraph ?_ ?_ rfl (fun r hr => ?_) ?_
  · exact h.coherent.reset hhead hopen
  · exact (h.uses.mono hkeeps.2.drawn_of).reset
  · exact Graph.sameView_reset hr
  · exact Graph.content_reset

theorem revert_vets (h : w.Sound) : (revert branch).Vets w
    (∃ head draft, w.graph.lines.Line branch head draft ∧ draft.hasChanges = true) :=
  vets_requireChanges h

/-- A changed draft comes to show what the head does, and is marked as unchanged then. -/
theorem revert_yields (h : w.Sound) (hline : w.graph.lines.Line branch head draft)
    (hflag : draft.hasChanges = true) :
    (revert branch).Yields w fun result w' =>
      (result.head = head.id ∧ result.draft = draft.id ∧ result.detached.Nodup ∧
        ∀ v, v ∈ result.detached ↔
          w.graph.tables.Linked draft.id v ∧ ¬w.graph.tables.Linked head.id v) ∧
      ∃ w₁ : Workspace, (w₁.store.Intact ∧ w.supply.Later w₁.supply) ∧
        w₁.graph = w.graph.reset draft.id head.id ∧
        (w'.store.Intact ∧ w₁.supply.Later w'.supply) ∧
        w'.graph = w₁.graph.withLines (w₁.graph.lines.mark draft false) := by
  rw [revert, yields_bind, yields_requireChanges h]
  refine ⟨head, draft, hline, hflag, ?_⟩
  simp only [yields_bind, yields_store, yields_pure, List.forM_eq_forM]
  -- Both lists are read before the first link changes, so they say what is shown at the start.
  have hversions {id : RevisionId} (v : VersionId) :
      v ∈ (w.store.tablesOf id).map (·.version) ↔ w.graph.tables.Linked id v := by
    rw [List.mem_map]
    exact iff_of_eq (congrFun (shared_tablesOf h.intact) v)
  have hnodup : ((w.store.tablesOf draft.id).map (·.version)).Nodup := by
    rw [h.intact.versions_tablesOf]
    exact Links.nodup_targets _ _
  refine ((Journaled.forM (fun _ => Journaled.change (.disconnectTable _ _) fun _ => rfl) _).keeps
    h.intact forM_disconnectTable_yields).imp ?_
  rintro - w₁ ⟨hkeeps₁, hgraph₁, -⟩
  refine ((Journaled.forM (fun _ => Journaled.write (.connectTable _ _)) _).keeps
    hkeeps₁.1 (forM_connectTable_yields ?_ ?_)).imp ?_
  · rw [Workspace.revision?_eq, hgraph₁]
    exact ⟨draft, hline.draft_stored⟩
  · intro v hv
    rw [Workspace.table?_eq, hgraph₁]
    obtain ⟨table, htable⟩ := h.intact.closed.shown ((hversions v).mp hv)
    exact ⟨table, (Layer.record?_prune_of_not id).trans htable⟩
  rintro - w₂ ⟨hkeeps₂, hgraph₂, -⟩
  have hgraph : w₂.graph = w.graph.reset draft.id head.id := by
    rw [hgraph₂, hgraph₁, Graph.withTables_tables,
      expose_prune_eq_inherit hversions hversions]
    rfl
  refine ((Journaled.write (.updateRevision _)).keeps hkeeps₂.1
    (updateRevision_yields ?_)).imp ?_
  · rw [Workspace.revision?_eq, hgraph]
    exact ⟨draft, hline.draft_stored⟩
  rintro - w₃ ⟨hkeeps₃, hgraph₃, -⟩
  refine ⟨⟨trivial, trivial, hnodup.filter _, fun v => ?_⟩, w₂, ⟨hkeeps₂.1, hkeeps₁.2.trans hkeeps₂.2⟩,
    hgraph, hkeeps₃, hgraph₃⟩
  rw [List.mem_filter, hversions, Bool.not_eq_true', ← Bool.not_eq_true, List.contains_iff_mem,
    hversions]

/-- A changed draft is put back to the content of the head. -/
theorem revert_edit (h : w.Sound) (hline : w.graph.lines.Line branch head draft)
    (hflag : draft.hasChanges = true) :
    (revert branch).Yields w fun _ w' =>
      DraftEdit draft (fun _ => w.graph.content head.id) w w' ∧ Compared draft false w' := by
  refine (revert_yields h hline hflag).imp ?_
  rintro - w' ⟨-, w₁, hkeeps₁, hgraph₁, hkeeps, hgraph⟩
  have hdraft : w.graph.lines.Drafts draft := ⟨hline.draft_stored, hline.isDraft⟩
  have hstep := reset_step h ⟨head, hline.head_stored, hline.head_published⟩ hdraft.not_published
    hkeeps₁ hgraph₁
  refine ⟨hstep.marked hdraft hkeeps hgraph, ?_, iff_of_false Bool.false_ne_true (not_not.mpr ?_)⟩
  · rw [hgraph]
    exact if_pos rfl
  · rw [hgraph]
    change w₁.graph.outline draft.id = w₁.graph.baseline draft
    rw [hstep.baseline_eq h hdraft, hgraph₁, Graph.outline_reset, Graph.baseline, hline.parent,
      Option.elim_some]

/-! ## Collecting garbage -/

end Edit

/-- A step that nobody can see. -/
structure HiddenStep (w w' : Workspace) : Prop where
  sound : w'.Sound
  later : w.supply.Later w'.supply
  lines : w'.graph.lines = w.graph.lines
  views : ∀ r, w.graph.SameView w'.graph r
  strays : ∀ {v}, w'.graph.tables.Stray v → w.graph.tables.Stray v

/-- Nobody can see that garbage is collected. -/
theorem Edit.collectGarbage_edit (h : w.Sound) :
    collectGarbage.Yields w fun _ w' => HiddenStep w w' := by
  refine (Makes.collectGarbage.journaled.keeps h.intact (collectGarbage_yields h.intact)).imp ?_
  rintro - w' ⟨hkeeps, hgraph, -⟩
  have huses := (h.uses.mono hkeeps.2.drawn_of).sweep
  refine ⟨h.after hkeeps hgraph h.coherent.sweep huses, hkeeps.2, ?_, fun r => ?_, fun hv => ?_⟩
  · rw [hgraph]
    rfl
  · rw [hgraph]
    exact Graph.sameView_sweep
  · rw [hgraph] at hv
    exact absurd hv Graph.not_stray_sweep

end VersionedTables
