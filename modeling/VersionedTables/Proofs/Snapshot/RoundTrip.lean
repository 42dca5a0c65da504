import VersionedTables.Proofs.Housing
import VersionedTables.Proofs.Snapshot.Reading

/-!
# Stores that come back from a snapshot

What is written of a store is accepted when the store passes the check that readers make of it
(`Store.ofSnapshotText_snapshotText`), and what this check asks for is `Store.Undamaged`. What is written
of an intact store is read back as the same store, but for notes that are the null document, if the
branch of every revision is there (`Store.Housed`). If it is not, the text is refused for exactly this
reason (`Store.Intact.ofSnapshotText_eq_ok_iff`), and there is no other.
-/

namespace VersionedTables

open Std

/-! ## Snapshots are legible -/

namespace Document

theorem legibleItems_iff {items : List Document} :
    LegibleItems items ↔ ∀ item ∈ items, Legible item := by
  induction items with
  | nil => simp [LegibleItems]
  | cons first rest ih => simp [LegibleItems, ih]

theorem legibleEntries_iff {entries : List (String × Document)} :
    LegibleEntries entries ↔ ∀ entry ∈ entries, Legible entry.2 := by
  induction entries with
  | nil => simp [LegibleEntries]
  | cons first rest ih => simp [LegibleEntries, ih]

theorem legible_ofOption {α : Type} {encode : α → Document} {value : Option α}
    (h : ∀ v, value = some v → (encode v).Legible) : (ofOption encode value).Legible := by
  cases value with
  | none => trivial
  | some v => exact h v rfl

/-- A map is legible when its values are. -/
theorem legible_map {κ ν : Type} [Ord κ] [TransOrd κ] [LawfulEqOrd κ]
    (map : ExtTreeMap κ ν compare) (text : κ → String) {encode : ν → Document}
    (h : ∀ (k : κ) v, map[k]? = some v → (encode v).Legible) :
    (Document.object (map.toList.map fun (k, v) => (text k, encode v))).Legible := by
  refine legibleEntries_iff.mpr fun entry hmem => ?_
  obtain ⟨⟨k, v⟩, hkv, rfl⟩ := List.mem_map.mp hmem
  exact h k v (ExtTreeMap.mem_toList_iff_getElem?_eq_some.mp hkv)

end Document

open Document

theorem Branch.legible_toDocument (record : Branch) : record.toDocument.Legible := by
  simp [Branch.toDocument, Instant.toDocument, Legible, LegibleEntries]

theorem Revision.legible_toDocument (record : Revision) : record.toDocument.Legible := by
  have hparent : (ofOption (fun parent : RevisionId => .string parent.text) record.parent).Legible :=
    legible_ofOption fun _ _ => trivial
  have hcomment : (ofOption .string record.comment).Legible := legible_ofOption fun _ _ => trivial
  simp [Revision.toDocument, Instant.toDocument, Legible, LegibleEntries, hparent, hcomment]

theorem TableVersion.legible_toDocument (record : TableVersion) : record.toDocument.Legible := by
  simp [TableVersion.toDocument, Instant.toDocument, Legible, LegibleEntries]

theorem RowVersion.MadeOf.legible_toDocument {record : RowVersion}
    (h : record.MadeOf .storable) : record.toDocument.Legible := by
  have hschema : (ofOption .string record.schemaHash).Legible := legible_ofOption fun _ _ => trivial
  have hnote : (ofOption id record.note).Legible :=
    legible_ofOption fun document hdocument => (h.note document hdocument).legible
  have hpublished : (ofOption Instant.toDocument record.publishedAt).Legible :=
    legible_ofOption fun _ _ => trivial
  simp [RowVersion.toDocument, Instant.toDocument, Legible, LegibleEntries, h.data.legible, hschema,
    hnote, hpublished]

theorem Side.legible_toDocument {j k : IdKind} (side : Side (Id j) (Id k)) :
    side.toDocument.Legible := by
  refine legibleEntries_iff.mpr fun entry hmem => ?_
  obtain ⟨⟨source, targets⟩, -, rfl⟩ := List.mem_map.mp hmem
  refine legibleItems_iff.mpr fun item hitem => ?_
  obtain ⟨id, -, rfl⟩ := List.mem_map.mp hitem
  trivial

namespace Store

variable {s : Store} {savedAt : Instant}

theorem legible_snapshot (h : s.MadeOf .storable) (savedAt : Instant) :
    (s.snapshot savedAt).Legible := by
  have hbranches := legible_map s.branches (·.text)
    fun _ record _ => record.legible_toDocument
  have hrevisions := legible_map s.revisions (·.text)
    fun _ record _ => record.legible_toDocument
  have htables := legible_map s.tables (·.text)
    fun _ record _ => record.legible_toDocument
  have hrows := legible_map s.rows (·.text)
    fun _ record hrecord => (h.row hrecord).legible_toDocument
  have hformat : (Number.whole (snapshotFormat : Int)).ReadsBack := Number.readsBack_whole rfl
  refine ⟨hformat, trivial, ⟨hbranches, hrevisions, htables, hrows, ?_, ?_, trivial⟩, trivial⟩
  · exact Side.legible_toDocument _
  · exact Side.legible_toDocument _

/-! ## What a snapshot holds -/

theorem snapshot?_toRaw (h : s.MadeOf .storable) (hsavedAt : savedAt.Valid) :
    RawDocument.snapshot? (s.snapshot savedAt).toRaw = some (snapshotFormat, s.reread) := by
  have hformat : RawDocument.count32? (Document.ofNat snapshotFormat).toRaw = some snapshotFormat := rfl
  rw [RawDocument.snapshot?, snapshot, RawDocument.fields?_toRaw (by simp), Option.bind_eq_bind,
    Option.bind_some, RawDocument.required_eq rfl hformat,
    RawDocument.required_eq rfl (RawDocument.instant?_toDocument hsavedAt),
    RawDocument.required_eq rfl (RawDocument.store?_toDocument h)]
  rfl

/-! ## Damage -/

/-- All that a store is checked for: the branch of every revision is there, and so are both ends of
every link. An entry without links has to belong to something that is there all the same. -/
structure Undamaged (s : Store) : Prop where
  /-- The branch of every revision is there. -/
  housed : s.Housed
  /-- What has an entry among the links of revisions exists. -/
  shower_exists : ∀ {id}, id ∈ s.revisionTables.forward → (s.revision? id).isSome
  /-- What is shown exists. -/
  shown_exists : ∀ {id version}, s.Shows id version → (s.table? version).isSome
  /-- What has an entry among the links of table versions exists. -/
  holder_exists : ∀ {table}, table ∈ s.tableRows.forward → (s.table? table).isSome
  /-- What is held exists. -/
  held_exists : ∀ {table row}, s.Holds table row → (s.row? row).isSome

theorem findSome?_branchDamage?_eq_none_iff :
    s.revisions.values.findSome? s.branchDamage? = none ↔ s.Housed := by
  have hdamage (record : Revision) :
      s.branchDamage? record = none ↔ (s.branch? record.branch).isSome := by
    rw [branchDamage?, ExtTreeMap.contains_eq_isSome_getElem?, branch?]
    split <;> simp [*]
  rw [List.findSome?_eq_none_iff, values_eq_map_toList]
  simp only [List.mem_map, Prod.exists, ExtTreeMap.mem_toList_iff_getElem?_eq_some,
    exists_eq_right, hdamage]
  refine ⟨fun h id record hrecord => h record ⟨id, hrecord⟩, ?_⟩
  rintro h record ⟨id, hrecord⟩
  exact h hrecord

/-- An entry is damaged when its source is not there, or one of its targets. -/
theorem findSome?_entries_eq_none_iff {α β : Type} [Ord α] [TransOrd α] [LawfulEqOrd α] [Ord β]
    [TransOrd β] [LawfulEqOrd β] {side : Side α β} (source : α → Bool) (target : β → Bool)
    {damage? : α × ExtTreeSet β compare → Option Damage}
    (h : ∀ entry, damage? entry = none ↔
      source entry.1 = true ∧ entry.2.toList.find? (!target ·) = none) :
    side.toList.findSome? damage? = none ↔
      (∀ a ∈ side, source a = true) ∧ ∀ a b, side.holds a b = true → target b = true := by
  simp only [List.findSome?_eq_none_iff, Prod.forall, ExtTreeMap.mem_toList_iff_getElem?_eq_some, h,
    List.find?_eq_none, ExtTreeSet.mem_toList, Bool.not_eq_true, Bool.not_eq_false']
  refine ⟨fun hentries => ⟨fun a hmem => ?_, fun a b hholds => ?_⟩, ?_⟩
  · obtain ⟨partners, hentry⟩ := Option.isSome_iff_exists.mp
      (ExtTreeMap.mem_iff_isSome_getElem?.mp hmem)
    exact (hentries a partners hentry).1
  · obtain ⟨partners, hentry, hmem⟩ := Side.holds_iff_exists.mp hholds
    exact (hentries a partners hentry).2 b hmem
  · rintro ⟨hsource, htarget⟩ a partners hentry
    refine ⟨hsource a ?_, fun b hmem => htarget a b ((Side.holds_iff_mem hentry).mpr hmem)⟩
    rw [ExtTreeMap.mem_iff_isSome_getElem?, hentry]
    rfl

theorem findSome?_tableLinkDamage?_eq_none_iff :
    s.revisionTables.forward.toList.findSome? s.tableLinkDamage? = none ↔
      (∀ id ∈ s.revisionTables.forward, (s.revision? id).isSome) ∧
        ∀ id version, s.Shows id version → (s.table? version).isSome := by
  rw [findSome?_entries_eq_none_iff s.revisions.contains s.tables.contains]
  · simp only [ExtTreeMap.contains_eq_isSome_getElem?]
    rfl
  · intro entry
    rw [tableLinkDamage?]
    split <;> simp [*]

theorem findSome?_rowLinkDamage?_eq_none_iff :
    s.tableRows.forward.toList.findSome? s.rowLinkDamage? = none ↔
      (∀ table ∈ s.tableRows.forward, (s.table? table).isSome) ∧
        ∀ table row, s.Holds table row → (s.row? row).isSome := by
  rw [findSome?_entries_eq_none_iff s.tables.contains s.rows.contains]
  · simp only [ExtTreeMap.contains_eq_isSome_getElem?]
    rfl
  · intro entry
    rw [rowLinkDamage?]
    split <;> simp [*]

/-- What the check looks for is all that can be wrong. -/
theorem damage?_eq_none_iff : s.damage? = none ↔ s.Undamaged := by
  rw [damage?, Option.orElse_eq_none, Option.orElse_eq_none, findSome?_branchDamage?_eq_none_iff,
    findSome?_tableLinkDamage?_eq_none_iff, findSome?_rowLinkDamage?_eq_none_iff]
  refine ⟨?_, fun h => ?_⟩
  · rintro ⟨hhoused, ⟨hshower, hshown⟩, hholder, hheld⟩
    exact ⟨hhoused, hshower _, hshown _ _, hholder _, hheld _ _⟩
  · exact ⟨h.housed, ⟨fun _ => h.shower_exists, fun _ _ => h.shown_exists⟩,
      fun _ => h.holder_exists, fun _ _ => h.held_exists⟩

/-- A sturdy store is damaged only by revisions whose branch is missing. -/
theorem Sturdy.damage?_eq_none_iff (h : s.Sturdy) : s.damage? = none ↔ s.Housed := by
  refine Store.damage?_eq_none_iff.trans ⟨(·.housed), fun hhoused => ?_⟩
  refine ⟨hhoused, h.shower_exists, h.shown_exists, fun hmem => ?_, h.held_exists⟩
  obtain ⟨row, hholds⟩ := h.tableRows.forward.mem_iff.mp hmem
  exact h.holder_exists hholds

theorem Intact.damage?_eq_none_iff (h : s.Intact) : s.damage? = none ↔ s.Housed :=
  h.sturdy.damage?_eq_none_iff

/-! ## There and back -/

theorem row?_withoutNullNotes (version : VersionId) :
    s.withoutNullNotes.row? version = (s.row? version).map RowVersion.withoutNullNote :=
  ExtTreeMap.getElem?_map ..

theorem of_row?_withoutNullNotes {version : VersionId} {record : RowVersion}
    (h : s.withoutNullNotes.row? version = some record) :
    ∃ old, s.row? version = some old ∧ old.withoutNullNote = record := by
  rw [row?_withoutNullNotes] at h
  exact Option.map_eq_some_iff.mp h

/-- A store is checked for nothing that a snapshot loses. -/
theorem damage?_reread : s.reread.damage? = s.damage? := by
  have hrow : s.reread.rowLinkDamage? = s.rowLinkDamage? := by
    funext entry
    simp only [rowLinkDamage?, reread, withoutNullNotes, ExtTreeMap.contains_map]
  rw [damage?, hrow]
  rfl

/-- What the text of a snapshot is read as. -/
theorem ofSnapshotText_snapshotText (hmade : s.MadeOf .storable) (hsavedAt : savedAt.Valid)
    (path : String) :
    ofSnapshotText path (s.snapshotText savedAt) =
      match s.damage? with
      | some damage => .error (.damaged path damage)
      | none => .ok s.reread := by
  rw [ofSnapshotText, snapshotText, parse?_pretty (legible_snapshot hmade savedAt), Option.bind_some,
    snapshot?_toRaw hmade hsavedAt, ← damage?_reread]
  rfl

/-- Only the notes of rows are lost on the way. -/
theorem Intact.withoutNullNotes (h : s.Intact) : s.withoutNullNotes.Intact where
  revisionTables := h.revisionTables
  tableRows := h.tableRows
  name_eq := h.name_eq
  id_eq := h.id_eq
  table_eq := h.table_eq
  row_eq hrecord := by
    obtain ⟨record, hstored, rfl⟩ := of_row?_withoutNullNotes hrecord
    exact (h.row_eq hstored :)
  shower_exists := h.shower_exists
  shown_exists := h.shown_exists
  holder_exists := h.holder_exists
  held_exists hholds := by
    rw [row?_withoutNullNotes, Option.isSome_map]
    exact h.held_exists hholds

/-- What is left of a note is made of what the note was made of. -/
theorem MadeOf.withoutNullNotes {m : Material} (h : s.MadeOf m) : s.withoutNullNotes.MadeOf m :=
  { h with
    row := by
      intro version record hrecord
      obtain ⟨record, hstored, rfl⟩ := of_row?_withoutNullNotes hrecord
      exact { h.row hstored with
        note := fun document hnote => (h.row hstored).note document (of_notNull hnote) } }

/-- What is read back of a store is made of what the store was made of. -/
theorem MadeOf.reread {m : Material} (h : s.MadeOf m) : s.reread.MadeOf m :=
  { h.withoutNullNotes with }

/-- A note that is the null document is written like no note. -/
theorem snapshotText_withoutNullNotes (s : Store) (savedAt : Instant) :
    s.withoutNullNotes.snapshotText savedAt = s.snapshotText savedAt := by
  have hrow (row : RowVersion) : row.withoutNullNote.toDocument = row.toDocument := by
    rw [RowVersion.toDocument, RowVersion.toDocument, RowVersion.withoutNullNote, ofOption_notNull]
  have hstore : s.withoutNullNotes.toDocument = s.toDocument := by
    simp only [toDocument, withoutNullNotes, ExtTreeMap.toList_map, List.map_map,
      Function.comp_def, hrow]
  rw [snapshotText, snapshotText, snapshot, snapshot, hstore]

/-- What the text of a snapshot of an intact store is read as. -/
theorem Intact.ofSnapshotText_snapshotText (h : s.Intact) (hmade : s.MadeOf .storable)
    (hsavedAt : savedAt.Valid) (path : String) :
    ofSnapshotText path (s.snapshotText savedAt) =
      match s.withoutNullNotes.damage? with
      | some damage => .error (.damaged path damage)
      | none => .ok s.withoutNullNotes := by
  rw [Store.ofSnapshotText_snapshotText hmade hsavedAt, ← damage?_reread,
    reread_eq_withoutNullNotes h.revisionTables h.tableRows]

/-- A store comes back from its snapshot just when the branch of every revision is there. -/
theorem Intact.ofSnapshotText_eq_ok_iff (h : s.Intact) (hmade : s.MadeOf .storable)
    (hsavedAt : savedAt.Valid) (path : String) :
    ofSnapshotText path (s.snapshotText savedAt) = .ok s.withoutNullNotes ↔ s.Housed := by
  have hhoused : s.withoutNullNotes.Housed ↔ s.Housed := Iff.rfl
  rw [h.ofSnapshotText_snapshotText hmade hsavedAt, ← hhoused,
    ← h.withoutNullNotes.damage?_eq_none_iff]
  rcases s.withoutNullNotes.damage? with _ | damage <;> simp

end Store

end VersionedTables
