import VersionedTables.Proofs.Snapshot.RoundTrip

/-!
# What is read from snapshots

A text that is accepted need not have been written here. All that is known of the store it holds is
what reading ensures: the instants in it can be written, its documents are sorted and not nested too
deeply, its links say the same from both ends, and it passed the check. So if the numbers in it are
read back, all of it is (`Store.madeOf_of_ofSnapshotText`).
-/

namespace VersionedTables

open Std

/-- All instants and branches, and the documents whose numbers are read back. -/
def Material.legible : Material :=
  ⟨fun _ => True, Document.Legible, fun _ => True⟩

namespace RawDocument

/-! ## Fields and maps -/

section Values

variable {α κ ν : Type} [Ord κ] [TransOrd κ] [LawfulEqOrd κ] [DecidableEq κ] {fields : Fields}
  {name : String} {raw : RawDocument}

theorem of_required {value? : RawDocument → Option α} {value : α}
    (h : fields.required name value? = some value) : ∃ raw, value? raw = some value := by
  obtain ⟨raw, -, hvalue⟩ := Option.bind_eq_some_iff.mp h
  exact ⟨raw, hvalue⟩

theorem of_optional {value? : RawDocument → Option α} {given : Option α}
    (h : fields.optional name value? = some given) {value : α} (hgiven : given = some value) :
    ∃ raw, value? raw = some value := by
  rw [Fields.optional] at h
  split at h
  · cases h
    cases hgiven
  · cases h
    cases hgiven
  · next raw _ _ =>
    obtain ⟨value', hvalue, rfl⟩ := Option.map_eq_some_iff.mp h
    cases hgiven
    exact ⟨raw, hvalue⟩

/-- Every value in a map that was read was read. -/
theorem of_map? {key : String → κ} {value? : RawDocument → Option ν} {map : ExtTreeMap κ ν compare}
    (h : map? key value? raw = some map) {k : κ} {value : ν} (hvalue : map[k]? = some value) :
    ∃ raw, value? raw = some value := by
  obtain ⟨entries, -, hfold⟩ := Option.bind_eq_some_iff.mp h
  -- The map is filled entry by entry, and it is empty at first.
  have hfilled : ∀ (k : κ) value, (∅ : ExtTreeMap κ ν compare)[k]? = some value →
      ∃ raw, value? raw = some value := by simp
  generalize (∅ : ExtTreeMap κ ν compare) = filled at hfold hfilled
  induction entries generalizing filled with
  | nil =>
    cases hfold
    exact hfilled k value hvalue
  | cons first rest ih =>
    rw [List.foldlM_cons] at hfold
    obtain ⟨filled', hfirst, hrest⟩ := Option.bind_eq_some_iff.mp hfold
    obtain ⟨value', hvalue', heq⟩ := Option.bind_eq_some_iff.mp hfirst
    cases heq
    refine ih _ hrest fun k value hvalue => ?_
    rw [Store.getElem?_insert_eq] at hvalue
    split at hvalue
    · cases hvalue
      exact ⟨_, hvalue'⟩
    · exact hfilled k value hvalue

end Values

/-! ## Records -/

theorem valid_of_instant? {raw : RawDocument} {t : Instant} (h : instant? raw = some t) :
    t.Valid := by
  obtain ⟨text, -, hparse⟩ := Option.bind_eq_some_iff.mp h
  exact Instant.valid_of_parse? hparse

theorem valid_of_required {fields : Fields} {name : String} {t : Instant}
    (h : fields.required name instant? = some t) : t.Valid := by
  obtain ⟨raw, hraw⟩ := of_required h
  exact valid_of_instant? hraw

theorem storable_of_rowDocument? {raw : RawDocument} {document : Document}
    (h : rowDocument? raw = some document) (hlegible : document.Legible) : document.Storable := by
  obtain ⟨hsorted, hnesting⟩ := Document.sorted_of_toDocument? raw _ document h
  exact ⟨hlegible, hsorted, hnesting⟩

variable {raw : RawDocument}

theorem madeOf_of_branch? {record : Branch} (h : branch? raw = some record) :
    record.MadeOf .storable := by
  simp only [branch?, Option.bind_eq_bind, Option.bind_eq_some_iff, Option.pure_def,
    Option.some.injEq] at h
  obtain ⟨fields, -, name, -, createdAt, hcreatedAt, rfl⟩ := h
  exact valid_of_required hcreatedAt

theorem madeOf_of_revision? {record : Revision} (h : revision? raw = some record) :
    record.MadeOf .storable := by
  simp only [revision?, Option.bind_eq_bind, Option.bind_eq_some_iff, Option.pure_def,
    Option.some.injEq] at h
  obtain ⟨fields, -, id, -, branch, -, parent, -, isStart, -, isHead, -, isDraft, -, hasChanges, -,
    comment, -, createdAt, hcreatedAt, rfl⟩ := h
  exact ⟨trivial, valid_of_required hcreatedAt⟩

theorem madeOf_of_table? {record : TableVersion} (h : table? raw = some record) :
    record.MadeOf .storable := by
  simp only [table?, Option.bind_eq_bind, Option.bind_eq_some_iff, Option.pure_def,
    Option.some.injEq] at h
  obtain ⟨fields, -, name, -, entity, -, version, -, readonly, -, system, -, createdAt, hcreatedAt,
    updatedAt, hupdatedAt, rfl⟩ := h
  exact ⟨valid_of_required hcreatedAt, valid_of_required hupdatedAt⟩

theorem madeOf_of_row? {record : RowVersion} (h : row? raw = some record)
    (hlegible : record.MadeOf .legible) : record.MadeOf .storable := by
  simp only [row?, Option.bind_eq_bind, Option.bind_eq_some_iff, Option.pure_def,
    Option.some.injEq] at h
  obtain ⟨fields, -, name, -, entity, -, version, -, readonly, -, data, hdata, hash, -, schemaHash, -,
    note, hnote, publishedAt, hpublishedAt, createdAt, hcreatedAt, updatedAt, hupdatedAt, rfl⟩ := h
  refine ⟨?_, fun document hdocument => ?_, fun time htime => ?_, valid_of_required hcreatedAt,
    valid_of_required hupdatedAt⟩
  · obtain ⟨raw, hraw⟩ := of_required hdata
    exact storable_of_rowDocument? hraw hlegible.data
  · obtain ⟨raw, hraw⟩ := of_optional hnote hdocument
    exact storable_of_rowDocument? hraw (hlegible.note document hdocument)
  · obtain ⟨raw, hraw⟩ := of_optional hpublishedAt htime
    exact valid_of_instant? hraw

/-! ## The store -/

/-- Links are read from one end, so both ends say the same. -/
theorem links_of_store? {s : Store} (h : store? raw = some s) :
    s.revisionTables = .ofForward s.revisionTables.forward ∧
      s.tableRows = .ofForward s.tableRows.forward := by
  simp only [store?, Option.bind_eq_bind, Option.bind_eq_some_iff, Option.pure_def,
    Option.some.injEq] at h
  obtain ⟨fields, -, branches, -, revisions, -, tables, -, rows, -, revisionTables, -, tableRows, -,
    rfl⟩ := h
  exact ⟨rfl, rfl⟩

theorem madeOf_of_store? {s : Store} (h : store? raw = some s) (hlegible : s.MadeOf .legible) :
    s.MadeOf .storable := by
  simp only [store?, Option.bind_eq_bind, Option.bind_eq_some_iff, Option.pure_def,
    Option.some.injEq] at h
  obtain ⟨fields, -, branches, hbranches, revisions, hrevisions, tables, htables, rows, hrows,
    revisionTables, -, tableRows, -, rfl⟩ := h
  obtain ⟨_, hbranches⟩ := of_required hbranches
  obtain ⟨_, hrevisions⟩ := of_required hrevisions
  obtain ⟨_, htables⟩ := of_required htables
  obtain ⟨_, hrows⟩ := of_required hrows
  refine ⟨fun hrecord => ?_, fun hrecord => ?_, fun hrecord => ?_, fun hrecord => ?_⟩
  · obtain ⟨raw, hraw⟩ := of_map? hbranches hrecord
    exact madeOf_of_branch? hraw
  · obtain ⟨raw, hraw⟩ := of_map? hrevisions hrecord
    exact madeOf_of_revision? hraw
  · obtain ⟨raw, hraw⟩ := of_map? htables hrecord
    exact madeOf_of_table? hraw
  · obtain ⟨raw, hraw⟩ := of_map? hrows hrecord
    exact madeOf_of_row? hraw (hlegible.row hrecord)

end RawDocument

namespace Store

variable {s : Store} {path text : String}

/-- A text that is accepted holds a store in the present format that passed the check. -/
theorem ofSnapshotText_eq_ok (h : ofSnapshotText path text = .ok s) :
    (∃ raw, RawDocument.store? raw = some s) ∧ s.Undamaged := by
  rw [ofSnapshotText] at h
  split at h
  · cases h
  · next format store hstore =>
    obtain ⟨raw, -, hsnapshot⟩ := Option.bind_eq_some_iff.mp hstore
    simp only [RawDocument.snapshot?, Option.bind_eq_bind, Option.bind_eq_some_iff, Option.pure_def,
      Option.some.injEq, Prod.mk.injEq] at hsnapshot
    obtain ⟨fields, -, format', -, savedAt, -, store', hstate, rfl, rfl⟩ := hsnapshot
    split at h
    · cases h
    · split at h
      · cases h
      · next hdamage =>
        cases h
        exact ⟨RawDocument.of_required hstate, damage?_eq_none_iff.mp hdamage⟩

/-- The links in an accepted text are read from one end. -/
theorem links_of_ofSnapshotText (h : ofSnapshotText path text = .ok s) :
    s.revisionTables = .ofForward s.revisionTables.forward ∧
      s.tableRows = .ofForward s.tableRows.forward := by
  obtain ⟨⟨raw, hraw⟩, -⟩ := ofSnapshotText_eq_ok h
  exact RawDocument.links_of_store? hraw

/-- Where a text was found matters to faults only. -/
theorem ofSnapshotText_congr (h : ofSnapshotText path text = .ok s) (path' : String) :
    ofSnapshotText path' text = .ok s := by
  rw [ofSnapshotText] at h ⊢
  split at h
  · cases h
  · split at h
    · cases h
    · next hformat =>
      split at h
      · cases h
      · next hdamage =>
        cases h
        rw [if_neg hformat]

/-- All of an accepted text is read back, if the numbers in its documents are. -/
theorem madeOf_of_ofSnapshotText (h : ofSnapshotText path text = .ok s)
    (hlegible : s.MadeOf .legible) : s.MadeOf .storable := by
  obtain ⟨⟨raw, hraw⟩, -⟩ := ofSnapshotText_eq_ok h
  exact RawDocument.madeOf_of_store? hraw hlegible

end Store

end VersionedTables
