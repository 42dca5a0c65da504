import VersionedTables.Proofs.Document.Storing
import VersionedTables.Proofs.Instant.Text
import VersionedTables.Proofs.Maps
import VersionedTables.Proofs.Material
import VersionedTables.Snapshot.Reader

/-!
# Parts of snapshots that are read back

Records, maps and links come back from the values that are written for them. The instants and the
documents in them have to be such that they come back themselves (`Material.storable`). One thing does
not come back: a note that is the null document is read as no note (`RowVersion.withoutNullNote`).
-/

namespace VersionedTables

open Std

/-- The instants and documents that come back from a snapshot, and all branches. -/
def Material.storable : Material :=
  ⟨Instant.Valid, Document.Storable, fun _ => True⟩

/-- A note as it comes back from a snapshot. -/
def Document.notNull : Option Document → Option Document
  | some .null => none
  | note => note

/-- A note that is left is the one that was there. -/
theorem Document.of_notNull {note : Option Document} {document : Document}
    (h : notNull note = some document) : note = some document := by
  rcases note with _ | note
  · exact h
  · cases note with
    | null => cases h
    | _ => exact h

/-- A note that is the null document is written like no note. -/
theorem Document.ofOption_notNull (note : Option Document) :
    ofOption id (notNull note) = ofOption id note := by
  rcases note with _ | note
  · rfl
  · cases note <;> rfl

/-- A row version as it comes back from a snapshot. -/
def RowVersion.withoutNullNote (r : RowVersion) : RowVersion :=
  { r with note := Document.notNull r.note }

namespace RawDocument

open Document

/-! ## Values -/

@[simp] theorem text?_string (text : String) : text? (Document.string text).toRaw = some text := rfl

@[simp] theorem bool?_bool (value : Bool) : bool? (Document.bool value).toRaw = some value := rfl

theorem instant?_toDocument {t : Instant} (h : t.Valid) : instant? t.toDocument.toRaw = some t := by
  rw [Instant.toDocument, instant?, text?_string, Option.bind_eq_bind, Option.bind_some,
    Instant.parse?_text h]

theorem rowDocument?_toRaw {document : Document} (h : document.Storable) :
    rowDocument? document.toRaw = some document :=
  toDocument?_toRaw document _ h.sorted h.nesting_le

theorem entriesToRaw_eq_map (entries : List (String × Document)) :
    entriesToRaw entries = entries.map fun entry => (some entry.1, entry.2.toRaw) := by
  induction entries with
  | nil => rfl
  | cons first rest ih => rw [entriesToRaw, ih, List.map_cons]

/-- The entries of an object are read with their keys. -/
theorem entries?_toRaw (entries : List (String × Document)) :
    (Document.object entries).toRaw.entries? =
      some (entries.map fun entry => (entry.1, entry.2.toRaw)) := by
  rw [toRaw, entries?, entriesToRaw_eq_map]
  induction entries with
  | nil => rfl
  | cons first rest ih =>
    rw [List.map_cons, List.mapM_cons, ih]
    rfl

/-! ## Fields -/

/-- A key that is given once is not repeated. -/
theorem repeats_eq_false {entries : Fields} (h : (entries.map (·.1)).Nodup) (key : String) :
    repeats entries key = false := by
  rw [repeats, decide_eq_false_iff_not, Nat.not_lt, ← List.countP_eq_length_filter]
  have hcount := List.nodup_iff_count_le_one.mp h key
  rwa [List.count, List.countP_map] at hcount

/-- The fields of a record are found as they were written. -/
theorem fields?_toRaw {names : List String} {entries : List (String × Document)}
    (h : (entries.map (·.1)).Nodup) :
    (Document.object entries).toRaw.fields? names =
      some (entries.map fun entry => (entry.1, entry.2.toRaw)) := by
  have hentries := entries?_toRaw entries
  rw [toRaw] at hentries ⊢
  simp only [fields?, hentries, Option.bind_eq_bind, Option.bind_some]
  rw [if_neg]
  simp only [List.any_eq_true, not_exists, not_and, Bool.not_eq_true]
  intro key _
  refine repeats_eq_false ?_ key
  rwa [List.map_map]

/-- A field that has to be given. -/
theorem required_eq {α : Type} {fields : Fields} {name : String} {value? : RawDocument → Option α}
    {raw : RawDocument} {value : α} (h : fields.lookup name = some raw)
    (hvalue : value? raw = some value) : fields.required name value? = some value := by
  rw [Fields.required, h]
  exact hvalue

/-- A field that is missing or null. -/
theorem optional_null {α : Type} {fields : Fields} {name : String} {value? : RawDocument → Option α}
    (h : fields.lookup name = some Document.null.toRaw) :
    fields.optional name value? = some none := by
  rw [Fields.optional, h, toRaw]

/-- A field that is there. -/
theorem optional_some {α : Type} {fields : Fields} {name : String} {value? : RawDocument → Option α}
    {document : Document} {value : α} (h : fields.lookup name = some document.toRaw)
    (hnull : document ≠ .null) (hvalue : value? document.toRaw = some value) :
    fields.optional name value? = some (some value) := by
  rw [Fields.optional, h]
  cases document with
  | null => exact absurd rfl hnull
  | _ => rw [toRaw] at hvalue ⊢; simp [hvalue]

/-- A field whose value may be missing. -/
theorem optional_ofOption {α β : Type} {fields : Fields} {name : String}
    {value? : RawDocument → Option β} (encode : α → Document) (f : α → β) (given : Option α)
    (h : fields.lookup name = some (Document.ofOption encode given).toRaw)
    (hvalue : ∀ value, given = some value →
      encode value ≠ .null ∧ value? (encode value).toRaw = some (f value)) :
    fields.optional name value? = some (given.map f) := by
  cases given with
  | none => exact optional_null h
  | some value => exact optional_some h (hvalue value rfl).1 (hvalue value rfl).2

/-! ## Records -/

theorem branch?_toDocument {record : Branch} (h : record.MadeOf .storable) :
    branch? record.toDocument.toRaw = some record := by
  have hcreated := instant?_toDocument h
  rw [branch?, Branch.toDocument, fields?_toRaw (by simp)]
  simp [Fields.required, List.lookup, hcreated]

theorem revision?_toDocument {record : Revision} (h : record.MadeOf .storable) :
    revision? record.toDocument.toRaw = some record := by
  have hcreated := instant?_toDocument h.createdAt
  rw [revision?, Revision.toDocument, fields?_toRaw (by simp), Option.bind_eq_bind,
    Option.bind_some,
    optional_ofOption (fun parent : RevisionId => .string parent.text) (·.text) record.parent rfl
      (by simp),
    optional_ofOption .string id record.comment rfl (by simp)]
  simp [Fields.required, Fields.id, List.lookup, hcreated, Function.comp_def]

theorem table?_toDocument {record : TableVersion} (h : record.MadeOf .storable) :
    table? record.toDocument.toRaw = some record := by
  have hcreated := instant?_toDocument h.createdAt
  have hupdated := instant?_toDocument h.updatedAt
  rw [table?, TableVersion.toDocument, fields?_toRaw (by simp)]
  simp [Fields.required, Fields.id, List.lookup, hcreated, hupdated]

/-- A note comes back unless it is the null document. -/
theorem optional_note {fields : Fields} {name : String} (note : Option Document)
    (h : fields.lookup name = some (Document.ofOption id note).toRaw)
    (hnote : ∀ document, note = some document → document.Storable) :
    fields.optional name rowDocument? = some (notNull note) := by
  rcases note with _ | document
  · exact optional_null h
  · have hdocument := rowDocument?_toRaw (hnote document rfl)
    cases document with
    | null => exact optional_null h
    | _ => exact optional_some h nofun hdocument

theorem row?_toDocument {record : RowVersion} (h : record.MadeOf .storable) :
    row? record.toDocument.toRaw = some record.withoutNullNote := by
  have hdata := rowDocument?_toRaw h.data
  have hcreated := instant?_toDocument h.createdAt
  have hupdated := instant?_toDocument h.updatedAt
  rw [row?, RowVersion.toDocument, fields?_toRaw (by simp), Option.bind_eq_bind, Option.bind_some,
    optional_ofOption .string id record.schemaHash rfl (by simp),
    optional_note record.note rfl h.note,
    optional_ofOption Instant.toDocument id record.publishedAt rfl
      fun time htime => ⟨by simp [Instant.toDocument], instant?_toDocument (h.publishedAt time htime)⟩]
  simp [Fields.required, Fields.id, List.lookup, hdata, hcreated, hupdated,
    RowVersion.withoutNullNote]

/-! ## Maps and links -/

section Maps

variable {κ ν ρ : Type} [Ord κ] [TransOrd κ] [LawfulEqOrd κ] [DecidableEq κ]

variable (key : String → κ) (text : κ → String) (f : ν → ρ) {encode : ν → Document}
  {value? : RawDocument → Option ρ}

omit [LawfulEqOrd κ] [DecidableEq κ] in
/-- Entries that are all read are inserted one after the other. -/
theorem foldlM_insert (htext : ∀ k, key (text k) = k) {entries : List (κ × ν)}
    (h : ∀ entry ∈ entries, value? (encode entry.2).toRaw = some (f entry.2))
    (map : ExtTreeMap κ ρ compare) :
    (entries.map fun entry => (text entry.1, (encode entry.2).toRaw)).foldlM
        (fun (map : ExtTreeMap κ ρ compare) (text, raw) =>
          do return map.insert (key text) (← value? raw)) map =
      some (entries.foldl (fun map entry => map.insert entry.1 (f entry.2)) map) := by
  induction entries generalizing map with
  | nil => rfl
  | cons first rest ih =>
    rw [List.map_cons, List.foldlM_cons, List.foldl_cons,
      ← ih fun entry hmem => h entry (List.mem_cons_of_mem _ hmem)]
    simp [h first List.mem_cons_self, htext]

/-- A map comes back, with every value as it comes back. -/
theorem map?_toDocument (map : ExtTreeMap κ ν compare) (htext : ∀ k, key (text k) = k)
    (h : ∀ (k : κ) v, map[k]? = some v → value? (encode v).toRaw = some (f v)) :
    map? key value? (Document.object (map.toList.map fun (k, v) => (text k, encode v))).toRaw =
      some (map.map fun _ v => f v) := by
  rw [map?, entries?_toRaw, Option.bind_eq_bind, Option.bind_some, List.map_map,
    ← foldl_insert_toList map f]
  exact foldlM_insert key text f htext (fun entry hmem =>
    h entry.1 entry.2 (ExtTreeMap.mem_toList_iff_getElem?_eq_some.mp hmem)) ∅

end Maps

/-- A set of identifiers comes back as it was. -/
theorem idSet?_toDocument {kind : IdKind} (set : ExtTreeSet (Id kind) compare) :
    idSet? (Document.array (set.toList.map fun id => .string id.text)).toRaw = some set := by
  have hitems (items : List (Id kind)) (filled : ExtTreeSet (Id kind) compare) :
      (itemsToRaw (items.map fun id => .string id.text)).foldlM
          (fun (set : ExtTreeSet (Id kind) compare) item => do return set.insert ⟨← item.text?⟩)
          filled = some (items.foldl (fun set item => set.insert item) filled) := by
    induction items generalizing filled with
    | nil => rfl
    | cons first rest ih =>
      rw [List.map_cons, itemsToRaw, List.foldlM_cons, List.foldl_cons, ← ih]
      simp
  rw [toRaw, idSet?, hitems, foldl_insert_toList_set]

/-- One side of a relation comes back as it was. -/
theorem side?_toDocument {j k : IdKind} (side : Side (Id j) (Id k)) :
    map? Id.mk idSet? side.toDocument.toRaw = some side := by
  have hmap := map?_toDocument (Id.mk : String → Id j) Id.text id side (fun _ => rfl)
    fun _ set _ => idSet?_toDocument set
  rw [Side.toDocument, hmap]
  simp

/-! ## The store -/

end RawDocument

/-- A store without the notes that do not come back from a snapshot. -/
def Store.withoutNullNotes (s : Store) : Store :=
  { s with rows := s.rows.map fun _ row => row.withoutNullNote }

/-- A store as it comes back from a snapshot: links were written from one end only. -/
def Store.reread (s : Store) : Store :=
  { s.withoutNullNotes with
    revisionTables := .ofForward s.revisionTables.forward
    tableRows := .ofForward s.tableRows.forward }

/-- Links that are tidy come back as they were. -/
theorem Store.reread_eq_withoutNullNotes {s : Store} (hrevisionTables : s.revisionTables.Tidy)
    (htableRows : s.tableRows.Tidy) : s.reread = s.withoutNullNotes := by
  rw [reread, hrevisionTables.ofForward_forward, htableRows.ofForward_forward]
  rfl

namespace RawDocument

/-- A store is read as it comes back. -/
theorem store?_toDocument {s : Store} (h : s.MadeOf .storable) :
    store? s.toDocument.toRaw = some s.reread := by
  have hbranches := map?_toDocument BranchName.mk BranchName.text id s.branches (fun _ => rfl)
    fun _ _ hrecord => branch?_toDocument (h.branch hrecord)
  have hrevisions := map?_toDocument (Id.mk : String → RevisionId) Id.text id s.revisions
    (fun _ => rfl) fun _ _ hrecord => revision?_toDocument (h.revision hrecord)
  have htables := map?_toDocument (Id.mk : String → VersionId) Id.text id s.tables (fun _ => rfl)
    fun _ _ hrecord => table?_toDocument (h.table hrecord)
  have hrows := map?_toDocument (Id.mk : String → VersionId) Id.text RowVersion.withoutNullNote
    s.rows (fun _ => rfl) fun _ _ hrecord => row?_toDocument (h.row hrecord)
  simp only [id, ExtTreeMap.map_id] at hbranches hrevisions htables
  rw [store?, Store.toDocument, fields?_toRaw (by simp), Option.bind_eq_bind, Option.bind_some,
    required_eq rfl hbranches, required_eq rfl hrevisions, required_eq rfl htables,
    required_eq rfl hrows, required_eq rfl (side?_toDocument _), required_eq rfl (side?_toDocument _)]
  rfl

end RawDocument

end VersionedTables
