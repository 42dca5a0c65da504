import VersionedTables.Proofs.Document.Reading

/-!
# Documents that can be stored

A document that lies inside another one is read back from its value by `RawDocument.toDocument?`. It
comes back as it was when the entries of its objects are sorted by key, each key once, and when it is
not nested too deeply. What was read from a text is sorted already (`Document.sorted_of_toDocument?`),
so all that can keep such a document from coming back are its depth and its numbers
(`Document.Storable`).
-/

namespace VersionedTables

namespace Document

/-! ## Sorted entries -/

/-- Entries are in the order of their keys, and no key is there twice. -/
def SortedKeys {α : Type} (entries : List (String × α)) : Prop :=
  (entries.map (·.1)).Pairwise (compare · · = .lt)

variable {α : Type}

theorem sortedKeys_cons {first : String × α} {rest : List (String × α)} :
    SortedKeys (first :: rest) ↔
      (∀ entry ∈ rest, compare first.1 entry.1 = .lt) ∧ SortedKeys rest := by
  simp [SortedKeys]

/-- An entry whose key comes behind all others is put behind them. -/
theorem insertEntry_last {key : String} {value : α} {entries : List (String × α)}
    (h : ∀ entry ∈ entries, compare entry.1 key = .lt) :
    insertEntry key value entries = entries ++ [(key, value)] := by
  induction entries with
  | nil => rfl
  | cons first rest ih =>
    have hfirst : compare key first.1 = .gt :=
      Std.OrientedCmp.gt_of_lt (h first List.mem_cons_self)
    rw [insertEntry, hfirst, List.cons_append,
      ih fun entry hmem => h entry (List.mem_cons_of_mem _ hmem)]

/-- Sorting leaves entries that are sorted as they are. -/
theorem sortEntries_eq_self {entries : List (String × α)} (h : SortedKeys entries) :
    sortEntries entries = entries := by
  -- The entries sorted so far are all in front of those that are left.
  have hfold : ∀ behind front : List (String × α), SortedKeys (front ++ behind) →
      behind.foldl (fun sorted entry => insertEntry entry.1 entry.2 sorted) front =
        front ++ behind := by
    intro behind
    induction behind with
    | nil => intro front _; simp
    | cons first rest ih =>
      intro front hsorted
      have hlast : ∀ entry ∈ front, compare entry.1 first.1 = .lt := by
        intro entry hmem
        rw [SortedKeys, List.map_append, List.pairwise_append] at hsorted
        exact hsorted.2.2 _ (List.mem_map_of_mem hmem) _ (by simp)
      rw [List.foldl_cons, insertEntry_last hlast, ih _ (by simpa using hsorted)]
      simp
  exact hfold entries [] h

theorem mem_insertEntry {key : String} {value : α} {entries : List (String × α)}
    {entry : String × α} (h : entry ∈ insertEntry key value entries) :
    entry = (key, value) ∨ entry ∈ entries := by
  induction entries with
  | nil => simpa [insertEntry] using h
  | cons first rest ih =>
    rw [insertEntry] at h
    split at h <;> simp only [List.mem_cons] at h ⊢ <;> grind

theorem sortedKeys_insertEntry {key : String} {value : α} {entries : List (String × α)}
    (h : SortedKeys entries) : SortedKeys (insertEntry key value entries) := by
  induction entries with
  | nil => simp [insertEntry, SortedKeys]
  | cons first rest ih =>
    obtain ⟨hfirst, hrest⟩ := sortedKeys_cons.mp h
    rw [insertEntry]
    split
    · next hlt =>
      refine sortedKeys_cons.mpr ⟨List.forall_mem_cons.mpr ⟨hlt, fun entry hmem => ?_⟩, h⟩
      exact Std.TransCmp.lt_trans hlt (hfirst entry hmem)
    · next heq =>
      rw [Std.LawfulEqCmp.eq_of_compare heq]
      exact sortedKeys_cons.mpr ⟨hfirst, hrest⟩
    · next hgt =>
      refine sortedKeys_cons.mpr ⟨fun entry hmem => ?_, ih hrest⟩
      rcases mem_insertEntry hmem with rfl | hmem
      · exact Std.OrientedCmp.lt_of_gt hgt
      · exact hfirst entry hmem

/-- Sorting keeps what holds of each entry, and leaves no key twice. -/
theorem sortEntries_keeps {P : String × α → Prop} {entries : List (String × α)}
    (h : ∀ entry ∈ entries, P entry) :
    SortedKeys (sortEntries entries) ∧ ∀ entry ∈ sortEntries entries, P entry := by
  have hfold : ∀ behind front : List (String × α), (∀ entry ∈ behind, P entry) →
      SortedKeys front → (∀ entry ∈ front, P entry) →
      SortedKeys (behind.foldl (fun sorted entry => insertEntry entry.1 entry.2 sorted) front) ∧
        ∀ entry ∈ behind.foldl (fun sorted entry => insertEntry entry.1 entry.2 sorted) front,
          P entry := by
    intro behind
    induction behind with
    | nil => exact fun front _ hsorted hfront => ⟨hsorted, hfront⟩
    | cons first rest ih =>
      intro front hbehind hsorted hfront
      refine ih _ (fun entry hmem => hbehind entry (List.mem_cons_of_mem _ hmem))
        (sortedKeys_insertEntry hsorted) fun entry hmem => ?_
      rcases mem_insertEntry hmem with rfl | hmem
      · exact hbehind first List.mem_cons_self
      · exact hfront entry hmem
  exact hfold entries [] h (by simp [SortedKeys]) (by simp)

mutual

/-- The entries of every object in a document are sorted. -/
def Sorted : Document → Prop
  | .array items => SortedItems items
  | .object entries => SortedKeys entries ∧ SortedEntries entries
  | .null | .bool _ | .number _ | .string _ => True

/-- The entries of every object in a list of documents are sorted. -/
def SortedItems : List Document → Prop
  | [] => True
  | item :: rest => Sorted item ∧ SortedItems rest

/-- The entries of every object in a list of entries are sorted. -/
def SortedEntries : List (String × Document) → Prop
  | [] => True
  | (_, value) :: rest => Sorted value ∧ SortedEntries rest

end

mutual

/-- How many arrays and objects lie inside one another. -/
def nesting : Document → Nat
  | .array items => nestingOfItems items + 1
  | .object entries => nestingOfEntries entries + 1
  | .null | .bool _ | .number _ | .string _ => 0

/-- The deepest nesting in a list of documents. -/
def nestingOfItems : List Document → Nat
  | [] => 0
  | item :: rest => max (nesting item) (nestingOfItems rest)

/-- The deepest nesting in a list of entries. -/
def nestingOfEntries : List (String × Document) → Nat
  | [] => 0
  | (_, value) :: rest => max (nesting value) (nestingOfEntries rest)

end

/-! ## Back from the value -/

open RawDocument

mutual

/-- A sorted document comes back from its value, if it is not nested too deeply. -/
theorem toDocument?_toRaw : (document : Document) → (depth : Nat) → document.Sorted →
    document.nesting ≤ depth → toDocument? depth document.toRaw = some document
  | .null, _, _, _ => rfl
  | .bool _, _, _, _ => rfl
  | .number _, _, _, _ => rfl
  | .string _, _, _, _ => rfl
  | .array items, depth + 1, hsorted, hdepth => by
    rw [toRaw, toDocument?, itemsToDocuments?_toRaw items depth hsorted (by
      rw [nesting] at hdepth
      omega)]
    rfl
  | .object entries, depth + 1, ⟨hkeys, hsorted⟩, hdepth => by
    rw [toRaw, toDocument?, entriesToDocuments?_toRaw entries depth hsorted (by
      rw [nesting] at hdepth
      omega), Option.map_some, ofEntries, sortEntries_eq_self hkeys]

theorem itemsToDocuments?_toRaw : (items : List Document) → (depth : Nat) → SortedItems items →
    nestingOfItems items ≤ depth → itemsToDocuments? depth (itemsToRaw items) = some items
  | [], _, _, _ => rfl
  | item :: rest, depth, ⟨hitem, hrest⟩, hdepth => by
    rw [nestingOfItems, Nat.max_le] at hdepth
    rw [itemsToRaw, itemsToDocuments?, toDocument?_toRaw item depth hitem hdepth.1,
      itemsToDocuments?_toRaw rest depth hrest hdepth.2]
    rfl

theorem entriesToDocuments?_toRaw : (entries : List (String × Document)) → (depth : Nat) →
    SortedEntries entries → nestingOfEntries entries ≤ depth →
    entriesToDocuments? depth (entriesToRaw entries) = some entries
  | [], _, _, _ => rfl
  | (key, value) :: rest, depth, ⟨hvalue, hrest⟩, hdepth => by
    rw [nestingOfEntries, Nat.max_le] at hdepth
    rw [entriesToRaw, entriesToDocuments?, toDocument?_toRaw value depth hvalue hdepth.1,
      entriesToDocuments?_toRaw rest depth hrest hdepth.2]
    rfl

end

/-! ### What was read -/

theorem sortedEntries_iff {entries : List (String × Document)} :
    SortedEntries entries ↔ ∀ entry ∈ entries, Sorted entry.2 := by
  induction entries with
  | nil => simp [SortedEntries]
  | cons first rest ih => simp [SortedEntries, ih]

theorem nestingOfEntries_le {entries : List (String × Document)} {depth : Nat} :
    nestingOfEntries entries ≤ depth ↔ ∀ entry ∈ entries, nesting entry.2 ≤ depth := by
  induction entries with
  | nil => simp [nestingOfEntries]
  | cons first rest ih => simp [nestingOfEntries, ih]

mutual

/-- What was read is sorted, and not nested more deeply than was allowed. -/
theorem sorted_of_toDocument? : (raw : RawDocument) → (depth : Nat) → (document : Document) →
    toDocument? depth raw = some document → document.Sorted ∧ document.nesting ≤ depth
  | .null, _, _, rfl => ⟨trivial, Nat.zero_le _⟩
  | .bool _, _, _, rfl => ⟨trivial, Nat.zero_le _⟩
  | .number value, _, _, h => by
    obtain ⟨number, -, rfl⟩ := Option.map_eq_some_iff.mp h
    exact ⟨trivial, Nat.zero_le _⟩
  | .string value, _, _, h => by
    obtain ⟨text, -, rfl⟩ := Option.map_eq_some_iff.mp h
    exact ⟨trivial, Nat.zero_le _⟩
  | .array items, depth + 1, _, h => by
    obtain ⟨documents, hdocuments, rfl⟩ := Option.map_eq_some_iff.mp h
    obtain ⟨hsorted, hdepth⟩ := sortedItems_of_itemsToDocuments? items depth documents hdocuments
    exact ⟨hsorted, Nat.succ_le_succ hdepth⟩
  | .object entries, depth + 1, _, h => by
    obtain ⟨documents, hdocuments, rfl⟩ := Option.map_eq_some_iff.mp h
    have hentries := sortedEntries_of_entriesToDocuments? entries depth documents hdocuments
    obtain ⟨hkeys, hkept⟩ := sortEntries_keeps hentries
    exact ⟨⟨hkeys, sortedEntries_iff.mpr fun entry hmem => (hkept entry hmem).1⟩,
      Nat.succ_le_succ (nestingOfEntries_le.mpr fun entry hmem => (hkept entry hmem).2)⟩

theorem sortedItems_of_itemsToDocuments? : (raws : List RawDocument) → (depth : Nat) →
    (documents : List Document) → itemsToDocuments? depth raws = some documents →
    SortedItems documents ∧ nestingOfItems documents ≤ depth
  | [], _, _, rfl => ⟨trivial, Nat.zero_le _⟩
  | raw :: rest, depth, _, h => by
    simp only [itemsToDocuments?, Option.bind_eq_bind, Option.bind_eq_some_iff, Option.pure_def,
      Option.some.injEq] at h
    obtain ⟨document, hdocument, documents, hdocuments, rfl⟩ := h
    obtain ⟨hsorted, hdepth⟩ := sorted_of_toDocument? raw depth document hdocument
    obtain ⟨hsorted', hdepth'⟩ := sortedItems_of_itemsToDocuments? rest depth documents hdocuments
    exact ⟨⟨hsorted, hsorted'⟩, Nat.max_le.mpr ⟨hdepth, hdepth'⟩⟩

theorem sortedEntries_of_entriesToDocuments? : (raws : List (Option String × RawDocument)) →
    (depth : Nat) → (documents : List (String × Document)) →
    entriesToDocuments? depth raws = some documents →
    ∀ entry ∈ documents, Sorted entry.2 ∧ nesting entry.2 ≤ depth
  | [], _, _, rfl => by simp
  | (key, raw) :: rest, depth, _, h => by
    simp only [entriesToDocuments?, Option.bind_eq_bind, Option.bind_eq_some_iff, Option.pure_def,
      Option.some.injEq] at h
    obtain ⟨text, -, document, hdocument, documents, hdocuments, rfl⟩ := h
    exact List.forall_mem_cons.mpr ⟨sorted_of_toDocument? raw depth document hdocument,
      sortedEntries_of_entriesToDocuments? rest depth documents hdocuments⟩

end

/-- A document that comes back when a row holding it is stored and read again. -/
structure Storable (document : Document) : Prop where
  /-- Its numbers are read back. -/
  legible : document.Legible
  /-- The entries of its objects are sorted. -/
  sorted : document.Sorted
  /-- It is not nested too deeply to lie inside a snapshot. -/
  nesting_le : document.nesting ≤ maxNesting - 4

end Document

end VersionedTables
