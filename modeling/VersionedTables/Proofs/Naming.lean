import VersionedTables.Proofs.Ownership

/-!
# Names of tables and rows

Every name in a store is an identifier, whether anything links the version that has it or not; and
names tell apart the tables of a revision, without regard to case, and the rows of a table
(`Store.WellNamed`). So a search by name has no choice: it would find the same in any other order of
the list that it goes through. This holds after every run (`Database.Fresh.run_wellNamed`).
-/

namespace VersionedTables

/-! ## Lists told apart by a key -/

section Keys

variable {α κ : Type} [BEq κ] [LawfulBEq κ] {items items' : List α} {key : α → κ} {k : κ}

/-- No two items have one key. -/
theorem eq_of_nodup_map (h : (items.map key).Nodup) {a b : α} (ha : a ∈ items) (hb : b ∈ items)
    (hka : (key a == k) = true) (hkb : (key b == k) = true) : a = b :=
  List.inj_on_of_nodup_map h ha hb ((eq_of_beq hka).trans (eq_of_beq hkb).symm)

/-- There is one candidate at most. -/
theorem length_filter_le_one (h : (items.map key).Nodup) :
    (items.filter (key · == k)).length ≤ 1 := by
  rcases hfilter : items.filter (key · == k) with _ | ⟨first, _ | ⟨second, rest⟩⟩
  · exact Nat.zero_le 1
  · exact Nat.le_refl 1
  · have hcandidate {item : α} (hitem : item ∈ first :: second :: rest) :
        item ∈ items ∧ (key item == k) = true := by
      rw [← hfilter] at hitem
      exact List.mem_filter.mp hitem
    obtain ⟨hfirst, hkey⟩ := hcandidate List.mem_cons_self
    obtain ⟨hsecond, hkey'⟩ := hcandidate (List.mem_cons_of_mem _ List.mem_cons_self)
    have hnodup : (first :: second :: rest).Nodup := hfilter ▸ h.of_map.filter _
    obtain rfl := eq_of_nodup_map h hfirst hsecond hkey hkey'
    exact absurd List.mem_cons_self (List.nodup_cons.mp hnodup).1

/-- In which order the items come makes no difference to what is found. -/
theorem find?_perm (h : (items.map key).Nodup) (hperm : items'.Perm items) :
    items'.find? (key · == k) = items.find? (key · == k) := by
  have hnodup' : (items'.map key).Nodup := (hperm.map key).nodup_iff.mpr h
  refine Option.ext fun item => ?_
  rw [find?_eq_some_iff_of_unique (eq_of_nodup_map h),
    find?_eq_some_iff_of_unique (eq_of_nodup_map hnodup'), hperm.mem_iff]

end Keys

namespace Store

variable {s : Store} {supply : Supply}

/-! ## Well-named stores -/

/-- Names are identifiers, and tell things apart. -/
structure WellNamed (s : Store) : Prop where
  /-- The name of every table version is an identifier. -/
  tables : ∀ {v table}, s.table? v = some table → IsIdentifier table.name.text
  /-- The name of every row version is an identifier. -/
  rows : ∀ {u row}, s.row? u = some row → IsIdentifier row.name.text
  /-- The tables of a revision differ in their names, and not only in case. -/
  tables_nodup : ∀ id, ((s.tablesOf id).map fun table => foldCase table.name.text).Nodup
  /-- The rows of a table version differ in their names. -/
  rows_nodup : ∀ v, ((s.rowsOf v).map fun row => row.name.text).Nodup
  /-- A text names one table of a revision at most. -/
  one_table : ∀ id text, ((s.tablesOf id).filter (·.name.matches text)).length ≤ 1
  /-- A text names one row of a table version at most. -/
  one_row : ∀ v text, ((s.rowsOf v).filter (·.name.text == text)).length ≤ 1
  /-- A table would be found in any other order of the tables. -/
  findTable_perm : ∀ id text {tables : List TableVersion}, tables.Perm (s.tablesOf id) →
    tables.find? (·.name.matches text) = s.findTable id text
  /-- A row would be found in any other order of the rows. -/
  findRow_perm : ∀ v text {rows : List RowVersion}, rows.Perm (s.rowsOf v) →
    rows.find? (·.name.text == text) = s.findRow v text

theorem Sound.wellNamed (h : s.Sound supply) : s.WellNamed := by
  have htables (id : RevisionId) : ((s.tablesOf id).map Graph.tableKey).Nodup :=
    h.intact.nodup_tablesOf h.coherent.tableNames id
  have hrows (v : VersionId) : ((s.rowsOf v).map fun row => row.name.text).Nodup := by
    have hnames := h.intact.nodup_rowsOf h.coherent.rowNames v
    have htexts : Function.Injective RowName.text := fun _ _ htext => congrArg RowName.mk htext
    rw [← Function.comp_def RowName.text RowVersion.name, ← List.map_map]
    exact hnames.map htexts
  exact {
    tables := fun htable => h.coherent.tableIdentifiers htable
    rows := fun hrow => h.coherent.rowIdentifiers hrow
    tables_nodup := htables
    rows_nodup := hrows
    one_table := fun id _ => length_filter_le_one (htables id)
    one_row := fun v _ => length_filter_le_one (hrows v)
    findTable_perm := fun id _ _ hperm => find?_perm (htables id) hperm
    findRow_perm := fun v _ _ hperm => find?_perm (hrows v) hperm }

end Store

namespace Database

variable {db : Database}

/-- After every run, names are identifiers and tell tables and rows apart. -/
theorem Fresh.run_wellNamed (h : db.Fresh) (commands : List Command) :
    (db.run commands).store.WellNamed :=
  (h.run_sound commands).wellNamed

/-- A run in which a table is renamed in case alone, and two rows exchange their names. -/
theorem run_wellNamed_of_exchange :
    (inMemory (.unary fun _ => ⟨0, 0⟩)).Fresh ∧
      ((inMemory (.unary fun _ => ⟨0, 0⟩)).run [.createBranch "main" none,
        .createTable ⟨"ii"⟩ "users" false, .renameTable ⟨"ii"⟩ "users" "Users",
        .createRows ⟨"ii"⟩ "USERS" [{ name := "a", data := .null }, { name := "b", data := .null }],
        .renameRows ⟨"ii"⟩ "users" [⟨"a", "b"⟩, ⟨"b", "a"⟩]]).store.WellNamed :=
  ⟨fresh_inMemory (Supply.distinct_unary _),
    Fresh.run_wellNamed (fresh_inMemory (Supply.distinct_unary _)) _⟩

end Database

end VersionedTables
