import VersionedTables.Proofs.Edit.Renames

/-!
# What a batch exchanges

With each of its rows a batch does one of three things (`Exchange`): a row gets its first version, a
version takes the place of another one, or a version is let go of. What becomes of a table version
and of the records of rows then only depends on the list of these (`Layer.Exchanges`), whichever loops
the batch was made of. Exchanges are put together with `Layer.Exchanges.append`; records that were
exchanged are changed where they stand with `Layer.Exchanges.amend`.
-/

namespace VersionedTables

/-! ## Exchanges -/

/-- What a batch does with one row of a table. -/
inductive Exchange where
  /-- A row gets its first version. -/
  | create (new : RowVersion)
  /-- A version takes the place of another one, or gets another record. -/
  | replace (old new : RowVersion)
  /-- A version is let go of. -/
  | remove (old : RowVersion)

namespace Exchange

/-- The version that the table held before. -/
def old? : Exchange → Option RowVersion
  | create _ => none
  | replace old _ => some old
  | remove old => some old

/-- The version that the table holds now. -/
def new? : Exchange → Option RowVersion
  | create new => some new
  | replace _ new => some new
  | remove _ => none

/-- The versions that a table held before. -/
def olds (xs : List Exchange) : List RowVersion :=
  xs.filterMap old?

/-- The versions that a table holds now. -/
def news (xs : List Exchange) : List RowVersion :=
  xs.filterMap new?

/-- A version may be changed that a table holds now, and it is of the same row as the one before, if
there was one. It is a new version if the one before was published, and otherwise the same one. What
was stored before is given. -/
def Fits (row? : VersionId → Option RowVersion) : Exchange → Prop
  | create new => new.readonly = false ∧ row? new.version = none
  | replace old new => new.readonly = false ∧ new.entity = old.entity ∧
    new.createdAt = old.createdAt ∧
      if old.readonly then row? new.version = none else new.version = old.version
  | remove _ => True

/-- Whether a new version comes of it. -/
def isNew : Exchange → Bool
  | create _ => true
  | replace old _ => old.readonly
  | remove _ => false

/-- The exchange with another record for the version that the table holds now. -/
def amend (f : RowVersion → RowVersion) : Exchange → Exchange
  | create new => create (f new)
  | replace old new => replace old (f new)
  | remove old => remove old

variable {xs ys : List Exchange} {f : RowVersion → RowVersion}

@[simp] theorem olds_nil : olds [] = [] := rfl

@[simp] theorem news_nil : news [] = [] := rfl

theorem olds_cons {x : Exchange} : olds (x :: xs) = x.old?.toList ++ olds xs := by
  cases x <;> rfl

theorem news_cons {x : Exchange} : news (x :: xs) = x.new?.toList ++ news xs := by
  cases x <;> rfl

@[simp] theorem olds_append : olds (xs ++ ys) = olds xs ++ olds ys :=
  List.filterMap_append

@[simp] theorem news_append : news (xs ++ ys) = news xs ++ news ys :=
  List.filterMap_append

@[simp] theorem olds_create {news : List RowVersion} : olds (news.map create) = [] := by
  simp [olds, old?]

@[simp] theorem olds_remove {rows : List RowVersion} : olds (rows.map remove) = rows := by
  induction rows with
  | nil => rfl
  | cons row rest ih => exact congrArg (row :: ·) ih

@[simp] theorem news_remove {rows : List RowVersion} : news (rows.map remove) = [] := by
  simp [news, new?]

@[simp] theorem olds_replace {ι : Type} {items : List ι} {old new : ι → RowVersion} :
    olds (items.map fun item => replace (old item) (new item)) = items.map old := by
  induction items with
  | nil => rfl
  | cons item rest ih => exact congrArg (old item :: ·) ih

@[simp] theorem news_replace {ι : Type} {items : List ι} {old new : ι → RowVersion} :
    news (items.map fun item => replace (old item) (new item)) = items.map new := by
  induction items with
  | nil => rfl
  | cons item rest ih => exact congrArg (new item :: ·) ih

/-- What took a place is not replaced by what gets hold of rows of other names. -/
theorem not_mem_news {ι : Type} {items : List ι} {old new : ι → RowVersion} {names : List String}
    {row next : RowVersion} (hnames : items.map (fun item => (old item).name.text) = names)
    (hname : next.name.text ∉ names) :
    ∀ other ∈ olds (items.map fun item => replace (old item) (new item)),
      other ∉ news [replace row next] := by
  intro other hother hmem
  rw [olds_replace] at hother
  obtain ⟨item, hitem, rfl⟩ := List.mem_map.mp hother
  have hsame : old item = next := by simpa [news, new?] using hmem
  rw [← hnames, ← hsame] at hname
  exact hname (List.mem_map_of_mem hitem)

@[simp] theorem olds_amend : olds (xs.map (·.amend f)) = olds xs := by
  rw [olds, List.filterMap_map]
  refine List.filterMap_congr fun x _ => ?_
  cases x <;> rfl

@[simp] theorem news_amend : news (xs.map (·.amend f)) = (news xs).map f := by
  rw [news, List.filterMap_map, news, List.map_filterMap]
  refine List.filterMap_congr fun x _ => ?_
  cases x <;> rfl

/-- An exchange also fits what was stored at another time, if what is new to the one is new to the
other. -/
theorem Fits.imp {x : Exchange} {row? row?' : VersionId → Option RowVersion} (h : x.Fits row?)
    (hfresh : ∀ new, x.new? = some new → row? new.version = none → row?' new.version = none) :
    x.Fits row?' := by
  cases x with
  | create new => exact ⟨h.1, hfresh new rfl h.2⟩
  | replace old new =>
    obtain ⟨hmutable, hentity, hcreated, hversion⟩ := h
    refine ⟨hmutable, hentity, hcreated, ?_⟩
    split at hversion
    · next hreadonly =>
      rw [if_pos hreadonly]
      exact hfresh new rfl hversion
    · next hold => rwa [if_neg hold]
  | remove old => exact trivial

/-- An exchange still fits when the version that the table holds now gets another record, one of the
same row. -/
theorem Fits.amend {x : Exchange} {row? : VersionId → Option RowVersion} (h : x.Fits row?)
    (hsame : ∀ new, x.new? = some new → (f new).version = new.version ∧
      (f new).readonly = new.readonly ∧ (f new).entity = new.entity ∧
        (f new).createdAt = new.createdAt) : (x.amend f).Fits row? := by
  cases x with
  | create new =>
    obtain ⟨hversion, hreadonly, -, -⟩ := hsame new rfl
    rw [Exchange.amend, Fits, hversion, hreadonly]
    exact h
  | replace old new =>
    obtain ⟨hversion, hreadonly, hentity, hcreated⟩ := hsame new rfl
    rw [Exchange.amend, Fits, hversion, hreadonly, hentity, hcreated]
    exact h
  | remove old => exact trivial

/-- The new versions among those that a table holds now, counted by what they came of. -/
theorem length_new {row? : VersionId → Option RowVersion} (hfits : ∀ x ∈ xs, x.Fits row?)
    (hheld : ∀ old ∈ olds xs, row? old.version = some old) :
    (((news xs).map (·.version)).filter fun u => (row? u).isNone).length = xs.countP (·.isNew) := by
  induction xs with
  | nil => rfl
  | cons x rest ih =>
    obtain ⟨hfirst, hrest⟩ := List.forall_mem_cons.mp hfits
    rw [olds_cons] at hheld
    have ih := ih hrest fun old hold => hheld old (List.mem_append_right _ hold)
    cases x with
    | create new =>
      have hnone : row? new.version = none := hfirst.2
      simp [news_cons, new?, isNew, hnone, ih]
    | replace old new =>
      obtain ⟨-, -, -, hversion⟩ := hfirst
      split at hversion
      · next hreadonly => simp [news_cons, new?, isNew, hversion, hreadonly, ih]
      · next hmutable =>
        have hstored : row? old.version = some old := hheld old (by simp [old?])
        simp [news_cons, new?, isNew, hversion, hstored, hmutable, ih]
    | remove old => simp [news_cons, new?, isNew, ih]

end Exchange

namespace Layer

open Exchange

variable {L L₁ L' : Layer VersionId RowVersion} {xs ys : List Exchange} {v v' u : VersionId}
  {old new row : RowVersion}

/-- Rows that the table version `v` held are exchanged, and `v'` holds what comes of it; no other
table version holds anything else. All other records stay, and so do those of published versions. -/
structure Exchanges (xs : List Exchange) (v v' : VersionId) (L L' : Layer VersionId RowVersion) :
    Prop where
  fits : ∀ x ∈ xs, x.Fits L.record?
  nodup : ((news xs).map (·.version)).Nodup
  held : ∀ {old}, old ∈ olds xs → L.Linked v old.version ∧ L.record? old.version = some old
  stored : ∀ {new}, new ∈ news xs → L'.record? new.version = some new
  links : ∀ {u}, L'.Linked v' u ↔
    (∃ new ∈ news xs, new.version = u) ∨ L.Linked v u ∧ ∀ old ∈ olds xs, old.version ≠ u
  links_other : ∀ {b u}, b ≠ v' → (L'.Linked b u ↔ L.Linked b u)
  kept : ∀ {u}, (∀ new ∈ news xs, new.version ≠ u) →
    (∀ old ∈ olds xs, old.version = u → old.readonly = true) → L'.record? u = L.record? u

namespace Exchanges

/-- A version that a table holds now is a new one, or it is one that was not published. -/
theorem new_cases (h : Exchanges xs v v' L L') (hnew : new ∈ news xs) :
    L.record? new.version = none ∨
      ∃ old ∈ olds xs, old.readonly = false ∧ old.version = new.version := by
  obtain ⟨x, hx, hxnew⟩ := List.mem_filterMap.mp hnew
  have hfits := h.fits x hx
  cases x with
  | create row =>
    cases hxnew
    exact .inl hfits.2
  | replace old row =>
    cases hxnew
    obtain ⟨-, -, -, hversion⟩ := hfits
    split at hversion
    · exact .inl hversion
    · next hmutable =>
      exact .inr ⟨old, List.mem_filterMap.mpr ⟨_, hx, rfl⟩, Bool.eq_false_iff.mpr hmutable,
        hversion.symm⟩
  | remove row => cases hxnew

/-- What takes the place of a version is another version just if that one was published. -/
theorem version_ne_iff (h : Exchanges xs v v' L L') (hmem : .replace old new ∈ xs) :
    new.version ≠ old.version ↔ old.readonly = true := by
  have hstored := (h.held (List.mem_filterMap.mpr ⟨_, hmem, rfl⟩)).2
  obtain ⟨-, -, -, hversion⟩ := h.fits _ hmem
  split at hversion
  · next hreadonly =>
    refine iff_of_true (fun heq => ?_) hreadonly
    rw [heq, hstored] at hversion
    cases hversion
  · next hmutable => exact iff_of_false (not_not_intro hversion) hmutable

/-- As long as nothing is let go of, what was stored stays stored. -/
theorem eq_none_of (h : Exchanges xs v v' L L') (hxs : ∀ x ∈ xs, x.new? ≠ none)
    (hnone : L'.record? u = none) : L.record? u = none := by
  have hnews : ∀ new ∈ news xs, new.version ≠ u := by
    rintro new hnew rfl
    cases hnone.symm.trans (h.stored hnew)
  rw [← h.kept hnews ?_, hnone]
  intro old hold hversion
  obtain ⟨x, hx, hxold⟩ := List.mem_filterMap.mp hold
  have hfits := h.fits x hx
  cases x with
  | create row => cases hxold
  | replace row new =>
    cases hxold
    by_contra hmutable
    obtain ⟨-, -, -, hsame⟩ := hfits
    rw [if_neg hmutable] at hsame
    exact hnews new (List.mem_filterMap.mpr ⟨_, hx, rfl⟩) (hsame.trans hversion)
  | remove row => exact absurd rfl (hxs _ hx)

/-- No version takes the place of another one under its own name, unless that one was to be replaced
there. -/
theorem new_ne (h : Exchanges xs v v' L L') (hstored : L.record? row.version = some row)
    (hkept : row ∈ olds xs → row.readonly = true) (hnew : new ∈ news xs) :
    new.version ≠ row.version := by
  intro heq
  rcases h.new_cases hnew with hnone | ⟨old, hold, hmutable, hversion⟩
  · rw [heq, hstored] at hnone
    cases hnone
  · have hsame := (h.held hold).2
    rw [hversion, heq, hstored] at hsame
    obtain rfl := Option.some.inj hsame
    exact Bool.false_ne_true (hmutable.symm.trans (hkept hold))

/-- A record stays that is not exchanged, or is published. -/
theorem record?_eq (h : Exchanges xs v v' L L') (hstored : L.record? row.version = some row)
    (hkept : row ∈ olds xs → row.readonly = true) : L'.record? row.version = some row := by
  rw [h.kept (fun new hnew => h.new_ne hstored hkept hnew) fun old hold hversion => ?_, hstored]
  have hsame := (h.held hold).2
  rw [hversion, hstored] at hsame
  obtain rfl := Option.some.inj hsame
  exact hkept hold

/-- A published version that was exchanged only loses its link in the one table version. -/
theorem linked_old (h : Exchanges xs v v' L L') (hold : old ∈ olds xs)
    (hreadonly : old.readonly = true) {b : VersionId} :
    L'.Linked b old.version ↔ b ≠ v' ∧ L.Linked b old.version := by
  by_cases hb : b = v'
  · subst hb
    rw [h.links]
    refine iff_of_false ?_ fun hlinked => hlinked.1 rfl
    rintro (⟨new, hnew, heq⟩ | ⟨-, hnot⟩)
    · exact h.new_ne (h.held hold).2 (fun _ => hreadonly) hnew heq
    · exact hnot old hold rfl
  · rw [h.links_other hb, and_iff_right hb]

/-- What a table version holds in the end is what was exchanged and what was not. -/
theorem mem_iff (h : Exchanges xs v v' L L') :
    L'.Linked v' row.version ∧ L'.record? row.version = some row ↔
      row ∈ news xs ∨
        (L.Linked v row.version ∧ L.record? row.version = some row) ∧ row ∉ olds xs := by
  refine ⟨?_, ?_⟩
  · rintro ⟨hlinked, hstored⟩
    by_cases hnew : ∃ new ∈ news xs, new.version = row.version
    · obtain ⟨new, hnew, hversion⟩ := hnew
      have hsame := h.stored hnew
      rw [hversion, hstored] at hsame
      exact .inl (Option.some.inj hsame ▸ hnew)
    · obtain ⟨hlinked, hnot⟩ := (h.links.mp hlinked).resolve_left hnew
      refine .inr ⟨⟨hlinked, ?_⟩, fun hold => hnot row hold rfl⟩
      rw [← h.kept (fun new hmem heq => hnew ⟨new, hmem, heq⟩)
        fun old hold heq => absurd heq (hnot old hold)]
      exact hstored
  · rintro (hnew | ⟨⟨hlinked, hstored⟩, hnot⟩)
    · exact ⟨h.links.mpr (.inl ⟨row, hnew, rfl⟩), h.stored hnew⟩
    · refine ⟨h.links.mpr (.inr ⟨hlinked, fun old hold heq => hnot ?_⟩),
        h.record?_eq hstored fun hold => absurd hold hnot⟩
      have hsame := (h.held hold).2
      rw [heq, hstored] at hsame
      exact Option.some.inj hsame ▸ hold

/-- Nothing is exchanged. -/
theorem refl : Exchanges [] v v L L where
  fits := by simp
  nodup := by simp
  held := by simp
  stored := by simp
  links := by simp
  links_other _ := Iff.rfl
  kept _ _ := rfl

/-- A table version takes over what another one holds. -/
theorem inherit : Exchanges [] v v' L (L.inherit v' (some v)) where
  fits := by simp
  nodup := by simp
  held := by simp
  stored := by simp
  links := by simp
  links_other hb := by simp [hb]
  kept _ _ := rfl

/-- Exchanges one after the other. What the later ones replace or let go of must not come from the
earlier ones, and what is new to them must have been new before. -/
theorem append (h : Exchanges xs v v' L L₁) (h' : Exchanges ys v' v' L₁ L')
    (hothers : ∀ old ∈ olds ys, old ∉ news xs)
    (hfresh : ∀ new ∈ news ys, L₁.record? new.version = none → L.record? new.version = none) :
    Exchanges (xs ++ ys) v v' L L' := by
  have hne {old new : RowVersion} (hold : old ∈ olds ys) (hnew : new ∈ news xs) :
      old.version ≠ new.version := by
    intro heq
    have hstored := (h'.held hold).2
    rw [heq, h.stored hnew] at hstored
    exact hothers old hold (Option.some.inj hstored ▸ hnew)
  -- A version that the later ones bring is not one that the earlier ones brought.
  have hnews {new new' : RowVersion} (hnew : new ∈ news xs) (hnew' : new' ∈ news ys) :
      new.version ≠ new'.version := by
    intro heq
    rcases h'.new_cases hnew' with hnone | ⟨old, hold, -, hversion⟩
    · rw [← heq, h.stored hnew] at hnone
      cases hnone
    · exact hne hold hnew (hversion.trans heq.symm)
  refine {
    fits := ?_
    nodup := ?_
    held := ?_
    stored := ?_
    links := ?_
    links_other := fun hb => (h'.links_other hb).trans (h.links_other hb)
    kept := ?_ }
  · intro x hx
    rcases List.mem_append.mp hx with hx | hx
    · exact h.fits x hx
    · exact (h'.fits x hx).imp fun new hnew => hfresh new (List.mem_filterMap.mpr ⟨x, hx, hnew⟩)
  · rw [news_append, List.map_append, List.nodup_append']
    refine ⟨h.nodup, h'.nodup, ?_⟩
    intro u hu hu'
    obtain ⟨new, hnew, rfl⟩ := List.mem_map.mp hu
    obtain ⟨new', hnew', heq⟩ := List.mem_map.mp hu'
    exact hnews hnew hnew' heq.symm
  · intro old hold
    rw [olds_append, List.mem_append] at hold
    rcases hold with hold | hold
    · exact h.held hold
    · obtain ⟨hlinked, hstored⟩ := h'.held hold
      rcases h.links.mp hlinked with ⟨new, hnew, hversion⟩ | ⟨hlinked, hkept⟩
      · exact absurd hversion.symm (hne hold hnew)
      · refine ⟨hlinked, ?_⟩
        rw [← hstored]
        refine (h.kept (fun new hnew hversion => hne hold hnew hversion.symm) ?_).symm
        exact fun other hother hversion => absurd hversion (hkept other hother)
  · intro new hnew
    rw [news_append, List.mem_append] at hnew
    rcases hnew with hnew | hnew
    · rw [h'.kept (fun new' hnew' heq => hnews hnew hnew' heq.symm)
        fun old hold heq => absurd heq (hne hold hnew)]
      exact h.stored hnew
    · exact h'.stored hnew
  · intro u
    rw [h'.links, h.links]
    simp only [news_append, olds_append, List.mem_append]
    grind
  · intro u hnew hold
    simp only [news_append, olds_append, List.mem_append] at hnew hold
    rw [h'.kept (fun new h => hnew new (.inr h)) fun old h => hold old (.inr h),
      h.kept (fun new h => hnew new (.inl h)) fun old h => hold old (.inl h)]

/-- Other records for the versions that a table holds now, of the same rows. -/
theorem amend (h : Exchanges xs v v' L L') {f : RowVersion → RowVersion}
    (hclosed : ∀ {u row}, L'.record? u = some row → row.version = u)
    (hnews : ∀ new ∈ news xs, (f new).version = new.version ∧ (f new).readonly = new.readonly ∧
      (f new).entity = new.entity ∧ (f new).createdAt = new.createdAt)
    (hothers : ∀ {u row}, L'.record? u = some row → row ∉ news xs → f row = row) :
    Exchanges (xs.map (·.amend f)) v v' L (L'.amend f) where
  fits := by
    intro _ hmem
    obtain ⟨x, hx, rfl⟩ := List.mem_map.mp hmem
    exact (h.fits x hx).amend fun new hnew => hnews new (List.mem_filterMap.mpr ⟨x, hx, hnew⟩)
  nodup := by
    have hsame : (news xs).map ((·.version) ∘ f) = (news xs).map (·.version) :=
      List.map_congr_left fun new hnew => (hnews new hnew).1
    rw [news_amend, List.map_map, hsame]
    exact h.nodup
  held := by
    rw [olds_amend]
    exact h.held
  stored := by
    intro _ hmem
    rw [news_amend] at hmem
    obtain ⟨new, hnew, rfl⟩ := List.mem_map.mp hmem
    rw [(hnews new hnew).1, record?_amend, h.stored hnew, Option.map_some]
  links := by
    intro u
    rw [linked_amend, h.links, news_amend, olds_amend]
    refine or_congr_left ⟨?_, ?_⟩
    · rintro ⟨new, hnew, rfl⟩
      exact ⟨f new, List.mem_map_of_mem hnew, (hnews new hnew).1⟩
    · rintro ⟨_, hmem, rfl⟩
      obtain ⟨new, hnew, rfl⟩ := List.mem_map.mp hmem
      exact ⟨new, hnew, (hnews new hnew).1.symm⟩
  links_other hb := h.links_other hb
  kept := by
    intro u hnew hold
    rw [olds_amend] at hold
    have hne : ∀ new ∈ news xs, new.version ≠ u := by
      intro new hmem
      rw [← (hnews new hmem).1]
      refine hnew _ ?_
      rw [news_amend]
      exact List.mem_map_of_mem hmem
    rw [← h.kept hne hold, record?_amend]
    rcases hrow : L'.record? u with _ | row
    · rfl
    · exact congrArg some (hothers hrow fun hmem => hne row hmem (hclosed hrow))

/-- A row gets its first version. -/
theorem create (hmutable : new.readonly = false) (hnew : L.record? new.version = none) :
    Exchanges [.create new] v v L (L.place v none new.version new) where
  fits := by simpa [Fits] using ⟨hmutable, hnew⟩
  nodup := by simp [news, new?]
  held := by simp [olds, old?]
  stored := by simp [news, new?]
  links := by simp [news, olds, new?, old?, eq_comm]
  links_other hb := by simp [hb]
  kept := by
    intro u hne _
    rw [record?_place, if_neg]
    rintro rfl
    exact hne new (by simp [news, new?]) rfl

/-- A new version takes the place of one that is published. -/
theorem replace (hheld : L.Linked v old.version) (hstored : L.record? old.version = some old)
    (hreadonly : old.readonly = true) (hmutable : new.readonly = false)
    (hentity : new.entity = old.entity) (hcreated : new.createdAt = old.createdAt)
    (hnew : L.record? new.version = none) :
    Exchanges [.replace old new] v v L (L.place v (some old.version) new.version new) where
  fits := by simpa [Fits, hreadonly] using ⟨hmutable, hentity, hcreated, hnew⟩
  nodup := by simp [news, new?]
  held := by
    intro row hrow
    obtain rfl : row = old := by simpa [olds, old?] using hrow
    exact ⟨hheld, hstored⟩
  stored := by simp [news, new?]
  links := by simp [news, olds, new?, old?, eq_comm]
  links_other hb := by simp [hb]
  kept := by
    intro u hne _
    rw [record?_place, if_neg]
    rintro rfl
    exact hne new (by simp [news, new?]) rfl

/-- A version that may be changed stays in its place. -/
theorem keep (hheld : L.Linked v old.version) (hstored : L.record? old.version = some old)
    (hmutable : old.readonly = false) : Exchanges [.replace old old] v v L L where
  fits := by simp [Fits, hmutable]
  nodup := by simp [news, new?]
  held := by
    intro row hrow
    obtain rfl : row = old := by simpa [olds, old?] using hrow
    exact ⟨hheld, hstored⟩
  stored := by
    intro row hrow
    obtain rfl : row = old := by simpa [news, new?] using hrow
    exact hstored
  links := by
    intro u
    by_cases hu : old.version = u
    · simp [news, olds, new?, old?, ← hu, hheld]
    · simp [news, olds, new?, old?, hu]
  links_other _ := Iff.rfl
  kept _ _ := rfl

/-- A version is let go of, and dropped unless another table version holds it. -/
theorem remove (hheld : L.Linked v old.version) (hstored : L.record? old.version = some old)
    (hanchor : old.readonly = true → ∃ b, b ≠ v ∧ L.Linked b old.version) :
    Exchanges [.remove old] v v L
      (L.prune (fun b x => ¬(b = v ∧ x = old.version)) (· = old.version)) where
  fits := by simp [Fits]
  nodup := List.nodup_nil
  held := by
    intro row hrow
    obtain rfl : row = old := by simpa [olds, old?] using hrow
    exact ⟨hheld, hstored⟩
  stored := by simp [news, new?]
  links := by simp [linked_prune, news, olds, new?, old?, eq_comm]
  links_other hb := by simp [linked_prune, hb]
  kept := by
    intro u _ hkept
    by_cases hu : u = old.version
    · obtain ⟨b, hb, hlinked⟩ := hanchor (hkept old (by simp [olds, old?]) hu.symm)
      rw [hu]
      exact record?_prune_of_linked hlinked fun hremoved => hb hremoved.1
    · exact record?_prune_of_not hu

end Exchanges

end Layer

/-- Replacing records of versions that were exchanged. -/
theorem Layer.Exchanges.replaceAll {g g' : Graph} {xs : List Exchange} {v v' : VersionId}
    (h : Exchanges xs v v' g.rows g'.rows) (hc : g'.Closed) (records : List RowVersion)
    (hrecords : ∀ record ∈ records, ∃ new ∈ Exchange.news xs, record.version = new.version ∧
      record.readonly = new.readonly ∧ record.entity = new.entity ∧
        record.createdAt = new.createdAt) :
    Exchanges (xs.map (·.amend (RowVersion.replaceAll records))) v v' g.rows
      (g'.amendRows (RowVersion.replaceAll records)).rows := by
  have hsame {row new : RowVersion} (hrow : g'.rows.record? row.version = some row)
      (hnew : new ∈ Exchange.news xs) (hversion : row.version = new.version) : row = new := by
    rw [hversion, h.stored hnew] at hrow
    exact (Option.some.inj hrow).symm
  refine h.amend hc.row_eq ?_ ?_
  · intro new hnew
    rcases RowVersion.replaceAll_cases records new with ⟨record, hmem, hversion, heq⟩ | ⟨-, heq⟩
    · obtain ⟨new', hnew', hfields⟩ := hrecords record hmem
      obtain rfl := hsame (h.stored hnew) hnew' (hversion.symm.trans hfields.1)
      rwa [heq]
    · rw [heq]
      exact ⟨rfl, rfl, rfl, rfl⟩
  · intro u row hrow hnot
    obtain rfl := hc.row_eq hrow
    rcases RowVersion.replaceAll_cases records row with ⟨record, hmem, hversion, -⟩ | ⟨-, heq⟩
    · obtain ⟨new, hnew, hfields⟩ := hrecords record hmem
      obtain rfl := hsame hrow hnew (hversion.symm.trans hfields.1)
      exact absurd hnew hnot
    · exact heq

/-- Another record for a version that took a place. -/
theorem Layer.Exchanges.put {g g' : Graph} {v v' : VersionId} {old new record : RowVersion}
    (h : Exchanges [.replace old new] v v' g.rows g'.rows) (hc : g'.Closed)
    (hversion : record.version = new.version) (hreadonly : record.readonly = new.readonly)
    (hentity : record.entity = new.entity) (hcreated : record.createdAt = new.createdAt) :
    Exchanges [.replace old record] v v' g.rows
      (g'.withRows (g'.rows.put record.version record)).rows := by
  have hnew : new ∈ Exchange.news [.replace old new] := by simp [Exchange.news, Exchange.new?]
  have hamended := h.replaceAll hc [record] fun other hother => by
    rw [List.mem_singleton.mp hother]
    exact ⟨new, hnew, hversion, hreadonly, hentity, hcreated⟩
  have hput := Graph.amendRows_replaceAll hc ⟨new, hversion ▸ h.stored hnew⟩ []
  rw [Graph.amendRows_replaceAll_nil] at hput
  rw [hput]
  simpa [Exchange.amend, RowVersion.replaceAll, hversion] using hamended

/-! ## Answers -/

namespace RowVersion

/-- What is answered of a row that was created. -/
def created (new : RowVersion) : CreatedRow :=
  ⟨new.name, new.version, new.entity⟩

/-- What is answered of a row that was updated. -/
def updated (old new : RowVersion) : UpdatedRow :=
  ⟨new.name, new.version, old.version, new.entity, new.hash⟩

/-- What is answered of a row that was removed. What is published stays, as somebody else holds it. -/
def removed (old : RowVersion) : RemovedRow :=
  ⟨old.name, old.version, !old.readonly⟩

/-- What is answered of a row that was renamed. -/
def renamed (old new : RowVersion) : RenamedRow :=
  ⟨old.name, new.name, new.version, old.version, new.entity⟩

end RowVersion

/-! ## Single rows -/

/-- A version that may be changed is a copy of itself. -/
theorem RowVersion.eq_copy {row : RowVersion} (h : row.readonly = false) :
    row = row.copy row.version row.updatedAt := by
  cases row
  cases h
  rfl

namespace Edit

open Layer Exchange

variable {w w₁ w' : Workspace} {table : TableVersion} {row : RowVersion} {v : VersionId}
  {name : String}

/-- A row is got hold of: a copy takes its place, or it stays in its place. -/
theorem draftRow_exchanges (h : w.Sound) (htable : table.readonly = false)
    (hnamed : w.graph.NamesRow table.version name row) :
    (draftRow table name).Yields w fun target w' => target.previous = row.version ∧
      (∃ version time, target.row = row.copy version time) ∧
        Exchanges [.replace row target.row] table.version table.version w.graph.rows
          w'.graph.rows := by
  refine (draftRow_yields h.openable htable hnamed).imp ?_
  rintro ⟨_, previous, isCopy⟩ w' ⟨hprevious, ⟨hmutable, rfl, rfl⟩ |
    ⟨hreadonly, version, time, rfl, hbetween, hgraph⟩⟩
  · refine ⟨hprevious, ⟨_, _, RowVersion.eq_copy hmutable⟩, ?_⟩
    exact .keep hnamed.held hnamed.stored hmutable
  · refine ⟨hprevious, ⟨_, _, rfl⟩, ?_⟩
    rw [hgraph]
    exact .replace hnamed.held hnamed.stored hreadonly rfl rfl rfl (h.row?_eq_none hbetween.1)

/-- A row is created. -/
theorem createRow_exchanges (h : w.Sound) (hstored : ∃ table, w.store.table? v = some table)
    {input : RowInput} :
    (createRow v ⟨input.name⟩ input).Yields w fun created w' => ∃ row : RowVersion,
      row.name.text = input.name ∧ created = row.created ∧
        Exchanges [.create row] v v w.graph.rows w'.graph.rows := by
  refine (createRow_places h hstored).imp ?_
  rintro created w' ⟨row, hcreated, hcontent, hmutable, hversion, -, -, hgraph⟩
  refine ⟨row, congrArg (·.name.text) hcontent, hcreated, ?_⟩
  rw [hgraph]
  exact .create hmutable (h.row?_eq_none hversion.1)

/-- A row is given new data. -/
theorem updateRow_exchanges (h : w.Sound) (hopen : ¬w.graph.tables.Published table.version)
    (htable : table.readonly = false) {input : RowInput}
    (hnamed : w.graph.NamesRow table.version input.name row) :
    (updateRow table input).Yields w fun updated w' => ∃ new : RowVersion,
      new.name = row.name ∧ updated = row.updated new ∧
        Exchanges [.replace row new] table.version table.version w.graph.rows w'.graph.rows := by
  simp only [updateRow, yields_bind, yields_pure]
  refine ((draftRow_step h hopen htable hnamed).and (draftRow_exchanges h htable hnamed)).imp ?_
  rintro target w₁ ⟨⟨hstep, hreplaces, -⟩, hprevious, -, hexchanges⟩
  refine now_draws.imp ?_
  rintro time w₂ ⟨hstore₂, -⟩
  have hgraph₂ : w₂.graph = w₁.graph := by rw [Workspace.graph, hstore₂]
  refine (updateRow_yields ?_).imp ?_
  · rw [hstore₂]
    exact ⟨_, hreplaces.named.stored⟩
  rintro - w₃ ⟨hgraph₃, -⟩
  rw [hgraph₃, hgraph₂]
  refine ⟨_, ?_, by rw [hprevious]; rfl, hexchanges.put hstep.sound.intact.closed rfl rfl rfl rfl⟩
  exact congrArg RowContent.name hreplaces.content

/-- A row is let go of. -/
theorem removeRow_exchanges (h : w.Sound) (hopen : ¬w.graph.tables.Published v)
    (hnamed : w.graph.NamesRow v name row) :
    (removeRow v row).Yields w fun removed w' => removed = row.removed ∧
      Exchanges [.remove row] v v w.graph.rows w'.graph.rows := by
  refine (removeRow_prunes h.intact hnamed.stored).imp ?_
  rintro _ w' ⟨-, hgraph, deleted, rfl, hdeleted⟩
  -- What is published is held by a table that is published, and this one is not.
  have hanchor (hreadonly : row.readonly = true) :
      ∃ b, b ≠ v ∧ w.graph.rows.Linked b row.version := by
    obtain ⟨b, hb, hlinked⟩ := h.coherent.anchoredRows ⟨row, hnamed.stored, hreadonly⟩
    exact ⟨b, fun heq => hopen (heq ▸ hb), hlinked⟩
  refine ⟨?_, ?_⟩
  · have hflag : deleted = !row.readonly := by
      cases hreadonly : row.readonly with
      | false =>
        refine hdeleted.mpr fun b hlinked => h.coherent.ownedRows.unique hlinked hnamed.held ?_
        rw [Layer.published_iff hnamed.stored]
        exact Bool.eq_false_iff.mp hreadonly
      | true =>
        obtain ⟨b, hb, hlinked⟩ := hanchor hreadonly
        exact Bool.eq_false_iff.mpr fun htrue => hb (hdeleted.mp htrue b hlinked)
    rw [hflag]
    rfl
  · rw [hgraph]
    exact .remove hnamed.held hnamed.stored hanchor

/-! ## Loops -/

/-- Rows are created one after the other. -/
theorem createRows_exchanges {inputs : List RowInput} (h : w.Sound)
    (hopen : ¬w.graph.tables.Published v) (hstored : ∃ table, w.store.table? v = some table)
    (hnodup : (inputs.map (·.name)).Nodup)
    (hidentifier : ∀ input ∈ inputs, IsIdentifier input.name)
    (hnew : ∀ input ∈ inputs, ¬HasRow (w.graph.rowsIn v) input.name) :
    (((inputs.map (⟨·.name⟩)).zip inputs).mapM fun (name, input) => createRow v name input :
      Edit (List CreatedRow)).Yields w fun created w' => ∃ news : List RowVersion,
        news.map (·.name.text) = inputs.map (·.name) ∧ created = news.map (·.created) ∧
          Exchanges (news.map .create) v v w.graph.rows w'.graph.rows := by
  induction inputs generalizing w with
  | nil => exact yields_mapM_nil.mpr ⟨[], rfl, rfl, .refl⟩
  | cons input rest ih =>
    obtain ⟨hfirst, hnodup⟩ := nodup_map_cons.mp hnodup
    obtain ⟨hinput, hidentifier⟩ := List.forall_mem_cons.mp hidentifier
    rw [List.map_cons, List.zip_cons_cons]
    refine yields_mapM_cons.mpr (((createRow_step h hopen hstored hinput (hnew _ (by simp))).and
      (createRow_exchanges h hstored)).imp ?_)
    rintro _ w₁ ⟨⟨hstep, -⟩, new, hname, rfl, hexchanges⟩
    refine (ih hstep.sound ?_ ?_ hnodup hidentifier fun other hother => ?_).imp ?_
    · rwa [hstep.tables]
    · rw [Workspace.table?_eq, hstep.tables]
      exact hstored
    · rw [hstep.content]
      rintro ⟨row, rfl | hrow, hsame⟩
      · exact hfirst other hother hsame.symm
      · exact hnew other (List.mem_cons_of_mem _ hother) ⟨row, hrow, hsame⟩
    · rintro _ w₂ ⟨news, hnames, rfl, hexchanges'⟩
      refine ⟨new :: news, congrArg₂ List.cons hname hnames, rfl,
        hexchanges.append hexchanges' ?_ ?_⟩
      · simp
      · exact fun _ _ => hexchanges.eq_none_of (by simp [new?])

/-- Rows are given new data one after the other. -/
theorem updateRows_exchanges {inputs : List RowInput} (h : w.Sound)
    (hopen : ¬w.graph.tables.Published table.version) (htable : table.readonly = false)
    (hnodup : (inputs.map (·.name)).Nodup)
    (hhas : ∀ input ∈ inputs, HasRow (w.graph.rowsIn table.version) input.name) :
    (inputs.mapM (updateRow table)).Yields w fun updated w' =>
      ∃ pairs : List (RowVersion × RowVersion),
        pairs.map (·.1.name.text) = inputs.map (·.name) ∧
          updated = pairs.map (fun pair => pair.1.updated pair.2) ∧
            Exchanges (pairs.map fun pair => .replace pair.1 pair.2) table.version table.version
              w.graph.rows w'.graph.rows := by
  induction inputs generalizing w with
  | nil => exact yields_mapM_nil.mpr ⟨[], rfl, rfl, .refl⟩
  | cons input rest ih =>
    obtain ⟨hfirst, hnodup⟩ := nodup_map_cons.mp hnodup
    obtain ⟨row, hnamed⟩ := (Graph.hasRow_iff h.intact.closed).mp (hhas input (by simp))
    refine yields_mapM_cons.mpr (((updateRow_step h hopen htable (hhas _ (by simp))).and
      (updateRow_exchanges h hopen htable hnamed)).imp ?_)
    rintro _ w₁ ⟨⟨hstep, -⟩, new, hname, rfl, hexchanges⟩
    refine (ih hstep.sound ?_ hnodup fun other hother => ?_).imp ?_
    · rwa [hstep.tables]
    · rw [hstep.content]
      exact input.hasRow_update.mpr (hhas other (List.mem_cons_of_mem _ hother))
    · rintro _ w₂ ⟨pairs, hnames, rfl, hexchanges'⟩
      refine ⟨(row, new) :: pairs, congrArg₂ List.cons hnamed.text_eq hnames, rfl,
        hexchanges.append hexchanges' (not_mem_news hnames fun hmem => ?_) ?_⟩
      · obtain ⟨other, hother, hsame⟩ := List.mem_map.mp hmem
        rw [hname, hnamed.text_eq] at hsame
        exact hfirst other hother hsame
      · exact fun _ _ => hexchanges.eq_none_of (by simp [new?])

/-- Rows of different names are let go of one after the other. -/
theorem removeRows_exchanges {names : List String} {rows : List RowVersion} (h : w.Sound)
    (hopen : ¬w.graph.tables.Published v) (hnodup : names.Nodup)
    (hnamed : List.Forall₂ (w.graph.NamesRow v) names rows) :
    (rows.mapM (removeRow v)).Yields w fun removed w' => removed = rows.map (·.removed) ∧
      Exchanges (rows.map .remove) v v w.graph.rows w'.graph.rows := by
  induction names generalizing w rows with
  | nil =>
    cases hnamed
    exact yields_mapM_nil.mpr ⟨rfl, .refl⟩
  | cons name names ih =>
    obtain ⟨hfirst, hnodup⟩ := List.nodup_cons.mp hnodup
    rcases hnamed with _ | ⟨hrow, hrows⟩
    refine yields_mapM_cons.mpr (((removeRow_step h hopen hrow).and
      (removeRow_exchanges h hopen hrow)).imp ?_)
    rintro _ w₁ ⟨⟨hstep, hkept⟩, rfl, hexchanges⟩
    have hnames : ∀ name' ∈ names, name' ≠ name := fun name' hname' heq => hfirst (heq ▸ hname')
    have hrows₁ := ((List.forall₂_and_left _ _).mpr ⟨hnames, hrows⟩).imp
      fun name' row' ⟨hne, hnamed⟩ => hkept hne hnamed
    refine (ih hstep.sound (by rwa [hstep.tables]) hnodup hrows₁).imp ?_
    rintro _ w₂ ⟨rfl, hexchanges'⟩
    exact ⟨rfl, hexchanges.append hexchanges' (by simp [news, new?]) (by simp)⟩

/-- Rows of a batch are got hold of one after the other. -/
theorem draftRows_exchanges {renames : List RowRename} (h : w.Sound)
    (hopen : ¬w.graph.tables.Published table.version) (htable : table.readonly = false)
    (hnodup : (renames.map (·.name)).Nodup)
    (hhas : ∀ rename ∈ renames, HasRow (w.graph.rowsIn table.version) rename.name) :
    (renames.mapM fun rename => draftRow table rename.name).Yields w fun drafts w' =>
      ∃ pairs : List (RowVersion × DraftRow),
        pairs.map (·.1.name.text) = renames.map (·.name) ∧ drafts = pairs.map (·.2) ∧
          (∀ pair ∈ pairs, pair.2.previous = pair.1.version ∧
            ∃ version time, pair.2.row = pair.1.copy version time) ∧
            Exchanges (pairs.map fun pair => .replace pair.1 pair.2.row) table.version
              table.version w.graph.rows w'.graph.rows := by
  induction renames generalizing w with
  | nil => exact yields_mapM_nil.mpr ⟨[], rfl, rfl, by simp, .refl⟩
  | cons rename rest ih =>
    obtain ⟨hfirst, hnodup⟩ := nodup_map_cons.mp hnodup
    obtain ⟨row, hnamed⟩ := (Graph.hasRow_iff h.intact.closed).mp (hhas rename (by simp))
    refine yields_mapM_cons.mpr (((draftRow_step h hopen htable hnamed).and
      (draftRow_exchanges h htable hnamed)).imp ?_)
    rintro target w₁ ⟨⟨hstep, -⟩, hprevious, hcopy, hexchanges⟩
    refine (ih hstep.sound (by rwa [hstep.tables]) hnodup fun other hother => ?_).imp ?_
    · rw [hstep.content]
      exact hhas other (List.mem_cons_of_mem _ hother)
    · rintro _ w₂ ⟨pairs, hnames, rfl, hcopies, hexchanges'⟩
      refine ⟨(row, target) :: pairs, congrArg₂ List.cons hnamed.text_eq hnames, rfl,
        List.forall_mem_cons.mpr ⟨⟨hprevious, hcopy⟩, hcopies⟩,
        hexchanges.append hexchanges' (not_mem_news hnames fun hmem => ?_) ?_⟩
      · obtain ⟨other, hother, hsame⟩ := List.mem_map.mp hmem
        obtain ⟨version, time, hrow⟩ := hcopy
        rw [hrow] at hsame
        exact hfirst other hother (hsame.trans hnamed.text_eq)
      · exact fun _ _ => hexchanges.eq_none_of (by simp [new?])

/-- Rows that were got hold of get their names all at the same time. -/
theorem renameRows_exchanges {renames : List RowRename} {pairs : List (RowVersion × DraftRow)}
    {g : Graph} (h : w.Sound)
    (hnodup : (renames.map (·.name)).Nodup)
    (hnames : pairs.map (·.1.name.text) = renames.map (·.name))
    (hcopies : ∀ pair ∈ pairs, pair.2.previous = pair.1.version ∧
      ∃ version time, pair.2.row = pair.1.copy version time)
    (hdrafts : List.Forall₂ (fun rename draft => w.graph.NamesRow v rename.name draft.row ∧
      draft.row.readonly = false) renames (pairs.map (·.2)))
    (hexchanges :
      Exchanges (pairs.map fun pair => .replace pair.1 pair.2.row) v v g.rows w.graph.rows) :
    (((pairs.map (·.2)).zip (renames.map (⟨·.next⟩))).mapM fun (draft, next) =>
        renameRow draft next : Edit (List RenamedRow)).Yields w fun renamed w' =>
      ∃ rows : List (RowVersion × RowVersion),
        rows.map (fun row => ⟨row.1.name.text, row.2.name.text⟩) = renames ∧
          (∀ row ∈ rows, ∃ version time,
            row.2 = { row.1.copy version time with name := row.2.name }) ∧
            renamed = rows.map (fun row => row.1.renamed row.2) ∧
              Exchanges (rows.map fun row => .replace row.1 row.2) v v g.rows w'.graph.rows := by
  have hclosed := h.intact.closed
  -- A row, what was got hold of in its place, and the request for it, side by side.
  have hlength : pairs.length = renames.length := by simpa using congrArg List.length hnames
  obtain ⟨us, rfl, rfl⟩ : ∃ us : List ((RowVersion × DraftRow) × RowRename),
      us.map (·.1) = pairs ∧ us.map (·.2) = renames :=
    ⟨pairs.zip renames, List.map_fst_zip hlength.le, List.map_snd_zip hlength.ge⟩
  have hitems : List.Forall₂ (fun rename item => (w.graph.NamesRow v rename.name item.1.row ∧
      item.1.row.readonly = false) ∧ item.2 = ⟨rename.next⟩) (us.map (·.2))
      (us.map fun u => (u.1.2, (⟨u.2.next⟩ : RowName))) := by
    simpa using hdrafts
  simp only [List.map_map, List.zip_map', List.forall₂_map_left_iff, List.forall₂_map_right_iff,
    List.forall₂_same, List.forall_mem_map, List.map_inj_left, Function.comp_def]
    at hnodup hnames hcopies hdrafts hexchanges ⊢
  refine (renameRows_yields h.intact ?_).imp ?_
  · intro item hmem
    obtain ⟨u, hu, rfl⟩ := List.mem_map.mp hmem
    exact ⟨_, (hdrafts u hu).1.stored⟩
  rintro _ w' ⟨rfl, records, hrecords, hgraph⟩
  have hrenamed (u) (hu : u ∈ us) :
      Renamed u.1.2.row ⟨u.2.next⟩ (RowVersion.replaceAll records u.1.2.row) := by
    obtain ⟨hnamed, -⟩ := hdrafts u hu
    rcases renamed_cases hclosed h.coherent hitems hrecords hnamed.stored with
      ⟨rename, hrename, hnamed', -, hwritten⟩ | ⟨hnot, -⟩
    · obtain ⟨u', hu', rfl⟩ := List.mem_map.mp hrename
      obtain rfl := List.inj_on_of_nodup_map hnodup hu hu'
        (hnamed.text_eq.symm.trans hnamed'.text_eq)
      exact hwritten
    · exact absurd hnamed (hnot _ (List.mem_map_of_mem hu))
  have hrow (u) (hu : u ∈ us) : ∃ version time time', u.1.2.row = u.1.1.copy version time ∧
      RowVersion.replaceAll records u.1.2.row =
        { u.1.1.copy version time' with name := ⟨u.2.next⟩ } := by
    obtain ⟨-, version, time, hcopy⟩ := hcopies u hu
    obtain ⟨time', heq⟩ := hrenamed u hu
    refine ⟨version, time, time', hcopy, ?_⟩
    rw [← heq, hcopy]
    rfl
  refine ⟨us.map fun u => (u.1.1, RowVersion.replaceAll records u.1.2.row), ?_, ?_, ?_, ?_⟩
  · rw [List.map_map]
    refine List.map_congr_left fun u hu => ?_
    obtain ⟨version, time, time', -, hwritten⟩ := hrow u hu
    rw [Function.comp_apply, hwritten, hnames u hu]
  · intro row hmem
    obtain ⟨u, hu, rfl⟩ := List.mem_map.mp hmem
    obtain ⟨version, time, time', -, hwritten⟩ := hrow u hu
    exact ⟨version, time', by rw [hwritten]⟩
  · rw [List.map_map, List.map_map]
    refine List.map_congr_left fun u hu => ?_
    obtain ⟨version, time, time', hcopy, hwritten⟩ := hrow u hu
    rw [Function.comp_apply, Function.comp_apply, hwritten, (hcopies u hu).1, hcopy]
    rfl
  · have hamended := hexchanges.replaceAll hclosed records fun record hmem => ?_
    · rw [List.map_map] at hamended ⊢
      rw [hgraph]
      exact hamended
    · obtain ⟨item, hitem, time, rfl⟩ := exists_of_forall₂ hrecords.flip hmem
      obtain ⟨u, hu, rfl⟩ := List.mem_map.mp hitem
      refine ⟨u.1.2.row, ?_, rfl, rfl, rfl, rfl⟩
      rw [news_replace]
      exact List.mem_map_of_mem hu

end Edit

end VersionedTables
