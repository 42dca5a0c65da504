import Mathlib
import VersionedTables.Name

/-!
# Identifiers

The texts that can name a table or a row, described by their characters (`IsIdentifier`), and that
the check of names accepts these and no others (`checkIdentifier_isOk`). The check counts bytes and
the description counts characters; it makes no difference, because every character that may stand in
a name is one byte long (`utf8Size_of_isNamePart`).
-/

namespace VersionedTables

/-- One of the letters from `A` to `Z` and from `a` to `z`. -/
def IsLetter (c : Char) : Prop :=
  'A' ≤ c ∧ c ≤ 'Z' ∨ 'a' ≤ c ∧ c ≤ 'z'

/-- One of the digits from `0` to `9`. -/
def IsDigit (c : Char) : Prop :=
  '0' ≤ c ∧ c ≤ '9'

/-- A text is matched by `[A-Za-z_][A-Za-z0-9_-]{0,63}`. -/
def IsIdentifier (text : String) : Prop :=
  ∃ first rest, text.toList = first :: rest ∧ (IsLetter first ∨ first = '_') ∧
    (∀ c ∈ rest, IsLetter c ∨ IsDigit c ∨ c = '_' ∨ c = '-') ∧ rest.length ≤ 63

variable {c : Char} {text : String}

/-! ## Characters -/

theorem isAlpha_iff : c.isAlpha = true ↔ IsLetter c := by
  simp only [Char.isAlpha, Char.isUpper, Char.isLower, Bool.or_eq_true, Bool.and_eq_true,
    decide_eq_true_eq, IsLetter]
  rfl

theorem isDigit_iff : c.isDigit = true ↔ IsDigit c := by
  simp only [Char.isDigit, Bool.and_eq_true, decide_eq_true_eq, IsDigit]
  rfl

theorem isNameStart_iff : isNameStart c = true ↔ IsLetter c ∨ c = '_' := by
  rw [isNameStart, Bool.or_eq_true, isAlpha_iff, beq_iff_eq]

theorem isNamePart_iff :
    isNamePart c = true ↔ IsLetter c ∨ IsDigit c ∨ c = '_' ∨ c = '-' := by
  rw [isNamePart, Bool.or_eq_true, Bool.or_eq_true, Char.isAlphanum, Bool.or_eq_true, isAlpha_iff,
    isDigit_iff, beq_iff_eq, beq_iff_eq, or_assoc, or_assoc]

/-- What can start a name can go on in one. -/
theorem isNamePart_of_isNameStart (h : isNameStart c = true) : isNamePart c = true := by
  rcases isNameStart_iff.mp h with hletter | hunderscore
  · exact isNamePart_iff.mpr (.inl hletter)
  · exact isNamePart_iff.mpr (.inr (.inr (.inl hunderscore)))

/-- Characters of names are one byte long. -/
theorem utf8Size_of_isNamePart (h : isNamePart c = true) : c.utf8Size = 1 := by
  refine Char.utf8Size_eq_one_iff.mpr (UInt32.le_iff_toNat_le.mpr ?_)
  change c.toNat ≤ 127
  rcases isNamePart_iff.mp h with (⟨-, hle⟩ | ⟨-, hle⟩) | ⟨-, hle⟩ | rfl | rfl
  · have hZ : c.toNat ≤ 90 := hle
    omega
  · have hz : c.toNat ≤ 122 := hle
    omega
  · have h9 : c.toNat ≤ 57 := hle
    omega
  · decide
  · decide

/-! ## Texts -/

/-- Characters of names take up as many bytes as there are of them. -/
theorem utf8Len_eq_length {chars : List Char} (h : ∀ c ∈ chars, isNamePart c = true) :
    String.utf8Len chars = chars.length := by
  induction chars with
  | nil => rfl
  | cons first rest ih =>
    obtain ⟨hfirst, hrest⟩ := List.forall_mem_cons.mp h
    rw [String.utf8Len_cons, ih hrest, utf8Size_of_isNamePart hfirst, List.length_cons]

theorem utf8ByteSize_eq_length (h : ∀ c ∈ text.toList, isNamePart c = true) :
    text.utf8ByteSize = text.toList.length :=
  calc text.utf8ByteSize = (String.ofList text.toList).utf8ByteSize := by rw [String.ofList_toList]
    _ = String.utf8Len text.toList := String.utf8ByteSize_ofList _
    _ = text.toList.length := utf8Len_eq_length h

theorem firstForeign_eq_none {chars : List Char} :
    firstForeign chars = none ↔ ∀ c ∈ chars, isNamePart c = true := by
  rw [firstForeign, List.find?_eq_none]
  refine ⟨fun h c hc => ?_, fun h pair hpair => ?_⟩
  · obtain ⟨i, hi, rfl⟩ := List.getElem_of_mem hc
    simpa using h (chars[i], i) (List.mk_mem_zipIdx_iff_getElem?.mpr (List.getElem?_eq_getElem hi))
  · obtain ⟨c, i⟩ := pair
    have hmem := List.mem_of_getElem? (List.mk_mem_zipIdx_iff_getElem?.mp hpair)
    simpa using h c hmem

/-- The check accepts identifiers and nothing else. -/
theorem checkIdentifier_isOk : (checkIdentifier text).isOk = true ↔ IsIdentifier text := by
  rcases htext : text.toList with _ | ⟨first, rest⟩
  · simp [checkIdentifier, IsIdentifier, htext, Except.isOk, Except.toBool]
  have hmatch : IsIdentifier text ↔ isNameStart first = true ∧
      (∀ c ∈ rest, isNamePart c = true) ∧ rest.length ≤ 63 := by
    simp only [IsIdentifier, htext, List.cons.injEq, isNameStart_iff, isNamePart_iff]
    refine ⟨?_, fun h => ⟨first, rest, ⟨rfl, rfl⟩, h⟩⟩
    rintro ⟨_, _, ⟨rfl, rfl⟩, h⟩
    exact h
  have hbytes (hall : ∀ c ∈ first :: rest, isNamePart c = true) :
      text.utf8ByteSize ≤ maxNameBytes ↔ rest.length ≤ 63 := by
    rw [utf8ByteSize_eq_length (by rwa [htext]), htext, List.length_cons, maxNameBytes]
    omega
  rw [hmatch, checkIdentifier, htext]
  simp only
  -- The three checks, in the order in which they are made.
  split
  · next hlong =>
    refine iff_of_false (by simp [Except.isOk, Except.toBool]) ?_
    rintro ⟨hstart, hrest, hlength⟩
    have hall : ∀ c ∈ first :: rest, isNamePart c = true :=
      List.forall_mem_cons.mpr ⟨isNamePart_of_isNameStart hstart, hrest⟩
    exact absurd ((hbytes hall).mpr hlength) (Nat.not_le.mpr hlong)
  next hshort =>
  split
  · next hstart =>
    rw [Bool.not_eq_true'] at hstart
    simp [hstart, Except.isOk, Except.toBool]
  next hstart =>
  rw [Bool.not_eq_true', Bool.not_eq_false] at hstart
  split
  · next c position hforeign =>
    refine iff_of_false (by simp [Except.isOk, Except.toBool]) ?_
    rintro ⟨-, hrest, -⟩
    have hnone := firstForeign_eq_none.mpr
      (List.forall_mem_cons.mpr ⟨isNamePart_of_isNameStart hstart, hrest⟩)
    rw [hnone] at hforeign
    cases hforeign
  · next hnone =>
    have hall := firstForeign_eq_none.mp hnone
    refine iff_of_true rfl ⟨hstart, (List.forall_mem_cons.mp hall).2, ?_⟩
    exact (hbytes hall).mp (Nat.not_lt.mp hshort)

instance : Decidable (IsIdentifier text) :=
  decidable_of_iff _ checkIdentifier_isOk

example : IsIdentifier "user-table_1" := by decide +kernel

example : ¬IsIdentifier "1st" := by decide +kernel

/-! ## Names -/

/-- A text names a table if it is an identifier. -/
theorem TableName.isOk_parse : (TableName.parse text).isOk = true ↔ IsIdentifier text := by
  rw [← checkIdentifier_isOk, TableName.parse]
  rcases checkIdentifier text with fault | _
  · simp [bind, Except.bind, Except.isOk, Except.toBool]
  · simp [bind, Except.bind, Except.isOk, Except.toBool, pure, Except.pure]

/-- A text names a row if it is an identifier. -/
theorem RowName.isOk_parse : (RowName.parse text).isOk = true ↔ IsIdentifier text := by
  rw [← checkIdentifier_isOk, RowName.parse]
  rcases checkIdentifier text with fault | _
  · simp [bind, Except.bind, Except.isOk, Except.toBool]
  · simp [bind, Except.bind, Except.isOk, Except.toBool, pure, Except.pure]

end VersionedTables
