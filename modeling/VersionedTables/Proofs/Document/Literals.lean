import Mathlib
import VersionedTables.Document.Literal
import VersionedTables.Document.Printer

/-!
# Literals that are read back

What the printer writes for a number or a text, the scanner of literals reads back, whatever comes
behind. For a text this asks for nothing (`Literal.text?_quoted`). A number ends where its digits do,
so what comes behind must not go on with it (`Literal.Ends`). A whole number is read back when 64 bits
hold it; of a double it has to be known (`Number.ReadsBack`), because reading does not always give the
nearest one.
-/

namespace VersionedTables

namespace Literal

variable {chars rest : List Char}

/-! ## Where numbers end -/

/-- What comes behind a number does not go on with it. -/
def Ends (rest : List Char) : Prop :=
  ∀ c ∈ rest.head?, c.isDigit = false ∧ c ≠ '.' ∧ c ≠ 'e' ∧ c ≠ 'E'

theorem ends_nil : Ends [] := by
  simp [Ends]

theorem ends_cons {c : Char} (h : c.isDigit = false) (hpoint : c ≠ '.') (hsmall : c ≠ 'e')
    (hlarge : c ≠ 'E') (rest : List Char) : Ends (c :: rest) := by
  simp [Ends, h, hpoint, hsmall, hlarge]

theorem digits_append (h : Ends rest) (chars : List Char) : digits (chars ++ rest) = digits chars := by
  induction chars with
  | nil =>
    cases rest with
    | nil => rfl
    | cons c rest => simp [digits, (h c rfl).1]
  | cons c chars ih =>
    simp only [digits, List.cons_append, List.takeWhile_cons] at ih ⊢
    rw [ih]

theorem length_digits_le (chars : List Char) : (digits chars).length ≤ chars.length :=
  (List.takeWhile_prefix _).length_le

/-- Digits that do not start with a zero are taken as they are. -/
theorem wholePart?_cons {c : Char} (h : c ≠ '0') (chars : List Char) :
    wholePart? (c :: chars) =
      if (digits (c :: chars)).isEmpty then none else some (digits (c :: chars)) := by
  rw [wholePart?]
  simpa using h

theorem wholePart?_append (h : Ends rest) {whole : List Char} (hwhole : wholePart? chars = some whole) :
    wholePart? (chars ++ rest) = some whole ∧ whole.length ≤ chars.length := by
  rcases chars with _ | ⟨c, chars⟩
  · cases hwhole
  by_cases hzero : c = '0'
  · subst hzero
    cases hwhole
    exact ⟨rfl, by simp⟩
  · rw [wholePart?_cons hzero] at hwhole
    rw [List.cons_append, wholePart?_cons hzero, ← List.cons_append, digits_append h]
    split at hwhole
    · cases hwhole
    · next hdigits =>
      cases hwhole
      exact ⟨if_neg hdigits, length_digits_le _⟩

/-- Without a point there is no fraction. -/
theorem fraction?_cons {c : Char} (h : c ≠ '.') (chars : List Char) :
    fraction? (c :: chars) = some (none, 0) := by
  rw [fraction?]
  simpa using h

theorem fraction?_append (h : Ends rest) (chars : List Char) :
    fraction? (chars ++ rest) = fraction? chars := by
  rcases chars with _ | ⟨c, chars⟩
  · rcases rest with _ | ⟨c, rest⟩
    · rfl
    · exact fraction?_cons (h c rfl).2.1 rest
  · by_cases hpoint : c = '.'
    · subst hpoint
      simp only [List.cons_append, fraction?, digits_append h]
    · rw [List.cons_append, fraction?_cons hpoint, fraction?_cons hpoint]

theorem fraction?_le {fraction : Option (List Char)} {width : Nat}
    (h : fraction? chars = some (fraction, width)) : width ≤ chars.length := by
  rcases chars with _ | ⟨c, chars⟩
  · cases h
    rfl
  · by_cases hpoint : c = '.'
    · subst hpoint
      simp only [fraction?] at h
      split at h
      · cases h
      · cases h
        have := length_digits_le chars
        simp only [List.length_cons]
        omega
    · rw [fraction?_cons hpoint] at h
      cases h
      exact Nat.zero_le _

theorem exponent?_append (h : Ends rest) {exponent : Option Int × Nat}
    (hexponent : exponent? chars = some exponent) : exponent? (chars ++ rest) = some exponent := by
  rcases chars with _ | ⟨c, chars⟩
  · rcases rest with _ | ⟨c, rest⟩
    · exact hexponent
    · obtain ⟨-, -, hsmall, hlarge⟩ := h c rfl
      rw [List.nil_append, exponent?, if_neg (by simp [hsmall, hlarge])]
      exact hexponent
  · rw [exponent?] at hexponent
    rw [List.cons_append, exponent?]
    split at hexponent
    · next hletter =>
      rw [if_pos hletter]
      rcases chars with _ | ⟨sign, chars⟩
      · -- The letter alone is no exponent.
        cases hexponent
      · have hsign : exponentSign (sign :: chars ++ rest) = exponentSign (sign :: chars) := by
          rw [List.cons_append, exponentSign.eq_def, exponentSign.eq_def]
          split <;> simp_all
        have hwidth : (exponentSign (sign :: chars)).2 ≤ (sign :: chars).length := by
          rw [exponentSign.eq_def]
          split <;> simp
        rw [hsign]
        simp only [List.drop_append_of_le_length hwidth, digits_append h]
        exact hexponent
    · next hletter =>
      rw [if_neg hletter]
      exact hexponent

/-- The parts of a number behind its sign are read all the same with something behind them. -/
theorem parts_append (h : Ends rest) {sign : Nat} (hsign : sign ≤ chars.length)
    {whole : List Char} {fraction : Option (List Char)} {width : Nat} {exponent : Option Int × Nat}
    (hwhole : wholePart? (chars.drop sign) = some whole)
    (hfraction : fraction? (chars.drop (sign + whole.length)) = some (fraction, width))
    (hexponent : exponent? (chars.drop (sign + whole.length + width)) = some exponent) :
    wholePart? ((chars ++ rest).drop sign) = some whole ∧
      fraction? ((chars ++ rest).drop (sign + whole.length)) = some (fraction, width) ∧
      exponent? ((chars ++ rest).drop (sign + whole.length + width)) = some exponent := by
  rw [List.drop_append_of_le_length hsign]
  obtain ⟨hwhole', hlength⟩ := wholePart?_append h hwhole
  -- Each part ends within the text, so what is behind it is behind the text as well.
  have hfraction' := fraction?_le hfraction
  rw [List.length_drop] at hlength hfraction'
  refine ⟨hwhole', ?_, ?_⟩
  · rw [List.drop_append_of_le_length (by omega), fraction?_append h, hfraction]
  · rw [List.drop_append_of_le_length (by omega)]
    exact exponent?_append h hexponent

/-- A number is read all the same with something behind it. -/
theorem number?_append (h : Ends rest) {result : Option Number × Nat}
    (hnumber : number? chars = some result) : number? (chars ++ rest) = some result := by
  rcases chars with _ | ⟨c, chars⟩
  · cases hnumber
  rw [number?, List.cons_append, List.head?_cons] at *
  generalize hnegative : (some c == some '-') = negative at *
  have hsign : (if negative = true then 1 else 0) ≤ (c :: chars).length := by
    rw [List.length_cons]
    split <;> omega
  simp only [Option.bind_eq_bind, Option.bind_eq_some_iff, Option.pure_def, Option.some.injEq,
    Prod.exists] at hnumber ⊢
  obtain ⟨whole, hwhole, fraction, width, hfraction, exponent, width', hexponent, rfl⟩ := hnumber
  obtain ⟨hwhole', hfraction', hexponent'⟩ := parts_append h hsign hwhole hfraction hexponent
  exact ⟨whole, hwhole', fraction, width, hfraction', exponent, width', hexponent', rfl⟩

/-- A number starts with a minus or a digit. -/
theorem number?_head {c : Char} {result : Option Number × Nat}
    (h : number? (c :: chars) = some result) : c = '-' ∨ c.isDigit = true := by
  by_cases hminus : c = '-'
  · exact .inl hminus
  refine .inr ?_
  rw [number?, List.head?_cons, if_neg (by simpa using hminus), List.drop_zero] at h
  obtain ⟨whole, hwhole, -⟩ := Option.bind_eq_some_iff.mp h
  by_cases hzero : c = '0'
  · rw [hzero]
    rfl
  · rw [wholePart?_cons hzero] at hwhole
    by_contra hdigit
    rw [digits, List.takeWhile_cons_of_neg hdigit] at hwhole
    cases hwhole

/-! ## Whole numbers -/

theorem digitsValue_toDigits (n : Nat) : digitsValue (Nat.toDigits 10 n) = n :=
  Nat.ofDigitChars_ten_toDigits

theorem digits_toDigits (n : Nat) : digits (Nat.toDigits 10 n) = Nat.toDigits 10 n :=
  List.takeWhile_eq_self_iff.mpr fun _ hmem => Nat.isDigit_of_mem_toDigits (by decide) (by decide) hmem

/-- No positive number is written with a zero in front. -/
theorem toDigits_head_ne_zero {n : Nat} (h : 0 < n) :
    ∃ c chars, Nat.toDigits 10 n = c :: chars ∧ c ≠ '0' := by
  induction n using Nat.strong_induction_on with
  | _ n ih =>
    by_cases hsmall : n < 10
    · refine ⟨n.digitChar, [], Nat.toDigits_of_lt_base hsmall, ?_⟩
      rw [ne_eq, Nat.digitChar_eq_zero]
      omega
    · obtain ⟨c, chars, hchars, hc⟩ := ih (n / 10) (by omega) (by omega)
      refine ⟨c, chars ++ [(n % 10).digitChar], ?_, hc⟩
      rw [Nat.toDigits_of_base_le (by decide) (by omega), hchars, List.cons_append]

theorem wholePart?_toDigits (n : Nat) :
    wholePart? (Nat.toDigits 10 n) = some (Nat.toDigits 10 n) := by
  rcases Nat.eq_zero_or_pos n with rfl | hpos
  · rfl
  · obtain ⟨c, chars, hchars, hc⟩ := toDigits_head_ne_zero hpos
    have hdigits := digits_toDigits n
    rw [hchars] at hdigits ⊢
    rw [wholePart?_cons hc, hdigits]
    rfl

/-- Digits alone, with or without a minus in front, have neither a fraction nor an exponent. -/
theorem number?_whole (chars : List Char) {whole : List Char} (negative : Bool) (hwhole : wholePart? whole = some whole)
    (hsign : (chars.head? == some '-') = negative)
    (hchars : chars = (if negative then ['-'] else []) ++ whole) :
    number? chars = some (numberValue? negative whole none none, chars.length) := by
  have hdrop : chars.drop (if negative = true then 1 else 0) = whole := by
    rw [hchars]
    cases negative <;> rfl
  have hlength : (if negative = true then 1 else 0) + whole.length = chars.length := by
    rw [hchars]
    cases negative <;> simp [Nat.add_comm]
  simp only [number?, hsign, hdrop, hwhole, hlength, Option.bind_eq_bind, Option.bind_some,
    List.drop_length, fraction?, exponent?, Nat.add_zero, Option.pure_def]

theorem number?_toDigits {n : Nat} (h : Number.isWhole64 n = true) :
    number? (Nat.toDigits 10 n) = some (some (.whole n), (Nat.toDigits 10 n).length) := by
  have hminus : (Nat.toDigits 10 n).head? ≠ some '-' := by
    intro hhead
    have hdigit := Nat.isDigit_of_mem_toDigits (b := 10) (by decide) (by decide)
      (List.mem_of_mem_head? hhead)
    cases hdigit
  rw [number?_whole _ _ (wholePart?_toDigits n) (beq_eq_false_iff_ne.mpr hminus) rfl]
  simp [numberValue?, digitsValue_toDigits, h]

theorem number?_minus {n : Nat} (hpos : 0 < n) (h : Number.isWhole64 (-n) = true) :
    number? ('-' :: Nat.toDigits 10 n) =
      some (some (.whole (-n)), ('-' :: Nat.toDigits 10 n).length) := by
  have hne : ((n : Int) == 0) = false := by
    rw [beq_eq_false_iff_ne]
    omega
  rw [number?_whole ('-' :: Nat.toDigits 10 n) true (wholePart?_toDigits n) rfl rfl]
  simp [numberValue?, digitsValue_toDigits, h, hne]

end Literal

/-- A number is read back from what is written for it. -/
def Number.ReadsBack (n : Number) : Prop :=
  Literal.number? (Document.numberText n).toList =
    some (some n, (Document.numberText n).toList.length)

instance (n : Number) : Decidable n.ReadsBack :=
  inferInstanceAs (Decidable (_ = _))

theorem toList_toString_ofNat (n : Nat) : (toString (Int.ofNat n)).toList = Nat.toDigits 10 n :=
  Nat.toList_repr

theorem toList_toString_negSucc (n : Nat) :
    (toString (Int.negSucc n)).toList = '-' :: Nat.toDigits 10 (n + 1) := by
  change ("-" ++ (n + 1).repr).toList = _
  rw [String.toList_append, Nat.toList_repr]
  rfl

/-- A whole number is read back when 64 bits hold it. -/
theorem Number.readsBack_whole {value : Int} (h : isWhole64 value = true) :
    (whole value).ReadsBack := by
  rw [ReadsBack, Document.numberText]
  cases value with
  | ofNat n =>
    rw [toList_toString_ofNat]
    exact Literal.number?_toDigits h
  | negSucc n =>
    rw [toList_toString_negSucc]
    exact Literal.number?_minus (Nat.succ_pos n) h

/-! ## Texts -/

namespace Literal

open Document

/-- What an escaped character is read as. -/
def piece (c : Char) : Piece :=
  if (escape c).length = 6 then .unit c.toNat else .char c

theorem unit?_hexDigit {n : Nat} (h : n < 32) :
    unit? '0' '0' (hexDigit (n / 16)) (hexDigit n) = some n := by
  revert n
  decide

/-- Six characters stand for a control character only. -/
theorem toNat_lt_of_length_escape {c : Char} (h : (escape c).length = 6) : c.toNat < 32 := by
  unfold escape at h
  split_ifs at h with _ _ _ _ _ _ _ hcontrol <;> first | exact hcontrol | simp at h

theorem pieces?_plain {c : Char} (hquote : c ≠ '"') (hbackslash : c ≠ '\\') (hcontrol : ¬c < ' ')
    (rest : List Char) :
    pieces? (c :: rest) = (pieces? rest).map fun found => (.char c :: found.1, 1 + found.2) := by
  rw [pieces?.eq_def]
  split
  · simp_all
  · simp_all
  · simp_all
  · simp_all [Option.map_eq_bind]
  · simp_all

theorem pieces?_short {letter c : Char} (h : shortEscape? letter = some c) (hunit : letter ≠ 'u')
    (rest : List Char) :
    pieces? ('\\' :: letter :: rest) =
      (pieces? rest).map fun found => (.char c :: found.1, 2 + found.2) := by
  rw [pieces?.eq_def]
  split
  · simp_all
  · simp_all
  · simp_all [Option.map_eq_bind]
  · next hother heq =>
    obtain ⟨rfl, rfl⟩ := List.cons.inj heq
    exact (hother _ _ rfl rfl).elim
  · simp_all

/-- An escaped character is one piece, whatever comes behind. -/
theorem pieces?_escape (c : Char) (rest : List Char) :
    pieces? (escape c ++ rest) =
      (pieces? rest).map fun found => (piece c :: found.1, (escape c).length + found.2) := by
  by_cases hshort : c ∈ ['"', '\\', '\x08', '\x0c', '\n', '\r', '\t']
  · simp only [List.mem_cons, List.not_mem_nil, or_false] at hshort
    rcases hshort with rfl | rfl | rfl | rfl | rfl | rfl | rfl <;>
      exact pieces?_short rfl (by decide) rest
  · simp only [List.mem_cons, List.not_mem_nil, or_false, not_or] at hshort
    obtain ⟨hquote, hbackslash, hb, hf, hn, hr, ht⟩ := hshort
    by_cases hcontrol : c < ' '
    · have hescape : escape c =
          ['\\', 'u', '0', '0', hexDigit (c.toNat / 16), hexDigit c.toNat] := by
        simp [escape, *]
      rw [piece, hescape]
      simp [pieces?, unit?_hexDigit (show c.toNat < 32 from hcontrol), Option.map_eq_bind]
    · have hescape : escape c = [c] := by
        simp [escape, *]
      rw [piece, hescape]
      exact pieces?_plain hquote hbackslash hcontrol rest

theorem pieces?_flatMap_escape (chars rest : List Char) :
    pieces? (chars.flatMap escape ++ '"' :: rest) =
      some (chars.map piece, (chars.flatMap escape).length + 1) := by
  induction chars with
  | nil => rfl
  | cons c chars ih =>
    rw [List.flatMap_cons, List.append_assoc, pieces?_escape, ih, List.length_append]
    simp only [Option.map_some, List.map_cons, Nat.add_assoc]

/-- A unit that is no half of a surrogate pair spells a character, whatever comes behind. -/
theorem spell?_unit {value : Nat} (h : value < 0xD800) (rest : List Piece) :
    spell? (.unit value :: rest) = (spell? rest).map (Char.ofNat value :: ·) := by
  rw [spell?.eq_def]
  rcases rest with _ | ⟨⟨c⟩ | ⟨low⟩, rest⟩
  · exact if_neg (by omega)
  · exact if_neg (by omega)
  · dsimp only
    rw [if_neg (by omega), if_neg (by omega)]

theorem spell?_map_piece (chars : List Char) : spell? (chars.map piece) = some chars := by
  induction chars with
  | nil => rfl
  | cons c chars ih =>
    rw [List.map_cons, piece]
    split
    · next hlong =>
      have hcontrol := toNat_lt_of_length_escape hlong
      rw [spell?_unit (by omega), ih, Option.map_some, Char.ofNat_toNat]
    · rw [spell?, ih, Option.map_some]

/-- A text is read back from its literal. -/
theorem text?_escape (text : String) (rest : List Char) :
    text? (text.toList.flatMap escape ++ '"' :: rest) =
      some (some text, (text.toList.flatMap escape).length + 1) := by
  rw [text?, pieces?_flatMap_escape]
  simp only [Option.bind_eq_bind, Option.bind_some, Option.pure_def, spell?_map_piece,
    Option.map_some, String.ofList_toList]

end Literal

end VersionedTables
