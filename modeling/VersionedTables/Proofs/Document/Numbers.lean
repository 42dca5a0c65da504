import Mathlib
import VersionedTables.Proofs.Binary64.Shortest
import VersionedTables.Proofs.Document.Encoding

/-!
# What canonical forms of numbers tell apart

The canonical form of a number shows one number (`Number.shown`), and two canonical forms are equal just
when they show the same (`Number.canonical_eq_iff_shown`). What is shown is near to the number, so it
tells doubles apart that are different. But it is not always the number itself: of a double that is a
large whole number the shortest digits are shown, filled up with zeros, while a whole number shows all
of its digits. Between the two kinds, the number and the digits part (`Number.canonical_eq_iff_same`).

In a document a number is changed without a trace in the encoding only in this way
(`Document.encode_renumbered`).
-/

namespace VersionedTables

/-! ## Texts of whole numbers -/

theorem toList_toString_int (v : ℤ) :
    (toString v).toList = (if v < 0 then ['-'] else []) ++ Nat.toDigits 10 v.natAbs := by
  cases v with
  | ofNat n => rw [toList_toString_ofNat, if_neg (by simp)]; rfl
  | negSucc n => rw [toList_toString_negSucc, if_pos (Int.negSucc_lt_zero n)]; rfl

theorem toString_int_inj {v w : ℤ} : toString v = toString w ↔ v = w :=
  Int.repr_inj

theorem ne_point_of_mem_toDigits {c : Char} {n : ℕ} (h : c ∈ Nat.toDigits 10 n) : c ≠ '.' := by
  rintro rfl
  exact absurd (Nat.isDigit_of_mem_toDigits (by decide) (by decide) h) (by decide)

theorem point_notMem_toString (v : ℤ) : '.' ∉ (toString v).toList := by
  rw [toList_toString_int, List.mem_append, not_or]
  refine ⟨?_, fun hmem => ne_point_of_mem_toDigits hmem rfl⟩
  split <;> decide

/-- Zeros behind the digits of a number multiply it. -/
theorem toDigits_mul_pow {n : ℕ} (hn : n ≠ 0) (places : ℕ) :
    Nat.toDigits 10 (n * 10 ^ places) = Nat.toDigits 10 n ++ List.replicate places '0' := by
  induction places with
  | zero => simp
  | succ places ih =>
    have hten : n * 10 ^ (places + 1) = n * 10 ^ places * 10 := by ring
    have hpos : 0 < n * 10 ^ places := Nat.mul_pos (Nat.pos_of_ne_zero hn) (by positivity)
    rw [hten, Nat.toDigits_of_base_le (by decide) (by omega), Nat.mul_div_cancel _ (by decide), ih,
      Nat.mul_mod_left, List.replicate_succ', List.append_assoc]
    rfl

/-! ## Texts of decimals -/

namespace Decimal

variable {d d' : Decimal}

/-- A decimal without places behind the point is written like a whole number. -/
theorem positional_of_nonneg (hdigits : d.digits ≠ 0) (h : 0 ≤ d.exponent) :
    d.positional false = Nat.toDigits 10 (d.digits * 10 ^ d.exponent.toNat) := by
  rw [positional, if_pos (by omega), toDigits_mul_pow hdigits]
  simp [chars, zeros]

theorem ne_point_of_mem_chars {c : Char} (h : c ∈ d.chars) : c ≠ '.' :=
  ne_point_of_mem_toDigits h

/-- The parts of a decimal with places behind the point: all the digits, and how many of them are
behind it. -/
theorem exists_parts (h : d.exponent < 0) : ∃ front behind : List Char,
    d.positional false = front ++ '.' :: behind ∧ '.' ∉ front ∧ '.' ∉ behind ∧
      (behind.length : ℤ) = -d.exponent ∧ Nat.ofDigitChars 10 (front ++ behind) 0 = d.digits := by
  have hzeros (count : ℕ) : '.' ∉ zeros count := by simp [zeros]
  have hchars : '.' ∉ d.chars := fun hmem => ne_point_of_mem_chars hmem rfl
  rw [positional, if_neg (by omega)]
  split
  · next hshort =>
    refine ⟨['0'], zeros ((-d.exponent).toNat - d.chars.length) ++ d.chars, rfl, by decide,
      by simp [hzeros, hchars], ?_, ?_⟩
    · rw [List.length_append, zeros, List.length_replicate]
      omega
    · rw [zeros, List.singleton_append, Nat.ofDigitChars_cons, Nat.ofDigitChars_append]
      simp [Nat.ofDigitChars_replicate_zero, chars, Nat.ofDigitChars_ten_toDigits]
  · next hlong =>
    refine ⟨_, _, rfl, fun hmem => hchars (List.mem_of_mem_take hmem),
      fun hmem => hchars (List.mem_of_mem_drop hmem), ?_, ?_⟩
    · rw [List.length_drop]
      omega
    · rw [List.take_append_drop, chars, Nat.ofDigitChars_ten_toDigits]

theorem point_mem_positional (h : d.exponent < 0) : '.' ∈ d.positional false := by
  obtain ⟨front, behind, htext, -⟩ := exists_parts h
  rw [htext]
  simp

/-- Places behind the point tell which decimal was written. -/
theorem positional_inj (h : d.exponent < 0) (h' : d'.exponent < 0) :
    d.positional false = d'.positional false ↔ d = d' := by
  refine ⟨fun heq => ?_, fun heq => by rw [heq]⟩
  obtain ⟨front, behind, htext, hfront, hbehind, hlength, hdigits⟩ := exists_parts h
  obtain ⟨front', behind', htext', -, -, hlength', hdigits'⟩ := exists_parts h'
  rw [htext, htext', List.append_cons_inj_of_notMem hfront hbehind] at heq
  obtain ⟨rfl, -, rfl⟩ := heq
  have hexponent : d.exponent = d'.exponent := by omega
  have hdigits : d.digits = d'.digits := hdigits.symm.trans hdigits'
  cases d
  cases d'
  simp_all

/-- What is written starts with a digit. -/
theorem head?_positional_ne_minus (d : Decimal) : (d.positional false).head? ≠ some '-' := by
  have hchars : '-' ∉ d.chars := fun hmem =>
    absurd (Nat.isDigit_of_mem_toDigits (by decide) (by decide) hmem) (by decide)
  intro hhead
  have hmem := List.mem_of_mem_head? hhead
  rw [positional] at hmem
  split at hmem
  · simp [zeros, hchars] at hmem
  split at hmem
  · simp [zeros, hchars] at hmem
  · simp only [List.mem_append, List.mem_cons] at hmem
    obtain hmem | hmem | hmem := hmem
    · exact hchars (List.mem_of_mem_take hmem)
    · exact absurd hmem (by decide)
    · exact hchars (List.mem_of_mem_drop hmem)

end Decimal

/-! ## Texts of doubles -/

namespace Binary64

variable {x y : Binary64}

theorem toList_text (x : Binary64) : (x.text Number.canonicalStyle).toList =
    (if x.negative then ['-'] else []) ++ (x.shortest .up).positional false := by
  rw [text, String.toList_ofList]
  cases x.negative <;> simp [Number.canonicalStyle]

/-- A double that is a whole number, but not zero, is written like a whole number. -/
theorem exists_text_eq {v : ℤ} (hzero : x.mantissa ≠ 0) (h : x.value = v) :
    ∃ w : ℤ, x.text Number.canonicalStyle = toString w ∧ x.written .up = w := by
  have hexponent := exponent_shortest_nonneg hzero (size_eq_natAbs h) .up
  have hpos := pos_of_contains hzero (contains_shortest hzero .up)
  have htext := x.toList_text
  rw [written, sign]
  generalize x.shortest .up = d at hexponent hpos htext ⊢
  have hdigits : d.digits ≠ 0 := by
    intro hdigits
    rw [Decimal.value, hdigits, Nat.cast_zero, zero_mul] at hpos
    exact lt_irrefl 0 hpos
  have hvalue : d.value = (d.digits * 10 ^ d.exponent.toNat : ℕ) := by
    obtain ⟨e, he⟩ := Int.eq_ofNat_of_zero_le hexponent
    rw [Decimal.value, he, Int.toNat_natCast, zpow_natCast]
    push_cast
    rfl
  rw [Decimal.positional_of_nonneg hdigits hexponent] at htext
  rw [hvalue] at hpos ⊢
  generalize d.digits * 10 ^ d.exponent.toNat = m at hpos htext ⊢
  have hm : 0 < m := Nat.cast_pos.mp hpos
  refine ⟨if x.negative then -m else m, String.toList_inj.mp ?_, ?_⟩
  · rw [htext, toList_toString_int]
    cases x.negative <;> simp [hm]
  · split <;> push_cast <;> ring

/-- What is written of a double that is no whole number is none either. -/
theorem written_ne_int (h : ∀ v : ℤ, x.value ≠ v) (tie : Tie) (v : ℤ) : x.written tie ≠ v := by
  intro hwritten
  obtain ⟨hzero, -⟩ | ⟨hzero, hcontains⟩ := x.nears_written tie
  · exact h 0 (by rw [value_eq_zero.mpr hzero, Int.cast_zero])
  have hpos := pos_of_contains hzero hcontains
  have hnatural : x.sign * x.written tie = v.natAbs := by
    rw [← abs_of_pos hpos, abs_sign_mul, hwritten, Nat.cast_natAbs, Int.cast_abs]
  obtain ⟨m, hm⟩ := exists_size_eq_of_contains (hnatural ▸ hcontains)
  obtain ⟨w, hw⟩ := exists_value_eq hm
  exact h w hw

theorem mantissa_ne_zero (h : ∀ v : ℤ, x.value ≠ v) : x.mantissa ≠ 0 := fun hzero =>
  h 0 (by rw [value_eq_zero.mpr hzero, Int.cast_zero])

theorem exponent_neg (h : ∀ v : ℤ, x.value ≠ v) : (x.shortest .up).exponent < 0 := by
  refine exponent_shortest_neg (mantissa_ne_zero h) (fun m hm => ?_) .up
  obtain ⟨v, hv⟩ := exists_value_eq hm
  exact h v hv

/-- A double that is no whole number is written with a point. -/
theorem point_mem_text (h : ∀ v : ℤ, x.value ≠ v) :
    '.' ∈ (x.text Number.canonicalStyle).toList := by
  rw [toList_text]
  exact List.mem_append_right _ (Decimal.point_mem_positional (exponent_neg h))

/-- The text of a double that is no whole number tells the number that is written. -/
theorem text_eq_iff (hx : ∀ v : ℤ, x.value ≠ v) (hy : ∀ v : ℤ, y.value ≠ v) :
    x.text Number.canonicalStyle = y.text Number.canonicalStyle ↔ x.written .up = y.written .up := by
  constructor
  · intro h
    have hchars := congrArg String.toList h
    rw [toList_text, toList_text] at hchars
    have hfirst := (x.shortest .up).head?_positional_ne_minus
    have hfirst' := (y.shortest .up).head?_positional_ne_minus
    have hsigns : x.negative = y.negative ∧
        (x.shortest .up).positional false = (y.shortest .up).positional false := by
      cases hx : x.negative <;> cases hy : y.negative <;> rw [hx, hy] at hchars
      · exact ⟨rfl, hchars⟩
      · exact absurd (congrArg List.head? hchars) hfirst
      · exact absurd (congrArg List.head? hchars).symm hfirst'
      · exact ⟨rfl, (List.cons.inj hchars).2⟩
    rw [Decimal.positional_inj (exponent_neg hx) (exponent_neg hy)] at hsigns
    rw [written, written, sign, sign, hsigns.1, hsigns.2]
  · intro h
    rw [(x.nears_written .up).eq (h ▸ y.nears_written .up) (mantissa_ne_zero hx)]

end Binary64

/-! ## Numbers -/

namespace Number

variable {a b : Number} {x y : Binary64}

/-- The number itself. -/
def value : Number → ℚ
  | .whole v => v
  | .double x => x.value

/-- The number that the digits stand for which are written for a number: all the digits of a whole
number, and the shortest of a double. -/
def written : Number → ℚ
  | .whole v => v
  | .double x => x.written canonicalStyle.tie

/-- A double that is a whole number, and larger than those that are taken to be exact. -/
def IsLarge : Number → Prop
  | .whole _ => False
  | .double x => ∃ v : ℤ, x.value = v ∧ maxExactWhole < v.natAbs

/-- A number that is written as a whole number in the document. -/
def IsWhole : Number → Prop
  | .whole _ => True
  | .double _ => False

/-- One of two numbers is written as a whole number, and the other one is a large double. -/
def Mixed (a b : Number) : Prop :=
  (a.IsWhole ∧ b.IsLarge) ∨ (a.IsLarge ∧ b.IsWhole)

/-- Two numbers that are equal, or, of a whole number and a large double, that have equal digits. -/
def Same (a b : Number) : Prop :=
  (a.Mixed b ∧ a.written = b.written) ∨ (¬a.Mixed b ∧ a.value = b.value)

/-- The number that the canonical form shows. -/
def shown : Number → ℚ
  | .whole v => v
  | .double x =>
    match x.toInt? with
    | some v => if v.natAbs ≤ maxExactWhole then v else x.written .up
    | none => x.written .up

theorem Same.symm (h : a.Same b) : b.Same a := by
  have hmixed : a.Mixed b ↔ b.Mixed a := by
    rw [Mixed, Mixed]
    tauto
  rw [Same, hmixed] at h
  rw [Same]
  exact h.imp (And.imp_right Eq.symm) (And.imp_right Eq.symm)

/-- A double is a small whole number, a large one, or none at all. Only of a small one all the digits are
written and shown. -/
theorem double_cases (x : Binary64) :
    (∃ v : ℤ, x.value = v ∧ v.natAbs ≤ maxExactWhole ∧
      (double x).canonical = toString v ∧ (double x).shown = v) ∨
    (∃ v : ℤ, x.value = v ∧ maxExactWhole < v.natAbs ∧
      (double x).canonical = x.text canonicalStyle ∧ (double x).shown = x.written .up) ∨
    ((∀ v : ℤ, x.value ≠ v) ∧
      (double x).canonical = x.text canonicalStyle ∧ (double x).shown = x.written .up) := by
  rcases hv : x.toInt? with _ | v
  · refine .inr (.inr ⟨Binary64.toInt?_eq_none.mp hv, ?_, ?_⟩)
    · simp only [canonical, hv]
    · simp only [shown, hv]
  · have hvalue := Binary64.toInt?_eq_some.mp hv
    simp only [canonical, shown, hv]
    by_cases hsmall : v.natAbs ≤ maxExactWhole
    · rw [if_pos hsmall, if_pos hsmall]
      exact .inl ⟨v, hvalue, hsmall, rfl, rfl⟩
    · rw [if_neg hsmall, if_neg hsmall]
      exact .inr (.inl ⟨v, hvalue, not_le.mp hsmall, rfl, rfl⟩)

/-- What is shown of a double is near to it. -/
theorem nears_shown (x : Binary64) : x.Nears (double x).shown := by
  rcases double_cases x with ⟨v, hvalue, -, -, h⟩ | ⟨v, -, -, -, h⟩ | ⟨-, -, h⟩ <;> rw [h]
  · rw [← hvalue]
    exact x.nears_value
  · exact x.nears_written .up
  · exact x.nears_written .up

/-- A canonical form shows a whole number, and is written as one; or it is the text of a double that is
no whole number. -/
theorem canonical_cases (a : Number) :
    (∃ v : ℤ, a.canonical = toString v ∧ a.shown = v) ∨
      ∃ x : Binary64, (∀ v : ℤ, x.value ≠ v) ∧ a.canonical = x.text canonicalStyle ∧
        a.shown = x.written .up := by
  cases a with
  | whole v => exact .inl ⟨v, rfl, rfl⟩
  | double x =>
    rcases double_cases x with ⟨v, -, -, h⟩ | ⟨v, hvalue, hlarge, htext, hshown⟩ | h
    · exact .inl ⟨v, h⟩
    · have hzero : x.mantissa ≠ 0 := by
        intro hzero
        rw [Binary64.value_eq_zero.mpr hzero] at hvalue
        obtain rfl : v = 0 := by exact_mod_cast hvalue.symm
        exact absurd hlarge (Nat.not_lt_zero _)
      obtain ⟨w, hw, hwritten⟩ := Binary64.exists_text_eq hzero hvalue
      exact .inl ⟨w, htext.trans hw, hshown.trans hwritten⟩
    · exact .inr ⟨x, h⟩

/-- Canonical forms are equal just when they show the same number. -/
theorem canonical_eq_iff_shown (a b : Number) : a.canonical = b.canonical ↔ a.shown = b.shown := by
  rcases a.canonical_cases with ⟨v, htext, hshown⟩ | ⟨x, hx, htext, hshown⟩ <;>
    rcases b.canonical_cases with ⟨w, htext', hshown'⟩ | ⟨y, hy, htext', hshown'⟩ <;>
    rw [htext, htext', hshown, hshown']
  · rw [toString_int_inj, Int.cast_inj]
  · refine iff_of_false (fun h => point_notMem_toString v ?_) fun h => ?_
    · exact h ▸ Binary64.point_mem_text hy
    · exact Binary64.written_ne_int hy .up v h.symm
  · refine iff_of_false (fun h => point_notMem_toString w ?_) fun h => ?_
    · exact h ▸ Binary64.point_mem_text hx
    · exact Binary64.written_ne_int hx .up w h
  · exact Binary64.text_eq_iff hx hy

/-- Of two doubles the same is shown just when they are equal. -/
theorem shown_eq_iff_of_double (x y : Binary64) :
    (double x).shown = (double y).shown ↔ x.value = y.value := by
  refine ⟨fun h => (nears_shown x).value_eq (h ▸ nears_shown y), fun h => ?_⟩
  by_cases hzero : x.mantissa = 0
  · have hsmall {z : Binary64} (hz : z.value = (0 : ℤ)) : (double z).shown = 0 := by
      rw [shown, Binary64.toInt?_eq_some.mpr hz]
      simp
    have hvalue : x.value = (0 : ℤ) := by rw [Binary64.value_eq_zero.mpr hzero, Int.cast_zero]
    rw [hsmall hvalue, hsmall (h ▸ hvalue)]
  · rw [Binary64.eq_of_value_eq h hzero]

/-- Of a whole number and a double the same is shown just when they are equal, or, if the double is
large, when the digits are. -/
theorem shown_eq_iff_of_whole (v : ℤ) (x : Binary64) :
    (whole v).shown = (double x).shown ↔ (whole v).Same (double x) := by
  have hmixed : (whole v).Mixed (double x) ↔ (double x).IsLarge := by simp [Mixed, IsWhole, IsLarge]
  rw [Same, hmixed]
  rcases double_cases x with ⟨w, hw, hsmall, -, h⟩ | ⟨w, hw, hlarge, -, h⟩ | ⟨hx, -, h⟩ <;> rw [h]
  · have hlarge : ¬(double x).IsLarge := by
      rintro ⟨w', hw', hlarge⟩
      obtain rfl : w = w' := Int.cast_injective (hw.symm.trans hw')
      exact absurd hlarge hsmall.not_gt
    simp [hlarge, shown, value, hw]
  · have hlarge : (double x).IsLarge := ⟨w, hw, hlarge⟩
    simp [hlarge, shown, written, canonicalStyle]
  · have hlarge : ¬(double x).IsLarge := by
      rintro ⟨w, hw, -⟩
      exact hx w hw
    simp only [hlarge, false_and, not_false_eq_true, true_and, false_or, shown, value]
    exact iff_of_false (Ne.symm (Binary64.written_ne_int hx .up v)) (hx v).symm

/-- Canonical forms are equal just when the numbers are the same, where a whole number and a large double
are the same if their digits are. -/
theorem canonical_eq_iff_same (a b : Number) : a.canonical = b.canonical ↔ a.Same b := by
  rw [canonical_eq_iff_shown]
  rcases a with v | x <;> rcases b with w | y
  · simp [Same, Mixed, IsLarge, shown, value]
  · exact shown_eq_iff_of_whole v y
  · rw [eq_comm, shown_eq_iff_of_whole w x]
    exact ⟨Same.symm, Same.symm⟩
  · rw [shown_eq_iff_of_double]
    simp [Same, Mixed, IsWhole, value]

end Number

/-! ## Numbers of documents -/

/-- Two ways in which lists correspond item by item are one way. -/
theorem forall₂_of_both {α β : Type} {R S T : α → β → Prop} {items : List α} {items' : List β}
    (hR : List.Forall₂ R items items') (hS : List.Forall₂ S items items')
    (h : ∀ a ∈ items, ∀ b ∈ items', R a b → S a b → T a b) : List.Forall₂ T items items' := by
  induction hR with
  | nil => exact .nil
  | cons hfirst _ ih =>
    obtain ⟨hfirst', hrest'⟩ := List.forall₂_cons.mp hS
    refine .cons (h _ List.mem_cons_self _ List.mem_cons_self hfirst hfirst') (ih hrest' ?_)
    exact fun a ha b hb => h a (List.mem_cons_of_mem _ ha) b (List.mem_cons_of_mem _ hb)

/-- Entries that are put in another order are in the same order, if their keys are. -/
theorem eq_of_perm_of_keys {α β : Type} {entries entries' : List (α × β)}
    (hperm : entries.Perm entries') (hkeys : entries.map (·.1) = entries'.map (·.1))
    (hnodup : (entries'.map (·.1)).Nodup) : entries = entries' := by
  refine List.ext_getElem hperm.length_eq fun i h h' => ?_
  have hkey : entries[i].1 = entries'[i].1 := by
    have hkey := congrArg (·[i]?) hkeys
    simpa [List.getElem?_eq_getElem h, List.getElem?_eq_getElem h'] using hkey
  exact List.inj_on_of_nodup_map hnodup (hperm.mem_iff.mp (List.getElem_mem h))
    (List.getElem_mem h') hkey

namespace Document

mutual

/-- Documents that differ in nothing but numbers, which are related. -/
inductive Renumbered (R : Number → Number → Prop) : Document → Document → Prop
  | null : Renumbered R .null .null
  | bool (value : Bool) : Renumbered R (.bool value) (.bool value)
  | number {value value' : Number} (h : R value value') :
    Renumbered R (.number value) (.number value')
  | string (value : String) : Renumbered R (.string value) (.string value)
  | array {items items' : List Document} (h : List.Forall₂ (Renumbered R) items items') :
    Renumbered R (.array items) (.array items')
  | object {entries entries' : List (String × Document)}
    (h : List.Forall₂ (RenumberedEntry R) entries entries') :
    Renumbered R (.object entries) (.object entries')

/-- Entries with the same key and values that differ in nothing but numbers. -/
inductive RenumberedEntry (R : Number → Number → Prop) :
    String × Document → String × Document → Prop
  | mk {key : String} {value value' : Document} (h : Renumbered R value value') :
    RenumberedEntry R (key, value) (key, value')

end

variable {R : Number → Number → Prop}

/-- Numbers with one canonical form can be exchanged. -/
theorem encode_eq_of_renumbered (document : Document) : ∀ document',
    document.Renumbered Number.Same document' → document.encode = document'.encode := by
  induction document using of_parts with
  | null =>
    rintro _ ⟨⟩
    rfl
  | bool value =>
    rintro _ ⟨⟩
    rfl
  | number value =>
    rintro _ (_ | _ | ⟨h⟩)
    rw [encode, encode, (Number.canonical_eq_iff_same _ _).mpr h]
  | string value =>
    rintro _ ⟨⟩
    rfl
  | array items ih =>
    rintro _ (_ | _ | _ | _ | ⟨h⟩)
    have hmap := map_eq_of_forall₂ h ih
    rw [encode, encode, encodeItems_eq_map, encodeItems_eq_map, hmap]
  | object entries ih =>
    rintro _ (_ | _ | _ | _ | _ | ⟨h⟩)
    have hmap := map_eq_of_forall₂ (f := fun entry => (entry.1, entry.2.encode)) h (by
      rintro _ hentry _ ⟨hvalue⟩
      exact congrArg (Prod.mk _) (ih _ hentry _ hvalue))
    rw [encode, encode, encodeEntries_eq_map, encodeEntries_eq_map, hmap]

/-- Documents that differ in nothing but numbers and are alike have the same numbers. -/
theorem renumbered_of_alike (document : Document) : ∀ document', document'.Proper →
    document.Renumbered R document' → document.Alike document' →
      document.Renumbered Number.Same document' := by
  induction document using of_parts with
  | null =>
    rintro _ - - ⟨⟩
    exact .null
  | bool value =>
    rintro _ - - ⟨⟩
    exact .bool value
  | number value =>
    rintro _ - - (_ | _ | ⟨h⟩)
    exact .number ((Number.canonical_eq_iff_same _ _).mp h)
  | string value =>
    rintro _ - - ⟨⟩
    exact .string value
  | array items ih =>
    rintro _ hproper (_ | _ | _ | _ | ⟨h⟩) (_ | _ | _ | _ | ⟨halike⟩)
    rcases hproper with _ | _ | _ | _ | ⟨-, hitems⟩
    exact .array (forall₂_of_both h halike fun item hitem item' hitem' =>
      ih item hitem item' (hitems item' hitem'))
  | object entries ih =>
    rintro _ hproper (_ | _ | _ | _ | _ | ⟨h⟩) (_ | _ | _ | _ | _ | ⟨halike, hperm⟩)
    rcases hproper with _ | _ | _ | _ | _ | ⟨-, -, hnodup, hvalues⟩
    -- The keys are in one order, so that nothing can have been exchanged.
    have hkeys := map_eq_of_forall₂ (f := fun entry => entry.1) h (by rintro _ - _ ⟨_⟩; rfl)
    have hkeys' := map_eq_of_forall₂ (f := fun entry => entry.1) halike (by rintro _ - _ ⟨_⟩; rfl)
    obtain rfl := eq_of_perm_of_keys hperm (hkeys'.symm.trans hkeys) hnodup
    refine .object (forall₂_of_both h halike ?_)
    rintro _ hentry _ hentry' ⟨hvalue⟩ ⟨hvalue'⟩
    exact .mk (ih _ hentry _ (hvalues _ hentry') hvalue hvalue')

/-- Two numbers have one canonical form just when they are equal, or, if one is written as a whole number
and the other one is a large double, when their digits are. Two documents that differ in nothing but
numbers have one encoding, and then one fingerprint, just when their numbers are the same in this way.
The digits of a double are those of the shortest decimal that is near to it. -/
theorem encode_tells_numbers :
    (∀ a b : Number, a.canonical = b.canonical ↔ a.Same b) ∧
      (∀ x : Binary64, x.mantissa ≠ 0 → x.IsShortest (x.shortest Number.canonicalStyle.tie)) ∧
      ∀ document document' : Document, document.Proper → document'.Proper →
        document.Renumbered (fun _ _ => True) document' →
          (document.encode = document'.encode ↔ document.Renumbered Number.Same document') ∧
          (document.Renumbered Number.Same document' →
            document.fingerprint = document'.fingerprint) := by
  refine ⟨Number.canonical_eq_iff_same, fun x hzero => Binary64.isShortest_shortest hzero _,
    fun document document' hproper hproper' hother => ⟨⟨?_, ?_⟩, ?_⟩⟩
  · intro h
    have halike := (alike_of_encode_append document document' [] [] hproper hproper' (by rw [h])).1
    exact renumbered_of_alike document document' hproper' hother halike
  · exact encode_eq_of_renumbered document document'
  · intro h
    rw [fingerprint, fingerprint, encode_eq_of_renumbered document document' h]

end Document

/-- A large whole number as a double. Its sixteen shortest digits end in 199, and not in 1992. -/
def Binary64.large : Binary64 :=
  ⟨false, 0x10000000000002, 2, by decide, by decide, by decide, .inl (by decide)⟩

namespace Document

/-- Two whole numbers. -/
def wholes : Document :=
  .array [.ofInt 3, .ofInt 18014398509481990]

/-- Two doubles. The second one is not equal to the second whole number, but has its digits. -/
def doubles : Document :=
  .array [.number (.double Binary64.three), .number (.double Binary64.large)]

/-- The doubles have the encoding and the fingerprint of the whole numbers. Of the second one sixteen digits
are written. -/
theorem encode_tells_numbers_doubles :
    Binary64.large.IsShortest ⟨1801439850948199, 1⟩ ∧ wholes.Proper ∧ doubles.Proper ∧ wholes.encode = doubles.encode ∧
      wholes.Renumbered Number.Same doubles ∧ wholes.fingerprint = doubles.fingerprint := by
  have hboth {P : Document → Prop} {a b : Document} (ha : P a) (hb : P b) : ∀ x ∈ [a, b], P x :=
    List.forall_mem_cons.mpr ⟨ha, List.forall_mem_singleton.mpr hb⟩
  have hdouble (x : Binary64) : (number (.double x)).Proper := .number fun _ hn => nomatch hn
  have hproper : wholes.Proper :=
    .array (by decide) (hboth (proper_ofInt (by decide)) (proper_ofInt (by decide)))
  have hproper' : doubles.Proper := .array (by decide) (hboth (hdouble _) (hdouble _))
  have hother : wholes.Renumbered (fun _ _ => True) doubles :=
    .array (.cons (.number trivial) (.cons (.number trivial) .nil))
  obtain ⟨hencode, hfingerprint⟩ := encode_tells_numbers.2.2 wholes doubles hproper hproper' hother
  have hsame : wholes.encode = doubles.encode := by decide +kernel
  have hshortest := encode_tells_numbers.2.1 Binary64.large (by decide)
  rw [show Binary64.large.shortest _ = ⟨1801439850948199, 1⟩ by decide +kernel] at hshortest
  exact ⟨hshortest, hproper, hproper', hsame, hencode.mp hsame, hfingerprint (hencode.mp hsame)⟩

end Document

namespace Number

/-- A whole number and a double that are equal have different canonical forms, and ones that are not have
the same. -/
theorem canonical_large :
    (whole 18014398509481992).value = (double Binary64.large).value ∧
      (whole 18014398509481992).canonical ≠ (double Binary64.large).canonical ∧
      (whole 18014398509481990).value ≠ (double Binary64.large).value ∧
      (whole 18014398509481990).canonical = (double Binary64.large).canonical := by
  have hvalue : (double Binary64.large).value = 18014398509481992 := by
    norm_num [value, Binary64.value, Binary64.sign, Binary64.size, Binary64.large]
  rw [hvalue]
  refine ⟨by norm_num [value], by decide +kernel, by norm_num [value], by decide +kernel⟩

end Number

end VersionedTables
