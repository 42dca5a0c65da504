import VersionedTables.Instant.Text
import VersionedTables.Proofs.Instant.Calendar

/-!
# Instants that are read back

An instant is read back from its text (`Instant.parse?_text`), by the lenient reader of stored files, if
its year is in the range of the calendar and its nanoseconds do not go beyond a leap second
(`Instant.Valid`). Nothing else is ever read (`Instant.valid_of_parse?`).
-/

namespace VersionedTables

namespace Instant

/-- An instant that can be written as a date and a time. -/
structure Valid (t : Instant) : Prop where
  /-- Its year is one that dates are kept for. -/
  year : Date.inRange (Date.ofDayNumber (t.seconds.fdiv 86400)).year = true
  /-- It does not go beyond a leap second. -/
  nanos : t.nanos < 2000000000
  /-- A leap second comes at the end of a minute. -/
  leap : 1000000000 ≤ t.nanos → t.seconds % 60 = 59

instance (t : Instant) : Decidable t.Valid :=
  decidable_of_iff (Date.inRange (Date.ofDayNumber (t.seconds.fdiv 86400)).year = true ∧
      t.nanos < 2000000000 ∧ (1000000000 ≤ t.nanos → t.seconds % 60 = 59))
    ⟨fun ⟨h₁, h₂, h₃⟩ => ⟨h₁, h₂, h₃⟩, fun ⟨h₁, h₂, h₃⟩ => ⟨h₁, h₂, h₃⟩⟩

/-! ## Numbers of a fixed width -/

/-- The characters of a number with zeros in front. -/
def paddedDigits (width n : Nat) : List Char :=
  List.replicate (width - (Nat.toDigits 10 n).length) '0' ++ Nat.toDigits 10 n

theorem toList_padded (width n : Nat) : (padded width n).toList = paddedDigits width n :=
  String.toList_ofList

theorem isDigit_of_mem_paddedDigits {width n : Nat} {c : Char} (h : c ∈ paddedDigits width n) :
    c.isDigit = true := by
  rcases List.mem_append.mp h with hzero | hdigit
  · rw [List.eq_of_mem_replicate hzero]
    rfl
  · exact Nat.isDigit_of_mem_toDigits (by decide) (by decide) hdigit

/-- The number that digits spell. -/
theorem foldl_paddedDigits (width n : Nat) :
    (paddedDigits width n).foldl (fun n c => 10 * n + (c.toNat - '0'.toNat)) 0 = n := by
  change Nat.ofDigitChars 10 (paddedDigits width n) 0 = n
  rw [paddedDigits, Nat.ofDigitChars_append, Nat.ofDigitChars_replicate_zero, Nat.mul_zero,
    Nat.ofDigitChars_ten_toDigits]

/-- Digits end where something else begins. -/
theorem takeWhile_paddedDigits {width n : Nat} {c : Char} (h : c.isDigit = false)
    {rest : List Char} :
    (paddedDigits width n ++ c :: rest).takeWhile Char.isDigit = paddedDigits width n := by
  rw [List.takeWhile_append_of_pos fun _ hmem => isDigit_of_mem_paddedDigits hmem,
    List.takeWhile_cons_of_neg (by simp [h]), List.append_nil]

theorem length_paddedDigits {width n : Nat} (hwidth : 0 < width) (h : n < 10 ^ width) :
    (paddedDigits width n).length = width := by
  have hlength := (Nat.length_toDigits_le_iff (b := 10) (by decide) hwidth).mpr h
  rw [paddedDigits, List.length_append, List.length_replicate]
  omega

theorem paddedDigits_ne_nil (width n : Nat) : paddedDigits width n ≠ [] := by
  simp [paddedDigits, Nat.toDigits_ne_nil]

/-! ## Reading parts -/

namespace Scan

variable {α β : Type}

/-- A reader takes a value from the start of a text and leaves the rest. -/
def Takes (scan : Scan α) (chars : List Char) (value : α) (rest : List Char) : Prop :=
  scan.run chars = some (value, rest)

theorem Takes.bind {scan : Scan α} {next : α → Scan β} {chars mid rest : List Char} {a : α} {b : β}
    (h : scan.Takes chars a mid) (hnext : (next a).Takes mid b rest) :
    (scan >>= next).Takes chars b rest := by
  rw [Takes, StateT.run_bind, h]
  exact hnext

theorem takes_pure (value : α) (chars : List Char) : (pure value : Scan α).Takes chars value chars :=
  rfl

theorem takes_get (chars : List Char) : (get : Scan (List Char)).Takes chars chars chars :=
  rfl

theorem takes_modify (f : List Char → List Char) (chars : List Char) :
    (modify f : Scan Unit).Takes chars () (f chars) :=
  rfl

/-- A check that is passed. -/
theorem Takes.check {c : Prop} [Decidable c] {fault scan : Scan α} {chars rest : List Char} {a : α}
    (hc : ¬c) (h : scan.Takes chars a rest) : (if c then fault else scan).Takes chars a rest := by
  rwa [if_neg hc]

/-! ### Separators -/

/-- What does not start with a blank is left as it is. -/
theorem takes_blanks {c : Char} (h : isBlank c = false) (rest : List Char) :
    (blanks .lenient).Takes (c :: rest) () (c :: rest) := by
  change some ((), (c :: rest).dropWhile isBlank) = _
  rw [List.dropWhile_cons_of_neg (by simp [h])]

theorem takes_oneOf {allowed : List Char} {c : Char} (h : allowed.contains c = true)
    (rest : List Char) : (oneOf allowed).Takes (c :: rest) c rest := by
  change (if allowed.contains c = true then _ else _ : Scan Char).run _ = _
  rw [if_pos h]
  rfl

theorem takes_separator {c : Char} (h : isBlank c = false) (rest : List Char) :
    (separator .lenient c).Takes (c :: rest) () rest :=
  (takes_blanks h rest).bind ((takes_oneOf (by simp) rest).bind (takes_pure _ _))

/-! ### Numbers -/

theorem isBlank_of_isDigit {c : Char} (h : c.isDigit = true) : isBlank c = false := by
  obtain ⟨hge, hle⟩ := Char.isDigit_iff_toNat.mp h
  change 48 ≤ c.toNat at hge
  change c.toNat ≤ 57 at hle
  simp only [isBlank, Bool.or_eq_false_iff, Bool.and_eq_false_iff, decide_eq_false_iff_not,
    beq_eq_false_iff_ne]
  omega

/-- A number of which it is known which digits belong to it. -/
theorem takes_number (least most : Nat) {digits : List Char} (rest : List Char) (hne : digits ≠ [])
    (hleast : least ≤ digits.length)
    (hdigits : ((digits ++ rest).take most).takeWhile Char.isDigit = digits) :
    (number least most).Takes (digits ++ rest)
      (digits.foldl (fun n c => 10 * n + (c.toNat - '0'.toNat)) 0) rest := by
  refine (takes_get _).bind ?_
  simp only [hdigits]
  refine .check ?_ ((takes_modify _ _).bind ?_)
  · simp only [Bool.or_eq_true, decide_eq_true_eq, List.isEmpty_iff, hne, or_false, not_lt]
    exact hleast
  · rw [List.drop_left]
    exact takes_pure _ _

/-- A number that takes up all characters that may belong to it. -/
theorem takes_padded {least width n : Nat} (hwidth : 0 < width) (hleast : least ≤ width)
    (h : n < 10 ^ width) (rest : List Char) :
    (number least width).Takes (paddedDigits width n ++ rest) n rest := by
  have hlength := length_paddedDigits hwidth h
  have hnumber := takes_number least width rest (paddedDigits_ne_nil width n) (by omega) (by
      rw [List.take_append_of_le_length (by omega), List.take_of_length_le (by omega)]
      exact List.takeWhile_eq_self_iff.mpr fun _ hmem => isDigit_of_mem_paddedDigits hmem)
  rwa [foldl_paddedDigits] at hnumber

/-- A number starts with a digit. -/
theorem paddedDigits_eq_cons (width n : Nat) :
    ∃ c digits, paddedDigits width n = c :: digits ∧ c.isDigit = true := by
  obtain ⟨c, digits, heq⟩ := List.exists_cons_of_ne_nil (paddedDigits_ne_nil width n)
  have hmem : c ∈ paddedDigits width n := heq ▸ List.mem_cons_self
  exact ⟨c, digits, heq, isDigit_of_mem_paddedDigits hmem⟩

theorem takes_field {n : Nat} (h : n < 100) (rest : List Char) :
    (field .lenient 2).Takes (paddedDigits 2 n ++ rest) n rest := by
  obtain ⟨c, digits, heq, hdigit⟩ := paddedDigits_eq_cons 2 n
  have hblanks := takes_blanks (isBlank_of_isDigit hdigit) (digits ++ rest)
  rw [← List.cons_append, ← heq] at hblanks
  exact hblanks.bind (takes_padded (by decide) (by decide) (by omega) rest)

/-! ### Years, fractions and offsets -/

theorem takes_sign {c : Char} (h : c = '+' ∨ c = '-') (rest : List Char) :
    (optional? ['+', '-']).Takes (c :: rest) (some c) rest := by
  rcases h with rfl | rfl <;> rfl

theorem takes_noSign {c : Char} (h : c.isDigit = true) (rest : List Char) :
    (optional? ['+', '-']).Takes (c :: rest) none (c :: rest) := by
  have hplus : c ≠ '+' := by
    rintro rfl
    cases h
  have hminus : c ≠ '-' := by
    rintro rfl
    cases h
  change (if ['+', '-'].contains c = true then _ else _ : Scan (Option Char)).run _ = _
  rw [if_neg (by simp [hplus, hminus])]
  rfl

theorem takes_year (y : Int) (rest : List Char) :
    (year .lenient).Takes ((yearText y).toList ++ '-' :: rest) y ('-' :: rest) := by
  rw [yearText]
  split
  · next hshort =>
    -- Four digits without a sign.
    simp only [Bool.and_eq_true, decide_eq_true_eq] at hshort
    rw [toList_padded]
    obtain ⟨c, digits, heq, hdigit⟩ := paddedDigits_eq_cons 4 y.toNat
    have hblanks := takes_blanks (isBlank_of_isDigit hdigit) (digits ++ '-' :: rest)
    have hsign := takes_noSign hdigit (digits ++ '-' :: rest)
    rw [← List.cons_append, ← heq] at hblanks hsign
    refine hblanks.bind (hsign.bind ?_)
    have hcast : ((y.toNat : Nat) : Int) = y := by omega
    rw [← hcast]
    exact (takes_padded (by decide) (by decide) (by omega) _).bind (takes_pure _ _)
  · -- A sign, and digits up to the next separator.
    obtain ⟨sign, hsign, hvalue⟩ : ∃ sign, (if y < 0 then "-" else "+" : String).toList = [sign] ∧
        (sign = '+' ∧ 0 ≤ y ∨ sign = '-' ∧ y < 0) := by
      split
      · exact ⟨'-', rfl, .inr ⟨rfl, by assumption⟩⟩
      · exact ⟨'+', rfl, .inl ⟨rfl, by omega⟩⟩
    have hchar : sign = '+' ∨ sign = '-' := hvalue.imp And.left And.left
    have hblank : isBlank sign = false := by rcases hchar with rfl | rfl <;> rfl
    rw [String.toList_append, hsign, toList_padded, List.append_assoc, List.singleton_append]
    refine (takes_blanks hblank _).bind ((takes_sign hchar _).bind ((takes_get _).bind ?_))
    have hnumber := takes_number 1 _ ('-' :: rest)
      (paddedDigits_ne_nil 4 y.natAbs) (List.length_pos_iff.mpr (paddedDigits_ne_nil _ _)) (by
        rw [List.take_length]
        exact takeWhile_paddedDigits (by decide))
    rw [foldl_paddedDigits] at hnumber
    refine hnumber.bind ?_
    rcases hvalue with ⟨rfl, hpos⟩ | ⟨rfl, hneg⟩
    · rw [if_neg (by decide), Int.natAbs_of_nonneg hpos]
      exact takes_pure _ _
    · rw [if_pos (by decide), show -((y.natAbs : Nat) : Int) = y by omega]
      exact takes_pure _ _

/-- The digits of a fraction up to the end of the time. -/
theorem takes_fractionDigits {width n : Nat} (hwidth : 0 < width) (hle : width ≤ 9)
    (h : n < 10 ^ width) (rest : List Char) :
    fraction.Takes ('.' :: (paddedDigits width n ++ 'Z' :: rest)) (n * 10 ^ (9 - width))
      ('Z' :: rest) := by
  have hlength := length_paddedDigits hwidth h
  have hvalue : fractionNanos (paddedDigits width n) = n * 10 ^ (9 - width) := by
    rw [fractionNanos, List.take_of_length_le (by omega), foldl_paddedDigits, hlength]
    rfl
  refine (takes_get _).bind ?_
  simp only [takeWhile_paddedDigits (show 'Z'.isDigit = false by decide)]
  refine .check (by simp [paddedDigits_ne_nil]) ?_
  rw [List.drop_left, hvalue]
  exact takes_pure _ _

theorem takes_fraction {nanos : Nat} (h : nanos < 1000000000) (rest : List Char) :
    fraction.Takes ((fractionText nanos).toList ++ 'Z' :: rest) nanos ('Z' :: rest) := by
  have hdigits (width n : Nat) (hwidth : 0 < width) (hle : width ≤ 9) (hn : n < 10 ^ width)
      (hnanos : n * 10 ^ (9 - width) = nanos) :
      fraction.Takes (("." ++ padded width n).toList ++ 'Z' :: rest) nanos ('Z' :: rest) := by
    rw [String.toList_append, toList_padded, ← hnanos]
    exact takes_fractionDigits hwidth hle hn rest
  rw [fractionText]
  split
  · next hzero =>
    rw [beq_iff_eq.mp hzero]
    rfl
  · split
    · next hmillis =>
      rw [beq_iff_eq] at hmillis
      exact hdigits 3 _ (by decide) (by decide) (by omega) (by omega)
    · split
      · next hmicros =>
        rw [beq_iff_eq] at hmicros
        exact hdigits 6 _ (by decide) (by decide) (by omega) (by omega)
      · exact hdigits 9 _ (by decide) (by decide) (by omega) (by omega)

theorem takes_offset : (offset .lenient).Takes ['Z'] 0 [] :=
  rfl

end Scan

/-! ## Reading instants -/

/-- The hour, the minute and the second of a time of day, where a leap second is the sixtieth. -/
theorem timeOfDay (second : Int) (leap : Nat) (h : 0 ≤ second) (hlt : second < 86400)
    (hleap : leap ≤ 1) (hlast : leap = 1 → second % 60 = 59) :
    second.toNat / 3600 ≤ 23 ∧ second.toNat / 60 % 60 ≤ 59 ∧ second.toNat % 60 + leap ≤ 60 ∧
      (second.toNat % 60 + leap = 60 ↔ leap = 1) ∧
      ((second.toNat / 3600 : Nat) : Int) * 3600 + ((second.toNat / 60 % 60 : Nat) : Int) * 60 +
        (min (second.toNat % 60 + leap) 59 : Nat) = second := by
  obtain ⟨n, rfl⟩ := Int.eq_ofNat_of_zero_le h
  rw [Int.toNat_natCast]
  have hlast' : leap = 1 → n % 60 = 59 := by omega
  have hparts : n / 3600 * 3600 + n / 60 % 60 * 60 + n % 60 = n := by omega
  have hmin : min (n % 60 + leap) 59 = n % 60 := by omega
  refine ⟨by omega, by omega, by omega, by omega, ?_⟩
  rw [hmin]
  omega

/-- The reader takes a whole text for the instant that was written. -/
theorem takes_text {t : Instant} (h : t.Valid) : (Scan.instant .lenient).Takes t.text.toList t [] := by
  obtain ⟨date, hdate⟩ : ∃ date, date = Date.ofDayNumber (t.seconds.fdiv 86400) := ⟨_, rfl⟩
  obtain ⟨second, hsecond⟩ : ∃ second, second = t.seconds - t.seconds.fdiv 86400 * 86400 := ⟨_, rfl⟩
  obtain ⟨leap, hleap⟩ : ∃ leap, leap = t.nanos / 1000000000 := ⟨_, rfl⟩
  have htext : t.text.toList = (yearText date.year).toList ++ '-' :: (paddedDigits 2 date.month ++
      '-' :: (paddedDigits 2 date.day ++ 'T' :: (paddedDigits 2 (second.toNat / 3600) ++
      ':' :: (paddedDigits 2 (second.toNat / 60 % 60) ++
      ':' :: (paddedDigits 2 (second.toNat % 60 + leap) ++
      ((fractionText (t.nanos % 1000000000)).toList ++ 'Z' :: [])))))) := by
    rw [text, ← hdate, ← hsecond, ← hleap]
    simp only [String.toList_append, toList_padded, List.append_assoc]
    rfl
  -- The date is a day of the calendar, and it has the number of the day.
  obtain ⟨hmonth, hmonth', hday, hday'⟩ := hdate ▸ Date.isDay_ofDayNumber (t.seconds.fdiv 86400)
  have hlength : Date.monthLength date.year date.month ≤ 31 := by
    unfold Date.monthLength
    split_ifs <;> omega
  have hnumber : date.dayNumber = t.seconds.fdiv 86400 := by
    rw [hdate, Date.dayNumber_ofDayNumber]
  have hvalid : date.isValid = true :=
    Date.isValid_iff.mpr ⟨hdate ▸ h.year, hmonth, hmonth', hday, hday'⟩
  rw [Int.fdiv_eq_ediv_of_nonneg _ (by decide)] at hsecond
  have hnanos := h.nanos
  have hleap' := h.leap
  obtain ⟨hhour, hminute, hsecond', hsixty, htime⟩ :=
    timeOfDay second leap (by omega) (by omega) (by omega) (by omega)
  have hseconds : date.dayNumber * 86400 + ((second.toNat / 3600 : Nat) : Int) * 3600 +
      ((second.toNat / 60 % 60 : Nat) : Int) * 60 +
      ((min (second.toNat % 60 + leap) 59 : Nat) : Int) - 0 = t.seconds := by
    rw [hnumber, Int.fdiv_eq_ediv_of_nonneg _ (by decide)]
    omega
  rw [htext]
  open Scan in
  refine (takes_year _ _).bind ((takes_separator (by decide) _).bind
    ((takes_field (by omega) _).bind ((takes_separator (by decide) _).bind
    ((takes_field (by omega) _).bind ((takes_oneOf (by decide) _).bind
    ((takes_field (by omega) _).bind ((takes_separator (by decide) _).bind
    ((takes_field (by omega) _).bind ((takes_separator (by decide) _).bind
    ((takes_field (by omega) _).bind ((takes_fraction (Nat.mod_lt _ (by decide)) _).bind
    (takes_offset.bind (.check ?_ ?_)))))))))))))
  · change ¬(!date.isValid || _ || _ || _ || _) = true
    rw [hvalid]
    simp only [Bool.not_true, Bool.false_or, Bool.or_eq_true, decide_eq_true_eq]
    omega
  · rw [hseconds]
    refine .check (by simp [h.year]) ?_
    have hback : (if second.toNat % 60 + leap = 60 then t.nanos % 1000000000 + 1000000000
        else t.nanos % 1000000000) = t.nanos := by
      split <;> omega
    rw [hback]
    exact Scan.takes_pure t []

theorem parse?_text {t : Instant} (h : t.Valid) : parse? .lenient t.text = some t := by
  have htakes := takes_text h
  rw [Scan.Takes] at htakes
  rw [parse?, htakes]
  rfl

/-! ## What is read -/

/-- A number that digits spell has no more digits than it is spelled with. -/
theorem ofDigitChars_lt {digits : List Char} (h : ∀ c ∈ digits, c.isDigit = true) (n : Nat) :
    Nat.ofDigitChars 10 digits n < (n + 1) * 10 ^ digits.length := by
  induction digits generalizing n with
  | nil => simp
  | cons first rest ih =>
    obtain ⟨hge, hle⟩ := Char.isDigit_iff_toNat.mp (h first List.mem_cons_self)
    change 48 ≤ first.toNat at hge
    change first.toNat ≤ 57 at hle
    rw [Nat.ofDigitChars_cons, List.length_cons, Nat.pow_succ]
    refine (ih (fun c hmem => h c (List.mem_cons_of_mem _ hmem)) _).trans_le ?_
    have hstep : 10 * n + (first.toNat - '0'.toNat) + 1 ≤ (n + 1) * 10 := by
      change 10 * n + (first.toNat - 48) + 1 ≤ _
      omega
    calc _ ≤ (n + 1) * 10 * 10 ^ rest.length := Nat.mul_le_mul_right _ hstep
      _ = (n + 1) * (10 ^ rest.length * 10) := by rw [Nat.mul_assoc, Nat.mul_comm 10]

namespace Scan

variable {α β : Type}

/-- Whatever a reader takes is as asked for. -/
def Gives (scan : Scan α) (P : α → Prop) : Prop :=
  ∀ ⦃chars value rest⦄, scan.Takes chars value rest → P value

theorem gives_any (scan : Scan α) : scan.Gives fun _ => True :=
  fun _ _ _ _ => trivial

theorem gives_pure {value : α} {P : α → Prop} (h : P value) : (pure value : Scan α).Gives P := by
  intro chars value' rest htakes
  cases htakes
  exact h

theorem gives_failure (P : α → Prop) : (failure : Scan α).Gives P := by
  rintro chars value rest ⟨⟩

theorem Gives.bind {scan : Scan α} {next : α → Scan β} {P : α → Prop} {Q : β → Prop}
    (h : scan.Gives P) (hnext : ∀ a, P a → (next a).Gives Q) : (scan >>= next).Gives Q := by
  intro chars value rest htakes
  rw [Takes, StateT.run_bind, Option.bind_eq_bind, Option.bind_eq_some_iff] at htakes
  obtain ⟨⟨a, mid⟩, hfirst, hrest⟩ := htakes
  exact hnext a (h hfirst) hrest

/-- A check that has to be passed. -/
theorem gives_check {c : Prop} [Decidable c] {next : α → Scan β} {scan : Scan β} {P : β → Prop}
    (h : ¬c → scan.Gives P) : (if c then failure >>= next else scan).Gives P := by
  split
  · exact (gives_failure fun _ => False).bind fun _ hfalse => hfalse.elim
  · next hc => exact h hc

theorem fractionNanos_lt {digits : List Char} (h : ∀ c ∈ digits, c.isDigit = true) :
    fractionNanos digits < 1000000000 := by
  have hkept : ∀ c ∈ digits.take 9, c.isDigit = true := fun c hmem => h c (List.mem_of_mem_take hmem)
  have hlength : (digits.take 9).length ≤ 9 := List.length_take_le ..
  calc fractionNanos digits
      < (0 + 1) * 10 ^ (digits.take 9).length * 10 ^ (9 - (digits.take 9).length) :=
        Nat.mul_lt_mul_of_pos_right (ofDigitChars_lt hkept 0) (Nat.pow_pos (by decide))
    _ = 1000000000 := by
        rw [Nat.zero_add, Nat.one_mul, ← Nat.pow_add, Nat.add_sub_cancel' hlength]

theorem gives_fraction : fraction.Gives (· < 1000000000) := by
  refine (gives_any _).bind fun chars _ => ?_
  split
  · refine gives_check fun _ => (gives_any _).bind fun _ _ => gives_pure ?_
    exact fractionNanos_lt fun c hmem => by simpa using List.mem_takeWhile_imp hmem
  · exact gives_pure (by decide)

/-- The distance from universal time is one of whole minutes. -/
theorem gives_offset (style : Strictness) : (offset style).Gives (· % 60 = 0) := by
  refine (gives_any _).bind fun _ _ => (gives_any _).bind fun chars _ => ?_
  split
  · exact (gives_any _).bind fun _ _ => gives_pure rfl
  · refine (gives_any _).bind fun sign _ => ?_
    have hminutes (hours : Nat) : (do
        let minutes ← number 2 2
        if minutes > 59 then failure
        let size : Int := hours * 3600 + minutes * 60
        return if sign == '+' then size else -size : Scan Int).Gives (· % 60 = 0) := by
      refine (gives_any _).bind fun minutes _ => gives_check fun _ => gives_pure ?_
      split <;> omega
    split
    · exact gives_pure rfl
    · exact gives_pure rfl
    · refine (gives_any _).bind fun hours _ => ?_
      cases style with
      | strict => exact (gives_any _).bind fun _ _ => hminutes hours
      | lenient => exact (gives_any _).bind fun _ _ => hminutes hours

/-- A leap second comes at the end of a minute, whatever the distance from universal time. -/
theorem gives_instant (style : Strictness) : (Scan.instant style).Gives Valid := by
  refine (gives_any _).bind fun year _ => (gives_any _).bind fun _ _ => ?_
  refine (gives_any _).bind fun month _ => (gives_any _).bind fun _ _ => ?_
  refine (gives_any _).bind fun day _ => (gives_any _).bind fun _ _ => ?_
  refine (gives_any _).bind fun hour _ => (gives_any _).bind fun _ _ => ?_
  refine (gives_any _).bind fun minute _ => (gives_any _).bind fun _ _ => ?_
  refine (gives_any _).bind fun second _ => gives_fraction.bind fun nanos hnanos => ?_
  refine (gives_offset style).bind fun shift hshift => gives_check fun hchecks => ?_
  refine gives_check fun hyear => gives_pure ?_
  simp only [Bool.or_eq_true, Bool.not_eq_true', decide_eq_true_eq, not_or] at hchecks
  refine ⟨by simpa using hyear, ?_, fun hleap => ?_⟩ <;> dsimp only at *
  · split <;> omega
  · have hsixty : second = 60 := by
      by_contra hne
      rw [if_neg hne] at hleap
      omega
    have hmin : min second 59 = 59 := by omega
    rw [hmin]
    omega

end Scan

/-- Every instant that is read can be written. -/
theorem valid_of_parse? {style : Strictness} {text : String} {t : Instant}
    (h : parse? style text = some t) : t.Valid := by
  rw [parse?, Option.bind_eq_bind, Option.bind_eq_some_iff] at h
  obtain ⟨⟨value, rest⟩, htakes, hrest⟩ := h
  have hvalid := Scan.gives_instant style htakes
  obtain ⟨-, heq⟩ := Option.ite_none_right_eq_some.mp hrest
  rwa [← Option.some.inj heq]

end Instant

end VersionedTables
