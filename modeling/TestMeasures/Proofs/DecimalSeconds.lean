import Mathlib.Tactic.SplitIfs
import TestMeasures.Proofs.ClockTexts
import TestMeasures.Proofs.ListedTests
import TestMeasures.Proofs.RoundedRatios

/-!
# Seconds to the millisecond

Two report formats give times in decimal seconds, which go through a binary64 number, a product with a thousand
and a cut. `recorded_of_ratio` follows the two roundings and says for which milliseconds the cut takes one too
many off; `DecimalSeconds` are the texts of such times, and `decimal_seconds_recorded` says what is charged for
them, beside what the same time on a clock comes to.
-/

namespace TestMeasures

namespace Binary64

variable {num den millis shift gap : Nat}

/-- The mantissa of thousandths, times a thousand again. -/
theorem round_quotient_thousand {scaled : Nat} (hmultiple : scaled % 8 = 0) :
    roundQuotient scaled 1000 * 1000 =
      if scaled % 1000 < 500 then scaled - scaled % 1000 else scaled + (1000 - scaled % 1000) := by
  unfold roundQuotient
  dsimp only
  split <;> split <;> omega

/-- In steps of half a thousandth and more, the second rounding takes back the first unless that lost more than
half of a step. -/
theorem round_fine_again {whole : Nat} (heven : whole % 2 = 0) :
    roundQuotient (roundQuotient (whole * 2 ^ 9) 1000 * 1000) (2 ^ 9) =
      if 256 < whole * 2 ^ 9 % 1000 ∧ whole * 2 ^ 9 % 1000 < 500 then whole - 1
      else if 500 < whole * 2 ^ 9 % 1000 ∧ whole * 2 ^ 9 % 1000 < 744 then whole + 1
      else whole := by
  rw [round_quotient_thousand (by omega)]
  unfold roundQuotient
  dsimp only
  split_ifs <;> omega

/-- In steps of more than a thousandth, the second rounding takes back the first. -/
theorem round_coarse_again (whole : Nat) :
    roundQuotient (roundQuotient (whole * 2 ^ 10) 1000 * 1000) (2 ^ 10) = whole := by
  rw [round_quotient_thousand (by omega)]
  unfold roundQuotient
  dsimp only
  split <;> split <;> omega

/-- A thousand times a number of thousandths, in the powers of two that bring both to fifty-three bits. -/
theorem thousandths_mul_thousand {mantissa : Nat} (hden : 0 < den) (hvalue : num * 1000 = millis * den)
    (hshift : 0 < shift) (hleast : shift + gap ≤ 1074)
    (hlow : 1000 * 2 ^ 52 ≤ millis * 2 ^ (shift + gap)) (hhigh : millis * 2 ^ (shift + gap) < 1000 * 2 ^ 53)
    (hmantissa : roundQuotient (millis * 2 ^ (shift + gap)) 1000 = mantissa)
    (hlow' : 2 ^ gap * 2 ^ 52 ≤ mantissa * 1000) (hhigh' : mantissa * 1000 < 2 ^ gap * 2 ^ 53) :
    ((ofRatio false num den).mulNat 1000).truncate? =
      some (roundQuotient (mantissa * 1000) (2 ^ gap) / 2 ^ shift) := by
  have hpow : 2 ^ (shift + gap) = 2 ^ gap * 2 ^ shift := by ring
  have hfirst : ofRatio false num den = ofRounded false mantissa (-(shift + gap : Nat)) := by
    rw [of_ratio_eq false hden (by omega) hvalue hlow hhigh hleast, hmantissa]
  have hsecond_low : 2 ^ (shift + gap) * 2 ^ 52 ≤ mantissa * 1000 * 2 ^ shift :=
    calc 2 ^ (shift + gap) * 2 ^ 52
      _ = 2 ^ gap * 2 ^ 52 * 2 ^ shift := by ring
      _ ≤ mantissa * 1000 * 2 ^ shift := Nat.mul_le_mul_right _ hlow'
  have hsecond_high : mantissa * 1000 * 2 ^ shift < 2 ^ (shift + gap) * 2 ^ 53 :=
    calc mantissa * 1000 * 2 ^ shift
      _ < 2 ^ gap * 2 ^ 53 * 2 ^ shift := Nat.mul_lt_mul_of_pos_right hhigh' (Nat.two_pow_pos shift)
      _ = 2 ^ (shift + gap) * 2 ^ 53 := by ring
  rw [hfirst, mul_nat_of_rounded false (by omega) hsecond_low hsecond_high (by omega),
    truncate_of_rounded false _ hshift, hpow, round_quotient_mul _ _ (Nat.two_pow_pos shift)]

/-- A positive number, shifted to fifty-three bits. -/
theorem shifted_bounds (hpos : 0 < millis) (hshift : shift + millis.log2 = 52) :
    2 ^ 52 ≤ millis * 2 ^ shift ∧ millis * 2 ^ shift < 2 ^ 53 := by
  constructor
  · calc 2 ^ 52
      _ = 2 ^ millis.log2 * 2 ^ shift := by rw [← Nat.pow_add, Nat.add_comm, hshift]
      _ ≤ millis * 2 ^ shift := Nat.mul_le_mul_right _ (Nat.log2_self_le hpos.ne')
  · calc millis * 2 ^ shift
      _ < 2 ^ (millis.log2 + 1) * 2 ^ shift := Nat.mul_lt_mul_of_pos_right Nat.lt_log2_self (Nat.two_pow_pos _)
      _ = 2 ^ 53 := by rw [← Nat.pow_add, Nat.add_right_comm, Nat.add_comm millis.log2, hshift]

/-- One too much, in more than one bit behind the point, is cut off. -/
theorem shifted_succ_cut (hshift : 0 < shift) : (millis * 2 ^ shift + 1) / 2 ^ shift = millis := by
  have htwo : 2 ≤ 2 ^ shift := Nat.le_self_pow (by omega) 2
  rw [Nat.mul_comm, Nat.mul_add_div (Nat.two_pow_pos shift), Nat.div_eq_of_lt (by omega), Nat.add_zero]

/-- One too little takes a number down. -/
theorem shifted_pred_cut (hpos : 0 < millis) : (millis * 2 ^ shift - 1) / 2 ^ shift = millis - 1 := by
  obtain ⟨less, rfl⟩ : ∃ less, millis = less + 1 := ⟨millis - 1, by omega⟩
  have hone := Nat.two_pow_pos shift
  rw [Nat.add_mul, Nat.one_mul, Nat.add_sub_assoc hone, Nat.mul_comm, Nat.mul_add_div hone,
    Nat.div_eq_of_lt (by omega), Nat.add_zero, Nat.add_sub_cancel]

end Binary64

/-- Whether milliseconds that are given in seconds are recorded one too low. Their first sixty-two bits tell:
the mantissa of the seconds is a thousandth of these, so a remainder below 500 is cut, and it is lost for good
if it is more than half of `2 ^ 9`, the step in which the product is rounded. Below `1000 * 2 ^ 52` the mantissa
takes one more bit, the step is `2 ^ 10`, and no remainder is more than half of it. -/
def ComesShort (millis : Nat) : Prop :=
  let scaled := millis * 2 ^ (61 - millis.log2)
  1000 * 2 ^ 52 ≤ scaled ∧ 256 < scaled % 1000 ∧ scaled % 1000 < 500

instance (millis : Nat) : Decidable (ComesShort millis) :=
  inferInstanceAs (Decidable (_ ∧ _))

/-- The milliseconds that are recorded for a number of them that is given in seconds. -/
def recordedMillis (millis : Nat) : Nat :=
  if ComesShort millis then millis - 1 else millis

/-- The two roundings and the cut in one. -/
theorem recorded_of_ratio {num den millis : Nat} (hden : 0 < den) (hvalue : num * 1000 = millis * den)
    (hpos : 0 < millis) (hbelow : millis < 10 ^ 12) :
    ((Binary64.ofRatio false num den).mulNat 1000).truncate? = some (recordedMillis millis) := by
  have hlog : millis.log2 < 40 := (Nat.log2_lt hpos.ne').mpr (by omega)
  obtain ⟨shift, hshift⟩ : ∃ shift, shift + millis.log2 = 52 := ⟨52 - millis.log2, by omega⟩
  have hsome : 0 < shift := by omega
  obtain ⟨hlow, hhigh⟩ := Binary64.shifted_bounds hpos hshift
  have hcut : millis * 2 ^ shift / 2 ^ shift = millis := Nat.mul_div_cancel _ (Nat.two_pow_pos shift)
  have hcut_above : (millis * 2 ^ shift + 1) / 2 ^ shift = millis := Binary64.shifted_succ_cut hsome
  have hcut_below : (millis * 2 ^ shift - 1) / 2 ^ shift = millis - 1 := Binary64.shifted_pred_cut hpos
  have heven : millis * 2 ^ shift % 2 = 0 := by
    rw [← Nat.sub_add_cancel hsome, Nat.pow_succ, ← Nat.mul_assoc]
    exact Nat.mul_mod_left _ 2
  have hscaled : ∀ gap, millis * 2 ^ (shift + gap) = millis * 2 ^ shift * 2 ^ gap := by
    intro gap
    rw [Nat.pow_add, Nat.mul_assoc]
  have hnine : 61 - millis.log2 = shift + 9 := by omega
  -- From here on, only the shifted number counts.
  generalize millis * 2 ^ shift = whole at *
  have hshort : ComesShort millis ↔ 1000 * 2 ^ 52 ≤ whole * 2 ^ 9 ∧ 256 < whole * 2 ^ 9 % 1000 ∧
      whole * 2 ^ 9 % 1000 < 500 := by
    unfold ComesShort
    rw [hnine, hscaled]
  unfold recordedMillis
  by_cases hfine : 1000 * 2 ^ 52 ≤ whole * 2 ^ 9
  · have hmantissa := Binary64.round_quotient_thousand (show whole * 2 ^ 9 % 8 = 0 by omega)
    rw [Binary64.thousandths_mul_thousand hden hvalue hsome (show shift + 9 ≤ 1074 by omega)
      (by rw [hscaled]; omega) (by rw [hscaled]; omega) (by rw [hscaled])
      (by rw [hmantissa]; split <;> omega) (by rw [hmantissa]; split <;> omega),
      Binary64.round_fine_again heven]
    by_cases hlost : 256 < whole * 2 ^ 9 % 1000 ∧ whole * 2 ^ 9 % 1000 < 500
    · rw [if_pos hlost, if_pos (hshort.mpr ⟨hfine, hlost⟩), hcut_below]
    · rw [if_neg hlost, if_neg fun h => hlost (hshort.mp h).2]
      split
      · rw [hcut_above]
      · rw [hcut]
  · have hmantissa := Binary64.round_quotient_thousand (show whole * 2 ^ 10 % 8 = 0 by omega)
    rw [Binary64.thousandths_mul_thousand hden hvalue hsome (show shift + 10 ≤ 1074 by omega)
      (by rw [hscaled]; omega) (by rw [hscaled]; omega) (by rw [hscaled])
      (by rw [hmantissa]; split <;> omega) (by rw [hmantissa]; split <;> omega),
      Binary64.round_coarse_again, hcut, if_neg fun h => hfine (hshort.mp h).1]

/-- A decimal number with few digits and few places is rounded as the ratio that it is. -/
theorem Decimal.to_binary64_eq (negative : Bool) {digits places : Nat} (hsome : digits ≠ 0)
    (hdigits : digits < 10 ^ 12) (hplaces : places ≤ 3) :
    Decimal.toBinary64 ⟨negative, digits, -places⟩ = Binary64.ofRatio negative digits (10 ^ places) := by
  have hlength : (decimalDigits digits).length ≤ 12 :=
    (Nat.length_toDigits_le_iff (by omega) (by omega)).mpr hdigits
  unfold toBinary64
  simp only
  rw [if_neg hsome, if_neg (by omega), if_neg (by omega)]
  split
  case isTrue h =>
    obtain rfl : places = 0 := by omega
    simp
  case isFalse => simp

/-- A ratio without a sign is not negative. -/
theorem Binary64.of_ratio_nonnegative (num den : Nat) : (ofRatio false num den).isNegative = false := by
  unfold ofRatio ofRounded
  dsimp only
  split_ifs <;> rfl

/-- Only a finite number has a multiple that can be cut off. -/
theorem Binary64.finite_of_truncate {number : Binary64} {factor cut : Nat}
    (h : (number.mulNat factor).truncate? = some cut) : number.isFinite = true := by
  cases number with
  | finite => rfl
  | infinite => cases h
  | notANumber => cases h

/-- Behind a digit, no word stands for a number. -/
theorem named_number_of_digit (negative : Bool) {first : Char} (h : isDigit first = true) (rest : List Char) :
    namedNumber? negative (first :: rest) = none := by
  have hword : ∀ (letter : Char) (word : List Char), isDigit letter = false →
      String.ofList ((first :: rest).map Char.toLower) ≠ String.ofList (letter :: word) := by
    intro letter word hletter heq
    have hfirst := (List.cons.inj (String.ofList_injective heq)).1
    rw [to_lower_of_digit h] at hfirst
    exact is_digit_ne h hletter hfirst
  have hinf : String.ofList ((first :: rest).map Char.toLower) ≠ "inf" := hword 'i' "nf".toList rfl
  have hinfinity : String.ofList ((first :: rest).map Char.toLower) ≠ "infinity" :=
    hword 'i' "nfinity".toList rfl
  have hnan : String.ofList ((first :: rest).map Char.toLower) ≠ "nan" := hword 'n' "an".toList rfl
  unfold namedNumber?
  simp only [hinf, hinfinity, hnan, or_self, if_false]

/-- Digits, and digits behind a point if there is one, are read as the decimal number of all digits. -/
theorem read_decimal_of_digits (negative : Bool) {whole places tail : List Char}
    (hwhole : IsNumeral whole) (hplaces : ∀ c ∈ places, isDigit c = true)
    (htail : tail = [] ∧ places = [] ∨ tail = '.' :: places) :
    readDecimal? negative (whole ++ tail) =
      some ⟨negative, digitsValue (whole ++ places), -places.length⟩ := by
  have hpoint : isDigit '.' = false := rfl
  have hfront : (whole ++ tail).takeWhile isDigit = whole := by
    rw [List.takeWhile_append_of_pos hwhole.2]
    rcases htail with ⟨rfl, -⟩ | rfl
    · rw [List.takeWhile_nil, List.append_nil]
    · rw [List.takeWhile_cons_of_neg (by simp [hpoint]), List.append_nil]
  have hempty : whole.isEmpty = false := by simpa using hwhole.1
  unfold readDecimal?
  simp only [hfront, List.drop_left]
  rcases htail with ⟨rfl, rfl⟩ | rfl
  · simp [hempty, readExponent?]
  · simp [hempty, readExponent?, List.takeWhile_eq_self_iff.mpr hplaces, List.dropWhile_eq_nil_iff.mpr hplaces]

/-- Hours, minutes and seconds on a clock. -/
structure Clock where
  hours : List Char
  minutes : List Char
  seconds : List Char
  hours_numeral : IsNumeral hours
  minutes_numeral : IsNumeral minutes
  seconds_numeral : IsNumeral seconds
  minutes_below : digitsValue minutes < 60
  seconds_below : digitsValue seconds < 60

namespace Clock

variable (clock : Clock)

/-- The whole seconds. -/
def whole : Nat :=
  3600 * digitsValue clock.hours + 60 * digitsValue clock.minutes + digitsValue clock.seconds

/-- The characters of a time on a clock. -/
def chars (fraction : Option (List Char)) : List Char :=
  clock.hours ++ ':' :: (clock.minutes ++ ':' :: (clock.seconds ++ tail fraction))

/-- The text of a time on a clock. -/
def text (fraction : Option (List Char)) : String :=
  String.ofList (clock.chars fraction)

section fraction

variable {fraction : Option (List Char)}

/-- The time with a fraction, in the grammar of clocks. -/
def shown (h : ∀ places ∈ fraction, ∀ c ∈ places, isDigit c = true) : ClockText where
  hours := ⟨false, clock.hours, clock.hours_numeral⟩
  minutes := ⟨false, clock.minutes, clock.minutes_numeral⟩
  seconds := ⟨false, clock.seconds, clock.seconds_numeral⟩
  fraction := fraction
  minutes_below := by
    rw [ClockField.value, ← digits_value_eq clock.minutes_numeral.2]
    exact clock.minutes_below
  seconds_below := by
    rw [ClockField.value, ← digits_value_eq clock.seconds_numeral.2]
    exact clock.seconds_below
  fraction_digits := h

/-- A time on a clock is read digit by digit. -/
theorem read_text (h : ∀ places ∈ fraction, ∀ c ∈ places, isDigit c = true) :
    readClock? (clock.text fraction) =
      Count.ofNat? (1000 * clock.whole + fractionMillis (fraction.getD [])) := by
  have hstands : (clock.shown h).StandsIn (clock.text fraction) :=
    ⟨[], [], by rw [text, String.toList_ofList, List.nil_append, List.append_nil]; rfl, nofun, nofun⟩
  have hfraction : fractionMillis (fraction.getD []) = (clock.shown h).thousandths :=
    (clock.shown h).fraction_millis_eq
  rw [hstands.read, ClockText.millis, hfraction, whole, digits_value_eq clock.hours_numeral.2,
    digits_value_eq clock.minutes_numeral.2, digits_value_eq clock.seconds_numeral.2]
  congr 1
  simp only [ClockField.value, shown]
  ring

end fraction

end Clock

/-- Seconds in decimal digits: a whole part and, behind a mark, a fraction of at most three digits. -/
structure DecimalSeconds where
  /-- The digits of the whole seconds. -/
  whole : List Char
  /-- The mark in front of the fraction and the digits of that. -/
  fraction : Option (Char × List Char)
  numeral : IsNumeral whole
  below : digitsValue whole < 10 ^ 9
  mark : ∀ part ∈ fraction, part.1 = '.' ∨ part.1 = ','
  fraction_digits : ∀ part ∈ fraction, ∀ c ∈ part.2, isDigit c = true
  fraction_short : ∀ part ∈ fraction, part.2.length ≤ 3

namespace DecimalSeconds

variable (time : DecimalSeconds)

/-- The digits of the fraction. -/
def places : List Char :=
  (time.fraction.map Prod.snd).getD []

/-- The characters of seconds in a report. -/
def chars : List Char :=
  time.whole ++
    match time.fraction with
    | none => []
    | some (mark, places) => mark :: places

/-- The text of seconds in a report. -/
def text : String :=
  String.ofList time.chars

/-- The exact number of milliseconds: the fraction is padded to three digits. -/
def millis : Nat :=
  1000 * digitsValue time.whole + fractionMillis time.places

/-- No character of seconds is a blank. -/
theorem blank_of_mem_chars : ∀ c ∈ time.chars, Text.isBlank c = false := by
  unfold chars
  intro c hc
  rcases List.mem_append.mp hc with hc | hc
  · exact is_blank_of_digit (time.numeral.2 c hc)
  · split at hc
    case h_1 => cases hc
    case h_2 mark places hfraction =>
      rcases List.mem_cons.mp hc with rfl | hc
      · rcases time.mark _ hfraction with hmark | hmark <;> rw [show c = _ from hmark] <;> rfl
      · exact is_blank_of_digit (time.fraction_digits _ hfraction c hc)

/-- In the text that is read, the mark is a point. -/
theorem pointed_text : ∃ tail, (Tag.pointed (Text.trim time.text)).toList = time.whole ++ tail ∧
    (tail = [] ∧ time.places = [] ∨ tail = '.' :: time.places) := by
  have hkept : ∀ {digits : List Char}, (∀ c ∈ digits, isDigit c = true) →
      digits.map (fun c => if c = ',' then '.' else c) = digits := by
    intro digits hdigits
    have hsame : digits.map (fun c => if c = ',' then '.' else c) = digits.map id :=
      List.map_congr_left fun c hc => if_neg (is_digit_ne (hdigits c hc) rfl)
    rw [hsame, List.map_id]
  unfold Tag.pointed Text.trim text places
  simp only [String.toList_ofList]
  rw [trim_chars_of_no_blank time.blank_of_mem_chars]
  unfold chars
  rw [List.map_append, hkept time.numeral.2]
  cases hfraction : time.fraction with
  | none => exact ⟨[], rfl, .inl ⟨rfl, rfl⟩⟩
  | some part =>
      refine ⟨_, rfl, .inr ?_⟩
      show (if part.1 = ',' then '.' else part.1) :: part.2.map _ = '.' :: part.2
      rw [hkept (time.fraction_digits part hfraction)]
      rcases time.mark part hfraction with hmark | hmark <;> simp [hmark]

/-- The places of decimal seconds are digits. -/
theorem places_digits : ∀ c ∈ time.places, isDigit c = true := by
  unfold places
  cases hfraction : time.fraction with
  | none => simp
  | some part => exact time.fraction_digits part hfraction

/-- Decimal seconds have at most three places. -/
theorem places_short : time.places.length ≤ 3 := by
  unfold places
  cases hfraction : time.fraction with
  | none => simp
  | some part => exact time.fraction_short part hfraction

/-- The text is read as the number that all of its digits together denote, with as many places. -/
theorem read_text : Binary64.read (Tag.pointed (Text.trim time.text)) =
    .ok (Decimal.toBinary64 ⟨false, digitsValue (time.whole ++ time.places), -time.places.length⟩) := by
  obtain ⟨tail, htext, htail⟩ := time.pointed_text
  obtain ⟨first, rest, hwhole⟩ := List.exists_cons_of_ne_nil time.numeral.1
  have hfirst : isDigit first = true := time.numeral.2 first (by simp [hwhole])
  have hminus : first ≠ '-' := is_digit_ne hfirst rfl
  have hplus : first ≠ '+' := is_digit_ne hfirst rfl
  have hdecimal := read_decimal_of_digits false time.numeral time.places_digits htail
  rw [hwhole, List.cons_append] at htext hdecimal
  unfold Binary64.read
  rw [htext]
  simp only [hminus, hplus, or_self, if_false, decide_false, named_number_of_digit false hfirst, hdecimal, hwhole]

/-- All digits together denote the thousandths. -/
theorem digits_value : digitsValue (time.whole ++ time.places) * 1000 = time.millis * 10 ^ time.places.length := by
  have hzero : (digit? '0').getD 0 = 0 := rfl
  have hshort := time.places_short
  unfold millis fractionMillis
  generalize time.places = places at hshort
  unfold digitsValue
  rw [List.foldl_append]
  generalize time.whole.foldl (fun value c => value * 10 + (digit? c).getD 0) 0 = whole
  match places, hshort with
  | [], _ => simp [hzero]; omega
  | [a], _ => simp [hzero]; omega
  | [a, b], _ => simp [hzero]; omega
  | [a, b, c], _ => simp; omega

/-- Decimal seconds come to fewer than 10¹² milliseconds. -/
theorem millis_below : time.millis < 10 ^ 12 := by
  have hwhole := time.below
  have hpadded : fractionMillis time.places < 10 ^ 3 := by
    have hlength : ((time.places ++ ['0', '0', '0']).take 3).length = 3 := by simp
    have hlt := digits_value_lt ((time.places ++ ['0', '0', '0']).take 3)
    rwa [hlength] at hlt
  unfold millis
  omega

/-- Seconds are read as a number that is neither negative nor infinite, and its milliseconds are recorded. -/
theorem number_of_text : ∃ number, Binary64.read (Tag.pointed (Text.trim time.text)) = .ok number ∧
    number.isFinite = true ∧ number.isNegative = false ∧
    millisOfSeconds number = .clamp (recordedMillis time.millis) := by
  have hvalue := time.digits_value
  have hbelow := time.millis_below
  refine ⟨_, time.read_text, ?_⟩
  by_cases hzero : digitsValue (time.whole ++ time.places) = 0
  · have hnone : time.millis = 0 := by
      rw [hzero, Nat.zero_mul] at hvalue
      exact (Nat.mul_eq_zero.mp hvalue.symm).resolve_right (Nat.pow_pos (by omega)).ne'
    have hnumber : Decimal.toBinary64 ⟨false, 0, -time.places.length⟩ =
        .finite false 0 Binary64.leastExponent := rfl
    have hrecorded : millisOfSeconds (.finite false 0 Binary64.leastExponent) = .clamp (recordedMillis 0) := by
      decide +kernel
    rw [hzero, hnone, hnumber]
    exact ⟨rfl, rfl, hrecorded⟩
  · have hpow : 10 ^ time.places.length ≤ 10 ^ 3 := Nat.pow_le_pow_right (by omega) time.places_short
    have hpos : 0 < time.millis := by
      refine Nat.pos_of_ne_zero fun hnone => ?_
      rw [hnone, Nat.zero_mul] at hvalue
      omega
    have hdigits : digitsValue (time.whole ++ time.places) < 10 ^ 12 := by
      have hle : time.millis * 10 ^ time.places.length ≤ time.millis * 10 ^ 3 := Nat.mul_le_mul_left _ hpow
      omega
    have hnumber := Decimal.to_binary64_eq false hzero hdigits time.places_short
    have hrecorded := recorded_of_ratio (Nat.pow_pos (by omega)) hvalue hpos hbelow
    rw [hnumber]
    refine ⟨Binary64.finite_of_truncate hrecorded, Binary64.of_ratio_nonnegative _ _, ?_⟩
    unfold millisOfSeconds
    rw [hrecorded]

/-- An attribute of seconds is never refused, and gives the recorded milliseconds. -/
theorem seconds_eq {tag : Tag} {name : String} (h : tag.optional name = .ok (some time.text)) :
    tag.seconds name = .ok (some (.clamp (recordedMillis time.millis))) := by
  obtain ⟨number, hread, hfinite, hnegative, hrecorded⟩ := time.number_of_text
  rw [Tag.seconds_ok_iff h]
  simp only [secondsOf?, hread]
  rw [if_pos ⟨hfinite, by simp [hnegative]⟩, hrecorded]

/-- On a clock, the same time with the same digits behind a point comes to the exact milliseconds. -/
theorem read_clock (clock : Clock) (h : clock.whole = digitsValue time.whole) :
    readClock? (clock.text (time.fraction.map Prod.snd)) = some (.clamp time.millis) := by
  have hlimit : time.millis ≤ Count.limit := by
    have := time.millis_below
    unfold Count.limit
    omega
  rw [clock.read_text, h]
  · show Count.ofNat? time.millis = _
    unfold Count.ofNat?
    rw [dif_pos hlimit]
    congr 1
    ext
    simp [Count.clamp, hlimit]
  · intro places hplaces
    obtain ⟨part, hpart, rfl⟩ := Option.mem_map.mp hplaces
    exact time.fraction_digits part hpart

end DecimalSeconds

section charges

variable {tag : Tag} {state after : Option String} {effects : List Effect} {name : String} {record : TestRecord}

/-- A test is charged with the seconds of its time. -/
theorem XUnit.duration_of_charge (h : XUnit.test tag state = .ok (after, effects))
    (hcharge : .charge name record ∈ effects) : tag.seconds "time" = .ok record.duration := by
  obtain ⟨word, -, h⟩ := except_bind_ok.mp (Handler.reading_ok_iff.mp h)
  obtain ⟨duration, hduration, h⟩ := except_bind_ok.mp h
  obtain ⟨test, -, h⟩ := except_bind_ok.mp h
  split at h
  case h_1 => cases h
  case h_2 =>
    cases h
    cases List.mem_singleton.mp hcharge
    exact hduration

/-- A test case is charged with its duration. -/
theorem NUnit.duration_of_charge (h : NUnit.case tag state = .ok (after, effects))
    (hcharge : .charge name record ∈ effects) : NUnit.caseDuration tag = .ok record.duration := by
  obtain ⟨test, -, h⟩ := except_bind_ok.mp (Handler.reading_ok_iff.mp h)
  obtain ⟨word, -, h⟩ := except_bind_ok.mp h
  obtain ⟨label, -, h⟩ := except_bind_ok.mp h
  obtain ⟨executed, -, h⟩ := except_bind_ok.mp h
  obtain ⟨duration, hduration, h⟩ := except_bind_ok.mp h
  simp only at h
  split at h
  case h_1 => cases h
  case h_2 =>
    cases h
    cases List.mem_singleton.mp hcharge
    exact hduration

/-- The duration of a test case is that of the newer attribute, and that of the older one without it. -/
theorem DecimalSeconds.case_duration_eq (time : DecimalSeconds)
    (h : tag.optional "duration" = .ok (some time.text) ∨
      tag.optional "duration" = .ok none ∧ tag.optional "time" = .ok (some time.text)) :
    NUnit.caseDuration tag = .ok (some (.clamp (recordedMillis time.millis))) := by
  unfold NUnit.caseDuration
  rcases h with h | ⟨hnone, h⟩
  · rw [time.seconds_eq h]
    rfl
  · have hduration : tag.seconds "duration" = .ok none := (Tag.seconds_ok_iff hnone).mpr rfl
    rw [hduration, ← time.seconds_eq h]
    rfl

end charges

/-- No more milliseconds are recorded than a report tells. -/
theorem recorded_le (millis : Nat) : recordedMillis millis ≤ millis := by
  unfold recordedMillis
  split <;> omega

/-- Only a number that comes short is not recorded as it is. -/
theorem recorded_eq_iff (millis : Nat) : recordedMillis millis = millis ↔ ¬ ComesShort millis := by
  unfold recordedMillis
  split
  case isTrue h =>
    have hpos : millis ≠ 0 := by
      rintro rfl
      have hlow := h.1
      omega
    exact ⟨fun heq => by omega, fun hexact => absurd h hexact⟩
  case isFalse h => exact ⟨fun _ => h, fun _ => rfl⟩

/-- Seconds to the millisecond, as reports of the two formats give them, are never refused, and what is charged
is their exact milliseconds or one less. It is one less for those that come short, and for no others. The same
time on a clock comes to the exact milliseconds. -/
theorem decimal_seconds_recorded (time : DecimalSeconds) (tag : Tag) :
    (∀ name, tag.optional name = .ok (some time.text) →
      tag.seconds name = .ok (some (.clamp (recordedMillis time.millis)))) ∧
    (tag.optional "time" = .ok (some time.text) →
      ∀ state after effects name record, XUnit.test tag state = .ok (after, effects) →
        .charge name record ∈ effects → record.duration = some (.clamp (recordedMillis time.millis))) ∧
    (tag.optional "duration" = .ok (some time.text) ∨
        tag.optional "duration" = .ok none ∧ tag.optional "time" = .ok (some time.text) →
      ∀ state after effects name record, NUnit.case tag state = .ok (after, effects) →
        .charge name record ∈ effects → record.duration = some (.clamp (recordedMillis time.millis))) ∧
    (∀ clock : Clock, clock.whole = digitsValue time.whole →
      readClock? (clock.text (time.fraction.map Prod.snd)) = some (.clamp time.millis)) ∧
    (Count.clamp (recordedMillis time.millis) = Count.clamp time.millis ↔ ¬ ComesShort time.millis) := by
  refine ⟨fun name h => time.seconds_eq h, fun h state after effects name record hstep hcharge => ?_,
    fun h state after effects name record hstep hcharge => ?_, time.read_clock, ?_⟩
  · have hduration := XUnit.duration_of_charge hstep hcharge
    rw [time.seconds_eq h] at hduration
    exact (Except.ok.inj hduration).symm
  · have hduration := NUnit.duration_of_charge hstep hcharge
    rw [time.case_duration_eq h] at hduration
    exact (Except.ok.inj hduration).symm
  · rw [← recorded_eq_iff]
    have hbelow := time.millis_below
    have hle := recorded_le time.millis
    have hval : ∀ {millis : Nat}, millis < 10 ^ 12 → (Count.clamp millis).val = millis :=
      fun hbelow => Nat.min_eq_left (by unfold Count.limit; omega)
    refine ⟨fun h => ?_, fun h => by rw [h]⟩
    calc recordedMillis time.millis
      _ = (Count.clamp (recordedMillis time.millis)).val := (hval (by omega)).symm
      _ = time.millis := by rw [h, hval hbelow]

/-- A second and a millisecond, in decimal digits. -/
def DecimalSeconds.overOne : DecimalSeconds where
  whole := ['1']
  fraction := some ('.', ['0', '0', '1'])
  numeral := by simp [IsNumeral, isDigit]
  below := by decide
  mark := by simp
  fraction_digits := by simp [isDigit]
  fraction_short := by simp

/-- The test tag of a report with this time. -/
def overOneTest : Tag :=
  .ofContent (Text.Utf8.encode "test name=\"N.C.m\" result=\"Pass\" time=\"1.001\"") 0 0

/-- The time of this test is read, and comes short. -/
theorem over_one_recorded :
    overOneTest.optional "time" = .ok (some DecimalSeconds.overOne.text) ∧
      overOneTest.seconds "time" = .ok (some (.clamp (recordedMillis DecimalSeconds.overOne.millis))) ∧
      ComesShort DecimalSeconds.overOne.millis := by
  have hgiven : overOneTest.optional "time" = .ok (some DecimalSeconds.overOne.text) := by decide +kernel
  have hshort : ComesShort DecimalSeconds.overOne.millis := by decide +kernel
  exact ⟨hgiven, (decimal_seconds_recorded .overOne overOneTest).1 "time" hgiven, hshort⟩

/-- A report that gives a second and a millisecond in decimal digits is counted with a second; a clock with
the same time comes to the millisecond. -/
theorem millisecond_lost :
    let report := Text.Utf8.encode
      "<assemblies><test name=\"N.C.m\" result=\"Pass\" time=\"1.001\"/></assemblies>"
    let parsed := Dialect.xunit.parse ⟨"report.xml"⟩ report .empty .empty
    parsed.failure = none ∧ parsed.table.total = ⟨1, 0, 0, 0, some (.clamp 1000)⟩ ∧
      readClock? "00:00:01.001" = some (.clamp 1001) := by
  decide +kernel

end TestMeasures
