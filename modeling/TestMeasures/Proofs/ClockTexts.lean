import TestMeasures.Proofs.DecimalDigits
import TestMeasures.Proofs.TextCuts
import TestMeasures.Report.Duration

/-!
# Times on a clock, as they may be written

`ClockText` is the grammar of a time on a clock: hours, minutes and seconds with colons between them, and a
fraction of a second if there is one. `clock_texts_read` says that these texts are read, with blanks around them
or not, and no others, and that each of them comes to its exact number of milliseconds.
-/

namespace TestMeasures

/-- A number as a field of a clock gives it: digits, at least one, with or without a plus sign in front. -/
structure ClockField where
  plus : Bool
  digits : List Char
  numeral : IsNumeral digits

namespace ClockField

/-- The characters of a field. -/
def chars (field : ClockField) : List Char :=
  if field.plus then '+' :: field.digits else field.digits

/-- The number that the digits of a field denote. -/
def value (field : ClockField) : Nat :=
  Nat.ofDigitChars 10 field.digits 0

variable (field : ClockField)

/-- A clock field is written in digits, perhaps behind a plus. -/
theorem mem_chars {c : Char} (h : c ∈ field.chars) : c = '+' ∨ isDigit c = true := by
  unfold chars at h
  split at h
  case isTrue => exact (List.mem_cons.mp h).imp_right (field.numeral.2 c)
  case isFalse => exact .inr (field.numeral.2 c h)

/-- A character that is neither a plus sign nor a digit does not stand in a field. -/
theorem not_mem_chars {c : Char} (hplus : c ≠ '+') (hdigit : isDigit c = false) : c ∉ field.chars := by
  intro h
  rcases field.mem_chars h with heq | hc
  · exact hplus heq
  · rw [hdigit] at hc
    cases hc

/-- The characters of a field are read as its value. -/
theorem natural_chars : natural? field.chars = some field.value := by
  obtain ⟨plus, digits, hnumeral⟩ := field
  have hdigits : natural? digits = some (Nat.ofDigitChars 10 digits 0) := by
    rw [hnumeral.natural, digits_value_eq hnumeral.2]
  cases plus with
  | false => exact hdigits
  | true =>
      have hall : digits.all isDigit = true := List.all_eq_true.mpr hnumeral.2
      show natural? ('+' :: digits) = some (Nat.ofDigitChars 10 digits 0)
      simp [natural?, hnumeral.1, hall, digits_value_eq hnumeral.2]

end ClockField

/-- The texts that are read as natural numbers are the fields. -/
theorem natural_eq_some_iff {chars : List Char} {n : Nat} :
    natural? chars = some n ↔ ∃ field : ClockField, field.chars = chars ∧ field.value = n := by
  constructor
  · intro h
    obtain ⟨plus, digits, hchars, h⟩ : ∃ (plus : Bool) (digits : List Char),
        (if plus then '+' :: digits else digits) = chars ∧
          (if digits.isEmpty then none else if digits.all isDigit then some (digitsValue digits) else none) =
            some n := by
      unfold natural? at h
      split at h
      case h_1 digits => exact ⟨true, digits, rfl, h⟩
      case h_2 => exact ⟨false, chars, rfl, h⟩
    split at h
    case isTrue => cases h
    case isFalse hempty =>
      split at h
      case isFalse => cases h
      case isTrue hall =>
        have hnumeral : IsNumeral digits := ⟨by simpa using hempty, List.all_eq_true.mp hall⟩
        refine ⟨⟨plus, digits, hnumeral⟩, hchars, ?_⟩
        rw [ClockField.value, ← digits_value_eq hnumeral.2]
        exact Option.some.inj h
  · rintro ⟨field, rfl, rfl⟩
    exact field.natural_chars

/-- What stands behind the seconds: a point and a fraction of a second, if there is one. -/
def Clock.tail (fraction : Option (List Char)) : List Char :=
  (fraction.map ('.' :: ·)).getD []

/-- Behind the seconds there are digits and a point. -/
theorem Clock.mem_tail {fraction : Option (List Char)} (h : ∀ places ∈ fraction, ∀ c ∈ places, isDigit c = true) :
    ∀ c ∈ Clock.tail fraction, c = '.' ∨ isDigit c = true := by
  cases fraction with
  | none => simp [Clock.tail]
  | some places =>
      intro c hc
      exact (List.mem_cons.mp hc).imp_right (h places rfl c)

/-- A time as a clock shows it: hours, minutes and seconds, and a fraction of a second if there is one. -/
structure ClockText where
  hours : ClockField
  minutes : ClockField
  seconds : ClockField
  fraction : Option (List Char)
  minutes_below : minutes.value < 60
  seconds_below : seconds.value < 60
  fraction_digits : ∀ places ∈ fraction, ∀ c ∈ places, isDigit c = true

namespace ClockText

/-- The characters of a time. -/
def chars (time : ClockText) : List Char :=
  time.hours.chars ++ ':' :: (time.minutes.chars ++ ':' :: (time.seconds.chars ++ Clock.tail time.fraction))

/-- The thousandths that the first three digits of the fraction denote; those that are missing are zeros. -/
def thousandths (time : ClockText) : Nat :=
  Nat.ofDigitChars 10 ((time.fraction.getD [] ++ ['0', '0', '0']).take 3) 0

/-- The exact number of milliseconds, cut behind the third digit of the fraction. -/
def millis (time : ClockText) : Nat :=
  3600000 * time.hours.value + 60000 * time.minutes.value + 1000 * time.seconds.value + time.thousandths

/-- A text holds a time when nothing but blanks stands around it. -/
def StandsIn (time : ClockText) (text : String) : Prop :=
  ∃ front back, text.toList = front ++ (time.chars ++ back) ∧ (∀ c ∈ front, Text.isBlank c = true) ∧
    ∀ c ∈ back, Text.isBlank c = true

variable (time : ClockText)

/-- No character of a time is a blank. -/
theorem blank_of_mem_chars : ∀ c ∈ time.chars, Text.isBlank c = false := by
  have hfield : ∀ (field : ClockField), ∀ c ∈ field.chars, Text.isBlank c = false := by
    intro field c hc
    rcases field.mem_chars hc with rfl | hdigit
    · rfl
    · exact is_blank_of_digit hdigit
  have htail : ∀ c ∈ Clock.tail time.fraction, Text.isBlank c = false := by
    intro c hc
    rcases Clock.mem_tail time.fraction_digits c hc with rfl | hdigit
    · rfl
    · exact is_blank_of_digit hdigit
  exact List.forall_mem_append.mpr ⟨hfield time.hours, List.forall_mem_cons.mpr ⟨rfl,
    List.forall_mem_append.mpr ⟨hfield time.minutes, List.forall_mem_cons.mpr ⟨rfl,
      List.forall_mem_append.mpr ⟨hfield time.seconds, htail⟩⟩⟩⟩⟩

/-- A time is cut at its colons. -/
theorem split_chars : Text.splitChars ':' time.chars =
    [time.hours.chars, time.minutes.chars, time.seconds.chars ++ Clock.tail time.fraction] := by
  have hfield : ∀ (field : ClockField), ':' ∉ field.chars :=
    fun field => field.not_mem_chars (by decide) rfl
  have hseconds : ':' ∉ time.seconds.chars ++ Clock.tail time.fraction := by
    intro h
    rcases List.mem_append.mp h with h | h
    · exact hfield time.seconds h
    · rcases Clock.mem_tail time.fraction_digits ':' h with heq | hdigit
      · cases heq
      · cases hdigit
  unfold chars
  rw [split_chars_at (hfield time.hours), split_chars_at (hfield time.minutes), split_chars_of_not_mem hseconds]

/-- The seconds are cut at their point. -/
theorem cut_seconds :
    (time.seconds.chars ++ Clock.tail time.fraction).takeWhile (· != '.') = time.seconds.chars ∧
      ((time.seconds.chars ++ Clock.tail time.fraction).dropWhile (· != '.')).tail = time.fraction.getD [] := by
  have hseconds : ∀ c ∈ time.seconds.chars, (c != '.') = true := by
    intro c hc
    refine bne_iff_ne.mpr ?_
    rintro rfl
    exact time.seconds.not_mem_chars (by decide) rfl hc
  rw [List.takeWhile_append_of_pos hseconds, List.dropWhile_append_of_pos hseconds]
  cases time.fraction <;> simp [Clock.tail]

/-- The places of a time of day are digits. -/
theorem digits_of_fraction : ∀ c ∈ time.fraction.getD [], isDigit c = true := by
  cases hfraction : time.fraction with
  | none => simp
  | some places => exact time.fraction_digits places hfraction

/-- The places of a time of day are read as thousandths. -/
theorem fraction_millis_eq : fractionMillis (time.fraction.getD []) = time.thousandths := by
  refine digits_value_eq fun c hc => ?_
  rcases List.mem_append.mp (List.mem_of_mem_take hc) with hc | hc
  · exact time.digits_of_fraction c hc
  · simp only [List.mem_cons, List.not_mem_nil, or_false, or_self] at hc
    rw [hc]
    rfl

/-- A text that holds a time is read as its milliseconds, unless these are too many. -/
theorem StandsIn.read {time : ClockText} {text : String} (h : time.StandsIn text) :
    readClock? text = Count.ofNat? time.millis := by
  obtain ⟨front, back, htext, hfront, hback⟩ := h
  obtain ⟨hwhole, hfraction⟩ := time.cut_seconds
  unfold readClock?
  rw [htext, trim_chars_around hfront time.blank_of_mem_chars hback, time.split_chars]
  simp only [hwhole, hfraction, ClockField.natural_chars, Option.bind_eq_bind, Option.bind_some]
  unfold clockMillis?
  rw [if_pos ⟨time.minutes_below, time.seconds_below, List.all_eq_true.mpr time.digits_of_fraction⟩,
    time.fraction_millis_eq]
  congr 1
  unfold millis
  omega

/-- A text that is read as milliseconds holds a time. -/
theorem exists_of_read {text : String} {count : Count} (h : readClock? text = some count) :
    ∃ time : ClockText, time.StandsIn text := by
  unfold readClock? at h
  split at h
  case h_2 => cases h
  case h_1 hours minutes seconds hsplit =>
    obtain ⟨h', hhours, h⟩ := Option.bind_eq_some_iff.mp h
    obtain ⟨m', hminutes, h⟩ := Option.bind_eq_some_iff.mp h
    obtain ⟨s', hseconds, h⟩ := Option.bind_eq_some_iff.mp h
    obtain ⟨hourField, hhourChars, rfl⟩ := natural_eq_some_iff.mp hhours
    obtain ⟨minuteField, hminuteChars, rfl⟩ := natural_eq_some_iff.mp hminutes
    obtain ⟨secondField, hsecondChars, rfl⟩ := natural_eq_some_iff.mp hseconds
    unfold clockMillis? at h
    split at h
    case isFalse => cases h
    case isTrue hbounds =>
      obtain ⟨hminute, hsecond, hdigits⟩ := hbounds
      obtain ⟨fraction, htail, hfraction⟩ : ∃ fraction, Clock.tail fraction = seconds.dropWhile (· != '.') ∧
          ∀ places ∈ fraction, places = (seconds.dropWhile (· != '.')).tail := by
        cases hdrop : seconds.dropWhile (· != '.') with
        | nil => exact ⟨none, rfl, nofun⟩
        | cons c places =>
            have hpoint := List.head?_dropWhile_not (· != '.') seconds
            rw [hdrop] at hpoint
            obtain rfl : c = '.' := by simpa using hpoint
            exact ⟨some places, rfl, fun _ hplaces => (Option.some.inj hplaces).symm⟩
      let time : ClockText := ⟨hourField, minuteField, secondField, fraction, hminute, hsecond,
        fun places hplaces => hfraction places hplaces ▸ List.all_eq_true.mp hdigits⟩
      have hchars : time.chars = Text.trimChars text.toList := by
        rw [← intercalate_split_chars ':' (Text.trimChars text.toList), hsplit]
        show hourField.chars ++ ':' :: (minuteField.chars ++ ':' :: (secondField.chars ++ Clock.tail fraction)) = _
        rw [hhourChars, hminuteChars, hsecondChars, htail, List.takeWhile_append_dropWhile]
        simp [List.intercalate_cons_cons]
      obtain ⟨front, back, htext, hblank⟩ := exists_trim_chars text.toList
      exact ⟨time, front, back, hchars ▸ htext, hblank⟩

end ClockText

section rendering

/-- A number in decimal digits, at least so many of them. -/
def paddedDigits (width n : Nat) : List Char :=
  (decimalDigits n).leftpad width '0'

/-- The text of milliseconds on a clock: two digits each for minutes and seconds, three behind the point, and as
many as it takes, at least two, for the hours. -/
def Count.clockText (millis : Count) : String :=
  String.ofList (paddedDigits 2 (millis.val / 3600000) ++ ':' :: (paddedDigits 2 (millis.val / 60000 % 60) ++
    ':' :: (paddedDigits 2 (millis.val / 1000 % 60) ++ '.' :: paddedDigits 3 (millis.val % 1000))))

/-- Leading zeros do not change the number that digits stand for. -/
theorem padded_digits_value (width n : Nat) : Nat.ofDigitChars 10 (paddedDigits width n) 0 = n := by
  have hzeros : ∀ count, Nat.ofDigitChars 10 (List.replicate count '0') 0 = 0 := by
    intro count
    induction count with
    | zero => rfl
    | succ count ih => exact ih
  unfold paddedDigits List.leftpad
  rw [Nat.ofDigitChars_append, hzeros]
  exact Nat.ofDigitChars_ten_toDigits

/-- Padded digits are a numeral. -/
theorem padded_digits_numeral (width n : Nat) : IsNumeral (paddedDigits width n) := by
  have hdigits : decimalDigits n ≠ [] := Nat.toDigits_ne_nil
  refine ⟨?_, fun c hc => ?_⟩
  · simp [paddedDigits, List.leftpad, hdigits]
  · rcases List.mem_append.mp hc with hc | hc
    · rw [(List.mem_replicate.mp hc).2]
      rfl
    · rw [is_digit_eq]
      exact Nat.isDigit_of_mem_toDigits (by omega) (by omega) hc

/-- A number that fits a width fills it when it is padded. -/
theorem padded_digits_length {width n : Nat} (hpos : 0 < width) (h : n < 10 ^ width) :
    (paddedDigits width n).length = width := by
  have hle : (decimalDigits n).length ≤ width := (Nat.length_toDigits_le_iff (by omega) hpos).mpr h
  rw [paddedDigits, List.length_leftpad]
  omega

/-- The field of a clock with a number in at least so many digits. -/
def ClockField.padded (width n : Nat) : ClockField :=
  ⟨false, paddedDigits width n, padded_digits_numeral width n⟩

/-- Milliseconds as a clock shows them. -/
def Count.onClock (millis : Count) : ClockText where
  hours := .padded 2 (millis.val / 3600000)
  minutes := .padded 2 (millis.val / 60000 % 60)
  seconds := .padded 2 (millis.val / 1000 % 60)
  fraction := some (paddedDigits 3 (millis.val % 1000))
  minutes_below := by
    rw [ClockField.value, ClockField.padded, padded_digits_value]
    omega
  seconds_below := by
    rw [ClockField.value, ClockField.padded, padded_digits_value]
    omega
  fraction_digits := by
    rintro places ⟨⟩
    exact (padded_digits_numeral _ _).2

/-- The clock text of a count stands for its time on the clock. -/
theorem Count.on_clock_stands (millis : Count) : millis.onClock.StandsIn millis.clockText :=
  ⟨[], [], by simp [clockText, onClock, ClockText.chars, ClockField.chars, ClockField.padded, Clock.tail], nofun,
    nofun⟩

/-- The time of a count on the clock has as many milliseconds as the count. -/
theorem Count.on_clock_millis (millis : Count) : millis.onClock.millis = millis.val := by
  have hlength : (paddedDigits 3 (millis.val % 1000)).length = 3 :=
    padded_digits_length (by omega) (by omega)
  have hthousandths : millis.onClock.thousandths = millis.val % 1000 := by
    show Nat.ofDigitChars 10 ((paddedDigits 3 (millis.val % 1000) ++ ['0', '0', '0']).take 3) 0 = _
    rw [List.take_append_of_le_length (by omega), List.take_of_length_le (by omega), padded_digits_value]
  have hfield : ∀ width n, (ClockField.padded width n).value = n := padded_digits_value
  unfold ClockText.millis
  rw [hthousandths]
  simp only [onClock, hfield]
  omega

end rendering

/-- A natural number is a count when it is below the limit. -/
theorem Count.of_nat_eq_some_iff {n : Nat} {count : Count} : Count.ofNat? n = some count ↔ n = count.val := by
  unfold ofNat?
  split
  case isTrue h =>
    rw [Option.some.injEq]
    exact ⟨fun heq => heq ▸ rfl, fun heq => Count.ext heq⟩
  case isFalse h =>
    constructor
    · intro hnone
      cases hnone
    · rintro rfl
      exact absurd count.le_limit h

/-- There is no count for a number beyond the limit. -/
theorem Count.of_nat_eq_none_iff {n : Nat} : Count.ofNat? n = none ↔ Count.limit < n := by
  unfold ofNat?
  split <;> simp <;> omega

/-- A text is read as a duration exactly if it holds a time, with blanks around it or not, whose milliseconds fit
into a count; it is read as these, all of them. Every other text is refused. The text that a clock shows for a
count is read as this count. -/
theorem clock_texts_read :
    (∀ text count, readClock? text = some count ↔
      ∃ time : ClockText, time.StandsIn text ∧ time.millis = count.val) ∧
    (∀ text, readClock? text = none ↔ ∀ time : ClockText, time.StandsIn text → Count.limit < time.millis) ∧
    ∀ millis : Count, readClock? millis.clockText = some millis := by
  refine ⟨fun text count => ?_, fun text => ?_, fun millis => ?_⟩
  · constructor
    · intro h
      obtain ⟨time, htime⟩ := ClockText.exists_of_read h
      rw [htime.read, Count.of_nat_eq_some_iff] at h
      exact ⟨time, htime, h⟩
    · rintro ⟨time, htime, hmillis⟩
      rw [htime.read, Count.of_nat_eq_some_iff]
      exact hmillis
  · constructor
    · intro h time htime
      rw [htime.read, Count.of_nat_eq_none_iff] at h
      exact h
    · intro h
      rw [Option.eq_none_iff_forall_ne_some]
      intro count hread
      obtain ⟨time, htime⟩ := ClockText.exists_of_read hread
      have hlarge := h time htime
      rw [← Count.of_nat_eq_none_iff, ← htime.read, hread] at hlarge
      cases hlarge
  · rw [millis.on_clock_stands.read, Count.of_nat_eq_some_iff]
    exact millis.on_clock_millis

/-- The largest count is read, and the next millisecond is not. -/
example : readClock? " 5124095576030:25:+51.6159 " = some ⟨Count.limit, le_rfl⟩ ∧
    readClock? "5124095576030:25:51.616" = none := by
  decide +kernel

end TestMeasures
