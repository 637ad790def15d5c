import TestMeasures.Decimal.Shortest
import TestMeasures.Report.Tag
import TestMeasures.Results.Count

/-!
# Durations

Reports give times in seconds, as a number, or on a clock of hours, minutes and seconds. Both become
whole milliseconds, the rest cut off.
-/

namespace TestMeasures

/-- The milliseconds of a number of seconds: a thousand times it, rounded as a binary64 number, cut to a
natural number and held below the limit. -/
def millisOfSeconds (seconds : Binary64) : Count :=
  match (seconds.mulNat 1000).truncate? with
  | some millis => Count.clamp millis
  | none => Count.clamp Count.limit

/-- The duration of an attribute that gives seconds. -/
def Tag.seconds (tag : Tag) (name : String) : Except TagFault (Option Count) :=
  match tag.number name with
  | .error fault => .error fault
  | .ok none => .ok none
  | .ok (some seconds) =>
    if seconds.isNegative then
      .error (tag.malformed name seconds.plainText "duration is negative")
    else .ok (some (millisOfSeconds seconds))

/-- The first three digits of a fraction of a second, with zeros for those that are missing. -/
def fractionMillis (fraction : List Char) : Nat :=
  digitsValue ((fraction ++ ['0', '0', '0']).take 3)

/-- The milliseconds of hours, minutes and seconds, if minutes and seconds are below sixty and the sum is
in range. -/
def clockMillis? (hours minutes whole : Nat) (fraction : List Char) : Option Count :=
  if minutes < 60 ∧ whole < 60 ∧ fraction.all isDigit then
    Count.ofNat? (((hours * 3600) + (minutes * 60 + whole)) * 1000 + fractionMillis fraction)
  else none

/-- Reads a duration `hours:minutes:seconds`, the seconds with an optional fraction. -/
def readClock? (text : String) : Option Count :=
  match Text.splitChars ':' (Text.trimChars text.toList) with
  | [hours, minutes, seconds] => do
    let h ← natural? hours
    let m ← natural? minutes
    let s ← natural? (seconds.takeWhile (· != '.'))
    clockMillis? h m s (seconds.dropWhile (· != '.')).tail
  | _ => none

end TestMeasures
