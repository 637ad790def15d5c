import TestMeasures.Decimal.Numeral

/-!
# Shortest decimal text

The fewest decimal digits that read back as the same binary64 number, and of those the nearest. In plain
text they are written without an exponent, however large or small the number is.
-/

namespace TestMeasures.Binary64

/-- Whether `4 * candidate` lies between the bounds, which belong to the interval when `closed`. -/
def inInterval (closed : Bool) (lower upper candidate : Nat) : Bool :=
  if closed then lower ≤ candidate && candidate ≤ upper
  else lower < candidate && candidate < upper

/-- Which of two decimals that are equally near to a number is taken. -/
inductive Tie where
  /-- The larger one. -/
  | up
  /-- The one whose last digit is even. -/
  | even
deriving Repr, DecidableEq, Inhabited

/-- Whether the upper neighbour is taken in a tie, given the lower one. -/
def Tie.takesUpper (tie : Tie) (below : Nat) : Bool :=
  match tie with
  | .up => true
  | .even => below % 2 == 1

/-- Tries the decimal grids `10 ^ place` from coarse to fine. The value and the ends of its interval are
`value / den`, `lower / den` and `upper / den`. -/
def shortestFrom (tie : Tie) (closed : Bool) (lower value upper den : Nat) : Nat → Int → Nat × Int
  | 0, place => (0, place)
  | fuel + 1, place =>
    let step := if place ≥ 0 then den * Nat.pow 10 place.toNat else den
    let up := if place ≥ 0 then 1 else Nat.pow 10 (-place).toNat
    let below := value * up / step
    let above := below + 1
    let fits := fun n => inInterval closed (lower * up) (upper * up) (n * step)
    match fits below, fits above with
    | true, true =>
      let toBelow := value * up - below * step
      let toAbove := above * step - value * up
      if toAbove < toBelow ∨ toAbove = toBelow ∧ tie.takesUpper below then (above, place)
      else (below, place)
    | true, false => (below, place)
    | false, true => (above, place)
    | false, false => shortestFrom tie closed lower value upper den fuel (place - 1)

/-- The shortest digits of a positive finite number and the power of ten that they count. -/
def shortestDigits (tie : Tie) (mantissa : Nat) (exponent : Int) : Nat × Int :=
  let lowerGap := if mantissa = Nat.pow 2 52 ∧ exponent > leastExponent then 1 else 2
  let unit := fraction 1 (exponent - 2)
  shortestFrom tie (mantissa % 2 == 0) ((4 * mantissa - lowerGap) * unit.1) (4 * mantissa * unit.1)
    ((4 * mantissa + 2) * unit.1) unit.2 700 310

/-- Digits with the decimal point at a place, without an exponent. -/
def plainDigits (digits : List Char) (place : Int) : List Char :=
  if place ≥ 0 then digits ++ List.replicate place.toNat '0'
  else
    let places := (-place).toNat
    if digits.length > places then
      digits.take (digits.length - places) ++ '.' :: digits.drop (digits.length - places)
    else '0' :: '.' :: (List.replicate (places - digits.length) '0' ++ digits)

/-- The shortest text of a number without an exponent; of two equally near ones the larger in size. -/
def plainText : Binary64 → String
  | .notANumber => "NaN"
  | .infinite negative => if negative then "-inf" else "inf"
  | .finite negative mantissa exponent =>
    let sign := if negative then "-" else ""
    if mantissa = 0 then sign ++ "0"
    else
      let shortest := shortestDigits .up mantissa exponent
      sign ++ String.ofList (plainDigits (decimalDigits shortest.1) shortest.2)

end TestMeasures.Binary64
