/-!
# Binary64 numbers

Floating-point numbers of sixty-four bits as exact values: a mantissa of at most fifty-three bits times
a power of two. Every operation is computed exactly on naturals and rounded once, to the nearest number
and to the even mantissa when two are equally near.
-/

namespace TestMeasures

/-- A binary64 number. A finite one is `mantissa * 2 ^ exponent`, with `mantissa < 2 ^ 53`, and either
`2 ^ 52 ≤ mantissa` or `exponent = -1074`. -/
inductive Binary64 where
  | finite (negative : Bool) (mantissa : Nat) (exponent : Int)
  | infinite (negative : Bool)
  | notANumber
deriving Repr, DecidableEq, Inhabited

namespace Binary64

/-- The exponent of the least numbers. -/
def leastExponent : Int := -1074

/-- The exponent of the greatest finite numbers. -/
def greatestExponent : Int := 971

/-- The quotient of two naturals rounded to the nearest natural, half to even. -/
def roundQuotient (num den : Nat) : Nat :=
  let quotient := num / den
  let remainder := num % den
  if 2 * remainder > den ∨ (2 * remainder = den ∧ quotient % 2 = 1) then quotient + 1
  else quotient

/-- The fraction `num / den` divided by `2 ^ exponent`. -/
def scale (num den : Nat) (exponent : Int) : Nat × Nat :=
  if exponent ≥ 0 then (num, den * Nat.pow 2 exponent.toNat) else (num * Nat.pow 2 (-exponent).toNat, den)

/-- The exponent of the greatest power of two that a positive fraction reaches. -/
def floorLog (num den : Nat) : Int :=
  let guess : Int := (num.log2 : Int) - (den.log2 : Int)
  let scaled := scale num den guess
  if scaled.1 < scaled.2 then guess - 1 else guess

/-- The finite number of a mantissa that may have been rounded up to `2 ^ 53`, or an infinity when the
number is too large. -/
def ofRounded (negative : Bool) (mantissa : Nat) (exponent : Int) : Binary64 :=
  let carried := mantissa = Nat.pow 2 53
  let m := if carried then Nat.pow 2 52 else mantissa
  let e := if carried then exponent + 1 else exponent
  if e > greatestExponent then .infinite negative else .finite negative m e

/-- The number nearest to `num / den`, for a positive `den`. -/
def ofRatio (negative : Bool) (num den : Nat) : Binary64 :=
  if num = 0 then .finite negative 0 leastExponent
  else
    let exponent := max (floorLog num den - 52) leastExponent
    let scaled := scale num den exponent
    ofRounded negative (roundQuotient scaled.1 scaled.2) exponent

/-- A nonnegative finite number as a fraction. -/
def fraction (mantissa : Nat) (exponent : Int) : Nat × Nat :=
  scale mantissa 1 (-exponent)

/-- Whether a number is finite. -/
def isFinite : Binary64 → Bool
  | .finite _ _ _ => true
  | _ => false

/-- The product of a number and a natural, rounded. -/
def mulNat (number : Binary64) (factor : Nat) : Binary64 :=
  match number with
  | .finite negative mantissa exponent =>
    let value := fraction mantissa exponent
    ofRatio negative (value.1 * factor) value.2
  | other => other

/-- The product of two numbers, rounded. -/
def mul : Binary64 → Binary64 → Binary64
  | .notANumber, _ => .notANumber
  | _, .notANumber => .notANumber
  | .finite n m e, .finite n' m' e' =>
    let a := fraction m e
    let b := fraction m' e'
    ofRatio (n != n') (a.1 * b.1) (a.2 * b.2)
  | .infinite n, .infinite n' => .infinite (n != n')
  | .infinite n, .finite n' m _ => if m = 0 then .notANumber else .infinite (n != n')
  | .finite n m _, .infinite n' => if m = 0 then .notANumber else .infinite (n != n')

/-- The quotient of a finite number by a positive finite one, rounded; other operands are not used. -/
def div : Binary64 → Binary64 → Binary64
  | .finite n m e, .finite n' m' e' =>
    let a := fraction m e
    let b := fraction m' e'
    if m' = 0 then .notANumber else ofRatio (n != n') (a.1 * b.2) (a.2 * b.1)
  | _, _ => .notANumber

/-- The natural part of a nonnegative number, cut off; an infinity has none. -/
def truncate? : Binary64 → Option Nat
  | .finite _ mantissa exponent =>
    let value := fraction mantissa exponent
    some (value.1 / value.2)
  | _ => none

/-- Whether a number is below zero; a negative zero is not. -/
def isNegative : Binary64 → Bool
  | .finite negative mantissa _ => negative && mantissa != 0
  | .infinite negative => negative
  | .notANumber => false

/-- The sixty-four bits of a number. -/
def bits : Binary64 → Nat
  | .finite negative mantissa exponent =>
    let sign := if negative then Nat.pow 2 63 else 0
    if mantissa < Nat.pow 2 52 then sign + mantissa
    else sign + (exponent + 1075).toNat * Nat.pow 2 52 + (mantissa - Nat.pow 2 52)
  | .infinite negative => (if negative then Nat.pow 2 63 else 0) + 2047 * Nat.pow 2 52
  | .notANumber => 2047 * Nat.pow 2 52 + Nat.pow 2 51

end Binary64

end TestMeasures
