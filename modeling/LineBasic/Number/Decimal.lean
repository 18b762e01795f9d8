import LineBasic.Number.Binary

/-!
# Reals in decimal

A real is written from its exact binary value: the value is scaled by a power of ten and rounded to
the nearest integer, a tie going to the even neighbour. `fixedText` keeps a number of decimals,
`scientific` a number of digits, and `realText` is the form in which programs print reals.
-/

set_option autoImplicit false

namespace LineBasic.Number

def roundDiv (num den : Nat) : Nat :=
  let q := num / den
  let r := num % den
  if den < 2 * r ∨ (2 * r = den ∧ q % 2 = 1) then q + 1 else q

def tenTo (n : Nat) : Nat := Nat.pow 10 n

def digitsOf (n : Nat) : List Char := Nat.toDigits 10 n

def paddedDigits (width n : Nat) : List Char :=
  List.replicate (width - (digitsOf n).length) '0' ++ digitsOf n

def withPoint (places : Nat) (digits : List Char) : List Char :=
  if places = 0 then digits
  else digits.take (digits.length - places) ++ '.' :: digits.drop (digits.length - places)

def fixedDigits (places : Nat) (x : Float) : List Char :=
  let (num, den) := magnitude x
  withPoint places (paddedDigits (places + 1) (roundDiv (num * tenTo places) den))

def decimalExponent (num den : Nat) : Int :=
  let guess : Int := (digitCount num : Int) - digitCount den
  let reached :=
    if 0 ≤ guess then den * tenTo guess.natAbs ≤ num else den ≤ num * tenTo guess.natAbs
  if reached then guess else guess - 1

def scientific (places : Nat) (x : Float) : List Char × Int :=
  let (num, den) := magnitude x
  if num = 0 then (withPoint places (List.replicate (places + 1) '0'), 0)
  else
    let exponent := decimalExponent num den
    let shift : Int := places - exponent
    let n :=
      if 0 ≤ shift then roundDiv (num * tenTo shift.natAbs) den
      else roundDiv num (den * tenTo shift.natAbs)
    if n = tenTo (places + 1) then (withPoint places (digitsOf (n / 10)), exponent + 1)
    else (withPoint places (digitsOf n), exponent)

def exponentDigits (e : Int) : List Char :=
  (if e < 0 then '-' else '+') :: paddedDigits 2 e.natAbs

def trimFraction (cs : List Char) : List Char :=
  if cs.contains '.' then
    ((cs.reverse.dropWhile (· == '0')).dropWhile (· == '.')).reverse
  else cs

/-- How programs print a real: nine significant digits without trailing zeros, and an exponent if
the first digit stands below the fourth decimal or above the ninth place. -/
def realText (x : Float) : String :=
  if x.isNaN then "nan"
  else if x.isInf then if x < 0 then "-inf" else "inf"
  else if x == 0 then "0"
  else
    let sign := if x < 0 then ['-'] else []
    let (mantissa, exponent) := scientific 8 x
    let body :=
      if -4 ≤ exponent ∧ exponent < 9 then trimFraction (fixedDigits (8 - exponent).toNat x)
      else trimFraction mantissa ++ 'e' :: exponentDigits exponent
    String.ofList (sign ++ body)

end LineBasic.Number
