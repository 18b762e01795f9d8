/-!
# Reals in binary

A real is a 64-bit binary floating-point number. Here are its exact value as a fraction, its
conversions from and to 64-bit integers, and the nearest real to a decimal numeral. Conversions to
integers cut the fraction off and stop at the ends of the range; what is not a number becomes zero.
-/

set_option autoImplicit false

namespace LineBasic.Number

def realOfInt (n : Int64) : Float :=
  if n < 0 then -n.toInt.natAbs.toUInt64.toFloat else n.toUInt64.toFloat

def signBit : UInt64 := 0x8000000000000000

def truncate (x : Float) : Int64 :=
  if x < 0 then
    let n := (-x).toUInt64
    if signBit ≤ n then Int64.minValue else -n.toInt64
  else
    let n := x.toUInt64
    if signBit ≤ n then Int64.maxValue else n.toInt64

def floor (x : Float) : Int64 :=
  let n := truncate x
  if x < realOfInt n ∧ n ≠ Int64.minValue then n - 1 else n

/-- The bit above the 52 stored bits of a mantissa. -/
def hiddenBit : Nat := 0x10000000000000

def magnitude (x : Float) : Nat × Nat :=
  let bits := x.toBits.toNat
  let exponent := bits / hiddenBit % 2048
  let fraction := bits % hiddenBit
  let mantissa := if exponent = 0 then fraction else fraction + hiddenBit
  let scale := max exponent 1
  if 1075 ≤ scale then (mantissa * Nat.pow 2 (scale - 1075), 1)
  else (mantissa, Nat.pow 2 (1075 - scale))

def infinity : Float := Float.ofBits 0x7FF0000000000000

def digitCount (n : Nat) : Nat := (Nat.toDigits 10 n).length

def realOfDecimal (negative : Bool) (digits : Nat) (exponent : Int) : Float :=
  let size := exponent + digitCount digits
  let x :=
    if digits = 0 then 0
    else if 400 < size then infinity
    else if size < -400 then 0
    else if exponent < 0 then Float.ofScientific digits true exponent.natAbs
    else Float.ofScientific digits false exponent.natAbs
  if negative then -x else x

end LineBasic.Number
