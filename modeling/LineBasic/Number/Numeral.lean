import LineBasic.Number.Binary
import LineBasic.Fault
import LineBasic.Text.Blank

/-!
# Numerals

The written forms of numbers: decimal integers with an optional sign, hexadecimal integers after a
dollar sign, and reals with an optional fraction and exponent. Each scanner takes the longest
numeral at the start of a text and says how many characters it spans.
-/

set_option autoImplicit false

namespace LineBasic.Number

def digitValue (c : Char) : Nat := c.toNat - '0'.toNat

def decimalValue (cs : List Char) : Nat := cs.foldl (fun n c => 10 * n + digitValue c) 0

def isHexDigit (c : Char) : Bool :=
  c.isDigit || ('A' ≤ c && c ≤ 'F') || ('a' ≤ c && c ≤ 'f')

def hexDigitValue (c : Char) : Nat :=
  if c.isDigit then digitValue c
  else if 'a' ≤ c then c.toNat - 'a'.toNat + 10
  else c.toNat - 'A'.toNat + 10

def hexValue (cs : List Char) : Nat := cs.foldl (fun n c => 16 * n + hexDigitValue c) 0

def digitRun (cs : List Char) : List Char := cs.takeWhile Char.isDigit

def signOf : List Char → Bool × Nat
  | '-' :: _ => (true, 1)
  | '+' :: _ => (false, 1)
  | _ => (false, 0)

def int64OfInt? (n : Int) : Option Int64 :=
  if Int64.minValue.toInt ≤ n ∧ n ≤ Int64.maxValue.toInt then some (Int64.ofInt n) else none

structure RealNumeral where
  negative : Bool
  whole : List Char
  fraction : List Char
  exponent : Int
  size : Nat

def scanExponent (cs : List Char) : Int × Nat :=
  match cs with
  | [] => (0, 0)
  | mark :: rest =>
    if mark = 'E' ∨ mark = 'e' then
      let (negative, taken) := signOf rest
      let digits := digitRun (rest.drop taken)
      if digits.isEmpty then (0, 0)
      else
        let n : Int := decimalValue digits
        (if negative then -n else n, 1 + taken + digits.length)
    else (0, 0)

def scanFraction (cs : List Char) : Option (List Char) :=
  match cs with
  | '.' :: rest => some (digitRun rest)
  | _ => none

def scanRealNumeral (cs : List Char) : Option RealNumeral :=
  let (negative, signSize) := signOf cs
  let whole := digitRun (cs.drop signSize)
  let afterWhole := signSize + whole.length
  let point := scanFraction (cs.drop afterWhole)
  let fraction := point.getD []
  if whole.isEmpty && fraction.isEmpty then none
  else
    let afterPoint := afterWhole + (if point.isSome then 1 + fraction.length else 0)
    let (exponent, exponentSize) := scanExponent (cs.drop afterPoint)
    some { negative, whole, fraction, exponent, size := afterPoint + exponentSize }

def RealNumeral.value (r : RealNumeral) : Float :=
  realOfDecimal r.negative (decimalValue (r.whole ++ r.fraction)) (r.exponent - r.fraction.length)

def scanReal (cs : List Char) : Option (Float × Nat) :=
  (scanRealNumeral cs).map fun r => (r.value, r.size)

def scanHex (cs : List Char) : Option (Int64 × Nat) :=
  let digits := cs.takeWhile isHexDigit
  if digits.isEmpty then none
  else
    let n := hexValue digits
    if n < UInt64.size then some (n.toUInt64.toInt64, digits.length + 1) else none

def scanDecimal (cs : List Char) : Option (Int64 × Nat) :=
  let (negative, signSize) := signOf cs
  let digits := digitRun (cs.drop signSize)
  let size := signSize + digits.length
  if digits.isEmpty then none
  else if (scanRealNumeral cs).any fun r => size < r.size then none
  else
    let n : Int := decimalValue digits
    (int64OfInt? (if negative then -n else n)).map fun v => (v, size)

def scanInteger (cs : List Char) : Option (Int64 × Nat) :=
  match cs with
  | '$' :: rest => scanHex rest
  | _ => scanDecimal cs

def whole? {α : Type} (scan : List Char → Option (α × Nat)) (cs : List Char) : Option α :=
  match scan cs with
  | some (v, size) => if size = cs.length then some v else none
  | none => none

def lineNumberOf? (digits : List Char) : Option LineNumber :=
  (int64OfInt? (decimalValue digits)).map Int64.toInt

/-- The line number at the start of a typed line, after spacing, and the characters up to its end. A
line that starts with a real has no line number. -/
def scanLineNumber (cs : List Char) : Option (LineNumber × Nat) :=
  let rest := cs.dropWhile Text.isSpacing
  let digits := digitRun rest
  if digits.isEmpty then none
  else if (scanRealNumeral rest).any fun r => digits.length < r.size then none
  else (lineNumberOf? digits).map fun n => (n, cs.length - rest.length + digits.length)

end LineBasic.Number
