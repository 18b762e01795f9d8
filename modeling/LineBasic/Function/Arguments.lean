import LineBasic.Value

/-!
# Arguments

What built-in functions ask of their arguments: how many there are, and whether they are numbers or
texts. A text is never taken for a number here.
-/

set_option autoImplicit false

namespace LineBasic.Arguments

def wrongCount : Fault := .plain .argumentCount

def one : List Value → Except Fault Value
  | [a] => .ok a
  | _ => .error wrongCount

def two : List Value → Except Fault (Value × Value)
  | [a, b] => .ok (a, b)
  | _ => .error wrongCount

def twoOrThree : List Value → Except Fault (Value × Value × Option Value)
  | [a, b] => .ok (a, b, none)
  | [a, b, c] => .ok (a, b, some c)
  | _ => .error wrongCount

def number (v : Value) : Except Fault Float :=
  match v with
  | .text _ => .error (.because .typeMismatch "EXPECTED A NUMBER")
  | _ => v.toReal

def integer (v : Value) : Except Fault Int64 :=
  match v with
  | .text _ => .error (.because .typeMismatch "EXPECTED A NUMBER")
  | _ => v.toInt

def text (v : Value) : Except Fault (List Char) :=
  match v with
  | .text s => .ok s.toList
  | _ => .error (.because .typeMismatch "EXPECTED TEXT")

def count (v : Value) : Except Fault Nat := do
  let n ← integer v
  if n < 0 then .error (.plain .illegalQuantity) else return n.toInt.toNat

def position (v : Value) : Except Fault Nat := do
  let n ← integer v
  if n < 1 then .error (.plain .illegalQuantity) else return n.toInt.toNat

end LineBasic.Arguments
