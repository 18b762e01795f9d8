import LineBasic.Function.Arguments
import LineBasic.Function.Substring
import LineBasic.Machine
import LineBasic.Text.Case

/-!
# Built-in functions

What each built-in function makes of its arguments. Most depend on nothing else; the column, the
memory and the random numbers come from the machine, and only drawing a random number changes it.
-/

set_option autoImplicit false

namespace LineBasic

open Arguments

def realFunction (f : Float → Float) (args : List Value) : Except Fault Value := do
  return .real (f (← number (← one args)))

def extremeFrom (beats : Float → Float → Bool) (best : Value) (bestNumber : Float) :
    List Value → Except Fault Value
  | [] => .ok best
  | v :: vs => do
    let n ← number v
    if beats n bestNumber then extremeFrom beats v n vs else extremeFrom beats best bestNumber vs

def extreme (beats : Float → Float → Bool) : List Value → Except Fault Value
  | [] => .error wrongCount
  | v :: vs => do extremeFrom beats v (← number v) vs

def maxSpaces : Nat := 0xFFFF

def spacesValue (n : Nat) : Except Fault Value :=
  if maxSpaces < n then .error (.plain .illegalQuantity) else .ok (.text (Text.spaces n))

def hexDigits (n : Int64) : List Char :=
  let digits := (Nat.toDigits 16 n.toUInt64.toNat).map Char.toUpper
  List.replicate (16 - digits.length) '0' ++ digits

def ofHexDigits? (cs : List Char) : Option Int64 :=
  let digits := match cs with
    | '+' :: rest => rest
    | _ => cs
  if digits ≠ [] ∧ digits.all Number.isHexDigit ∧ Number.hexValue digits < UInt64.size then
    some (Number.hexValue digits).toUInt64.toInt64
  else none

def charText? (code : Int64) : Option String :=
  let n := code.toInt.toNat
  if 0 ≤ code ∧ n.isValidChar then some (Char.ofNat n).toString else none

def signum (x : Float) : Int64 := if 0 < x then 1 else if x < 0 then -1 else 0

def peek (m : Machine) (args : List Value) : Except Fault Value := do
  let address ← integer (← one args)
  if 0 ≤ address ∧ address.toInt.toNat < memorySize then
    return .integer (Int64.ofNat ((m.memory.get? address.toInt.toNat).getD 0).toNat)
  else .error (.because .illegalQuantity "ADDRESS OUT OF RANGE")

def cursorColumn (m : Machine) (args : List Value) : Except Fault Value :=
  if args.length ≤ 1 then .ok (.integer (Int64.ofNat m.column)) else .error wrongCount

def tabulate (m : Machine) (args : List Value) : Except Fault Value := do
  let column ← count (← one args)
  if maxSpaces < column then .error (.plain .illegalQuantity) else spacesValue (column - m.column)

def drawn (m : Machine) (args : List Value) : Except Fault Dice := do
  let x ← number (← one args)
  let draw (d : Dice) := d.draw m.host.random
  return if x == 0 then m.dice else if x < 0 then draw (m.dice.seeded x.toBits) else draw m.dice

namespace BuiltinFunction

def value (f : BuiltinFunction) (m : Machine) (args : List Value) : Except Fault Value :=
  match f with
  | PEEK => peek m args
  | POS => cursorColumn m args
  | TAB => tabulate m args
  | RND => (drawn m args).map fun d => .real d.last
  | ABS => realFunction Float.abs args
  | ATN => realFunction Float.atan args
  | COS => realFunction Float.cos args
  | EXP => realFunction Float.exp args
  | LOG => realFunction Float.log args
  | SIN => realFunction Float.sin args
  | SQR => realFunction Float.sqrt args
  | TAN => realFunction Float.tan args
  | ASC => do
    let cs ← text (← one args)
    return .integer (Int64.ofNat ((cs.head?.map Char.toNat).getD 0))
  | CHR => do
    match charText? (← integer (← one args)) with
    | some s => return .text s
    | none => .error (.because .illegalQuantity "NOT A CHARACTER CODE")
  | DEC => do
    let cs ← text (← one args)
    match ofHexDigits? (Text.dropTrailing Text.isBlank (cs.dropWhile Text.isBlank)) with
    | some n => return .integer n
    | none => .error (.because .illegalQuantity "NOT A HEX NUMBER")
  | HEX => do return .text (String.ofList (hexDigits (← integer (← one args))))
  | INSTR => do
    let (s, n, start) ← twoOrThree args
    let cs ← text s
    let needle ← text n
    let start ← match start with
      | some v => position v
      | none => pure 1
    return .integer (Int64.ofNat (Substring.position cs needle start))
  | INT => do return .integer (Number.floor (← number (← one args)))
  | LCASE => do return .text (Text.lowerCase (String.ofList (← text (← one args))))
  | UCASE => do return .text (Text.upperCase (String.ofList (← text (← one args))))
  | LEFT => do
    let (s, n) ← two args
    let cs ← text s
    return .text (String.ofList (Substring.left cs (← count n)))
  | RIGHT => do
    let (s, n) ← two args
    let cs ← text s
    return .text (String.ofList (Substring.right cs (← count n)))
  | MID => do
    let (s, start, n) ← twoOrThree args
    let cs ← text s
    let start ← position start
    let n ← match n with
      | some v => (count v).map some
      | none => pure none
    return .text (String.ofList (Substring.middle cs start n))
  | LEN => do return .integer (Int64.ofNat (← text (← one args)).length)
  | MAX => extreme (fun x best => decide (best < x)) args
  | MIN => extreme (fun x best => decide (x < best)) args
  | MOD => do
    let (a, b) ← two args
    let a ← integer a
    let b ← integer b
    if b = 0 then .error (.because .illegalQuantity "MOD BY ZERO") else return .integer (a % b)
  | SGN => do return .integer (signum (← number (← one args)))
  | SPC => do spacesValue (← count (← one args))
  | STR => do return .text (← one args).display
  | VAL => do
    let cs ← text (← one args)
    let trimmed := Value.text (Text.trim (String.ofList cs))
    return .real (trimmed.toReal.toOption.getD 0)
  | XOR => do
    let (a, b) ← two args
    let a ← integer a
    return .integer (a ^^^ (← integer b))

def call (f : BuiltinFunction) (args : List Value) : Run Value := do
  let m ← get
  let v ← f.value m args
  if f = RND then
    let dice ← drawn m args
    set { m with dice }
  return v

end BuiltinFunction

def Function.call (f : Function) (args : List Value) : Run Value :=
  match f with
  | .builtin b => b.call args
  | .added run => monadLift (run args)

end LineBasic
