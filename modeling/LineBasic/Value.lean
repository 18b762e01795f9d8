import LineBasic.Number.Decimal
import LineBasic.Number.Numeral

/-!
# Values

A value is an integer, a real or a text. The last character of a name says which kind of value the
name stands for, and a value is converted to that kind before it is stored. A list of values as it
stands in a statement also holds the separators between them.
-/

set_option autoImplicit false

namespace LineBasic

inductive Kind where
  | integer
  | real
  | text
  deriving DecidableEq, Repr

def Kind.ofName (name : String) : Kind :=
  match name.toList.getLast? with
  | some '$' => .text
  | some '%' => .integer
  | _ => .real

inductive Value where
  | integer (n : Int64)
  | real (x : Float)
  | text (s : String)
  deriving DecidableEq

namespace Value

def kind : Value → Kind
  | integer _ => .integer
  | real _ => .real
  | text _ => .text

def isText (v : Value) : Bool := v.kind == .text

def display : Value → String
  | integer n => toString n.toInt
  | real x => Number.realText x
  | text s => s

def toInt : Value → Except Fault Int64
  | integer n => .ok n
  | real x => .ok (Number.truncate x)
  | text s =>
    match Number.whole? Number.scanInteger (s.toList.dropWhile Text.isBlank) with
    | some n => .ok n
    | none => .error (.because .typeMismatch "TEXT IS NOT AN INTEGER")

def toReal : Value → Except Fault Float
  | integer n => .ok (Number.realOfInt n)
  | real x => .ok x
  | text s =>
    let cs := s.toList.dropWhile Text.isBlank
    match Number.whole? Number.scanInteger cs with
    | some n => .ok (Number.realOfInt n)
    | none =>
      match Number.whole? Number.scanReal cs with
      | some x => .ok x
      | none => .error (.because .typeMismatch "TEXT IS NOT A NUMBER")

def zero : Kind → Value
  | .integer => integer 0
  | .real => real 0
  | .text => text ""

def zeroFor (name : String) : Value := zero (Kind.ofName name)

def coerce : Kind → Value → Except Fault Value
  | .text, text s => .ok (text s)
  | .text, _ => .error (.because .typeMismatch "NUMBER IN TEXT VARIABLE")
  | .integer, v => v.toInt.map integer
  | .real, v => v.toReal.map real

def coerceFor (name : String) (v : Value) : Except Fault Value := v.coerce (Kind.ofName name)

@[simp] theorem kind_zero (k : Kind) : (zero k).kind = k := by cases k <;> rfl

/-- A conversion that succeeds gives a value of the kind asked for. -/
theorem kind_of_coerce {k : Kind} {v w : Value} (h : coerce k v = .ok w) : w.kind = k := by
  cases k with
  | text => cases v <;> simp [coerce] at h; subst h; rfl
  | integer =>
    simp only [coerce] at h
    cases hv : v.toInt with
    | error f => rw [hv] at h; cases h
    | ok n => rw [hv] at h; cases h; rfl
  | real =>
    simp only [coerce] at h
    cases hv : v.toReal with
    | error f => rw [hv] at h; cases h
    | ok x => rw [hv] at h; cases h; rfl

end Value

inductive Item where
  | value (v : Value)
  | separator (mark : String)
  deriving DecidableEq

namespace Item

def isSeparator : Item → Bool
  | value _ => false
  | separator _ => true

def value? : Item → Option Value
  | value v => some v
  | separator _ => none

def toValue : Item → Except Fault Value
  | value v => .ok v
  | separator _ => .error (.because .internal "SEPARATOR IS NOT A VALUE")

def values (items : List Item) : List Value := items.filterMap value?

def single : List Item → Except Fault Value
  | [value v] => .ok v
  | _ => .error (.because .badSyntax "EXPECTED ONE VALUE")

end Item

end LineBasic
