import LineBasic.Token

/-!
# Literals

The values of number tokens.
-/

set_option autoImplicit false

namespace LineBasic

def badNumber : Fault := .because .badSyntax "BAD NUMBER"

def numberValue (text : String) : Except Fault Value :=
  if text = "." then .ok (.real 0)
  else match Number.whole? Number.scanReal text.toList with
    | some x => .ok (.real x)
    | none => .error badNumber

def integerValue (text : String) : Except Fault Value :=
  match Number.whole? Number.scanInteger text.toList with
  | some n => .ok (.integer n)
  | none => numberValue text

end LineBasic
