import LineBasic.Machine
import LineBasic.Token
import LineBasic.Number.Numeral

/-!
# Program lines

`LIST`, `DELETE` and `NEW`, for the module that unqualified names belong to.
-/

set_option autoImplicit false

namespace LineBasic.Statement

def lineNumber (text : String) : Except Fault LineNumber :=
  match if text.toList.all Char.isDigit then Number.lineNumberOf? text.toList else none with
  | some n => .ok n
  | none => .error (.because .badSyntax "BAD LINE NUMBER")

def lineRange : List Token → Except Fault (LineNumber × LineNumber)
  | [] => .ok (0, maxLineNumber)
  | [.integer n] => do
    let n ← lineNumber n
    return (n, n)
  | [.integer n, .operator .minus] => do return (← lineNumber n, maxLineNumber)
  | [.unary .minus, .integer m] => do return (0, ← lineNumber m)
  | [.integer n, .operator .minus, .integer m] => do return (← lineNumber n, ← lineNumber m)
  | _ => .error (.because .badSyntax "BAD LINE RANGE")

def list (tokens : List Token) : Run Unit := do
  let (first, last) ← lineRange tokens
  let lines := (← get).variableModule.listing.range first last
  Run.printLines (lines.map fun (n, text) => Listing.listedLine n text)

def delete (tokens : List Token) : Run Unit := do
  if tokens.isEmpty then Run.fail .badSyntax "DELETE NEEDS A RANGE"
  let (first, last) ← lineRange tokens
  Run.updateVariableModule fun mod => { mod with listing := mod.listing.eraseRange first last }

def new : Run Unit := do
  Run.updateVariableModule Module.cleared
  Run.updateCodeModule fun mod => { mod with pc := .atEnd }

end LineBasic.Statement
