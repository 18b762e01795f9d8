import LineBasic.Expression.Evaluate

/-!
# Jumps

`GOTO`, `GOSUB`, `RETURN`, `ON`, `RUN` and `END`. A jump first lets the code follow the variable
scope, so after `MODULE` it goes to a line of that module. A subroutine call that enters a module
returns by leaving it; the calling module then goes on from where it stands.
-/

set_option autoImplicit false

namespace LineBasic.Statement

def lineArgument (tokens : List Token) : Run LineNumber := do
  return (← (← evaluateSingle tokens).toInt).toInt

def undefinedStatement : Fault := .plain .undefinedStatement

def isTarget (mod : Module) (n : LineNumber) : Bool := 0 ≤ n && mod.listing.contains n

def jumpTo (n : LineNumber) : Run Unit := do
  let _ ← Run.enterCode
  if !isTarget (← get).codeModule n then throw undefinedStatement
  Run.updateCodeModule fun mod => { mod with pc := .atLine n }

def callLine (n : LineNumber) : Run Unit := do
  let caller := (← get).codeModule
  let entered ← Run.enterCode
  let mod := (← get).codeModule
  if !isTarget mod n then throw undefinedStatement
  let frame : Gosub :=
    if entered then ⟨.atEnd, mod.loops.size⟩ else ⟨caller.pc, caller.loops.size⟩
  let gosubs := mod.gosubs.push frame
  Run.updateCodeModule fun mod => { mod with gosubs }
  match gosubs.overflow? with
  | some f => throw f
  | none => Run.updateCodeModule fun mod => { mod with pc := .atLine n }

def returnFromCall : Run Unit := do
  match (← get).codeModule.gosubs.pop with
  | (.error _, _) => throw (.plain .returnWithoutGosub)
  | (.ok frame, gosubs) =>
    Run.updateCodeModule fun mod =>
      { mod with gosubs, loops := mod.loops.truncate frame.loops, pc := frame.resume }
    if frame.resume.isEnd then Run.endModule

def jumpList (isCall : Bool) (selector : Int64) (tokens : List Token) : Run Unit := do
  let lines := Item.values (← evaluateAll tokens)
  if selector < 1 then return
  match lines[selector.toInt.toNat - 1]? with
  | none => return
  | some v =>
    let n := (← v.toInt).toInt
    if isCall then callLine n else jumpTo n

def onSelector (tokens : List Token) : Run Unit := do
  let (items, taken) ← evaluate tokens
  let selector ← (← Item.single items).toInt
  match tokens.drop taken with
  | .word .GOTO :: rest => jumpList false selector rest
  | .word .GOSUB :: rest => jumpList true selector rest
  | _ => Run.fail .badSyntax "EXPECTED GOTO OR GOSUB"

def startProgram (start : Option LineNumber) : Run Unit := do
  Run.updateVariableModule fun mod => { mod with autoStep := 0 }
  let _ ← Run.enterCode
  Run.updateCodeModule fun mod =>
    { mod with loops := mod.loops.clear, gosubs := mod.gosubs.clear, data := {} }
  match (← get).codeModule.listing.firstFrom? (start.getD 0) with
  | some n => Run.updateCodeModule fun mod => { mod with pc := .atLine n }
  | none => if start.isSome then throw undefinedStatement else Run.endModule

def runProgram (tokens : List Token) : Run Unit := do
  if tokens.isEmpty then startProgram none else startProgram (some (← lineArgument tokens))

def skipLine : Run Unit :=
  Run.updateCodeModule fun mod =>
    match mod.pc.line with
    | none => mod
    | some n =>
      let size := ((mod.listing.get? n).map fun text => Text.byteLength text.toList).getD 0
      { mod with pc := { mod.pc with offset := size } }

end LineBasic.Statement
