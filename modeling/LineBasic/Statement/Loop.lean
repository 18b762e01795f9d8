import LineBasic.Expression.Place

/-!
# Loops

`FOR` and `NEXT`. The body of a loop runs at least once. A loop over a variable ends an older one
over the same variable, with all loops inside it; loops below the latest subroutine call are out
of reach.
-/

set_option autoImplicit false

namespace LineBasic.Statement

def expectedLoopVariable : Fault := .because .badSyntax "EXPECTED LOOP VARIABLE"

def loopVariable : List Token → Run (ModuleId × String × List Token)
  | [] => throw expectedLoopVariable
  | t :: ts => do
    if !t.startsName then throw expectedLoopVariable
    let home ← qualifiedModule t
    let (ref, rest) ← Reference.split expectedName (t :: ts)
    match ref.args with
    | none =>
      Run.updateModule home fun mod => { mod with vars := mod.vars.touch ref.name }
      return (home, ref.name, rest)
    | some inner =>
      let index ← evaluateSubscripts inner
      let vars := ((← get).moduleAt home).vars
      if vars.hasArray ref.name then
        let _ ← vars.arrayOffset ref.name index
      throw expectedLoopVariable

def loopStart (tokens : List Token) : Run (Value × List Token) := do
  let (items, taken) ← evaluate tokens
  match tokens.drop taken with
  | .word .TO :: rest => return (← Item.single items, rest)
  | _ => Run.fail .badSyntax "EXPECTED TO"

def loopLimit (tokens : List Token) : Run (Float × List Token) := do
  let (items, taken) ← evaluate tokens
  return (← (← Item.single items).toReal, tokens.drop taken)

def loopStep : List Token → Run Float
  | [] => return 1
  | .word .STEP :: rest => do (← Item.single (← evaluateAll rest)).toReal
  | _ => throw bareSyntax

def reachableLoops (mod : Module) : List ForLoop := mod.loops.toList.drop mod.loopFloor

def endLoopsOver (home : ModuleId) (name : String) (mod : Module) : Module :=
  match (reachableLoops mod).findIdx? (·.isOver home name) with
  | some i => { mod with loops := mod.loops.truncate (mod.loopFloor + i) }
  | none => mod

def beginLoop (tokens : List Token) : Run Unit := do
  let (home, name, rest) ← loopVariable tokens
  if Kind.ofName name = .text then Run.fail .typeMismatch "TEXT LOOP VARIABLE"
  let (start, rest) ← loopStart (← afterEqual rest)
  let (limit, rest) ← loopLimit rest
  let step ← loopStep rest
  (Place.scalar home name).store start
  Run.updateCodeModule (endLoopsOver home name)
  let mod := (← get).codeModule
  let loops := mod.loops.push { name, home, limit, step, resume := mod.pc }
  Run.updateCodeModule fun mod => { mod with loops }
  match loops.overflow? with
  | some f => throw f
  | none => return

def nextTargets : List Token → Run (List (ModuleId × String))
  | [] => return []
  | [.ident name] => do return [((← get).scopes.variableModule, name)]
  | .ident name :: .comma :: ts => do
    let home := (← get).scopes.variableModule
    return (home, name) :: (← nextTargets ts)
  | [.qualifier q, .ident name] => do return [(← Run.findModule q, name)]
  | .qualifier q :: .ident name :: .comma :: ts => do
    let home ← Run.findModule q
    return (home, name) :: (← nextTargets ts)
  | .qualifier q :: _ => do
    let _ ← Run.findModule q
    throw bareSyntax
  | _ => throw bareSyntax

def passed (step limit x : Float) : Bool :=
  if 0 < step then decide (limit < x) else if step < 0 then decide (x < limit) else true

def stepLoop (p : ForLoop → Bool) : Run Bool := do
  let mod := (← get).codeModule
  let inside := (reachableLoops mod).reverse
  match inside.findIdx? p, inside.find? p with
  | some i, some l =>
    Run.updateCodeModule fun mod => { mod with loops := mod.loops.truncate (mod.loops.size - i) }
    let before := ((← get).moduleAt l.home).vars.fetch l.name
    (Place.scalar l.home l.name).store (← Value.apply .plus before (.real l.step))
    let now ← (((← get).moduleAt l.home).vars.fetch l.name).toReal
    if passed l.step l.limit now then
      Run.updateCodeModule fun mod => { mod with loops := mod.loops.pop.2 }
      return true
    else
      Run.updateCodeModule fun mod => { mod with pc := l.resume }
      return false
  | _, _ => throw (.plain .nextWithoutFor)

def stepLoops : List (ModuleId × String) → Run Unit
  | [] => return
  | (home, name) :: more => do
    if ← stepLoop (·.isOver home name) then stepLoops more

def endLoop (tokens : List Token) : Run Unit := do
  if tokens.isEmpty then
    let _ ← stepLoop fun _ => true
  else stepLoops (← nextTargets tokens)

end LineBasic.Statement
