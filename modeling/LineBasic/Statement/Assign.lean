import LineBasic.Expression.Place

/-!
# Variables and functions

`LET`, `DIM`, `DEF`, `CLR` and `DUMP`. Each takes the tokens after its keyword.
-/

set_option autoImplicit false

namespace LineBasic.Statement

def assign (tokens : List Token) : Run Unit := do
  let (place, rest) ← takeTarget tokens
  let items ← evaluateAll (← afterEqual rest)
  place.store (← Item.single items)

def dimEntry (home : ModuleId) (ref : Reference) : Run Unit := do
  match ref.args with
  | some inner => dimension home ref.name (← evaluateSubscripts inner)
  | none => (Place.scalar home ref.name).store (Value.zeroFor ref.name)

def dim (tokens : List Token) : Run Unit := do
  let _ ← visitNames { missing := bareSyntax } dimEntry tokens

def parameters : List Token → Option (List String)
  | [] => some []
  | [.ident p] => some [p]
  | .ident p :: .comma :: t :: ts => (parameters (t :: ts)).map (p :: ·)
  | _ => none

def takeParameters : List Token → Except Fault (List String × List Token)
  | .openParen :: ts =>
    match upToClosing 0 ts with
    | none => .error missingClosing
    | some (inner, rest) =>
      match parameters inner with
      | some ps => .ok (ps, rest)
      | none => .error (.because .badSyntax "BAD PARAMETER LIST")
  | ts => .ok ([], ts)

def defineAs (fnCall : Bool) : List Token → Run Unit
  | .ident name :: ts => do
    let (params, rest) ← takeParameters ts
    let body ← afterEqual rest
    if body.isEmpty then Run.fail .badSyntax "EMPTY FUNCTION BODY"
    Run.updateVariableModule fun mod =>
      { mod with functions := mod.functions.insert (functionKey fnCall name) { params, body } }
  | _ => Run.fail .badSyntax "EXPECTED FUNCTION NAME"

def define : List Token → Run Unit
  | .word .FN :: ts => defineAs true ts
  | ts => defineAs false ts

def clearVariables : Run Unit :=
  Run.updateVariableModule fun mod => { mod with vars := {}, loops := mod.loops.clear }

def dumpScalar (name : String) : Value → String
  | .text s => name ++ " = \"" ++ s ++ "\"\n"
  | v => name ++ " = " ++ v.display ++ "\n"

def dumpArray (name : String) (a : DimArray) : String :=
  name ++ "(" ++ String.intercalate "," (a.bounds.map toString) ++ ")\n"

def dumpText (mod : Module) : String :=
  "MODULE " ++ mod.name ++ "\n" ++
    String.join (mod.vars.scalars.entries.map fun (name, v) => dumpScalar name v) ++
    String.join (mod.vars.arrays.entries.map fun (name, a) => dumpArray name a)

def dump : Run Unit := do Run.print (dumpText (← get).variableModule)

end LineBasic.Statement
