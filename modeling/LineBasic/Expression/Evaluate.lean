import LineBasic.Expression.Frame
import LineBasic.Expression.Literal
import LineBasic.Expression.Reference
import LineBasic.Function

/-!
# Evaluation

An expression list is evaluated from left to right in one pass over its tokens. At the top level
commas and semicolons separate values, and so does a missing operator; every value is handed on as
soon as it is complete. The pass stops at a keyword or at a parenthesis that was not opened.

A defined function is called by putting its arguments in place of its parameters and evaluating
the result. Calls nest to a fixed depth, and evaluation is by recursion on the depth that is left
and then on the number of tokens.
-/

set_option autoImplicit false

namespace LineBasic

abbrev Call := ModuleId → String → List Value → Run Value

structure Scan where
  frame : Frame := {}
  /-- Parentheses that are open. -/
  depth : Nat := 0
  /-- Whether the token before completed an operand. -/
  operandDone : Bool := false
  /-- Whether the next name is that of a function after `FN`. -/
  fnCall : Bool := false
  /-- What has been handed on, in order. -/
  items : List Item := []

def Token.startsOperand : Token → Bool
  | number _ | integer _ | string _ | literal _ => true
  | ident _ | qualifier _ | openParen | unary _ => true
  | word w => w == .FN
  | _ => false

def emitAll (emit : Item → Run Unit) : List Item → Run Unit
  | [] => pure ()
  | item :: items => do
    emit item
    emitAll emit items

namespace Scan

def separate (emit : Item → Run Unit) (s : Scan) (mark : String) : Run Scan := do
  let items := (← s.frame.flush) ++ [.separator mark]
  emitAll emit items
  return { s with frame := {}, operandDone := false, items := s.items ++ items }

def beforeToken (emit : Item → Run Unit) (s : Scan) (t : Token) : Run Scan :=
  if t.startsOperand && s.operandDone then
    if 0 < s.depth then throw missingOperator else s.separate emit ";"
  else pure s

def withValue (s : Scan) (v : Value) : Except Fault Scan := do
  return { s with frame := ← s.frame.pushValue v, operandDone := true }

def finish (emit : Item → Run Unit) (s : Scan) : Run (List Item) := do
  if s.fnCall then Run.fail .badSyntax "FN WITHOUT NAME"
  let items ← s.frame.flush
  emitAll emit items
  return s.items ++ items

/-- What a token that is no name does to the pass. No answer means that the pass ends before it. -/
def step (emit : Item → Run Unit) (s : Scan) : Token → Run (Option Scan)
  | .number text => do return some (← s.withValue (← numberValue text))
  | .integer text => do return some (← s.withValue (← integerValue text))
  | .string text => do return some (← s.withValue (.text text))
  | .literal v => do return some (← s.withValue v)
  | .word w => return if w = .FN then some { s with fnCall := true } else none
  | .unary op => do return some { s with frame := ← s.frame.pushPending (.prefixed op) }
  | .comma =>
    if s.depth = 0 then some <$> s.separate emit ","
    else Run.fail .badSyntax "COMMA INSIDE PARENTHESES"
  | .operator op =>
    if s.depth = 0 ∧ op = .semicolon then some <$> s.separate emit ";"
    else if s.operandDone then do
      return some { s with frame := ← s.frame.pushOperator op, operandDone := false }
    else throw missingOperand
  | .openParen => do
    return some { s with frame := ← s.frame.pushPending .paren, depth := s.depth + 1 }
  | .closeParen =>
    if s.depth = 0 then return none
    else if s.operandDone then do
      return some { s with frame := ← s.frame.closeParen, depth := s.depth - 1 }
    else throw missingOperand
  | .command _ | .fileHandle _ => Run.fail .badSyntax "UNEXPECTED TOKEN IN EXPRESSION"
  | .ident _ | .qualifier _ => return none

end Scan

def qualifiedModule : Token → Run ModuleId
  | .qualifier name => Run.findModule name
  | _ => return (← get).scopes.variableModule

def subscripts : List Value → Except Fault (List Nat)
  | [] => .ok []
  | v :: vs => do
    let n ← v.toInt
    if n < 0 then .error (.because .badSubscript "NEGATIVE SUBSCRIPT")
    else return n.toInt.toNat :: (← subscripts vs)

def scalarValue (home : ModuleId) (name : String) : Run Value := do
  Run.updateModule home fun mod => { mod with vars := mod.vars.touch name }
  return ((← get).moduleAt home).vars.fetch name

def elementValue (home : ModuleId) (name : String) (args : List Value) : Run Value := do
  let index ← subscripts args
  let vars := ((← get).moduleAt home).vars
  vars.fetchElement name (← vars.arrayOffset name index)

def functionKey (fnCall : Bool) (name : String) : String := if fnCall then "FN" ++ name else name

def plainOperand (call : Call) (fnCall : Bool) (home : ModuleId) (name : String) : Run Value := do
  let key := functionKey fnCall name
  if fnCall || ((← get).moduleAt home).functions.contains key then call home key []
  else scalarValue home name

def appliedOperand (call : Call) (fnCall : Bool) (home : ModuleId) (name : String)
    (args : List Value) : Run Value := do
  let m ← get
  let key := functionKey fnCall name
  if !fnCall && (m.moduleAt home).vars.hasArray name then elementValue home name args
  else match if fnCall then none else m.registry.functions.get? name with
    | some f => f.call args
    | none =>
      if (m.moduleAt home).functions.contains key then call home key args
      else throw (.plain .undefinedVariable)

def expectedName : Fault := .because .badSyntax "EXPECTED NAME"

def ignore (_ : Item) : Run Unit := pure ()

/-- One pass over a token list. The answer is what was handed on, and the tokens that are left. -/
def scan (call : Call) (emit : Item → Run Unit) (s : Scan) (tokens : List Token) :
    Run (List Item × List Token) :=
  match tokens with
  | [] => do return (← s.finish emit, [])
  | t :: ts => do
    let s ← s.beforeToken emit t
    match t with
    | .ident _ | .qualifier _ =>
      let home ← qualifiedModule t
      match h : Reference.split expectedName (t :: ts) with
      | .error f => throw f
      | .ok (ref, rest) =>
        have : rest.length < (t :: ts).length := (Reference.length_split h).1
        let v ← match ha : ref.args with
          | none => plainOperand call s.fnCall home ref.name
          | some inner => do
            have : inner.length < (t :: ts).length := (Reference.length_split h).2 inner ha
            let args ←
              if inner.isEmpty then pure []
              else do
                let (items, after) ← scan call ignore {} inner
                if !after.isEmpty then Run.syntaxError
                pure (Item.values items)
            appliedOperand call s.fnCall home ref.name args
        let s ← s.withValue v
        scan call emit { s with fnCall := false } rest
    | _ =>
      match ← s.step emit t with
      | some s => scan call emit s ts
      | none => do return (← s.finish emit, t :: ts)
termination_by tokens.length
decreasing_by all_goals (simp only [List.length_cons] at *; omega)

def evaluateWith (call : Call) (emit : Item → Run Unit) (tokens : List Token) :
    Run (List Item × Nat) := do
  let (items, rest) ← scan call emit {} tokens
  return (items, tokens.length - rest.length)

def evaluateSingleWith (call : Call) (tokens : List Token) : Run Value := do
  let (items, taken) ← evaluateWith call ignore tokens
  if taken ≠ tokens.length then Run.syntaxError
  Item.single items

def Value.token : Value → Token
  | .integer n => .integer (toString n.toInt)
  | .real x => .literal (.real x)
  | .text s => .string s

def substitute (args : List (String × Value)) (qualified : Bool) :
    List Token → Except Fault (List Token)
  | [] => .ok []
  | .ident name :: ts => do
    match if qualified then none else Table.find? name args with
    | some v => return (← Value.coerceFor name v).token :: (← substitute args false ts)
    | none => return .ident name :: (← substitute args false ts)
  | .qualifier name :: ts => do return .qualifier name :: (← substitute args true ts)
  | t :: ts => do return t :: (← substitute args false ts)

def maxCallDepth : Nat := 64

/-- A call inside which `n` more may be under way. The depth is handed down and not kept in the
machine, so it is the same again when a call has failed or come back. -/
def callDefined (n : Nat) : Call := fun home key args => do
  match ((← get).moduleAt home).functions.get? key with
  | none => Run.fail .undefinedVariable "FUNCTION NOT DEFINED"
  | some f =>
    if f.params.length ≠ args.length then throw (.plain .argumentCount)
    match n with
    | 0 => Run.fail .formulaTooComplex "FN NESTED TOO DEEP"
    | k + 1 =>
      let body ← substitute (f.params.zip args) false f.body
      evaluateSingleWith (callDefined k) body

def evaluateEmitting (emit : Item → Run Unit) (tokens : List Token) : Run (List Item × Nat) :=
  evaluateWith (callDefined maxCallDepth) emit tokens

def evaluate (tokens : List Token) : Run (List Item × Nat) := evaluateEmitting ignore tokens

def evaluateAll (tokens : List Token) : Run (List Item) := do
  let (items, taken) ← evaluate tokens
  if taken ≠ tokens.length then Run.syntaxError
  return items

def evaluateSingle (tokens : List Token) : Run Value :=
  evaluateSingleWith (callDefined maxCallDepth) tokens

def evaluateSubscripts (tokens : List Token) : Run (List Nat) := do
  if tokens.isEmpty then return []
  subscripts (Item.values (← evaluateAll tokens))

end LineBasic
