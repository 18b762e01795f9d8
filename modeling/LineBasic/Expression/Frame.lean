import LineBasic.Token

/-!
# Pending operands and operators

The state of an expression that has been read up to some point: the values that still wait for an
operator, and the operators and open parentheses that still wait for a value. An operator is applied
once the next one binds no tighter. Neither list may grow past its limit.
-/

set_option autoImplicit false

namespace LineBasic

inductive Pending where
  | binary (op : Operator)
  | prefixed (op : Operator)
  | paren
  deriving DecidableEq, Repr

def missingOperand : Fault := .because .badSyntax "MISSING OPERAND"

def missingOperator : Fault := .because .badSyntax "MISSING OPERATOR"

def unclosed : Fault := .because .badSyntax "MISSING CLOSING PARENTHESIS"

namespace Pending

def apply : Pending → List Value → Except Fault (List Value)
  | binary op, r :: l :: vals => (Value.apply op l r).map (· :: vals)
  | prefixed op, v :: vals => (Value.applyPrefix op v).map (· :: vals)
  | paren, _ => .error unclosed
  | _, _ => .error missingOperand

def yieldsTo (op : Operator) : Pending → Bool
  | binary top | prefixed top => op.precedence ≤ top.precedence
  | paren => false

def isParen : Pending → Bool
  | paren => true
  | _ => false

def mark : Pending → Except Fault Item
  | binary op | prefixed op => .ok (.separator op.lexeme)
  | paren => .error unclosed

end Pending

/-- Latest entries first. -/
structure Frame where
  vals : List Value := []
  ops : List Pending := []
  deriving DecidableEq

namespace Frame

def maxPending : Nat := 256

def tooComplex : Fault := .because .formulaTooComplex "EXPRESSION TOO COMPLEX"

def pushValue (f : Frame) (v : Value) : Except Fault Frame :=
  if f.vals.length < maxPending then .ok { f with vals := v :: f.vals } else .error tooComplex

def pushPending (f : Frame) (p : Pending) : Except Fault Frame :=
  if f.ops.length < maxPending then .ok { f with ops := p :: f.ops } else .error tooComplex

def reduceWhile (p : Pending → Bool) (vals : List Value) : List Pending → Except Fault Frame
  | [] => .ok { vals, ops := [] }
  | op :: ops =>
    if p op then
      match op.apply vals with
      | .ok vals => reduceWhile p vals ops
      | .error f => .error f
    else .ok { vals, ops := op :: ops }

def reduce (f : Frame) (p : Pending → Bool) : Except Fault Frame := reduceWhile p f.vals f.ops

def pushOperator (f : Frame) (op : Operator) : Except Fault Frame := do
  (← f.reduce (Pending.yieldsTo op)).pushPending (.binary op)

def closeParen (f : Frame) : Except Fault Frame := do
  let f ← f.reduce fun p => !p.isParen
  match f.ops with
  | .paren :: ops => return { f with ops }
  | _ => .error (.plain .badSyntax)

def flush (f : Frame) : Except Fault (List Item) :=
  if f.vals.isEmpty then f.ops.reverse.mapM Pending.mark
  else do
    match (← f.reduce fun _ => true).vals with
    | [v] => return [.value v]
    | _ => .error missingOperator

end Frame

end LineBasic
