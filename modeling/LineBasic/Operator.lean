import LineBasic.Value

/-!
# Operators

The operators of expressions, how tightly each binds, and what each does to values. Integers stay
integers as long as the result fits; otherwise, and with a real on either side, arithmetic is that
of reals. With a text on either side the other value is taken as it is printed, and only joining
and comparing are possible. Truth is -1 and falsehood 0, so the bitwise connectives serve as
logical ones.
-/

set_option autoImplicit false

namespace LineBasic

inductive Operator where
  | power
  | times
  | divide
  | plus
  | minus
  | equal
  | notEqual
  | less
  | lessEqual
  | greater
  | greaterEqual
  | NOT
  | AND
  | OR
  | semicolon
  deriving DecidableEq, Repr

namespace Operator

def lexeme : Operator → String
  | power => "^"
  | times => "*"
  | divide => "/"
  | plus => "+"
  | minus => "-"
  | equal => "="
  | notEqual => "<>"
  | less => "<"
  | lessEqual => "<="
  | greater => ">"
  | greaterEqual => ">="
  | NOT => "NOT"
  | AND => "AND"
  | OR => "OR"
  | semicolon => ";"

def ofLexeme? : List Char → Option Operator
  | ['^'] => some power
  | ['*'] => some times
  | ['/'] => some divide
  | ['+'] => some plus
  | ['-'] => some minus
  | ['='] => some equal
  | ['<', '>'] => some notEqual
  | ['>', '<'] => some notEqual
  | ['<'] => some less
  | ['<', '='] => some lessEqual
  | ['=', '<'] => some lessEqual
  | ['>'] => some greater
  | ['>', '='] => some greaterEqual
  | ['=', '>'] => some greaterEqual
  | ['N', 'O', 'T'] => some NOT
  | ['A', 'N', 'D'] => some AND
  | ['O', 'R'] => some OR
  | [';'] => some semicolon
  | _ => none

theorem ofLexeme?_lexeme (op : Operator) : ofLexeme? op.lexeme.toList = some op := by
  cases op <;> decide

def precedence : Operator → Nat
  | semicolon => 1
  | AND | OR => 2
  | notEqual | less | lessEqual | greater | greaterEqual => 3
  | equal => 4
  | plus | minus => 5
  | times | divide => 6
  | power => 7
  | NOT => 8

end Operator

namespace Value

def truth (b : Bool) : Value := integer (if b then -1 else 0)

def applyReals (op : Operator) (l r : Float) : Except Fault Value :=
  match op with
  | .plus => .ok (real (l + r))
  | .minus => .ok (real (l - r))
  | .times => .ok (real (l * r))
  | .divide => .ok (real (l / r))
  | .power => .ok (real (Float.pow l r))
  | .equal => .ok (truth (l == r))
  | .notEqual => .ok (truth (!(l == r)))
  | .less => .ok (truth (decide (l < r)))
  | .lessEqual => .ok (truth (decide (l ≤ r)))
  | .greater => .ok (truth (decide (r < l)))
  | .greaterEqual => .ok (truth (decide (r ≤ l)))
  | .AND => .ok (integer (Number.truncate l &&& Number.truncate r))
  | .OR => .ok (integer (Number.truncate l ||| Number.truncate r))
  | .semicolon | .NOT => .error (.plain .badSyntax)

def inRangeOr (n : Int) (otherwise : Except Fault Value) : Except Fault Value :=
  match Number.int64OfInt? n with
  | some v => .ok (integer v)
  | none => otherwise

def applyIntegers (op : Operator) (l r : Int64) : Except Fault Value :=
  let asReals := applyReals op (Number.realOfInt l) (Number.realOfInt r)
  match op with
  | .plus => inRangeOr (l.toInt + r.toInt) asReals
  | .minus => inRangeOr (l.toInt - r.toInt) asReals
  | .times => inRangeOr (l.toInt * r.toInt) asReals
  | .divide => asReals
  | .power =>
    .ok (integer (Number.truncate (Float.pow (Number.realOfInt l) (Number.realOfInt r))))
  | .equal => .ok (truth (decide (l = r)))
  | .notEqual => .ok (truth (decide (l ≠ r)))
  | .less => .ok (truth (decide (l < r)))
  | .lessEqual => .ok (truth (decide (l ≤ r)))
  | .greater => .ok (truth (decide (r < l)))
  | .greaterEqual => .ok (truth (decide (r ≤ l)))
  | .AND => .ok (integer (l &&& r))
  | .OR => .ok (integer (l ||| r))
  | .semicolon | .NOT => .error (.plain .badSyntax)

def applyTexts (op : Operator) (l r : String) : Except Fault Value :=
  match op with
  | .plus | .semicolon => .ok (text (l ++ r))
  | .equal => .ok (truth (decide (l = r)))
  | .notEqual => .ok (truth (decide (l ≠ r)))
  | .less => .ok (truth (decide (l < r)))
  | .lessEqual => .ok (truth (!decide (r < l)))
  | .greater => .ok (truth (decide (r < l)))
  | .greaterEqual => .ok (truth (!decide (l < r)))
  | .minus | .times | .divide | .power | .AND | .OR =>
    .error (.because .typeMismatch "ARITHMETIC ON TEXT")
  | .NOT => .error (.plain .badSyntax)

def apply (op : Operator) : Value → Value → Except Fault Value
  | integer l, integer r => applyIntegers op l r
  | real l, real r => applyReals op l r
  | integer l, real r => applyReals op (Number.realOfInt l) r
  | real l, integer r => applyReals op l (Number.realOfInt r)
  | text l, r => applyTexts op l r.display
  | l, text r => applyTexts op l.display r

def negate (v : Value) : Except Fault Value := apply .minus (real 0) v

def complement (v : Value) : Except Fault Value := v.toInt.map fun n => integer (~~~n)

def applyPrefix (op : Operator) (v : Value) : Except Fault Value :=
  match op with
  | .minus => v.negate
  | .plus => .ok v
  | _ => v.complement

end Value

end LineBasic
