import LineBasic.Operator
import LineBasic.Word

/-!
# Tokens

A statement is a list of tokens. `qualifier` is the module name before a point, `fileHandle` the
number after a hash sign. `literal` is never written in a program: it is a real that stands in place
of a parameter while a defined function is evaluated.
-/

set_option autoImplicit false

namespace LineBasic

inductive Token where
  | number (text : String)
  | integer (text : String)
  | string (text : String)
  | ident (name : String)
  | comma
  | operator (op : Operator)
  | unary (op : Operator)
  | word (w : Word)
  | command (name : String)
  | openParen
  | closeParen
  | qualifier (name : String)
  | fileHandle (digits : String)
  | literal (v : Value)
  deriving DecidableEq

namespace Token

def display : Token → String
  | number s | integer s | ident s | command s => s
  | string s => "\"" ++ s ++ "\""
  | comma => ","
  | operator op | unary op => op.lexeme
  | word w => w.text
  | openParen => "("
  | closeParen => ")"
  | qualifier s => s ++ "."
  | fileHandle s => "#" ++ s
  | literal v => v.display

def expectsOperand : Token → Bool
  | operator _ | unary _ | word _ | openParen | comma | command _ => true
  | _ => false

def isPrefixAt (operandExpected : Bool) : Operator → Bool
  | .NOT => true
  | .plus | .minus => operandExpected
  | _ => false

def markUnaryFrom (operandExpected : Bool) : List Token → List Token
  | [] => []
  | operator op :: rest =>
    (if isPrefixAt operandExpected op then unary op else operator op) :: markUnaryFrom true rest
  | t :: rest => t :: markUnaryFrom t.expectsOperand rest

def markUnary (tokens : List Token) : List Token := markUnaryFrom true tokens

@[simp] theorem length_markUnaryFrom (b : Bool) (tokens : List Token) :
    (markUnaryFrom b tokens).length = tokens.length := by
  fun_induction markUnaryFrom b tokens <;> simp_all

end Token

end LineBasic
