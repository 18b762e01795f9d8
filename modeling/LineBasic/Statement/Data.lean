import LineBasic.Expression.Place
import LineBasic.Lexer
import LineBasic.Pieces
import LineBasic.Statement.Jump

/-!
# Data

`DATA`, `READ` and `RESTORE`. The data of a program are the items of all its `DATA` statements in
the order of the lines. `READ` takes them one by one and lexes each line anew, so it follows
changes of the program.
-/

set_option autoImplicit false

namespace LineBasic.Statement

def dataValue : List Token → Except Fault Value
  | [] => .ok (.text "")
  | [.string s] => .ok (.text s)
  | [.integer s] => integerValue s
  | [.number s] => numberValue s
  | [.unary .minus, .integer s] => do (← integerValue s).negate
  | [.unary .minus, .number s] => do (← numberValue s).negate
  | [.unary .plus, .integer s] => integerValue s
  | [.unary .plus, .number s] => numberValue s
  | tokens => .ok (.text (String.intercalate " " (tokens.map Token.display)))

def statementData : List Token → Except Fault (List Value)
  | .word .DATA :: tokens => (pieces .comma tokens).mapM dataValue
  | _ => .ok []

def lineData (l : Lexicon) (o : LexOptions) (text : List Char) : Except Fault (List Value) :=
  match h : Lexer.statement l o.packed o.dotAsZero text with
  | .error f => .error f
  | .ok ([], _) => .ok []
  | .ok (t :: ts, rest) =>
    have := Lexer.length_statement_lt h (by simp)
    match statementData (Token.markUnary (t :: ts)) with
    | .error f => .error f
    | .ok items => (lineData l o rest).map (items ++ ·)
termination_by text.length

def outOfData : Fault := .plain .outOfData

def readFrom (index : Nat) : List (LineNumber × String) → Run Value
  | [] => throw outOfData
  | (n, text) :: more => do
    Run.updateCodeModule fun mod => { mod with data := ⟨some n, index⟩ }
    let m ← get
    let items ← lineData m.lexicon m.options text.toList
    match items[index]? with
    | some v =>
      Run.updateCodeModule fun mod => { mod with data := ⟨some n, index + 1⟩ }
      return v
    | none => readFrom 0 more

def linesFrom (l : Listing) (n : LineNumber) : List (LineNumber × String) :=
  (n, (l.get? n).getD "") :: l.range (n + 1) maxLineNumber

def readItem : Run Value := do
  let mod := (← get).codeModule
  match mod.data.line with
  | some n => readFrom mod.data.index (linesFrom mod.listing n)
  | none => readFrom 0 mod.listing.program

def readInto (home : ModuleId) (ref : Reference) : Run Unit := do
  let place ← targetPlace home ref
  let v ← readItem
  if v.isText != place.isText then Run.fail .typeMismatch "DATA TYPE"
  place.store v

def read (tokens : List Token) : Run Unit := do
  if tokens.isEmpty then Run.fail .badSyntax "READ NEEDS A VARIABLE"
  let _ ← visitNames {} readInto tokens

def restore (tokens : List Token) : Run Unit := do
  if tokens.isEmpty then Run.updateCodeModule fun mod => { mod with data := {} }
  else
    let n ← lineArgument tokens
    if !isTarget (← get).codeModule n then throw undefinedStatement
    Run.updateCodeModule fun mod => { mod with data := ⟨some n, 0⟩ }

end LineBasic.Statement
