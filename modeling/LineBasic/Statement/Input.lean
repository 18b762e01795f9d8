import LineBasic.Expression.Place
import LineBasic.Pieces

/-!
# Input

`INPUT`, `INPUT #`, `GET` and `GETKEY`. An input line is cut at its commas into fields, and fields
are given to the places of the statement in order. When they run out another line is read, and
when one does not fit its place all is asked for again. Each round takes at least one line, so the
number of lines that wait bounds the rounds.
-/

set_option autoImplicit false

namespace LineBasic.Statement

def unquoted (cs : List Char) : List Char :=
  match cs with
  | '"' :: inner =>
    match inner.reverse with
    | '"' :: body => body.reverse
    | _ => cs
  | _ => cs

def fieldText (cs : List Char) : String :=
  String.ofList (unquoted (Text.dropTrailing Text.isBlank (cs.dropWhile Text.isBlank)))

def fields (line : String) : List String := (pieces ',' line.toList).map fieldText

def storeField (place : Place) (field : String) : Run Unit := do
  if place.isText then place.store (.text field)
  else place.store (.real (← (Value.text field).toReal))

def readFields : Run (List String) := do
  let line ← Run.readLine
  return if Text.isBlankText line then [] else fields line

def nextField : Nat → List String → Run (String × List String)
  | _, field :: more => return (field, more)
  | 0, [] => do
    Run.print "?? "
    throw Host.noMoreInput
  | n + 1, [] => do
    Run.print "?? "
    nextField n (← readFields)

def waitingLines : Run Nat := return (← get).host.input.length

def fillPlaces (left : List String) : List Place → Run Unit
  | [] => return
  | place :: places => do
    let (field, left) ← nextField (← waitingLines) left
    storeField place field
    fillPlaces left places

def ask (prompt : String) (places : List Place) : Nat → Run Unit
  | 0 => do
    Run.print prompt
    throw Host.noMoreInput
  | n + 1 => do
    Run.print prompt
    try fillPlaces (← readFields) places
    catch f =>
      if f.isBreak then throw f
      Run.print "?REDO FROM START\n"
      ask prompt places n

def inputPlaces (tokens : List Token) : Run (List Place) :=
  visitNames { notName := .because .badSyntax "EXPECTED VARIABLE", openEnded := false } targetPlace
    tokens

def askFor (prompt : String) (tokens : List Token) : Run Unit := do
  let places ← inputPlaces tokens
  ask (prompt ++ "? ") places (← waitingLines)

def handleOf (digits : String) : Except Fault Nat :=
  match Number.lineNumberOf? digits.toList with
  | some n => .ok n.toNat
  | none => .error (.plain .illegalDevice)

def afterHandle : List Token → List Token
  | .comma :: rest => rest
  | rest => rest

/-- The next of the fields, of the next lines of a file if there is none left. The answer holds the
fields and lines left. -/
def nextFileField : List String → List String → Option (String × List String × List String)
  | field :: more, lines => some (field, more, lines)
  | [], [] => none
  | [], line :: lines =>
    match fields line with
    | field :: more => some (field, more, lines)
    | [] => nextFileField [] lines

def fillFromFile (handle : Nat) (left : List String) : List Place → Run Unit
  | [] => return
  | place :: places => do
    match left, (← get).files.get? handle with
    | field :: more, _ =>
      storeField place field
      fillFromFile handle more places
    | [], some (.reading lines) =>
      match nextFileField [] lines with
      | none =>
        modify fun m => { m with files := m.files.insert handle (.reading []) }
        Run.fail .outOfData "END OF FILE"
      | some (field, more, lines) =>
        modify fun m => { m with files := m.files.insert handle (.reading lines) }
        storeField place field
        fillFromFile handle more places
    | [], _ => throw (.plain .illegalDevice)

def input : List Token → Run Unit
  | .fileHandle digits :: rest => do
    let handle ← handleOf digits
    fillFromFile handle [] (← inputPlaces (afterHandle rest))
  | .string text :: .operator .semicolon :: rest => askFor text rest
  | .string text :: .comma :: rest => askFor (text ++ "\n") rest
  | .string _ :: _ => throw bareSyntax
  | tokens => askFor "" tokens

def keyValue (asText : Bool) (key : Option Char) : Value :=
  if asText then .text (String.ofList key.toList)
  else match key with
    | some c => .integer (if c.isDigit then Int64.ofNat (Number.digitValue c) else 0)
    | none => .integer 0

def readKey : Run Char := do
  let (answer, host) := (← get).host.readKey
  modify fun m => { m with host }
  answer

def getKey (wait : Bool) (tokens : List Token) : Run Unit := do
  let (place, rest) ← takeTarget tokens
  if !rest.isEmpty then throw bareSyntax
  if wait || (← get).host.keyAvailable then
    let key ← readKey
    place.store (keyValue place.isText (some key))
  else place.store (keyValue place.isText none)

end LineBasic.Statement
