import LineBasic.Expression.Place
import LineBasic.Statement.Input
import LineBasic.Using.Render

/-!
# Printing

`PRINT`, `PRINT #` and `PRINT USING`. Items are printed as soon as they are evaluated, so that
functions of the column see what stands before them. While a statement prints to a file, nothing
reaches the screen.
-/

set_option autoImplicit false

namespace LineBasic.Statement

def tabWidth : Nat := 10

def printedItem (toFile : Bool) (column : Nat) : Item → String
  | .value (.text s) => s
  | .value v => " " ++ v.display ++ " "
  | .separator mark =>
    if mark = "," then
      if toFile then "    " else Text.spaces (tabWidth - column % tabWidth)
    else ""

def printItem (item : Item) : Run Unit := do
  let m ← get
  Run.print (printedItem m.printFile.isSome m.column item)

def endsLine (items : List Item) : Bool := !(items.getLast?.any Item.isSeparator)

def printItems (tokens : List Token) : Run Unit := do
  let (items, taken) ← evaluateEmitting printItem tokens
  if taken ≠ tokens.length then throw bareSyntax
  if endsLine items then Run.print "\n"

def printUsing (tokens : List Token) : Run Unit := do
  let items ← evaluateAll tokens
  match items with
  | [] => throw bareSyntax
  | .value (.text format) :: more =>
    Run.print (← Using.render format (Item.values more))
    if endsLine items then Run.print "\n"
  | _ => Run.fail .typeMismatch "USING NEEDS A FORMAT STRING"

def printList : List Token → Run Unit
  | .word .USING :: tokens => printUsing tokens
  | tokens => printItems tokens

def printingTo {α : Type} (file : Option Nat) (act : Run α) : Run α := fun m =>
  match act { m with printFile := file } with
  | .ok a m => .ok a { m with printFile := none }
  | .error f m => .error f { m with printFile := none }

def print : List Token → Run Unit
  | .fileHandle digits :: rest => do
    let handle ← handleOf digits
    match (← get).files.get? handle with
    | some (.writing _ _) => printingTo (some handle) (printList (afterHandle rest))
    | _ => throw (.plain .illegalDevice)
  | tokens => printingTo none (printList tokens)

end LineBasic.Statement
