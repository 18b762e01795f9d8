import LineBasic.Function.Arguments
import LineBasic.Listing.File
import LineBasic.Listing.Renumber
import LineBasic.Machine
import LineBasic.Text.Wildcard

/-!
# Commands

The built-in commands. A command gets the evaluated list that follows its name; separators do not
count. A command that fails changes nothing but the screen and the input it has read.
-/

set_option autoImplicit false

namespace LineBasic

namespace BuiltinCommand

def arguments (least most : Nat) (items : List Item) : Except Fault (List Value) :=
  let vs := Item.values items
  if vs.length < least ∨ most < vs.length then .error (.plain .argumentCount) else .ok vs

def noArguments (items : List Item) : Except Fault Unit := (arguments 0 0 items).map fun _ => ()

def oneArgument (items : List Item) : Except Fault Value := Arguments.one (Item.values items)

def integerAt (vs : List Value) (i : Nat) (default : Int) : Except Fault Int :=
  match vs[i]? with
  | some v => v.toInt.map Int64.toInt
  | none => .ok default

def fileName : Value → Except Fault String
  | .text s =>
    if Text.isBlankText s then .error (.because .fileNotFound "EMPTY FILE NAME")
    else .ok (Text.trim s)
  | _ => .error (.because .typeMismatch "FILE NAME MUST BE TEXT")

def handle (v : Value) : Except Fault Nat := do
  let n := (← v.toInt).toInt
  if 1 ≤ n ∧ n ≤ 254 then return n.toNat else .error (.plain .illegalDevice)

def auto (items : List Item) : Run Unit := do
  let step ← integerAt (← arguments 0 1 items) 0 0
  if step < 0 then throw (.plain .illegalQuantity)
  Run.updateVariableModule fun mod => { mod with autoStep := step }

def writeFile (name text : String) : Run Unit :=
  modify fun m => { m with host := m.host.writeFile name text }

def close (items : List Item) : Run Unit := do
  let n ← handle (← oneArgument items)
  match (← get).files.get? n with
  | none => Run.fail .illegalDevice "FILE NOT OPEN"
  | some file =>
    modify fun m => { m with files := m.files.erase n }
    match file with
    | .reading _ => return
    | .writing name text => writeFile name text

def switchFast (on : Bool) (items : List Item) : Run Unit := do
  noArguments items
  Run.updateCodeModule fun mod => { mod with fast := on }

def switchTrace (on : Bool) (items : List Item) : Run Unit := do
  noArguments items
  Run.updateCodeModule fun mod => { mod with trace := on }

def occursIn (pattern text : String) : Bool :=
  Text.Wildcard.isMatch ('*' :: (Text.upperCase pattern).toList ++ ['*'])
    (Text.upperCase text).toList

def find (items : List Item) : Run Unit := do
  match ← oneArgument items with
  | .text pattern =>
    let lines := (← get).variableModule.listing.program.filter fun e => occursIn pattern e.2
    Run.printLines (lines.map fun (n, text) => Listing.listedLine n text)
  | _ => throw (.plain .typeMismatch)

def load (items : List Item) : Run Unit := do
  let name ← fileName (← oneArgument items)
  let listing ← Listing.ofText (← (← get).host.readFile name)
  Run.updateVariableModule fun mod => { mod.cleared with listing, fileName := some name }

def nameAndMode (target : String) : String × String :=
  let mode := target.toList.reverse.takeWhile (· != ',')
  if mode.length < target.length then
    (Text.trim (String.ofList (target.toList.take (target.length - mode.length - 1))),
      Text.upperCase (Text.trim (String.ofList mode.reverse)))
  else (target, "W")

def openFile (items : List Item) : Run Unit := do
  match Item.values items with
  | [device, _, target] =>
    let n ← handle device
    if (← get).files.contains n then Run.fail .illegalDevice "FILE ALREADY OPEN"
    let (name, mode) := nameAndMode (← fileName target)
    let file ←
      if mode = "R" then do
        let text ← (← get).host.readFile name
        pure (OpenFile.reading (Text.lines text))
      else if mode = "W" then pure (OpenFile.writing name "")
      else Run.fail .illegalQuantity "MODE MUST BE R OR W"
    modify fun m => { m with files := m.files.insert n file }
  | _ => throw (.plain .argumentCount)

def poke (items : List Item) : Run Unit := do
  match Item.values items with
  | [address, byte] =>
    let address := (← address.toInt).toInt
    let byte := (← byte.toInt).toInt
    if address < 0 ∨ (memorySize : Int) ≤ address ∨ byte < 0 ∨ 255 < byte then
      throw (.plain .illegalQuantity)
    modify fun m => { m with memory := m.memory.insert address.toNat byte.toNat.toUInt8 }
  | _ => throw (.plain .argumentCount)

def saveAgain (items : List Item) : Run Unit := do
  noArguments items
  let mod := (← get).variableModule
  match mod.fileName with
  | some name => writeFile name mod.listing.toText
  | none => Run.fail .fileNotFound "NO FILE NAME YET"

def quit (items : List Item) : Run Unit := do
  let code ← integerAt (← arguments 0 1 items) 0 0
  modify fun m => { m with exitCode := some (Int32.ofInt code) }

def renumber (items : List Item) : Run Unit := do
  let vs ← arguments 0 4 items
  let request : RenumberRequest :=
    ⟨← integerAt vs 0 10, ← integerAt vs 1 10, ← integerAt vs 2 0, ← integerAt vs 3 0⟩
  let listing ← (← get).variableModule.listing.renumber request
  Run.updateVariableModule fun mod => { mod with listing }

def confirmed (name : String) : Run Bool := do
  if !(← get).host.fileExists name then return true
  Run.print "FILE EXISTS. OVERWRITE (Y/N)?"
  let answer := Text.trim (← Run.readLine)
  return answer == "Y" || answer == "y"

def save (items : List Item) : Run Unit := do
  let name ← fileName (← oneArgument items)
  if ← confirmed name then
    Run.updateVariableModule fun mod => { mod with fileName := some name }
    writeFile name (← get).variableModule.listing.toText

def sleep (items : List Item) : Run Unit := do
  let seconds ← (← oneArgument items).toReal
  if seconds.isNaN || seconds < 0 then throw (.plain .illegalQuantity)
  modify fun m => { m with host := m.host.sleep (seconds * 1000).toUInt64 }

def stop (items : List Item) : Run Unit := do
  noArguments items
  throw (.plain .interrupted)

def run : BuiltinCommand → List Item → Run Unit
  | AUTO => auto
  | CLOSE => close
  | FAST => switchFast true
  | FIND => find
  | LOAD => load
  | OPEN => openFile
  | POKE => poke
  | QSAVE => saveAgain
  | QUIT => quit
  | RENUMBER => renumber
  | SAVE => save
  | SLEEP => sleep
  | SLOW => switchFast false
  | STOP => stop
  | TROFF => switchTrace false
  | TRON => switchTrace true

end BuiltinCommand

def Command.run (c : Command) (items : List Item) : Run Unit :=
  match c with
  | .builtin b => b.run items
  | .added text => do Run.print (← text items)

end LineBasic
