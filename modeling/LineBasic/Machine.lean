import LineBasic.Dice
import LineBasic.Host
import LineBasic.Module
import LineBasic.Registry
import LineBasic.Text.Layout

/-!
# Machine

The state of a session, and what a run can do with it. A run either has a result or ends in a
fault; the machine it leaves behind counts in both cases. Printing goes to the screen, whose
column is kept, or to the file that a statement has chosen.
-/

set_option autoImplicit false

namespace LineBasic

inductive OpenFile where
  | reading (lines : List String)
  | writing (name : String) (text : String)
  deriving DecidableEq

structure Machine where
  host : Host := {}
  /-- By module number. The root comes first and has no name. -/
  modules : List Module := [.named ""]
  scopes : Scopes := {}
  registry : Registry := {}
  options : LexOptions := {}
  /-- Open files by handle. -/
  files : Table Nat OpenFile := .empty
  /-- The file that printing goes to while a statement prints to one. -/
  printFile : Option Nat := none
  column : Nat := 0
  /-- Bytes that were poked; all others are zero. -/
  memory : Table Nat UInt8 := .empty
  dice : Dice := {}
  exitCode : Option Int32 := none
  /-- Tokens run since the last pause of a slow module. -/
  tokenCount : Nat := 0

/-- Bytes for `PEEK` and `POKE`. -/
def memorySize : Nat := 0x20000

namespace Machine

def lexicon (m : Machine) : Lexicon := m.registry.lexicon

def moduleAt (m : Machine) (id : ModuleId) : Module := m.modules.getD id (.named "")

def updateModule (m : Machine) (id : ModuleId) (f : Module → Module) : Machine :=
  { m with modules := m.modules.modify id f }

/-- The module that unqualified names belong to. -/
def variableModule (m : Machine) : Module := m.moduleAt m.scopes.variableModule

def codeModule (m : Machine) : Module := m.moduleAt m.scopes.codeModule

def updateVariableModule (m : Machine) (f : Module → Module) : Machine :=
  m.updateModule m.scopes.variableModule f

def updateCodeModule (m : Machine) (f : Module → Module) : Machine :=
  m.updateModule m.scopes.codeModule f

def moduleNames (m : Machine) : Table String ModuleId := .ofList (m.modules.map (·.name)).zipIdx

def moduleNamed? (m : Machine) (name : String) : Option ModuleId := m.moduleNames.get? name

def ensureModule (m : Machine) (name : String) : ModuleId × Machine :=
  match m.moduleNamed? name with
  | some id => (id, m)
  | none => (m.modules.length, { m with modules := m.modules ++ [.named name] })

def print (m : Machine) (text : String) : Machine :=
  match m.printFile with
  | some handle =>
    match m.files.get? handle with
    | some (.writing name written) =>
      { m with files := m.files.insert handle (.writing name (written ++ text)) }
    | _ => m
  | none =>
    { m with column := Text.columnAfter m.column text, host := m.host.print text }

def enterCode (m : Machine) : Bool × Machine :=
  match m.scopes.enterCode with
  | (some id, scopes) =>
    (true, { m with scopes }.updateModule id fun mod => { mod with pc := .atEnd })
  | (none, scopes) => (false, { m with scopes })

/-- Leaves the innermost scope. Code that stops has no pc, and subroutine calls that entered it are
over. -/
def endModule (m : Machine) : Machine :=
  match m.scopes.leave with
  | (some id, scopes) =>
    { m with scopes }.updateModule id fun mod =>
      { mod with pc := .atEnd }.dropGosubs fun g => g.resume.isEnd
  | (none, scopes) => { m with scopes }

def addCommand (m : Machine) (name : String) (run : List Item → Except Fault String) : Machine :=
  { m with registry := m.registry.addCommand name run }

def addFunction (m : Machine) (name : String) (run : List Value → Except Fault Value) : Machine :=
  { m with registry := m.registry.addFunction name run }

end Machine

/-- What runs on a machine: a result or a fault, and the machine afterwards in either case. -/
abbrev Run := EStateM Fault Machine

instance : MonadLift (Except Fault) Run where
  monadLift
    | .ok a => pure a
    | .error f => throw f

namespace Run

def print (text : String) : Run Unit := modify (·.print text)

def fail {α : Type} (kind : FaultKind) (detail : String) : Run α := throw (.because kind detail)

def syntaxError {α : Type} : Run α := throw (.plain .badSyntax)

def updateModule (id : ModuleId) (f : Module → Module) : Run Unit := modify (·.updateModule id f)

def updateVariableModule (f : Module → Module) : Run Unit := modify (·.updateVariableModule f)

def updateCodeModule (f : Module → Module) : Run Unit := modify (·.updateCodeModule f)

def findModule (name : String) : Run ModuleId := do
  match (← get).moduleNamed? name with
  | some id => pure id
  | none => throw (.plain .undefinedModule)

def ensureModule (name : String) : Run ModuleId := modifyGet (·.ensureModule name)

def enterCode : Run Bool := modifyGet (·.enterCode)

def endModule : Run Unit := modify (·.endModule)

def readLine : Run String := do
  let (answer, host) := (← get).host.readLine
  modify fun m => { m with host }
  let line ← answer
  modify fun m => { m with column := 0 }
  return line

def checkBreak : Run Unit := do
  let (pressed, host) := (← get).host.poll
  modify fun m => { m with host }
  if pressed then throw (.plain .interrupted)

def printLines : List String → Run Unit
  | [] => pure ()
  | line :: more => do
    checkBreak
    print (line ++ "\n")
    printLines more

end Run

end LineBasic
