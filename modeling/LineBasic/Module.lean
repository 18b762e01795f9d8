import LineBasic.Listing
import LineBasic.Scopes
import LineBasic.Stack
import LineBasic.Token
import LineBasic.Variables

/-!
# Modules

Everything a module owns: its lines, its variables and functions, the loops and subroutine calls
that are under way in it, and where its run stands. The loops of a subroutine lie above those that
were under way at its call.
-/

set_option autoImplicit false

namespace LineBasic

structure ProgramCounter where
  line : Option LineNumber := none
  offset : Nat := 0
  deriving DecidableEq, Repr

namespace ProgramCounter

def atLine (n : LineNumber) : ProgramCounter := { line := some n }

def atEnd : ProgramCounter := {}

def isEnd (pc : ProgramCounter) : Bool := pc.line.isNone

def isTyped (pc : ProgramCounter) : Bool := pc.line == some typedLine

end ProgramCounter

structure ForLoop where
  name : String
  home : ModuleId
  limit : Float
  step : Float
  resume : ProgramCounter
  deriving DecidableEq

def ForLoop.isOver (l : ForLoop) (home : ModuleId) (name : String) : Bool :=
  l.name == name && l.home == home

structure Gosub where
  resume : ProgramCounter
  loops : Nat
  deriving DecidableEq

structure DataCursor where
  line : Option LineNumber := none
  index : Nat := 0
  deriving DecidableEq, Repr

structure FunctionDef where
  params : List String
  body : List Token
  deriving DecidableEq

def maxLoops : Nat := 256

def maxGosubs : Nat := 256

structure Module where
  name : String
  listing : Listing := {}
  vars : Variables := {}
  functions : Table String FunctionDef := .empty
  loops : Stack ForLoop := { complaint := "TOO MANY FOR LOOPS", limit := maxLoops }
  gosubs : Stack Gosub := { complaint := "TOO MANY GOSUBS", limit := maxGosubs }
  pc : ProgramCounter := .atEnd
  data : DataCursor := {}
  /-- The step of line numbers that are offered; zero for none. -/
  autoStep : LineNumber := 0
  lastEntered : LineNumber := 0
  fileName : Option String := none
  fast : Bool := true
  trace : Bool := false

namespace Module

def named (name : String) : Module := { name }

def cleared (m : Module) : Module := { name := m.name, fast := m.fast, trace := m.trace }

/-- How many loops a subroutine must not touch. -/
def loopFloor (m : Module) : Nat := (m.gosubs.top?.map (·.loops)).getD 0

def autoLine? (m : Module) : Option LineNumber :=
  if 0 < m.autoStep ∧ m.lastEntered + m.autoStep ≤ maxLineNumber then
    some (m.lastEntered + m.autoStep)
  else none

def dropGosubs (m : Module) (p : Gosub → Bool) : Module :=
  { m with gosubs := m.gosubs.truncate (m.gosubs.toList.findIdx p) }

def dropLoops (m : Module) (p : ForLoop → Bool) : Module :=
  { m with loops := m.loops.truncate (m.loops.toList.findIdx p) }

end Module

end LineBasic
