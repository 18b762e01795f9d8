/-!
# Scopes

Two stacks of modules: whose variables unqualified names mean, and whose lines are running.
Entering a module takes two steps, first its variables and at the next jump its code, so the code
stack is either level with the variable stack or one lower.
-/

set_option autoImplicit false

namespace LineBasic

/-- Modules are known by their place in the order of their first mention. -/
abbrev ModuleId := Nat

def rootModule : ModuleId := 0

structure Scopes where
  variableStack : List ModuleId := [rootModule]
  codeStack : List ModuleId := [rootModule]
  deriving DecidableEq, Repr

namespace Scopes

/-- The module that unqualified names belong to. -/
def variableModule (s : Scopes) : ModuleId := s.variableStack.headD rootModule

def codeModule (s : Scopes) : ModuleId := s.codeStack.headD rootModule

def inLockstep (s : Scopes) : Bool := s.variableStack.length == s.codeStack.length

def depth (s : Scopes) : Nat := s.variableStack.length

/-- Enters the variables of a module. While the code has not followed, another module only takes the
place of the one entered last. -/
def enterVariables (s : Scopes) (id : ModuleId) : Scopes :=
  if s.inLockstep then { s with variableStack := id :: s.variableStack }
  else { s with variableStack := id :: s.variableStack.tail }

def enterCode (s : Scopes) : Option ModuleId × Scopes :=
  if s.inLockstep then (none, s)
  else (some s.variableModule, { s with codeStack := s.variableModule :: s.codeStack })

def popKeeping : List ModuleId → List ModuleId
  | _ :: id :: ids => id :: ids
  | ids => ids

def leave (s : Scopes) : Option ModuleId × Scopes :=
  if s.inLockstep then
    (some s.codeModule,
      { variableStack := popKeeping s.variableStack, codeStack := popKeeping s.codeStack })
  else (none, { s with variableStack := popKeeping s.variableStack })

def reset (s : Scopes) : Scopes :=
  { variableStack := s.variableStack.drop (s.variableStack.length - 1),
    codeStack := s.codeStack.drop (s.codeStack.length - 1) }

end Scopes

end LineBasic
