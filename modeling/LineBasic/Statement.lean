import LineBasic.Command
import LineBasic.Statement.Assign
import LineBasic.Statement.Data
import LineBasic.Statement.Input
import LineBasic.Statement.Jump
import LineBasic.Statement.Lines
import LineBasic.Statement.Loop
import LineBasic.Statement.Print

/-!
# Statements

What a statement does is decided by its first token. A statement after `THEN` is run in place of the
condition it stands behind.
-/

set_option autoImplicit false

namespace LineBasic.Statement

def runCommand (name : String) (tokens : List Token) : Run Unit := do
  match (← get).registry.commands.get? name with
  | none => throw (.plain .unimplementedCommand)
  | some c => c.run (← evaluateAll tokens)

def enterModule : List Token → Run Unit
  | [.ident name] | [.string name] => do
    let id ← Run.ensureModule name
    modify fun m => { m with scopes := m.scopes.enterVariables id }
  | _ => Run.fail .badSyntax "EXPECTED MODULE NAME"

def clearScreen : Run Unit := modify fun m => { m with host := m.host.clearScreen, column := 0 }

def condition (tokens : List Token) : Run (Bool × Nat) := do
  let (items, taken) ← evaluate tokens
  let x ← (← Item.single items).toReal
  return (!(x == 0), taken)

def run (tokens : List Token) : Run Unit :=
  match tokens with
  | [] => return
  | .command name :: rest => runCommand name rest
  | .ident _ :: _ | .qualifier _ :: _ => assign tokens
  | .word w :: rest =>
    match w with
    | .CLR => clearVariables
    | .DATA | .REM => return
    | .DEF => define rest
    | .DELETE => delete rest
    | .DIM => dim rest
    | .DUMP => dump
    | .END => Run.endModule
    | .FOR => beginLoop rest
    | .GET => getKey false rest
    | .GETKEY => getKey true rest
    | .GOSUB => do callLine (← lineArgument rest)
    | .GOTO => do jumpTo (← lineArgument rest)
    | .IF => do
      let (holds, taken) ← condition rest
      match h : rest.drop taken with
      | .word .THEN :: more =>
        have : more.length < rest.length := by
          have := congrArg List.length h
          simp only [List.length_drop, List.length_cons] at this
          omega
        if !holds then skipLine
        else match more with
          | [.integer n] => do jumpTo (← lineArgument [.integer n])
          | _ => run more
      | .word .GOTO :: more =>
        if !holds then skipLine else do jumpTo (← lineArgument more)
      | _ => Run.fail .badSyntax "EXPECTED THEN"
    | .INPUT => input rest
    | .LET => assign rest
    | .LIST => list rest
    | .MODULE => enterModule rest
    | .NEW => new
    | .NEXT => endLoop rest
    | .ON => onSelector rest
    | .PRINT => print rest
    | .READ => read rest
    | .RESTORE => restore rest
    | .RETURN => returnFromCall
    | .RUN => runProgram rest
    | .SCNCLR => clearScreen
    | .FN | .STEP | .THEN | .TO | .USING => throw (.plain .unimplementedCommand)
  | _ => throw bareSyntax
termination_by tokens.length

end LineBasic.Statement
