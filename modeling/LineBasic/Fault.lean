/-!
# Faults

What can go wrong while a line is read or run. A fault has a kind, which decides the message the
user sees, a line number once it is known, and a detail that names the rule that was broken. The
detail is for whoever embeds the machine; the message never shows it.
-/

set_option autoImplicit false

namespace LineBasic

/-- Program lines have numbers from zero up. Negative numbers are for typed text. -/
abbrev LineNumber := Int

inductive FaultKind where
  | internal
  | badSyntax
  | fileNotFound
  | illegalDevice
  | undefinedStatement
  | typeMismatch
  | illegalQuantity
  | badSubscript
  | unimplementedCommand
  | outOfData
  | nextWithoutFor
  | returnWithoutGosub
  | formulaTooComplex
  | interrupted
  | undefinedModule
  | argumentCount
  | undefinedVariable
  deriving DecidableEq, Repr

namespace FaultKind

def number : FaultKind → Nat
  | internal => 1
  | badSyntax => 2
  | fileNotFound => 3
  | illegalDevice => 4
  | undefinedStatement => 5
  | typeMismatch => 6
  | illegalQuantity => 7
  | badSubscript => 8
  | unimplementedCommand => 9
  | outOfData => 10
  | nextWithoutFor => 11
  | returnWithoutGosub => 12
  | formulaTooComplex => 13
  | interrupted => 14
  | undefinedModule => 15
  | argumentCount => 101
  | undefinedVariable => 102

def text : FaultKind → String
  | internal => "INTERNAL ERROR"
  | badSyntax => "SYNTAX ERROR"
  | fileNotFound => "FILE NOT FOUND ERROR"
  | illegalDevice => "ILLEGAL DEVICE NUMBER ERROR"
  | undefinedStatement => "UNDEF'D STATEMENT ERROR"
  | typeMismatch => "TYPE MISMATCH ERROR"
  | illegalQuantity => "ILLEGAL QUANTITY ERROR"
  | badSubscript => "BAD SUBSCRIPT ERROR"
  | unimplementedCommand => "UNIMPLEMENTED COMMAND ERROR"
  | outOfData => "OUT OF DATA ERROR"
  | nextWithoutFor => "NEXT WITHOUT FOR ERROR"
  | returnWithoutGosub => "RETURN WITHOUT GOSUB ERROR"
  | formulaTooComplex => "FORMULA TOO COMPLEX ERROR"
  | interrupted => "BREAK"
  | undefinedModule => "UNDEF'D MODULE ERROR"
  | argumentCount => "ARGUMENT COUNT ERROR"
  | undefinedVariable => "VARIABLE UNDEFINED ERROR"

end FaultKind

structure Fault where
  kind : FaultKind
  line : Option LineNumber := none
  detail : String := ""
  deriving DecidableEq, Repr

namespace Fault

def plain (kind : FaultKind) : Fault := { kind }

def because (kind : FaultKind) (detail : String) : Fault := { kind, detail }

def inLine (f : Fault) (n : LineNumber) : Fault := { f with line := some n }

def isBreak (f : Fault) : Bool := f.kind == .interrupted

def message (f : Fault) : String :=
  match f.line with
  | some n => if 0 ≤ n then f.kind.text ++ " IN " ++ toString n else f.kind.text
  | none => f.kind.text

def describe (f : Fault) : String :=
  let inner := if f.detail.isEmpty then f.message else f.message ++ "; " ++ f.detail
  "Error \x7b " ++ inner ++ " \x7d"

end Fault

end LineBasic
