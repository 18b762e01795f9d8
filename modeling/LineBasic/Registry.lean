import LineBasic.Lexicon
import LineBasic.Table

/-!
# Registry

Commands and functions by name. The built-in ones are always there; whoever embeds the machine can
add others, or put others in their place.
-/

set_option autoImplicit false

namespace LineBasic

inductive BuiltinCommand where
  | AUTO
  | CLOSE
  | FAST
  | FIND
  | LOAD
  | OPEN
  | POKE
  | QSAVE
  | QUIT
  | RENUMBER
  | SAVE
  | SLEEP
  | SLOW
  | STOP
  | TROFF
  | TRON
  deriving DecidableEq, Repr

def BuiltinCommand.named : List (String × BuiltinCommand) :=
  [("AUTO", .AUTO), ("CLOSE", .CLOSE), ("FAST", .FAST), ("FIND", .FIND), ("LOAD", .LOAD),
    ("OPEN", .OPEN), ("POKE", .POKE), ("QSAVE", .QSAVE), ("QUIT", .QUIT), ("RENUMBER", .RENUMBER),
    ("SAVE", .SAVE), ("SLEEP", .SLEEP), ("SLOW", .SLOW), ("STOP", .STOP), ("TROFF", .TROFF),
    ("TRON", .TRON)]

inductive BuiltinFunction where
  | ABS
  | ASC
  | ATN
  | CHR
  | COS
  | DEC
  | EXP
  | HEX
  | INSTR
  | INT
  | LCASE
  | LEFT
  | LEN
  | LOG
  | MAX
  | MID
  | MIN
  | MOD
  | PEEK
  | POS
  | RIGHT
  | RND
  | SGN
  | SIN
  | SPC
  | SQR
  | STR
  | TAB
  | TAN
  | UCASE
  | VAL
  | XOR
  deriving DecidableEq, Repr

def BuiltinFunction.named : List (String × BuiltinFunction) :=
  [("ABS", .ABS), ("ASC", .ASC), ("ATN", .ATN), ("CHR$", .CHR), ("COS", .COS), ("DEC", .DEC),
    ("EXP", .EXP), ("HEX$", .HEX), ("INSTR", .INSTR), ("INT", .INT), ("LCASE$", .LCASE),
    ("LEFT$", .LEFT), ("LEN", .LEN), ("LOG", .LOG), ("MAX", .MAX), ("MID$", .MID), ("MIN", .MIN),
    ("MOD", .MOD), ("PEEK", .PEEK), ("POS", .POS), ("RIGHT$", .RIGHT), ("RND", .RND),
    ("SGN", .SGN), ("SIN", .SIN), ("SPC", .SPC), ("SQR", .SQR), ("STR$", .STR), ("TAB", .TAB),
    ("TAN", .TAN), ("UCASE$", .UCASE), ("VAL", .VAL), ("XOR", .XOR)]

/-- An added command is given the items behind its name, and says what is printed or what is wrong.
It is not given the machine, so it can neither read nor change anything else. -/
inductive Command where
  | builtin (c : BuiltinCommand)
  | added (run : List Item → Except Fault String)

/-- An added function is given its arguments, and says what value it has or what is wrong. It is not
given the machine either. -/
inductive Function where
  | builtin (f : BuiltinFunction)
  | added (run : List Value → Except Fault Value)

structure Registry where
  commands : Table String Command :=
    .ofList (BuiltinCommand.named.map fun (name, c) => (name, .builtin c))
  functions : Table String Function :=
    .ofList (BuiltinFunction.named.map fun (name, f) => (name, .builtin f))

namespace Registry

def addCommand (r : Registry) (name : String) (run : List Item → Except Fault String) : Registry :=
  { r with commands := r.commands.insert name (.added run) }

def addFunction (r : Registry) (name : String) (run : List Value → Except Fault Value) : Registry :=
  { r with functions := r.functions.insert name (.added run) }

def lexicon (r : Registry) : Lexicon := ⟨r.commands.keys⟩

end Registry

end LineBasic
