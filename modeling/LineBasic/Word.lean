/-!
# Keywords

The reserved words of statements. A question mark is short for `PRINT`.
-/

set_option autoImplicit false

namespace LineBasic

inductive Word where
  | CLR
  | DATA
  | DEF
  | DELETE
  | DIM
  | DUMP
  | END
  | FN
  | FOR
  | GET
  | GETKEY
  | GOSUB
  | GOTO
  | IF
  | INPUT
  | LET
  | LIST
  | MODULE
  | NEW
  | NEXT
  | ON
  | PRINT
  | READ
  | REM
  | RESTORE
  | RETURN
  | RUN
  | SCNCLR
  | STEP
  | THEN
  | TO
  | USING
  deriving DecidableEq, Repr

namespace Word

def text : Word → String
  | CLR => "CLR"
  | DATA => "DATA"
  | DEF => "DEF"
  | DELETE => "DELETE"
  | DIM => "DIM"
  | DUMP => "DUMP"
  | END => "END"
  | FN => "FN"
  | FOR => "FOR"
  | GET => "GET"
  | GETKEY => "GETKEY"
  | GOSUB => "GOSUB"
  | GOTO => "GOTO"
  | IF => "IF"
  | INPUT => "INPUT"
  | LET => "LET"
  | LIST => "LIST"
  | MODULE => "MODULE"
  | NEW => "NEW"
  | NEXT => "NEXT"
  | ON => "ON"
  | PRINT => "PRINT"
  | READ => "READ"
  | REM => "REM"
  | RESTORE => "RESTORE"
  | RETURN => "RETURN"
  | RUN => "RUN"
  | SCNCLR => "SCNCLR"
  | STEP => "STEP"
  | THEN => "THEN"
  | TO => "TO"
  | USING => "USING"

def all : List Word :=
  [CLR, DATA, DEF, DELETE, DIM, DUMP, END, FN, FOR, GET, GETKEY, GOSUB, GOTO, IF, INPUT, LET, LIST,
    MODULE, NEW, NEXT, ON, PRINT, READ, REM, RESTORE, RETURN, RUN, SCNCLR, STEP, THEN, TO, USING]

theorem mem_all (w : Word) : w ∈ all := by cases w <;> decide

def spellings : List (List Char × Word) :=
  (['?'], PRINT) :: all.map fun w => (w.text.toList, w)

def ofText? (cs : List Char) : Option Word := spellings.lookup cs

theorem ofText?_text (w : Word) : ofText? w.text.toList = some w := by cases w <;> decide

end Word

end LineBasic
