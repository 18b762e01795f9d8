import LineBasic.Token

/-!
# Lexicon

The names that a lexer takes for keywords, commands and word operators. Commands are registered by
name; keywords and operators are fixed.
-/

set_option autoImplicit false

namespace LineBasic

structure LexOptions where
  /-- Keywords may be glued to names, as in `FORI=1TO9`. -/
  packed : Bool := false
  /-- A lone point is the number zero. -/
  dotAsZero : Bool := false
  deriving DecidableEq, Repr

def longestPrefix {α : Type} (cs : List Char) (candidates : List (List Char × α)) :
    Option (List Char × α) :=
  candidates.foldl (fun best c =>
    if c.1.isPrefixOf cs then
      match best with
      | some b => if b.1.length ≤ c.1.length then some c else best
      | none => some c
    else best) none

structure Lexicon where
  commands : List String := []

namespace Lexicon

def isCommand (l : Lexicon) (name : List Char) : Bool :=
  l.commands.any fun c => c.toList == name

def keywordPrefix? (cs : List Char) : Option (Word × Nat) :=
  (longestPrefix cs Word.spellings).map fun (spelling, w) => (w, spelling.length)

def commandPrefix? (l : Lexicon) (cs : List Char) : Option String :=
  (longestPrefix cs (l.commands.map fun name => (name.toList, name))).map (·.2)

def operatorPrefix? (cs : List Char) : Option (Operator × Nat) :=
  ([.AND, .NOT, .OR].find? fun op : Operator => op.lexeme.toList.isPrefixOf cs).map
    fun op => (op, op.lexeme.length)

def startsReserved (l : Lexicon) (cs : List Char) : Bool :=
  (keywordPrefix? cs).isSome || (l.commandPrefix? cs).isSome || (operatorPrefix? cs).isSome

end Lexicon

end LineBasic
