import LineBasic.Fault

/-!
# Parts of texts

The parts of a text that functions take out of it. Positions count characters from one.
-/

set_option autoImplicit false

namespace LineBasic.Substring

def left (cs : List Char) (n : Nat) : List Char := cs.take n

def right (cs : List Char) (n : Nat) : List Char := cs.drop (cs.length - n)

def middle (cs : List Char) (start : Nat) (n : Option Nat) : List Char :=
  match n with
  | some n => (cs.drop (start - 1)).take n
  | none => cs.drop (start - 1)

def positionFrom (needle : List Char) (at_ : Nat) (cs : List Char) : Option Nat :=
  if needle.isPrefixOf cs then some at_
  else match cs with
    | [] => none
    | _ :: rest => positionFrom needle (at_ + 1) rest

def position (cs needle : List Char) (start : Nat) : Nat :=
  if start - 1 + needle.length ≤ cs.length then
    (positionFrom needle start (cs.drop (start - 1))).getD 0
  else 0

end LineBasic.Substring
