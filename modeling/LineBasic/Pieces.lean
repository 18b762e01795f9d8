/-!
# Pieces

A list cut at every occurrence of a separator.
-/

set_option autoImplicit false

namespace LineBasic

def pieces {α : Type} [DecidableEq α] (sep : α) : List α → List (List α)
  | [] => [[]]
  | x :: xs =>
    if x = sep then [] :: pieces sep xs
    else match pieces sep xs with
      | [] => [[x]]
      | piece :: more => (x :: piece) :: more

end LineBasic
