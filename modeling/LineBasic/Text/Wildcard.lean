/-!
# Wildcards

A star stands for any run of characters, a question mark for exactly one, and every other
character for itself. Matching goes through pattern and text together. A star takes nothing at
first, and one character more each time that the signs behind it fail to match.
-/

set_option autoImplicit false

namespace LineBasic.Text.Wildcard

def fits (sign c : Char) : Bool := sign == '?' || sign == c

/-- Matches a pattern with a text, given that the first `n` signs fit the first `n` characters. If
`starred`, a star stands in front of the pattern and can take characters off the text. No more than
the last star is kept. -/
def matchFrom (starred : Bool) (pattern text : List Char) (n : Nat) : Bool :=
  match ht : text.drop n with
  | [] => (pattern.drop n).all (· == '*')
  | c :: rest =>
    have : 0 < text.length := by
      have := congrArg List.length ht
      simp only [List.length_drop, List.length_cons] at this
      omega
    match hp : pattern.drop n with
    | '*' :: more =>
      have : more.length < pattern.length := by
        have := congrArg List.length hp
        simp only [List.length_drop, List.length_cons] at this
        omega
      matchFrom true more (c :: rest) 0
    | signs =>
      if hs : signs.head?.any (fits · c) then
        have : n < pattern.length := by
          refine Nat.lt_of_not_le fun hle => ?_
          rw [← hp, List.drop_eq_nil_of_le hle] at hs
          cases hs
        matchFrom starred pattern text (n + 1)
      else if starred then matchFrom true pattern text.tail 0
      else false
-- A star shortens the pattern, a failure the text, and a sign that fits what is left to compare.
termination_by (pattern.length, text.length, pattern.length - n)
decreasing_by
  · exact .left _ _ this
  · exact .right _ (.right _ (by omega))
  · exact .right _ (.left _ _ (by rw [List.length_tail]; omega))

def isMatch (pattern text : List Char) : Bool := matchFrom false pattern text 0

end LineBasic.Text.Wildcard
