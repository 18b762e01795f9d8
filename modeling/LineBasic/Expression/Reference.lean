import LineBasic.Token

/-!
# References

A name as it stands in a statement: an optional module in front, and optionally an argument list
in parentheses behind. A reference is taken off the front of a token list before any of it is
evaluated.
-/

set_option autoImplicit false

namespace LineBasic

/-- The tokens up to the parenthesis that closes `depth` further ones, and those after it. -/
def upToClosing (depth : Nat) : List Token → Option (List Token × List Token)
  | [] => none
  | .openParen :: ts =>
    (upToClosing (depth + 1) ts).map fun (inner, after) => (.openParen :: inner, after)
  | .closeParen :: ts =>
    match depth with
    | 0 => some ([], ts)
    | d + 1 => (upToClosing d ts).map fun (inner, after) => (.closeParen :: inner, after)
  | t :: ts => (upToClosing depth ts).map fun (inner, after) => (t :: inner, after)

theorem length_upToClosing {depth : Nat} {ts inner after : List Token}
    (h : upToClosing depth ts = some (inner, after)) :
    inner.length + after.length + 1 = ts.length := by
  fun_induction upToClosing depth ts generalizing inner after <;>
    grind [Option.map_eq_some_iff]

def missingClosing : Fault := .because .badSyntax "MISSING CLOSING PARENTHESIS"

structure Reference where
  name : String
  args : Option (List Token)

namespace Reference

def withArguments (name : String) : List Token → Except Fault (Reference × List Token)
  | .openParen :: ts =>
    match upToClosing 0 ts with
    | some (inner, after) => .ok (⟨name, some inner⟩, after)
    | none => .error missingClosing
  | ts => .ok (⟨name, none⟩, ts)

def split (missing : Fault) : List Token → Except Fault (Reference × List Token)
  | .ident name :: ts => withArguments name ts
  | .qualifier _ :: .ident name :: ts => withArguments name ts
  | _ => .error missing

theorem length_withArguments {name : String} {ts after : List Token} {r : Reference}
    (h : withArguments name ts = .ok (r, after)) :
    after.length ≤ ts.length ∧ ∀ inner, r.args = some inner → inner.length ≤ ts.length := by
  unfold withArguments at h
  split at h
  · split at h
    · rename_i hc
      have := length_upToClosing hc
      cases h
      refine ⟨by simp only [List.length_cons]; omega, fun inner hi => ?_⟩
      cases hi
      simp only [List.length_cons]
      omega
    · cases h
  · cases h
    simp

/-- A reference takes at least one token, and its arguments are fewer than the tokens it is taken
from. -/
theorem length_split {missing : Fault} {ts after : List Token} {r : Reference}
    (h : split missing ts = .ok (r, after)) :
    after.length < ts.length ∧ ∀ inner, r.args = some inner → inner.length < ts.length := by
  unfold split at h
  split at h
  · have := length_withArguments h
    simp only [List.length_cons]
    grind
  · have := length_withArguments h
    simp only [List.length_cons]
    grind
  · cases h

end Reference

end LineBasic
