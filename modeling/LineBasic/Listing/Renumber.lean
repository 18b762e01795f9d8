import LineBasic.Listing
import LineBasic.Number.Numeral

/-!
# Renumbering

The program lines from a given number on get new numbers in equal steps, and every line number
that stands after `GOTO`, `GOSUB` or `THEN` follows. A line whose old number is a multiple of the
milestone keeps it if the count has not got there yet. Lines may not overtake those that keep
their numbers.
-/

set_option autoImplicit false

namespace LineBasic

abbrev Renumbering := List (LineNumber × LineNumber)

def newNumber? (changes : Renumbering) (n : LineNumber) : Option LineNumber := Table.find? n changes

def jumpWords : List (List Char × Bool) :=
  [("GOTO".toList, true), ("GOSUB".toList, true), ("THEN".toList, false)]

def jumpWord? (cs : List Char) : Option (List Char × Bool) :=
  jumpWords.find? fun (w, _) => w.isPrefixOf cs

def renumberedDigits (changes : Renumbering) (digits : List Char) : List Char :=
  match (Number.lineNumberOf? digits).bind (newNumber? changes) with
  | some n => (toString n).toList
  | none => digits

def spaceRun (cs : List Char) : List Char := cs.takeWhile (· == ' ')

/-- Rewrites the line numbers at the start of a text: one, or with `list` all of a list with
commas between. The answer is the new text of that part, the last character of the old one, and
what follows it. -/
def rewriteTargets (changes : Renumbering) (list : Bool) (before : Char) (cs : List Char) :
    List Char × Char × List Char :=
  let spaces := spaceRun cs
  let rest := cs.drop spaces.length
  let digits := Number.digitRun rest
  if hd : digits = [] then (spaces, spaces.getLastD before, rest)
  else
    let rest' := rest.drop digits.length
    let new := spaces ++ renumberedDigits changes digits
    let gap := spaceRun rest'
    match hr : rest'.drop gap.length with
    | ',' :: more =>
      if list then
        have : more.length < cs.length := by
          have h1 := congrArg List.length hr
          simp only [List.length_drop, List.length_cons, rest', rest] at h1
          omega
        let (text, last, after) := rewriteTargets changes list ',' more
        (new ++ gap ++ ',' :: text, last, after)
      else (new, digits.getLastD before, rest')
    | _ => (new, digits.getLastD before, rest')
termination_by cs.length

/-- What is left after the line numbers is no longer than before. -/
theorem length_rewriteTargets_le (changes : Renumbering) (list : Bool) (before : Char)
    (cs : List Char) : (rewriteTargets changes list before cs).2.2.length ≤ cs.length := by
  fun_induction rewriteTargets changes list before cs <;> grind

/-- Rewrites the line numbers of a text. `quote` is the quote that is open, and `before` the
character in front, after which a word can start unless it is a letter or a digit. -/
def rewriteFrom (changes : Renumbering) (quote : Option Char) (before : Option Char)
    (cs : List Char) : List Char :=
  match cs with
  | [] => []
  | c :: rest =>
    match quote with
    | some q => c :: rewriteFrom changes (if c = q then none else quote) (some c) rest
    | none =>
      if c = '"' ∨ c = '\'' then c :: rewriteFrom changes (some c) (some c) rest
      else if before.any Char.isAlphanum then c :: rewriteFrom changes none (some c) rest
      else match jumpWord? (c :: rest) with
        | some (w, list) =>
          match ht : rewriteTargets changes list (w.getLastD c) (rest.drop (w.length - 1)) with
          | (targets, last, after) =>
            have : after.length < (c :: rest).length := by
              have := length_rewriteTargets_le changes list (w.getLastD c)
                (rest.drop (w.length - 1))
              rw [ht, List.length_drop] at this
              simp only [List.length_cons] at this ⊢
              omega
            w ++ targets ++ rewriteFrom changes none (some last) after
        | none => c :: rewriteFrom changes none (some c) rest
termination_by cs.length
decreasing_by all_goals (simp only [List.length_cons] at *; omega)

def rewriteReferences (changes : Renumbering) (text : String) : String :=
  String.ofList (rewriteFrom changes none none text.toList)

/-- What a renumbering is asked for: the first new number, the step, the first old number that
changes, and the milestone, which is off at zero. -/
structure RenumberRequest where
  start : LineNumber
  step : LineNumber
  first : LineNumber
  milestone : LineNumber

namespace RenumberRequest

def numberFor (r : RenumberRequest) (next n : LineNumber) : LineNumber :=
  if 0 < r.milestone ∧ next < n ∧ n % r.milestone = 0 then n else next

/-- The new numbers of program lines in order; `kept` is the last line that keeps its number and
`next` the next new number. -/
def changesFrom (r : RenumberRequest) (kept : Option LineNumber) (next : LineNumber) :
    List LineNumber → Except Fault Renumbering
  | [] => .ok []
  | n :: ns =>
    if n < r.first then r.changesFrom (some n) next ns
    else
      let new := r.numberFor next n
      if kept.any fun k => new ≤ k then
        .error (.because .undefinedStatement "LINE NUMBERS WOULD OVERLAP")
      else if maxLineNumber < new + r.step then .error (.plain .illegalQuantity)
      else (r.changesFrom kept (new + r.step) ns).map ((n, new) :: ·)

def changes (r : RenumberRequest) (l : Listing) : Except Fault Renumbering :=
  if r.start < 0 ∨ r.step ≤ 0 ∨ r.milestone < 0 then .error (.plain .illegalQuantity)
  else r.changesFrom none r.start (l.program.map (·.1))

end RenumberRequest

namespace Listing

def renumberedEntry (changes : Renumbering) (e : LineNumber × String) : LineNumber × String :=
  if e.1 < 0 then e else ((newNumber? changes e.1).getD e.1, rewriteReferences changes e.2)

def renumber (l : Listing) (r : RenumberRequest) : Except Fault Listing :=
  (r.changes l).map fun changes => ⟨.ofList (l.lines.entries.map (renumberedEntry changes))⟩

end Listing

end LineBasic
