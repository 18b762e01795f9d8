import LineBasic.Proofs.Number.LineNumber
import LineBasic.Proofs.Text.Runs

/-!
# What follows the digits of a numeral

A point with digits and an exponent may follow the first digits of a numeral. How far it goes on is
decided by characters of numerals only.
-/

set_option autoImplicit false

namespace LineBasic.Number

open Text (SameUntil Spans)

def isNumeralChar (c : Char) : Bool := isHexDigit c || c == '.' || c == '+' || c == '-'

theorem isNumeralChar_of_isDigit {c : Char} (h : c.isDigit = true) : isNumeralChar c = true := by
  simp [isNumeralChar, isHexDigit, h]

def pointSize (cs : List Char) : Nat :=
  match scanFraction cs with
  | some digits => 1 + digits.length
  | none => 0

def tailSize (cs : List Char) : Nat :=
  pointSize cs + (scanExponent (cs.drop (pointSize cs))).2

/-- A numeral that starts with digits goes on with its tail. -/
theorem size_scanRealNumeral {digits rest : List Char} (hne : digits ≠ [])
    (hd : ∀ c ∈ digits, c.isDigit = true) (hrest : ∀ c ∈ rest.head?, c.isDigit = false) :
    (scanRealNumeral (digits ++ rest)).map (·.size) = some (digits.length + tailSize rest) := by
  have hrun : digitRun (digits ++ rest) = digits := digitRun_append hd hrest
  simp only [scanRealNumeral, signOf_digits hne hd, List.drop_zero, hrun, Nat.zero_add,
    List.drop_left]
  cases hpoint : scanFraction rest with
  | none => simp [hne, tailSize, pointSize, hpoint]
  | some fraction =>
    have hdrop : (digits ++ rest).drop (digits.length + (1 + fraction.length)) =
        rest.drop (1 + fraction.length) := by
      rw [← List.drop_drop, List.drop_left]
    simp [hne, tailSize, pointSize, hpoint, hdrop, Nat.add_assoc]

theorem spans_digitRun (cs : List Char) : Spans isNumeralChar (digitRun cs).length cs :=
  Text.spans_takeWhile (fun _ => isNumeralChar_of_isDigit) cs

theorem spans_pointSize (cs : List Char) : Spans isNumeralChar (pointSize cs) cs := by
  unfold pointSize scanFraction
  split
  · rename_i digits hpoint
    split at hpoint
    · rename_i rest
      cases hpoint
      rw [Nat.add_comm]
      exact (spans_digitRun rest).cons rfl
    · cases hpoint
  · exact Text.spans_zero _ cs

theorem spans_signOf (cs : List Char) : Spans isNumeralChar (signOf cs).2 cs := by
  unfold signOf
  split
  · exact (Text.spans_zero _ _).cons rfl
  · exact (Text.spans_zero _ _).cons rfl
  · exact Text.spans_zero _ _

theorem spans_scanExponent (cs : List Char) : Spans isNumeralChar (scanExponent cs).2 cs := by
  cases cs with
  | nil => exact Text.spans_zero _ _
  | cons mark rest =>
    rw [scanExponent]
    dsimp only
    split
    · rename_i hmark
      split
      · exact Text.spans_zero _ _
      · have hc : isNumeralChar mark = true := by rcases hmark with rfl | rfl <;> rfl
        rw [Nat.add_assoc, Nat.add_comm]
        exact ((spans_signOf rest).add (spans_digitRun _)).cons hc
    · exact Text.spans_zero _ _

theorem spans_tailSize (cs : List Char) : Spans isNumeralChar (tailSize cs) cs :=
  (spans_pointSize cs).add (spans_scanExponent _)

theorem spans_scanHex {cs : List Char} {v : Int64} {n : Nat} (h : scanHex cs = some (v, n)) :
    0 < n ∧ Spans isNumeralChar (n - 1) cs := by
  rw [scanHex] at h
  dsimp only at h
  split at h
  · cases h
  · split at h
    · cases h
      exact ⟨Nat.succ_pos _, Text.spans_takeWhile (fun _ hx => by simp [isNumeralChar, hx]) cs⟩
    · cases h

section

variable {p : Char → Bool} {cs ds : List Char}

theorem digitRun_same (hp : ∀ c, isNumeralChar c = true → p c = true) (h : SameUntil p cs ds) :
    digitRun ds = digitRun cs :=
  h.takeWhile fun c hc => hp c (isNumeralChar_of_isDigit hc)

theorem signOf_same (h : SameUntil p cs ds) : signOf ds = signOf cs := by
  have hcons : ∀ (c : Char) (cs ds : List Char), signOf (c :: ds) = signOf (c :: cs) := by
    intro c cs ds
    by_cases hminus : c = '-'
    · subst hminus
      rfl
    · by_cases hplus : c = '+'
      · subst hplus
        rfl
      · simp [signOf, hminus, hplus]
  cases h with
  | nil => rfl
  | last hc cs ds => exact hcons _ cs ds
  | next hc h => exact hcons _ _ _

theorem scanFraction_same (hp : ∀ c, isNumeralChar c = true → p c = true)
    (h : SameUntil p cs ds) : scanFraction ds = scanFraction cs := by
  cases h with
  | nil => rfl
  | @last c hc cs ds =>
    have hne : c ≠ '.' := by
      rintro rfl
      rw [hp '.' rfl] at hc
      cases hc
    simp [scanFraction, hne]
  | @next c cs ds hc h =>
    by_cases hpoint : c = '.'
    · subst hpoint
      simp only [scanFraction, digitRun_same hp h]
    · simp [scanFraction, hpoint]

theorem scanExponent_same (hp : ∀ c, isNumeralChar c = true → p c = true)
    (h : SameUntil p cs ds) : scanExponent ds = scanExponent cs := by
  cases h with
  | nil => rfl
  | @last c hc cs ds =>
    have hne : ¬(c = 'E' ∨ c = 'e') := by
      rintro (rfl | rfl)
      · rw [hp 'E' rfl] at hc
        cases hc
      · rw [hp 'e' rfl] at hc
        cases hc
    simp only [scanExponent, if_neg hne]
  | @next c cs ds hc h =>
    have hsign := (h.drop ((spans_signOf _).mono hp)).2
    simp only [scanExponent, signOf_same h, digitRun_same hp hsign]

/-- The tail is the same in texts that are the same as far as numerals go. -/
theorem tailSize_same (hp : ∀ c, isNumeralChar c = true → p c = true) (h : SameUntil p cs ds) :
    tailSize ds = tailSize cs := by
  have hpoint : pointSize ds = pointSize cs := by rw [pointSize, pointSize, scanFraction_same hp h]
  have hdrop := (h.drop ((spans_pointSize cs).mono hp)).2
  rw [tailSize, tailSize, hpoint, scanExponent_same hp hdrop]

end

end LineBasic.Number
