import Mathlib.Data.List.Forall2
import LineBasic.Text.Wildcard

/-!
# Wildcards match exactly

The matcher keeps one star only and goes on from the first place where the signs behind it fit. This
loses no match: what a later place leaves of the text is the end of what the first place leaves, and
the next star can take the difference. Main statement: `isMatch_iff_matches`.
-/

set_option autoImplicit false

namespace LineBasic.Text.Wildcard

/-- A pattern matches a text: a star any run of characters, a question mark one character, and every
other sign itself. -/
inductive Matches : List Char → List Char → Prop
  | nil : Matches [] []
  | star (run : List Char) {pattern text : List Char} (h : Matches pattern text) :
      Matches ('*' :: pattern) (run ++ text)
  | question (c : Char) {pattern text : List Char} (h : Matches pattern text) :
      Matches ('?' :: pattern) (c :: text)
  | char {c : Char} (hstar : c ≠ '*') (hquestion : c ≠ '?') {pattern text : List Char}
      (h : Matches pattern text) : Matches (c :: pattern) (c :: text)

variable {pattern text signs run rest : List Char} {c : Char} {n : Nat}

namespace Matches

theorem nil_left_iff : Matches [] text ↔ text = [] := by
  constructor
  · intro h
    cases h
    rfl
  · rintro rfl
    exact .nil

theorem star_iff : Matches ('*' :: pattern) text ↔
    ∃ run rest, text = run ++ rest ∧ Matches pattern rest := by
  constructor
  · intro h
    cases h with
    | star run h => exact ⟨run, _, rfl, h⟩
    | char hstar => exact absurd rfl hstar
  · rintro ⟨run, rest, rfl, h⟩
    exact .star run h

/-- A sign that is no star stands for the first character. -/
theorem sign_iff {sign : Char} (hsign : sign ≠ '*') : Matches (sign :: pattern) text ↔
    ∃ c rest, text = c :: rest ∧ fits sign c = true ∧ Matches pattern rest := by
  constructor
  · intro h
    cases h with
    | star run h => exact absurd rfl hsign
    | question c h => exact ⟨c, _, rfl, rfl, h⟩
    | char hstar hquestion h => exact ⟨sign, _, rfl, by simp [fits], h⟩
  · rintro ⟨c, rest, rfl, hfits, h⟩
    by_cases hq : sign = '?'
    · subst hq
      exact .question c h
    · obtain rfl : sign = c := by simpa [fits, hq] using hfits
      exact .char hsign hq h

theorem nil_right_iff : Matches pattern [] ↔ pattern.all (· == '*') = true := by
  induction pattern with
  | nil => simp [nil_left_iff]
  | cons sign pattern ih =>
    by_cases hsign : sign = '*'
    · subst hsign
      rw [star_iff]
      simp [← ih]
    · rw [sign_iff hsign]
      simp [hsign]

theorem star_append (run : List Char) (h : Matches ('*' :: pattern) text) :
    Matches ('*' :: pattern) (run ++ text) := by
  obtain ⟨more, rest, rfl, hrest⟩ := star_iff.1 h
  rw [← List.append_assoc]
  exact .star (run ++ more) hrest

theorem star_cons_iff : Matches ('*' :: pattern) (c :: text) ↔
    Matches pattern (c :: text) ∨ Matches ('*' :: pattern) text := by
  constructor
  · intro h
    obtain ⟨run, rest, hrun, hrest⟩ := star_iff.1 h
    cases run with
    | nil => exact .inl (hrun ▸ hrest)
    | cons d run =>
      obtain ⟨rfl, rfl⟩ := List.cons.inj hrun
      exact .inr (.star run hrest)
  · rintro (h | h)
    · exact .star [] h
    · exact h.star_append [c]

/-- A pattern that neither starts with a star nor fits the first character does not match. -/
theorem not_of_not_fits (hstar : ∀ more, pattern ≠ '*' :: more)
    (hfits : ¬pattern.head?.any (fits · c) = true) : ¬Matches pattern (c :: text) := by
  cases pattern with
  | nil => simp [nil_left_iff]
  | cons sign more =>
    have hsign : sign ≠ '*' := by
      rintro rfl
      exact hstar more rfl
    rw [sign_iff hsign]
    rintro ⟨d, rest, heq, hd, -⟩
    obtain ⟨rfl, rfl⟩ := List.cons.inj heq
    exact hfits (by simpa using hd)

end Matches

def Fitting (signs run : List Char) : Prop :=
  List.Forall₂ (fun sign c => sign ≠ '*' ∧ fits sign c = true) signs run

namespace Fitting

theorem matches_append_iff (h : Fitting signs run) :
    Matches (signs ++ pattern) (run ++ text) ↔ Matches pattern text := by
  induction h with
  | nil => rfl
  | @cons sign c signs run hsign h ih =>
    rw [List.cons_append, List.cons_append, Matches.sign_iff hsign.1, ← ih]
    constructor
    · rintro ⟨d, rest, heq, -, hrest⟩
      obtain ⟨rfl, rfl⟩ := List.cons.inj heq
      exact hrest
    · intro hrest
      exact ⟨c, _, rfl, hsign.2, hrest⟩

/-- Wherever the signs match, they match as many characters. -/
theorem exists_of_matches (h : Fitting signs run) (hm : Matches (signs ++ pattern) text) :
    ∃ run' rest, text = run' ++ rest ∧ run'.length = run.length ∧ Matches pattern rest := by
  induction h generalizing text with
  | nil => exact ⟨[], text, rfl, rfl, hm⟩
  | cons hsign h ih =>
    obtain ⟨c, rest, rfl, -, hrest⟩ := (Matches.sign_iff hsign.1).1 hm
    obtain ⟨run', rest', rfl, hlength, hm'⟩ := ih hrest
    exact ⟨c :: run', rest', rfl, by simp [hlength], hm'⟩

/-- Signs that fit the whole text leave nothing for a star in front of them. -/
theorem star_matches_iff (h : Fitting signs run) :
    Matches ('*' :: (signs ++ pattern)) run ↔ Matches pattern [] := by
  constructor
  · intro hm
    obtain ⟨taken, text, rfl, htext⟩ := Matches.star_iff.1 hm
    obtain ⟨run', rest, rfl, hlength, hrest⟩ := h.exists_of_matches htext
    simp only [List.length_append] at hlength
    obtain rfl : rest = [] := List.eq_nil_of_length_eq_zero (by omega)
    exact hrest
  · intro hm
    have hrun : Matches (signs ++ pattern) (run ++ []) := h.matches_append_iff.2 hm
    rw [List.append_nil] at hrun
    exact .star [] hrun

/-- The first place where the signs between two stars fit is as good as every later one. -/
theorem star_matches_star_iff (h : Fitting signs run) :
    Matches ('*' :: (signs ++ '*' :: pattern)) (run ++ text) ↔ Matches ('*' :: pattern) text := by
  constructor
  · intro hm
    obtain ⟨taken, text', heq, htext'⟩ := Matches.star_iff.1 hm
    obtain ⟨run', rest, rfl, hlength, hrest⟩ := h.exists_of_matches htext'
    -- The later place takes as many characters, so no more is left behind it.
    have hend : rest <:+ run ++ text := ⟨taken ++ run', by rw [heq, List.append_assoc]⟩
    have hle : rest.length ≤ text.length := by
      have := congrArg List.length heq
      simp only [List.length_append] at this
      omega
    obtain ⟨more, rfl⟩ :=
      List.suffix_of_suffix_length_le hend (List.suffix_append run text) hle
    exact hrest.star_append more
  · intro hm
    exact .star [] (h.matches_append_iff.2 hm)

theorem matches_iff (h : Fitting (pattern.take n) (text.take n)) :
    Matches pattern text ↔ Matches (pattern.drop n) (text.drop n) := by
  have hcut : Matches (pattern.take n ++ pattern.drop n) (text.take n ++ text.drop n) ↔
      Matches (pattern.drop n) (text.drop n) := h.matches_append_iff
  rwa [List.take_append_drop, List.take_append_drop] at hcut

theorem succ (h : Fitting (pattern.take n) (text.take n)) (ht : text.drop n = c :: rest)
    (hstar : ∀ more, pattern.drop n ≠ '*' :: more)
    (hfits : (pattern.drop n).head?.any (fits · c) = true) :
    Fitting (pattern.take (n + 1)) (text.take (n + 1)) := by
  cases hp : pattern.drop n with
  | nil =>
    rw [hp] at hfits
    cases hfits
  | cons sign more =>
    rw [hp] at hfits hstar
    have hsign : sign ≠ '*' := by
      rintro rfl
      exact hstar more rfl
    rw [List.take_add, List.take_add, hp, ht]
    exact List.rel_append h (.cons ⟨hsign, by simpa using hfits⟩ .nil)

end Fitting

/-- The loop decides whether its pattern matches its text, behind a star if it has passed one. -/
theorem matchFrom_iff (starred : Bool) (pattern text : List Char) (n : Nat)
    (h : Fitting (pattern.take n) (text.take n)) :
    matchFrom starred pattern text n = true ↔
      Matches (if starred then '*' :: pattern else pattern) text := by
  fun_induction matchFrom starred pattern text n with
  | case1 starred pattern text n ht =>
    rw [← Matches.nil_right_iff]
    cases starred with
    | false => rw [if_neg Bool.false_ne_true, h.matches_iff, ht]
    | true =>
      rw [List.take_of_length_le (List.drop_eq_nil_iff.1 ht)] at h
      rw [if_pos rfl, ← h.star_matches_iff, List.take_append_drop]
  | case2 starred pattern text n c rest ht hpos more hp hlt ih =>
    rw [ih .nil, if_pos rfl]
    cases starred with
    | false => rw [if_neg Bool.false_ne_true, h.matches_iff, ht, hp]
    | true =>
      rw [if_pos rfl, ← h.star_matches_star_iff, ← hp, List.take_append_drop, ← ht,
        List.take_append_drop]
  | case3 starred pattern text n c rest ht hpos hstar hfits hlt ih =>
    exact ih (h.succ ht hstar hfits)
  | case4 pattern text n c rest ht hpos hstar hfits ih =>
    obtain ⟨d, more, rfl⟩ := List.exists_cons_of_length_pos hpos
    have hfail : ¬Matches pattern (d :: more) := by
      rw [h.matches_iff, ht]
      exact Matches.not_of_not_fits hstar hfits
    rw [ih .nil, if_pos rfl, Matches.star_cons_iff, or_iff_right hfail]
    rfl
  | case5 starred pattern text n c rest ht hpos hno hstar hfits =>
    rw [if_neg hno, h.matches_iff, ht]
    exact iff_of_false Bool.false_ne_true (Matches.not_of_not_fits hstar hfits)

/-- The matcher, which ends on all patterns and texts, accepts exactly what the pattern matches. -/
theorem isMatch_iff_matches (pattern text : List Char) :
    isMatch pattern text = true ↔ Matches pattern text :=
  matchFrom_iff false pattern text 0 .nil

end LineBasic.Text.Wildcard
