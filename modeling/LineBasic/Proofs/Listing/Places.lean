import Mathlib.Data.List.Induction
import LineBasic.Proofs.Listing.Seeking

/-!
# Where references stand

Whether a run of digits is a reference can be told from the text in front of it. There is a jump
word outside quotes, at the start of a word, and then nothing but blanks; behind `GOTO` and `GOSUB`
there may also be other line numbers with a comma behind each of them. The lemmas here say what the
last character of such a text can be.
-/

set_option autoImplicit false

namespace LineBasic

def WordStart (before : List Char) : Prop :=
  Text.quoteAfter none before = none ∧ before.getLast?.any Char.isAlphanum = false

/-- What can come next behind a jump word: a line number, which with `list` may be one of many, or
the comma behind it. -/
inductive Sought where
  | number (list : Bool)
  | comma
  deriving DecidableEq

inductive Awaits : Sought → List Char → Prop
  | jump {before w : List Char} {list : Bool} (hstart : WordStart before)
      (hw : (w, list) ∈ jumpWords) : Awaits (.number list) (before ++ w)
  | space {x : Sought} {before : List Char} (h : Awaits x before) : Awaits x (before ++ [' '])
  | digits {before digits : List Char} (h : Awaits (.number true) before) (hne : digits ≠ [])
      (hdigits : ∀ c ∈ digits, c.isDigit = true) : Awaits .comma (before ++ digits)
  | comma {before : List Char} (h : Awaits .comma before) :
      Awaits (.number true) (before ++ [','])

/-- A run of digits, with all the digits that stand together, is the line number that the
text in front of it waits for. -/
structure IsReference (before digits after : List Char) : Prop where
  awaits : ∃ list, Awaits (.number list) before
  ne_nil : digits ≠ []
  isDigit : ∀ c ∈ digits, c.isDigit = true
  ends : ∀ c ∈ after.head?, c.isDigit = false

section

variable {w v : List Char} {list list' : Bool}

theorem isAlpha_of_mem_jumpWords (h : (w, list) ∈ jumpWords) {c : Char} (hc : c ∈ w) :
    c.isAlpha = true := by
  have hall : jumpWords.all (fun e => e.1.all Char.isAlpha) = true := by decide
  exact List.all_eq_true.1 (List.all_eq_true.1 hall _ h) c hc

theorem ne_nil_of_mem_jumpWords (h : (w, list) ∈ jumpWords) : w ≠ [] := by
  have hall : ∀ e ∈ jumpWords, e.1 ≠ [] := by decide
  exact hall _ h

theorem eq_of_jumpWord_start (hw : (w, list) ∈ jumpWords) (hv : (v, list') ∈ jumpWords)
    (h : w <+: v) : w = v := by
  have hall : ∀ e ∈ jumpWords, ∀ f ∈ jumpWords, e.1 <+: f.1 → e.1 = f.1 := by decide
  exact hall _ hw _ hv h

theorem list_eq_of_jumpWord_end (hw : (w, list) ∈ jumpWords) (hv : (v, list') ∈ jumpWords)
    (h : w <:+ v) : list = list' := by
  have hall : ∀ e ∈ jumpWords, ∀ f ∈ jumpWords, e.1 <:+ f.1 → e.2 = f.2 := by decide
  exact hall _ hw _ hv h

end

theorem concat_inj {as bs : List Char} {c d : Char} (h : as ++ [c] = bs ++ [d]) :
    as = bs ∧ c = d := by
  obtain ⟨has, hc⟩ := List.append_inj' h rfl
  exact ⟨has, List.singleton_inj.1 hc⟩

/-- The last character of a text stands at the end of its last part. -/
theorem exists_concat {text front back : List Char} {c : Char} (h : text ++ [c] = front ++ back)
    (hne : back ≠ []) : ∃ body, back = body ++ [c] ∧ text = front ++ body := by
  rcases List.eq_nil_or_concat back with rfl | ⟨body, d, rfl⟩
  · exact absurd rfl hne
  · rw [List.concat_eq_append, ← List.append_assoc] at h
    obtain ⟨rfl, rfl⟩ := concat_inj h
    exact ⟨body, List.concat_eq_append, rfl⟩

namespace Awaits

variable {x : Sought} {before : List Char} {c : Char} {list : Bool}

/-- The last character of a text that waits for something, and the text in front of it. -/
theorem cases_concat (h : Awaits x (before ++ [c])) :
    c = ' ' ∧ Awaits x before ∨
    c = ',' ∧ x = .number true ∧ Awaits .comma before ∨
    c.isDigit = true ∧ x = .comma ∧ (Awaits (.number true) before ∨
      before.getLast?.any Char.isDigit = true ∧ Awaits .comma before) ∨
    ∃ front w list, before = front ++ w ∧ x = .number list ∧ WordStart front ∧
      (w ++ [c], list) ∈ jumpWords := by
  generalize htext : before ++ [c] = text at h
  cases h with
  | @jump front w list hstart hw =>
    obtain ⟨body, rfl, rfl⟩ := exists_concat htext (ne_nil_of_mem_jumpWords hw)
    exact .inr (.inr (.inr ⟨front, body, list, rfl, rfl, hstart, hw⟩))
  | space h =>
    obtain ⟨rfl, rfl⟩ := concat_inj htext
    exact .inl ⟨rfl, h⟩
  | @digits front digits h hne hdigits =>
    obtain ⟨body, rfl, rfl⟩ := exists_concat htext hne
    refine .inr (.inr (.inl ⟨hdigits c (by simp), rfl, ?_⟩))
    have hbody : ∀ c ∈ body, c.isDigit = true := fun c hc => hdigits c (List.mem_append_left _ hc)
    cases hlast : body.getLast? with
    | none =>
      rw [List.getLast?_eq_none_iff.1 hlast, List.append_nil]
      exact .inl h
    | some d =>
      have hd := List.mem_of_getLast? hlast
      refine .inr ⟨?_, .digits h (List.ne_nil_of_mem hd) hbody⟩
      rw [List.getLast?_append, hlast]
      exact hbody d hd
  | comma h =>
    obtain ⟨rfl, rfl⟩ := concat_inj htext
    exact .inr (.inl ⟨rfl, rfl, h⟩)

theorem ne_nil (h : Awaits x before) : before ≠ [] := by
  cases h with
  | jump hstart hw => simp [ne_nil_of_mem_jumpWords hw]
  | space h => simp
  | digits h hne hdigits => simp [hne]
  | comma h => simp

/-- Away from letters and digits, a text waits for something only behind a blank or a comma. -/
theorem of_not_isAlphanum (h : Awaits x (before ++ [c])) (hc : c.isAlphanum = false) :
    c = ' ' ∧ Awaits x before ∨ c = ',' ∧ x = .number true ∧ Awaits .comma before := by
  rcases h.cases_concat with h | h | ⟨hdigit, -⟩ | ⟨front, w, list, -, -, -, hw⟩
  · exact .inl h
  · exact .inr h
  · rw [Text.isAlphanum_of_isDigit hdigit] at hc
    cases hc
  · rw [Text.isAlphanum_of_isAlpha (isAlpha_of_mem_jumpWords hw (by simp))] at hc
    cases hc

theorem space_iff : Awaits x (before ++ [' ']) ↔ Awaits x before := by
  refine ⟨fun h => ?_, .space⟩
  rcases h.of_not_isAlphanum rfl with ⟨-, h⟩ | ⟨hc, -⟩
  · exact h
  · cases hc

theorem comma_iff : Awaits x (before ++ [',']) ↔ x = .number true ∧ Awaits .comma before := by
  constructor
  · intro h
    rcases h.of_not_isAlphanum rfl with ⟨hc, -⟩ | ⟨-, h⟩
    · cases hc
    · exact h
  · rintro ⟨rfl, h⟩
    exact .comma h

/-- Behind a digit, a text waits for a comma at most. -/
theorem of_isDigit (h : Awaits x (before ++ [c])) (hc : c.isDigit = true) :
    x = .comma ∧ (Awaits (.number true) before ∨
      before.getLast?.any Char.isDigit = true ∧ Awaits .comma before) := by
  rcases h.cases_concat with ⟨rfl, -⟩ | ⟨rfl, -⟩ | ⟨-, h⟩ | ⟨front, w, list, -, -, -, hw⟩
  · cases hc
  · cases hc
  · exact h
  · rw [Text.not_isDigit_of_isAlpha (isAlpha_of_mem_jumpWords hw (by simp))] at hc
    cases hc

/-- A line number starts where it is looked for: no digit stands in front of it. -/
theorem not_isDigit (h : Awaits (.number list) (before ++ [c])) : c.isDigit = false := by
  refine Bool.eq_false_iff.2 fun hc => ?_
  cases (h.of_isDigit hc).1

theorem getLast_not_isDigit (h : Awaits (.number list) before) :
    before.getLast?.any Char.isDigit = false := by
  rcases List.eq_nil_or_concat before with rfl | ⟨front, c, rfl⟩
  · rfl
  · rw [List.concat_eq_append] at h ⊢
    rw [List.getLast?_concat]
    exact h.not_isDigit

/-- No quote is open where a text waits for something. -/
theorem quoteAfter (h : Awaits x before) : Text.quoteAfter none before = none := by
  have hadd {front more : List Char} (hfront : Text.quoteAfter none front = none)
      (hmore : ∀ c ∈ more, Text.isQuote c = false) :
      Text.quoteAfter none (front ++ more) = none := by
    rw [Text.quoteAfter_append, hfront, Text.quoteAfter_of_not_isQuote hmore]
  induction h with
  | jump hstart hw =>
    exact hadd hstart.1 fun c hc => Text.not_isQuote_of_isAlphanum
      (Text.isAlphanum_of_isAlpha (isAlpha_of_mem_jumpWords hw hc))
  | space h ih => exact hadd ih (List.forall_mem_singleton.2 rfl)
  | digits h hne hdigits ih =>
    exact hadd ih fun c hc => Text.not_isQuote_of_isDigit (hdigits c hc)
  | comma h ih => exact hadd ih (List.forall_mem_singleton.2 rfl)

/-- Behind a jump word a text waits for a line number, and for nothing else. -/
theorem jump_iff {w : List Char} (hstart : WordStart before) (hw : (w, list) ∈ jumpWords) :
    Awaits x (before ++ w) ↔ x = .number list := by
  refine ⟨fun h => ?_, fun hx => hx ▸ .jump hstart hw⟩
  rcases List.eq_nil_or_concat w with rfl | ⟨body, c, rfl⟩
  · exact absurd rfl (ne_nil_of_mem_jumpWords hw)
  · rw [List.concat_eq_append] at hw h
    have hc : c.isAlpha = true := isAlpha_of_mem_jumpWords hw (by simp)
    rw [← List.append_assoc] at h
    rcases h.cases_concat with ⟨rfl, -⟩ | ⟨rfl, -⟩ | ⟨hdigit, -⟩ |
      ⟨front, v, list', hv, rfl, -, hmem⟩
    · cases hc
    · cases hc
    · rw [Text.not_isDigit_of_isAlpha hc] at hdigit
      cases hdigit
    · -- Two jump words end here, so one of them ends with the other.
      have hbody : body ++ [c] <:+ before ++ body ++ [c] := ⟨before, (List.append_assoc ..).symm⟩
      have hv : v ++ [c] <:+ before ++ body ++ [c] := ⟨front, by rw [hv, List.append_assoc]⟩
      rcases List.suffix_or_suffix_of_suffix hbody hv with hends | hends
      · rw [list_eq_of_jumpWord_end hw hmem hends]
      · rw [list_eq_of_jumpWord_end hmem hw hends]

/-- Behind a whole number a text waits for a comma exactly if the number is one of a list. -/
theorem digits_iff {digits : List Char} (hne : digits ≠ [])
    (hdigits : ∀ c ∈ digits, c.isDigit = true)
    (hbefore : before.getLast?.any Char.isDigit = false) :
    Awaits x (before ++ digits) ↔ x = .comma ∧ Awaits (.number true) before := by
  constructor
  · intro h
    induction digits using List.reverseRecOn generalizing x with
    | nil => exact absurd rfl hne
    | append_singleton ds d ih =>
      have hds : ∀ c ∈ ds, c.isDigit = true := fun c hc => hdigits c (List.mem_append_left _ hc)
      rw [← List.append_assoc] at h
      obtain ⟨hx, h⟩ := h.of_isDigit (hdigits d (by simp))
      refine ⟨hx, ?_⟩
      rcases List.eq_nil_or_concat ds with rfl | ⟨body, e, rfl⟩
      · rw [List.append_nil, hbefore] at h
        exact h.resolve_right fun h => Bool.false_ne_true h.1
      · rw [List.concat_eq_append] at h ih hds
        rcases h with h | ⟨-, h⟩
        · rw [← List.append_assoc] at h
          exact absurd (hds e (by simp)) (by rw [h.not_isDigit]; exact Bool.false_ne_true)
        · exact (ih (by simp) hds h).2
  · rintro ⟨rfl, h⟩
    exact .digits h hne hdigits

end Awaits

/-- The digits of a reference end where no more digits follow. -/
theorem IsReference.eq {before digits after run rest : List Char}
    (h : IsReference before digits after) (hrun : ∀ c ∈ run, c.isDigit = true)
    (hrest : ∀ c ∈ rest.head?, c.isDigit = false) (heq : run ++ rest = digits ++ after) :
    run = digits ∧ rest = after := by
  have hdigits : run = digits := by
    rw [← Text.takeWhile_append_of_head hrun hrest, heq,
      Text.takeWhile_append_of_head h.isDigit h.ends]
  subst hdigits
  exact ⟨rfl, List.append_cancel_left heq⟩

end LineBasic
