import LineBasic.Proofs.Listing.Seeking
import LineBasic.Proofs.Text.Runs

/-!
# Runs of letters and digits

A run of letters and digits is rewritten apart from what follows it: it stays as it is, or digits in
it change. A jump word that stands alone stays, and a line number is looked for after it unless a
letter or digit stands in front of it.
-/

set_option autoImplicit false

namespace LineBasic

variable {changes : Renumbering}

theorem isAlphanum_of_mem_jumpWords {w : List Char} {list : Bool} (h : (w, list) ∈ jumpWords) :
    ∀ c ∈ w, c.isAlphanum = true ∧ c.isDigit = false := by
  have hall : jumpWords.all (fun e => e.1.all fun c => c.isAlphanum && !c.isDigit) = true := by
    decide
  intro c hc
  simpa using List.all_eq_true.1 (List.all_eq_true.1 hall _ h) c hc

theorem eq_of_isPrefix_jumpWords {w v : List Char} {list list' : Bool} (hw : (w, list) ∈ jumpWords)
    (hv : (v, list') ∈ jumpWords) (h : w <+: v) : w = v := by
  have hall : ∀ e ∈ jumpWords, ∀ f ∈ jumpWords, e.1 <+: f.1 → e.1 = f.1 := by decide
  exact hall _ hw _ hv h

namespace Seeking

theorem rewrite_after_alphanum {a : Char} (ha : a.isAlphanum = true) {run : List Char}
    (hrun : ∀ c ∈ run, c.isAlphanum = true) (cs : List Char) :
    (word (some a)).rewrite changes (run ++ cs) =
      run ++ (word (some (run.getLastD a))).rewrite changes cs := by
  induction run generalizing a with
  | nil => rfl
  | cons c run ih =>
    have hc := hrun c List.mem_cons_self
    have hcopy : (word (some a)).rewrite changes (c :: (run ++ cs)) = _ :=
      rewriteFrom_copy (Text.not_isQuote_of_isAlphanum hc) (.inl ha)
    rw [List.cons_append, hcopy, List.getLastD_cons]
    exact congrArg (c :: ·) (ih hc fun x hx => hrun x (List.mem_cons_of_mem c hx))

/-- What becomes of a run of letters and digits: it stays, or its digits change. After a jump word
that stands alone a line number is looked for. -/
structure RunRewrite (changes : Renumbering) (b : Option Char) (run rest run' : List Char)
    (s : Seeking) : Prop where
  text : (word b).rewrite changes (run ++ rest) = run' ++ s.rewrite changes rest
  before : s.before = run.getLast?
  head : run'.head? = run.head?
  alphanum : ∀ c ∈ run', c.isAlphanum = true
  digits : run' = run ∨ run.any Char.isDigit = true ∧ run'.any Char.isDigit = true
  jump : ∀ w list, (w, list) ∈ jumpWords → run = w → s.isTarget = !b.any Char.isAlphanum

theorem getLast?_of_getLastD {c a : Char} {cs : List Char} :
    some ((c :: cs).getLastD a) = (c :: cs).getLast? := by
  rw [List.getLastD_cons, List.getLast?_cons, List.getLastD_eq_getLast?]

variable {b : Option Char} {run rest : List Char}

theorem runRewrite_after_alphanum (hb : b.any Char.isAlphanum = true) (hne : run ≠ [])
    (hrun : ∀ c ∈ run, c.isAlphanum = true) :
    RunRewrite changes b run rest run (word run.getLast?) := by
  obtain ⟨c, cs, rfl⟩ := List.exists_cons_of_ne_nil hne
  cases b with
  | none => contradiction
  | some a =>
    exact {
      text := by rw [rewrite_after_alphanum hb hrun, getLast?_of_getLastD]
      before := rfl
      head := rfl
      alphanum := hrun
      digits := .inl rfl
      jump := fun w list hw heq => by rw [hb]; rfl }

theorem runRewrite_of_jumpWord?_eq_none (hj : jumpWord? (run ++ rest) = none) (hne : run ≠ [])
    (hrun : ∀ c ∈ run, c.isAlphanum = true) :
    RunRewrite changes b run rest run (word run.getLast?) := by
  obtain ⟨c, cs, rfl⟩ := List.exists_cons_of_ne_nil hne
  have hc := hrun c List.mem_cons_self
  exact {
    text := by
      have hcopy : (word b).rewrite changes (c :: (cs ++ rest)) = _ :=
        rewriteFrom_copy (Text.not_isQuote_of_isAlphanum hc) (.inr hj)
      rw [List.cons_append, hcopy, ← @getLast?_of_getLastD c c cs, List.getLastD_cons]
      exact congrArg (c :: ·)
        (rewrite_after_alphanum hc (fun x hx => hrun x (List.mem_cons_of_mem c hx)) rest)
    before := rfl
    head := rfl
    alphanum := hrun
    digits := .inl rfl
    jump := fun w list hw heq => by
      have hnot := List.find?_eq_none.1 hj (w, list) hw
      rw [heq] at hnot
      simp at hnot }

theorem isPrefix_of_isPrefix_append {p : Char → Bool} {front xs ys : List Char}
    (h : front <+: xs ++ ys) (hfront : ∀ c ∈ front, p c = true)
    (hys : ∀ c ∈ ys.head?, p c = false) : front <+: xs := by
  induction xs generalizing front with
  | nil =>
    cases front with
    | nil => exact List.nil_prefix
    | cons f front =>
      obtain ⟨more, rfl⟩ := h
      have hf := hys f rfl
      rw [hfront f List.mem_cons_self] at hf
      cases hf
  | cons x xs ih =>
    cases front with
    | nil => exact List.nil_prefix
    | cons f front =>
      obtain ⟨rfl, htail⟩ := List.cons_prefix_cons.1 h
      exact List.cons_prefix_cons.2
        ⟨rfl, ih htail fun c hc => hfront c (List.mem_cons_of_mem f hc)⟩

/-- After a letter or digit the rest of a run is copied from its next letter on. -/
theorem rewrite_tail {s : Seeking} {a : Char} (hs : s.before = some a) (ha : a.isAlphanum = true)
    {c : Char} {cs : List Char} (hcs : ∀ x ∈ c :: cs, x.isAlphanum = true)
    (hc : c.isDigit = false) (rest : List Char) :
    s.rewrite changes (c :: cs ++ rest) =
      c :: cs ++ (word (c :: cs).getLast?).rewrite changes rest := by
  have halpha := hcs c List.mem_cons_self
  have hspace : c ≠ ' ' := by
    rintro rfl
    contradiction
  have hcomma : c ≠ ',' := by
    rintro rfl
    contradiction
  rw [List.cons_append, rewrite_eq_word s _ hspace hcomma fun _ => hc, hs, ← List.cons_append,
    rewrite_after_alphanum ha hcs, getLast?_of_getLastD]

/-- The digits right after a jump word are renumbered, and the rest of the run is copied. -/
theorem exists_rewrite_target_run (hch : ∀ c ∈ changes, 0 ≤ c.2) (list : Bool) (a : Char) {d : Char}
    {tail : List Char} (hd : d.isDigit = true) (htail : ∀ c ∈ d :: tail, c.isAlphanum = true)
    (hrest : ∀ c ∈ rest.head?, c.isAlphanum = false) :
    ∃ tail', ∃ s : Seeking, (target list a).rewrite changes (d :: tail ++ rest) =
        tail' ++ s.rewrite changes rest ∧
      s.before = (d :: tail).getLast? ∧ (∀ c ∈ tail', c.isAlphanum = true) ∧
      tail'.any Char.isDigit = true := by
  let digits := Number.digitRun (d :: tail)
  have hrun : digits = d :: Number.digitRun tail := List.takeWhile_cons_of_pos hd
  have hdigits : ∀ c ∈ digits, c.isDigit = true := fun c => Text.of_mem_takeWhile
  have hne : digits ≠ [] := by simp [hrun]
  obtain ⟨hnew, hnewd⟩ := digits_renumberedDigits hch hne hdigits
  have hany : (renumberedDigits changes digits).any Char.isDigit = true := by
    obtain ⟨x, xs, hx⟩ := List.exists_cons_of_ne_nil hnew
    have := hnewd x (hx ▸ List.mem_cons_self)
    simp [hx, this]
  have hnewa : ∀ c ∈ renumberedDigits changes digits, c.isAlphanum = true := by
    exact fun c hc => Text.isAlphanum_of_isDigit (hnewd c hc)
  let s : Seeking := if list then comma (digits.getLastD a) else word (some (digits.getLastD a))
  have hs : s.before = digits.getLast? := by
    have hlast : some (digits.getLastD a) = digits.getLast? := by
      rw [hrun]
      exact getLast?_of_getLastD
    cases list <;> exact hlast
  have hsplit : digits ++ (d :: tail).drop digits.length = d :: tail :=
    Text.takeWhile_append_drop _ _
  have hafter : ∀ c ∈ ((d :: tail).drop digits.length).head?, c.isDigit = false :=
    Text.head_drop_takeWhile
  generalize (d :: tail).drop digits.length = more at hsplit hafter
  -- The run ends with the digits, or a letter behind them ends the search for line numbers.
  cases more with
  | nil =>
    rw [List.append_nil] at hsplit
    refine ⟨renumberedDigits changes digits, s, ?_, ?_, hnewa, hany⟩
    · rw [← hsplit]
      exact rewrite_target_digits list a hne hdigits fun c hc =>
        Text.not_isDigit_of_not_isAlphanum (hrest c hc)
    · rw [hs, hsplit]
  | cons e more =>
    have hmore : ∀ c ∈ e :: more, c.isAlphanum = true := fun c hc =>
      htail c (hsplit ▸ List.mem_append_right digits hc)
    refine ⟨renumberedDigits changes digits ++ e :: more, word (e :: more).getLast?, ?_, ?_, ?_, ?_⟩
    · have hlast : (digits.getLastD a).isAlphanum = true := by
        rw [hrun]
        exact htail _ (by
          rw [← hsplit, hrun]
          exact List.mem_append_left _ (List.mem_of_getLast? getLast?_of_getLastD.symm))
      have hbefore : s.before = some (digits.getLastD a) := by cases list <;> rfl
      have hhead : ∀ c ∈ (e :: more ++ rest).head?, c.isDigit = false := hafter
      rw [← hsplit, List.append_assoc, rewrite_target_digits list a hne hdigits hhead,
        List.append_assoc]
      exact congrArg _ (rewrite_tail hbefore hlast hmore (hafter e rfl) rest)
    · rw [← hsplit, List.getLast?_append, List.getLast?_cons]
      rfl
    · intro c hc
      rcases List.mem_append.1 hc with hc | hc
      · exact hnewa c hc
      · exact hmore c hc
    · rw [List.any_append, hany]
      rfl

/-- A jump word that starts a text lies in the run at its start. -/
theorem exists_tail_of_jumpWord? {w : List Char} {list : Bool}
    (hj : jumpWord? (run ++ rest) = some (w, list))
    (hrest : ∀ c ∈ rest.head?, c.isAlphanum = false) :
    ∃ c w' tail, w = c :: w' ∧ run = w ++ tail := by
  have hw : (w, list) ∈ jumpWords := List.mem_of_find?_eq_some hj
  have hpre : w.isPrefixOf (run ++ rest) = true := by
    have := List.find?_some hj
    exact this
  obtain ⟨tail, rfl⟩ : w <+: run :=
    isPrefix_of_isPrefix_append (List.isPrefixOf_iff_prefix.1 hpre)
      (fun c hc => (isAlphanum_of_mem_jumpWords hw c hc).1) hrest
  have hall : ∀ e ∈ jumpWords, e.1 ≠ [] := by decide
  obtain ⟨c, w', hcw⟩ := List.exists_cons_of_ne_nil (hall _ hw)
  exact ⟨c, w', tail, hcw, rfl⟩

theorem exists_runRewrite_of_jump (hch : ∀ c ∈ changes, 0 ≤ c.2)
    (hb : b.any Char.isAlphanum = false) {w : List Char} {list : Bool}
    (hj : jumpWord? (run ++ rest) = some (w, list)) (hrun : ∀ c ∈ run, c.isAlphanum = true)
    (hrest : ∀ c ∈ rest.head?, c.isAlphanum = false) :
    ∃ run' s, RunRewrite changes b run rest run' s := by
  have hw : (w, list) ∈ jumpWords := List.mem_of_find?_eq_some hj
  have hletters := isAlphanum_of_mem_jumpWords hw
  obtain ⟨c, w', tail, rfl, rfl⟩ := exists_tail_of_jumpWord? hj hrest
  let last := (c :: w').getLastD c
  have hlast : last.isAlphanum = true := by
    have hmem : last ∈ c :: w' := List.mem_of_getLast? getLast?_of_getLastD.symm
    exact (hletters last hmem).1
  have htext : (word b).rewrite changes (c :: w' ++ tail ++ rest) =
      c :: w' ++ (target list last).rewrite changes (tail ++ rest) := by
    rw [List.append_assoc] at hj ⊢
    exact rewriteFrom_jump hb hj
  have htail : ∀ x ∈ tail, x.isAlphanum = true := fun x hx => hrun x (List.mem_append_right _ hx)
  cases tail with
  | nil =>
    rw [List.append_nil] at hrun
    refine ⟨c :: w', target list last, ?_⟩
    rw [List.append_nil]
    exact {
      text := by rwa [List.append_nil] at htext
      before := getLast?_of_getLastD
      head := rfl
      alphanum := hrun
      digits := .inl rfl
      jump := fun v list' hv heq => by rw [hb]; rfl }
  | cons d tail =>
    -- No jump word is longer than another one by a letter or digit.
    have hjump : ∀ v list', (v, list') ∈ jumpWords → c :: w' ++ d :: tail ≠ v := by
      intro v list' hv heq
      have hsame := eq_of_isPrefix_jumpWords hw hv (heq ▸ List.prefix_append _ _)
      rw [← heq] at hsame
      simp at hsame
    by_cases hd : d.isDigit = true
    · obtain ⟨tail', s, hrewrite, hbefore, halpha, hany⟩ :=
        exists_rewrite_target_run hch list last hd htail hrest
      refine ⟨c :: w' ++ tail', s, ?_⟩
      exact {
        text := by rw [htext, hrewrite, List.append_assoc]
        before := by
          rw [hbefore, List.getLast?_append, List.getLast?_cons]
          rfl
        head := rfl
        alphanum := by
          intro x hx
          rcases List.mem_append.1 hx with hx | hx
          · exact (hletters x hx).1
          · exact halpha x hx
        digits := .inr ⟨by simp [hd], by simp only [List.any_append, hany, Bool.or_true]⟩
        jump := fun v list' hv heq => absurd heq (hjump v list' hv) }
    · refine ⟨c :: w' ++ d :: tail, word (d :: tail).getLast?, ?_⟩
      exact {
        text := by
          rw [htext, rewrite_tail rfl hlast htail (by simpa using hd), ← List.append_assoc]
        before := by
          rw [List.getLast?_append, List.getLast?_cons]
          rfl
        head := rfl
        alphanum := hrun
        digits := .inl rfl
        jump := fun v list' hv heq => absurd heq (hjump v list' hv) }

/-- Every run of letters and digits is rewritten apart from what follows it. -/
theorem exists_runRewrite (hch : ∀ c ∈ changes, 0 ≤ c.2) (b : Option Char) (hne : run ≠ [])
    (hrun : ∀ c ∈ run, c.isAlphanum = true) (hrest : ∀ c ∈ rest.head?, c.isAlphanum = false) :
    ∃ run' s, RunRewrite changes b run rest run' s := by
  by_cases hb : b.any Char.isAlphanum = true
  · exact ⟨run, _, runRewrite_after_alphanum hb hne hrun⟩
  · cases hj : jumpWord? (run ++ rest) with
    | none => exact ⟨run, _, runRewrite_of_jumpWord?_eq_none hj hne hrun⟩
    | some found => exact exists_runRewrite_of_jump hch (by simpa using hb) hj hrun hrest

end Seeking

end LineBasic
