import LineBasic.Proofs.Listing.Lexemes

/-!
# Renumbering keeps words and names

A keyword, a command or a word operator stays as it is, since it has no digits. A name stays a name:
what renumbering changes in it are digits behind a jump word at its start.
-/

set_option autoImplicit false

namespace LineBasic.Seeking

open Lexer (Lexeme front kindSuffix)

variable {changes : Renumbering} {l : Lexicon}

theorem head_rewrite_of_not_target {s : Seeking} (hs : s.isTarget = false) (cs : List Char) :
    (s.rewrite changes cs).head? = cs.head? := by
  have hnone : ∀ c : Char, (fun _ => false : Char → Bool) c = true → isCopied c = true := by simp
  exact (sameUntil_rewrite hnone hs cs).head

theorem exists_rewrite_suffix (changes : Renumbering) (s : Seeking) {rest : List Char}
    (hrest : ∀ x ∈ rest.head?, x.isDigit = false) :
    ∃ s' : Seeking, s.rewrite changes rest =
        kindSuffix rest ++ s'.rewrite changes (rest.drop (kindSuffix rest).length) ∧
      s'.before = (kindSuffix rest).getLast?.or s.before ∧
      (s'.rewrite changes (rest.drop (kindSuffix rest).length)).head? =
        (rest.drop (kindSuffix rest).length).head? := by
  by_cases hnone : kindSuffix rest = []
  · rw [hnone]
    exact ⟨s, rfl, rfl, head_rewrite s hrest⟩
  · have hall : (kindSuffix rest).all (fun x => isCopied x && !x.isDigit) = true := by
      unfold kindSuffix
      split <;> decide
    have hsuffix : ∀ x ∈ kindSuffix rest, isCopied x = true ∧ x.isDigit = false := by
      intro x hx
      simpa using List.all_eq_true.1 hall x hx
    obtain ⟨s', htext, hbefore, htarget⟩ := exists_rewrite_copy changes s
      (fun x hx => (hsuffix x hx).1) (fun _ x hx => (hsuffix x (List.mem_of_head? hx)).2)
      (rest.drop (kindSuffix rest).length)
    rw [Lexer.kindSuffix_append_drop] at htext
    exact ⟨s', htext, hbefore, head_rewrite_of_not_target (htarget (.inl hnone)) _⟩

structure NameRewrite (l : Lexicon) (changes : Renumbering) (b : Option Char) (c : Char)
    (tail after tail' : List Char) (s : Seeking) : Prop where
  old : Lexer.name l false c (tail ++ after) = c :: tail
  new : Lexer.name l false c (tail' ++ s.rewrite changes after) = c :: tail'
  text : (word b).rewrite changes (c :: tail ++ after) = c :: tail' ++ s.rewrite changes after
  before : s.before = (c :: tail).getLast?
  head : (s.rewrite changes after).head? = after.head?

theorem exists_nameRewrite_of_run {b : Option Char} {c : Char} {run rest run' : List Char}
    {s : Seeking} (h : RunRewrite changes b (c :: run) rest (c :: run') s)
    (hrun : ∀ x ∈ c :: run, x.isAlphanum = true)
    (hrest : ∀ x ∈ rest.head?, x.isAlphanum = false) :
    ∃ tail after tail' s', run ++ rest = tail ++ after ∧
      run' ++ s.rewrite changes rest = tail' ++ s'.rewrite changes after ∧
      NameRewrite l changes b c tail after tail' s' := by
  have hdigit : ∀ x ∈ rest.head?, x.isDigit = false := fun x hx =>
    Text.not_isDigit_of_not_isAlphanum (hrest x hx)
  have hhead : (s.rewrite changes rest).head? = rest.head? := head_rewrite s hdigit
  have hrest' : ∀ x ∈ (s.rewrite changes rest).head?, x.isAlphanum = false := by
    rw [hhead]
    exact hrest
  obtain ⟨s', htext, hbefore, hafter⟩ := exists_rewrite_suffix changes s hdigit
  have hold : run ++ rest = run ++ kindSuffix rest ++ rest.drop (kindSuffix rest).length := by
    rw [List.append_assoc, Lexer.kindSuffix_append_drop]
  have hnew : run' ++ s.rewrite changes rest =
      run' ++ kindSuffix rest ++ s'.rewrite changes (rest.drop (kindSuffix rest).length) := by
    rw [List.append_assoc, ← htext]
  refine ⟨_, _, _, s', hold, hnew, ?_⟩
  exact {
    old := by rw [← hold, Lexer.name_run hrun hrest, List.cons_append]
    new := by
      rw [← hnew, Lexer.name_run h.alphanum hrest', Lexer.kindSuffix_of_head hhead,
        List.cons_append]
    text := by
      rw [List.cons_append, ← hold, ← List.cons_append, h.text, List.cons_append, hnew]
      rfl
    before := by
      rw [hbefore, h.before, ← List.cons_append, List.getLast?_append]
    head := hafter }

theorem exists_word_run {c : Char} (hc : c.isAlpha = true) (cs : List Char) :
    ∃ run rest, cs = run ++ rest ∧ (∀ x ∈ c :: run, x.isAlphanum = true) ∧
      ∀ x ∈ rest.head?, x.isAlphanum = false := by
  obtain ⟨run, rest, hsplit, hrun, hrest⟩ := Text.exists_run Char.isAlphanum cs
  refine ⟨run, rest, hsplit, fun x hx => ?_, hrest⟩
  rcases List.mem_cons.1 hx with rfl | hx
  · exact Text.isAlphanum_of_isAlpha hc
  · exact hrun x hx

theorem exists_nameRewrite (hch : changes.InRange) (b : Option Char) {c : Char}
    (hc : c.isAlpha = true) (cs : List Char) :
    ∃ tail after tail' s, cs = tail ++ after ∧ NameRewrite l changes b c tail after tail' s := by
  obtain ⟨run, rest, rfl, hrun, hrest⟩ := exists_word_run hc cs
  obtain ⟨run', s, hrewrite⟩ :=
    exists_runRewrite (fun e he => (hch e he).1) b (List.cons_ne_nil c run) hrun hrest
  obtain ⟨run', rfl⟩ := List.head?_eq_some_iff.1 hrewrite.head
  obtain ⟨tail, after, tail', s', heq, _, hname⟩ :=
    exists_nameRewrite_of_run (l := l) hrewrite hrun hrest
  exact ⟨tail, after, tail', s', heq, hname⟩

/-- A point is copied and ends every search but that for a word. -/
theorem rewrite_point (s : Seeking) (cs : List Char) :
    s.rewrite changes ('.' :: cs) = '.' :: (word (some '.')).rewrite changes cs := by
  rw [rewrite_eq_word s cs (by decide) (by decide) fun _ => by decide]
  exact rewrite_word_plain (by decide) s.before cs

/-- No member follows a name after renumbering unless one did before. -/
theorem not_member_rewrite {s : Seeking} {after : List Char}
    (hhead : (s.rewrite changes after).head? = after.head?)
    (hafter : ∀ e more, after = '.' :: e :: more → e.isAlpha = false) (e : Char)
    (more : List Char) (h : s.rewrite changes after = '.' :: e :: more) : e.isAlpha = false := by
  rw [h] at hhead
  obtain ⟨cs, rfl⟩ := List.head?_eq_some_iff.1 hhead.symm
  rw [rewrite_point] at h
  have hnext : (e :: more).head? = cs.head? := by
    rw [← List.tail_eq_of_cons_eq h]
    exact head_rewrite_word _ cs
  obtain ⟨ds, rfl⟩ := List.head?_eq_some_iff.1 hnext.symm
  exact hafter e ds rfl

theorem rewrite_letter (s : Seeking) {c : Char} (hc : c.isAlpha = true) (cs : List Char) :
    s.rewrite changes (c :: cs) = (word s.before).rewrite changes (c :: cs) := by
  refine rewrite_eq_word s cs ?_ ?_ fun _ => Text.not_isDigit_of_isAlpha hc
  · rintro rfl
    cases hc
  · rintro rfl
    cases hc

theorem start_letter {c : Char} (hc : c.isAlpha = true) :
    Text.isSpacing c = false ∧ c ≠ ':' := by
  constructor
  · refine Bool.eq_false_iff.2 fun hs => ?_
    simp only [Text.isSpacing, Bool.or_eq_true, beq_iff_eq] at hs
    rcases hs with ((rfl | rfl) | rfl) | rfl <;> cases hc
  · rintro rfl
    cases hc

/-- A reference is followed by a reference of the same shape. -/
theorem lexemeFollows_reference (hch : changes.InRange) (s : Seeking) {c : Char}
    (hc : c.isAlpha = true) {tail after tail' : List Char} {s₁ : Seeking}
    (h : NameRewrite l changes s.before c tail after tail' s₁)
    (hfront : front l (c :: tail' ++ s₁.rewrite changes after) =
      .ok (Lexer.reference l false c (tail' ++ s₁.rewrite changes after))) :
    LexemeFollows l changes s (c :: tail ++ after) (Lexer.reference l false c (tail ++ after)) := by
  have hstart := start_letter hc
  have htext := (rewrite_letter s hc (tail ++ after)).trans h.text
  by_cases hmember : ∀ e more, after = '.' :: e :: more → e.isAlpha = false
  · have hmember' := not_member_rewrite h.head hmember
    rw [Lexer.reference_alone h.old hmember]
    rw [Lexer.reference_alone h.new hmember'] at hfront
    exact ⟨c :: tail, after, c :: tail', _, s₁, rfl, {
      text := htext
      front := hfront
      old_ne := by simp
      old_size := rfl
      new_size := rfl
      start := ⟨c, tail', rfl, hstart⟩
      before := h.before
      tokens := .one (.of_other (by simp) (by simp) (by simp) (by simp))
      jump := fun w _ heq => by simp at heq }⟩
  · obtain ⟨e, more, rfl, he⟩ : ∃ e more, after = '.' :: e :: more ∧ e.isAlpha = true := by
      simpa using hmember
    obtain ⟨tail₂, after₂, tail₂', s₂, rfl, h₂⟩ :=
      exists_nameRewrite (l := l) hch (some '.') he more
    have hpoint : s₁.rewrite changes ('.' :: e :: (tail₂ ++ after₂)) =
        '.' :: e :: (tail₂' ++ s₂.rewrite changes after₂) := by
      rw [rewrite_point]
      exact congrArg ('.' :: ·) h₂.text
    have hnew := h.new
    rw [hpoint] at hnew hfront
    rw [Lexer.reference_member he hnew, h₂.new] at hfront
    rw [Lexer.reference_member he h.old, h₂.old]
    exact ⟨c :: tail ++ '.' :: e :: tail₂, after₂, c :: tail' ++ '.' :: e :: tail₂',
      ⟨[.qualifier (String.ofList (c :: tail')), .ident (String.ofList (e :: tail₂'))],
        (c :: tail').length + 1 + (e :: tail₂').length⟩, s₂, by simp, {
      text := by
        rw [hpoint] at htext
        simpa using htext
      front := by simpa using hfront
      old_ne := by simp
      old_size := by
        simp only [List.length_append, List.length_cons]
        omega
      new_size := by
        simp only [List.length_append, List.length_cons]
        omega
      start := ⟨c, _, rfl, hstart⟩
      before := by
        rw [h₂.before, List.getLast?_append, List.getLast?_cons_cons, List.getLast?_cons]
        rfl
      tokens := .member _ _ _ _
      jump := fun w _ heq => by simp at heq }⟩

theorem lexemeFollows_word (s : Seeking) {c : Char} {run rest : List Char} {s' : Seeking}
    {t : Token} (hc : c.isAlpha = true)
    (h : RunRewrite changes s.before (c :: run) rest (c :: run) s')
    (hrest : ∀ x ∈ rest.head?, x.isAlphanum = false)
    (hfront : ∀ more : List Char, (∀ x ∈ more.head?, x.isAlphanum = false) →
      front l (c :: run ++ more) = .ok ⟨[t], (c :: run).length⟩)
    (hinteger : ∀ text, t ≠ .integer text)
    (hjump : ∀ w : Word, t = .word w → Word.ofText? (c :: run) = some w) :
    LexemeFollows l changes s (c :: run ++ rest) ⟨[t], (c :: run).length⟩ := by
  have hhead : (s'.rewrite changes rest).head? = rest.head? :=
    head_rewrite s' fun x hx => Text.not_isDigit_of_not_isAlphanum (hrest x hx)
  exact ⟨c :: run, rest, c :: run, ⟨[t], (c :: run).length⟩, s', rfl, {
    text := (rewrite_letter s hc _).trans h.text
    front := hfront _ (by rw [hhead]; exact hrest)
    old_ne := by simp
    old_size := rfl
    new_size := rfl
    start := ⟨c, run, rfl, start_letter hc⟩
    before := h.before
    tokens := .one (.refl fun digits _ => hinteger _)
    jump := fun w hw heq => by
      have hspelled := Word.eq_text_of_ofText? hc (hjump w (List.head_eq_of_cons_eq heq))
      obtain ⟨list, hmem⟩ := Word.exists_mem_jumpWords hw
      exact h.jump w.text.toList list hmem hspelled }⟩

theorem lexemeFollows_letter (hl : l.NoDigits) (hch : changes.InRange) (s : Seeking) {c : Char}
    {cs : List Char} {found : Lexeme} (hc : c.isAlpha = true)
    (h : front l (c :: cs) = .ok found) : LexemeFollows l changes s (c :: cs) found := by
  obtain ⟨run, rest, rfl, hrun, hrest⟩ := exists_word_run hc cs
  obtain ⟨run', s₁, hrewrite⟩ :=
    exists_runRewrite (fun e he => (hch e he).1) s.before (List.cons_ne_nil c run) hrun hrest
  obtain ⟨run', rfl⟩ := List.head?_eq_some_iff.1 hrewrite.head
  -- A run without digits stays, so what it stands for stays too.
  have hkeep : (c :: run).any Char.isDigit = false →
      RunRewrite changes s.before (c :: run) rest (c :: run) s₁ := by
    intro hnone
    rcases hrewrite.digits with heq | ⟨hany, _⟩
    · rwa [heq] at hrewrite
    · rw [hnone] at hany
      cases hany
  rw [← List.cons_append, Lexer.front_run hc hrun hrest] at h
  cases hw : Word.ofText? (c :: run) with
  | some w =>
    rw [hw] at h
    cases h
    exact lexemeFollows_word s hc (hkeep (Word.not_isDigit_of_ofText? hw)) hrest
      (fun more hmore => by rw [Lexer.front_run hc hrun hmore, hw]) (by simp)
      (fun v heq => by cases heq; exact hw)
  | none =>
    rw [hw] at h
    dsimp only at h
    by_cases hcommand : l.isCommand (c :: run) = true
    · rw [if_pos hcommand] at h
      cases h
      exact lexemeFollows_word s hc (hkeep (hl.isCommand hcommand)) hrest
        (fun more hmore => by
          rw [Lexer.front_run hc hrun hmore, hw]
          exact if_pos hcommand) (by simp) (by simp)
    · rw [if_neg hcommand] at h
      cases hop : Lexer.wordOperator? (c :: run) with
      | some op =>
        rw [hop] at h
        cases h
        exact lexemeFollows_word s hc (hkeep (Lexer.not_isDigit_of_wordOperator? hop)) hrest
          (fun more hmore => by
            rw [Lexer.front_run hc hrun hmore, hw]
            dsimp only
            rw [if_neg hcommand, hop]) (by simp) (by simp)
      | none =>
        rw [hop] at h
        cases h
        obtain ⟨tail, after, tail', s₂, hold, hnew, hname⟩ :=
          exists_nameRewrite_of_run (l := l) hrewrite hrun hrest
        have hhead : (s₁.rewrite changes rest).head? = rest.head? :=
          head_rewrite s₁ fun x hx => Text.not_isDigit_of_not_isAlphanum (hrest x hx)
        have hkind : (c :: run').any Char.isDigit = true ∨
            Word.ofText? (c :: run') = none ∧ l.isCommand (c :: run') = false ∧
              Lexer.wordOperator? (c :: run') = none := by
          rcases hrewrite.digits with heq | ⟨_, hany⟩
          · rw [heq]
            exact .inr ⟨hw, by simpa using hcommand, hop⟩
          · exact .inl hany
        have hfront := Lexer.front_reference hl hc hrewrite.alphanum (by rw [hhead]; exact hrest)
          hkind
        rw [List.cons_append, hnew] at hfront
        rw [hold]
        exact lexemeFollows_reference hch s hc hname hfront

/-- Renumbering keeps every lexeme, whatever it looks for. -/
theorem lexemeFollows (hl : l.NoDigits) (hch : changes.InRange) (s : Seeking) {c : Char}
    {cs : List Char} {found : Lexeme} (hspace : Text.isSpacing c = false) (hcolon : c ≠ ':')
    (h : front l (c :: cs) = .ok found) : LexemeFollows l changes s (c :: cs) found := by
  by_cases halpha : c.isAlpha = true
  · exact lexemeFollows_letter hl hch s halpha h
  · by_cases hdigit : c.isDigit = true
    · exact lexemeFollows_digit hl hch s hdigit h
    · have hc : c.isAlphanum = false := by
        show (c.isAlpha || c.isDigit) = false
        simp [halpha, hdigit]
      by_cases hq : Text.isQuote c = true
      · exact lexemeFollows_quoted s hq h
      · by_cases hcomma : c = ','
        · subst hcomma
          exact lexemeFollows_comma s h
        · exact lexemeFollows_symbol s hc (by simpa using hq) hspace hcolon hcomma h

end LineBasic.Seeking
