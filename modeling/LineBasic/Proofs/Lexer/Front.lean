import LineBasic.Lexer
import LineBasic.Proofs.Text.Case
import LineBasic.Proofs.Text.Runs

/-!
# The first lexeme

The lexeme at the start of a text is decided by its first character and by the run that follows it.
Keywords, commands and word operators are whole runs of letters and digits.
-/

set_option autoImplicit false

namespace LineBasic

theorem Word.mem_spellings_of_ofText? {cs : List Char} {w : Word} (h : ofText? cs = some w) :
    (cs, w) ∈ spellings := by
  obtain ⟨front, back, heq, _⟩ := List.lookup_eq_some_iff.1 h
  rw [heq]
  simp

theorem Word.not_isDigit_of_ofText? {cs : List Char} {w : Word} (h : ofText? cs = some w) :
    cs.any Char.isDigit = false := by
  have hall : ∀ e ∈ spellings, e.1.any Char.isDigit = false := by decide
  exact hall _ (mem_spellings_of_ofText? h)

theorem Word.eq_text_of_ofText? {c : Char} {cs : List Char} {w : Word} (hc : c.isAlpha = true)
    (h : ofText? (c :: cs) = some w) : c :: cs = w.text.toList := by
  rcases List.mem_cons.1 (mem_spellings_of_ofText? h) with heq | hmem
  · cases heq
    cases hc
  · obtain ⟨v, _, heq⟩ := List.mem_map.1 hmem
    obtain ⟨htext, rfl⟩ := Prod.mk.inj heq
    exact htext.symm

def Lexicon.NoDigits (l : Lexicon) : Prop :=
  ∀ name ∈ l.commands, name.toList.any Char.isDigit = false

theorem Lexicon.NoDigits.isCommand {l : Lexicon} (h : l.NoDigits) {cs : List Char}
    (hcs : l.isCommand cs = true) : cs.any Char.isDigit = false := by
  obtain ⟨name, hname, heq⟩ := List.any_eq_true.1 hcs
  rw [← beq_iff_eq.1 heq]
  exact h name hname

namespace Lexer

def front (l : Lexicon) : List Char → Except Fault Lexeme
  | [] => .ok ⟨[], 0⟩
  | c :: cs =>
    match keyword? false (c :: cs) with
    | some (w, size) => .ok ⟨[.word w], size⟩
    | none => lexeme l false false c cs

def wordOperators : List Operator := [.AND, .NOT, .OR]

def wordOperator? (run : List Char) : Option Operator :=
  wordOperators.find? fun op => op.lexeme.toList == run

theorem not_isDigit_of_wordOperator? {run : List Char} {op : Operator}
    (h : wordOperator? run = some op) : run.any Char.isDigit = false := by
  have hall : ∀ op ∈ wordOperators, op.lexeme.toList.any Char.isDigit = false := by decide
  have heq := List.find?_some h
  rw [← beq_iff_eq.1 heq]
  exact hall op (List.mem_of_find?_eq_some h)

variable {l : Lexicon} {c : Char} {run rest : List Char}

theorem wordRun_append (hrun : ∀ x ∈ run, x.isAlphanum = true)
    (hrest : ∀ x ∈ rest.head?, x.isAlphanum = false) : wordRun (run ++ rest) = run :=
  Text.takeWhile_append_of_head hrun hrest

theorem eq_of_isPrefix_wordOperators :
    ∀ op ∈ wordOperators, ∀ op' ∈ wordOperators,
      op.lexeme.toList <+: op'.lexeme.toList → op = op' := by decide

theorem wordOperator?_lexeme :
    ∀ op ∈ wordOperators, wordOperator? op.lexeme.toList = some op := by decide

theorem operatorPrefix?_run (hrun : ∀ x ∈ run, x.isAlphanum = true)
    (hrest : ∀ x ∈ rest.head?, x.isAlphanum = false) :
    ((Lexicon.operatorPrefix? (run ++ rest)).filter fun found =>
      false || (wordRun (run ++ rest)).length == found.2) =
      (wordOperator? run).map fun op => (op, run.length) := by
  rw [wordRun_append hrun hrest, Lexicon.operatorPrefix?]
  change Option.filter _ (Option.map _ (wordOperators.find? _)) = _
  have htext : ∀ op : Operator, op.lexeme.length = op.lexeme.toList.length :=
    fun op => op.lexeme.length_toList.symm
  cases hfind : wordOperators.find? fun op => op.lexeme.toList.isPrefixOf (run ++ rest) with
  | none =>
    have hnone : wordOperator? run = none := by
      apply List.find?_eq_none.2
      intro op hop heq
      apply List.find?_eq_none.1 hfind op hop
      rw [beq_iff_eq.1 heq]
      simp
    rw [hnone]
    rfl
  | some op =>
    have hop : op ∈ wordOperators := List.mem_of_find?_eq_some hfind
    have hpre : op.lexeme.toList <+: run ++ rest := by
      have := List.find?_some hfind
      exact List.isPrefixOf_iff_prefix.1 this
    by_cases hlen : run.length = op.lexeme.length
    · have hsame : op.lexeme.toList = run := by
        have hsize : op.lexeme.toList.length = run.length := by rw [← htext, hlen]
        have h := List.prefix_of_prefix_length_le hpre (List.prefix_append run rest)
          (Nat.le_of_eq hsize)
        exact h.eq_of_length hsize
      rw [← hsame, wordOperator?_lexeme op hop]
      simp [htext]
    · have hnone : wordOperator? run = none := by
        apply List.find?_eq_none.2
        intro op' hop' heq
        have hpre' : op'.lexeme.toList <+: run ++ rest := by
          rw [beq_iff_eq.1 heq]
          exact List.prefix_append run rest
        have hsame : op = op' := by
          rcases List.prefix_or_prefix_of_prefix hpre hpre' with h | h
          · exact eq_of_isPrefix_wordOperators op hop op' hop' h
          · exact (eq_of_isPrefix_wordOperators op' hop' op hop h).symm
        apply hlen
        rw [htext, hsame, beq_iff_eq.1 heq]
      simp [hnone, hlen]

theorem number?_of_isAlpha (hc : c.isAlpha = true) (cs : List Char) :
    number? false (c :: cs) = none := by
  have hdigit : c.isDigit = false := Text.not_isDigit_of_isAlpha hc
  have hsign : Number.signOf (c :: cs) = (false, 0) := by
    unfold Number.signOf
    split
    · rename_i heq
      cases heq
      contradiction
    · rename_i heq
      cases heq
      contradiction
    · rfl
  have hrun : Number.digitRun (c :: cs) = [] := by simp [Number.digitRun, hdigit]
  have hpoint : Number.scanFraction (c :: cs) = none := by
    unfold Number.scanFraction
    split
    · rename_i heq
      cases heq
      contradiction
    · rfl
  have hinteger : Number.scanInteger (c :: cs) = none := by
    unfold Number.scanInteger
    split
    · rename_i heq
      cases heq
      contradiction
    · simp [Number.scanDecimal, hsign, hrun]
  have hreal : Number.scanReal (c :: cs) = none := by
    simp [Number.scanReal, Number.scanRealNumeral, hsign, hrun, hpoint]
  simp [number?, hinteger, hreal]

theorem punctuation_of_isAlpha (hc : c.isAlpha = true) (packed : Bool) (cs : List Char) :
    punctuation l packed c cs = .ok (reference l packed c cs) := by
  rw [punctuation, if_neg, if_neg, if_neg, if_neg, if_pos hc]
  all_goals
    rintro rfl
    contradiction

theorem front_run (hc : c.isAlpha = true) (hrun : ∀ x ∈ c :: run, x.isAlphanum = true)
    (hrest : ∀ x ∈ rest.head?, x.isAlphanum = false) :
    front l (c :: run ++ rest) =
      match Word.ofText? (c :: run) with
      | some w => .ok ⟨[.word w], (c :: run).length⟩
      | none =>
        if l.isCommand (c :: run) then
          .ok ⟨[.command (String.ofList (c :: run))], (c :: run).length⟩
        else match wordOperator? (c :: run) with
          | some op => .ok ⟨[.operator op], (c :: run).length⟩
          | none => .ok (reference l false c (run ++ rest)) := by
  have hword : wordRun (c :: run ++ rest) = c :: run := wordRun_append hrun hrest
  have hop : operator? false (c :: run ++ rest) =
      (wordOperator? (c :: run)).map fun op => (op, (c :: run).length) := by
    rw [operator?]
    dsimp only
    rw [operatorPrefix?_run hrun hrest]
    cases wordOperator? (c :: run) with
    | some op => rfl
    | none => simp [hc]
  have hquote : ¬(c = '"' ∨ c = '\'') := by
    rintro (rfl | rfl) <;> contradiction
  have hmark : c ≠ '?' := by
    rintro rfl
    contradiction
  rw [List.cons_append] at hword hop ⊢
  rw [front, keyword?, hword]
  simp only [List.head?_cons, Option.some.injEq, hmark, if_false, Bool.false_eq_true]
  cases Word.ofText? (c :: run) with
  | some w => rfl
  | none =>
    rw [Option.map_none]
    dsimp only
    rw [lexeme, command?, hword]
    simp only [Bool.false_eq_true, if_false, List.isEmpty_cons, Bool.not_false, Bool.true_and]
    by_cases hcommand : l.isCommand (c :: run) = true
    · rw [if_pos hcommand, if_pos hcommand]
    · rw [if_neg hcommand, if_neg hcommand]
      dsimp only
      rw [if_neg hquote, hop]
      cases wordOperator? (c :: run) with
      | some op => rfl
      | none =>
        rw [Option.map_none, number?_of_isAlpha hc]
        exact punctuation_of_isAlpha hc false _

/-- A run with digits is a name, and so is every run that is no other word. -/
theorem front_reference (hl : l.NoDigits) (hc : c.isAlpha = true)
    (hrun : ∀ x ∈ c :: run, x.isAlphanum = true)
    (hrest : ∀ x ∈ rest.head?, x.isAlphanum = false)
    (h : (c :: run).any Char.isDigit = true ∨
      Word.ofText? (c :: run) = none ∧ l.isCommand (c :: run) = false ∧
        wordOperator? (c :: run) = none) :
    front l (c :: run ++ rest) = .ok (reference l false c (run ++ rest)) := by
  obtain ⟨hword, hcommand, hop⟩ : Word.ofText? (c :: run) = none ∧
      l.isCommand (c :: run) = false ∧ wordOperator? (c :: run) = none := by
    rcases h with hany | h
    · refine ⟨?_, ?_, ?_⟩
      · refine Option.eq_none_iff_forall_ne_some.2 fun w hw => ?_
        rw [Word.not_isDigit_of_ofText? hw] at hany
        cases hany
      · refine Bool.eq_false_iff.2 fun hcommand => ?_
        rw [hl.isCommand hcommand] at hany
        cases hany
      · refine Option.eq_none_iff_forall_ne_some.2 fun op hop => ?_
        rw [not_isDigit_of_wordOperator? hop] at hany
        cases hany
    · exact h
  rw [front_run hc hrun hrest, hword]
  dsimp only
  rw [if_neg (by simp [hcommand]), hop]

theorem nameTail_eq (cs : List Char) : nameTail l false cs = wordRun cs := by
  induction cs with
  | nil => rfl
  | cons x cs ih =>
    by_cases hx : x.isAlphanum = true
    · simp [nameTail, wordRun, hx, ih]
    · simp [nameTail, wordRun, hx]

theorem name_run (hrun : ∀ x ∈ c :: run, x.isAlphanum = true)
    (hrest : ∀ x ∈ rest.head?, x.isAlphanum = false) :
    name l false c (run ++ rest) = c :: run ++ kindSuffix rest := by
  have htail : ∀ x ∈ run, x.isAlphanum = true := fun x hx => hrun x (List.mem_cons_of_mem c hx)
  rw [name, nameTail_eq, wordRun_append htail hrest, List.drop_left]

/-- A name that no point with a member follows stands alone. -/
theorem reference_alone {tail after : List Char}
    (h : name l false c (tail ++ after) = c :: tail)
    (hafter : ∀ e more, after = '.' :: e :: more → e.isAlpha = false) :
    reference l false c (tail ++ after) =
      ⟨[.ident (String.ofList (c :: tail))], (c :: tail).length⟩ := by
  have hdrop : (tail ++ after).drop ((c :: tail).length - 1) = after := by simp
  rw [reference, h, hdrop]
  split
  · rename_i e more
    rw [if_neg (by simp [hafter e more rfl])]
  · rfl

/-- A point and a letter make a name the name of a module. -/
theorem reference_member {tail more : List Char} {e : Char} (he : e.isAlpha = true)
    (h : name l false c (tail ++ '.' :: e :: more) = c :: tail) :
    reference l false c (tail ++ '.' :: e :: more) =
      ⟨[.qualifier (String.ofList (c :: tail)), .ident (String.ofList (name l false e more))],
        (c :: tail).length + 1 + (name l false e more).length⟩ := by
  have hdrop : (tail ++ '.' :: e :: more).drop ((c :: tail).length - 1) = '.' :: e :: more := by
    simp
  rw [reference, h, hdrop]
  exact if_pos he

theorem kindSuffix_append_drop (cs : List Char) :
    kindSuffix cs ++ cs.drop (kindSuffix cs).length = cs := by
  unfold kindSuffix
  split <;> rfl

theorem kindSuffix_of_head {cs ds : List Char} (h : ds.head? = cs.head?) :
    kindSuffix ds = kindSuffix cs := by
  cases cs with
  | nil => rw [List.head?_eq_none_iff.1 h]
  | cons c cs =>
    obtain ⟨ds, rfl⟩ := List.head?_eq_some_iff.1 h
    by_cases hd : c = '$'
    · subst hd
      rfl
    · by_cases hp : c = '%'
      · subst hp
        rfl
      · simp [kindSuffix, hd, hp]

/-- A quoted text goes up to the next quote of its kind. -/
theorem exists_of_quoted {q : Char} {cs : List Char} {found : Lexeme}
    (h : quoted q cs = .ok found) :
    ∃ body rest, cs = body ++ q :: rest ∧ q ∉ body ∧
      found = ⟨[.string (String.ofList body)], body.length + 2⟩ := by
  rw [quoted] at h
  split at h
  · rename_i hlt
    cases h
    -- The body ends before the text does, so that the quote follows it.
    obtain ⟨body, after, rfl, hbody, hafter⟩ := Text.exists_run (· != q) cs
    rw [Text.takeWhile_append_of_head hbody hafter] at hlt ⊢
    cases after with
    | nil => simp at hlt
    | cons x rest =>
      have hx : x = q := by simpa using hafter x rfl
      exact ⟨body, rest, by rw [hx], fun hmem => by simpa using hbody q hmem, rfl⟩
  · cases h

end Lexer

end LineBasic
