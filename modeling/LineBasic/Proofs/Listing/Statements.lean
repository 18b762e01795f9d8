import Mathlib.Data.List.Forall2
import LineBasic.Proofs.Lexer.QuotedText
import LineBasic.Proofs.Listing.Names

/-!
# Renumbering keeps the statements of a line

Lexeme by lexeme, a renumbered line has the statements of the line before, with as many tokens.
A line number right behind a jump word changes exactly if renumbering sees it: no letter or digit
stands in front of the word, and only blanks stand between the word and the number.
-/

set_option autoImplicit false

namespace LineBasic

open Lexer (Lexeme Mark marks marked front statement IsQuotedAt)
open Text (isSpacing)

def Lexer.Mark.sees (jump number : Mark) : Bool :=
  !jump.before.any Char.isAlphanum && number.gap.all (· == ' ')

/-- Marked tokens and the tokens that follow them after renumbering. `target` says whether a line
number is looked for at the start. -/
structure MarksFollow (changes : Renumbering) (target : Bool) (old : List Mark)
    (new : List Token) : Prop where
  length : new.length = old.length
  first : ∀ (m : Mark) (digits : List Char), (∀ c ∈ digits, c.isDigit = true) →
    old.head? = some m → m.token = .integer (String.ofList digits) →
      new.head? = some (.integer (String.ofList
        (if target && m.gap.all (· == ' ') then renumberedDigits changes digits else digits)))
  next : ∀ (j : Nat) (m n : Mark) (w : Word) (digits : List Char), w.isJump = true →
    (∀ c ∈ digits, c.isDigit = true) → old[j]? = some m → old[j + 1]? = some n →
      m.token = .word w → n.token = .integer (String.ofList digits) →
        new[j + 1]? = some (.integer (String.ofList
          (if m.sees n then renumberedDigits changes digits else digits)))
  string : ∀ (j : Nat) (s : String), IsQuotedAt (old.map Mark.token) j s →
    new[j]? = some (.string s)

variable {changes : Renumbering} {l : Lexicon}

namespace MarksFollow

theorem nil (changes : Renumbering) (target : Bool) : MarksFollow changes target [] [] where
  length := rfl
  first := fun m digits _ h => by cases h
  next := fun j m n w digits _ _ h => by cases h
  string := fun j s h => absurd h (Lexer.not_isQuotedAt_nil j s)

theorem cons {target target' : Bool} {m : Mark} {t : Token} {old : List Mark} {new : List Token}
    (h : TokenFollows changes (target && m.gap.all (· == ' ')) m.token t)
    (hjump : ∀ w : Word, w.isJump = true → m.token = .word w →
      target' = !m.before.any Char.isAlphanum)
    (hrest : MarksFollow changes target' old new) :
    MarksFollow changes target (m :: old) (t :: new) where
  length := by simp [hrest.length]
  first := fun m' digits hd hm hint => by
    cases hm
    rw [h.integer digits hd hint]
    rfl
  next := fun j m' n w digits hw hd hm hn hword hint => by
    cases j with
    | zero =>
      cases hm
      have hhead : old.head? = some n := by
        rw [List.head?_eq_getElem?]
        exact hn
      have := hrest.first n digits hd hhead hint
      rw [List.head?_eq_getElem?, hjump w hw hword] at this
      exact this
    | succ j => exact hrest.next j m' n w digits hw hd hm hn hword hint
  string := fun j s hj => by
    have hj : IsQuotedAt ([m.token] ++ old.map Mark.token) j s := hj
    rcases hj.append_cases with hj | ⟨k, rfl, hk⟩
    · cases j with
      | zero => rw [h.string s (Option.some.inj hj)]; rfl
      | succ j => cases hj
    · rw [List.length_singleton, Nat.add_comm]
      exact hrest.string k s hk

/-- The tokens of a lexeme go in front of those of the rest. -/
theorem append {target target' : Bool} {before : Option Char} {gap : List Char}
    {tokens tokens' : List Token} {old : List Mark} {new : List Token}
    (h : TokensFollow changes (target && gap.all (· == ' ')) tokens tokens')
    (hjump : ∀ w : Word, w.isJump = true → tokens = [.word w] →
      target' = !before.any Char.isAlphanum)
    (hrest : MarksFollow changes target' old new) :
    MarksFollow changes target (marks before gap tokens ++ old) (tokens' ++ new) := by
  cases h with
  | one h =>
    exact cons h (fun w hw heq => hjump w hw (by rw [← heq])) hrest
  | member owner name owner' name' =>
    have hmember : MarksFollow changes false (⟨.ident name, some '.', []⟩ :: old)
        (.ident name' :: new) :=
      cons (.of_other (by simp) (by simp) (by simp) (by simp)) (fun w _ heq => by simp at heq) hrest
    exact cons (.of_other (by simp) (by simp) (by simp) (by simp))
      (fun w _ heq => by simp at heq) hmember

theorem remark (target : Bool) {m n : Mark} {body body' : String} (hm : m.token = .word .REM)
    (hn : n.token = .string body) :
    MarksFollow changes target [m, n] [.word .REM, .string body'] where
  length := rfl
  first := fun m' digits _ hm' hint => by
    cases hm'
    rw [hm] at hint
    cases hint
  next := fun j m' n' w digits hw _ hm' hn' hword hint => by
    match j with
    | 0 =>
      cases hn'
      rw [hn] at hint
      cases hint
    | j + 1 => cases hn'
  string := fun j s hj => by
    rw [List.map_cons, List.map_cons, hm, hn] at hj
    exact absurd hj (Lexer.not_isQuotedAt_remark body j s)

end MarksFollow

/-- Prefix operators make no difference to line numbers and texts. -/
theorem MarksFollow.markUnary {target : Bool} {old : List Mark} {new : List Token}
    (h : MarksFollow changes target old new) :
    MarksFollow changes target old (Token.markUnary new) where
  length := by rw [Token.markUnary, Token.length_markUnaryFrom, h.length]
  first := fun m digits hd hm hint => by
    have := h.first m digits hd hm hint
    rw [List.head?_eq_getElem?] at this ⊢
    exact (Token.getElem?_markUnaryFrom (by simp) 0).2 this
  next := fun j m n w digits hw hd hm hn hword hint =>
    (Token.getElem?_markUnaryFrom (by simp) (j + 1)).2
      (h.next j m n w digits hw hd hm hn hword hint)
  string := fun j s hj => (Token.getElem?_markUnaryFrom (by simp) j).2 (h.string j s hj)

namespace Seeking

theorem rewrite_text (s : Seeking) (text : List Char) :
    s.rewrite changes text = text.takeWhile isSpacing ++
      (s.skip (text.takeWhile isSpacing)).rewrite changes (text.dropWhile isSpacing) := by
  have hgap : ∀ c ∈ text.takeWhile isSpacing, isSpacing c = true := fun c => Text.of_mem_takeWhile
  rw [← rewrite_skip hgap, List.takeWhile_append_dropWhile]

theorem rewrite_colon (s : Seeking) (cs : List Char) :
    s.rewrite changes (':' :: cs) = ':' :: (word (some ':')).rewrite changes cs := by
  rw [rewrite_eq_word s cs (by decide) (by decide) fun _ => by decide]
  exact rewrite_word_plain (by decide) s.before cs

theorem dropWhile_rewrite {s : Seeking} {text new : List Char}
    (hnew : (s.skip (text.takeWhile isSpacing)).rewrite changes (text.dropWhile isSpacing) = new)
    (hstart : ∀ c ∈ new.head?, isSpacing c = false) :
    (s.rewrite changes text).dropWhile isSpacing = new := by
  rw [rewrite_text, hnew]
  exact Text.dropWhile_append_of_head (fun c => Text.of_mem_takeWhile) hstart

/-- One step of a statement: the lexeme behind the spacing is followed by its new form, and the
search goes on behind both. -/
theorem front_follows (hl : l.NoDigits) (hch : changes.InRange) (s : Seeking) {text : List Char}
    {c : Char} {cs : List Char} {found : Lexeme} (hd : text.dropWhile isSpacing = c :: cs)
    (hc : c ≠ ':') (hf : front l (c :: cs) = .ok found) :
    ∃ s' : Seeking, ∃ d ds, ∃ found' : Lexeme,
      (s.rewrite changes text).dropWhile isSpacing = d :: ds ∧ d ≠ ':' ∧
      front l (d :: ds) = .ok found' ∧
      ds.drop (found'.size - 1) = s'.rewrite changes (cs.drop (found.size - 1)) ∧
      s'.before = ((c :: cs).take found.size).getLast? ∧
      TokensFollow changes (s.isTarget && (text.takeWhile isSpacing).all (· == ' '))
        found.tokens found'.tokens ∧
      ∀ w : Word, w.isJump = true → found.tokens = [.word w] →
        s'.isTarget = !((text.takeWhile isSpacing).getLast?.or s.before).any Char.isAlphanum := by
  have hspace : isSpacing c = false := by
    have := List.head?_dropWhile_not isSpacing text
    rwa [hd] at this
  obtain ⟨old, rest, new, found', s', hold, h⟩ :=
    lexemeFollows hl hch (s.skip (text.takeWhile isSpacing)) hspace hc hf
  obtain ⟨d, ds, hnew, hdspace, hdcolon⟩ := h.start
  obtain ⟨e, es, hes⟩ := List.exists_cons_of_ne_nil h.old_ne
  have hrest : cs.drop (found.size - 1) = rest := by
    rw [hes] at hold
    have hsize := h.old_size
    rw [hes, List.length_cons] at hsize
    rw [← hsize, List.tail_eq_of_cons_eq hold]
    simp
  have hdrop : (s.rewrite changes text).dropWhile isSpacing =
      d :: (ds ++ s'.rewrite changes rest) := by
    apply dropWhile_rewrite
    · rw [hd, hold, h.text, hnew]
      rfl
    · intro x hx
      cases hx
      exact hdspace
  refine ⟨s', d, ds ++ s'.rewrite changes rest, found', hdrop, hdcolon, ?_, ?_, ?_, ?_, ?_⟩
  · rw [← h.front, hnew]
    rfl
  · have hsize := h.new_size
    rw [hnew, List.length_cons] at hsize
    rw [hrest, ← hsize]
    simp
  · rw [h.before, hold, ← h.old_size, List.take_left]
  · rw [← isTarget_skip]
    exact h.tokens
  · rw [← before_skip]
    exact h.jump

/-- A statement is followed by one with as many tokens, and what it leaves is rewritten afresh. -/
theorem statement_follows (hl : l.NoDigits) (hch : changes.InRange) {before : Option Char}
    {text rest : List Char} {ms : List Mark} (h : marked l before text = .ok (ms, rest))
    (s : Seeking) (hs : s.before = before) :
    ∃ ts, statement l false false (s.rewrite changes text) =
        .ok (ts, (word (some ':')).rewrite changes rest) ∧
      MarksFollow changes s.isTarget ms ts := by
  -- Along the lexer: behind each lexeme the one text is still the other one rewritten.
  fun_induction marked l before text generalizing ms rest s with
  | case1 before text hd =>
    cases h
    have hdrop : (s.rewrite changes text).dropWhile isSpacing = [] := by
      apply dropWhile_rewrite
      · rw [hd, rewrite_nil]
      · simp
    exact ⟨[], by rw [Lexer.statement_of_nil hdrop, rewrite_nil], .nil changes _⟩
  | case2 before text cs hd hlt =>
    cases h
    have hdrop : (s.rewrite changes text).dropWhile isSpacing =
        ':' :: (word (some ':')).rewrite changes cs := by
      apply dropWhile_rewrite
      · rw [hd, rewrite_colon]
      · simp
        decide
    exact ⟨[], by rw [Lexer.statement_of_colon hdrop], .nil changes _⟩
  | case3 => cases h
  | case4 before text gap c cs hd hlt hc found hf =>
    rename_i hrem
    cases h
    obtain ⟨s', d, ds, found', hdrop, hdc, hf', _, _, htokens, _⟩ :=
      front_follows hl hch s hd hc hf
    have hrem' := (htokens.word_iff .REM).2 hrem
    refine ⟨[.word .REM, .string (String.ofList (ds.drop (found'.size - 1)))], ?_,
      .remark _ rfl rfl⟩
    rw [Lexer.statement_of_front hdrop hdc, hf', rewrite_nil]
    exact if_pos hrem'
  | case5 before text gap c cs hd hlt hc found hf =>
    rename_i hrem ih
    obtain ⟨s', d, ds, found', hdrop, hdc, hf', hrest, hbefore, htokens, hjump⟩ :=
      front_follows hl hch s hd hc hf
    have hrem' := mt (htokens.word_iff .REM).1 hrem
    cases hmore : marked l ((c :: cs).take found.size).getLast? (cs.drop (found.size - 1)) with
    | error f =>
      rw [hmore] at h
      cases h
    | ok more =>
      rw [hmore] at h
      cases h
      obtain ⟨ts, hstatement, hfollow⟩ := ih hmore s' hbefore
      rw [hs] at hjump
      refine ⟨found'.tokens ++ ts, ?_, hfollow.append htokens hjump⟩
      rw [Lexer.statement_of_front hdrop hdc, hf']
      dsimp only
      rw [if_neg hrem', hrest, hstatement]
      rfl

/-- The statements of a line are followed one by one. -/
theorem statements_follow (hl : l.NoDigits) (hch : changes.InRange) {before : Option Char}
    {text : List Char} {mss : List (List Mark)} (h : markedAll l before text = .ok mss) :
    ∃ tss, lexAll l {} ((word before).rewrite changes text) = .ok tss ∧
      List.Forall₂ (MarksFollow changes false) mss tss := by
  fun_induction markedAll l before text generalizing mss with
  | case1 => cases h
  | case2 before text rest hm =>
    cases h
    obtain ⟨ts, hstatement, hfollow⟩ := statement_follows hl hch hm (word before) rfl
    rw [List.length_eq_zero_iff.1 hfollow.length] at hstatement
    exact ⟨[], lexAll_of_nil hstatement, .nil⟩
  | case3 before text m ms rest hm hlt ih =>
    obtain ⟨ts, hstatement, hfollow⟩ := statement_follows hl hch hm (word before) rfl
    have hne : ts ≠ [] := by
      rintro rfl
      cases hfollow.length
    cases hmore : markedAll l (some ':') rest with
    | error f =>
      rw [hmore] at h
      cases h
    | ok more =>
      rw [hmore] at h
      cases h
      obtain ⟨tss, hlex, hall⟩ := ih hmore
      refine ⟨Token.markUnary ts :: tss, ?_, .cons hfollow.markUnary hall⟩
      rw [lexAll_of_statement hstatement hne, hlex]
      rfl

end Seeking

end LineBasic
