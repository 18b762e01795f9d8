import LineBasic.Proofs.Lexer.Front
import LineBasic.Proofs.Lexer.Positions

/-!
# Tokens and what stands in front of them

The lexer with a record of the character and the spacing in front of each token. Main statement:
without these marks it is the lexer (`lexAll_eq_markedAll`).
-/

set_option autoImplicit false

namespace LineBasic.Lexer

open Text (isSpacing)

variable {l : Lexicon} {c : Char} {cs text : List Char} {found : Lexeme}

/-- A keyword is read as such, before every other kind of lexeme, and only a quote begins a text. -/
theorem lexeme_kinds {packed dotAsZero : Bool} (h : lexeme l packed dotAsZero c cs = .ok found) :
    (∀ w, found.tokens ≠ [.word w]) ∧
      ∀ s, found.tokens = [.string s] → Text.isQuote c = true := by
  rw [lexeme] at h
  split at h
  · cases h
    simp
  · split at h
    · rename_i hquote
      rw [quoted] at h
      split at h <;> cases h
      simp [Text.isQuote_iff.2 hquote]
    · split at h
      · cases h
        simp
      · split at h
        · rename_i hnumber
          cases h
          rw [number?] at hnumber
          grind
        · simp only [punctuation, handle, reference] at h
          grind

theorem statement_of_nil {packed dotAsZero : Bool} (h : text.dropWhile isSpacing = []) :
    statement l packed dotAsZero text = .ok ([], []) := by
  rw [statement]
  split
  · rfl
  · rename_i heq
    rw [h] at heq
    cases heq

theorem statement_of_colon {packed dotAsZero : Bool} (h : text.dropWhile isSpacing = ':' :: cs) :
    statement l packed dotAsZero text = .ok ([], cs) := by
  rw [statement]
  split
  · rename_i heq
    rw [h] at heq
    cases heq
  · rename_i heq
    rw [h] at heq
    cases heq
    rfl

/-- Away from colons a statement goes on with the first lexeme, and ends with it at a remark. -/
theorem statement_of_front (h : text.dropWhile isSpacing = c :: cs) (hc : c ≠ ':') :
    statement l false false text =
      match front l (c :: cs) with
      | .error f => .error f
      | .ok found =>
        if found.tokens = [.word .REM] then
          .ok ([.word .REM, .string (String.ofList (cs.drop (found.size - 1)))], [])
        else prepend found.tokens (statement l false false (cs.drop (found.size - 1))) := by
  rw [statement]
  split
  · rename_i heq
    rw [h] at heq
    cases heq
  · rename_i heq
    rw [h] at heq
    cases heq
    rw [if_neg hc, front]
    split
    · rename_i size hk
      rw [hk]
      simp
    · rename_i w size hw hk
      rw [hk]
      dsimp only
      rw [if_neg (by simpa using hw)]
      rfl
    · rename_i hk
      rw [hk]
      dsimp only
      cases hf : lexeme l false false c cs with
      | error f => rfl
      | ok found => exact (if_neg ((lexeme_kinds hf).1 .REM)).symm

structure Mark where
  token : Token
  before : Option Char
  gap : List Char
  deriving DecidableEq

def marks (before : Option Char) (gap : List Char) : List Token → List Mark
  | [] => []
  | t :: ts => ⟨t, before, gap⟩ :: ts.map (⟨·, some '.', []⟩)

theorem token_marks (before : Option Char) (gap : List Char) (ts : List Token) :
    (marks before gap ts).map Mark.token = ts := by
  cases ts with
  | nil => rfl
  | cons t ts => simp [marks, Function.comp_def]

def marked (l : Lexicon) (before : Option Char) (text : List Char) :
    Except Fault (List Mark × List Char) :=
  let gap := text.takeWhile isSpacing
  match h : text.dropWhile isSpacing with
  | [] => .ok ([], [])
  | c :: cs =>
    have : cs.length < text.length := by
      have := (List.dropWhile_sublist isSpacing (l := text)).length_le
      rw [h, List.length_cons] at this
      omega
    if c = ':' then .ok ([], cs)
    else match front l (c :: cs) with
      | .error f => .error f
      | .ok found =>
        if found.tokens = [.word .REM] then
          .ok ([⟨.word .REM, gap.getLast?.or before, gap⟩,
            ⟨.string (String.ofList (cs.drop (found.size - 1))), some 'M', []⟩], [])
        else
          (marked l ((c :: cs).take found.size).getLast? (cs.drop (found.size - 1))).map
            fun (more, rest) => (marks (gap.getLast?.or before) gap found.tokens ++ more, rest)
termination_by text.length
decreasing_by
  simp only [List.length_drop]
  omega

theorem statement_eq_marked (before : Option Char) (text : List Char) :
    statement l false false text =
      (marked l before text).map fun (ms, rest) => (ms.map Mark.token, rest) := by
  fun_induction marked l before text with
  | case1 before text h =>
    rw [statement_of_nil h]
    rfl
  | case2 before text cs h hlt =>
    rw [statement_of_colon h]
    rfl
  | case3 before text c cs h hlt hc f hf =>
    rw [statement_of_front h hc, hf]
    rfl
  | case4 before text gap c cs h hlt hc found hf hrem =>
    rw [statement_of_front h hc, hf]
    exact if_pos hrem
  | case5 before text gap c cs h hlt hc found hf hrem ih =>
    rw [statement_of_front h hc, hf]
    dsimp only
    rw [if_neg hrem, ih]
    cases marked l ((c :: cs).take found.size).getLast? (cs.drop (found.size - 1)) with
    | error f => rfl
    | ok found => simp [prepend, Except.map, token_marks]

end Lexer

open Lexer (Mark marked statement_eq_marked)

def markedAll (l : Lexicon) (before : Option Char) (text : List Char) :
    Except Fault (List (List Mark)) :=
  match h : marked l before text with
  | .error f => .error f
  | .ok ([], _) => .ok []
  | .ok (m :: ms, rest) =>
    have : rest.length < text.length := by
      have hs := Lexer.statement_eq_marked (l := l) before text
      rw [h] at hs
      exact Lexer.length_statement_lt hs (by simp)
    (markedAll l (some ':') rest).map fun more => (m :: ms) :: more
termination_by text.length

theorem lexAll_eq_markedAll (l : Lexicon) (before : Option Char) (text : List Char) :
    lexAll l {} text =
      (markedAll l before text).map fun mss =>
        mss.map fun ms => Token.markUnary (ms.map Mark.token) := by
  fun_induction markedAll l before text with
  | case1 before text f h =>
    have hs := statement_eq_marked (l := l) before text
    rw [h] at hs
    exact lexAll_of_error hs
  | case2 before text rest h =>
    have hs := statement_eq_marked (l := l) before text
    rw [h] at hs
    exact lexAll_of_nil hs
  | case3 before text m ms rest h hlt ih =>
    have hs := statement_eq_marked (l := l) before text
    rw [h] at hs
    rw [lexAll_of_statement hs (by simp), ih]
    cases markedAll l (some ':') rest <;> rfl

end LineBasic
