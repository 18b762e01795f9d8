import LineBasic.Proofs.Lexer.Marked
import LineBasic.Proofs.Lexer.Progress
import LineBasic.Proofs.Lexer.Symbol

/-!
# Lexing loses nothing

The text of a statement can be told from its tokens, but for the spacing between them and for a few
lexemes that can be written in two ways. Every token has its characters in the text, in order, and
between them there is nothing but spacing. A remark has all characters up to the end of the line.
-/

set_option autoImplicit false

namespace LineBasic

namespace Token

def variants : Token → List (List Char)
  | word .PRINT => [['?']]
  | operator .notEqual => [['>', '<']]
  | operator .lessEqual => [['=', '<']]
  | operator .greaterEqual => [['=', '>']]
  | string s => ['\'' :: (s.toList ++ ['\''])]
  | _ => []

def writings (t : Token) : List (List Char) := t.display.toList :: t.variants

theorem mem_writings_display (t : Token) : t.display.toList ∈ t.writings := List.mem_cons_self

theorem mem_writings_word {written : List Char} {w : Word} (h : (written, w) ∈ Word.spellings) :
    written ∈ (word w).writings := by
  have hall : ∀ e ∈ Word.spellings, e.1 ∈ (word e.2).writings := by decide
  exact hall _ h

theorem mem_writings_operator {written : List Char} {op : Operator}
    (h : Operator.ofLexeme? written = some op) : written ∈ (operator op).writings := by
  rcases Lexer.writing_of_ofLexeme? h with rfl | hmem
  · exact mem_writings_display _
  · have hall : ∀ e ∈ Lexer.swapped, e.1 ∈ (operator e.2).writings := by decide
    exact hall _ hmem

theorem mem_writings_string {quote : Char} (hquote : Text.isQuote quote = true)
    (body : List Char) : quote :: (body ++ [quote]) ∈ (string (String.ofList body)).writings := by
  rcases Text.isQuote_iff.1 hquote with rfl | rfl
  · simp [writings, display]
  · simp [writings, variants]

/-- An operator is written in the same way wherever it stands. -/
theorem mem_writings_unary {b : Bool} {op : Operator} {written : List Char}
    (hop : isPrefixAt b op = true) (h : written ∈ (operator op).writings) :
    written ∈ (unary op).writings := by
  cases op with
  | NOT | plus | minus => exact h
  | _ => cases hop

end Token

namespace Lexer

open Text (isSpacing)

/-- The text of a statement with its tokens, and the text behind it. Each token is written once, in
order, and in front of it there may be spacing. The statement ends with the line or at a colon. What
is behind `REM` is one text, to the end of the line. -/
inductive Written : List Token → List Char → List Char → Prop
  | line {gap : List Char} (hgap : gap.all isSpacing = true) : Written [] gap []
  | colon {gap : List Char} (hgap : gap.all isSpacing = true) (after : List Char) :
      Written [] (gap ++ [':']) after
  | remark {gap : List Char} (hgap : gap.all isSpacing = true) (text : List Char) :
      Written [.word .REM, .string (String.ofList text)]
        (gap ++ (Word.REM.text.toList ++ text)) []
  | token {gap span body after : List Char} {t : Token} {tokens : List Token}
      (hgap : gap.all isSpacing = true) (ht : t ≠ .word .REM) (hspan : span ∈ t.writings)
      (h : Written tokens body after) : Written (t :: tokens) (gap ++ (span ++ body)) after

variable {l : Lexicon} {packed dotAsZero : Bool} {c : Char} {cs : List Char}

/-- A lexeme is one token, written in its characters, or a member of a module, which is two. -/
theorem Spells.writing {written : List Char} {tokens : List Token} (h : Spells l written tokens)
    (hquote : ∀ s, tokens = [.string s] → written.head?.all Text.isQuote = true) :
    (∃ t, tokens = [t] ∧ written ∈ t.writings) ∨
      ∃ front name, written = front ++ ['.'] ++ name ∧
        tokens = [.qualifier (String.ofList front), .ident (String.ofList name)] := by
  cases h with
  | word hw => exact .inl ⟨_, rfl, Token.mem_writings_word hw⟩
  | command hname => exact .inl ⟨_, rfl, Token.mem_writings_display _⟩
  | operator hop => exact .inl ⟨_, rfl, Token.mem_writings_operator hop⟩
  | integer => exact .inl ⟨_, rfl, by simp [Token.writings, Token.display]⟩
  | number => exact .inl ⟨_, rfl, by simp [Token.writings, Token.display]⟩
  | string hbody =>
    exact .inl ⟨_, rfl, Token.mem_writings_string (by simpa using hquote _ rfl) _⟩
  | openParen => exact .inl ⟨_, rfl, Token.mem_writings_display _⟩
  | closeParen => exact .inl ⟨_, rfl, Token.mem_writings_display _⟩
  | comma => exact .inl ⟨_, rfl, Token.mem_writings_display _⟩
  | handle digits => exact .inl ⟨_, rfl, by simp [Token.writings, Token.display]⟩
  | ident => exact .inl ⟨_, rfl, by simp [Token.writings, Token.display]⟩
  | member front name => exact .inr ⟨front, name, by simp, rfl⟩

/-- The tokens of a lexeme are written in its characters. -/
theorem Written.lexeme {gap written body after : List Char} {tokens more : List Token}
    (hgap : gap.all isSpacing = true) (hspells : Spells l written tokens)
    (hword : tokens ≠ [.word .REM])
    (hquote : ∀ s, tokens = [.string s] → written.head?.all Text.isQuote = true)
    (h : Written more body after) : Written (tokens ++ more) (gap ++ (written ++ body)) after := by
  rcases hspells.writing hquote with ⟨t, rfl, hspan⟩ | ⟨front, name, rfl, rfl⟩
  · exact .token hgap (fun heq => hword (by rw [heq])) hspan h
  · have hident : Written (.ident (String.ofList name) :: more) ([] ++ (name ++ body)) after :=
      .token rfl (by simp) (by simp [Token.writings, Token.display]) h
    have hboth : Written (.qualifier (String.ofList front) :: .ident (String.ofList name) :: more)
        (gap ++ ((front ++ ['.']) ++ ([] ++ (name ++ body)))) after :=
      .token hgap (by simp) (by simp [Token.writings, Token.display]) hident
    simpa using hboth

/-- What is written behind a lexeme is written behind its tokens. -/
theorem written_of_startsWith {gap rest : List Char} {found : Lexeme} {tokens : List Token}
    {more : Except Fault (List Token × List Char)} (hgap : gap.all isSpacing = true)
    (hfound : StartsWith l (c :: cs) found) (hword : found.tokens ≠ [.word .REM])
    (hquote : ∀ s, found.tokens = [.string s] → Text.isQuote c = true)
    (h : prepend found.tokens more = .ok (tokens, rest))
    (ih : ∀ {tokens'}, more = .ok (tokens', rest) →
      ∃ body, cs.drop (found.size - 1) = body ++ rest ∧ Written tokens' body rest) :
    ∃ body, gap ++ c :: cs = body ++ rest ∧ Written tokens body rest := by
  cases more with
  | error f => cases h
  | ok result =>
    obtain ⟨tokens', rest'⟩ := result
    cases h
    obtain ⟨body, hbody, hwritten⟩ := ih rfl
    obtain ⟨written, behind, hcs, hne, hsize, hspells⟩ := hfound
    rw [← hsize, drop_of_cons_eq hcs hne] at hbody
    obtain ⟨d, ds, rfl⟩ := List.exists_cons_of_ne_nil hne
    obtain ⟨rfl, -⟩ := List.cons.inj hcs
    refine ⟨gap ++ (c :: ds ++ body), by rw [hcs, hbody]; simp, ?_⟩
    exact .lexeme hgap hspells hword (fun s hs => hquote s hs) hwritten

/-- A statement ends behind the characters of its tokens. -/
theorem written_statement (hl : "" ∉ l.commands) {text rest : List Char} {tokens : List Token}
    (h : statement l packed dotAsZero text = .ok (tokens, rest)) :
    ∃ body, text = body ++ rest ∧ Written tokens body rest := by
  fun_induction statement l packed dotAsZero text generalizing tokens with
  | case1 packed text hc =>
    cases h
    obtain ⟨gap, hgap, htext⟩ := exists_spacing text
    rw [hc, List.append_nil] at htext
    rw [htext]
    exact ⟨gap, (List.append_nil gap).symm, .line hgap⟩
  | case2 packed text cs hc hlt =>
    cases h
    obtain ⟨gap, hgap, htext⟩ := exists_spacing text
    rw [htext, hc]
    exact ⟨gap ++ [':'], List.append_cons gap ':' rest, .colon hgap rest⟩
  | case3 packed text c cs hc hlt hcolon size hkeyword =>
    cases h
    obtain ⟨gap, hgap, htext⟩ := exists_spacing text
    rw [htext, hc]
    obtain ⟨written, hmem, ⟨remark, hcs⟩, rfl⟩ := spelling_of_keyword hkeyword
    rw [drop_of_cons_eq hcs.symm (Word.ne_nil_of_mem_spellings hmem), ← hcs]
    obtain rfl : written = Word.REM.text.toList := by
      simpa [Token.writings, Token.variants, Token.display] using Token.mem_writings_word hmem
    exact ⟨_, (List.append_nil _).symm, .remark hgap remark⟩
  | case4 packed text c cs hc hlt hcolon w size hw hkeyword ih =>
    obtain ⟨gap, hgap, htext⟩ := exists_spacing text
    rw [htext, hc]
    obtain ⟨written, hmem, hstart, hsize⟩ := spelling_of_keyword hkeyword
    have hfound : StartsWith l (c :: cs) ⟨[.word w], size⟩ :=
      .of_start hstart (Word.ne_nil_of_mem_spellings hmem) hsize (.word hmem)
    refine written_of_startsWith hgap hfound (fun hrem => ?_) (by simp) h (ih ·)
    cases hrem
    exact hw rfl
  | case5 => cases h
  | case6 packed text c cs hc hlt hcolon hkeyword found hf ih =>
    obtain ⟨gap, hgap, htext⟩ := exists_spacing text
    rw [htext, hc]
    exact written_of_startsWith hgap (startsWith_lexeme (fun _ => hl) hf)
      ((lexeme_kinds hf).1 .REM) (lexeme_kinds hf).2 h (ih ·)

theorem Written.markUnaryFrom {tokens : List Token} {body after : List Char}
    (h : Written tokens body after) (b : Bool) :
    Written (Token.markUnaryFrom b tokens) body after := by
  induction h generalizing b with
  | line hgap => exact .line hgap
  | colon hgap after => exact .colon hgap after
  | remark hgap text => exact .remark hgap text
  | @token gap span body after t tokens hgap ht hspan h ih =>
    cases t with
    | operator op =>
      rw [Token.markUnaryFrom]
      split
      · rename_i hop
        exact .token hgap (by simp) (Token.mem_writings_unary hop hspan) (ih true)
      · exact .token hgap (by simp) hspan (ih true)
    | _ => exact .token hgap ht hspan (ih _)

end Lexer

/-- The text of a statement, from the position where it is lexed to the one behind it, holds its
tokens in order and nothing else but spacing and a colon at the end. A token is written as it is
shown, but `PRINT` may be a question mark, the signs of a comparison may be swapped and a text may
stand in single quotes. The text behind `REM` is all that is left of the line. -/
theorem lexStatement_loses_nothing {l : Lexicon} (hl : "" ∉ l.commands) {o : LexOptions}
    {line : String} {offset next : Nat} {tokens : List Token}
    (h : lexStatement l o line offset = .ok (tokens, next)) :
    ∃ before body after, line.toList = before ++ body ++ after ∧
      Text.byteLength before = offset ∧ Text.byteLength (before ++ body) = next ∧
      Lexer.Written tokens body after := by
  obtain ⟨text, lexed, after, htext, hlex, rfl, hafter⟩ := lexStatement_eq_ok h
  obtain ⟨body, rfl, hwritten⟩ := Lexer.written_statement hl hlex
  obtain ⟨before, hline, hbefore⟩ := Text.dropBytes_eq_some htext
  rw [← List.append_assoc] at hline
  refine ⟨before, body, after, hline, hbefore, ?_, hwritten.markUnaryFrom true⟩
  have hend := Text.add_byteLength_of_dropBytes hafter
  rw [hline, Text.byteLength_append] at hend
  exact (Nat.add_right_cancel hend).symm

def quotedLine : String := "'É':?M.A$=<-2AND'X\"' : REM"

theorem lexStatement_loses_nothing_in_quotedLine :
    "" ∉ ["LOAD"] ∧
      lexStatement ⟨["LOAD"]⟩ ⟨true, false⟩ quotedLine 5 =
        .ok ([.word .PRINT, .qualifier "M", .ident "A$", .operator .lessEqual, .unary .minus,
          .integer "2", .operator .AND, .string "X\""], 23) ∧
      ∃ before body after, quotedLine.toList = before ++ body ++ after ∧
        Text.byteLength before = 5 ∧ Text.byteLength (before ++ body) = 23 ∧
        Lexer.Written [.word .PRINT, .qualifier "M", .ident "A$", .operator .lessEqual,
          .unary .minus, .integer "2", .operator .AND, .string "X\""] body after := by
  have hlex : lexStatement ⟨["LOAD"]⟩ ⟨true, false⟩ quotedLine 5 =
      .ok ([.word .PRINT, .qualifier "M", .ident "A$", .operator .lessEqual, .unary .minus,
        .integer "2", .operator .AND, .string "X\""], 23) := eq_ok_of_toOption (by decide +kernel)
  exact ⟨by decide, hlex, lexStatement_loses_nothing (by decide) hlex⟩

end LineBasic
