import LineBasic.Lexicon
import LineBasic.Text.Layout

/-!
# Lexer

A line is read one statement at a time, from any byte position, so that a run can resume in the
middle of a line. Each step takes one lexeme off the front of the remaining text; a statement ends
at a colon or at the end of the line, and no statement is left once only spacing remains.

Main statements: a statement with tokens leaves less text than it was given
(`length_statement_lt`), and what it leaves is a suffix of it (`statement_suffix`).
-/

set_option autoImplicit false

namespace LineBasic.Lexer

open Text (isSpacing byteLength dropBytes)

structure Lexeme where
  tokens : List Token
  size : Nat

def wordRun (cs : List Char) : List Char := cs.takeWhile Char.isAlphanum

def keyword? (packed : Bool) (cs : List Char) : Option (Word × Nat) :=
  if cs.head? = some '?' then some (.PRINT, 1)
  else if packed then Lexicon.keywordPrefix? cs
  else (Word.ofText? (wordRun cs)).map fun w => (w, (wordRun cs).length)

def command? (l : Lexicon) (packed : Bool) (cs : List Char) : Option (String × Nat) :=
  if packed then (l.commandPrefix? cs).map fun name => (name, name.length)
  else
    let run := wordRun cs
    if !run.isEmpty && l.isCommand run then some (String.ofList run, run.length) else none

def signOperator? : List Char → Option (Operator × Nat)
  | a :: b :: _ =>
    match Operator.ofLexeme? [a, b] with
    | some op => some (op, 2)
    | none => (Operator.ofLexeme? [a]).map (·, 1)
  | [a] => (Operator.ofLexeme? [a]).map (·, 1)
  | [] => none

def operator? (packed : Bool) (cs : List Char) : Option (Operator × Nat) :=
  let named := (Lexicon.operatorPrefix? cs).filter fun (_, size) =>
    packed || (wordRun cs).length == size
  match named with
  | some found => some found
  | none => if cs.head?.any Char.isAlpha then none else signOperator? cs

def number? (dotAsZero : Bool) (cs : List Char) : Option Lexeme :=
  match Number.scanInteger cs with
  | some (_, size) => some ⟨[.integer (String.ofList (cs.take size))], size⟩
  | none =>
    match Number.scanReal cs with
    | some (_, size) => some ⟨[.number (String.ofList (cs.take size))], size⟩
    | none => if dotAsZero && cs.head? == some '.' then some ⟨[.number "."], 1⟩ else none

def nameTail (l : Lexicon) (packed : Bool) : List Char → List Char
  | [] => []
  | c :: cs =>
    if c.isAlphanum && !(packed && l.startsReserved (c :: cs)) then c :: nameTail l packed cs
    else []

def kindSuffix : List Char → List Char
  | '$' :: _ => ['$']
  | '%' :: _ => ['%']
  | _ => []

def name (l : Lexicon) (packed : Bool) (first : Char) (cs : List Char) : List Char :=
  let tail := nameTail l packed cs
  first :: tail ++ kindSuffix (cs.drop tail.length)

def reference (l : Lexicon) (packed : Bool) (first : Char) (cs : List Char) : Lexeme :=
  let front := name l packed first cs
  match cs.drop (front.length - 1) with
  | '.' :: c :: rest =>
    if c.isAlpha then
      let member := name l packed c rest
      ⟨[.qualifier (String.ofList front), .ident (String.ofList member)],
        front.length + 1 + member.length⟩
    else ⟨[.ident (String.ofList front)], front.length⟩
  | _ => ⟨[.ident (String.ofList front)], front.length⟩

def quoted (quote : Char) (cs : List Char) : Except Fault Lexeme :=
  let body := cs.takeWhile (· != quote)
  if body.length < cs.length then .ok ⟨[.string (String.ofList body)], body.length + 2⟩
  else .error (.because .badSyntax "UNTERMINATED STRING")

def handle (cs : List Char) : Except Fault Lexeme :=
  let digits := Number.digitRun cs
  if digits.isEmpty then .error (.because .badSyntax "EXPECTED FILE NUMBER")
  else .ok ⟨[.fileHandle (String.ofList digits)], digits.length + 1⟩

def punctuation (l : Lexicon) (packed : Bool) (c : Char) (cs : List Char) : Except Fault Lexeme :=
  if c = '(' then .ok ⟨[.openParen], 1⟩
  else if c = ')' then .ok ⟨[.closeParen], 1⟩
  else if c = ',' then .ok ⟨[.comma], 1⟩
  else if c = '#' then handle cs
  else if c.isAlpha then .ok (reference l packed c cs)
  else .error (.because .badSyntax "UNEXPECTED CHARACTER")

def lexeme (l : Lexicon) (packed dotAsZero : Bool) (c : Char) (cs : List Char) :
    Except Fault Lexeme :=
  match command? l packed (c :: cs) with
  | some (name, size) => .ok ⟨[.command name], size⟩
  | none =>
    if c = '"' ∨ c = '\'' then quoted c cs
    else match operator? packed (c :: cs) with
      | some (op, size) => .ok ⟨[.operator op], size⟩
      | none =>
        match number? dotAsZero (c :: cs) with
        | some found => .ok found
        | none => punctuation l packed c cs

def prepend (tokens : List Token) :
    Except Fault (List Token × List Char) → Except Fault (List Token × List Char)
  | .ok (more, rest) => .ok (tokens ++ more, rest)
  | .error f => .error f

/-- The tokens of the first statement of a text, and the text after it. Text after `REM` is kept
whole; after `DATA` keywords must stand alone. A lexeme takes at least its first character. -/
def statement (l : Lexicon) (packed dotAsZero : Bool) (text : List Char) :
    Except Fault (List Token × List Char) :=
  match h : text.dropWhile isSpacing with
  | [] => .ok ([], [])
  | c :: cs =>
    have : cs.length < text.length := by
      have := (List.dropWhile_sublist isSpacing (l := text)).length_le
      rw [h, List.length_cons] at this
      omega
    if c = ':' then .ok ([], cs)
    else match keyword? packed (c :: cs) with
      | some (.REM, size) =>
        .ok ([.word .REM, .string (String.ofList (cs.drop (size - 1)))], [])
      | some (w, size) =>
        prepend [.word w]
          (statement l (packed && w != .DATA) dotAsZero (cs.drop (size - 1)))
      | none =>
        match lexeme l packed dotAsZero c cs with
        | .error f => .error f
        | .ok found =>
          prepend found.tokens (statement l packed dotAsZero (cs.drop (found.size - 1)))
termination_by text.length
decreasing_by all_goals (simp only [List.length_drop]; omega)

/-- What a statement leaves is a suffix of what it was given. -/
theorem statement_suffix {l : Lexicon} {packed dotAsZero : Bool} {text rest : List Char}
    {tokens : List Token} (h : statement l packed dotAsZero text = .ok (tokens, rest)) :
    rest <:+ text := by
  fun_induction statement l packed dotAsZero text generalizing tokens with
  | case1 => cases h; exact List.nil_suffix
  | case2 packed text cs hc hlt =>
    cases h
    exact (hc ▸ List.suffix_cons ':' _).trans (List.dropWhile_suffix isSpacing)
  | case3 => cases h; exact List.nil_suffix
  | case4 packed text c cs hc hlt hcol w size hw hk ih =>
    cases hs : statement l (packed && w != .DATA) dotAsZero (cs.drop (size - 1)) with
    | error f => rw [hs] at h; cases h
    | ok found =>
      rw [hs] at h; cases h
      exact (ih hs).trans ((List.drop_suffix _ cs).trans
        ((hc ▸ List.suffix_cons c cs).trans (List.dropWhile_suffix isSpacing)))
  | case5 => cases h
  | case6 packed text c cs hc hlt hcol hk found hf ih =>
    cases hs : statement l packed dotAsZero (cs.drop (found.size - 1)) with
    | error f => rw [hs] at h; cases h
    | ok more =>
      rw [hs] at h; cases h
      exact (ih hs).trans ((List.drop_suffix _ cs).trans
        ((hc ▸ List.suffix_cons c cs).trans (List.dropWhile_suffix isSpacing)))

/-- A statement that has tokens takes at least one character. -/
theorem length_statement_lt {l : Lexicon} {packed dotAsZero : Bool} {text rest : List Char}
    {tokens : List Token} (h : statement l packed dotAsZero text = .ok (tokens, rest))
    (ht : tokens ≠ []) : rest.length < text.length := by
  rw [statement] at h
  split at h
  · cases h; exact absurd rfl ht
  · rename_i c cs hc
    have hlt : cs.length < text.length := by
      have := (List.dropWhile_sublist isSpacing (l := text)).length_le
      rw [hc, List.length_cons] at this
      omega
    have tail : ∀ {packed' : Bool} {front : List Token} {n : Nat},
        prepend front (statement l packed' dotAsZero (cs.drop n)) = .ok (tokens, rest) →
          rest.length < text.length := by
      intro packed' front n hp
      cases hs : statement l packed' dotAsZero (cs.drop n) with
      | error f => rw [hs] at hp; cases hp
      | ok more =>
        rw [hs] at hp; cases hp
        have := (statement_suffix hs).length_le
        simp only [List.length_drop] at this
        omega
    split at h
    · cases h; exact absurd rfl ht
    · split at h
      · cases h; simp only [List.length_nil]; omega
      · exact tail h
      · split at h
        · cases h
        · exact tail h

end Lexer

/-- Lexes the statement at a byte position of a line. The answer holds the position after it. -/
def lexStatement (l : Lexicon) (o : LexOptions) (line : String) (offset : Nat) :
    Except Fault (List Token × Nat) :=
  match Text.dropBytes offset line.toList with
  | none => .error (.because .internal "PROGRAM COUNTER OUT OF LINE")
  | some text =>
    match Lexer.statement l o.packed o.dotAsZero text with
    | .error f => .error f
    | .ok (tokens, rest) =>
      .ok (Token.markUnary tokens, offset + (Text.byteLength text - Text.byteLength rest))

def lexAll (l : Lexicon) (o : LexOptions) (text : List Char) : Except Fault (List (List Token)) :=
  match h : Lexer.statement l o.packed o.dotAsZero text with
  | .error f => .error f
  | .ok ([], _) => .ok []
  | .ok (t :: ts, rest) =>
    have := Lexer.length_statement_lt h (by simp)
    (lexAll l o rest).map fun more => Token.markUnary (t :: ts) :: more
termination_by text.length

def checkLine (l : Lexicon) (o : LexOptions) (line : String) : Except Fault Unit :=
  (lexAll l o line.toList).map fun _ => ()

end LineBasic
