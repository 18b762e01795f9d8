import LineBasic.Proofs.Data
import LineBasic.Proofs.Lexer.Spelling

/-!
# Progress through a line

A statement with tokens ends behind the position where it starts, and every statement ends between
two characters of the line or at its end. So the calls that lex a line one statement after another
come to an end, after as many statements as the line has bytes at most.
-/

set_option autoImplicit false

namespace LineBasic

namespace Text

theorem byteLength_pos {cs : List Char} (h : cs ≠ []) : 0 < byteLength cs := by
  obtain ⟨c, rest, rfl⟩ := List.exists_cons_of_ne_nil h
  have := c.utf8Size_pos
  rw [byteLength]
  omega

/-- A position of a line and what follows it make up the line. -/
theorem add_byteLength_of_dropBytes {n : Nat} {cs rest : List Char}
    (h : dropBytes n cs = some rest) : n + byteLength rest = byteLength cs := by
  obtain ⟨front, rfl, rfl⟩ := dropBytes_eq_some h
  exact (byteLength_append front rest).symm

end Text

theorem Token.markUnary_eq_nil_iff {tokens : List Token} : markUnary tokens = [] ↔ tokens = [] := by
  rw [← List.length_eq_zero_iff, markUnary, length_markUnaryFrom, List.length_eq_zero_iff]

variable {l : Lexicon} {o : LexOptions} {line : String} {offset next last : Nat}
  {tokens : List Token} {statements : List (List Token)} {text rest : List Char}

theorem lexStatement_of_text (htext : Text.dropBytes offset line.toList = some text) :
    lexStatement l o line offset = (Lexer.statement l o.packed o.dotAsZero text).map fun found =>
      (Token.markUnary found.1, offset + (Text.byteLength text - Text.byteLength found.2)) := by
  rw [lexStatement, htext]
  dsimp only
  cases Lexer.statement l o.packed o.dotAsZero text with
  | error f => rfl
  | ok found => rfl

/-- A statement ends inside the line, and behind its start if it has tokens. -/
theorem le_next_of_lexStatement (h : lexStatement l o line offset = .ok (tokens, next)) :
    offset ≤ next ∧ next ≤ Text.byteLength line.toList ∧ (tokens ≠ [] → offset < next) := by
  obtain ⟨text, lexed, rest, htext, hlex, rfl, hrest⟩ := lexStatement_eq_ok h
  have hstart := Text.add_byteLength_of_dropBytes htext
  have hend := Text.add_byteLength_of_dropBytes hrest
  obtain ⟨middle, rfl⟩ := Lexer.statement_suffix hlex
  rw [Text.byteLength_append] at hstart
  refine ⟨by omega, by omega, fun htokens => ?_⟩
  have hmiddle : middle ≠ [] := by
    rintro rfl
    have := Lexer.length_statement_lt hlex (mt Token.markUnary_eq_nil_iff.2 htokens)
    exact absurd this (Nat.lt_irrefl _)
  have := Text.byteLength_pos hmiddle
  omega

/-- Calls of the lexer that each give a statement with tokens, from a position on. Where the last one
ends, the next call is made. -/
inductive LexRun (l : Lexicon) (o : LexOptions) (line : String) :
    Nat → List (List Token) → Nat → Prop
  | here (offset : Nat) : LexRun l o line offset [] offset
  | next {offset next last : Nat} {tokens : List Token} {statements : List (List Token)}
      (hlex : lexStatement l o line offset = .ok (tokens, next)) (htokens : tokens ≠ [])
      (h : LexRun l o line next statements last) : LexRun l o line offset (tokens :: statements) last

namespace LexRun

theorem add_length_le (h : LexRun l o line offset statements last) :
    offset + statements.length ≤ last := by
  induction h with
  | here offset => exact Nat.le_refl offset
  | next hlex htokens h ih =>
    have := (le_next_of_lexStatement hlex).2.2 htokens
    rw [List.length_cons]
    omega

/-- The calls stop: they come to a statement without tokens, or to a fault. -/
theorem exists_stop (l : Lexicon) (o : LexOptions) (line : String) (offset : Nat)
    (text : List Char) (htext : Text.dropBytes offset line.toList = some text) :
    ∃ statements last rest, LexRun l o line offset statements last ∧
      Text.dropBytes last line.toList = some rest ∧
      ∀ tokens next, lexStatement l o line last = .ok (tokens, next) → tokens = [] := by
  by_cases h : ∃ tokens next, lexStatement l o line offset = .ok (tokens, next) ∧ tokens ≠ []
  · obtain ⟨tokens, next, hlex, htokens⟩ := h
    obtain ⟨-, -, rest, -, -, -, hrest⟩ := lexStatement_eq_ok hlex
    have hle := Text.add_byteLength_of_dropBytes htext
    have hnext := le_next_of_lexStatement hlex
    have hlt := hnext.2.2 htokens
    obtain ⟨statements, last, after, hrun, hafter, hstop⟩ := exists_stop l o line next rest hrest
    exact ⟨tokens :: statements, last, after, .next hlex htokens hrun, hafter, hstop⟩
  · refine ⟨[], offset, text, .here offset, htext, fun tokens next hlex => ?_⟩
    refine Classical.byContradiction fun htokens => h ⟨tokens, next, hlex, htokens⟩
termination_by Text.byteLength line.toList - offset

/-- What the calls have given is the first part of all statements. -/
theorem lexAll_eq (h : LexRun l o line offset statements last)
    (htext : Text.dropBytes offset line.toList = some text)
    (hrest : Text.dropBytes last line.toList = some rest) :
    lexAll l o text = (lexAll l o rest).map (statements ++ ·) := by
  induction h generalizing text with
  | here offset =>
    cases htext.symm.trans hrest
    cases lexAll l o rest <;> rfl
  | next hlex htokens h ih =>
    obtain ⟨text', lexed, behind, htext', hlexed, rfl, hbehind⟩ := lexStatement_eq_ok hlex
    cases htext.symm.trans htext'
    rw [lexAll_of_statement hlexed (mt Token.markUnary_eq_nil_iff.2 htokens), ih hbehind hrest]
    cases lexAll l o rest <;> rfl

/-- The items of a line are those of the statements that the calls have given, and what follows. -/
theorem lineData_eq (h : LexRun l o line offset statements last)
    (htext : Text.dropBytes offset line.toList = some text)
    (hrest : Text.dropBytes last line.toList = some rest) :
    Statement.lineData l o text = (do
      let items ← statements.mapM Statement.statementData
      (Statement.lineData l o rest).map (items.flatten ++ ·)) := by
  induction h generalizing text with
  | here offset =>
    cases htext.symm.trans hrest
    rw [List.mapM_nil]
    cases Statement.lineData l o rest <;> rfl
  | @next _ _ _ _ statements hlex htokens h ih =>
    obtain ⟨text', lexed, behind, htext', hlexed, rfl, hbehind⟩ := lexStatement_eq_ok hlex
    cases htext.symm.trans htext'
    rw [Statement.lineData_of_statement hlexed (mt Token.markUnary_eq_nil_iff.2 htokens),
      ih hbehind hrest, List.mapM_cons]
    cases Statement.statementData (Token.markUnary lexed) with
    | error f => rfl
    | ok items =>
      cases statements.mapM Statement.statementData with
      | error f => rfl
      | ok more =>
        cases Statement.lineData l o rest with
        | error f => rfl
        | ok others =>
          change Except.ok (items ++ (more.flatten ++ others)) = .ok ((items :: more).flatten ++ others)
          rw [List.flatten_cons, List.append_assoc]

end LexRun

/-- Where the calls stop, nothing more is lexed: the line is checked up to there, and gives no
further items. -/
theorem lexAll_of_stop (hrest : Text.dropBytes last line.toList = some rest)
    (hstop : ∀ tokens next, lexStatement l o line last = .ok (tokens, next) → tokens = []) :
    lexAll l o rest = (lexStatement l o line last).map (fun _ => []) ∧
      Statement.lineData l o rest = (lexStatement l o line last).map (fun _ => []) := by
  rw [lexStatement_of_text hrest] at hstop ⊢
  cases hlex : Lexer.statement l o.packed o.dotAsZero rest with
  | error f =>
    refine ⟨lexAll_of_error hlex, ?_⟩
    rw [Statement.lineData]
    split <;> rename_i heq <;> cases hlex.symm.trans heq
    rfl
  | ok found =>
    obtain ⟨lexed, behind⟩ := found
    rw [hlex] at hstop
    obtain rfl : lexed = [] := Token.markUnary_eq_nil_iff.1 (hstop _ _ rfl)
    exact ⟨lexAll_of_nil hlex, Statement.lineData_of_nil hlex⟩

/-- The check of a line and the search for its items make the same calls, and both end with them. -/
theorem LexRun.stop (h : LexRun l o line 0 statements last)
    (hstop : ∀ tokens next, lexStatement l o line last = .ok (tokens, next) → tokens = [])
    (hrest : Text.dropBytes last line.toList = some rest) :
    checkLine l o line = (lexStatement l o line last).map (fun _ => ()) ∧
      Statement.lineData l o line.toList = (do
        let items ← statements.mapM Statement.statementData
        (lexStatement l o line last).map fun _ => items.flatten) := by
  have htext : Text.dropBytes 0 line.toList = some line.toList := by rw [Text.dropBytes]
  obtain ⟨hall, hdata⟩ := lexAll_of_stop hrest hstop
  constructor
  · rw [checkLine, h.lexAll_eq htext hrest, hall]
    cases lexStatement l o line last <;> rfl
  · rw [h.lineData_eq htext hrest, hdata]
    cases statements.mapM Statement.statementData with
    | error f => rfl
    | ok items =>
      cases lexStatement l o line last with
      | error f => rfl
      | ok found => exact congrArg Except.ok (List.append_nil _)

/-- Lexing stays on the line and makes progress. From a position between two characters it cuts out
lexemes of at least one character each, up to a position of the same line, which is a later one if
there are tokens. Checking a line and looking for its items therefore end: after the statements with
tokens, of which there are no more than bytes, they make one call more. -/
theorem lexStatement_progress (hl : "" ∉ l.commands) (o : LexOptions) (line : String) :
    (∀ offset text, Text.dropBytes offset line.toList = some text →
      (∀ tokens next, lexStatement l o line offset = .ok (tokens, next) →
        offset ≤ next ∧ next ≤ Text.byteLength line.toList ∧ (tokens ≠ [] → offset < next) ∧
          ∃ lexed rest, Text.dropBytes next line.toList = some rest ∧
            tokens = Token.markUnary lexed ∧ Lexer.Cut l text (.ok (lexed, rest))) ∧
      ∀ f, lexStatement l o line offset = .error f → Lexer.Cut l text (.error f)) ∧
    ∃ statements last, LexRun l o line 0 statements last ∧
      statements.length + 1 ≤ Text.byteLength line.toList + 1 ∧
      (∀ tokens next, lexStatement l o line last = .ok (tokens, next) → tokens = []) ∧
      checkLine l o line = (lexStatement l o line last).map (fun _ => ()) ∧
      Statement.lineData l o line.toList = (do
        let items ← statements.mapM Statement.statementData
        (lexStatement l o line last).map fun _ => items.flatten) := by
  constructor
  · intro offset text htext
    have hcut := Lexer.cut_statement hl o.packed o.dotAsZero text
    constructor
    · intro tokens next hlex
      obtain ⟨hle, hlength, hlt⟩ := le_next_of_lexStatement hlex
      obtain ⟨text', lexed, rest, htext', hlexed, rfl, hrest⟩ := lexStatement_eq_ok hlex
      cases htext.symm.trans htext'
      rw [hlexed] at hcut
      exact ⟨hle, hlength, hlt, lexed, rest, hrest, rfl, hcut⟩
    · intro f hlex
      rw [lexStatement_of_text htext] at hlex
      cases hlexed : Lexer.statement l o.packed o.dotAsZero text with
      | error g =>
        rw [hlexed] at hlex hcut
        cases hlex
        exact hcut
      | ok found =>
        rw [hlexed] at hlex
        cases hlex
  · have htext : Text.dropBytes 0 line.toList = some line.toList := by rw [Text.dropBytes]
    obtain ⟨statements, last, rest, hrun, hrest, hstop⟩ :=
      LexRun.exists_stop l o line 0 line.toList htext
    obtain ⟨hcheck, hdata⟩ := hrun.stop hstop hrest
    have hlength := hrun.add_length_le
    have hlast := Text.add_byteLength_of_dropBytes hrest
    exact ⟨statements, last, hrun, by omega, hstop, hcheck, hdata⟩

def gluedLine : String := "FORI=.TO9:?\"né\":SYSTEMü"

theorem lexStatement_progress_glued :
    "" ∉ ["SYS", "SYSTEM"] ∧
      lexStatement ⟨["SYS", "SYSTEM"]⟩ ⟨true, true⟩ gluedLine 10 =
        .ok ([.word .PRINT, .string "né"], 17) ∧
      (∃ lexed rest, Text.dropBytes 17 gluedLine.toList = some rest ∧
        [.word .PRINT, .string "né"] = Token.markUnary lexed ∧
        Lexer.Cut ⟨["SYS", "SYSTEM"]⟩ "?\"né\":SYSTEMü".toList (.ok (lexed, rest))) ∧
      ∃ statements last, LexRun ⟨["SYS", "SYSTEM"]⟩ ⟨true, true⟩ gluedLine 0 statements last ∧
        statements.length + 1 ≤ 26 ∧
        checkLine ⟨["SYS", "SYSTEM"]⟩ ⟨true, true⟩ gluedLine =
          (lexStatement ⟨["SYS", "SYSTEM"]⟩ ⟨true, true⟩ gluedLine last).map (fun _ => ()) := by
  have hlex : lexStatement ⟨["SYS", "SYSTEM"]⟩ ⟨true, true⟩ gluedLine 10 =
      .ok ([.word .PRINT, .string "né"], 17) := eq_ok_of_toOption (by decide +kernel)
  have htext : Text.dropBytes 10 gluedLine.toList = some "?\"né\":SYSTEMü".toList := by
    decide +kernel
  have hbytes : Text.byteLength gluedLine.toList = 25 := by decide +kernel
  obtain ⟨hcall, statements, last, hrun, hlength, -, hcheck, -⟩ :=
    lexStatement_progress (l := ⟨["SYS", "SYSTEM"]⟩) (by decide) ⟨true, true⟩ gluedLine
  rw [hbytes] at hlength
  exact ⟨by decide, hlex, ((hcall 10 _ htext).1 _ _ hlex).2.2.2, statements, last, hrun, hlength,
    hcheck⟩

end LineBasic
