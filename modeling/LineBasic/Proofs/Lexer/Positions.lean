import LineBasic.Lexer

/-!
# Positions in a line

A line is lexed statement by statement, from byte positions. A position is readable if all that
follows it can be lexed, as it is when a line is checked. From a readable position a statement can
be lexed, and the position behind it is readable again.
-/

set_option autoImplicit false

namespace LineBasic

variable {l : Lexicon} {o : LexOptions} {line : String} {offset next : Nat} {tokens : List Token}

/-- What is lexed at a position, and what is left of the line behind it. -/
theorem lexStatement_eq_ok (h : lexStatement l o line offset = .ok (tokens, next)) :
    ∃ text lexed rest, Text.dropBytes offset line.toList = some text ∧
      Lexer.statement l o.packed o.dotAsZero text = .ok (lexed, rest) ∧
      tokens = Token.markUnary lexed ∧ Text.dropBytes next line.toList = some rest := by
  rw [lexStatement] at h
  cases htext : Text.dropBytes offset line.toList with
  | none =>
    rw [htext] at h
    cases h
  | some text =>
    rw [htext] at h
    dsimp only at h
    cases hlex : Lexer.statement l o.packed o.dotAsZero text with
    | error f =>
      rw [hlex] at h
      cases h
    | ok result =>
      obtain ⟨lexed, rest⟩ := result
      rw [hlex] at h
      cases h
      refine ⟨text, lexed, rest, rfl, hlex, rfl, ?_⟩
      obtain ⟨front, hline, rfl⟩ := Text.dropBytes_eq_some htext
      obtain ⟨middle, rfl⟩ := Lexer.statement_suffix hlex
      have hnext : Text.byteLength front + (Text.byteLength (middle ++ rest) -
          Text.byteLength rest) = Text.byteLength (front ++ middle) := by
        rw [Text.byteLength_append, Text.byteLength_append, Nat.add_sub_cancel]
      rw [hnext, hline, ← List.append_assoc]
      exact Text.dropBytes_byteLength _ rest

theorem lexAll_of_error {text : List Char} {f : Fault}
    (h : Lexer.statement l o.packed o.dotAsZero text = .error f) : lexAll l o text = .error f := by
  rw [lexAll]
  split <;> rename_i heq <;> cases h.symm.trans heq
  rfl

theorem lexAll_of_nil {text rest : List Char}
    (h : Lexer.statement l o.packed o.dotAsZero text = .ok ([], rest)) :
    lexAll l o text = .ok [] := by
  rw [lexAll]
  split <;> rename_i heq <;> cases h.symm.trans heq
  rfl

theorem lexAll_of_statement {text rest : List Char}
    (h : Lexer.statement l o.packed o.dotAsZero text = .ok (tokens, rest)) (hne : tokens ≠ []) :
    lexAll l o text = (lexAll l o rest).map fun more => Token.markUnary tokens :: more := by
  rw [lexAll]
  split <;> rename_i heq <;> cases h.symm.trans heq
  · exact absurd rfl hne
  · rfl

/-- What is lexed as a whole is lexed statement by statement. -/
theorem lexAll_eq_ok {text : List Char} {statements : List (List Token)}
    (h : lexAll l o text = .ok statements) :
    ∃ lexed rest, Lexer.statement l o.packed o.dotAsZero text = .ok (lexed, rest) ∧
      (lexed = [] ∧ statements = [] ∨
        ∃ more, lexed ≠ [] ∧ lexAll l o rest = .ok more ∧
          statements = Token.markUnary lexed :: more) := by
  cases hlex : Lexer.statement l o.packed o.dotAsZero text with
  | error f =>
    rw [lexAll_of_error hlex] at h
    cases h
  | ok found =>
    obtain ⟨lexed, rest⟩ := found
    refine ⟨lexed, rest, rfl, ?_⟩
    by_cases hne : lexed = []
    · subst hne
      rw [lexAll_of_nil hlex] at h
      cases h
      exact .inl ⟨rfl, rfl⟩
    · rw [lexAll_of_statement hlex hne] at h
      cases hmore : lexAll l o rest with
      | error f =>
        rw [hmore] at h
        cases h
      | ok more =>
        rw [hmore] at h
        cases h
        exact .inr ⟨more, hne, rfl, rfl⟩

theorem lexAll_nil (l : Lexicon) (o : LexOptions) : lexAll l o [] = .ok [] := by
  have hempty : Lexer.statement l o.packed o.dotAsZero [] = .ok ([], []) := by
    rw [Lexer.statement]
    rfl
  exact lexAll_of_nil hempty

theorem lexAll_of_checkLine (h : checkLine l o line = .ok ()) :
    ∃ statements, lexAll l o line.toList = .ok statements := by
  cases hall : lexAll l o line.toList with
  | error f =>
    rw [checkLine, hall] at h
    cases h
  | ok statements => exact ⟨statements, rfl⟩

def Readable (l : Lexicon) (o : LexOptions) (line : String) (offset : Nat) : Prop :=
  ∃ text statements, Text.dropBytes offset line.toList = some text ∧
    lexAll l o text = .ok statements

/-- A line that passes the check is readable from its start. -/
theorem readable_zero (h : checkLine l o line = .ok ()) : Readable l o line 0 := by
  obtain ⟨statements, hall⟩ := lexAll_of_checkLine h
  exact ⟨line.toList, statements, by rw [Text.dropBytes], hall⟩

theorem readable_byteLength (l : Lexicon) (o : LexOptions) (line : String) :
    Readable l o line (Text.byteLength line.toList) := by
  have hdrop := Text.dropBytes_byteLength line.toList []
  rw [List.append_nil] at hdrop
  exact ⟨[], [], hdrop, lexAll_nil l o⟩

namespace Readable

theorem lexes (h : Readable l o line offset) :
    ∃ found, lexStatement l o line offset = .ok found := by
  obtain ⟨text, statements, htext, hall⟩ := h
  obtain ⟨lexed, rest, hlex, -⟩ := lexAll_eq_ok hall
  refine ⟨(Token.markUnary lexed, offset + (Text.byteLength text - Text.byteLength rest)), ?_⟩
  rw [lexStatement, htext]
  dsimp only
  rw [hlex]

theorem behind (h : Readable l o line offset)
    (hlex : lexStatement l o line offset = .ok (tokens, next)) (htokens : tokens ≠ []) :
    Readable l o line next := by
  obtain ⟨text, statements, htext, hall⟩ := h
  obtain ⟨text', lexed, rest, htext', hlexed, rfl, hrest⟩ := lexStatement_eq_ok hlex
  rw [htext] at htext'
  cases htext'
  obtain ⟨lexed', rest', hlexed', ⟨rfl, -⟩ | ⟨more, -, hmore, -⟩⟩ := lexAll_eq_ok hall
  · rw [hlexed] at hlexed'
    cases hlexed'
    exact absurd rfl htokens
  · rw [hlexed] at hlexed'
    cases hlexed'
    exact ⟨rest, more, hrest, hmore⟩

end Readable

end LineBasic
