import LineBasic.Proofs.Lexer.Marked
import LineBasic.Proofs.Lexer.Progress
import LineBasic.Proofs.Session.Reachable

/-!
# Empty statements

A statement has no tokens at the end of its line, and also where a colon comes first. Whoever goes
through a line takes either for its end: the check of the line, the search for its items of data and
the run. What stands behind an empty statement is not lexed, not read and not run.
-/

set_option autoImplicit false

namespace LineBasic

namespace Lexer

open Text (isSpacing)

variable {l : Lexicon} {text rest gap : List Char}

theorem Spells.ne_nil {written : List Char} {tokens : List Token} (h : Spells l written tokens) :
    tokens ≠ [] := by
  cases h <;> exact List.cons_ne_nil _ _

/-- Without tokens a statement is spacing, up to a colon or the end of the line. -/
theorem Cut.of_nil (h : Cut l text (.ok ([], rest))) :
    ∃ gap, gap.all isSpacing = true ∧ (text = gap ∧ rest = [] ∨ text = gap ++ ':' :: rest) := by
  generalize hr : Except.ok ([], rest) = r at h
  cases h with
  | line hgap =>
    cases hr
    exact ⟨text, hgap, .inl ⟨rfl, rfl⟩⟩
  | @colon gap hgap rest =>
    cases hr
    exact ⟨gap, hgap, .inr rfl⟩
  | remark hgap hwritten rest => cases hr
  | fault hgap hcs hf => cases hr
  | @lexeme _ _ _ _ more hgap hwritten hspells h =>
    cases more with
    | error f => cases hr
    | ok found =>
      have hnil := congrArg Prod.fst (Except.ok.inj hr)
      exact absurd (List.append_eq_nil_iff.1 hnil.symm).1 hspells.ne_nil

theorem statement_of_spacing {packed dotAsZero : Bool} (hgap : gap.all isSpacing = true) :
    statement l packed dotAsZero gap = .ok ([], []) := by
  have hnil : ∀ c ∈ ([] : List Char).head?, isSpacing c = false := by simp
  have hdrop := Text.dropWhile_append_of_head (List.all_eq_true.1 hgap) hnil
  rw [List.append_nil] at hdrop
  exact statement_of_nil hdrop

theorem statement_of_spacing_colon {packed dotAsZero : Bool} (hgap : gap.all isSpacing = true) :
    statement l packed dotAsZero (gap ++ ':' :: rest) = .ok ([], rest) :=
  statement_of_colon (Text.dropWhile_append_of_head (List.all_eq_true.1 hgap)
    fun c hc => by cases hc; rfl)

end Lexer

namespace Session

variable {l : Lexicon} {o : LexOptions} {line : String} {offset next : Nat}

/-- The lexer gives no tokens exactly where only spacing is left in front of the end of the line or
of a colon, and then goes on behind that. -/
theorem lexStatement_nil_iff (hl : "" ∉ l.commands) :
    lexStatement l o line offset = .ok ([], next) ↔
      ∃ gap rest, gap.all Text.isSpacing = true ∧
        Text.dropBytes offset line.toList = some (gap ++ rest) ∧
        (rest = [] ∧ next = Text.byteLength line.toList ∨
          ∃ behind, rest = ':' :: behind ∧ next = offset + Text.byteLength gap + 1) := by
  constructor
  · intro h
    obtain ⟨text, lexed, rest, htext, hlex, hnil, hrest⟩ := lexStatement_eq_ok h
    obtain rfl := Token.markUnary_eq_nil_iff.1 hnil.symm
    have hcut := Lexer.cut_statement hl o.packed o.dotAsZero text
    rw [hlex] at hcut
    have hstart := Text.add_byteLength_of_dropBytes htext
    have hend := Text.add_byteLength_of_dropBytes hrest
    obtain ⟨gap, hgap, ⟨rfl, rfl⟩ | rfl⟩ := hcut.of_nil
    · exact ⟨text, [], hgap, by rw [List.append_nil, htext], .inl ⟨rfl, hend⟩⟩
    · refine ⟨gap, ':' :: rest, hgap, htext, .inr ⟨rest, rfl, ?_⟩⟩
      rw [Text.byteLength_append, Text.byteLength] at hstart
      have hcolon : ':'.utf8Size = 1 := rfl
      omega
  · rintro ⟨gap, rest, hgap, htext, ⟨rfl, rfl⟩ | ⟨behind, rfl, rfl⟩⟩
    · rw [List.append_nil] at htext
      have hstart := Text.add_byteLength_of_dropBytes htext
      rw [lexStatement_of_text htext, Lexer.statement_of_spacing hgap]
      exact congrArg (fun n => Except.ok ([], n)) hstart
    · rw [lexStatement_of_text htext, Lexer.statement_of_spacing_colon hgap]
      have hcolon : ':'.utf8Size = 1 := rfl
      have hnext : offset + (Text.byteLength (gap ++ ':' :: behind) - Text.byteLength behind) =
          offset + Text.byteLength gap + 1 := by
        rw [Text.byteLength_append, Text.byteLength]
        omega
      exact congrArg (fun n => Except.ok ([], n)) hnext

/-- No tokens mean that the line is at its end, or that a colon comes first. The check of the line
and the search for its items end there with the statements that they have seen so far, and a run
leaves the line, whatever stands behind the colon. -/
theorem line_ends_at_empty_statement (hl : "" ∉ l.commands) (o : LexOptions) (line : String)
    (offset next : Nat) :
    (lexStatement l o line offset = .ok ([], next) ↔
      ∃ gap rest, gap.all Text.isSpacing = true ∧
        Text.dropBytes offset line.toList = some (gap ++ rest) ∧
        (rest = [] ∧ next = Text.byteLength line.toList ∨
          ∃ behind, rest = ':' :: behind ∧ next = offset + Text.byteLength gap + 1)) ∧
    (lexStatement l o line offset = .ok ([], next) →
      (∀ seen, LexRun l o line 0 seen offset →
        checkLine l o line = .ok () ∧
          Statement.lineData l o line.toList =
            (seen.mapM Statement.statementData).map List.flatten) ∧
      ∀ (m : Machine) (n : LineNumber), m.lexicon = l → m.options = o →
        m.codeModule.pc = ⟨some n, offset⟩ → m.codeModule.listing.get? n = some line →
          step m = leaveLine n m) := by
  refine ⟨lexStatement_nil_iff hl, fun hlex => ⟨fun seen hseen => ?_, ?_⟩⟩
  · obtain ⟨text, -, -, htext, -⟩ := lexStatement_eq_ok hlex
    have hstop : ∀ tokens next', lexStatement l o line offset = .ok (tokens, next') →
        tokens = [] := fun tokens next' h =>
      (congrArg Prod.fst (Except.ok.inj (hlex.symm.trans h))).symm
    have hends : ∀ {α : Type} (a : α),
        (lexStatement l o line offset).map (fun _ => a) = .ok a := fun a => by
      rw [hlex]
      rfl
    obtain ⟨hcheck, hdata⟩ := hseen.stop hstop htext
    refine ⟨hcheck.trans (hends ()), hdata.trans ?_⟩
    cases seen.mapM Statement.statementData with
    | error f => rfl
    | ok items => exact hends items.flatten
  · rintro m n rfl rfl hpc hlisted
    have hlexed : Lexed m n line [] next :=
      ⟨by rw [hpc], hlisted, by rw [hpc]; exact hlex, fun hne => absurd rfl hne⟩
    exact step_of_end hlexed

/-- Items behind an empty statement, in a program that has come to it. -/
theorem line_ends_at_empty_statement_before_data :
    let line := "DATA 1: :DATA 2"
    let m := (begun 10 [.word .DATA, .integer "1"] 7
      ((enterAll 9 ["10 DATA 1: :DATA 2"] {}).setPc (.atLine 10)))
    "" ∉ m.lexicon.commands ∧ lexStatement m.lexicon m.options line 7 = .ok ([], 9) ∧
      Statement.lineData m.lexicon m.options line.toList =
        ([[.word .DATA, .integer "1"]].mapM Statement.statementData).map List.flatten ∧
      step m = leaveLine 10 m := by
  intro line m
  have hcommands : "" ∉ m.lexicon.commands := by decide +kernel
  have hfirst : lexStatement m.lexicon m.options line 0 =
      .ok ([.word .DATA, .integer "1"], 7) := eq_ok_of_toOption (by decide +kernel)
  have hlex : lexStatement m.lexicon m.options line 7 = .ok ([], 9) :=
    eq_ok_of_toOption (by decide +kernel)
  obtain ⟨hseen, hstep⟩ :=
    (line_ends_at_empty_statement hcommands m.options line 7 9).2 hlex
  refine ⟨hcommands, hlex, (hseen _ (.next hfirst (by simp) (.here 7))).2, ?_⟩
  exact hstep m 10 rfl rfl (by decide +kernel) (by decide +kernel)

/-- The second statement of the typed line is not run, an open quote behind an empty statement passes
the check, and so do items of data that are never found. -/
theorem statements_behind_empty_one_are_lost :
    let m := enterAll 9 ["PRINT 1::PRINT 2"] {}
    m.host.printedSince 0 = " 1 \n" ∧
      (lexStatement m.lexicon m.options ":PRINT 2" 0).toOption = some ([], 1) ∧
      ":PRINT 2".toList.all Text.isSpacing = false ∧
      (checkLine m.lexicon m.options "A=1::\"").toOption = some () ∧
      (Statement.lineData m.lexicon m.options "DATA 1::DATA 2".toList).toOption =
        some [.integer 1] := by
  decide +kernel

end Session

end LineBasic
