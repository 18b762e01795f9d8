import LineBasic.Proofs.Lexer.Spelling
import LineBasic.Proofs.Lexer.Symbol
import LineBasic.Registry
import Mathlib.Data.List.Basic

/-!
# Reserved words in runs

Keywords, command names and word operators are reserved. They are made of letters, so a text starts
with one exactly if the run of letters and digits at its start does. Where a run is a whole reserved
word, or has none in it, it makes no difference whether reserved words must stand alone.
-/

set_option autoImplicit false

namespace LineBasic

section

variable {α : Type} {cs ds : List Char} {candidates : List (List Char × α)}

/-- Only the candidates that a text starts with count. -/
theorem longestPrefix_congr (h : ∀ e ∈ candidates, e.1 <+: cs ↔ e.1 <+: ds) :
    longestPrefix cs candidates = longestPrefix ds candidates := by
  have hstart : ∀ e ∈ candidates, e.1.isPrefixOf cs = e.1.isPrefixOf ds := by
    intro e he
    rw [Bool.eq_iff_iff, List.isPrefixOf_iff_prefix, List.isPrefixOf_iff_prefix]
    exact h e he
  exact List.foldl_ext _ _ _ fun best e he => by rw [hstart e he]

theorem longestPrefix_eq_none (h : ∀ e ∈ candidates, ¬e.1 <+: cs) :
    longestPrefix cs candidates = none := by
  refine Option.eq_none_iff_forall_ne_some.2 fun e he => ?_
  obtain ⟨hmem, hstart⟩ := prefix_of_longestPrefix he
  exact h e hmem hstart

end

namespace Lexicon

open Lexer (wordRun wordOperators)

def reserved (l : Lexicon) : List (List Char) :=
  Word.all.map (·.text.toList) ++ l.commands.map String.toList ++
    wordOperators.map (·.lexeme.toList)

def Plain (l : Lexicon) (run : List Char) : Prop := ∀ word ∈ l.reserved, ¬word <:+: run

def Unglued (l : Lexicon) (run : List Char) : Prop := l.Plain run ∨ run ∈ l.reserved

instance (l : Lexicon) (run : List Char) : Decidable (l.Plain run) :=
  inferInstanceAs (Decidable (∀ word ∈ l.reserved, ¬word <:+: run))

instance (l : Lexicon) (run : List Char) : Decidable (l.Unglued run) :=
  inferInstanceAs (Decidable (l.Plain run ∨ run ∈ l.reserved))

structure Apart (l : Lexicon) : Prop where
  letters : ∀ name ∈ l.commands, name.toList ≠ [] ∧ name.toList.all Char.isAlpha = true
  keyword : ∀ name ∈ l.commands, keywordPrefix? name.toList = none
  command : ∀ name ∈ l.commands, l.commandPrefix? name.toList = some name
  operator : ∀ op ∈ wordOperators, l.commandPrefix? op.lexeme.toList = none

variable {l : Lexicon} {cs run : List Char}

/-- A reserved word is a keyword, a command or a word operator. -/
theorem mem_reserved {word : List Char} :
    word ∈ l.reserved ↔ (∃ w : Word, w.text.toList = word) ∨
      (∃ name ∈ l.commands, name.toList = word) ∨
      ∃ op ∈ wordOperators, op.lexeme.toList = word := by
  simp [reserved, Word.mem_all]

theorem Apart.letters_of_mem (hl : l.Apart) {word : List Char} (h : word ∈ l.reserved) :
    word ≠ [] ∧ word.all Char.isAlpha = true := by
  rcases mem_reserved.1 h with ⟨w, rfl⟩ | ⟨name, hname, rfl⟩ | ⟨op, hop, rfl⟩
  · have hall : ∀ w ∈ Word.all, w.text.toList ≠ [] ∧ w.text.toList.all Char.isAlpha = true := by
      decide
    exact hall w w.mem_all
  · exact hl.letters name hname
  · have hall : ∀ op ∈ wordOperators, op.lexeme.toList ≠ [] ∧
        op.lexeme.toList.all Char.isAlpha = true := by decide
    exact hall op hop

theorem Plain.not_mem (h : l.Plain run) : run ∉ l.reserved := fun hmem => h run hmem List.infix_rfl

theorem Plain.part {run' : List Char} (h : l.Plain run) (hpart : run' <:+: run) : l.Plain run' :=
  fun word hword hin => h word hword (hin.trans hpart)

/-- A reserved word that a text starts with is in the run at its start. -/
theorem prefix_wordRun_iff (hl : l.Apart) {word : List Char} (hword : word ∈ l.reserved) :
    word <+: wordRun cs ↔ word <+: cs := by
  constructor
  · intro h
    exact h.trans (List.takeWhile_prefix Char.isAlphanum)
  · rintro ⟨rest, rfl⟩
    have hletters : ∀ c ∈ word, c.isAlphanum = true := fun c hc =>
      Text.isAlphanum_of_isAlpha (List.all_eq_true.1 (hl.letters_of_mem hword).2 c hc)
    rw [wordRun, List.takeWhile_append_of_pos hletters]
    exact List.prefix_append _ _

theorem keywordPrefix?_wordRun (hl : l.Apart) (hmark : cs.head? ≠ some '?') :
    keywordPrefix? (wordRun cs) = keywordPrefix? cs := by
  refine congrArg (Option.map _) (longestPrefix_congr fun e he => ?_)
  rcases List.mem_cons.1 he with rfl | hword
  · -- The short form of `PRINT` is the one spelling that is no word of letters.
    have hrun : (wordRun cs).head? ≠ some '?' := by
      intro hhead
      have := Text.of_mem_takeWhile (List.mem_of_mem_head? hhead)
      cases this
    have hstart : ∀ ds : List Char, ds.head? ≠ some '?' → ¬['?'] <+: ds := by
      rintro _ hds ⟨rest, rfl⟩
      exact hds rfl
    exact iff_of_false (hstart _ hrun) (hstart _ hmark)
  · obtain ⟨w, -, rfl⟩ := List.mem_map.1 hword
    exact prefix_wordRun_iff hl (mem_reserved.2 (.inl ⟨w, rfl⟩))

theorem commandPrefix?_wordRun (hl : l.Apart) (cs : List Char) :
    l.commandPrefix? (wordRun cs) = l.commandPrefix? cs := by
  refine congrArg (Option.map _) (longestPrefix_congr fun e he => ?_)
  obtain ⟨name, hname, rfl⟩ := List.mem_map.1 he
  exact prefix_wordRun_iff hl (mem_reserved.2 (.inr (.inl ⟨name, hname, rfl⟩)))

theorem operatorPrefix?_wordRun (hl : l.Apart) (cs : List Char) :
    operatorPrefix? (wordRun cs) = operatorPrefix? cs := by
  have hsame : ∀ op ∈ wordOperators,
      op.lexeme.toList.isPrefixOf (wordRun cs) = op.lexeme.toList.isPrefixOf cs := by
    intro op hop
    rw [Bool.eq_iff_iff, List.isPrefixOf_iff_prefix, List.isPrefixOf_iff_prefix]
    exact prefix_wordRun_iff hl (mem_reserved.2 (.inr (.inr ⟨op, hop, rfl⟩)))
  simp only [operatorPrefix?, List.find?_cons, hsame .AND (by decide), hsame .NOT (by decide),
    hsame .OR (by decide), List.find?_nil]

theorem Plain.keywordPrefix? (h : l.Plain (wordRun cs)) (hl : l.Apart)
    (hmark : cs.head? ≠ some '?') : keywordPrefix? cs = none := by
  rw [← keywordPrefix?_wordRun hl hmark, Lexicon.keywordPrefix?, longestPrefix_eq_none]
  · rfl
  · intro e he hstart
    rcases List.mem_cons.1 he with rfl | hword
    · have := Text.of_mem_takeWhile (hstart.subset List.mem_cons_self)
      cases this
    · obtain ⟨w, -, rfl⟩ := List.mem_map.1 hword
      exact h _ (mem_reserved.2 (.inl ⟨w, rfl⟩)) hstart.isInfix

theorem Plain.commandPrefix? (h : l.Plain (wordRun cs)) (hl : l.Apart) :
    l.commandPrefix? cs = none := by
  rw [← commandPrefix?_wordRun hl, Lexicon.commandPrefix?, longestPrefix_eq_none]
  · rfl
  · intro e he hstart
    obtain ⟨name, hname, rfl⟩ := List.mem_map.1 he
    exact h _ (mem_reserved.2 (.inr (.inl ⟨name, hname, rfl⟩))) hstart.isInfix

theorem Plain.operatorPrefix? (h : l.Plain (wordRun cs)) (hl : l.Apart) :
    operatorPrefix? cs = none := by
  rw [← operatorPrefix?_wordRun hl, Lexicon.operatorPrefix?, Option.map_eq_none_iff]
  refine List.find?_eq_none.2 fun op hop hstart => ?_
  have hstart := (List.isPrefixOf_iff_prefix.1 hstart).isInfix
  exact h _ (mem_reserved.2 (.inr (.inr ⟨op, hop, rfl⟩))) hstart

end Lexicon

namespace Lexer

variable {l : Lexicon} {c : Char} {cs : List Char}

theorem ofText?_wordRun {w : Word} (h : Word.ofText? (wordRun cs) = some w) :
    w.text.toList = wordRun cs := by
  rcases List.mem_cons.1 (Word.mem_spellings_of_ofText? h) with heq | hword
  · have hmark : '?' ∈ wordRun cs := by
      rw [(Prod.mk.inj heq).1]
      exact List.mem_cons_self
    have := Text.of_mem_takeWhile hmark
    cases this
  · obtain ⟨v, -, heq⟩ := List.mem_map.1 hword
    obtain ⟨htext, rfl⟩ := Prod.mk.inj heq
    exact htext

/-- A keyword is the longest one that it starts with. -/
theorem keywordPrefix?_text (w : Word) :
    Lexicon.keywordPrefix? w.text.toList = some (w, w.text.toList.length) := by
  have hall : ∀ w ∈ Word.all,
      Lexicon.keywordPrefix? w.text.toList = some (w, w.text.toList.length) := by decide
  exact hall w w.mem_all

/-- Glued or not, a keyword is found where a run is one, and nowhere else. -/
theorem keyword?_of_unglued (hl : l.Apart) (h : l.Unglued (wordRun cs)) (packed : Bool) :
    keyword? packed cs = keyword? false cs := by
  cases packed with
  | false => rfl
  | true =>
    rw [keyword?, keyword?]
    by_cases hmark : cs.head? = some '?'
    · rw [if_pos hmark, if_pos hmark]
    · rw [if_neg hmark, if_neg hmark, if_pos rfl, if_neg Bool.false_ne_true]
      have hnone (hword : ∀ w : Word, w.text.toList ≠ wordRun cs) :
          Word.ofText? (wordRun cs) = none :=
        Option.eq_none_iff_forall_ne_some.2 fun w hw => hword w (ofText?_wordRun hw)
      rcases h with hplain | hmem
      · rw [hplain.keywordPrefix? hl hmark, hnone fun w hw => ?_]
        · rfl
        · exact hplain.not_mem (Lexicon.mem_reserved.2 (.inl ⟨w, hw⟩))
      · rw [← Lexicon.keywordPrefix?_wordRun hl hmark]
        rcases Lexicon.mem_reserved.1 hmem with ⟨w, hw⟩ | ⟨name, hname, hrun⟩ | ⟨op, hop, hrun⟩
        · rw [← hw, keywordPrefix?_text, Word.ofText?_text]
          rfl
        · have hfree := hl.keyword name hname
          rw [← hrun, hfree]
          rw [hrun] at hfree ⊢
          rw [hnone fun w hw => ?_]
          · rfl
          · rw [← hw, keywordPrefix?_text] at hfree
            cases hfree
        · have hall : ∀ op ∈ wordOperators, Lexicon.keywordPrefix? op.lexeme.toList =
              (Word.ofText? op.lexeme.toList).map (·, op.lexeme.toList.length) := by decide
          rw [← hrun]
          exact hall op hop

/-- Where no keyword is found, a run that is a reserved word is a command or an operator. -/
theorem unglued_cases (h : l.Unglued (wordRun cs)) (hkeyword : keyword? false cs = none) :
    l.Plain (wordRun cs) ∨ (∃ name ∈ l.commands, name.toList = wordRun cs) ∨
      ∃ op ∈ wordOperators, op.lexeme.toList = wordRun cs := by
  rcases h with hplain | hmem
  · exact .inl hplain
  · rcases Lexicon.mem_reserved.1 hmem with ⟨w, hw⟩ | hrest
    · rw [keyword?] at hkeyword
      split at hkeyword
      · cases hkeyword
      · rw [if_neg Bool.false_ne_true, ← hw, Word.ofText?_text] at hkeyword
        cases hkeyword
    · exact .inr hrest

theorem command?_of_mem (hl : l.Apart) {name : String} (hname : name ∈ l.commands)
    (hrun : name.toList = wordRun cs) (packed : Bool) :
    command? l packed cs = some (name, name.length) := by
  cases packed with
  | true =>
    rw [command?, if_pos rfl, ← Lexicon.commandPrefix?_wordRun hl, ← hrun, hl.command name hname]
    rfl
  | false =>
    have hcommand : l.isCommand (wordRun cs) = true :=
      List.any_eq_true.2 ⟨name, hname, beq_iff_eq.2 hrun⟩
    have hne : (wordRun cs).isEmpty = false := by
      rw [← hrun]
      simpa using (hl.letters name hname).1
    rw [command?, if_neg Bool.false_ne_true]
    dsimp only
    rw [hcommand, hne, ← hrun, String.ofList_toList, String.length_toList]
    rfl

theorem command?_eq_none (hl : l.Apart) (hfree : l.commandPrefix? cs = none) (packed : Bool) :
    command? l packed cs = none := by
  cases packed with
  | true =>
    rw [command?, if_pos rfl, hfree]
    rfl
  | false =>
    have hcommand : l.isCommand (wordRun cs) = false := by
      refine List.any_eq_false.2 fun name hname heq => ?_
      have hfound := hl.command name hname
      rw [beq_iff_eq.1 heq, Lexicon.commandPrefix?_wordRun hl, hfree] at hfound
      cases hfound
    simp [command?, hcommand]

theorem operator?_of_mem (hl : l.Apart) {op : Operator} (hop : op ∈ wordOperators)
    (hrun : op.lexeme.toList = wordRun cs) (packed : Bool) :
    operator? packed cs = some (op, op.lexeme.toList.length) := by
  have hall : ∀ op ∈ wordOperators,
      Lexicon.operatorPrefix? op.lexeme.toList = some (op, op.lexeme.toList.length) := by decide
  rw [operator?, ← Lexicon.operatorPrefix?_wordRun hl, ← hrun, hall op hop, Option.filter_some_pos]
  simp

/-- Glued or not, a command is found where a run is one, and nowhere else. -/
theorem command?_of_unglued (hl : l.Apart) (h : l.Unglued (wordRun cs))
    (hkeyword : keyword? false cs = none) (packed : Bool) :
    command? l packed cs = command? l false cs := by
  rcases unglued_cases h hkeyword with hplain | ⟨name, hname, hrun⟩ | ⟨op, hop, hrun⟩
  · have hfree := hplain.commandPrefix? hl
    rw [command?_eq_none hl hfree, command?_eq_none hl hfree]
  · rw [command?_of_mem hl hname hrun, command?_of_mem hl hname hrun]
  · have hfree := hl.operator op hop
    rw [hrun, Lexicon.commandPrefix?_wordRun hl] at hfree
    rw [command?_eq_none hl hfree, command?_eq_none hl hfree]

/-- Glued or not, a word operator is found where a run is one, and nowhere else. -/
theorem operator?_of_unglued (hl : l.Apart) (h : l.Unglued (wordRun cs))
    (hkeyword : keyword? false cs = none) (hcommand : command? l false cs = none)
    (packed : Bool) : operator? packed cs = operator? false cs := by
  rcases unglued_cases h hkeyword with hplain | ⟨name, hname, hrun⟩ | ⟨op, hop, hrun⟩
  · rw [operator?, operator?, hplain.operatorPrefix? hl]
    rfl
  · rw [command?_of_mem hl hname hrun] at hcommand
    cases hcommand
  · rw [operator?_of_mem hl hop hrun, operator?_of_mem hl hop hrun]

/-- What is none of the reserved words has none in it. -/
theorem plain_of_unglued (hl : l.Apart) (h : l.Unglued (wordRun cs))
    (hkeyword : keyword? false cs = none) (hcommand : command? l false cs = none)
    (hoperator : operator? false cs = none) : l.Plain (wordRun cs) := by
  rcases unglued_cases h hkeyword with hplain | ⟨name, hname, hrun⟩ | ⟨op, hop, hrun⟩
  · exact hplain
  · rw [command?_of_mem hl hname hrun] at hcommand
    cases hcommand
  · rw [operator?_of_mem hl hop hrun] at hoperator
    cases hoperator

/-- In a plain run a name takes all letters and digits. -/
theorem nameTail_of_plain (hl : l.Apart) (h : l.Plain (wordRun cs)) (packed : Bool) :
    nameTail l packed cs = wordRun cs := by
  induction cs with
  | nil => rfl
  | cons x cs ih =>
    rw [nameTail]
    by_cases hx : x.isAlphanum = true
    · have hrun : wordRun (x :: cs) = x :: wordRun cs := List.takeWhile_cons_of_pos hx
      have hmark : (x :: cs).head? ≠ some '?' := by
        rintro ⟨⟩
        cases hx
      have hfree : l.startsReserved (x :: cs) = false := by
        rw [Lexicon.startsReserved, h.keywordPrefix? hl hmark, h.commandPrefix? hl,
          h.operatorPrefix? hl]
        rfl
      rw [hrun] at h ⊢
      rw [hx, hfree, Bool.and_false, Bool.not_false, Bool.and_self, if_pos rfl,
        ih (h.part (List.suffix_cons x _).isInfix)]
    · have hrun : wordRun (x :: cs) = [] := List.takeWhile_cons_of_neg hx
      rw [hrun, if_neg]
      simp [hx]

theorem name_of_plain (hl : l.Apart) (hc : c.isAlphanum = true) (h : l.Plain (wordRun (c :: cs)))
    (packed : Bool) :
    name l packed c cs = c :: wordRun cs ++ kindSuffix (cs.drop (wordRun cs).length) := by
  have hrun : wordRun (c :: cs) = c :: wordRun cs := List.takeWhile_cons_of_pos hc
  rw [hrun] at h
  rw [name, nameTail_of_plain hl (h.part (List.suffix_cons c _).isInfix)]

/-- Glued or not, a plain run is the same reference, if the run behind its point is plain too. -/
theorem reference_of_plain (hl : l.Apart) (hc : c.isAlphanum = true)
    (h : l.Plain (wordRun (c :: cs)))
    (hmember : ∀ e rest, cs.drop ((name l false c cs).length - 1) = '.' :: e :: rest →
      e.isAlpha = true → l.Plain (wordRun (e :: rest))) (packed : Bool) :
    reference l packed c cs = reference l false c cs := by
  have hname : name l packed c cs = name l false c cs := by
    rw [name_of_plain hl hc h, name_of_plain hl hc h]
  rw [reference, reference, hname]
  dsimp only
  split
  · rename_i e rest hdrop
    by_cases he : e.isAlpha = true
    · have hplain := hmember e rest hdrop he
      have halphanum := Text.isAlphanum_of_isAlpha he
      have hsame : name l packed e rest = name l false e rest := by
        rw [name_of_plain hl halphanum hplain, name_of_plain hl halphanum hplain]
      rw [if_pos he, if_pos he, hsame]
    · rw [if_neg he, if_neg he]
  · rfl

end Lexer

/-- The built-in commands are set apart from keywords and operators, and from each other. -/
theorem Lexicon.apart_builtin : ({} : Registry).lexicon.Apart := by
  constructor <;> decide

end LineBasic
