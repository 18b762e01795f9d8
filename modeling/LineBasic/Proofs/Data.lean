import LineBasic.Proofs.Calm.Statement
import LineBasic.Proofs.Lexer.Positions
import LineBasic.Proofs.Table

/-!
# Taking items of data

A `READ` takes one item for each of its names, and looks for it in the lines from the one that it
has got to on. The items of a line that can be lexed are those of its statements, so that a line
without lexical faults has none when it is read, but for the values of its items.
-/

set_option autoImplicit false

namespace LineBasic

open Run

variable {l : Lexicon} {o : LexOptions}

namespace Statement

theorem lineData_of_nil {text rest : List Char}
    (h : Lexer.statement l o.packed o.dotAsZero text = .ok ([], rest)) :
    lineData l o text = .ok [] := by
  rw [lineData]
  split <;> rename_i heq <;> cases h.symm.trans heq
  rfl

theorem lineData_of_statement {text rest : List Char} {tokens : List Token}
    (h : Lexer.statement l o.packed o.dotAsZero text = .ok (tokens, rest)) (hne : tokens ≠ []) :
    lineData l o text = (do
      let items ← statementData (Token.markUnary tokens)
      (lineData l o rest).map (items ++ ·)) := by
  rw [lineData]
  split <;> rename_i heq <;> cases h.symm.trans heq
  · exact absurd rfl hne
  · rename_i t ts
    cases statementData (Token.markUnary (t :: ts)) <;> rfl

/-- The items of a line that can be lexed are those of its statements. -/
theorem lineData_of_lexAll {text : List Char} {statements : List (List Token)}
    (h : lexAll l o text = .ok statements) :
    lineData l o text = (statements.mapM statementData).map List.flatten := by
  induction statements generalizing text with
  | nil =>
    obtain ⟨lexed, rest, hlex, ⟨rfl, -⟩ | ⟨more, -, -, hcons⟩⟩ := lexAll_eq_ok h
    · rw [lineData_of_nil hlex]
      rfl
    · cases hcons
  | cons statement more ih =>
    obtain ⟨lexed, rest, hlex, ⟨-, hnil⟩ | ⟨more', hlexed, hmore, hcons⟩⟩ := lexAll_eq_ok h
    · cases hnil
    · cases hcons
      rw [lineData_of_statement hlex hlexed, ih hmore, List.mapM_cons]
      cases statementData (Token.markUnary lexed) with
      | error f => rfl
      | ok items => cases more.mapM statementData <;> rfl

def dataLines (mod : Module) : List (LineNumber × String) :=
  match mod.data.line with
  | some n => linesFrom mod.listing n
  | none => mod.listing.program

theorem readItem_apply (m : Machine) :
    ∃ index, readItem m = readFrom index (dataLines m.codeModule) m := by
  rw [readItem, get_bind]
  cases hline : m.codeModule.data.line with
  | some n => exact ⟨m.codeModule.data.index, by simp only [dataLines, hline]⟩
  | none => exact ⟨0, by simp only [dataLines, hline]⟩

/-- An item is looked for in lines of the program. A line that is gone has no text. -/
theorem get?_of_mem_dataLines {mod : Module} (hmod : mod.Sound) {e : LineNumber × String}
    (he : e ∈ dataLines mod) : 0 ≤ e.1 ∧ (mod.listing.get? e.1 = some e.2 ∨ e.2 = "") := by
  have hlisted {first last : LineNumber} (h : e ∈ mod.listing.range first last) :
      0 ≤ e.1 ∧ (mod.listing.get? e.1 = some e.2 ∨ e.2 = "") :=
    ⟨Listing.nonneg_of_mem_range h, .inl (Table.mem_entries_iff.1 (List.mem_filter.1 h).1)⟩
  rw [dataLines] at he
  split at he
  · rename_i n hn
    rcases List.mem_cons.1 he with rfl | he
    · refine ⟨hmod.data n hn, ?_⟩
      cases mod.listing.get? n with
      | some text => exact .inl rfl
      | none => exact .inr rfl
    · exact hlisted he
  · exact hlisted he

inductive TakesItem : List Token → Machine → Machine → Prop
  | here {t : Token} {ts rest : List Token} {home : ModuleId} {ref : Reference} {place : Place}
      {m m₁ m₂ : Machine} (hname : t.startsName = true) (hhome : targetModule t m = .ok home m₁)
      (hsplit : Reference.split expectedName (t :: ts) = .ok (ref, rest))
      (hplace : targetPlace home ref m₁ = .ok place m₂) : TakesItem (t :: ts) m m₂
  | later {t : Token} {ts more : List Token} {home : ModuleId} {ref : Reference}
      {m m₁ m₂ m₃ : Machine} (hname : t.startsName = true) (hhome : targetModule t m = .ok home m₁)
      (hsplit : Reference.split expectedName (t :: ts) = .ok (ref, .comma :: more))
      (hread : readInto home ref m₁ = .ok () m₂) (h : TakesItem more m₂ m₃) :
      TakesItem (t :: ts) m m₃

theorem TakesItem.calm {tokens : List Token} {m m' : Machine} (h : TakesItem tokens m m') :
    m.CalmBut True m' := by
  induction h with
  | here _ hhome _ hplace =>
    exact .trans ((calm_targetModule _).reading.ok hhome) ((calm_targetPlace _ _).reading.ok hplace)
  | later _ hhome _ hread _ ih =>
    have hfirst : Machine.CalmBut True _ _ := .trans ((calm_targetModule _).reading.ok hhome)
      ((reading_readInto _ _).ok hread)
    exact hfirst.trans ih

end Statement

end LineBasic
