import LineBasic.Proofs.Lexer.Front
import LineBasic.Proofs.Number.Tail

/-!
# The spelling of lexemes

A statement is cut out of its text lexeme by lexeme. Each lexeme is a run of characters that starts
where the one before it and the spacing behind that end, and has at least one character. So the cuts
lie inside the text and between its characters, whichever kind of lexeme found its length how. An
empty command name alone could make a lexeme of no characters.
-/

set_option autoImplicit false

namespace LineBasic

namespace Number

open Text (Spans)

/-- A real numeral has a digit, and its characters are those of the text. -/
theorem spans_scanRealNumeral {cs : List Char} {r : RealNumeral}
    (h : scanRealNumeral cs = some r) : 0 < r.size ∧ Spans isNumeralChar r.size cs := by
  rw [scanRealNumeral] at h
  dsimp only at h
  split at h
  · cases h
  · rename_i hdigits
    cases h
    dsimp only
    have hwhole := (spans_signOf cs).add (spans_digitRun _)
    have hpoint : (if (scanFraction (cs.drop ((signOf cs).2 +
        (digitRun (cs.drop (signOf cs).2)).length))).isSome then
          1 + ((scanFraction (cs.drop ((signOf cs).2 +
            (digitRun (cs.drop (signOf cs).2)).length))).getD []).length else 0) =
        pointSize (cs.drop ((signOf cs).2 + (digitRun (cs.drop (signOf cs).2)).length)) := by
      rw [pointSize]
      cases scanFraction _ <;> rfl
    have hsize := (hwhole.add (spans_pointSize _)).add (spans_scanExponent _)
    rw [hpoint]
    refine ⟨?_, hsize⟩
    -- The digits stand in front of the point, or else behind it.
    rcases hrun : digitRun (cs.drop (signOf cs).2) with _ | ⟨c, ds⟩
    · rw [hrun] at hdigits
      rw [pointSize]
      cases hfraction : scanFraction (cs.drop ((signOf cs).2 + [].length)) with
      | none =>
        rw [hfraction] at hdigits
        exact absurd rfl hdigits
      | some digits =>
        dsimp only
        omega
    · rw [List.length_cons]
      omega

theorem spans_scanReal {cs : List Char} {x : Float} {n : Nat} (h : scanReal cs = some (x, n)) :
    0 < n ∧ Spans isNumeralChar n cs := by
  obtain ⟨r, hr, heq⟩ := Option.map_eq_some_iff.1 h
  cases heq
  exact spans_scanRealNumeral hr

theorem spans_scanDecimal {cs : List Char} {v : Int64} {n : Nat}
    (h : scanDecimal cs = some (v, n)) : 0 < n ∧ Spans isNumeralChar n cs := by
  rw [scanDecimal] at h
  dsimp only at h
  split at h
  · cases h
  · rename_i hdigits
    split at h
    · cases h
    · obtain ⟨u, -, heq⟩ := Option.map_eq_some_iff.1 h
      cases heq
      refine ⟨?_, (spans_signOf cs).add (spans_digitRun _)⟩
      have hpos : 0 < (digitRun (cs.drop (signOf cs).2)).length :=
        List.length_pos_iff.2 fun hnil => hdigits (by rw [hnil]; rfl)
      omega

theorem spans_scanInteger {cs : List Char} {v : Int64} {n : Nat}
    (h : scanInteger cs = some (v, n)) :
    0 < n ∧ Spans (fun c => c == '$' || isNumeralChar c) n cs := by
  have hmono : ∀ c, isNumeralChar c = true → (c == '$' || isNumeralChar c) = true := by
    intro c hc
    rw [hc, Bool.or_true]
  unfold scanInteger at h
  split at h
  · obtain ⟨hpos, hspans⟩ := spans_scanHex h
    obtain ⟨k, rfl⟩ := Nat.exists_eq_succ_of_ne_zero (Nat.ne_of_gt hpos)
    exact ⟨hpos, (hspans.mono hmono).cons rfl⟩
  · obtain ⟨hpos, hspans⟩ := spans_scanDecimal h
    exact ⟨hpos, hspans.mono hmono⟩

end Number

/-- A choice that either stays or goes over to a candidate with a property ends at its start or at
such a candidate. -/
theorem choice_of_foldl {α : Type} {P : α → Prop} {choose : Option α → α → Option α}
    (hchoose : ∀ best c, choose best c = best ∨ choose best c = some c ∧ P c) {e : α}
    {candidates : List α} {best : Option α} (h : candidates.foldl choose best = some e) :
    best = some e ∨ e ∈ candidates ∧ P e := by
  induction candidates generalizing best with
  | nil => exact .inl h
  | cons c candidates ih =>
    rcases ih h with hbest | ⟨hmem, he⟩
    · rcases hchoose best c with hstays | ⟨hc, hP⟩
      · exact .inl (hstays.symm.trans hbest)
      · cases hc.symm.trans hbest
        exact .inr ⟨List.mem_cons_self, hP⟩
    · exact .inr ⟨List.mem_cons_of_mem c hmem, he⟩

/-- The longest candidate is one of the candidates, and the text starts with it. -/
theorem prefix_of_longestPrefix {α : Type} {cs : List Char} {candidates : List (List Char × α)}
    {e : List Char × α} (h : longestPrefix cs candidates = some e) :
    e ∈ candidates ∧ e.1 <+: cs := by
  have hfold := choice_of_foldl (P := fun c => c.1 <+: cs) (fun best c => ?_) h
  · rcases hfold with hnone | hmem
    · cases hnone
    · exact hmem
  · split
    · rename_i hprefix
      have hc : c.1 <+: cs := List.isPrefixOf_iff_prefix.1 hprefix
      cases best with
      | none => exact .inr ⟨rfl, hc⟩
      | some b =>
        dsimp only
        split
        · exact .inr ⟨rfl, hc⟩
        · exact .inl rfl
    · exact .inl rfl

theorem Word.ne_nil_of_mem_spellings {e : List Char × Word} (h : e ∈ spellings) : e.1 ≠ [] := by
  have hall : ∀ e ∈ spellings, e.1 ≠ [] := by decide
  exact hall e h

namespace Lexer

open Text (isSpacing)

inductive Spells (l : Lexicon) : List Char → List Token → Prop
  | word {written : List Char} {w : Word} (h : (written, w) ∈ Word.spellings) :
      Spells l written [.word w]
  | command {name : String} (h : name ∈ l.commands) : Spells l name.toList [.command name]
  | operator {written : List Char} {op : Operator} (h : Operator.ofLexeme? written = some op) :
      Spells l written [.operator op]
  | integer (written : List Char) : Spells l written [.integer (String.ofList written)]
  | number (written : List Char) : Spells l written [.number (String.ofList written)]
  | string {quote : Char} {body : List Char} (h : quote ∉ body) :
      Spells l (quote :: (body ++ [quote])) [.string (String.ofList body)]
  | openParen : Spells l ['('] [.openParen]
  | closeParen : Spells l [')'] [.closeParen]
  | comma : Spells l [','] [.comma]
  | handle (digits : List Char) : Spells l ('#' :: digits) [.fileHandle (String.ofList digits)]
  | ident (written : List Char) : Spells l written [.ident (String.ofList written)]
  | member (front written : List Char) :
      Spells l (front ++ '.' :: written)
        [.qualifier (String.ofList front), .ident (String.ofList written)]

def StartsWith (l : Lexicon) (cs : List Char) (found : Lexeme) : Prop :=
  ∃ written rest, cs = written ++ rest ∧ written ≠ [] ∧ written.length = found.size ∧
    Spells l written found.tokens

variable {l : Lexicon} {packed dotAsZero : Bool} {c : Char} {cs : List Char}

theorem StartsWith.of_start {written : List Char} {found : Lexeme} (h : written <+: cs)
    (hne : written ≠ []) (hsize : written.length = found.size)
    (hspells : Spells l written found.tokens) : StartsWith l cs found := by
  obtain ⟨rest, rfl⟩ := h
  exact ⟨written, rest, rfl, hne, hsize, hspells⟩

/-- The first characters make a lexeme, as long as there are so many. -/
theorem StartsWith.of_take {tokens : List Token} {n : Nat} {p : Char → Bool}
    (hn : 0 < n ∧ Text.Spans p n cs) (hspells : Spells l (cs.take n) tokens) :
    StartsWith l cs ⟨tokens, n⟩ := by
  have hlength : (cs.take n).length = n := List.length_take_of_le hn.2.1
  refine .of_start (List.take_prefix n cs) ?_ hlength hspells
  intro hnil
  rw [hnil, List.length_nil] at hlength
  omega

/-- What is behind the first characters of a text, as many as there are of them. -/
theorem drop_of_cons_eq {written rest : List Char} (h : c :: cs = written ++ rest)
    (hne : written ≠ []) : cs.drop (written.length - 1) = rest := by
  obtain ⟨d, ds, rfl⟩ := List.exists_cons_of_ne_nil hne
  rw [List.cons_append] at h
  obtain ⟨rfl, rfl⟩ := List.cons.inj h
  rw [List.length_cons, Nat.add_sub_cancel, List.drop_left]

theorem spelling_of_keyword {w : Word} {n : Nat} (h : keyword? packed cs = some (w, n)) :
    ∃ written, (written, w) ∈ Word.spellings ∧ written <+: cs ∧ written.length = n := by
  rw [keyword?] at h
  split at h
  · rename_i hmark
    obtain ⟨rest, rfl⟩ := List.head?_eq_some_iff.1 hmark
    cases h
    exact ⟨['?'], List.mem_cons_self, List.prefix_append ['?'] rest, rfl⟩
  · split at h
    · obtain ⟨e, he, heq⟩ := Option.map_eq_some_iff.1 h
      obtain ⟨hmem, hprefix⟩ := prefix_of_longestPrefix he
      cases heq
      exact ⟨e.1, hmem, hprefix, rfl⟩
    · obtain ⟨v, hv, heq⟩ := Option.map_eq_some_iff.1 h
      cases heq
      exact ⟨wordRun cs, Word.mem_spellings_of_ofText? hv, List.takeWhile_prefix Char.isAlphanum,
        rfl⟩

/-- A command is written as its name, and it is a run of letters and digits if it stands alone. -/
theorem command?_eq_some {name : String} {n : Nat} (h : command? l packed cs = some (name, n)) :
    name ∈ l.commands ∧ name.toList <+: cs ∧ name.toList.length = n ∧
      (packed = true ∨ name.toList ≠ [] ∧ ∀ x ∈ name.toList, x.isAlphanum = true) := by
  rw [command?] at h
  split at h
  · rename_i hpacked
    obtain ⟨found, hfound, heq⟩ := Option.map_eq_some_iff.1 h
    cases heq
    obtain ⟨e, he, rfl⟩ := Option.map_eq_some_iff.1 hfound
    obtain ⟨hmem, hstart⟩ := prefix_of_longestPrefix he
    obtain ⟨command, hcommand, rfl⟩ := List.mem_map.1 hmem
    exact ⟨hcommand, hstart, String.length_toList, .inl hpacked⟩
  · dsimp only at h
    split at h
    · rename_i hrun
      cases h
      obtain ⟨hne, hcommand⟩ := Bool.and_eq_true_iff.1 hrun
      obtain ⟨command, hmem, heq⟩ := List.any_eq_true.1 hcommand
      have hname : command.toList = wordRun cs := beq_iff_eq.1 heq
      have hstart : wordRun cs <+: cs := List.takeWhile_prefix Char.isAlphanum
      have hall : ∀ x ∈ wordRun cs, x.isAlphanum = true := fun x hx => Text.of_mem_takeWhile hx
      rw [← hname] at hne hstart hall ⊢
      rw [String.ofList_toList]
      exact ⟨hmem, hstart, rfl, .inr ⟨by simpa using hne, hall⟩⟩
    · cases h

theorem startsWith_command (hl : packed = true → "" ∉ l.commands) {name : String} {n : Nat}
    (h : command? l packed cs = some (name, n)) : StartsWith l cs ⟨[.command name], n⟩ := by
  obtain ⟨hmem, hstart, hsize, hpacked | ⟨hne, -⟩⟩ := command?_eq_some h
  · refine .of_start hstart (fun hnil => hl hpacked ?_) hsize (.command hmem)
    rw [← String.toList_eq_nil_iff.1 hnil]
    exact hmem
  · exact .of_start hstart hne hsize (.command hmem)

theorem startsWith_operator {op : Operator} {n : Nat} (h : operator? packed cs = some (op, n)) :
    StartsWith l cs ⟨[.operator op], n⟩ := by
  have hspelling : ∀ written : List Char, Operator.ofLexeme? written = some op → written <+: cs →
      written.length = n → StartsWith l cs ⟨[.operator op], n⟩ := by
    intro written hop hprefix hsize
    refine .of_start hprefix ?_ hsize (.operator hop)
    rintro rfl
    cases hop
  have hone : ∀ (a : Char) (rest : List Char), cs = a :: rest →
      (Operator.ofLexeme? [a]).map (·, 1) = some (op, n) →
      StartsWith l cs ⟨[.operator op], n⟩ := by
    rintro a rest rfl h
    obtain ⟨v, hv, heq⟩ := Option.map_eq_some_iff.1 h
    cases heq
    exact hspelling [a] hv (List.prefix_append [a] rest) rfl
  rw [operator?] at h
  dsimp only at h
  split at h
  · rename_i found hfound
    cases h
    obtain ⟨v, hv, heq⟩ := Option.map_eq_some_iff.1 (Option.filter_eq_some_iff.1 hfound).1
    cases heq
    have hprefix := List.find?_some hv
    exact hspelling _ (Operator.ofLexeme?_lexeme op) (List.isPrefixOf_iff_prefix.1 hprefix)
      String.length_toList
  · split at h
    · cases h
    · rcases cs with _ | ⟨a, _ | ⟨b, rest⟩⟩
      · cases h
      · exact hone a [] rfl h
      · rw [signOperator?] at h
        split at h
        · rename_i v hv
          cases h
          exact hspelling [a, b] hv (List.prefix_append [a, b] rest) rfl
        · exact hone a (b :: rest) rfl h

theorem startsWith_number {found : Lexeme} (h : number? dotAsZero cs = some found) :
    StartsWith l cs found := by
  rw [number?] at h
  split at h
  · rename_i v n hscan
    cases h
    exact .of_take (Number.spans_scanInteger hscan) (.integer _)
  · split at h
    · rename_i x n hscan
      cases h
      exact .of_take (Number.spans_scanReal hscan) (.number _)
    · split at h
      · rename_i hpoint
        cases h
        obtain ⟨rest, rfl⟩ := List.head?_eq_some_iff.1
          (beq_iff_eq.1 (Bool.and_eq_true_iff.1 hpoint).2)
        exact .of_start (List.prefix_append ['.'] rest) (by simp) rfl (.number ['.'])
      · cases h

theorem prefix_nameTail (l : Lexicon) (packed : Bool) (cs : List Char) :
    nameTail l packed cs <+: cs := by
  induction cs with
  | nil => exact List.nil_prefix
  | cons c cs ih =>
    rw [nameTail]
    split
    · exact List.cons_prefix_cons.2 ⟨rfl, ih⟩
    · exact List.nil_prefix

theorem name_append_drop (l : Lexicon) (packed : Bool) (c : Char) (cs : List Char) :
    name l packed c cs ++ cs.drop ((name l packed c cs).length - 1) = c :: cs := by
  obtain ⟨rest, hrest⟩ := prefix_nameTail l packed cs
  have hdrop : cs.drop (nameTail l packed cs).length = rest :=
    (congrArg (List.drop (nameTail l packed cs).length) hrest).symm.trans List.drop_left
  have hname : name l packed c cs = c :: (nameTail l packed cs ++ kindSuffix rest) := by
    rw [name, hdrop, List.cons_append]
  rw [hname, List.length_cons, Nat.add_sub_cancel, List.length_append, ← List.drop_drop, hdrop,
    List.cons_append, List.append_assoc, kindSuffix_append_drop, hrest]

theorem startsWith_reference (l : Lexicon) (packed : Bool) (c : Char) (cs : List Char) :
    StartsWith l (c :: cs) (reference l packed c cs) := by
  have hfront := name_append_drop l packed c cs
  have hne : name l packed c cs ≠ [] := by simp [name]
  have halone : StartsWith l (c :: cs) ⟨[.ident (String.ofList (name l packed c cs))],
      (name l packed c cs).length⟩ := ⟨_, _, hfront.symm, hne, rfl, .ident _⟩
  rw [reference]
  dsimp only
  split
  · rename_i d rest hdrop
    split
    · have hmember := name_append_drop l packed d rest
      refine ⟨name l packed c cs ++ '.' :: name l packed d rest,
        rest.drop ((name l packed d rest).length - 1), ?_, by simp, ?_, .member _ _⟩
      · rw [List.append_assoc, List.cons_append, hmember, ← hdrop, hfront]
      · rw [List.length_append, List.length_cons]
        dsimp only
        omega
    · exact halone
  · exact halone

theorem startsWith_quoted {found : Lexeme} (h : quoted c cs = .ok found) :
    StartsWith l (c :: cs) found := by
  obtain ⟨body, rest, rfl, hbody, rfl⟩ := exists_of_quoted h
  exact ⟨c :: (body ++ [c]), rest, by simp, by simp, by simp, .string hbody⟩

theorem startsWith_handle {found : Lexeme} (h : handle cs = .ok found) :
    StartsWith l ('#' :: cs) found := by
  rw [handle] at h
  split at h
  · cases h
  · cases h
    refine .of_start (List.cons_prefix_cons.2 ⟨rfl, List.takeWhile_prefix Char.isDigit⟩) (by simp)
      rfl (.handle _)

theorem startsWith_punctuation {found : Lexeme} (h : punctuation l packed c cs = .ok found) :
    StartsWith l (c :: cs) found := by
  have hsign : ∀ {t : Token}, Spells l [c] [t] → StartsWith l (c :: cs) ⟨[t], 1⟩ := fun hspells =>
    .of_start (List.prefix_append [c] cs) (by simp) rfl hspells
  rw [punctuation] at h
  split at h
  · rename_i hc
    cases h
    exact hsign (hc ▸ .openParen)
  · split at h
    · rename_i hc
      cases h
      exact hsign (hc ▸ .closeParen)
    · split at h
      · rename_i hc
        cases h
        exact hsign (hc ▸ .comma)
      · split at h
        · rename_i hc
          subst hc
          exact startsWith_handle h
        · split at h
          · cases h
            exact startsWith_reference l packed c cs
          · cases h

/-- Every lexeme is spelled by the characters that it takes. -/
theorem startsWith_lexeme (hl : packed = true → "" ∉ l.commands) {found : Lexeme}
    (h : lexeme l packed dotAsZero c cs = .ok found) : StartsWith l (c :: cs) found := by
  rw [lexeme] at h
  split at h
  · rename_i name n hcommand
    cases h
    exact startsWith_command hl hcommand
  · split at h
    · exact startsWith_quoted h
    · split at h
      · rename_i op n hop
        cases h
        exact startsWith_operator hop
      · split at h
        · rename_i hnumber
          cases h
          exact startsWith_number hnumber
        · exact startsWith_punctuation h

theorem kind_lexeme {f : Fault} (h : lexeme l packed dotAsZero c cs = .error f) :
    f.kind = .badSyntax := by
  rw [lexeme] at h
  split at h
  · cases h
  · split at h
    · rw [quoted] at h
      split at h <;> cases h
      rfl
    · split at h
      · cases h
      · split at h
        · cases h
        · rw [punctuation] at h
          repeat' split at h
          all_goals first
            | cases h; rfl
            | cases h
            | (rw [handle] at h; split at h <;> cases h; rfl)

/-- The text of a statement, cut into spacing and lexemes up to its end. It ends with the line, at a
colon or with the text of a remark, or else the characters there begin no lexeme. -/
inductive Cut (l : Lexicon) : List Char → Except Fault (List Token × List Char) → Prop
  | line {gap : List Char} (hgap : gap.all isSpacing = true) : Cut l gap (.ok ([], []))
  | colon {gap : List Char} (hgap : gap.all isSpacing = true) (rest : List Char) :
      Cut l (gap ++ ':' :: rest) (.ok ([], rest))
  | remark {gap written : List Char} (hgap : gap.all isSpacing = true)
      (hwritten : (written, Word.REM) ∈ Word.spellings) (rest : List Char) :
      Cut l (gap ++ (written ++ rest)) (.ok ([.word .REM, .string (String.ofList rest)], []))
  | fault {gap cs : List Char} {f : Fault} (hgap : gap.all isSpacing = true) (hcs : cs ≠ [])
      (hf : f.kind = .badSyntax) : Cut l (gap ++ cs) (.error f)
  | lexeme {gap written rest : List Char} {tokens : List Token}
      {more : Except Fault (List Token × List Char)} (hgap : gap.all isSpacing = true)
      (hwritten : written ≠ []) (hspells : Spells l written tokens) (h : Cut l rest more) :
      Cut l (gap ++ (written ++ rest)) (prepend tokens more)

/-- Behind a lexeme a statement goes on with the characters that the lexeme leaves. -/
theorem Cut.of_startsWith {gap : List Char} {found : Lexeme}
    {more : Except Fault (List Token × List Char)} (hgap : gap.all isSpacing = true)
    (hfound : StartsWith l (c :: cs) found) (h : Cut l (cs.drop (found.size - 1)) more) :
    Cut l (gap ++ c :: cs) (prepend found.tokens more) := by
  obtain ⟨written, rest, hcs, hne, hsize, hspells⟩ := hfound
  rw [← hsize, drop_of_cons_eq hcs hne] at h
  rw [hcs]
  exact .lexeme hgap hne hspells h

theorem exists_spacing (text : List Char) :
    ∃ gap, gap.all isSpacing = true ∧ text = gap ++ text.dropWhile isSpacing :=
  ⟨text.takeWhile isSpacing, List.all_takeWhile, List.takeWhile_append_dropWhile.symm⟩

/-- Lexing cuts the text of a statement at its characters, whatever comes of it. -/
theorem cut_statement (hl : "" ∉ l.commands) (packed dotAsZero : Bool) (text : List Char) :
    Cut l text (statement l packed dotAsZero text) := by
  fun_induction statement l packed dotAsZero text with
  | case1 packed text hc =>
    obtain ⟨gap, hgap, htext⟩ := exists_spacing text
    rw [htext, hc, List.append_nil]
    exact .line hgap
  | case2 packed text cs hc hlt =>
    obtain ⟨gap, hgap, htext⟩ := exists_spacing text
    rw [htext, hc]
    exact .colon hgap cs
  | case3 packed text c cs hc hlt hcolon size hkeyword =>
    obtain ⟨gap, hgap, htext⟩ := exists_spacing text
    rw [htext, hc]
    obtain ⟨written, hmem, ⟨rest, hcs⟩, rfl⟩ := spelling_of_keyword hkeyword
    rw [drop_of_cons_eq hcs.symm (Word.ne_nil_of_mem_spellings hmem), ← hcs]
    exact .remark hgap hmem rest
  | case4 packed text c cs hc hlt hcolon w size hw hkeyword ih =>
    obtain ⟨gap, hgap, htext⟩ := exists_spacing text
    rw [htext, hc]
    obtain ⟨written, hmem, hprefix, hsize⟩ := spelling_of_keyword hkeyword
    have hword : StartsWith l (c :: cs) ⟨[.word w], size⟩ :=
      .of_start hprefix (Word.ne_nil_of_mem_spellings hmem) hsize (.word hmem)
    exact .of_startsWith hgap hword ih
  | case5 packed text c cs hc hlt hcolon hkeyword f hf =>
    obtain ⟨gap, hgap, htext⟩ := exists_spacing text
    rw [htext, hc]
    exact .fault hgap (List.cons_ne_nil c cs) (kind_lexeme hf)
  | case6 packed text c cs hc hlt hcolon hkeyword found hf ih =>
    obtain ⟨gap, hgap, htext⟩ := exists_spacing text
    rw [htext, hc]
    exact .of_startsWith hgap (startsWith_lexeme (fun _ => hl) hf) ih

end Lexer

end LineBasic
