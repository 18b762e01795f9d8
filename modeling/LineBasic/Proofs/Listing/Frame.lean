import LineBasic.Proofs.Listing.References
import LineBasic.Proofs.Listing.Rewritten

/-!
# What renumbering leaves as it is

A text without references to renumbered lines stays as it is. Text in quotes stays in any case, and
the lexer has the same idea of what is in quotes: each token that is a quoted text has its
characters at a place where the rewritten text has them too. Main statement:
`rewriteReferences_changes_references_only`.
-/

set_option autoImplicit false

namespace LineBasic

open Lexer (IsQuotedAt Mark Reaches ReadsText)

namespace Rewritten

variable {changes : Renumbering} {before front back cs ds : List Char} {c : Char}

/-- Without a reference to a line with a new number, a text stays as it is. -/
theorem eq_self (h : Rewritten changes before cs ds)
    (hnone : ∀ front digits after, cs = front ++ digits ++ after →
      IsReference (before ++ front) digits after → newDigits? changes digits = none) : ds = cs := by
  induction h with
  | nil before => rfl
  | @keep before c cs ds _ h ih =>
    rw [ih fun front digits after heq href => ?_]
    refine hnone (c :: front) digits after (by rw [heq]; rfl) ?_
    rwa [List.append_assoc, List.singleton_append] at href
  | @replace before digits after new ds href hnew h ih =>
    rw [hnone [] digits after rfl (by rwa [List.append_nil])] at hnew
    cases hnew

theorem of_cons (h : Rewritten changes before (c :: cs) ds)
    (hc : c.isDigit = true → ∀ list, ¬Awaits (.number list) before) :
    ∃ ds', ds = c :: ds' ∧ Rewritten changes (before ++ [c]) cs ds' := by
  generalize htext : c :: cs = text at h
  cases h with
  | nil => cases htext
  | keep _ h =>
    cases htext
    exact ⟨_, rfl, h⟩
  | @replace _ digits after new ds href _ _ =>
    obtain ⟨d, digits, rfl⟩ := List.exists_cons_of_ne_nil href.ne_nil
    obtain ⟨rfl, -⟩ := List.cons.inj htext
    obtain ⟨list, hlist⟩ := href.awaits
    exact absurd hlist (hc (href.isDigit c List.mem_cons_self) list)

theorem of_quoted {q : Char} {body : List Char} (hq : Text.quoteAfter none before = some q)
    (hbody : q ∉ body) (h : Rewritten changes before (body ++ cs) ds) :
    ∃ ds', ds = body ++ ds' ∧ Rewritten changes (before ++ body) cs ds' := by
  induction body generalizing before ds with
  | nil =>
    rw [List.append_nil]
    exact ⟨ds, rfl, h⟩
  | cons c body ih =>
    have hne : q ∉ [c] := fun hmem => hbody (List.mem_cons.2 (.inl (List.mem_singleton.1 hmem)))
    have hopen : Text.quoteAfter none (before ++ [c]) = some q := by
      rw [Text.quoteAfter_append, hq, Text.quoteAfter_body hne]
    obtain ⟨rest, rfl, hrest⟩ := h.of_cons fun _ list hlist => by
      rw [hlist.quoteAfter] at hq
      cases hq
    obtain ⟨after, rfl, hafter⟩ := ih hopen (fun hmem => hbody (List.mem_cons_of_mem c hmem)) hrest
    rw [List.append_assoc, List.singleton_append] at hafter
    exact ⟨after, rfl, hafter⟩

theorem isReference_append {before digits after : List Char} (h : IsReference before digits after)
    (hback : ∀ c ∈ back.head?, c.isDigit = false) : IsReference before digits (after ++ back) := by
  refine ⟨h.awaits, h.ne_nil, h.isDigit, ?_⟩
  cases after with
  | nil => exact hback
  | cons c after => exact h.ends

/-- A text can be cut in front of a character that is no digit. -/
theorem split (h : Rewritten changes before (front ++ back) ds)
    (hback : ∀ c ∈ back.head?, c.isDigit = false) :
    ∃ front' back', ds = front' ++ back' ∧ Rewritten changes before front front' ∧
      Rewritten changes (before ++ front) back back' := by
  generalize htext : front ++ back = text at h
  induction h generalizing front with
  | nil before =>
    obtain ⟨rfl, rfl⟩ := List.append_eq_nil_iff.1 htext
    exact ⟨[], [], rfl, .nil before, .nil _⟩
  | @keep before c cs ds hc h ih =>
    cases front with
    | nil =>
      rw [List.nil_append] at htext
      subst htext
      rw [List.append_nil]
      exact ⟨[], _, rfl, .nil before, .keep hc h⟩
    | cons d front =>
      rw [List.cons_append] at htext
      obtain ⟨rfl, hcs⟩ := List.cons.inj htext
      obtain ⟨front', back', rfl, hfront, hback'⟩ := ih hcs
      rw [List.append_assoc, List.singleton_append] at hback'
      refine ⟨d :: front', back', rfl, .keep (fun digits after heq href => ?_) hfront, hback'⟩
      refine hc digits (after ++ back) ?_ (isReference_append href hback)
      rw [← hcs, ← List.cons_append, heq, List.append_assoc]
  | @replace before digits after new ds href hnew h ih =>
    obtain ⟨mid, rfl, rfl⟩ : ∃ mid, front = digits ++ mid ∧ after = mid ++ back := by
      rcases List.append_eq_append_iff.1 htext with ⟨mid, hdigits, rfl⟩ | hmid
      · -- The cut would lie inside the digits.
        cases mid with
        | nil => exact ⟨[], by simp [hdigits], rfl⟩
        | cons c mid =>
          have hc := href.isDigit c (by simp [hdigits])
          rw [hback c rfl] at hc
          cases hc
      · exact hmid
    obtain ⟨front', back', rfl, hfront, hback'⟩ := ih rfl
    rw [List.append_assoc] at hback'
    refine ⟨new ++ front', back', (List.append_assoc ..).symm, .replace ?_ hnew hfront, hback'⟩
    refine ⟨href.awaits, href.ne_nil, href.isDigit, ?_⟩
    cases mid with
    | nil => simp
    | cons c mid => exact href.ends

/-- Quoted text stays, and what stands around it is rewritten in its place. -/
theorem string {q : Char} {body after : List Char} (hq : Text.isQuote q = true)
    (hbody : q ∉ body) (hfront : Text.quoteAfter none front = none)
    (h : Rewritten changes [] (front ++ q :: (body ++ q :: after)) ds) :
    ∃ front' after', ds = front' ++ q :: (body ++ q :: after') ∧
      Rewritten changes [] front front' ∧
      Rewritten changes (front ++ q :: (body ++ [q])) after after' := by
  have hdigit : q.isDigit = false := by
    rcases Text.isQuote_iff.1 hq with rfl | rfl <;> rfl
  have hopen : Text.quoteAfter none (front ++ [q]) = some q := by
    rw [Text.quoteAfter_append, hfront]
    simp [Text.quoteAfter, Text.quoteStep, hq]
  obtain ⟨front', rest, rfl, hfront', hrest⟩ := h.split (by simpa using hdigit)
  have hquote {before : List Char} (hq : q.isDigit = true) :
      ∀ list, ¬Awaits (.number list) before := by
    rw [hdigit] at hq
    cases hq
  obtain ⟨inside, rfl, hinside⟩ := hrest.of_cons hquote
  obtain ⟨closing, rfl, hclosing⟩ := hinside.of_quoted hopen hbody
  obtain ⟨after', rfl, hafter⟩ := hclosing.of_cons hquote
  exact ⟨front', after', rfl, hfront', by simpa using hafter⟩

end Rewritten

theorem rewritten_rewriteReferences (changes : Renumbering) (text : String) :
    Rewritten changes [] text.toList (rewriteReferences changes text).toList := by
  rw [rewriteReferences, String.toList_ofList]
  exact rewritten_rewriteFrom changes text.toList

section

variable {l : Lexicon} {text : String} {ss : List (List Token)} {ts : List Token} {i j : Nat}
  {s : String}

theorem exists_marks (h : lexAll l {} text.toList = .ok ss) (hi : ss[i]? = some ts) :
    ∃ mss ms, markedAll l none text.toList = .ok mss ∧ mss[i]? = some ms ∧
      ts = Token.markUnary (ms.map Mark.token) := by
  rw [lexAll_eq_markedAll l none] at h
  cases hm : markedAll l none text.toList with
  | error f =>
    rw [hm] at h
    cases h
  | ok mss =>
    rw [hm] at h
    cases h
    rw [List.getElem?_map] at hi
    obtain ⟨ms, hms, hts⟩ := Option.map_eq_some_iff.1 hi
    exact ⟨mss, ms, rfl, hms, hts.symm⟩

/-- A quoted text that is a token of a line is read where the lexer comes to its first quote. -/
theorem readsText_of_lexAll (h : lexAll l {} text.toList = .ok ss) (hi : ss[i]? = some ts)
    (hj : IsQuotedAt ts j s) : ReadsText l text.toList i j s := by
  obtain ⟨mss, ms, hm, hms, rfl⟩ := exists_marks h hi
  have hread := readsText_of_markedAll .start hm hms (isQuotedAt_markUnary hj)
  rwa [Nat.zero_add] at hread

/-- Among the tokens of a renumbered line, quoted texts stand where they stood. -/
theorem string_of_renumbered {changes : Renumbering} (hl : l.NoDigits) (hch : changes.InRange)
    (h : lexAll l {} text.toList = .ok ss) (hi : ss[i]? = some ts) (hj : IsQuotedAt ts j s) :
    ∃ ss' ts', lexAll l {} (rewriteReferences changes text).toList = .ok ss' ∧
      ss'[i]? = some ts' ∧ ts'[j]? = some (.string s) := by
  obtain ⟨mss, ms, hm, hms, rfl⟩ := exists_marks h hi
  obtain ⟨ss', hlex, hall⟩ := Seeking.statements_follow hl hch hm
  have hlt : i < ss'.length := hall.length_eq ▸ (List.getElem?_eq_some_iff.1 hms).1
  have hts : ss'[i]? = some ss'[i] := List.getElem?_eq_getElem hlt
  refine ⟨ss', ss'[i], ?_, hts, ?_⟩
  · rw [rewriteReferences, String.toList_ofList]
    exact hlex
  · exact (follow_of_getElem? hall hms hts).string j s (isQuotedAt_markUnary hj)

end

/-- A line with its references renumbered. A run of digits is replaced exactly if it is a reference
and its line has a new number, and all other characters stay in place; without such a reference the
line stays as it is. If the line can be lexed, each token that is a quoted text keeps its
characters. It also stays that token of the rewritten line, if the new numbers are line numbers and
no command has a digit in its name. -/
theorem rewriteReferences_changes_references_only (changes : Renumbering) (text : String) :
    Rewritten changes [] text.toList (rewriteReferences changes text).toList ∧
    ((∀ before digits after, text.toList = before ++ digits ++ after →
        IsReference before digits after → newDigits? changes digits = none) →
      rewriteReferences changes text = text) ∧
    ∀ (l : Lexicon) (ss : List (List Token)), lexAll l {} text.toList = .ok ss →
      ∀ (i j : Nat) (ts : List Token) (s : String), ss[i]? = some ts → IsQuotedAt ts j s →
        (∃ before quote after before' after', Text.isQuote quote = true ∧ quote ∉ s.toList ∧
          Reaches l text.toList i j before (quote :: (s.toList ++ quote :: after)) ∧
          (rewriteReferences changes text).toList =
            before' ++ quote :: (s.toList ++ quote :: after') ∧
          Rewritten changes [] before before' ∧
          Rewritten changes (before ++ quote :: (s.toList ++ [quote])) after after') ∧
        (l.NoDigits → changes.InRange →
          ∃ ss' ts', lexAll l {} (rewriteReferences changes text).toList = .ok ss' ∧
            ss'[i]? = some ts' ∧ ts'[j]? = some (.string s)) := by
  have hall := rewritten_rewriteReferences changes text
  refine ⟨hall, fun hnone => String.toList_inj.1 (hall.eq_self hnone), ?_⟩
  intro l ss hss i j ts s hi hj
  refine ⟨?_, fun hl hch => string_of_renumbered hl hch hss hi hj⟩
  obtain ⟨before, quote, after, hquote, hs, hplace⟩ := readsText_of_lexAll hss hi hj
  rw [← hplace.append_eq] at hall
  obtain ⟨before', after', htext, hbefore, hafter⟩ := hall.string hquote hs hplace.quoteAfter
  exact ⟨before, quote, after, before', after', hquote, hs, hplace, htext, hbefore, hafter⟩

/-- A jump in quotes stays, and of the list behind it one number changes. -/
theorem rewriteReferences_changes_references_only_outside_quotes :
    let lex := Registry.lexicon {}
    let text := "PRINT \"GOTO 10\":GOTO 20 , 10"
    rewriteReferences [(10, 100)] text = "PRINT \"GOTO 10\":GOTO 20 , 100" ∧
      ∃ ss ts, lexAll lex {} (rewriteReferences [(10, 100)] text).toList = .ok ss ∧
        ss[0]? = some ts ∧ ts[1]? = some (.string "GOTO 10") := by
  intro lex text
  have hlex : lex.NoDigits := by
    have hall : lex.commands.all (fun name => !name.toList.any Char.isDigit) = true := by
      decide +kernel
    intro name hname
    simpa using List.all_eq_true.1 hall name hname
  have hss : lexAll lex {} text.toList =
      .ok [[.word .PRINT, .string "GOTO 10"],
        [.word .GOTO, .integer "20", .comma, .integer "10"]] :=
    eq_ok_of_toOption (by decide +kernel)
  obtain ⟨-, -, hquoted⟩ := rewriteReferences_changes_references_only [(10, 100)] text
  obtain ⟨-, htokens⟩ := hquoted lex _ hss 0 1 _ "GOTO 10" rfl ⟨rfl, by
    rintro m hm
    cases hm
    decide⟩
  exact ⟨by decide +kernel, htokens hlex (by intro c hc; simp at hc; subst hc; decide)⟩

end LineBasic
