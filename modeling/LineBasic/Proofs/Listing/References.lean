import LineBasic.Proofs.Listing.Renumbering
import LineBasic.Proofs.Listing.Statements
import LineBasic.Registry

/-!
# Which references a renumbering follows

The search for references is not the lexer: it takes no word behind a letter or digit and passes
only blanks, while the lexer reads a keyword behind a numeral and skips every kind of spacing. The
main statement says which references a renumbering follows, and that it keeps all else in place.
-/

set_option autoImplicit false

namespace LineBasic

open Lexer (Mark)

theorem inRange_changes {r : RenumberRequest} {l : Listing} {changes : Renumbering}
    (h : r.changes l = .ok changes) : changes.InRange := fun _ => range_of_mem_changes h

theorem Listing.get?_newNumber {r : RenumberRequest} {l l' : Listing} {changes : Renumbering}
    (hr : l.renumber r = .ok l') (hc : r.changes l = .ok changes) {n : LineNumber} {text : String}
    (hn : (n, text) ∈ l.program) :
    l'.get? (newNumber changes n) = some (rewriteReferences changes text) := by
  obtain ⟨changes', hc', hentries⟩ := renumber_eq_ok hr
  cases hc.symm.trans hc'
  have hmem : (newNumber changes n, rewriteReferences changes text) ∈ l'.program := by
    rw [program_of_renumber hc hentries]
    exact List.mem_map_of_mem hn
  exact Table.mem_entries_iff.1 (mem_program.1 hmem).1

theorem renumberedDigits_of_newNumber? {changes : Renumbering} {digits : List Char}
    {old new : LineNumber} (hold : Number.lineNumberOf? digits = some old)
    (hnew : newNumber? changes old = some new) :
    renumberedDigits changes digits = (toString new).toList := by
  rw [renumberedDigits, hold, Option.bind_some, hnew]

section

variable {changes : Renumbering} {mss : List (List Mark)} {tss : List (List Token)}

theorem lengths_of_follow (h : List.Forall₂ (MarksFollow changes false) mss tss) :
    tss.map List.length = mss.map List.length := by
  induction h with
  | nil => rfl
  | cons hfollow _ ih => rw [List.map_cons, List.map_cons, hfollow.length, ih]

theorem follow_of_getElem? (h : List.Forall₂ (MarksFollow changes false) mss tss) {i : Nat}
    {ms : List Mark} {ts : List Token} (hms : mss[i]? = some ms) (hts : tss[i]? = some ts) :
    MarksFollow changes false ms ts := by
  induction h generalizing i with
  | nil => cases hms
  | cons hfollow _ ih =>
    cases i with
    | zero =>
      cases hms
      cases hts
      exact hfollow
    | succ i => exact ih hms hts

end

/-- A renumbered line lexes into the same statements with as many tokens. A line number right behind
`GOTO`, `GOSUB` or `THEN` becomes the new number of its line if no letter or digit stands in front
of the word and nothing but blanks between the two; otherwise it stays as it is. -/
theorem renumber_follows_seen_references {lex : Lexicon} (hlex : lex.NoDigits)
    {l l' : Listing} {r : RenumberRequest} {changes : Renumbering} (hr : l.renumber r = .ok l')
    (hc : r.changes l = .ok changes) {n : LineNumber} {text : String}
    (hn : (n, text) ∈ l.program) {ss : List (List Token)}
    (hss : lexAll lex {} text.toList = .ok ss) :
    ∃ mss text' ss', markedAll lex none text.toList = .ok mss ∧
      ss = mss.map (fun ms => Token.markUnary (ms.map Mark.token)) ∧
      l'.get? (newNumber changes n) = some text' ∧ lexAll lex {} text'.toList = .ok ss' ∧
      ss'.map List.length = ss.map List.length ∧
      ∀ (i j : Nat) (ms : List Mark) (ts : List Token) (jump number : Mark) (w : Word)
        (digits : String) (old new : LineNumber),
        mss[i]? = some ms → ss'[i]? = some ts → ms[j]? = some jump → ms[j + 1]? = some number →
        jump.token = .word w → w.isJump = true → number.token = .integer digits →
        (∀ c ∈ digits.toList, c.isDigit = true) →
        Number.lineNumberOf? digits.toList = some old → newNumber? changes old = some new →
          ts[j + 1]? = some (.integer (if jump.sees number then toString new else digits)) := by
  rw [lexAll_eq_markedAll lex none] at hss
  cases hm : markedAll lex none text.toList with
  | error f =>
    rw [hm] at hss
    cases hss
  | ok mss =>
    rw [hm] at hss
    cases hss
    obtain ⟨ss', hlex', hall⟩ := Seeking.statements_follow hlex (inRange_changes hc) hm
    refine ⟨mss, rewriteReferences changes text, ss', rfl, rfl, Listing.get?_newNumber hr hc hn,
      ?_, ?_, ?_⟩
    · rw [rewriteReferences, String.toList_ofList]
      exact hlex'
    · rw [lengths_of_follow hall, List.map_map]
      apply List.map_congr_left
      intro ms _
      simp [Token.markUnary]
    · intro i j ms ts jump number w digits old new hms hts hj hj' hword hw hint hd hold hnew
      rw [← String.ofList_toList (s := digits)] at hint
      have hfollow := follow_of_getElem? hall hms hts
      have hnext := hfollow.next j jump number w digits.toList hw hd hj hj' hword hint
      rw [renumberedDigits_of_newNumber? hold hnew] at hnext
      rw [hnext]
      split <;> simp

/-- A keyword behind a numeral is a keyword to the lexer, and its line number is left behind. -/
theorem renumber_misses_word_behind_numeral :
    let lex := Registry.lexicon {}
    let l : Listing := ⟨.ofList [(10, "IF A=1THEN 20"), (20, "END")]⟩
    let r : RenumberRequest := ⟨100, 10, 0, 0⟩
    let tokens : List Token := [.word .IF, .ident "A", .operator .equal, .integer "1", .word .THEN,
      .integer "20"]
    (lexAll lex {} "IF A=1THEN 20".toList).toOption = some [tokens] ∧
      (l.renumber r).toOption.map (·.lines.entries) =
        some [(100, "IF A=1THEN 20"), (110, "END")] := by
  decide +kernel

/-- Of two references to one line the first stands behind a numeral and stays; the second follows
its line. -/
theorem renumber_follows_seen_references_after_colon :
    let lex := Registry.lexicon {}
    let l : Listing := ⟨.ofList [(10, "IF A=1THEN 20:GOTO 20"), (20, "END")]⟩
    let r : RenumberRequest := ⟨100, 10, 0, 0⟩
    ∃ l' text ss, l.renumber r = .ok l' ∧ l'.get? 100 = some text ∧
      lexAll lex {} text.toList = .ok ss ∧
      ss[0]?.bind (·[5]?) = some (.integer "20") ∧ ss[1]?.bind (·[1]?) = some (.integer "110") := by
  intro lex l r
  have hlex : lex.NoDigits := by
    have hall : lex.commands.all (fun name => !name.toList.any Char.isDigit) = true := by
      decide +kernel
    intro name hname
    simpa using List.all_eq_true.1 hall name hname
  have hc : r.changes l = .ok [(10, 100), (20, 110)] := eq_ok_of_toOption (by decide +kernel)
  have hr : l.renumber r = .ok _ := congrArg (Except.map _) hc
  have hss : lexAll lex {} "IF A=1THEN 20:GOTO 20".toList =
      .ok [[.word .IF, .ident "A", .operator .equal, .integer "1", .word .THEN, .integer "20"],
        [.word .GOTO, .integer "20"]] := eq_ok_of_toOption (by decide +kernel)
  have hmarked : markedAll lex none "IF A=1THEN 20:GOTO 20".toList =
      .ok [[⟨.word .IF, none, []⟩, ⟨.ident "A", some ' ', [' ']⟩, ⟨.operator .equal, some 'A', []⟩,
          ⟨.integer "1", some '=', []⟩, ⟨.word .THEN, some '1', []⟩,
          ⟨.integer "20", some ' ', [' ']⟩],
        [⟨.word .GOTO, some ':', []⟩, ⟨.integer "20", some ' ', [' ']⟩]] :=
    eq_ok_of_toOption (by decide +kernel)
  obtain ⟨mss, text, ss, hm, _, hget, hlexed, hlengths, hfollow⟩ :=
    renumber_follows_seen_references hlex hr hc (n := 10) (by decide +kernel) hss
  cases hm.symm.trans hmarked
  obtain ⟨first, second, rfl⟩ : ∃ first second, ss = [first, second] :=
    List.length_eq_two.1 (by simpa using congrArg List.length hlengths)
  refine ⟨_, text, [first, second], hr, hget, hlexed, ?_, ?_⟩
  · exact hfollow 0 4 _ first _ _ .THEN "20" 20 110 rfl rfl rfl rfl rfl rfl rfl
      (List.all_eq_true.1 rfl) (by decide +kernel) rfl
  · exact hfollow 1 0 _ second _ _ .GOTO "20" 20 110 rfl rfl rfl rfl rfl rfl rfl
      (List.all_eq_true.1 rfl) (by decide +kernel) rfl

end LineBasic
