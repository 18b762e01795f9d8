import LineBasic.Proofs.Lexer.Marked
import LineBasic.Proofs.Lexer.Progress
import LineBasic.Proofs.Lexer.Reserved

/-!
# Glued and spaced code

Keywords may be glued to names if the lexer is told so. Then a name ends where a reserved word
begins. Code in which reserved words stand apart has the same lexemes either way: every run of
letters and digits is one reserved word or has none in it. Behind a point or a dollar sign a run is
part of a longer lexeme, so there it has none in it. Quoted texts and remarks are left out of this.
-/

set_option autoImplicit false

namespace LineBasic

namespace Lexer

open Text (isSpacing isQuote)

/-- Whether reserved words stand apart. The switch is on directly behind a point or a dollar sign,
where no reserved word may stand. -/
def spaced (l : Lexicon) (strict : Bool) (text : List Char) : Bool :=
  match text with
  | [] => true
  | c :: cs =>
    if isQuote c then spaced l false ((cs.dropWhile (· != c)).drop 1)
    else if c.isAlphanum then
      let run := wordRun (c :: cs)
      (if strict then decide (l.Plain run) else decide (l.Unglued run)) &&
        (run == Word.REM.text.toList || spaced l false (cs.dropWhile Char.isAlphanum))
    else spaced l (c == '.' || c == '$') cs
termination_by text.length
decreasing_by
  · have := (List.dropWhile_sublist (· != c) (l := cs)).length_le
    simp only [List.length_drop, List.length_cons]
    omega
  · exact Nat.lt_succ_of_le (List.dropWhile_sublist Char.isAlphanum).length_le
  · exact Nat.lt_succ_self _

variable {l : Lexicon} {strict : Bool} {c : Char} {cs text : List Char}

theorem spaced_quote (hq : isQuote c = true) :
    spaced l strict (c :: cs) = spaced l false ((cs.dropWhile (· != c)).drop 1) := by
  rw [spaced, if_pos hq]

theorem spaced_symbol (hc : c.isAlphanum = false) (hq : isQuote c = false) :
    spaced l strict (c :: cs) = spaced l (c == '.' || c == '$') cs := by
  rw [spaced, if_neg (by simp [hq]), if_neg (by simp [hc])]

theorem spaced_run (hc : c.isAlphanum = true) :
    spaced l strict (c :: cs) = true ↔
      (if strict then l.Plain (wordRun (c :: cs)) else l.Unglued (wordRun (c :: cs))) ∧
        (wordRun (c :: cs) = Word.REM.text.toList ∨
          spaced l false (cs.dropWhile Char.isAlphanum) = true) := by
  rw [spaced, if_neg (by simp [Text.not_isQuote_of_isAlphanum hc]), if_pos hc]
  cases strict <;> simp

/-- Where no run begins, the switch makes no difference. -/
theorem spaced_of_head (hcs : ∀ x ∈ cs.head?, x.isAlphanum = false)
    (h : spaced l strict cs = true) (strict' : Bool) : spaced l strict' cs = true := by
  cases cs with
  | nil => rw [spaced]
  | cons c cs =>
    cases hq : isQuote c with
    | true => rwa [spaced_quote hq] at h ⊢
    | false => rwa [spaced_symbol (hcs c rfl) hq] at h ⊢

theorem spaced_weaken (h : spaced l strict cs = true) : spaced l false cs = true := by
  cases strict with
  | false => exact h
  | true =>
    cases cs with
    | nil => rw [spaced]
    | cons c cs =>
      by_cases hc : c.isAlphanum = true
      · obtain ⟨hplain, hrest⟩ := (spaced_run hc).1 h
        exact (spaced_run hc).2 ⟨.inl hplain, hrest⟩
      · exact spaced_of_head (fun x hx => by cases hx; simpa using hc) h false

/-- At the start of spaced code there is a reserved word or none is in reach. -/
theorem unglued_of_spaced (hl : l.Apart) (h : spaced l false (c :: cs) = true) :
    l.Unglued (wordRun (c :: cs)) := by
  by_cases hc : c.isAlphanum = true
  · exact ((spaced_run hc).1 h).1
  · have hrun : wordRun (c :: cs) = [] := List.takeWhile_cons_of_neg hc
    rw [hrun]
    refine .inl fun word hword hpart => ?_
    exact (hl.letters_of_mem hword).1 (List.infix_nil.1 hpart)

theorem spaced_behind_run (hc : c.isAlphanum = true) (h : spaced l strict (c :: cs) = true)
    (hremark : wordRun (c :: cs) ≠ Word.REM.text.toList) :
    spaced l false (cs.dropWhile Char.isAlphanum) = true :=
  ((spaced_run hc).1 h).2.resolve_left hremark

theorem ne_remark_of_plain {run : List Char} (h : l.Plain run) : run ≠ Word.REM.text.toList := by
  rintro rfl
  exact h.not_mem (Lexicon.mem_reserved.2 (.inl ⟨.REM, rfl⟩))

theorem spaced_of_plain (hc : c.isAlphanum = true) (hplain : l.Plain (wordRun (c :: cs)))
    (h : spaced l strict (c :: cs) = true) : spaced l true (c :: cs) = true :=
  (spaced_run hc).2 ⟨hplain, ((spaced_run hc).1 h).2⟩

theorem spaced_tail (hc : c.isAlphanum = true) (h : spaced l true (c :: cs) = true) :
    spaced l true cs = true := by
  obtain ⟨hplain, -⟩ := (spaced_run hc).1 h
  have hrest := spaced_behind_run hc h (ne_remark_of_plain hplain)
  cases cs with
  | nil => rw [spaced]
  | cons x cs =>
    by_cases hx : x.isAlphanum = true
    · rw [List.dropWhile_cons_of_pos hx] at hrest
      have hrun : wordRun (c :: x :: cs) = c :: wordRun (x :: cs) := List.takeWhile_cons_of_pos hc
      rw [if_pos rfl, hrun] at hplain
      exact (spaced_run hx).2 ⟨hplain.part (List.suffix_cons c _).isInfix, .inr hrest⟩
    · rw [List.dropWhile_cons_of_neg hx] at hrest
      exact spaced_of_head (fun y hy => by cases hy; simpa using hx) hrest true

theorem spaced_append {front : List Char} (hfront : ∀ x ∈ front, x.isAlphanum = true)
    (h : spaced l true (front ++ cs) = true) : spaced l true cs = true := by
  induction front with
  | nil => exact h
  | cons x front ih =>
    obtain ⟨hx, hfront⟩ := List.forall_mem_cons.1 hfront
    exact ih hfront (spaced_tail hx h)

/-- A run that begins with a digit is plain, since reserved words are letters. -/
theorem spaced_of_isDigit (hl : l.Apart) (hc : c.isDigit = true)
    (h : spaced l strict (c :: cs) = true) : spaced l true (c :: cs) = true := by
  have halphanum := Text.isAlphanum_of_isDigit hc
  have hrun : wordRun (c :: cs) = c :: wordRun cs := List.takeWhile_cons_of_pos halphanum
  refine spaced_of_plain halphanum ?_ h
  rcases unglued_of_spaced hl (spaced_weaken h) with hplain | hmem
  · exact hplain
  · have hletters := (hl.letters_of_mem hmem).2
    rw [hrun, List.all_cons, Bool.and_eq_true_iff] at hletters
    have := Text.not_isDigit_of_isAlpha hletters.1
    rw [hc] at this
    cases this

theorem spaced_digits (hl : l.Apart) {digits : List Char} (hdigits : ∀ x ∈ digits, x.isDigit = true)
    (hne : digits ≠ []) (h : spaced l strict (digits ++ cs) = true) :
    spaced l true cs = true := by
  obtain ⟨d, ds, rfl⟩ := List.exists_cons_of_ne_nil hne
  refine spaced_append (fun x hx => Text.isAlphanum_of_isDigit (hdigits x hx)) ?_
  exact spaced_of_isDigit hl (hdigits d List.mem_cons_self) h

theorem spaced_drop_takeWhile {p : Char → Bool} (hp : ∀ x, p x = true → x.isAlphanum = true)
    (h : spaced l true cs = true) : spaced l true (cs.drop (cs.takeWhile p).length) = true := by
  rw [← Text.takeWhile_append_drop p cs] at h
  exact spaced_append (fun x hx => hp x (Text.of_mem_takeWhile hx)) h

theorem spaced_pointSize (h : spaced l true cs = true) :
    spaced l true (cs.drop (Number.pointSize cs)) = true := by
  unfold Number.pointSize Number.scanFraction
  split
  · rename_i digits hfraction
    split at hfraction
    · cases hfraction
      rw [spaced_symbol rfl rfl] at h
      rw [Nat.add_comm, List.drop_succ_cons]
      exact spaced_drop_takeWhile (fun _ => Text.isAlphanum_of_isDigit) h
    · cases hfraction
  · exact h

/-- The sign of an exponent ends a run, and the digits behind it begin another. -/
theorem spaced_scanExponent (hl : l.Apart) (h : spaced l true cs = true) :
    spaced l true (cs.drop (Number.scanExponent cs).2) = true := by
  cases cs with
  | nil => exact h
  | cons mark rest =>
    rw [Number.scanExponent]
    dsimp only
    split
    · rename_i hmark
      split
      · exact h
      · rename_i hdigits
        have halphanum : mark.isAlphanum = true := by rcases hmark with rfl | rfl <;> rfl
        have hrest := spaced_tail halphanum h
        have hsigned : ∃ strict, spaced l strict (rest.drop (Number.signOf rest).2) = true := by
          unfold Number.signOf
          split
          · exact ⟨false, by rwa [spaced_symbol rfl rfl] at hrest⟩
          · exact ⟨false, by rwa [spaced_symbol rfl rfl] at hrest⟩
          · exact ⟨true, hrest⟩
        obtain ⟨strict, hsigned⟩ := hsigned
        rw [← Text.takeWhile_append_drop Char.isDigit (rest.drop _)] at hsigned
        have hbehind := spaced_digits hl (fun x hx => Text.of_mem_takeWhile hx)
          (fun hnil => hdigits (by rw [Number.digitRun, hnil]; rfl)) hsigned
        rwa [Nat.add_assoc, Nat.add_comm, List.drop_succ_cons, ← List.drop_drop]
    · exact h

theorem spaced_tailSize (hl : l.Apart) (h : spaced l true cs = true) :
    spaced l true (cs.drop (Number.tailSize cs)) = true := by
  rw [Number.tailSize, ← List.drop_drop]
  exact spaced_scanExponent hl (spaced_pointSize h)

theorem drop_pred {n : Nat} (hn : 0 < n) : cs.drop (n - 1) = (c :: cs).drop n := by
  obtain ⟨k, rfl⟩ := Nat.exists_eq_succ_of_ne_zero (Nat.ne_of_gt hn)
  rfl

theorem number?_cases {dotAsZero : Bool} {found : Lexeme} (h : number? dotAsZero cs = some found) :
    number? false cs = some found ∨ found.size = 1 ∧ cs.head? = some '.' := by
  rw [number?] at h ⊢
  split at h
  · exact .inl h
  · split at h
    · exact .inl h
    · split at h
      · rename_i hpoint
        cases h
        exact .inr ⟨rfl, beq_iff_eq.1 (Bool.and_eq_true_iff.1 hpoint).2⟩
      · cases h

theorem isAlphanum_of_isHexDigit {c : Char} (h : Number.isHexDigit c = true) :
    c.isAlphanum = true := by
  change (c.isUpper || c.isLower || c.isDigit) = true
  rw [Number.isHexDigit, Bool.or_eq_true_iff, Bool.or_eq_true_iff] at h
  rw [Bool.or_eq_true_iff, Bool.or_eq_true_iff, Text.isUpper_iff, Text.isLower_iff]
  rcases h with (hdigit | hupper) | hlower
  · exact .inr hdigit
  · have hle : 'A'.toNat ≤ c.toNat ∧ c.toNat ≤ 'F'.toNat := by
      simpa [Char.le_def, UInt32.le_iff_toNat_le] using hupper
    exact .inl (.inl ⟨hle.1, Nat.le_trans hle.2 (by decide)⟩)
  · have hle : 'a'.toNat ≤ c.toNat ∧ c.toNat ≤ 'f'.toNat := by
      simpa [Char.le_def, UInt32.le_iff_toNat_le] using hlower
    exact .inl (.inr ⟨hle.1, Nat.le_trans hle.2 (by decide)⟩)

theorem spaced_behind_number (hl : l.Apart) (h : spaced l false (c :: cs) = true)
    (hsign : c ≠ '+' ∧ c ≠ '-') {found : Lexeme} (hfound : number? false (c :: cs) = some found) :
    spaced l false (cs.drop (found.size - 1)) = true := by
  by_cases halphanum : c.isAlphanum = true
  · by_cases hdigit : c.isDigit = true
    · obtain ⟨digits, more, hcs, hdigits, hmore⟩ := Text.exists_run Char.isDigit (c :: cs)
      have hne : digits ≠ [] := by
        rintro rfl
        have := hmore c (by rw [← List.nil_append more, ← hcs]; rfl)
        rw [hdigit] at this
        cases this
      rw [hcs, number?_digits hne hdigits hmore] at hfound
      cases hfound
      have hpos := List.length_pos_iff.2 hne
      rw [size_numeral, drop_pred (by omega), hcs, ← List.drop_drop, List.drop_left]
      rw [hcs] at h
      exact spaced_weaken (spaced_tailSize hl (spaced_digits hl hdigits hne h))
    · have halpha : c.isAlpha = true := by
        have hor : (c.isAlpha || c.isDigit) = true := halphanum
        simpa [hdigit] using hor
      rw [number?_of_isAlpha halpha] at hfound
      cases hfound
  · have hc : c.isAlphanum = false := by simpa using halphanum
    rw [number?_symbol hc hsign] at hfound
    split at hfound
    · rename_i hhex
      subst hhex
      rw [spaced_symbol rfl rfl] at h
      obtain ⟨hex, hscan, rfl⟩ := Option.map_eq_some_iff.1 hfound
      have hsize : hex.2 = (cs.takeWhile Number.isHexDigit).length + 1 := by
        rw [Number.scanHex] at hscan
        dsimp only at hscan
        split at hscan
        · cases hscan
        · split at hscan <;> cases hscan
          rfl
      dsimp only
      rw [hsize, Nat.add_sub_cancel]
      exact spaced_weaken (spaced_drop_takeWhile (fun _ => isAlphanum_of_isHexDigit) h)
    · split at hfound
      · rename_i hpoint
        obtain ⟨rfl, hdigits⟩ := hpoint
        cases hfound
        have hpos : 0 < Number.tailSize ('.' :: cs) := by
          simp only [Number.tailSize, Number.pointSize, Number.scanFraction]
          omega
        have hpoint : spaced l true ('.' :: cs) = true :=
          spaced_of_head (fun x hx => by cases hx; rfl) h true
        rw [drop_pred hpos]
        exact spaced_weaken (spaced_tailSize hl hpoint)
      · cases hfound

/-- Digits behind a symbol are no part of a reserved word. -/
theorem spaced_drop_digitRun (hl : l.Apart) (h : spaced l strict cs = true) :
    spaced l false (cs.drop (Number.digitRun cs).length) = true := by
  by_cases hnil : Number.digitRun cs = []
  · rw [hnil]
    exact spaced_weaken h
  · rw [← Text.takeWhile_append_drop Char.isDigit cs] at h
    exact spaced_weaken (spaced_digits hl (fun x hx => Text.of_mem_takeWhile hx) hnil h)

/-- Whatever is no letter and no quote may be taken off. -/
theorem spaced_behind_char (hl : l.Apart) (hc : c.isAlpha = false) (hq : isQuote c = false)
    (h : spaced l strict (c :: cs) = true) : ∃ strict, spaced l strict cs = true := by
  by_cases hdigit : c.isDigit = true
  · exact ⟨true, spaced_tail (Text.isAlphanum_of_isDigit hdigit) (spaced_of_isDigit hl hdigit h)⟩
  · have halphanum : c.isAlphanum = false := by
      change (c.isAlpha || c.isDigit) = false
      rw [hc, Bool.false_or]
      simpa using hdigit
    exact ⟨_, by rwa [spaced_symbol halphanum hq] at h⟩

theorem spaced_behind_signs (hl : l.Apart) (hc : c.isAlpha = false) (hq : isQuote c = false)
    (h : spaced l false (c :: cs) = true) {op : Operator} {size : Nat}
    (hop : signOperator? (c :: cs) = some (op, size)) :
    spaced l false (cs.drop (size - 1)) = true := by
  obtain ⟨strict, hcs⟩ := spaced_behind_char hl hc hq h
  rcases signOperator?_cases hc hop with rfl | ⟨rfl, d, rest, rfl, hsign⟩
  · exact spaced_weaken hcs
  · have hd : d.isAlphanum = false ∧ isQuote d = false := by
      have hall : "^*/+-=<>;".toList.all (fun x => !x.isAlphanum && !isQuote x) = true := by decide
      have hmem : d ∈ "^*/+-=<>;".toList := by simpa [isSign] using hsign
      simpa using List.all_eq_true.1 hall d hmem
    rw [spaced_symbol hd.1 hd.2] at hcs
    exact spaced_weaken hcs

theorem spaced_behind_punctuation (hl : l.Apart) (hc : c.isAlpha = false) (hq : isQuote c = false)
    (h : spaced l false (c :: cs) = true) {found : Lexeme}
    (hfound : punctuation l false c cs = .ok found) :
    spaced l false (cs.drop (found.size - 1)) = true := by
  obtain ⟨strict, hcs⟩ := spaced_behind_char hl hc hq h
  rcases punctuation_cases hc hfound with ⟨t, -, rfl⟩ | rfl
  · exact spaced_weaken hcs
  · exact spaced_drop_digitRun hl hcs

theorem isAlphanum_of_wordRun (h : wordRun (c :: cs) ≠ []) : c.isAlphanum = true := by
  by_contra hc
  exact h (List.takeWhile_cons_of_neg hc)

theorem spaced_behind_word (hc : c.isAlphanum = true) (h : spaced l false (c :: cs) = true)
    (hremark : wordRun (c :: cs) ≠ Word.REM.text.toList) :
    spaced l false (cs.drop ((wordRun (c :: cs)).length - 1)) = true := by
  have hrun : wordRun (c :: cs) = c :: cs.takeWhile Char.isAlphanum :=
    List.takeWhile_cons_of_pos hc
  rw [hrun, List.length_cons, Nat.add_sub_cancel]
  rw [Text.drop_length_takeWhile]
  exact spaced_behind_run hc h hremark

theorem length_name_pos (l : Lexicon) (c : Char) (cs : List Char) :
    0 < (name l false c cs).length := by
  rw [name]
  exact Nat.succ_pos _

/-- A name takes a plain run and the suffix of its kind. -/
theorem spaced_behind_name (hl : l.Apart) (hc : c.isAlphanum = true)
    (h : spaced l true (c :: cs) = true) :
    spaced l false (cs.drop ((name l false c cs).length - 1)) = true := by
  have hplain : l.Plain (wordRun (c :: cs)) := ((spaced_run hc).1 h).1
  have hrest : spaced l true (cs.drop (wordRun cs).length) = true :=
    spaced_drop_takeWhile (fun _ hx => hx) (spaced_tail hc h)
  rw [name_of_plain hl hc hplain, List.cons_append, List.length_cons, Nat.add_sub_cancel,
    List.length_append, ← List.drop_drop]
  generalize cs.drop (wordRun cs).length = rest at hrest
  unfold kindSuffix
  split
  · rw [spaced_symbol rfl rfl] at hrest
    exact spaced_weaken hrest
  · rw [spaced_symbol rfl rfl] at hrest
    exact spaced_weaken hrest
  · exact spaced_weaken hrest

/-- Behind the point of a reference no reserved word stands. -/
theorem spaced_member {e : Char} {rest : List Char}
    (h : spaced l false ('.' :: e :: rest) = true) : spaced l true (e :: rest) = true := by
  rwa [spaced_symbol rfl rfl] at h

theorem spaced_behind_reference (hl : l.Apart) (hc : c.isAlphanum = true)
    (h : spaced l true (c :: cs) = true) :
    spaced l false (cs.drop ((reference l false c cs).size - 1)) = true := by
  have hbehind := spaced_behind_name hl hc h
  rw [reference]
  dsimp only
  split
  · rename_i e rest hdrop
    split
    · rename_i he
      rw [hdrop] at hbehind
      have hmember := spaced_behind_name hl (Text.isAlphanum_of_isAlpha he) (spaced_member hbehind)
      have hsize : (name l false c cs).length + 1 + (name l false e rest).length - 1 =
          (name l false c cs).length - 1 + ((name l false e rest).length + 1) := by
        have := length_name_pos l c cs
        omega
      rw [hsize, ← List.drop_drop, hdrop, List.drop_succ_cons,
        ← drop_pred (length_name_pos l e rest)]
      exact hmember
    · exact hbehind
  · exact hbehind

theorem spaced_behind_quoted (hq : isQuote c = true) (h : spaced l false (c :: cs) = true)
    {found : Lexeme} (hfound : quoted c cs = .ok found) :
    spaced l false (cs.drop (found.size - 1)) = true := by
  rw [spaced_quote hq, ← Text.drop_length_takeWhile, List.drop_drop] at h
  rw [quoted] at hfound
  split at hfound
  · cases hfound
    exact h
  · cases hfound

theorem ne_remark_of_keyword? (h : keyword? false cs = none) :
    wordRun cs ≠ Word.REM.text.toList := by
  intro hrun
  rw [keyword?] at h
  split at h
  · cases h
  · rw [if_neg Bool.false_ne_true, hrun, Word.ofText?_text] at h
    cases h

theorem spaced_behind_command (h : spaced l false (c :: cs) = true)
    (hkeyword : keyword? false (c :: cs) = none) {name : String} {size : Nat}
    (hcommand : command? l false (c :: cs) = some (name, size)) :
    spaced l false (cs.drop (size - 1)) = true := by
  rw [command?, if_neg Bool.false_ne_true] at hcommand
  dsimp only at hcommand
  split at hcommand
  · rename_i hrun
    cases hcommand
    have hne : wordRun (c :: cs) ≠ [] := by
      intro hnil
      rw [hnil] at hrun
      cases hrun
    exact spaced_behind_word (isAlphanum_of_wordRun hne) h (ne_remark_of_keyword? hkeyword)
  · cases hcommand

theorem spaced_behind_operator (hl : l.Apart) (h : spaced l false (c :: cs) = true)
    (hkeyword : keyword? false (c :: cs) = none) (hq : isQuote c = false) {op : Operator}
    {size : Nat} (hop : operator? false (c :: cs) = some (op, size)) :
    spaced l false (cs.drop (size - 1)) = true := by
  by_cases hc : c.isAlpha = true
  · rw [operator?] at hop
    dsimp only at hop
    split at hop
    · rename_i found hnamed
      cases hop
      obtain ⟨-, hsize⟩ := Option.filter_eq_some_iff.1 hnamed
      obtain rfl : (wordRun (c :: cs)).length = size := by simpa using hsize
      exact spaced_behind_word (Text.isAlphanum_of_isAlpha hc) h (ne_remark_of_keyword? hkeyword)
    · rw [if_pos (by simpa using hc)] at hop
      cases hop
  · have hc : c.isAlpha = false := by simpa using hc
    rw [operator?_of_not_isAlpha hc] at hop
    exact spaced_behind_signs hl hc hq h hop

/-- Where no operator begins, no numeral begins with a sign. -/
theorem not_sign_of_operator? (h : operator? false (c :: cs) = none) : c ≠ '+' ∧ c ≠ '-' := by
  by_cases hc : c.isAlpha = true
  · constructor <;>
    · rintro rfl
      cases hc
  · rw [operator?_of_not_isAlpha (by simpa using hc)] at h
    exact not_sign_of_signOperator? h

/-- Whatever is no keyword leaves spaced code behind it. -/
theorem spaced_behind_lexeme (hl : l.Apart) (h : spaced l false (c :: cs) = true)
    (hkeyword : keyword? false (c :: cs) = none) {dotAsZero : Bool} {found : Lexeme}
    (hfound : lexeme l false dotAsZero c cs = .ok found) :
    spaced l false (cs.drop (found.size - 1)) = true := by
  rw [lexeme] at hfound
  split at hfound
  · rename_i name size hcommand
    cases hfound
    exact spaced_behind_command h hkeyword hcommand
  · rename_i hcommand
    split at hfound
    · rename_i hquote
      exact spaced_behind_quoted (Text.isQuote_iff.2 hquote) h hfound
    · rename_i hquote
      have hq : isQuote c = false := Bool.eq_false_iff.2 fun hq => hquote (Text.isQuote_iff.1 hq)
      split at hfound
      · rename_i op size hop
        cases hfound
        exact spaced_behind_operator hl h hkeyword hq hop
      · rename_i hop
        split at hfound
        · rename_i numeral hnumber
          cases hfound
          rcases number?_cases hnumber with hnumber | ⟨hsize, hpoint⟩
          · exact spaced_behind_number hl h (not_sign_of_operator? hop) hnumber
          · cases hpoint
            rw [spaced_symbol rfl rfl] at h
            rw [hsize]
            exact spaced_weaken h
        · by_cases hc : c.isAlpha = true
          · have halphanum := Text.isAlphanum_of_isAlpha hc
            have hplain := plain_of_unglued hl (unglued_of_spaced hl h) hkeyword hcommand hop
            rw [punctuation_of_isAlpha hc] at hfound
            cases hfound
            exact spaced_behind_reference hl halphanum (spaced_of_plain halphanum hplain h)
          · exact spaced_behind_punctuation hl (by simpa using hc) hq h hfound

/-- Glued or not, whatever is no keyword is the same lexeme in spaced code. -/
theorem lexeme_of_spaced (hl : l.Apart) (h : spaced l false (c :: cs) = true)
    (hkeyword : keyword? false (c :: cs) = none) (packed dotAsZero : Bool) :
    lexeme l packed dotAsZero c cs = lexeme l false dotAsZero c cs := by
  have hunglued := unglued_of_spaced hl h
  rw [lexeme, lexeme, command?_of_unglued hl hunglued hkeyword packed]
  cases hcommand : command? l false (c :: cs) with
  | some found => rfl
  | none =>
    rw [operator?_of_unglued hl hunglued hkeyword hcommand packed]
    cases hop : operator? false (c :: cs) with
    | some found => rfl
    | none =>
      have hpunctuation : punctuation l packed c cs = punctuation l false c cs := by
        by_cases hc : c.isAlpha = true
        · have halphanum := Text.isAlphanum_of_isAlpha hc
          have hplain := plain_of_unglued hl hunglued hkeyword hcommand hop
          rw [punctuation_of_isAlpha hc, punctuation_of_isAlpha hc,
            reference_of_plain hl halphanum hplain fun e rest hdrop he => ?_]
          have hbehind := spaced_behind_name hl halphanum (spaced_of_plain halphanum hplain h)
          rw [hdrop] at hbehind
          exact ((spaced_run (Text.isAlphanum_of_isAlpha he)).1 (spaced_member hbehind)).1
        · simp [punctuation, hc]
      rw [hpunctuation]

/-- Behind a keyword other than `REM` the code is spaced too. -/
theorem spaced_behind_keyword (h : spaced l false (c :: cs) = true) {w : Word} {size : Nat}
    (hkeyword : keyword? false (c :: cs) = some (w, size)) (hw : w ≠ .REM) :
    spaced l false (cs.drop (size - 1)) = true := by
  rw [keyword?] at hkeyword
  split at hkeyword
  · rename_i hmark
    cases hmark
    cases hkeyword
    rw [spaced_symbol rfl rfl] at h
    exact spaced_weaken h
  · rw [if_neg Bool.false_ne_true] at hkeyword
    obtain ⟨word, hword, heq⟩ := Option.map_eq_some_iff.1 hkeyword
    cases heq
    have hne : wordRun (c :: cs) ≠ [] := by
      intro hnil
      rw [hnil] at hword
      cases hword
    refine spaced_behind_word (isAlphanum_of_wordRun hne) h fun hremark => ?_
    rw [hremark, Word.ofText?_text] at hword
    cases hword
    exact hw rfl

theorem spaced_dropWhile_isSpacing (h : spaced l false text = true) :
    spaced l false (text.dropWhile isSpacing) = true := by
  induction text with
  | nil => exact h
  | cons c cs ih =>
    by_cases hc : isSpacing c = true
    · rw [List.dropWhile_cons_of_pos hc]
      refine ih ?_
      have hsymbol : c.isAlphanum = false ∧ isQuote c = false := by
        simp only [isSpacing, Bool.or_eq_true, beq_iff_eq] at hc
        rcases hc with ((rfl | rfl) | rfl) | rfl <;> decide
      rw [spaced_symbol hsymbol.1 hsymbol.2] at h
      exact spaced_weaken h
    · rwa [List.dropWhile_cons_of_neg hc]

section

variable {packed dotAsZero : Bool} (htext : text.dropWhile isSpacing = c :: cs) (hcolon : c ≠ ':')
include htext hcolon

theorem statement_of_remark {size : Nat}
    (hkeyword : keyword? packed (c :: cs) = some (.REM, size)) :
    statement l packed dotAsZero text =
      .ok ([.word .REM, .string (String.ofList (cs.drop (size - 1)))], []) := by
  rw [statement]
  split
  next heq => cases htext.symm.trans heq
  next heq =>
    cases htext.symm.trans heq
    rw [if_neg hcolon, hkeyword]

theorem statement_of_keyword {w : Word} {size : Nat}
    (hkeyword : keyword? packed (c :: cs) = some (w, size)) (hw : w ≠ .REM) :
    statement l packed dotAsZero text =
      prepend [.word w] (statement l (packed && w != .DATA) dotAsZero (cs.drop (size - 1))) := by
  rw [statement]
  split
  next heq => cases htext.symm.trans heq
  next heq =>
    cases htext.symm.trans heq
    rw [if_neg hcolon, hkeyword]
    cases w <;> first | rfl | exact absurd rfl hw

theorem statement_of_fault {f : Fault} (hkeyword : keyword? packed (c :: cs) = none)
    (hlexeme : lexeme l packed dotAsZero c cs = .error f) :
    statement l packed dotAsZero text = .error f := by
  rw [statement]
  split
  next heq => cases htext.symm.trans heq
  next heq =>
    cases htext.symm.trans heq
    rw [if_neg hcolon, hkeyword, hlexeme]

theorem statement_of_lexeme {found : Lexeme} (hkeyword : keyword? packed (c :: cs) = none)
    (hlexeme : lexeme l packed dotAsZero c cs = .ok found) :
    statement l packed dotAsZero text =
      prepend found.tokens (statement l packed dotAsZero (cs.drop (found.size - 1))) := by
  rw [statement]
  split
  next heq => cases htext.symm.trans heq
  next heq =>
    cases htext.symm.trans heq
    rw [if_neg hcolon, hkeyword, hlexeme]

end

theorem keyword?_of_spaced (hl : l.Apart) (h : spaced l false (c :: cs) = true) (packed : Bool) :
    keyword? packed (c :: cs) = keyword? false (c :: cs) :=
  keyword?_of_unglued hl (unglued_of_spaced hl h) packed

theorem prepend_eq_ok {front tokens : List Token} {rest : List Char}
    {more : Except Fault (List Token × List Char)} (h : prepend front more = .ok (tokens, rest)) :
    ∃ behind, more = .ok (behind, rest) := by
  cases more with
  | error f => cases h
  | ok result =>
    cases h
    exact ⟨result.1, rfl⟩

/-- Glued or not, a statement of spaced code is the same, and the code behind it is spaced. -/
theorem statement_of_spaced (hl : l.Apart) (packed dotAsZero : Bool)
    (h : spaced l false text = true) :
    statement l packed dotAsZero text = statement l false dotAsZero text ∧
      ∀ tokens rest, statement l packed dotAsZero text = .ok (tokens, rest) →
        spaced l false rest = true := by
  have hnil : spaced l false [] = true := by rw [spaced]
  -- The induction is on the glued side. `DATA` turns glueing off midway, so the switch varies.
  fun_induction statement l packed dotAsZero text with
  | case1 packed text htext =>
    rw [statement_of_nil htext]
    exact ⟨rfl, fun _ _ hrest => by cases hrest; exact hnil⟩
  | case2 packed text cs htext hlt =>
    have hcs := htext ▸ spaced_dropWhile_isSpacing h
    rw [spaced_symbol rfl rfl] at hcs
    rw [statement_of_colon htext]
    exact ⟨rfl, fun _ _ hrest => by cases hrest; exact spaced_weaken hcs⟩
  | case3 packed text c cs htext hlt hcolon size hkeyword =>
    have hcs := htext ▸ spaced_dropWhile_isSpacing h
    rw [keyword?_of_spaced hl hcs] at hkeyword
    rw [statement_of_remark htext hcolon hkeyword]
    exact ⟨rfl, fun _ _ hrest => by cases hrest; exact hnil⟩
  | case4 packed text c cs htext hlt hcolon w size hw hkeyword ih =>
    have hcs := htext ▸ spaced_dropWhile_isSpacing h
    rw [keyword?_of_spaced hl hcs] at hkeyword
    obtain ⟨hsame, hbehind⟩ := ih (spaced_behind_keyword hcs hkeyword hw)
    refine ⟨by rw [statement_of_keyword htext hcolon hkeyword hw, hsame, Bool.false_and], ?_⟩
    intro tokens rest hrest
    obtain ⟨more, hmore⟩ := prepend_eq_ok hrest
    exact hbehind more rest hmore
  | case5 packed text c cs htext hlt hcolon hkeyword f hlexeme =>
    have hcs := htext ▸ spaced_dropWhile_isSpacing h
    rw [keyword?_of_spaced hl hcs] at hkeyword
    rw [lexeme_of_spaced hl hcs hkeyword] at hlexeme
    rw [statement_of_fault htext hcolon hkeyword hlexeme]
    exact ⟨rfl, fun _ _ hrest => by cases hrest⟩
  | case6 packed text c cs htext hlt hcolon hkeyword found hlexeme ih =>
    have hcs := htext ▸ spaced_dropWhile_isSpacing h
    rw [keyword?_of_spaced hl hcs] at hkeyword
    rw [lexeme_of_spaced hl hcs hkeyword] at hlexeme
    obtain ⟨hsame, hbehind⟩ := ih (spaced_behind_lexeme hl hcs hkeyword hlexeme)
    refine ⟨by rw [statement_of_lexeme htext hcolon hkeyword hlexeme, hsame], ?_⟩
    intro tokens rest hrest
    obtain ⟨more, hmore⟩ := prepend_eq_ok hrest
    exact hbehind more rest hmore

end Lexer

/-- The results of lexing a line from its start, statement by statement. Where a statement ends, the
next one is lexed. After a fault there are no others. -/
def lexResults (l : Lexicon) (o : LexOptions) (line : String) :
    Nat → Except Fault (List Token × Nat)
  | 0 => lexStatement l o line 0
  | n + 1 => do
    let (_, next) ← lexResults l o line n
    lexStatement l o line next

variable {l : Lexicon} {line : String}

def SpacedAt (l : Lexicon) (line : String) (offset : Nat) : Prop :=
  ∃ text, Text.dropBytes offset line.toList = some text ∧ Lexer.spaced l false text = true

theorem lexStatement_of_spacedAt (hl : l.Apart) (dotAsZero : Bool) {offset : Nat}
    (h : SpacedAt l line offset) :
    lexStatement l ⟨true, dotAsZero⟩ line offset = lexStatement l ⟨false, dotAsZero⟩ line offset ∧
      ∀ tokens next, lexStatement l ⟨true, dotAsZero⟩ line offset = .ok (tokens, next) →
        SpacedAt l line next := by
  obtain ⟨text, htext, hspaced⟩ := h
  obtain ⟨hsame, hbehind⟩ := Lexer.statement_of_spaced hl true dotAsZero hspaced
  constructor
  · rw [lexStatement_of_text htext, lexStatement_of_text htext, hsame]
  · intro tokens next hlex
    obtain ⟨text', lexed, rest, htext', hlexed, -, hrest⟩ := lexStatement_eq_ok hlex
    cases htext.symm.trans htext'
    exact ⟨rest, hrest, hbehind lexed rest hlexed⟩

theorem lexResults_of_spaced (hl : l.Apart) (dotAsZero : Bool)
    (h : Lexer.spaced l false line.toList = true) (n : Nat) :
    lexResults l ⟨true, dotAsZero⟩ line n = lexResults l ⟨false, dotAsZero⟩ line n ∧
      ∀ tokens next, lexResults l ⟨true, dotAsZero⟩ line n = .ok (tokens, next) →
        SpacedAt l line next := by
  induction n with
  | zero => exact lexStatement_of_spacedAt hl dotAsZero ⟨_, by rw [Text.dropBytes], h⟩
  | succ n ih =>
    obtain ⟨hsame, hbehind⟩ := ih
    rw [lexResults, lexResults, ← hsame]
    cases hn : lexResults l ⟨true, dotAsZero⟩ line n with
    | error f => exact ⟨rfl, fun _ _ hok => by cases hok⟩
    | ok result => exact lexStatement_of_spacedAt hl dotAsZero (hbehind result.1 result.2 hn)

/-- With the built-in commands, spaced code gives the same statements at the same positions, or the
same fault, whether keywords may be glued to names or not. -/
theorem lexResults_packed_eq_unpacked (dotAsZero : Bool) {line : String}
    (h : Lexer.spaced ({} : Registry).lexicon false line.toList = true) (n : Nat) :
    lexResults ({} : Registry).lexicon ⟨true, dotAsZero⟩ line n =
      lexResults ({} : Registry).lexicon ⟨false, dotAsZero⟩ line n :=
  (lexResults_of_spaced Lexicon.apart_builtin dotAsZero h n).1

/-- A line with a command, a qualified name, numerals of all forms, a text and a remark that would
not be spaced code. -/
def spacedLine : String := "LIST 10:DATA A.B$,1E+3 OR $FF: PRINT 'FORTO' AND NOT .5#2: REM FORTO"

theorem lexResults_packed_eq_unpacked_in_spacedLine :
    Lexer.spaced ({} : Registry).lexicon false spacedLine.toList = true ∧
      lexResults ({} : Registry).lexicon ⟨true, false⟩ spacedLine 1 =
        .ok ([.word .DATA, .qualifier "A", .ident "B$", .comma, .number "1E+3", .operator .OR,
          .integer "$FF"], 30) ∧
      ∀ n, lexResults ({} : Registry).lexicon ⟨true, false⟩ spacedLine n =
        lexResults ({} : Registry).lexicon ⟨false, false⟩ spacedLine n := by
  have hspaced : Lexer.spaced ({} : Registry).lexicon false spacedLine.toList = true := by
    decide +kernel
  exact ⟨hspaced, eq_ok_of_toOption (by decide +kernel),
    lexResults_packed_eq_unpacked false hspaced⟩

end LineBasic
