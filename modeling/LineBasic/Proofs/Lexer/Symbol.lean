import LineBasic.Proofs.Lexer.Front
import LineBasic.Proofs.Number.Tail

/-!
# Lexemes that start with no letter

Numerals, quoted texts, signs and punctuation. A numeral that starts with a digit is no word, since
words and commands have no digits. What a sign stands for is settled by the signs and the numeral
characters that follow it.
-/

set_option autoImplicit false

namespace LineBasic.Lexer

open Text (SameUntil Spans)

variable {l : Lexicon} {c : Char}

def isSign (c : Char) : Bool := "^*/+-=<>;".toList.contains c

def swapped : List (List Char × Operator) :=
  [(['>', '<'], .notEqual), (['=', '<'], .lessEqual), (['=', '>'], .greaterEqual)]

/-- An operator is written as it is shown, or with its signs swapped. -/
theorem writing_of_ofLexeme? {written : List Char} {op : Operator}
    (h : Operator.ofLexeme? written = some op) :
    written = op.lexeme.toList ∨ (written, op) ∈ swapped := by
  unfold Operator.ofLexeme? at h
  split at h <;> cases h <;> decide

theorem isSign_of_ofLexeme? {cs : List Char} {op : Operator} (hc : c.isAlpha = false)
    (h : Operator.ofLexeme? (c :: cs) = some op) : (c :: cs).all isSign = true := by
  have hshown : ∀ op : Operator, op.lexeme.toList.all isSign = true ∨
      op.lexeme.toList.head?.all Char.isAlpha = true := by
    intro op
    cases op <;> decide
  rcases writing_of_ofLexeme? h with hcs | hmem
  · rcases hshown op with hsigns | hword
    · rwa [hcs]
    · rw [← hcs] at hword
      have halpha : c.isAlpha = true := hword
      rw [hc] at halpha
      cases halpha
  · have hall : ∀ e ∈ swapped, e.1.all isSign = true := by decide
    exact hall _ hmem

theorem not_isSign_of_isAlphanum (hc : c.isAlphanum = true) : isSign c = false := by
  refine Bool.eq_false_iff.2 fun hs => ?_
  have hmem : c ∈ "^*/+-=<>;".toList := by simpa [isSign] using hs
  have hall : "^*/+-=<>;".toList.all (fun x => !x.isAlphanum) = true := by decide
  have := List.all_eq_true.1 hall c hmem
  rw [hc] at this
  cases this

theorem signOperator?_eq_none (hc : c.isAlpha = false) (hs : isSign c = false) (cs : List Char) :
    signOperator? (c :: cs) = none := by
  have hnone : ∀ more, Operator.ofLexeme? (c :: more) = none := by
    intro more
    cases h : Operator.ofLexeme? (c :: more) with
    | none => rfl
    | some op =>
      have := List.all_eq_true.1 (isSign_of_ofLexeme? hc h) c List.mem_cons_self
      rw [hs] at this
      cases this
  cases cs with
  | nil => simp [signOperator?, hnone]
  | cons d cs => simp [signOperator?, hnone]

theorem operatorPrefix?_eq_none (hc : c.isAlpha = false) (cs : List Char) :
    Lexicon.operatorPrefix? (c :: cs) = none := by
  rw [Lexicon.operatorPrefix?, Option.map_eq_none_iff]
  apply List.find?_eq_none.2
  intro op hop hpre
  have hall : ∀ op ∈ wordOperators, op.lexeme.toList.head?.all Char.isAlpha = true := by decide
  have hne : ∀ op ∈ wordOperators, op.lexeme.toList ≠ [] := by decide
  obtain ⟨x, xs, hx⟩ := List.exists_cons_of_ne_nil (hne op hop)
  have halpha : x.isAlpha = true := by simpa [hx] using hall op hop
  rw [hx] at hpre
  obtain ⟨rfl, _⟩ := List.cons_prefix_cons.1 (List.isPrefixOf_iff_prefix.1 hpre)
  rw [halpha] at hc
  cases hc

/-- What is no letter is an operator only by its signs. -/
theorem operator?_of_not_isAlpha (hc : c.isAlpha = false) (cs : List Char) :
    operator? false (c :: cs) = signOperator? (c :: cs) := by
  rw [operator?, operatorPrefix?_eq_none hc]
  simp [hc]

/-- What starts with a digit is a command if a command is called so, and else a number. -/
theorem front_isDigit (hc : c.isDigit = true) {cs : List Char} {found : Lexeme}
    (h : number? false (c :: cs) = some found) :
    front l (c :: cs) = if l.isCommand (wordRun (c :: cs)) then
      .ok ⟨[.command (String.ofList (wordRun (c :: cs)))], (wordRun (c :: cs)).length⟩
    else .ok found := by
  have halpha : c.isAlpha = false := by
    refine Bool.eq_false_iff.2 fun ha => ?_
    rw [Text.not_isDigit_of_isAlpha ha] at hc
    cases hc
  have halphanum := Text.isAlphanum_of_isDigit hc
  have hne : wordRun (c :: cs) ≠ [] := by simp [wordRun, halphanum]
  have hword : Word.ofText? (wordRun (c :: cs)) = none := by
    refine Option.eq_none_iff_forall_ne_some.2 fun w hw => ?_
    have hany := Word.not_isDigit_of_ofText? hw
    simp [wordRun, halphanum, hc] at hany
  have hmark : c ≠ '?' := by
    rintro rfl
    contradiction
  have hquote : ¬(c = '"' ∨ c = '\'') := by
    rintro (rfl | rfl) <;> contradiction
  have hop : operator? false (c :: cs) = none := by
    rw [operator?_of_not_isAlpha halpha,
      signOperator?_eq_none halpha (not_isSign_of_isAlphanum halphanum)]
  by_cases hcommand : l.isCommand (wordRun (c :: cs)) = true
  · simp [front, keyword?, hmark, hword, lexeme, command?, hcommand, hne]
  · simp [front, keyword?, hmark, hword, lexeme, command?, hcommand, hquote, hop, h]

/-- A word that starts with a digit is neither a keyword nor a command. -/
theorem front_digit (hl : l.NoDigits) (hc : c.isDigit = true) {cs : List Char} {found : Lexeme}
    (h : number? false (c :: cs) = some found) : front l (c :: cs) = .ok found := by
  rw [front_isDigit hc h, if_neg]
  intro hcommand
  have hany := hl.isCommand hcommand
  simp [wordRun, Text.isAlphanum_of_isDigit hc, hc] at hany

def numeral (digits more : List Char) : Lexeme :=
  if Number.tailSize more = 0 ∧ (Number.lineNumberOf? digits).isSome then
    ⟨[.integer (String.ofList digits)], digits.length⟩
  else
    ⟨[.number (String.ofList (digits ++ more.take (Number.tailSize more)))],
      digits.length + Number.tailSize more⟩

theorem size_numeral (digits more : List Char) :
    (numeral digits more).size = digits.length + Number.tailSize more := by
  rw [numeral]
  split
  · rename_i h
    rw [h.1]
    rfl
  · rfl

section

variable {digits more : List Char}

theorem scanInteger_digits (hne : digits ≠ []) (hd : ∀ x ∈ digits, x.isDigit = true)
    (hmore : ∀ x ∈ more.head?, x.isDigit = false) :
    (Number.scanInteger (digits ++ more)).map Prod.snd =
      if Number.tailSize more = 0 ∧ (Number.lineNumberOf? digits).isSome then
        some digits.length else none := by
  have hinteger : Number.scanInteger (digits ++ more) = Number.scanDecimal (digits ++ more) := by
    unfold Number.scanInteger
    split
    · rename_i heq
      obtain ⟨c, ds, rfl⟩ := List.exists_cons_of_ne_nil hne
      cases heq
      exact absurd (hd '$' List.mem_cons_self) (by decide)
    · rfl
  have hrun : Number.digitRun (digits ++ more) = digits := Number.digitRun_append hd hmore
  obtain ⟨r, hr, hsize⟩ := Option.map_eq_some_iff.1 (Number.size_scanRealNumeral hne hd hmore)
  rw [hinteger]
  simp only [Number.scanDecimal, Number.signOf_digits hne hd, List.drop_zero, hrun, hr,
    Option.any_some, hsize, Number.lineNumberOf?, Option.isSome_map, Bool.false_eq_true, if_false]
  by_cases htail : Number.tailSize more = 0
  · generalize Number.int64OfInt? (Number.decimalValue digits) = value
    cases value <;> simp [hne, htail]
  · simp [hne, htail, Nat.pos_of_ne_zero htail]

theorem number?_digits (hne : digits ≠ []) (hd : ∀ x ∈ digits, x.isDigit = true)
    (hmore : ∀ x ∈ more.head?, x.isDigit = false) :
    number? false (digits ++ more) = some (numeral digits more) := by
  have hinteger := scanInteger_digits hne hd hmore
  have hreal : (Number.scanReal (digits ++ more)).map Prod.snd =
      some (digits.length + Number.tailSize more) := by
    rw [Number.scanReal, Option.map_map, ← Number.size_scanRealNumeral hne hd hmore]
    rfl
  obtain ⟨found, hfound, hsize⟩ := Option.map_eq_some_iff.1 hreal
  rw [number?, numeral]
  split at hinteger
  · rename_i hkind
    obtain ⟨integer, hi, hlen⟩ := Option.map_eq_some_iff.1 hinteger
    rw [if_pos hkind, hi]
    simp [hlen]
  · rename_i hkind
    rw [if_neg hkind, Option.map_eq_none_iff.1 hinteger, hfound]
    simp only [hsize, List.take_length_add_append]

end

/-- Digits and what goes on with them are one numeral. -/
theorem front_numeral (hl : l.NoDigits) {digits more : List Char} (hne : digits ≠ [])
    (hd : ∀ x ∈ digits, x.isDigit = true) (hmore : ∀ x ∈ more.head?, x.isDigit = false) :
    front l (digits ++ more) = .ok (numeral digits more) := by
  have hnumber := number?_digits hne hd hmore
  obtain ⟨c, ds, rfl⟩ := List.exists_cons_of_ne_nil hne
  exact front_digit hl (hd c List.mem_cons_self) hnumber

/-- The first lexeme of a text that starts with neither a letter nor a digit. -/
theorem front_symbol (hc : c.isAlphanum = false) (cs : List Char) :
    front l (c :: cs) =
      if c = '?' then .ok ⟨[.word .PRINT], 1⟩
      else if c = '"' ∨ c = '\'' then quoted c cs
      else match signOperator? (c :: cs) with
        | some (op, size) => .ok ⟨[.operator op], size⟩
        | none =>
          match number? false (c :: cs) with
          | some found => .ok found
          | none => punctuation l false c cs := by
  have halpha : c.isAlpha = false := Text.not_isAlpha_of_not_isAlphanum hc
  have hrun : wordRun (c :: cs) = [] := by simp [wordRun, hc]
  have hempty : Word.ofText? [] = none := by decide
  by_cases hmark : c = '?'
  · simp [front, keyword?, hmark]
  · have hfront : front l (c :: cs) = lexeme l false false c cs := by
      simp [front, keyword?, hmark, hrun, hempty]
    have hcommand : command? l false (c :: cs) = none := by simp [command?, hrun]
    rw [hfront, if_neg hmark]
    by_cases hquote : c = '"' ∨ c = '\''
    · simp [lexeme, hcommand, hquote]
    · cases hop : signOperator? (c :: cs) with
      | some found => simp [lexeme, hcommand, hquote, operator?_of_not_isAlpha halpha, hop]
      | none =>
        cases hnumber : number? false (c :: cs) with
        | some found =>
          simp [lexeme, hcommand, hquote, operator?_of_not_isAlpha halpha, hop, hnumber]
        | none => simp [lexeme, hcommand, hquote, operator?_of_not_isAlpha halpha, hop, hnumber]

def isTailChar (c : Char) : Bool := Number.isNumeralChar c || isSign c

theorem isTailChar_of_isNumeralChar (h : Number.isNumeralChar c = true) :
    isTailChar c = true := by
  simp [isTailChar, h]

def IsSymbolToken (t : Token) : Prop :=
  (∀ w, t = .word w → w = .PRINT) ∧
    ∀ digits, (∀ x ∈ digits, x.isDigit = true) → t ≠ .integer (String.ofList digits)

section

variable {cs ds : List Char}

theorem signOperator?_same (hc : c.isAlpha = false) (h : SameUntil isTailChar cs ds) :
    signOperator? (c :: ds) = signOperator? (c :: cs) := by
  cases h with
  | nil => rfl
  | @last d hd cs ds =>
    have hnone : Operator.ofLexeme? [c, d] = none := by
      refine Option.eq_none_iff_forall_ne_some.2 fun op hop => ?_
      have hsign : isSign d = true := List.all_eq_true.1 (isSign_of_ofLexeme? hc hop) d (by simp)
      simp [isTailChar, hsign] at hd
    simp [signOperator?, hnone]
  | next hd h => rfl

theorem signOperator?_cases (hc : c.isAlpha = false) {op : Operator} {size : Nat}
    (h : signOperator? (c :: cs) = some (op, size)) :
    size = 1 ∨ size = 2 ∧ ∃ d rest, cs = d :: rest ∧ isSign d = true := by
  cases cs with
  | nil =>
    obtain ⟨_, _, heq⟩ := Option.map_eq_some_iff.1 h
    cases heq
    exact .inl rfl
  | cons d cs =>
    rw [signOperator?] at h
    cases hop : Operator.ofLexeme? [c, d] with
    | some op' =>
      rw [hop] at h
      cases h
      have hsign : isSign d = true := List.all_eq_true.1 (isSign_of_ofLexeme? hc hop) d (by simp)
      exact .inr ⟨rfl, d, cs, rfl, hsign⟩
    | none =>
      rw [hop] at h
      obtain ⟨_, _, heq⟩ := Option.map_eq_some_iff.1 h
      cases heq
      exact .inl rfl

theorem spans_signOperator? (hc : c.isAlpha = false) {op : Operator} {size : Nat}
    (h : signOperator? (c :: cs) = some (op, size)) :
    0 < size ∧ Spans isTailChar (size - 1) cs := by
  rcases signOperator?_cases hc h with rfl | ⟨rfl, d, rest, rfl, hsign⟩
  · exact ⟨Nat.one_pos, Text.spans_zero _ _⟩
  · exact ⟨Nat.two_pos, (Text.spans_zero _ rest).cons (by simp [isTailChar, hsign])⟩

theorem not_sign_of_signOperator? (h : signOperator? (c :: cs) = none) : c ≠ '+' ∧ c ≠ '-' := by
  have hone : Operator.ofLexeme? [c] = none := by
    cases cs with
    | nil => exact Option.map_eq_none_iff.1 h
    | cons d cs =>
      rw [signOperator?] at h
      cases hop : Operator.ofLexeme? [c, d] with
      | some op => rw [hop] at h; cases h
      | none =>
        rw [hop] at h
        exact Option.map_eq_none_iff.1 h
  constructor
  · rintro rfl
    cases hone
  · rintro rfl
    cases hone

/-- Apart from digits a numeral starts with the sign of hexadecimal digits or with a point. -/
theorem number?_symbol (hc : c.isAlphanum = false) (hsign : c ≠ '+' ∧ c ≠ '-') :
    number? false (c :: cs) =
      if c = '$' then
        (Number.scanHex cs).map fun found =>
          ⟨[.integer (String.ofList ((c :: cs).take found.2))], found.2⟩
      else if c = '.' ∧ Number.digitRun cs ≠ [] then
        some ⟨[.number (String.ofList ((c :: cs).take (Number.tailSize (c :: cs))))],
          Number.tailSize (c :: cs)⟩
      else none := by
  have hsignOf : Number.signOf (c :: cs) = (false, 0) := by simp [Number.signOf, hsign]
  have hrun : Number.digitRun (c :: cs) = [] := by
    simp [Number.digitRun, Text.not_isDigit_of_not_isAlphanum hc]
  have hdecimal : Number.scanDecimal (c :: cs) = none := by
    simp [Number.scanDecimal, hsignOf, hrun]
  by_cases hpoint : c = '.'
  · subst hpoint
    have hinteger : Number.scanInteger ('.' :: cs) = none := hdecimal
    have hreal : (Number.scanReal ('.' :: cs)).map Prod.snd =
        if Number.digitRun cs ≠ [] then some (Number.tailSize ('.' :: cs)) else none := by
      simp only [Number.scanReal, Number.scanRealNumeral, hsignOf, List.drop_zero, hrun,
        List.length_nil, Nat.add_zero, Number.scanFraction, Option.getD_some, List.isEmpty_nil,
        Bool.true_and, Option.isSome_some, if_true, Nat.zero_add, Number.tailSize,
        Number.pointSize]
      by_cases hd : Number.digitRun cs = [] <;> simp [hd]
    rw [number?, hinteger]
    by_cases hd : Number.digitRun cs = []
    · rw [if_neg (by simp [hd])] at hreal
      simp [Option.map_eq_none_iff.1 hreal, hd]
    · rw [if_pos hd] at hreal
      obtain ⟨found, hfound, hsize⟩ := Option.map_eq_some_iff.1 hreal
      simp [hfound, hsize, hd]
  · have hfraction : Number.scanFraction (c :: cs) = none := by
      simp [Number.scanFraction, hpoint]
    have hreal : Number.scanReal (c :: cs) = none := by
      simp [Number.scanReal, Number.scanRealNumeral, hsignOf, hrun, hfraction]
    by_cases hhex : c = '$'
    · subst hhex
      simp only [number?, Number.scanInteger, hreal]
      cases Number.scanHex cs <;> simp
    · have hinteger : Number.scanInteger (c :: cs) = none := by
        simp [Number.scanInteger, hhex, hdecimal]
      simp [number?, hinteger, hreal, hhex, hpoint]

theorem isTailChar_of_isHexDigit (h : Number.isHexDigit c = true) : isTailChar c = true :=
  isTailChar_of_isNumeralChar (by simp [Number.isNumeralChar, h])

theorem digitRun_same_tail (h : SameUntil isTailChar cs ds) :
    Number.digitRun ds = Number.digitRun cs :=
  Number.digitRun_same (fun _ => isTailChar_of_isNumeralChar) h

theorem number?_same (hc : c.isAlphanum = false) (hsign : c ≠ '+' ∧ c ≠ '-')
    (h : SameUntil isTailChar cs ds) : number? false (c :: ds) = number? false (c :: cs) := by
  rw [number?_symbol hc hsign, number?_symbol hc hsign, digitRun_same_tail h]
  by_cases hhex : c = '$'
  · have hscan : Number.scanHex ds = Number.scanHex cs := by
      rw [Number.scanHex, Number.scanHex, h.takeWhile fun _ => isTailChar_of_isHexDigit]
    rw [if_pos hhex, if_pos hhex, hscan]
    cases hfound : Number.scanHex cs with
    | none => rfl
    | some found =>
      obtain ⟨hpos, hspans⟩ := Number.spans_scanHex hfound
      have htake := (h.drop (hspans.mono fun _ => isTailChar_of_isNumeralChar)).1
      obtain ⟨n, hn⟩ : ∃ n, found.2 = n + 1 := ⟨found.2 - 1, by omega⟩
      rw [hn, Nat.add_sub_cancel] at htake
      simp [hn, htake]
  · rw [if_neg hhex, if_neg hhex]
    by_cases hpoint : c = '.'
    · subst hpoint
      have hall : SameUntil isTailChar ('.' :: cs) ('.' :: ds) := .next rfl h
      have hsize : Number.tailSize ('.' :: ds) = Number.tailSize ('.' :: cs) :=
        Number.tailSize_same (fun _ => isTailChar_of_isNumeralChar) hall
      have htake := (hall.drop ((Number.spans_tailSize _).mono
        fun _ => isTailChar_of_isNumeralChar)).1
      rw [hsize, htake]
    · rw [if_neg (by simp [hpoint]), if_neg (by simp [hpoint])]

theorem spans_number? (hc : c.isAlphanum = false) (hsign : c ≠ '+' ∧ c ≠ '-') {found : Lexeme}
    (h : number? false (c :: cs) = some found) :
    0 < found.size ∧ Spans isTailChar (found.size - 1) cs := by
  rw [number?_symbol hc hsign] at h
  split at h
  · obtain ⟨hex, hhex, rfl⟩ := Option.map_eq_some_iff.1 h
    obtain ⟨hpos, hspans⟩ := Number.spans_scanHex hhex
    exact ⟨hpos, hspans.mono fun _ => isTailChar_of_isNumeralChar⟩
  · split at h
    · rename_i hpoint
      obtain ⟨rfl, _⟩ := hpoint
      cases h
      have hspans := Number.spans_tailSize ('.' :: cs)
      have hpos : 0 < Number.tailSize ('.' :: cs) := by
        simp only [Number.tailSize, Number.pointSize, Number.scanFraction]
        omega
      obtain ⟨n, hn⟩ : ∃ n, Number.tailSize ('.' :: cs) = n + 1 :=
        ⟨Number.tailSize ('.' :: cs) - 1, by omega⟩
      rw [hn] at hspans
      refine ⟨hpos, ?_⟩
      rw [hn]
      exact hspans.tail.mono fun _ => isTailChar_of_isNumeralChar
    · cases h

theorem token_number?_symbol (hc : c.isAlphanum = false) (hsign : c ≠ '+' ∧ c ≠ '-')
    {found : Lexeme} (h : number? false (c :: cs) = some found) :
    ∃ t, found.tokens = [t] ∧ IsSymbolToken t := by
  have hpos := (spans_number? hc hsign h).1
  rw [number?_symbol hc hsign] at h
  split at h
  · obtain ⟨hex, _, rfl⟩ := Option.map_eq_some_iff.1 h
    refine ⟨_, rfl, by simp, fun digits hd heq => ?_⟩
    simp only [Token.integer.injEq, String.ofList_inj] at heq
    have hmem : c ∈ digits := by
      obtain ⟨n, hn⟩ := Nat.exists_eq_succ_of_ne_zero (Nat.ne_of_gt hpos)
      dsimp only at hn
      rw [← heq, hn, List.take_succ_cons]
      exact List.mem_cons_self
    have := Text.isAlphanum_of_isDigit (hd c hmem)
    rw [hc] at this
    cases this
  · split at h
    · cases h
      exact ⟨_, rfl, by simp, by simp⟩
    · cases h

theorem punctuation_same (hc : c.isAlphanum = false) (h : SameUntil isTailChar cs ds) :
    punctuation l false c ds = punctuation l false c cs := by
  have halpha := Text.not_isAlpha_of_not_isAlphanum hc
  simp only [punctuation, handle, digitRun_same_tail h, halpha, Bool.false_eq_true, if_false]

/-- Punctuation is one character, except that digits follow the sign of a file handle. -/
theorem punctuation_cases {packed : Bool} (hc : c.isAlpha = false) {found : Lexeme}
    (h : punctuation l packed c cs = .ok found) :
    (∃ t ∈ [Token.openParen, .closeParen, .comma], found = ⟨[t], 1⟩) ∨
      found = ⟨[.fileHandle (String.ofList (Number.digitRun cs))],
        (Number.digitRun cs).length + 1⟩ := by
  simp only [punctuation, handle, hc] at h
  grind

theorem spans_punctuation (hc : c.isAlphanum = false) {found : Lexeme}
    (h : punctuation l false c cs = .ok found) :
    0 < found.size ∧ Spans isTailChar (found.size - 1) cs := by
  rcases punctuation_cases (Text.not_isAlpha_of_not_isAlphanum hc) h with ⟨t, _, rfl⟩ | rfl
  · exact ⟨Nat.one_pos, Text.spans_zero _ _⟩
  · exact ⟨Nat.succ_pos _, (Number.spans_digitRun cs).mono fun _ => isTailChar_of_isNumeralChar⟩

theorem token_punctuation (hc : c.isAlphanum = false) {found : Lexeme}
    (h : punctuation l false c cs = .ok found) :
    ∃ t, found.tokens = [t] ∧ IsSymbolToken t := by
  rcases punctuation_cases (Text.not_isAlpha_of_not_isAlphanum hc) h with ⟨t, ht, rfl⟩ | rfl
  · refine ⟨t, rfl, ?_, ?_⟩ <;> grind
  · exact ⟨_, rfl, by simp, by simp⟩

/-- A lexeme that starts with a symbol other than a quote is settled by the characters that can go
on with it. -/
theorem front_same (hc : c.isAlphanum = false) (hq : Text.isQuote c = false)
    (h : SameUntil isTailChar cs ds) : front l (c :: ds) = front l (c :: cs) := by
  have hquote : ¬(c = '"' ∨ c = '\'') := by simpa [Text.isQuote] using hq
  rw [front_symbol hc, front_symbol hc, if_neg hquote, if_neg hquote,
    signOperator?_same (Text.not_isAlpha_of_not_isAlphanum hc) h]
  cases hop : signOperator? (c :: cs) with
  | some found => rfl
  | none => rw [number?_same hc (not_sign_of_signOperator? hop) h, punctuation_same hc h]

theorem spans_front (hc : c.isAlphanum = false) (hq : Text.isQuote c = false) {found : Lexeme}
    (h : front l (c :: cs) = .ok found) :
    0 < found.size ∧ Spans isTailChar (found.size - 1) cs := by
  have hquote : ¬(c = '"' ∨ c = '\'') := by simpa [Text.isQuote] using hq
  rw [front_symbol hc, if_neg hquote] at h
  split at h
  · cases h
    exact ⟨Nat.one_pos, Text.spans_zero _ _⟩
  · cases hop : signOperator? (c :: cs) with
    | some operator =>
      rw [hop] at h
      cases h
      exact spans_signOperator? (Text.not_isAlpha_of_not_isAlphanum hc) hop
    | none =>
      rw [hop] at h
      dsimp only at h
      cases hnumber : number? false (c :: cs) with
      | some numeral =>
        rw [hnumber] at h
        cases h
        exact spans_number? hc (not_sign_of_signOperator? hop) hnumber
      | none =>
        rw [hnumber] at h
        exact spans_punctuation hc h

theorem token_front_symbol (hc : c.isAlphanum = false) {found : Lexeme}
    (h : front l (c :: cs) = .ok found) :
    ∃ t, found.tokens = [t] ∧ IsSymbolToken t := by
  rw [front_symbol hc] at h
  split at h
  · cases h
    exact ⟨.word .PRINT, rfl, by simp, by simp⟩
  · split at h
    · rw [quoted] at h
      split at h <;> cases h
      exact ⟨_, rfl, by simp, by simp⟩
    · cases hop : signOperator? (c :: cs) with
      | some operator =>
        rw [hop] at h
        cases h
        exact ⟨_, rfl, by simp, by simp⟩
      | none =>
        rw [hop] at h
        dsimp only at h
        cases hnumber : number? false (c :: cs) with
        | some numeral =>
          rw [hnumber] at h
          cases h
          exact token_number?_symbol hc (not_sign_of_signOperator? hop) hnumber
        | none =>
          rw [hnumber] at h
          exact token_punctuation hc h

theorem front_comma (cs : List Char) : front l (',' :: cs) = .ok ⟨[.comma], 1⟩ := by
  have hop : signOperator? (',' :: cs) = none := signOperator?_eq_none (by decide) (by decide) cs
  have hnumber : number? false (',' :: cs) = none := by
    rw [number?_symbol (by decide) (by decide)]
    rfl
  rw [front_symbol (by decide), if_neg (by decide), if_neg (by decide), hop]
  dsimp only
  rw [hnumber]
  rfl

/-- A quoted text ends at the next quote of its kind. -/
theorem front_quoted {q : Char} (hq : Text.isQuote q = true) {body : List Char} (hbody : q ∉ body)
    (rest : List Char) :
    front l (q :: (body ++ q :: rest)) = .ok ⟨[.string (String.ofList body)], body.length + 2⟩ := by
  have hc : q.isAlphanum = false := by rcases Text.isQuote_iff.1 hq with rfl | rfl <;> rfl
  have hmark : q ≠ '?' := by rcases Text.isQuote_iff.1 hq with rfl | rfl <;> decide
  have htake : (body ++ q :: rest).takeWhile (· != q) = body := by
    apply Text.takeWhile_append_of_head
    · intro x hx
      exact bne_iff_ne.2 fun heq => hbody (heq ▸ hx)
    · simp
  rw [front_symbol hc, if_neg hmark, if_pos (Text.isQuote_iff.1 hq), quoted, htake]
  simp

theorem exists_of_front_quoted {q : Char} (hq : Text.isQuote q = true) {found : Lexeme}
    (h : front l (q :: cs) = .ok found) : ∃ body rest, cs = body ++ q :: rest ∧ q ∉ body := by
  have hc : q.isAlphanum = false := by rcases Text.isQuote_iff.1 hq with rfl | rfl <;> rfl
  have hmark : q ≠ '?' := by rcases Text.isQuote_iff.1 hq with rfl | rfl <;> decide
  rw [front_symbol hc, if_neg hmark, if_pos (Text.isQuote_iff.1 hq)] at h
  obtain ⟨body, rest, hcs, hbody, -⟩ := exists_of_quoted h
  exact ⟨body, rest, hcs, hbody⟩

end

end LineBasic.Lexer
