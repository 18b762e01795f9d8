import LineBasic.Proofs.Lexer.Symbol
import LineBasic.Proofs.Listing.WordRun

/-!
# Renumbering keeps the lexemes of a text

Where a lexeme starts, renumbering copies it or changes digits in it, and the new text has a lexeme
of the same kind at the same place. A decimal integer changes exactly where a line number is looked
for, and one is looked for after a jump word unless a letter or digit stands in front of it.
-/

set_option autoImplicit false

namespace LineBasic

open Lexer (Lexeme front)
open Text (SameUntil Spans)

def Renumbering.InRange (changes : Renumbering) : Prop :=
  ∀ c ∈ changes, 0 ≤ c.2 ∧ c.2 ≤ maxLineNumber

def Word.isJump (w : Word) : Bool := [GOTO, GOSUB, THEN].contains w

theorem Word.exists_mem_jumpWords {w : Word} (h : w.isJump = true) :
    ∃ list, (w.text.toList, list) ∈ jumpWords := by
  have hall : ∀ v ∈ [GOTO, GOSUB, THEN], ∃ list, (v.text.toList, list) ∈ jumpWords := by decide
  exact hall w (by simpa [isJump] using h)

variable {changes : Renumbering}

theorem isSome_lineNumberOf?_renumberedDigits (hch : changes.InRange) (digits : List Char) :
    (Number.lineNumberOf? (renumberedDigits changes digits)).isSome =
      (Number.lineNumberOf? digits).isSome := by
  rw [renumberedDigits]
  cases hn : Number.lineNumberOf? digits with
  | none => rw [Option.bind_none, hn]
  | some n =>
    rw [Option.bind_some]
    cases hk : newNumber? changes n with
    | none => rw [hn]
    | some k =>
      obtain ⟨hk0, hkm⟩ := hch _ (Table.mem_of_find?_eq_some hk)
      dsimp only
      rw [Number.lineNumberOf?_toString hk0 hkm]
      rfl

namespace Seeking

def isCopied (c : Char) : Bool := isPlain c && c != ' ' && c != ','

theorem isCopied_of_isTailChar {c : Char} (h : Lexer.isTailChar c = true) :
    isCopied c = true := by
  by_cases hc : c ∈ ['"', '\'', 'G', 'T', ' ', ',']
  · have hall : ['"', '\'', 'G', 'T', ' ', ','].all (fun x => !Lexer.isTailChar x) = true := by
      decide
    have := List.all_eq_true.1 hall c hc
    rw [h] at this
    cases this
  · simp only [List.mem_cons, List.not_mem_nil, or_false, not_or] at hc
    simp [isCopied, isPlain, Text.isQuote, hc]

theorem isCopied_of_isNumeralChar {c : Char} (h : Number.isNumeralChar c = true) :
    isCopied c = true :=
  isCopied_of_isTailChar (Lexer.isTailChar_of_isNumeralChar h)

theorem isPlain_of_isCopied {c : Char} (h : isCopied c = true) : isPlain c = true := by
  simp only [isCopied, Bool.and_eq_true] at h
  exact h.1.1

theorem exists_rewrite_copy (changes : Renumbering) (s : Seeking) {front : List Char}
    (hfront : ∀ c ∈ front, isCopied c = true)
    (hd : s.isTarget = true → ∀ c ∈ front.head?, c.isDigit = false) (rest : List Char) :
    ∃ s' : Seeking, s.rewrite changes (front ++ rest) = front ++ s'.rewrite changes rest ∧
      s'.before = front.getLast?.or s.before ∧
      (front ≠ [] ∨ s.isTarget = false → s'.isTarget = false) := by
  cases front with
  | nil => exact ⟨s, rfl, rfl, fun h => h.resolve_left fun hne => hne rfl⟩
  | cons c front =>
    have hc := hfront c List.mem_cons_self
    simp only [isCopied, Bool.and_eq_true, bne_iff_ne] at hc
    refine ⟨word ((c :: front).getLast?.or s.before), ?_, rfl, fun _ => rfl⟩
    rw [List.cons_append, rewrite_eq_word s _ hc.1.2 hc.2 fun ht => hd ht c rfl,
      ← List.cons_append, rewrite_word_copy fun x hx => isPlain_of_isCopied (hfront x hx)]

theorem sameUntil_rewrite_word {p : Char → Bool} (hp : ∀ c, p c = true → isPlain c = true)
    (b : Option Char) (cs : List Char) : SameUntil p cs ((word b).rewrite changes cs) := by
  induction cs generalizing b with
  | nil =>
    rw [rewrite_nil]
    exact .nil
  | cons c cs ih =>
    by_cases hc : p c = true
    · rw [rewrite_word_plain (hp c hc)]
      exact .next hc (ih (some c))
    · obtain ⟨ds, hds⟩ : ∃ ds, (word b).rewrite changes (c :: cs) = c :: ds :=
        List.head?_eq_some_iff.1 (head_rewrite_word b (c :: cs))
      rw [hds]
      exact .last (by simpa using hc) cs ds

/-- Copied text is the same after renumbering as far as it goes. -/
theorem sameUntil_rewrite {p : Char → Bool} (hp : ∀ c, p c = true → isCopied c = true)
    {s : Seeking} (hs : s.isTarget = false) (cs : List Char) :
    SameUntil p cs (s.rewrite changes cs) := by
  have hplain : ∀ c, p c = true → isPlain c = true := fun c hc => isPlain_of_isCopied (hp c hc)
  cases s with
  | word b => exact sameUntil_rewrite_word hplain b cs
  | target list b => cases hs
  | comma b =>
    cases cs with
    | nil =>
      rw [rewrite_nil]
      exact .nil
    | cons c cs =>
      by_cases hspace : c = ' '
      · subst hspace
        rw [rewrite_comma_space]
        exact .last (Bool.eq_false_iff.2 fun hc => absurd (hp _ hc) (by decide)) _ _
      · by_cases hcomma : c = ','
        · subst hcomma
          rw [rewrite_comma_comma]
          exact .last (Bool.eq_false_iff.2 fun hc => absurd (hp _ hc) (by decide)) _ _
        · rw [rewrite_eq_word (comma b) cs hspace hcomma fun ht => by cases ht]
          exact sameUntil_rewrite_word hplain (some b) (c :: cs)

end Seeking

/-- A token before and after renumbering. A decimal integer changes where a line number is looked
for. A text stays. -/
structure TokenFollows (changes : Renumbering) (target : Bool) (old new : Token) : Prop where
  word : ∀ w, new = .word w ↔ old = .word w
  integer : ∀ digits : List Char, (∀ c ∈ digits, c.isDigit = true) →
    old = .integer (String.ofList digits) →
      new = .integer (String.ofList (if target then renumberedDigits changes digits else digits))
  string : ∀ s, old = .string s → new = .string s

theorem TokenFollows.refl {target : Bool} {t : Token}
    (h : ∀ digits : List Char, (∀ c ∈ digits, c.isDigit = true) →
      t ≠ .integer (String.ofList digits)) : TokenFollows changes target t t where
  word := fun _ => Iff.rfl
  integer := fun digits hd heq => absurd heq (h digits hd)
  string := fun _ heq => heq

theorem TokenFollows.of_other {target : Bool} {old new : Token} (hold : ∀ w, old ≠ .word w)
    (hnew : ∀ w, new ≠ .word w) (hinteger : ∀ text, old ≠ .integer text)
    (hstring : ∀ s, old ≠ .string s) : TokenFollows changes target old new where
  word := fun w => iff_of_false (hnew w) (hold w)
  integer := fun _ _ heq => absurd heq (hinteger _)
  string := fun s heq => absurd heq (hstring s)

inductive TokensFollow (changes : Renumbering) (target : Bool) : List Token → List Token → Prop
  | one {old new : Token} (h : TokenFollows changes target old new) :
      TokensFollow changes target [old] [new]
  | member (owner name owner' name' : String) :
      TokensFollow changes target [.qualifier owner, .ident name] [.qualifier owner', .ident name']

theorem TokensFollow.word_iff {target : Bool} {old new : List Token}
    (h : TokensFollow changes target old new) (w : Word) :
    new = [.word w] ↔ old = [.word w] := by
  cases h with
  | one h => simpa using h.word w
  | member owner name owner' name' => simp

structure LexemeRewrite (l : Lexicon) (changes : Renumbering) (s : Seeking)
    (old rest : List Char) (found : Lexeme) (new : List Char) (found' : Lexeme) (s' : Seeking) :
    Prop where
  text : s.rewrite changes (old ++ rest) = new ++ s'.rewrite changes rest
  front : Lexer.front l (new ++ s'.rewrite changes rest) = .ok found'
  old_ne : old ≠ []
  old_size : old.length = found.size
  new_size : new.length = found'.size
  start : ∃ c cs, new = c :: cs ∧ Text.isSpacing c = false ∧ c ≠ ':'
  before : s'.before = old.getLast?
  tokens : TokensFollow changes s.isTarget found.tokens found'.tokens
  jump : ∀ w : Word, w.isJump = true → found.tokens = [.word w] →
    s'.isTarget = !s.before.any Char.isAlphanum

def LexemeFollows (l : Lexicon) (changes : Renumbering) (s : Seeking) (text : List Char)
    (found : Lexeme) : Prop :=
  ∃ old rest new found' s', text = old ++ rest ∧
    LexemeRewrite l changes s old rest found new found' s'

namespace Seeking

variable {l : Lexicon} {c : Char} {cs : List Char} {found : Lexeme}

/-- A lexeme that starts with a symbol and is copied follows the renumbering. -/
theorem lexemeRewrite_of_copy {s s' : Seeking} {old rest : List Char} (hc : c.isAlphanum = false)
    (hspace : Text.isSpacing c = false) (hcolon : c ≠ ':') (hold : c :: cs = old ++ rest)
    (hsize : old.length = found.size) (hne : old ≠ []) (h : front l (c :: cs) = .ok found)
    (htext : s.rewrite changes (old ++ rest) = old ++ s'.rewrite changes rest)
    (hfront : front l (old ++ s'.rewrite changes rest) = .ok found)
    (hbefore : s'.before = old.getLast?) :
    LexemeRewrite l changes s old rest found old found s' := by
  obtain ⟨t, htokens, hword, hdigits⟩ := Lexer.token_front_symbol hc h
  obtain ⟨d, ds, rfl⟩ := List.exists_cons_of_ne_nil hne
  cases hold
  exact {
    text := htext
    front := hfront
    old_ne := hne
    old_size := hsize
    new_size := hsize
    start := ⟨c, ds, rfl, hspace, hcolon⟩
    before := hbefore
    tokens := by
      rw [htokens]
      exact .one (.refl hdigits)
    jump := fun w hw heq => by
      rw [htokens] at heq
      rw [hword w (List.head_eq_of_cons_eq heq)] at hw
      cases hw }

theorem lexemeFollows_symbol (s : Seeking) (hc : c.isAlphanum = false)
    (hq : Text.isQuote c = false) (hspace : Text.isSpacing c = false) (hcolon : c ≠ ':')
    (hcomma : c ≠ ',') (h : front l (c :: cs) = .ok found) :
    LexemeFollows l changes s (c :: cs) found := by
  obtain ⟨hpos, hspans⟩ := Lexer.spans_front hc hq h
  have hblank : c ≠ ' ' := by
    rintro rfl
    cases hspace
  have hplain : isPlain c = true := by
    refine isPlain_iff.2 ⟨hq, ?_, ?_⟩
    · rintro rfl
      cases hc
    · rintro rfl
      cases hc
  have hdigit := Text.not_isDigit_of_not_isAlphanum hc
  let old := c :: cs.take (found.size - 1)
  let rest := cs.drop (found.size - 1)
  have hsplit : c :: cs = old ++ rest := by simp [old, rest]
  have hall : ∀ x ∈ old, isCopied x = true := by
    intro x hx
    rcases List.mem_cons.1 hx with rfl | hx
    · simp [isCopied, hplain, hblank, hcomma]
    · exact isCopied_of_isTailChar (hspans.2 x hx)
  obtain ⟨s', htext, hbefore, _⟩ := exists_rewrite_copy changes s hall
    (fun _ x hx => by cases hx; exact hdigit) rest
  have hfront : front l (s.rewrite changes (c :: cs)) = .ok found := by
    rw [rewrite_eq_word s cs hblank hcomma fun _ => hdigit, rewrite_word_plain hplain, ← h]
    exact Lexer.front_same hc hq (sameUntil_rewrite_word
      (fun x hx => isPlain_of_isCopied (isCopied_of_isTailChar hx)) (some c) cs)
  have hlength : old.length = found.size := by
    have := hspans.1
    simp only [old, List.length_cons, List.length_take]
    omega
  refine ⟨old, rest, old, found, s', hsplit, ?_⟩
  apply lexemeRewrite_of_copy hc hspace hcolon hsplit hlength (by simp [old]) h htext
  · rw [← htext, ← hsplit, hfront]
  · rw [hbefore, List.getLast?_cons]
    rfl

theorem lexemeFollows_quoted (s : Seeking) (hq : Text.isQuote c = true)
    (h : front l (c :: cs) = .ok found) : LexemeFollows l changes s (c :: cs) found := by
  obtain ⟨body, rest, rfl, hbody⟩ := Lexer.exists_of_front_quoted hq h
  have hfront : ∀ more, front l (c :: (body ++ [c]) ++ more) = .ok found := by
    intro more
    rw [← h, Lexer.front_quoted hq hbody, List.cons_append, List.append_assoc]
    exact Lexer.front_quoted hq hbody more
  have hsize : (c :: (body ++ [c])).length = found.size := by
    rw [Lexer.front_quoted hq hbody] at h
    cases h
    simp
  obtain ⟨halpha, hspace, hcolon, hblank, hcomma⟩ :
      c.isAlphanum = false ∧ Text.isSpacing c = false ∧ c ≠ ':' ∧ c ≠ ' ' ∧ c ≠ ',' := by
    rcases Text.isQuote_iff.1 hq with rfl | rfl <;> decide
  have hsplit : c :: (body ++ c :: rest) = c :: (body ++ [c]) ++ rest := by simp
  have htext : s.rewrite changes (c :: (body ++ [c]) ++ rest) =
      c :: (body ++ [c]) ++ (word (some c)).rewrite changes rest := by
    rw [← hsplit, rewrite_eq_word s _ hblank hcomma fun _ =>
      Text.not_isDigit_of_not_isAlphanum halpha, ← List.cons_append]
    refine (rewriteFrom_string hq hbody s.before rest).trans ?_
    simp [rewrite_word]
  refine ⟨c :: (body ++ [c]), rest, c :: (body ++ [c]), found, word (some c), hsplit, ?_⟩
  apply lexemeRewrite_of_copy halpha hspace hcolon hsplit hsize (by simp) h htext (hfront _)
  rw [List.getLast?_cons, List.getLast?_concat]
  rfl

theorem exists_rewrite_comma (changes : Renumbering) (s : Seeking) (cs : List Char) :
    ∃ s' : Seeking, s.rewrite changes (',' :: cs) = ',' :: s'.rewrite changes cs ∧
      s'.before = some ',' := by
  have hword : ∀ b, (word b).rewrite changes (',' :: cs) =
      ',' :: (word (some ',')).rewrite changes cs :=
    fun b => rewrite_word_plain (by decide) b cs
  cases s with
  | word b => exact ⟨word (some ','), hword b, rfl⟩
  | target list b =>
    refine ⟨word (some ','), ?_, rfl⟩
    rw [rewrite_target_other list b (by simp)]
    exact hword (some b)
  | comma b => exact ⟨target true ',', rewrite_comma_comma b cs, rfl⟩

theorem lexemeFollows_comma (s : Seeking) (h : front l (',' :: cs) = .ok found) :
    LexemeFollows l changes s (',' :: cs) found := by
  obtain ⟨s', htext, hbefore⟩ := exists_rewrite_comma changes s cs
  have hfound := h
  rw [Lexer.front_comma] at hfound
  cases hfound
  refine ⟨[','], cs, [','], ⟨[.comma], 1⟩, s', rfl, ?_⟩
  exact lexemeRewrite_of_copy (by decide) (by decide) (by decide) rfl rfl (by simp) h htext
    (Lexer.front_comma _) hbefore

/-- The digits where a line number is looked for are renumbered, and all others copied. -/
theorem exists_rewrite_digits (changes : Renumbering) (s : Seeking) {digits more : List Char}
    (hne : digits ≠ []) (hd : ∀ x ∈ digits, x.isDigit = true)
    (hmore : ∀ x ∈ more.head?, x.isDigit = false) :
    ∃ s' : Seeking, s.rewrite changes (digits ++ more) =
        (if s.isTarget then renumberedDigits changes digits else digits) ++
          s'.rewrite changes more ∧
      s'.before = digits.getLast? ∧ s'.isTarget = false := by
  by_cases hs : s.isTarget = true
  · cases s with
    | word b => cases hs
    | comma b => cases hs
    | target list b =>
      obtain ⟨d, ds, rfl⟩ := List.exists_cons_of_ne_nil hne
      refine ⟨_, rewrite_target_digits list b hne hd hmore, ?_, ?_⟩
      · rw [← getLast?_of_getLastD]
        cases list <;> rfl
      · cases list <;> rfl
  · have hcopied : ∀ x ∈ digits, isCopied x = true := fun x hx =>
      isCopied_of_isNumeralChar (Number.isNumeralChar_of_isDigit (hd x hx))
    obtain ⟨s', htext, hbefore, htarget⟩ := exists_rewrite_copy changes s hcopied
      (fun h => absurd h hs) more
    refine ⟨s', by rw [if_neg hs, htext], ?_, htarget (.inl hne)⟩
    obtain ⟨d, ds, rfl⟩ := List.exists_cons_of_ne_nil hne
    rw [hbefore, List.getLast?_cons]
    rfl

theorem tokensFollow_numeral {target : Bool} {digits digits' more more' : List Char}
    (hdigits : digits' = if target then renumberedDigits changes digits else digits)
    (hrange : (Number.lineNumberOf? digits').isSome = (Number.lineNumberOf? digits).isSome)
    (htail : Number.tailSize more' = Number.tailSize more) :
    TokensFollow changes target (Lexer.numeral digits more).tokens
      (Lexer.numeral digits' more').tokens := by
  rw [Lexer.numeral, Lexer.numeral, htail, hrange]
  split
  · refine .one ⟨fun w => by simp, fun ds _ heq => ?_, fun s heq => by cases heq⟩
    rw [Token.integer.injEq, String.ofList_inj] at heq
    rw [hdigits, heq]
  · exact .one (.of_other (by simp) (by simp) (by simp) (by simp))

/-- A numeral is followed by the numeral of its new digits. -/
theorem lexemeFollows_numeral (hl : l.NoDigits) (hch : changes.InRange) (s : Seeking)
    {digits more : List Char} (hne : digits ≠ []) (hd : ∀ x ∈ digits, x.isDigit = true)
    (hmore : ∀ x ∈ more.head?, x.isDigit = false) :
    LexemeFollows l changes s (digits ++ more) (Lexer.numeral digits more) := by
  obtain ⟨s₁, htext, hbefore, htarget⟩ := exists_rewrite_digits changes s hne hd hmore
  generalize hdigits : (if s.isTarget then renumberedDigits changes digits else digits) = digits'
    at htext
  obtain ⟨hne', hd', hrange⟩ : digits' ≠ [] ∧ (∀ x ∈ digits', x.isDigit = true) ∧
      (Number.lineNumberOf? digits').isSome = (Number.lineNumberOf? digits).isSome := by
    rw [← hdigits]
    split
    · obtain ⟨hne', hd'⟩ := digits_renumberedDigits (fun c hc => (hch c hc).1) hne hd
      exact ⟨hne', hd', isSome_lineNumberOf?_renumberedDigits hch digits⟩
    · exact ⟨hne, hd, rfl⟩
  -- What follows the digits is copied as far as the numeral goes.
  have hspans := Number.spans_tailSize more
  have hcopied : ∀ x ∈ more.take (Number.tailSize more), isCopied x = true := fun x hx =>
    isCopied_of_isNumeralChar (hspans.2 x hx)
  obtain ⟨s', hcopy, hbefore', _⟩ := exists_rewrite_copy changes s₁ hcopied
    (fun h => by rw [htarget] at h; cases h) (more.drop (Number.tailSize more))
  rw [List.take_append_drop] at hcopy
  have hsame : SameUntil Number.isNumeralChar more (s₁.rewrite changes more) :=
    sameUntil_rewrite (fun _ => isCopied_of_isNumeralChar) htarget more
  have htail : Number.tailSize (s₁.rewrite changes more) = Number.tailSize more :=
    Number.tailSize_same (fun _ h => h) hsame
  have hhead : ∀ x ∈ (s₁.rewrite changes more).head?, x.isDigit = false := by
    rw [head_rewrite s₁ hmore]
    exact hmore
  have hnew : digits' ++ more.take (Number.tailSize more) ++
      s'.rewrite changes (more.drop (Number.tailSize more)) =
        digits' ++ s₁.rewrite changes more := by
    rw [List.append_assoc, hcopy]
  refine ⟨digits ++ more.take (Number.tailSize more), more.drop (Number.tailSize more),
    digits' ++ more.take (Number.tailSize more),
    Lexer.numeral digits' (s₁.rewrite changes more), s', by simp, ?_⟩
  exact {
    text := by rw [List.append_assoc, List.take_append_drop, htext, hnew]
    front := by rw [hnew, Lexer.front_numeral hl hne' hd' hhead]
    old_ne := by simp [hne]
    old_size := by
      rw [Lexer.size_numeral, List.length_append, List.length_take_of_le hspans.1]
    new_size := by
      rw [Lexer.size_numeral, htail, List.length_append, List.length_take_of_le hspans.1]
    start := by
      obtain ⟨d, ds, rfl⟩ := List.exists_cons_of_ne_nil hne'
      have hdigit := hd' d List.mem_cons_self
      refine ⟨d, _, rfl, Number.not_isSpacing_of_isDigit hdigit, ?_⟩
      rintro rfl
      cases hdigit
    before := by rw [hbefore', hbefore, List.getLast?_append]
    tokens := tokensFollow_numeral hdigits.symm hrange htail
    jump := fun w _ heq => by
      rw [Lexer.numeral] at heq
      split at heq <;> cases heq }

theorem lexemeFollows_digit (hl : l.NoDigits) (hch : changes.InRange) (s : Seeking)
    (hc : c.isDigit = true) (h : front l (c :: cs) = .ok found) :
    LexemeFollows l changes s (c :: cs) found := by
  obtain ⟨run, rest, rfl, hrun, hrest⟩ := Text.exists_run Char.isDigit cs
  have hd : ∀ x ∈ c :: run, x.isDigit = true := by
    intro x hx
    rcases List.mem_cons.1 hx with rfl | hx
    · exact hc
    · exact hrun x hx
  have hfront := Lexer.front_numeral hl (List.cons_ne_nil c run) hd hrest
  cases hfront.symm.trans h
  exact lexemeFollows_numeral hl hch s (List.cons_ne_nil c run) hd hrest

end Seeking

end LineBasic
