import LineBasic.Proofs.Lexer.QuotedText
import LineBasic.Proofs.Lexer.Written

/-!
# Upper case and the lexer agree on quotes

Program text is put in upper case character by character, outside quotes; the lexer finds quotes
token by token. Where it comes to from the start of a line, no quote is open for the one or for the
other. So a quoted text has the characters that it had before, and in the characters of every other
token no letter is left in lower case. Text behind `REM` is not looked at by the lexer at all.
-/

set_option autoImplicit false

namespace LineBasic

namespace Text

/-- Upper case changes no character's place in the line. -/
theorem utf8Size_toUpper (c : Char) : c.toUpper.utf8Size = c.utf8Size := by
  by_cases hc : 97 ≤ c.toNat ∧ c.toNat ≤ 122
  · have hsmall : ∀ d : Char, d.toNat ≤ 127 → d.utf8Size = 1 := fun d hd =>
      Char.utf8Size_eq_one_iff.2 (UInt32.le_iff_toNat_le.2 hd)
    have hnat := toNat_toUpper hc
    rw [hsmall c (by omega), hsmall c.toUpper (by omega)]
  · rw [toUpper_of_not_lower (mt lower_iff.1 hc)]

theorem not_isLower_toUpper (c : Char) : c.toUpper.isLower = false := by
  refine Bool.eq_false_iff.2 fun hlower => ?_
  have hrange := isLower_iff.1 hlower
  have hnat := toNat_toUpper hrange
  rw [toUpper_toUpper] at hnat
  omega

theorem byteLength_map_toUpper (cs : List Char) :
    byteLength (cs.map Char.toUpper) = byteLength cs := by
  induction cs with
  | nil => rfl
  | cons c cs ih => rw [List.map_cons, byteLength, byteLength, ih, utf8Size_toUpper]

theorem byteLength_programUpperFrom (quote : Option Char) (cs : List Char) :
    byteLength (programUpperFrom quote cs) = byteLength cs := by
  induction cs generalizing quote with
  | nil => rfl
  | cons c cs ih =>
    rw [programUpperFrom_cons, byteLength, byteLength, ih]
    split
    · rw [utf8Size_toUpper]
    · rfl

theorem quoteAfter_programUpperFrom (quote : Option Char) (cs : List Char) :
    quoteAfter quote (programUpperFrom quote cs) = quoteAfter quote cs := by
  induction cs generalizing quote with
  | nil => rfl
  | cons c cs ih =>
    rw [programUpperFrom_cons]
    change quoteAfter (quoteStep quote (if quote = none then c.toUpper else c)) _ =
      quoteAfter (quoteStep quote c) cs
    have hstep : quoteStep quote (if quote = none then c.toUpper else c) = quoteStep quote c := by
      cases quote with
      | none => exact quoteStep_toUpper c
      | some q => rfl
    rw [hstep, ih]

section

variable {quote : Option Char} {cs ds front back : List Char}

/-- Where a text in upper case is cut, the text that it was can be cut, too. -/
theorem exists_of_programUpperFrom_append (h : programUpperFrom quote cs = front ++ back) :
    ∃ source rest, cs = source ++ rest ∧ programUpperFrom quote source = front ∧
      programUpperFrom (quoteAfter quote front) rest = back := by
  have hsplit := programUpperFrom_append quote (cs.take front.length) (cs.drop front.length)
  rw [List.take_append_drop, h] at hsplit
  have hlength : front.length = (programUpperFrom quote (cs.take front.length)).length := by
    have := length_programUpperFrom quote cs
    rw [h, List.length_append] at this
    rw [length_programUpperFrom, List.length_take]
    omega
  obtain ⟨hfront, hback⟩ := List.append_inj hsplit hlength
  refine ⟨cs.take front.length, cs.drop front.length, (List.take_append_drop _ _).symm,
    hfront.symm, ?_⟩
  rw [hback, ← quoteAfter_programUpperFrom quote (cs.take front.length), ← hfront]

theorem eq_of_programUpperFrom (hds : ∀ c ∈ ds, c.isUpper = false)
    (h : programUpperFrom quote cs = ds) : cs = ds := by
  induction cs generalizing quote ds with
  | nil => exact h
  | cons c cs ih =>
    rw [programUpperFrom_cons] at h
    subst h
    obtain ⟨hhead, htail⟩ := List.forall_mem_cons.1 hds
    rw [← ih htail rfl]
    split
    · rename_i hquote
      rw [if_pos hquote] at hhead
      rw [← eq_of_toUpper_eq hhead rfl]
    · rfl

/-- Outside quotes every character is put in upper case. -/
theorem map_toUpper_of_programUpperFrom (hds : ∀ c ∈ ds, isQuote c = false)
    (h : programUpperFrom none cs = ds) : cs.map Char.toUpper = ds := by
  induction cs generalizing ds with
  | nil => exact h
  | cons c cs ih =>
    rw [programUpperFrom_cons, if_pos rfl] at h
    subst h
    obtain ⟨hhead, htail⟩ := List.forall_mem_cons.1 hds
    have hstep : quoteStep none c = none := by
      rw [← quoteStep_toUpper, quoteStep, if_neg (Bool.eq_false_iff.1 hhead)]
    rw [hstep] at htail ⊢
    rw [List.map_cons, ih htail rfl]

theorem eq_of_programUpperFrom_some {q : Char} (hq : q ∉ ds)
    (h : programUpperFrom (some q) cs = ds) : cs = ds := by
  induction cs generalizing ds with
  | nil => exact h
  | cons c cs ih =>
    rw [programUpperFrom_cons, if_neg (by simp)] at h
    subst h
    obtain ⟨hhead, htail⟩ := not_or.1 (mt List.mem_cons.2 hq)
    have hstep : quoteStep (some q) c = some q := if_neg fun heq => hhead heq.symm
    rw [hstep] at htail ⊢
    rw [← ih htail rfl]

theorem eq_of_programUpperFrom_string {q : Char} (hq : isQuote q = true) {body : List Char}
    (hbody : q ∉ body) (h : programUpperFrom none cs = q :: (body ++ [q])) :
    cs = q :: (body ++ [q]) := by
  have hsingle : ∀ c ∈ [q], c.isUpper = false := by simpa using isUpper_of_isQuote hq
  rw [← List.singleton_append] at h
  obtain ⟨opening, rest, rfl, hopening, hrest⟩ := exists_of_programUpperFrom_append h
  have hafter : quoteAfter none [q] = some q := by simp [quoteAfter, quoteStep, hq]
  rw [hafter] at hrest
  obtain ⟨inner, closing, rfl, hinner, hclosing⟩ := exists_of_programUpperFrom_append hrest
  rw [eq_of_programUpperFrom hsingle hopening, eq_of_programUpperFrom_some hbody hinner,
    eq_of_programUpperFrom hsingle hclosing, List.singleton_append]

end

end Text

namespace Lexer

open Text (isSpacing isQuote programUpperFrom byteLength)

variable {l : Lexicon} {packed dotAsZero : Bool} {c : Char} {cs : List Char}

theorem lexeme_of_isQuote (hl : packed = true → l.Unquoted) (hc : isQuote c = true) :
    lexeme l packed dotAsZero c cs = quoted c cs := by
  rw [lexeme]
  split
  · rename_i name n hcommand
    have hempty : packed = true → "" ∉ l.commands := fun hpacked hmem => (hl hpacked _ hmem).1 rfl
    obtain ⟨written, rest, hcs, hne, rfl, -⟩ := startsWith_command hempty hcommand
    obtain ⟨d, ds, rfl⟩ := List.exists_cons_of_ne_nil hne
    obtain ⟨rfl, -⟩ := List.cons.inj hcs
    have hquiet := not_isQuote_of_mem_command hl hcommand c (by simp)
    rw [hc] at hquiet
    cases hquiet
  · rw [if_pos (Text.isQuote_iff.1 hc)]

/-! ## A statement before and after -/

/-- The text of a statement with its tokens, the text that it was before it was put in upper case,
and the text behind it. A quoted text stands between the same quotes in both. Every other token has
no letter in lower case, and it is what its source is in upper case. The text behind `REM` may have
changed in any way that keeps its length. -/
inductive Raised : List Token → List Char → List Char → List Char → Prop
  | line {gap : List Char} (hgap : gap.all isSpacing = true) : Raised [] gap gap []
  | colon {gap : List Char} (hgap : gap.all isSpacing = true) (after : List Char) :
      Raised [] (gap ++ [':']) (gap ++ [':']) after
  | remark {gap word text origin : List Char} (hgap : gap.all isSpacing = true)
      (hword : word.map Char.toUpper = Word.REM.text.toList)
      (htext : byteLength text = byteLength origin) :
      Raised [.word .REM, .string (String.ofList text)]
        (gap ++ (Word.REM.text.toList ++ text)) (gap ++ (word ++ origin)) []
  | quoted {gap body source after : List Char} {q : Char} {s : String} {tokens : List Token}
      (hgap : gap.all isSpacing = true) (hq : isQuote q = true) (hs : q ∉ s.toList)
      (h : Raised tokens body source after) :
      Raised (.string s :: tokens) (gap ++ (q :: (s.toList ++ [q]) ++ body))
        (gap ++ (q :: (s.toList ++ [q]) ++ source)) after
  | token {gap span origin body source after : List Char} {t : Token} {tokens : List Token}
      (hgap : gap.all isSpacing = true) (hword : t ≠ .word .REM) (hstring : ∀ s, t ≠ .string s)
      (hspan : span ∈ t.writings) (hlower : ∀ x ∈ span, x.isLower = false)
      (horigin : origin.map Char.toUpper = span) (h : Raised tokens body source after) :
      Raised (t :: tokens) (gap ++ (span ++ body)) (gap ++ (origin ++ source)) after

namespace Raised

variable {gap body source after : List Char} {tokens more : List Token}

theorem byteLength_eq (h : Raised tokens body source after) :
    byteLength body = byteLength source := by
  induction h with
  | line | colon => rfl
  | @remark gap word text origin hgap hword htext =>
    simp only [Text.byteLength_append, ← hword, Text.byteLength_map_toUpper, htext]
  | quoted hgap hq hs h ih => simp only [Text.byteLength_append, ih]
  | token hgap hword hstring hspan hlower horigin h ih =>
    simp only [Text.byteLength_append, ← horigin, Text.byteLength_map_toUpper, ih]

/-- The tokens of a lexeme without quotes, in front of what is behind it. -/
theorem lexeme {written origin : List Char} (hgap : gap.all isSpacing = true)
    (hspells : Spells l written tokens) (hword : tokens ≠ [.word .REM])
    (hstring : ∀ s, tokens ≠ [.string s]) (horigin : origin.map Char.toUpper = written)
    (h : Raised more body source after) :
    Raised (tokens ++ more) (gap ++ (written ++ body)) (gap ++ (origin ++ source)) after := by
  have hlower : ∀ {origin : List Char}, ∀ x ∈ origin.map Char.toUpper, x.isLower = false := by
    intro origin x hx
    obtain ⟨y, -, rfl⟩ := List.mem_map.1 hx
    exact Text.not_isLower_toUpper y
  subst horigin
  rcases hspells.writing fun s hs => absurd hs (hstring s) with
    ⟨t, rfl, hspan⟩ | ⟨front, name, hmember, rfl⟩
  · exact .token hgap (fun heq => hword (by rw [heq])) (fun s heq => hstring s (by rw [heq])) hspan
      hlower rfl h
  · obtain ⟨qualifier, ident, rfl, hqualifier, hident⟩ := List.map_eq_append_iff.1 hmember
    have htail : Raised (.ident (String.ofList name) :: more) ([] ++ (name ++ body))
        ([] ++ (ident ++ source)) after :=
      .token rfl (by simp) (by simp) (by simp [Token.writings, Token.display])
        (hident ▸ hlower) hident h
    have hboth : Raised (.qualifier (String.ofList front) :: .ident (String.ofList name) :: more)
        (gap ++ ((front ++ ['.']) ++ ([] ++ (name ++ body))))
        (gap ++ (qualifier ++ ([] ++ (ident ++ source)))) after :=
      .token hgap (by simp) (by simp) (by simp [Token.writings, Token.display])
        (hqualifier ▸ hlower) hqualifier htail
    rw [hmember]
    simpa using hboth

theorem markUnaryFrom (h : Raised tokens body source after) (b : Bool) :
    Raised (Token.markUnaryFrom b tokens) body source after := by
  induction h generalizing b with
  | line hgap => exact .line hgap
  | colon hgap after => exact .colon hgap after
  | remark hgap hword htext => exact .remark hgap hword htext
  | quoted hgap hq hs h ih => exact .quoted hgap hq hs (ih _)
  | @token gap span origin body source after t tokens hgap hword hstring hspan hlower horigin h
      ih =>
    cases t with
    | operator op =>
      rw [Token.markUnaryFrom]
      split
      · rename_i hop
        exact .token hgap (by simp) (by simp) (Token.mem_writings_unary hop hspan) hlower horigin
          (ih true)
      · exact .token hgap (by simp) (by simp) hspan hlower horigin (ih true)
    | _ => exact .token hgap hword hstring hspan hlower horigin (ih _)

end Raised

/-- A statement is cut off the front of a text and of the text in upper case that it becomes, and
what is left of the one becomes what is left of the other. -/
def Agrees (tokens : List Token) (text rest : List Char) : Prop :=
  ∃ body source behind, programUpperFrom none text = body ++ rest ∧ text = source ++ behind ∧
    programUpperFrom none behind = rest ∧ Raised tokens body source rest

theorem spacing_kept {x : Char} (h : isSpacing x = true) :
    isQuote x = false ∧ x.isUpper = false ∧ x.toUpper = x := by
  simp only [isSpacing, Bool.or_eq_true, beq_iff_eq] at h
  rcases h with ((rfl | rfl) | rfl) | rfl <;> decide

theorem programUpperFrom_spacing {gap : List Char} (hgap : gap.all isSpacing = true)
    (tail : List Char) :
    programUpperFrom none (gap ++ tail) = gap ++ programUpperFrom none tail := by
  have hspacing := fun x hx => spacing_kept (List.all_eq_true.1 hgap x hx)
  rw [Text.programUpperFrom_append,
    Text.programUpperFrom_of_toUpper_eq fun x hx => ⟨(hspacing x hx).1, (hspacing x hx).2.2⟩,
    Text.quoteAfter_of_not_isQuote fun x hx => (hspacing x hx).1]

/-- The spacing in front of a lexeme was there before. -/
theorem exists_spacing_of_programUpperFrom {origin text : List Char}
    (h : programUpperFrom none origin = text) :
    ∃ gap tail, gap.all isSpacing = true ∧ origin = gap ++ tail ∧
      programUpperFrom none tail = text.dropWhile isSpacing := by
  obtain ⟨gap, hgap, htext⟩ := exists_spacing text
  rw [htext] at h
  obtain ⟨gap', tail, rfl, hfront, -⟩ := Text.exists_of_programUpperFrom_append h
  obtain rfl := Text.eq_of_programUpperFrom
    (fun x hx => (spacing_kept (List.all_eq_true.1 hgap x hx)).2.1) hfront
  rw [programUpperFrom_spacing hgap] at h
  exact ⟨gap', tail, hgap, rfl, List.append_cancel_left h⟩

variable {gap tail rest : List Char} {found : Lexeme} {tokens : List Token}
  {more : Except Fault (List Token × List Char)}

/-- In front of what agrees, a lexeme can be put that leaves no quote open. -/
theorem agrees_of_prepend {first : List Token} {span after : List Char}
    (hgap : gap.all isSpacing = true) (htail : programUpperFrom none tail = span ++ after)
    (hclosed : Text.quoteAfter none span = none)
    (h : Lexer.prepend first more = .ok (tokens, rest))
    (hraised : ∀ {origin tokens' body source}, programUpperFrom none origin = span →
      Raised tokens' body source rest →
      Raised (first ++ tokens') (gap ++ (span ++ body)) (gap ++ (origin ++ source)) rest)
    (ih : ∀ {tokens' behind}, programUpperFrom none behind = after →
      more = .ok (tokens', rest) → Agrees tokens' behind rest) :
    Agrees tokens (gap ++ tail) rest := by
  cases more with
  | error f => cases h
  | ok result =>
    obtain ⟨tokens', rest'⟩ := result
    cases h
    obtain ⟨origin, behind, rfl, horigin, hbehind⟩ := Text.exists_of_programUpperFrom_append htail
    rw [hclosed] at hbehind
    obtain ⟨body, source, left, hbody, rfl, hleft, hstatement⟩ := ih hbehind rfl
    refine ⟨gap ++ (span ++ body), gap ++ (origin ++ source), left, ?_, by simp, hleft,
      hraised horigin hstatement⟩
    rw [programUpperFrom_spacing hgap, htail, ← hbehind, hbody]
    simp

/-- A lexeme without quotes agrees, if what is behind it does. -/
theorem agrees_of_startsWith (hgap : gap.all isSpacing = true)
    (htail : programUpperFrom none tail = c :: cs) (hfound : StartsWith l (c :: cs) found)
    (hword : found.tokens ≠ [.word .REM]) (hstring : ∀ s, found.tokens ≠ [.string s])
    (hquiet : ∀ x ∈ (c :: cs).take found.size, isQuote x = false)
    (h : Lexer.prepend found.tokens more = .ok (tokens, rest))
    (ih : ∀ {tokens' behind}, programUpperFrom none behind = cs.drop (found.size - 1) →
      more = .ok (tokens', rest) → Agrees tokens' behind rest) :
    Agrees tokens (gap ++ tail) rest := by
  obtain ⟨written, after, hcs, hne, hsize, hspells⟩ := hfound
  rw [← hsize, drop_of_cons_eq hcs hne] at ih
  rw [hcs, ← hsize, List.take_left] at hquiet
  rw [hcs] at htail
  refine agrees_of_prepend hgap htail (Text.quoteAfter_of_not_isQuote hquiet) h ?_ ih
  exact fun horigin hraised => hraised.lexeme hgap hspells hword hstring
    (Text.map_toUpper_of_programUpperFrom hquiet horigin)

/-- A quoted text agrees, if what is behind it does. -/
theorem agrees_of_quoted (hgap : gap.all isSpacing = true)
    (htail : programUpperFrom none tail = c :: cs) (hc : isQuote c = true)
    (hfound : quoted c cs = .ok found)
    (h : Lexer.prepend found.tokens more = .ok (tokens, rest))
    (ih : ∀ {tokens' behind}, programUpperFrom none behind = cs.drop (found.size - 1) →
      more = .ok (tokens', rest) → Agrees tokens' behind rest) :
    Agrees tokens (gap ++ tail) rest := by
  obtain ⟨body, after, rfl, hbody, rfl⟩ := exists_of_quoted hfound
  have hcut : c :: (body ++ c :: after) = c :: (body ++ [c]) ++ after := by simp
  have hdrop : (body ++ c :: after).drop (body.length + 2 - 1) = after := by
    rw [List.append_cons, List.drop_left' (by simp)]
  rw [hdrop] at ih
  rw [hcut] at htail
  refine agrees_of_prepend hgap htail (Text.quoteAfter_string hc hbody) h ?_ ih
  intro origin tokens' rest' source horigin hraised
  obtain rfl := Text.eq_of_programUpperFrom_string hc hbody horigin
  have hstring : c ∉ (String.ofList body).toList := by rwa [String.toList_ofList]
  have hquoted := Raised.quoted hgap hc hstring hraised
  rwa [String.toList_ofList] at hquoted

/-- A statement that is lexed where no quote is open agrees with what it was before. -/
theorem agrees_statement (hl : packed = true → l.Unquoted) {origin text : List Char}
    (htext : programUpperFrom none origin = text)
    (h : statement l packed dotAsZero text = .ok (tokens, rest)) : Agrees tokens origin rest := by
  -- Along the lexer: before each lexeme, no quote is open in the text or in what it was.
  fun_induction statement l packed dotAsZero text generalizing tokens origin with
  | case1 packed text hc =>
    cases h
    obtain ⟨gap, tail, hgap, rfl, htail⟩ := exists_spacing_of_programUpperFrom htext
    rw [hc] at htail
    refine ⟨gap, gap, tail, ?_, rfl, htail, .line hgap⟩
    rw [programUpperFrom_spacing hgap, htail]
  | case2 packed text cs hc hlt =>
    cases h
    obtain ⟨gap, tail, hgap, rfl, htail⟩ := exists_spacing_of_programUpperFrom htext
    rw [hc, ← List.singleton_append] at htail
    obtain ⟨colon, behind, rfl, hcolon, hbehind⟩ := Text.exists_of_programUpperFrom_append htail
    obtain rfl : colon = [':'] :=
      Text.eq_of_programUpperFrom (List.forall_mem_singleton.2 rfl) hcolon
    refine ⟨gap ++ [':'], gap ++ [':'], behind, ?_, by simp, hbehind, .colon hgap rest⟩
    rw [programUpperFrom_spacing hgap, htail]
    simp
  | case3 packed text c cs hc hlt hcolon size hkeyword =>
    cases h
    obtain ⟨gap, tail, hgap, rfl, htail⟩ := exists_spacing_of_programUpperFrom htext
    obtain ⟨written, hmem, ⟨remark, hcs⟩, rfl⟩ := spelling_of_keyword hkeyword
    rw [drop_of_cons_eq hcs.symm (Word.ne_nil_of_mem_spellings hmem)]
    obtain rfl : written = Word.REM.text.toList := by
      simpa [Token.writings, Token.variants, Token.display] using Token.mem_writings_word hmem
    rw [hc, ← hcs] at htail
    obtain ⟨word, behind, rfl, hword, hbehind⟩ := Text.exists_of_programUpperFrom_append htail
    have hquiet := not_isQuote_of_mem_spelling hmem
    -- A quote may stay open in the remark, but nothing is left to be lexed behind it.
    refine ⟨gap ++ (Word.REM.text.toList ++ remark), gap ++ (word ++ behind), [], ?_, by simp, rfl,
      .remark hgap (Text.map_toUpper_of_programUpperFrom hquiet hword) ?_⟩
    · rw [programUpperFrom_spacing hgap, htail, List.append_nil]
    · rw [← hbehind, Text.byteLength_programUpperFrom]
  | case4 packed text c cs hc hlt hcolon w size hw hkeyword ih =>
    obtain ⟨gap, tail, hgap, rfl, htail⟩ := exists_spacing_of_programUpperFrom htext
    rw [hc] at htail
    obtain ⟨written, hmem, hstart, hsize⟩ := spelling_of_keyword hkeyword
    have hfound : StartsWith l (c :: cs) ⟨[.word w], size⟩ :=
      .of_start hstart (Word.ne_nil_of_mem_spellings hmem) hsize (.word hmem)
    have hquiet : ∀ x ∈ (c :: cs).take size, isQuote x = false := by
      rw [← hsize, ← List.prefix_iff_eq_take.1 hstart]
      exact not_isQuote_of_mem_spelling hmem
    refine agrees_of_startsWith hgap htail hfound (fun hrem => ?_) (by simp) hquiet h
      (fun hbehind hmore => ih (fun hpacked => hl (Bool.and_eq_true_iff.1 hpacked).1) hbehind hmore)
    cases hrem
    exact hw rfl
  | case5 => cases h
  | case6 packed text c cs hc hlt hcolon hkeyword found hf ih =>
    obtain ⟨gap, tail, hgap, rfl, htail⟩ := exists_spacing_of_programUpperFrom htext
    rw [hc] at htail
    by_cases hquote : isQuote c = true
    · rw [lexeme_of_isQuote hl hquote] at hf
      exact agrees_of_quoted hgap htail hquote hf h (ih hl · ·)
    · have hempty : packed = true → "" ∉ l.commands :=
        fun hpacked hmem => (hl hpacked _ hmem).1 rfl
      exact agrees_of_startsWith hgap htail (startsWith_lexeme hempty hf)
        ((lexeme_kinds hf).1 .REM) (fun s hs => hquote ((lexeme_kinds hf).2 s hs))
        (not_isQuote_of_mem_lexeme hl (Bool.eq_false_iff.2 hquote) hf) h (ih hl · ·)

end Lexer

/-! ## From the start of a line -/

inductive Arrives (l : Lexicon) (o : LexOptions) (line : String) : Nat → Prop
  | start : Arrives l o line 0
  | behind {offset next : Nat} {tokens : List Token} (h : Arrives l o line offset)
      (hlex : lexStatement l o line offset = .ok (tokens, next)) : Arrives l o line next

/-- The rest of a line, from a position on, becomes in upper case what it would become on its own,
and at that position. -/
def StandsAlone (line : String) (offset : Nat) : Prop :=
  ∃ before front tail, (Text.programUpper line).toList = before ++ Text.programUpperFrom none tail ∧
    line.toList = front ++ tail ∧ Text.byteLength before = offset ∧ Text.byteLength front = offset

variable {l : Lexicon} {o : LexOptions} {line : String} {offset next : Nat} {tokens : List Token}

theorem standsAlone_zero (line : String) : StandsAlone line 0 :=
  ⟨[], [], line.toList, String.toList_ofList, rfl, rfl, rfl⟩

/-- Such a rest agrees with its statement, and what is behind the statement is such a rest again. -/
theorem StandsAlone.statement (h : StandsAlone line offset) (hl : o.packed = true → l.Unquoted)
    (hlex : lexStatement l o (Text.programUpper line) offset = .ok (tokens, next)) :
    ∃ before body after front source behind,
      (Text.programUpper line).toList = before ++ body ++ after ∧
      line.toList = front ++ source ++ behind ∧ Text.programUpperFrom none behind = after ∧
      Text.byteLength before = offset ∧ Text.byteLength front = offset ∧
      Text.byteLength (before ++ body) = next ∧ Text.byteLength (front ++ source) = next ∧
      Lexer.Raised tokens body source after := by
  obtain ⟨before, front, tail, hupper, hline, hbefore, hfront⟩ := h
  obtain ⟨text, lexed, rest, htext, hlexed, rfl, hrest⟩ := lexStatement_eq_ok hlex
  have htail := Text.dropBytes_byteLength before (Text.programUpperFrom none tail)
  rw [hbefore, ← hupper, htext] at htail
  obtain ⟨body, source, behind, hbody, rfl, hbehind, hraised⟩ :=
    Lexer.agrees_statement hl (Option.some.inj htail).symm hlexed
  rw [hbody, ← List.append_assoc] at hupper
  have hnext : Text.byteLength (before ++ body) = next := by
    have hend := Text.add_byteLength_of_dropBytes hrest
    rw [hupper, Text.byteLength_append (before ++ body)] at hend
    omega
  have hsame : Text.byteLength (front ++ source) = next := by
    rw [← hnext, Text.byteLength_append, Text.byteLength_append, hfront, hbefore,
      hraised.byteLength_eq]
  exact ⟨before, body, rest, front, source, behind, hupper, by rw [hline, List.append_assoc],
    hbehind, hbefore, hfront, hnext, hsame, hraised.markUnaryFrom true⟩

theorem Arrives.standsAlone (hl : o.packed = true → l.Unquoted)
    (h : Arrives l o (Text.programUpper line) offset) : StandsAlone line offset := by
  induction h with
  | start => exact standsAlone_zero line
  | behind h hlex ih =>
    obtain ⟨before, body, after, front, source, behind, hupper, hline, rfl, -, -, hnext, hsame,
      -⟩ := ih.statement hl hlex
    exact ⟨before ++ body, front ++ source, behind, hupper, hline, hnext, hsame⟩

/-- Upper case keeps the length of a line, in characters and in bytes, and to put a line in upper
case a second time changes nothing. From the start of the line in upper case, every statement that
the lexer comes to lies where its source lies in the line. The contents of each quoted text are the
same there, byte for byte, and no other token has a letter in lower case but the text behind
`REM`. -/
theorem programUpper_agrees_with_lexer (line : String) :
    (Text.programUpper line).length = line.length ∧
      Text.byteLength (Text.programUpper line).toList = Text.byteLength line.toList ∧
      Text.programUpper (Text.programUpper line) = Text.programUpper line ∧
      ∀ (l : Lexicon) (o : LexOptions), (o.packed = true → l.Unquoted) →
        ∀ (offset next : Nat) (tokens : List Token), Arrives l o (Text.programUpper line) offset →
          lexStatement l o (Text.programUpper line) offset = .ok (tokens, next) →
          ∃ before body after front source behind,
            (Text.programUpper line).toList = before ++ body ++ after ∧
            line.toList = front ++ source ++ behind ∧
            Text.byteLength before = offset ∧ Text.byteLength front = offset ∧
            Text.byteLength (before ++ body) = next ∧ Text.byteLength (front ++ source) = next ∧
            Lexer.Raised tokens body source after := by
  have hupper : (Text.programUpper line).toList = Text.programUpperFrom none line.toList :=
    String.toList_ofList
  refine ⟨?_, ?_, ?_, fun l o hl offset next tokens harrives hlex => ?_⟩
  · rw [← String.length_toList, hupper, Text.length_programUpperFrom, String.length_toList]
  · rw [hupper, Text.byteLength_programUpperFrom]
  · rw [Text.programUpper, hupper, Text.programUpperFrom_programUpperFrom, ← hupper,
      String.ofList_toList]
  · obtain ⟨before, body, after, front, source, behind, hupper, hline, -, hpositions⟩ :=
      (harrives.standsAlone hl).statement hl hlex
    exact ⟨before, body, after, front, source, behind, hupper, hline, hpositions⟩

def nestedQuotes : String := "if a$='é\"b'then?\"it's: rem\";m.a:b$=\"x'y\"+'z'and.5>-x:rem \"q"

theorem programUpper_agrees_with_lexer_in_nestedQuotes :
    Text.programUpper nestedQuotes =
        "IF A$='é\"b'THEN?\"it's: rem\";M.A:B$=\"x'y\"+'z'AND.5>-X:REM \"q" ∧
      Arrives ⟨["LOAD"]⟩ ⟨true, true⟩ (Text.programUpper nestedQuotes) 33 ∧
      lexStatement ⟨["LOAD"]⟩ ⟨true, true⟩ (Text.programUpper nestedQuotes) 33 =
        .ok ([.ident "B$", .operator .equal, .string "x'y", .operator .plus, .string "z",
          .operator .AND, .number ".5", .operator .greater, .unary .minus, .ident "X"], 54) ∧
      ∃ before body after front source behind,
        (Text.programUpper nestedQuotes).toList = before ++ body ++ after ∧
        nestedQuotes.toList = front ++ source ++ behind ∧
        Text.byteLength before = 33 ∧ Text.byteLength front = 33 ∧
        Text.byteLength (before ++ body) = 54 ∧ Text.byteLength (front ++ source) = 54 ∧
        Lexer.Raised [.ident "B$", .operator .equal, .string "x'y", .operator .plus, .string "z",
          .operator .AND, .number ".5", .operator .greater, .unary .minus, .ident "X"]
          body source after := by
  have hunquoted : Lexicon.Unquoted ⟨["LOAD"]⟩ := by
    unfold Lexicon.Unquoted
    decide
  have hfirst : lexStatement ⟨["LOAD"]⟩ ⟨true, true⟩ (Text.programUpper nestedQuotes) 0 =
      .ok ([.word .IF, .ident "A$", .operator .equal, .string "é\"b", .word .THEN, .word .PRINT,
        .string "it's: rem", .operator .semicolon, .qualifier "M", .ident "A"], 33) :=
    eq_ok_of_toOption (by decide +kernel)
  have hlex : lexStatement ⟨["LOAD"]⟩ ⟨true, true⟩ (Text.programUpper nestedQuotes) 33 =
      .ok ([.ident "B$", .operator .equal, .string "x'y", .operator .plus, .string "z",
        .operator .AND, .number ".5", .operator .greater, .unary .minus, .ident "X"], 54) :=
    eq_ok_of_toOption (by decide +kernel)
  have harrives := Arrives.behind .start hfirst
  exact ⟨by decide +kernel, harrives, hlex, (programUpper_agrees_with_lexer nestedQuotes).2.2.2
    ⟨["LOAD"]⟩ ⟨true, true⟩ (fun _ => hunquoted) 33 54 _ harrives hlex⟩

end LineBasic
