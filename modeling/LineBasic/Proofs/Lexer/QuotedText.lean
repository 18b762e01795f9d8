import LineBasic.Proofs.Lexer.Marked
import LineBasic.Proofs.Lexer.Spelling
import LineBasic.Proofs.Lexer.Symbol
import LineBasic.Proofs.Text.Case

/-!
# Where the lexer finds quoted text

From the start of a line the lexer comes to one place after another. No quote is open at any of
them, if quotes are counted character by character: a lexeme is either a whole quoted text or has no
quote in it. Each token that is a quoted text is read at one of these places.
-/

set_option autoImplicit false

namespace LineBasic

/-- No command has an empty name or one with a quote in it. Where commands may be glued to what
follows them, such a name could take away the quote that begins a text. -/
def Lexicon.Unquoted (l : Lexicon) : Prop :=
  ∀ name ∈ l.commands, name ≠ "" ∧ name.toList.any Text.isQuote = false

namespace Lexer

open Text (isSpacing isQuote)

def Quiet (text : List Char) (size : Nat) : Prop :=
  ∃ span rest, text = span ++ rest ∧ span.length = size ∧ span ≠ [] ∧ ∀ c ∈ span, isQuote c = false

variable {l : Lexicon} {packed dotAsZero : Bool} {c : Char} {cs : List Char} {found : Lexeme}

theorem isAlphanum_of_mem_nameTail {packed : Bool} {x : Char} (h : x ∈ nameTail l packed cs) :
    x.isAlphanum = true := by
  fun_induction nameTail l packed cs with
  | case1 => cases h
  | case2 c cs hc ih =>
    rcases List.mem_cons.1 h with rfl | h
    · exact (Bool.and_eq_true_iff.1 hc).1
    · exact ih h
  | case3 c cs hc => cases h

theorem not_isQuote_of_mem_name {packed : Bool} (hc : c.isAlpha = true) {x : Char}
    (hx : x ∈ name l packed c cs) : isQuote x = false := by
  have hsuffix : ∀ cs, (kindSuffix cs).all (fun x => !isQuote x) = true := by
    intro cs
    unfold kindSuffix
    split <;> rfl
  rw [name] at hx
  rcases List.mem_append.1 hx with hx | hx
  · refine Text.not_isQuote_of_isAlphanum ?_
    rcases List.mem_cons.1 hx with rfl | hx
    · exact Text.isAlphanum_of_isAlpha hc
    · exact isAlphanum_of_mem_nameTail hx
  · simpa using List.all_eq_true.1 (hsuffix _) x hx

theorem Quiet.reference (l : Lexicon) (packed : Bool) (hc : c.isAlpha = true) (cs : List Char) :
    Quiet (c :: cs) (reference l packed c cs).size := by
  have hfront := name_append_drop l packed c cs
  have halone : Quiet (c :: cs) (name l packed c cs).length :=
    ⟨_, _, hfront.symm, rfl, by simp [name], fun x => not_isQuote_of_mem_name hc⟩
  rw [Lexer.reference]
  dsimp only
  split
  · rename_i d rest hdrop
    split
    · rename_i hd
      have hmember := name_append_drop l packed d rest
      refine ⟨name l packed c cs ++ '.' :: name l packed d rest,
        rest.drop ((name l packed d rest).length - 1), ?_, ?_, by simp, fun x hx => ?_⟩
      · rw [List.append_assoc, List.cons_append, hmember, ← hdrop, hfront]
      · rw [List.length_append, List.length_cons]
        dsimp only
        omega
      · rcases List.mem_append.1 hx with hx | hx
        · exact not_isQuote_of_mem_name hc hx
        · rcases List.mem_cons.1 hx with rfl | hx
          · rfl
          · exact not_isQuote_of_mem_name hd hx
    · exact halone
  · exact halone

theorem not_isQuote_of_mem_spelling {written : List Char} {w : Word}
    (h : (written, w) ∈ Word.spellings) : ∀ x ∈ written, isQuote x = false := by
  have hall : ∀ e ∈ Word.spellings, e.1.any isQuote = false := by decide
  simpa using hall _ h

theorem not_isQuote_of_mem_command (hl : packed = true → l.Unquoted) {name : String} {n : Nat}
    (h : command? l packed cs = some (name, n)) : ∀ x ∈ cs.take n, isQuote x = false := by
  obtain ⟨hmem, hstart, rfl, hkind⟩ := command?_eq_some h
  rw [← List.prefix_iff_eq_take.1 hstart]
  rcases hkind with hpacked | ⟨-, hrun⟩
  · simpa using (hl hpacked name hmem).2
  · exact fun x hx => Text.not_isQuote_of_isAlphanum (hrun x hx)

theorem not_isQuote_of_mem_operator {op : Operator} {n : Nat}
    (h : operator? packed cs = some (op, n)) : ∀ x ∈ cs.take n, isQuote x = false := by
  have hshown : ∀ op : Operator, op.lexeme.toList.any isQuote = false := by
    intro op
    cases op <;> rfl
  have hswapped : ∀ e ∈ swapped, e.1.any isQuote = false := by decide
  obtain ⟨written, rest, rfl, -, rfl, hspells⟩ := startsWith_operator (l := ⟨[]⟩) h
  rw [List.take_left]
  cases hspells with
  | operator hop =>
    rcases writing_of_ofLexeme? hop with rfl | hmem
    · simpa using hshown op
    · simpa using hswapped _ hmem

theorem not_isQuote_of_isNumeralChar {x : Char} (h : Number.isNumeralChar x = true) :
    isQuote x = false := by
  refine Bool.eq_false_iff.2 fun hq => ?_
  rcases Text.isQuote_iff.1 hq with rfl | rfl <;> cases h

theorem not_isQuote_of_mem_number (h : number? dotAsZero cs = some found) :
    ∀ x ∈ cs.take found.size, isQuote x = false := by
  rw [number?] at h
  split at h
  · rename_i hscan
    cases h
    intro x hx
    rcases Bool.or_eq_true_iff.1 ((Number.spans_scanInteger hscan).2.2 x hx) with hx | hx
    · rw [beq_iff_eq.1 hx]
      rfl
    · exact not_isQuote_of_isNumeralChar hx
  · split at h
    · rename_i hscan
      cases h
      exact fun x hx => not_isQuote_of_isNumeralChar ((Number.spans_scanReal hscan).2.2 x hx)
    · split at h
      · rename_i hpoint
        cases h
        obtain ⟨rest, rfl⟩ := List.head?_eq_some_iff.1
          (beq_iff_eq.1 (Bool.and_eq_true_iff.1 hpoint).2)
        simp [isQuote]
      · cases h

theorem not_isQuote_of_mem_punctuation (hc : isQuote c = false)
    (h : punctuation l packed c cs = .ok found) :
    ∀ x ∈ (c :: cs).take found.size, isQuote x = false := by
  by_cases halpha : c.isAlpha = true
  · rw [punctuation_of_isAlpha halpha] at h
    cases h
    obtain ⟨span, rest, heq, hsize, -, hspan⟩ := Quiet.reference l packed halpha cs
    rw [heq, ← hsize, List.take_left]
    exact hspan
  · rcases punctuation_cases (Bool.eq_false_iff.2 halpha) h with ⟨t, -, rfl⟩ | rfl
    · simpa using hc
    · refine List.forall_mem_cons.2 ⟨hc, fun x hx => ?_⟩
      exact not_isQuote_of_isNumeralChar ((Number.spans_digitRun cs).2 x hx)

/-- A lexeme that starts with no quote has none in it. -/
theorem not_isQuote_of_mem_lexeme (hl : packed = true → l.Unquoted) (hc : isQuote c = false)
    (h : lexeme l packed dotAsZero c cs = .ok found) :
    ∀ x ∈ (c :: cs).take found.size, isQuote x = false := by
  rw [lexeme] at h
  split at h
  · rename_i hcommand
    cases h
    exact not_isQuote_of_mem_command hl hcommand
  · split at h
    · rename_i hquote
      rw [Text.isQuote_iff.2 hquote] at hc
      cases hc
    · split at h
      · rename_i hop
        cases h
        exact not_isQuote_of_mem_operator hop
      · split at h
        · rename_i hnumber
          cases h
          exact not_isQuote_of_mem_number hnumber
        · exact not_isQuote_of_mem_punctuation hc h

theorem Quiet.front (hc : isQuote c = false) (h : front l (c :: cs) = .ok found) :
    Quiet (c :: cs) found.size := by
  rw [Lexer.front] at h
  split at h
  · rename_i hkeyword
    cases h
    obtain ⟨written, hmem, ⟨rest, hcs⟩, rfl⟩ := spelling_of_keyword hkeyword
    exact ⟨written, rest, hcs.symm, rfl, Word.ne_nil_of_mem_spellings hmem,
      not_isQuote_of_mem_spelling hmem⟩
  · obtain ⟨written, rest, hcs, hne, hsize, -⟩ := startsWith_lexeme (by simp) h
    have hquiet := not_isQuote_of_mem_lexeme (by simp) hc h
    rw [hcs, ← hsize, List.take_left] at hquiet
    exact ⟨written, rest, hcs, hsize, hne, hquiet⟩

/-- A lexeme is a part of its text, with at least one character, and it leaves no quote open. -/
theorem exists_span (h : front l (c :: cs) = .ok found) :
    ∃ span rest, cs = span ++ rest ∧ (c :: span).length = found.size ∧
      Text.quoteAfter none (c :: span) = none := by
  by_cases hc : isQuote c = true
  · obtain ⟨body, rest, rfl, hbody⟩ := exists_of_front_quoted hc h
    rw [front_quoted hc hbody] at h
    cases h
    exact ⟨body ++ [c], rest, by simp, by simp, Text.quoteAfter_string hc hbody⟩
  · obtain ⟨span, rest, hcs, hsize, hne, hspan⟩ := Quiet.front (Bool.eq_false_iff.2 hc) h
    obtain ⟨d, span, rfl⟩ := List.exists_cons_of_ne_nil hne
    obtain ⟨rfl, rfl⟩ := List.cons.inj hcs
    exact ⟨span, rest, rfl, hsize, Text.quoteAfter_of_not_isQuote hspan⟩

/-! ## Tokens that are quoted text -/

theorem Spells.eq_of_string_mem {written : List Char} {tokens : List Token}
    (h : Spells l written tokens) {s : String} (hs : .string s ∈ tokens) :
    tokens = [.string s] := by
  cases h <;> simp_all

/-- A quoted text is read where a quote stands: it goes up to the next one. -/
theorem exists_of_mem_front {s : String} (h : front l (c :: cs) = .ok found)
    (hs : .string s ∈ found.tokens) :
    ∃ rest, isQuote c = true ∧ c ∉ s.toList ∧ cs = s.toList ++ c :: rest ∧
      found.tokens = [.string s] := by
  have hc : isQuote c = true := by
    rw [front] at h
    split at h
    · cases h
      simp at hs
    · obtain ⟨written, rest, -, -, -, hspells⟩ := startsWith_lexeme (by simp) h
      exact (lexeme_kinds h).2 s (hspells.eq_of_string_mem hs)
  obtain ⟨body, rest, rfl, hbody⟩ := exists_of_front_quoted hc h
  rw [front_quoted hc hbody] at h
  cases h
  obtain rfl : s = String.ofList body := by simpa using hs
  rw [String.toList_ofList]
  exact ⟨rest, hc, hbody, rfl, rfl⟩

/-! ## The places that the lexer comes to -/

theorem length_marks (before : Option Char) (gap : List Char) (ts : List Token) :
    (marks before gap ts).length = ts.length := by
  cases ts with
  | nil => rfl
  | cons t ts => simp [marks]

/-- Lexed from its start on, a text is cut into what has been read and the rest. There are `i` whole
statements and `j` more tokens in the first part. -/
inductive Reaches (l : Lexicon) (text : List Char) : Nat → Nat → List Char → List Char → Prop
  | start : Reaches l text 0 0 [] text
  | space {i j : Nat} {before rest : List Char} {c : Char}
      (h : Reaches l text i j before (c :: rest)) (hc : isSpacing c = true) :
      Reaches l text i j (before ++ [c]) rest
  | lexeme {i j : Nat} {before span rest : List Char} {c : Char} {found : Lexeme}
      (h : Reaches l text i j before (c :: span ++ rest)) (hspace : isSpacing c = false)
      (hcolon : c ≠ ':') (hfront : front l (c :: span ++ rest) = .ok found)
      (hsize : (c :: span).length = found.size) (hrem : found.tokens ≠ [.word .REM]) :
      Reaches l text i (j + found.tokens.length) (before ++ c :: span) rest
  | colon {i j : Nat} {before rest : List Char} (h : Reaches l text i j before (':' :: rest))
      (hj : 0 < j) : Reaches l text (i + 1) 0 (before ++ [':']) rest

namespace Reaches

variable {text before rest after : List Char} {i j : Nat} {tokens : List Token}

theorem append_eq (h : Reaches l text i j before rest) : before ++ rest = text := by
  induction h with
  | start => rfl
  | space _ _ ih => rw [← ih, List.append_assoc, List.singleton_append]
  | lexeme _ _ _ _ _ _ ih => rw [← ih, List.append_assoc]
  | colon _ _ ih => rw [← ih, List.append_assoc, List.singleton_append]

/-- Wherever the lexer looks for a lexeme, all quotes in front are closed. -/
theorem quoteAfter (h : Reaches l text i j before rest) : Text.quoteAfter none before = none := by
  induction h with
  | start => rfl
  | space _ hc ih =>
    rw [Text.quoteAfter_append, ih]
    have hquote := Text.not_isQuote_of_isBlank (Text.isBlank_of_isSpacing hc)
    exact Text.quoteAfter_of_not_isQuote (by simpa using hquote)
  | @lexeme i j before span rest c found _ _ _ hfront hsize _ ih =>
    obtain ⟨span', rest', hcs, hsize', hquote⟩ := exists_span hfront
    have hspan : span = span' := List.append_inj_left hcs (by simpa using hsize.trans hsize'.symm)
    rw [Text.quoteAfter_append, ih, hspan, hquote]
  | colon _ _ ih =>
    rw [Text.quoteAfter_append, ih]
    rfl

theorem skip {gap : List Char} (hgap : ∀ c ∈ gap, isSpacing c = true)
    (h : Reaches l text i j before (gap ++ rest)) : Reaches l text i j (before ++ gap) rest := by
  induction gap generalizing before with
  | nil => rwa [List.append_nil]
  | cons c gap ih =>
    have hnext := ih (fun x hx => hgap x (List.mem_cons_of_mem c hx))
      (h.space (hgap c List.mem_cons_self))
    rwa [List.append_assoc, List.singleton_append] at hnext

theorem gap (h : Reaches l text i j before rest) :
    Reaches l text i j (before ++ rest.takeWhile isSpacing) (rest.dropWhile isSpacing) :=
  skip (fun _ => Text.of_mem_takeWhile) (by rwa [List.takeWhile_append_dropWhile])

end Reaches

def ReadsText (l : Lexicon) (text : List Char) (i j : Nat) (s : String) : Prop :=
  ∃ before q after, isQuote q = true ∧ q ∉ s.toList ∧
    Reaches l text i j before (q :: (s.toList ++ q :: after))

def IsQuotedAt (tokens : List Token) (k : Nat) (s : String) : Prop :=
  tokens[k]? = some (.string s) ∧ ∀ m, k = m + 1 → tokens[m]? ≠ some (.word .REM)

theorem not_isQuotedAt_nil (k : Nat) (s : String) : ¬IsQuotedAt [] k s := by
  rintro ⟨hk, -⟩
  cases hk

theorem not_isQuotedAt_remark (remark : String) (k : Nat) (s : String) :
    ¬IsQuotedAt [.word .REM, .string remark] k s := by
  rintro ⟨hk, hbehind⟩
  match k with
  | 0 => cases hk
  | 1 => exact hbehind 0 rfl rfl
  | k + 2 => cases hk

theorem IsQuotedAt.append_cases {first more : List Token} {k : Nat} {s : String}
    (h : IsQuotedAt (first ++ more) k s) :
    first[k]? = some (.string s) ∨ ∃ m, k = first.length + m ∧ IsQuotedAt more m s := by
  obtain ⟨hk, hbehind⟩ := h
  by_cases hlt : k < first.length
  · rw [List.getElem?_append_left hlt] at hk
    exact .inl hk
  · obtain ⟨m, rfl⟩ := Nat.exists_eq_add_of_le (Nat.le_of_not_lt hlt)
    rw [List.getElem?_append_right (Nat.le_add_right _ _), Nat.add_sub_cancel_left] at hk
    refine .inr ⟨m, rfl, hk, fun n hn hrem => ?_⟩
    subst hn
    refine hbehind (first.length + n) rfl ?_
    rwa [List.getElem?_append_right (Nat.le_add_right _ _), Nat.add_sub_cancel_left]

namespace Reaches

variable {text before rest after : List Char} {i j : Nat}

theorem next (h : Reaches l text i j before rest) (hd : rest.dropWhile isSpacing = c :: cs)
    (hcolon : c ≠ ':') (hf : front l (c :: cs) = .ok found) (hrem : found.tokens ≠ [.word .REM]) :
    (∀ k s, found.tokens[k]? = some (.string s) → ReadsText l text i (j + k) s) ∧
      ∃ front, Reaches l text i (j + found.tokens.length) front (cs.drop (found.size - 1)) := by
  have hplace := h.gap
  rw [hd] at hplace
  have hspace : isSpacing c = false := by
    have := List.head?_dropWhile_not isSpacing rest
    rwa [hd] at this
  constructor
  · intro k s hk
    obtain ⟨after, hc, hs, rfl, htokens⟩ := exists_of_mem_front hf (List.mem_of_getElem? hk)
    have hk : k = 0 := by
      rw [htokens] at hk
      exact Nat.lt_one_iff.1 (List.getElem?_eq_some_iff.1 hk).1
    subst hk
    exact ⟨_, c, after, hc, hs, hplace⟩
  · obtain ⟨span, after, rfl, hsize, -⟩ := exists_span hf
    refine ⟨before ++ rest.takeWhile isSpacing ++ c :: span, ?_⟩
    rw [← hsize, List.length_cons, Nat.add_sub_cancel, List.drop_left]
    exact hplace.lexeme hspace hcolon hf hsize hrem

/-- Behind a statement the lexer comes to the next one, unless the line ends. On the way it has read
the texts in quotes. -/
theorem statement {ms : List Mark} {b : Option Char} (h : Reaches l text i j before rest)
    (hs : marked l b rest = .ok (ms, after)) :
    (∀ k s, IsQuotedAt (ms.map Mark.token) k s → ReadsText l text i (j + k) s) ∧
      (0 < j + ms.length → after = [] ∨ ∃ front, Reaches l text (i + 1) 0 front after) := by
  fun_induction marked l b rest generalizing ms before j with
  | case1 b rest hd =>
    cases hs
    exact ⟨fun k s hk => absurd hk (not_isQuotedAt_nil k s), fun _ => .inl rfl⟩
  | case2 b rest cs hd hlt =>
    cases hs
    have hplace := h.gap
    rw [hd] at hplace
    exact ⟨fun k s hk => absurd hk (not_isQuotedAt_nil k s), fun hj => .inr ⟨_, hplace.colon hj⟩⟩
  | case3 => cases hs
  | case4 b rest gap c cs hd hlt hc found hf =>
    cases hs
    exact ⟨fun k s hk => absurd hk (not_isQuotedAt_remark _ k s), fun _ => .inl rfl⟩
  | case5 b rest gap c cs hd hlt hc found hf =>
    rename_i hrem ih
    cases hmore : marked l ((c :: cs).take found.size).getLast? (cs.drop (found.size - 1)) with
    | error f =>
      rw [hmore] at hs
      cases hs
    | ok more =>
      rw [hmore] at hs
      cases hs
      obtain ⟨hlexeme, front, hnext⟩ := h.next hd hc hf hrem
      obtain ⟨hread, hend⟩ := ih hnext hmore
      refine ⟨fun k s hk => ?_, fun hj => hend ?_⟩
      · rw [List.map_append, token_marks] at hk
        rcases hk.append_cases with hk | ⟨m, rfl, hm⟩
        · exact hlexeme k s hk
        · rw [← Nat.add_assoc]
          exact hread m s hm
      · rw [List.length_append, length_marks] at hj
        omega

end Reaches

end Lexer

open Lexer (Mark Reaches ReadsText IsQuotedAt)

theorem Token.getElem?_markUnaryFrom {b : Bool} {ts : List Token} {t : Token}
    (ht : ∀ op, t ≠ .operator op ∧ t ≠ .unary op) (j : Nat) :
    (markUnaryFrom b ts)[j]? = some t ↔ ts[j]? = some t := by
  fun_induction markUnaryFrom b ts generalizing j with
  | case1 b => rfl
  | case2 b op rest ih =>
    cases j with
    | zero =>
      refine iff_of_false (fun h => ?_) fun h => (ht op).1 (Option.some.inj h).symm
      have h := (Option.some.inj h).symm
      split at h
      · exact (ht op).2 h
      · exact (ht op).1 h
    | succ j => exact ih j
  | case3 b u rest hop ih =>
    cases j with
    | zero => rfl
    | succ j => exact ih j

theorem isQuotedAt_markUnary {ts : List Token} {k : Nat} {s : String}
    (h : IsQuotedAt (Token.markUnary ts) k s) : IsQuotedAt ts k s :=
  ⟨(Token.getElem?_markUnaryFrom (by simp) k).1 h.1,
    fun m hm hrem => h.2 m hm ((Token.getElem?_markUnaryFrom (by simp) m).2 hrem)⟩

theorem markedAll_nil (l : Lexicon) (b : Option Char) : markedAll l b [] = .ok [] := by
  have hm : Lexer.marked l b [] = .ok ([], []) := by
    rw [Lexer.marked]
    rfl
  rw [markedAll]
  split <;> rename_i heq <;> cases hm.symm.trans heq
  rfl

/-- Each token of a line that is a text in quotes is read at a place that the lexer comes to. -/
theorem readsText_of_markedAll {l : Lexicon} {text before rest : List Char} {i : Nat}
    {b : Option Char} {mss : List (List Mark)} (h : Reaches l text i 0 before rest)
    (hm : markedAll l b rest = .ok mss) {k j : Nat} {ms : List Mark} {s : String}
    (hk : mss[k]? = some ms) (hj : IsQuotedAt (ms.map Mark.token) j s) :
    ReadsText l text (i + k) j s := by
  fun_induction markedAll l b rest generalizing mss i before k with
  | case1 => cases hm
  | case2 b rest after hs =>
    cases hm
    cases hk
  | case3 b rest m ms' after hs hlt ih =>
    obtain ⟨hread, hend⟩ := h.statement hs
    cases hmore : markedAll l (some ':') after with
    | error f =>
      rw [hmore] at hm
      cases hm
    | ok more =>
      rw [hmore] at hm
      cases hm
      cases k with
      | zero =>
        cases hk
        have := hread j s hj
        rwa [Nat.zero_add] at this
      | succ k =>
        rcases hend (by simp) with rfl | ⟨front, hnext⟩
        · rw [markedAll_nil] at hmore
          cases hmore
          cases hk
        · have := ih hnext hmore hk
          rwa [Nat.add_right_comm] at this

end LineBasic
