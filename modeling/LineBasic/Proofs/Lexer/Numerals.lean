import LineBasic.Expression.Literal
import LineBasic.Proofs.Number.Integer
import LineBasic.Proofs.Run
import LineBasic.Proofs.Lexer.Positions

/-!
# The values of number tokens

The lexer cuts numerals out of a text, and the evaluator reads each of them again by itself. Both
see the same numeral: an integer token has the value that its digits stand for, and every real token
has a value. Main statement: `scanners_take_longest_numerals`.
-/

set_option autoImplicit false

namespace LineBasic

open Number

/-- What a token promises about its text: an integer is the one that its numeral stands for, and a
real can be read. -/
def Token.HasValue : Token → Prop
  | .integer text => ∃ v, integerValue text = .ok (.integer v) ∧ Denotes text.toList v
  | .number text => ∃ x, numberValue text = .ok (.real x)
  | _ => True

theorem Token.mem_of_mem_markUnaryFrom {b : Bool} {tokens : List Token} {t : Token}
    (h : t ∈ markUnaryFrom b tokens) : t ∈ tokens ∨ ∃ op, t = .unary op := by
  fun_induction markUnaryFrom b tokens with
  | case1 => cases h
  | case2 b op rest ih =>
    rcases List.mem_cons.1 h with rfl | h
    · split
      · exact .inr ⟨op, rfl⟩
      · exact .inl List.mem_cons_self
    · exact (ih h).imp_left (List.mem_cons_of_mem _)
  | case3 b t' rest hop ih =>
    rcases List.mem_cons.1 h with rfl | h
    · exact .inl List.mem_cons_self
    · exact (ih h).imp_left (List.mem_cons_of_mem _)

theorem numberValue_of_mem {text : List Char} (h : text ∈ realGrammar.matches') :
    ∃ x, numberValue (String.ofList text) = .ok (.real x) := by
  rw [numberValue, String.toList_ofList]
  split
  · exact ⟨0, rfl⟩
  · obtain ⟨x, hx⟩ := whole_scanReal h
    rw [hx]
    exact ⟨x, rfl⟩

theorem integerValue_of_scanInteger {text : List Char} {v : Int64} {n : Nat}
    (h : scanInteger text = some (v, n)) (hn : text.length = n) :
    integerValue (String.ofList text) = .ok (.integer v) := by
  rw [integerValue, String.toList_ofList, whole?, h]
  simp [hn]

namespace Lexer

variable {l : Lexicon} {packed dotAsZero : Bool} {c : Char} {cs : List Char} {found : Lexeme}

theorem hasValue_number (h : number? dotAsZero cs = some found) :
    ∀ t ∈ found.tokens, t.HasValue := by
  rw [number?] at h
  split at h
  · rename_i v n hscan
    cases h
    obtain ⟨hlength, hagain, hdenotes⟩ := scanInteger_take hscan
    intro t ht
    rw [List.mem_singleton.1 ht]
    refine ⟨v, integerValue_of_scanInteger hagain hlength, ?_⟩
    rwa [String.toList_ofList]
  · split at h
    · rename_i x n hscan
      cases h
      obtain ⟨numeral, hlongest, rfl⟩ := exists_scanReal_iff.1 ⟨x, hscan⟩
      intro t ht
      rw [List.mem_singleton.1 ht, hlongest.take_length]
      exact numberValue_of_mem hlongest.mem
    · split at h
      · cases h
        intro t ht
        rw [List.mem_singleton.1 ht]
        exact ⟨0, if_pos rfl⟩
      · cases h

theorem hasValue_reference (first : Char) (cs : List Char) :
    ∀ t ∈ (reference l packed first cs).tokens, t.HasValue := by
  rw [reference]
  dsimp only
  split
  · split <;> simp [Token.HasValue]
  · simp [Token.HasValue]

theorem hasValue_punctuation (h : punctuation l packed c cs = .ok found) :
    ∀ t ∈ found.tokens, t.HasValue := by
  rw [punctuation] at h
  split at h
  · cases h
    simp [Token.HasValue]
  · split at h
    · cases h
      simp [Token.HasValue]
    · split at h
      · cases h
        simp [Token.HasValue]
      · split at h
        · rw [handle] at h
          split at h <;> cases h
          simp [Token.HasValue]
        · split at h <;> cases h
          exact hasValue_reference c cs

theorem hasValue_lexeme (h : lexeme l packed dotAsZero c cs = .ok found) :
    ∀ t ∈ found.tokens, t.HasValue := by
  rw [lexeme] at h
  split at h
  · cases h
    simp [Token.HasValue]
  · split at h
    · rw [quoted] at h
      split at h <;> cases h
      simp [Token.HasValue]
    · split at h
      · cases h
        simp [Token.HasValue]
      · split at h
        · rename_i hnumber
          cases h
          exact hasValue_number hnumber
        · exact hasValue_punctuation h

theorem hasValue_statement {text rest : List Char} {tokens : List Token}
    (h : statement l packed dotAsZero text = .ok (tokens, rest)) : ∀ t ∈ tokens, t.HasValue := by
  fun_induction statement l packed dotAsZero text generalizing tokens with
  | case1 => cases h; simp
  | case2 => cases h; simp
  | case3 => cases h; simp [Token.HasValue]
  | case4 packed text c cs hc hlt hcolon w size hw hk ih =>
    cases hs : statement l (packed && w != .DATA) dotAsZero (cs.drop (size - 1)) with
    | error f =>
      rw [hs] at h
      cases h
    | ok more =>
      rw [hs] at h
      cases h
      intro t ht
      rcases List.mem_cons.1 ht with rfl | ht
      · trivial
      · exact ih hs t ht
  | case5 => cases h
  | case6 packed text c cs hc hlt hcolon hk found hf ih =>
    cases hs : statement l packed dotAsZero (cs.drop (found.size - 1)) with
    | error f =>
      rw [hs] at h
      cases h
    | ok more =>
      rw [hs] at h
      cases h
      intro t ht
      rcases List.mem_append.1 ht with ht | ht
      · exact hasValue_lexeme hf t ht
      · exact ih hs t ht

end Lexer

theorem hasValue_lexStatement {l : Lexicon} {o : LexOptions} {line : String} {offset next : Nat}
    {tokens : List Token} (h : lexStatement l o line offset = .ok (tokens, next)) :
    ∀ t ∈ tokens, t.HasValue := by
  obtain ⟨text, lexed, rest, -, hlex, rfl, -⟩ := lexStatement_eq_ok h
  intro t ht
  rcases Token.mem_of_mem_markUnaryFrom ht with ht | ⟨op, rfl⟩
  · exact Lexer.hasValue_statement hlex t ht
  · trivial

/-- The scanners take the longest numeral of an exact grammar. A real is scanned where some prefix
of the text is a real, and as far as the longest one goes. A decimal integer is scanned where that
longest real is an integer and fits into 64 bits, and a hexadecimal integer where the whole run of
hexadecimal digits behind the dollar sign fits, whose bits it then has. So every integer token has
the value that its numeral stands for, and every real token has a value. -/
theorem scanners_take_longest_numerals :
    (∀ text : List Char,
      ((scanReal text).isSome = true ↔
        ∃ numeral, numeral <+: text ∧ numeral ∈ realGrammar.matches') ∧
      ∀ n, (∃ x, scanReal text = some (x, n)) ↔
        ∃ numeral, Longest realGrammar text numeral ∧ numeral.length = n) ∧
    (∀ (text : List Char) (v : Int64) (n : Nat), text.head? ≠ some '$' →
      (scanInteger text = some (v, n) ↔
        ∃ numeral, Longest realGrammar text numeral ∧ numeral ∈ integerGrammar.matches' ∧
          numeral.length = n ∧ v.toInt = decimalInt numeral)) ∧
    (∀ (text : List Char) (v : Int64) (n : Nat),
      scanInteger ('$' :: text) = some (v, n) ↔
        ∃ digits, Longest hexGrammar text digits ∧ digits.length + 1 = n ∧
          hexNat digits < UInt64.size ∧ v.toBitVec = BitVec.ofNat 64 (hexNat digits)) ∧
    ∀ (l : Lexicon) (o : LexOptions) (line : String) (offset next : Nat) (tokens : List Token),
      lexStatement l o line offset = .ok (tokens, next) → ∀ text : String,
        (.integer text ∈ tokens →
          ∃ v, integerValue text = .ok (.integer v) ∧ Denotes text.toList v) ∧
        (.number text ∈ tokens → ∃ x, numberValue text = .ok (.real x)) := by
  refine ⟨fun text => ⟨?_, fun n => exists_scanReal_iff⟩, fun text v n h => ?_,
    fun text v n => scanHex_eq_some_iff, fun l o line offset next tokens h text => ⟨?_, ?_⟩⟩
  · constructor
    · intro h
      obtain ⟨found, hfound⟩ := Option.isSome_iff_exists.1 h
      obtain ⟨numeral, hlongest, -⟩ := exists_scanReal_iff.1 ⟨found.1, hfound⟩
      exact ⟨numeral, hlongest.start, hlongest.mem⟩
    · rintro ⟨numeral, hstart, hmem⟩
      obtain ⟨n, hn, -⟩ := scanRealNumeral_complete hstart hmem
      obtain ⟨r, hr, -⟩ := Option.map_eq_some_iff.1 hn
      rw [scanReal, hr]
      rfl
  · rw [scanInteger_eq_scanDecimal h]
    exact scanDecimal_eq_some_iff
  · exact hasValue_lexStatement h _
  · exact hasValue_lexStatement h _

/-- An exponent mark without digits does not belong to the numeral in front of it, and an integer
that does not fit is a real. -/
theorem scanners_take_longest_numerals_before_mark :
    let line := "A=12E+$FFFFFFFFFFFFFFFF*9223372036854775808"
    let tokens : List Token := [.ident "A", .operator .equal, .integer "12", .ident "E",
      .operator .plus, .integer "$FFFFFFFFFFFFFFFF", .operator .times,
      .number "9223372036854775808"]
    ("12E+".toList.head? ≠ some '$' ∧ scanInteger "12E+".toList = some (12, 2) ∧
      ∃ numeral, Longest realGrammar "12E+".toList numeral ∧ numeral ∈ integerGrammar.matches' ∧
        numeral.length = 2 ∧ (12 : Int64).toInt = decimalInt numeral) ∧
    lexStatement {} {} line 0 = .ok (tokens, 43) ∧
      (∃ v, integerValue "$FFFFFFFFFFFFFFFF" = .ok (.integer v) ∧
        Denotes "$FFFFFFFFFFFFFFFF".toList v) ∧
      ∃ x, numberValue "9223372036854775808" = .ok (.real x) := by
  intro line tokens
  obtain ⟨-, hinteger, -, htokens⟩ := scanners_take_longest_numerals
  have hhead : "12E+".toList.head? ≠ some '$' := by decide
  have hscan : scanInteger "12E+".toList = some (12, 2) := by decide +kernel
  have hlex : lexStatement {} {} line 0 = .ok (tokens, 43) := eq_ok_of_toOption (by decide +kernel)
  have hread := htokens {} {} line 0 43 tokens hlex
  exact ⟨⟨hhead, hscan, (hinteger _ 12 2 hhead).1 hscan⟩, hlex,
    (hread "$FFFFFFFFFFFFFFFF").1 (by decide), (hread "9223372036854775808").2 (by decide)⟩

end LineBasic
