import LineBasic.Proofs.Expression.Parameters
import LineBasic.Proofs.Lexer.Numerals
import LineBasic.Proofs.Lexer.Packed
import LineBasic.Proofs.Text.Lines

/-!
# Integers read back

An integer has a written form in sixteen hexadecimal digits, which are its bits, and one in decimal
digits with a sign. Each of them is read back as the integer it was made from, over the whole range
of 64 bits: by the function for hexadecimal texts, by the lexer behind a dollar sign, by the
conversion of texts, and by the evaluator where the integer stands in place of a parameter. Main
statement: `integers_read_back`.
-/

set_option autoImplicit false

namespace LineBasic

open Number

/-! ## Hexadecimal digits -/

namespace Number

/-- The sixteen digits have the values that they are written for. -/
theorem hexDigitValue_digitChar : ∀ d < 16,
    isHexDigit (Nat.digitChar d).toUpper = true ∧ hexDigitValue (Nat.digitChar d).toUpper = d := by
  decide

theorem hexValue_append (cs ds : List Char) (c : Char) :
    hexValue (cs ++ c :: ds) = ds.foldl (fun n c => 16 * n + hexDigitValue c)
      (16 * hexValue cs + hexDigitValue c) := by
  rw [hexValue, List.foldl_append]
  rfl

/-- Digits to the base sixteen are read back, and they are hexadecimal digits. -/
theorem hexValue_toDigits (n : Nat) :
    hexValue ((Nat.toDigits 16 n).map Char.toUpper) = n ∧
      ∀ c ∈ (Nat.toDigits 16 n).map Char.toUpper, isHexDigit c = true := by
  induction n using Nat.strong_induction_on with
  | _ n ih =>
    by_cases hn : n < 16
    · obtain ⟨hdigit, hvalue⟩ := hexDigitValue_digitChar n hn
      rw [Nat.toDigits_of_lt_base hn]
      exact ⟨by simp [hexValue, hvalue], by simpa using hdigit⟩
    · obtain ⟨hdigit, hvalue⟩ := hexDigitValue_digitChar (n % 16) (Nat.mod_lt n (by decide))
      obtain ⟨hfront, hall⟩ := ih (n / 16) (Nat.div_lt_self (by omega) (by decide))
      rw [Nat.toDigits_of_base_le (by decide) (Nat.le_of_not_lt hn), List.map_append]
      constructor
      · rw [List.map_singleton, hexValue_append, hfront, hvalue]
        exact Nat.div_add_mod n 16
      · intro c hc
        rcases List.mem_append.1 hc with hc | hc
        · exact hall c hc
        · rwa [List.mem_singleton.1 hc]

theorem hexValue_replicate_zero (k : Nat) (ds : List Char) :
    hexValue (List.replicate k '0' ++ ds) = hexValue ds := by
  induction k with
  | zero => rfl
  | succ k ih => exact ih

end Number

theorem hexValue_hexDigits (n : Int64) : hexValue (hexDigits n) = n.toUInt64.toNat := by
  rw [hexDigits, hexValue_replicate_zero, (hexValue_toDigits _).1]

theorem isHexDigit_of_mem_hexDigits {n : Int64} {c : Char} (h : c ∈ hexDigits n) :
    isHexDigit c = true := by
  rcases List.mem_append.1 h with h | h
  · rw [List.eq_of_mem_replicate h]
    rfl
  · exact (hexValue_toDigits _).2 c h

theorem hexDigits_ne_nil (n : Int64) : hexDigits n ≠ [] := by
  simp [hexDigits, Nat.toDigits_ne_nil]

theorem hexDigits_fit (n : Int64) : hexValue (hexDigits n) < UInt64.size := by
  rw [hexValue_hexDigits]
  exact n.toUInt64.toNat_lt_size

theorem toInt64_hexValue (n : Int64) : (hexValue (hexDigits n)).toUInt64.toInt64 = n := by
  rw [hexValue_hexDigits]
  simp

theorem not_isBlank_of_isHexDigit {c : Char} (h : isHexDigit c = true) : Text.isBlank c = false := by
  have hall : "0123456789ABCDEFabcdef".toList.all (fun c => !Text.isBlank c) = true := by decide
  simpa using List.all_eq_true.1 hall c (mem_hexDigits_iff.2 h)

theorem dropWhile_isBlank {cs : List Char} (h : ∀ c ∈ cs, Text.isBlank c = false) :
    cs.dropWhile Text.isBlank = cs := by
  cases cs with
  | nil => rfl
  | cons c cs => simp [h c List.mem_cons_self]

theorem trim_eq_self {cs : List Char} (h : ∀ c ∈ cs, Text.isBlank c = false) :
    Text.dropTrailing Text.isBlank (cs.dropWhile Text.isBlank) = cs := by
  rw [dropWhile_isBlank h]
  exact Text.dropTrailing_of_getLast fun c hc => h c (List.mem_of_getLast? hc)

theorem ofHexDigits?_hexDigits (n : Int64) : ofHexDigits? (hexDigits n) = some n := by
  have hall : (hexDigits n).all isHexDigit = true :=
    List.all_eq_true.2 fun c hc => isHexDigit_of_mem_hexDigits hc
  have hsign : ∀ rest, hexDigits n ≠ '+' :: rest := by
    intro rest heq
    have hplus : isHexDigit '+' = true :=
      isHexDigit_of_mem_hexDigits (heq ▸ List.mem_cons_self)
    cases hplus
  unfold ofHexDigits?
  extract_lets digits
  have hdigits : digits = hexDigits n := by
    unfold digits
    split
    · rename_i rest heq
      exact absurd heq (hsign rest)
    · rfl
  simp only [hdigits]
  rw [if_pos ⟨hexDigits_ne_nil n, hall, hexDigits_fit n⟩, toInt64_hexValue]

/-! ## Behind a dollar sign -/

theorem scanInteger_hexDigits (n : Int64) :
    scanInteger ('$' :: hexDigits n) = some (n, ('$' :: hexDigits n).length) := by
  have hall : ∀ c ∈ hexDigits n, isHexDigit c = true := fun c => isHexDigit_of_mem_hexDigits
  have hmem : hexDigits n ∈ hexGrammar.matches' := mem_hexGrammar.2 ⟨hexDigits_ne_nil n, hall⟩
  have hfits := hexDigits_fit n
  have hbits : n.toBitVec = BitVec.ofNat 64 (hexValue (hexDigits n)) := by
    rw [hexValue_hexDigits]
    simp
  rw [hexValue_eq_hexNat hall] at hfits hbits
  exact scanHex_eq_some_iff.2 ⟨hexDigits n, .self hmem, rfl, hfits, hbits⟩

namespace Lexer

variable {l : Lexicon} {packed : Bool} {c : Char} {cs : List Char}

theorem keyword?_dollar (packed : Bool) (cs : List Char) : keyword? packed ('$' :: cs) = none := by
  have hall : Word.spellings.all (fun e => e.1.head? != some '$') = true := by decide
  cases hfound : keyword? packed ('$' :: cs) with
  | none => rfl
  | some found =>
    obtain ⟨written, hmem, ⟨rest, hcs⟩, -⟩ := spelling_of_keyword hfound
    obtain ⟨d, ds, rfl⟩ := List.exists_cons_of_ne_nil (Word.ne_nil_of_mem_spellings hmem)
    obtain ⟨rfl, -⟩ := List.cons.inj hcs
    have hhead := List.all_eq_true.1 hall _ hmem
    simp at hhead

/-- What starts with a dollar sign is a command only where one is called so. -/
theorem command?_dollar
    (hl : packed = true → ∀ name ∈ l.commands, ¬name.toList <+: '$' :: cs) :
    command? l packed ('$' :: cs) = none := by
  cases hfound : command? l packed ('$' :: cs) with
  | none => rfl
  | some found =>
    obtain ⟨hmem, hstart, -, hpacked | ⟨hne, hrun⟩⟩ := command?_eq_some hfound
    · exact absurd hstart (hl hpacked _ hmem)
    · obtain ⟨d, ds, hname⟩ := List.exists_cons_of_ne_nil hne
      rw [hname] at hstart hrun
      obtain ⟨rfl, -⟩ := List.cons_prefix_cons.1 hstart
      cases hrun _ List.mem_cons_self

theorem operator?_dollar (packed : Bool) (cs : List Char) :
    operator? packed ('$' :: cs) = none := by
  rw [operator?, operatorPrefix?_eq_none rfl]
  exact signOperator?_eq_none rfl rfl cs

/-- A dollar sign and hexadecimal digits to the end of the line are one integer. -/
theorem statement_hexDigits (n : Int64) (dotAsZero : Bool)
    (hl : packed = true → ∀ name ∈ l.commands, ¬name.toList <+: '$' :: hexDigits n) :
    statement l packed dotAsZero ('$' :: hexDigits n) =
      .ok ([.integer (String.ofList ('$' :: hexDigits n))], []) := by
  have hnumber : number? dotAsZero ('$' :: hexDigits n) =
      some ⟨[.integer (String.ofList ('$' :: hexDigits n))], ('$' :: hexDigits n).length⟩ := by
    rw [number?, scanInteger_hexDigits]
    dsimp only
    rw [List.take_length]
  have hlexeme : lexeme l packed dotAsZero '$' (hexDigits n) =
      .ok ⟨[.integer (String.ofList ('$' :: hexDigits n))], ('$' :: hexDigits n).length⟩ := by
    rw [lexeme, command?_dollar hl, operator?_dollar, hnumber]
    rfl
  have hrest : (hexDigits n).drop (('$' :: hexDigits n).length - 1) = [] := by
    rw [List.length_cons, Nat.add_sub_cancel, List.drop_length]
  rw [statement_of_lexeme rfl (by decide) (keyword?_dollar packed _) hlexeme, hrest,
    statement_of_nil rfl]
  rfl

end Lexer

theorem lexStatement_hexDigits {l : Lexicon} {o : LexOptions} (n : Int64)
    (hl : o.packed = true → ∀ name ∈ l.commands, ¬name.toList <+: '$' :: hexDigits n) :
    lexStatement l o (String.ofList ('$' :: hexDigits n)) 0 =
      .ok ([.integer (String.ofList ('$' :: hexDigits n))],
        Text.byteLength ('$' :: hexDigits n)) := by
  rw [lexStatement, String.toList_ofList, Text.dropBytes]
  dsimp only
  rw [Lexer.statement_hexDigits n _ hl]
  simp [Token.markUnary, Token.markUnaryFrom, Text.byteLength]

/-! ## Decimal digits -/

theorem not_isBlank_of_mem_toString {n : Int} {c : Char} (h : c ∈ (toString n).toList) :
    Text.isBlank c = false := by
  by_cases hn : 0 ≤ n
  · exact Text.not_isBlank_of_isDigit (isDigit_of_mem_toString hn h)
  · rw [toList_toString_of_neg (Int.not_le.1 hn)] at h
    rcases List.mem_cons.1 h with rfl | h
    · rfl
    · exact Text.not_isBlank_of_isDigit (isDigit_of_mem_toString (by omega) h)

/-- The decimal text of an integer stands for that integer. -/
theorem toInt_text_toString (n : Int64) : (Value.text (toString n.toInt)).toInt = .ok n := by
  rw [Value.toInt, dropWhile_isBlank fun c => not_isBlank_of_mem_toString, whole?,
    scanInteger_toString]
  simp

/-- What a value stands as in a function body has that value. -/
theorem evaluateSingle_token (v : Value) (m : Machine) :
    evaluateSingle [v.token] m = .ok v m := by
  have hliteral : (Formula.leaf v.token).Ordered := by cases v <;> rfl
  have hlength : (Formula.leaf v.token).tokens.length ≤ Frame.maxPending := by
    rw [Formula.tokens, List.length_singleton]
    decide
  have hfits := (Formula.leaf v.token).fits_of_length_le hlength hlength
  have heval : (Formula.leaf v.token).evalWithin Frame.maxPending Frame.maxPending = .ok v := by
    rw [Formula.evalWithin_eq, if_pos hfits]
    exact Value.literalValue_token v
  have htokens := evaluateSingleWith_tokens (callDefined maxCallDepth) hliteral m
  rw [heval] at htokens
  exact htokens

theorem substitute_parameter {name : String} {args : List (String × Value)} {v w : Value}
    (hfind : Table.find? name args = some v) (hw : Value.coerceFor name v = .ok w) :
    substitute args false [.ident name] = .ok [w.token] := by
  simp [substitute, hfind, hw]

/-- The written forms of an integer are read back as that integer. Its sixteen hexadecimal digits are
read by the function for them. Behind a dollar sign they are one token with its value, unless
commands may be glued to what follows them and one is called like the start of that text. Its
decimal text stands for it, and so does the token of that text, which takes the place of a parameter
for integers in the body of a defined function. -/
theorem integers_read_back (n : Int64) :
    ∃ hex decimal : String,
      (∀ m, BuiltinFunction.HEX.value m [.integer n] = .ok (.text hex) ∧
        BuiltinFunction.DEC.value m [.text hex] = .ok (.integer n)) ∧
      (∀ (l : Lexicon) (o : LexOptions),
        (o.packed = true → ∀ name ∈ l.commands, ¬name.toList <+: '$' :: hex.toList) →
        lexStatement l o ("$" ++ hex) 0 =
          .ok ([.integer ("$" ++ hex)], Text.byteLength ("$" ++ hex).toList)) ∧
      integerValue ("$" ++ hex) = .ok (.integer n) ∧
      (∀ m, BuiltinFunction.STR.value m [.integer n] = .ok (.text decimal)) ∧
      (Value.text decimal).toInt = .ok n ∧
      ∀ (name : String) (args : List (String × Value)) (v : Value), Kind.ofName name = .integer →
        Table.find? name args = some v → v.toInt = .ok n →
        substitute args false [.ident name] = .ok [.integer decimal] ∧
          ∀ m, evaluateSingle [.integer decimal] m = .ok (.integer n) m := by
  have htext : "$" ++ String.ofList (hexDigits n) = String.ofList ('$' :: hexDigits n) := by
    rw [← String.toList_inj]
    simp
  refine ⟨String.ofList (hexDigits n), toString n.toInt, fun m => ⟨rfl, ?_⟩, fun l o hl => ?_, ?_,
    fun m => rfl, toInt_text_toString n, fun name args v hname hfind hv => ⟨?_, ?_⟩⟩
  · have hblank : ∀ c ∈ hexDigits n, Text.isBlank c = false :=
      fun c hc => not_isBlank_of_isHexDigit (isHexDigit_of_mem_hexDigits hc)
    rw [BuiltinFunction.value]
    simp only [Arguments.one, Arguments.text, ok_bind, String.toList_ofList, trim_eq_self hblank,
      ofHexDigits?_hexDigits]
    rfl
  · rw [String.toList_ofList] at hl
    rw [htext, String.toList_ofList]
    exact lexStatement_hexDigits n hl
  · rw [htext]
    exact integerValue_of_scanInteger (scanInteger_hexDigits n) rfl
  · refine substitute_parameter (w := .integer n) hfind ?_
    rw [Value.coerceFor, hname, Value.coerce, hv]
    rfl
  · exact evaluateSingle_token (.integer n)

/-- The integer whose magnitude is none, behind a dollar sign and as an argument. -/
theorem integers_read_back_at_least_integer :
    let n := Int64.minValue
    let args := [("A", .text "X"), ("N%", Value.integer n)]
    (∀ name ∈ ["LOAD", "SAVE"], ¬name.toList <+: "$8000000000000000".toList) ∧
    Kind.ofName "N%" = .integer ∧ Table.find? "N%" args = some (.integer n) ∧
    lexStatement ⟨["LOAD", "SAVE"]⟩ ⟨true, false⟩ "$8000000000000000" 0 =
      .ok ([.integer "$8000000000000000"], 17) ∧
    integerValue "$8000000000000000" = .ok (.integer n) ∧
    substitute args false [.ident "N%"] = .ok [.integer "-9223372036854775808"] ∧
    evaluateSingle [.integer "-9223372036854775808"] {} = .ok (.integer n) {} := by
  intro n args
  obtain ⟨hex, decimal, hhex, hlex, hvalue, hdecimal, -, hparameter⟩ := integers_read_back n
  obtain rfl : "8000000000000000" = hex := by
    have hdigits : BuiltinFunction.HEX.value {} [.integer n] = .ok (.text "8000000000000000") :=
      eq_ok_of_toOption (by decide +kernel)
    exact Value.text.inj (Except.ok.inj (hdigits.symm.trans (hhex {}).1))
  obtain rfl : "-9223372036854775808" = decimal := by
    have hdigits : BuiltinFunction.STR.value {} [.integer n] =
      .ok (.text "-9223372036854775808") := eq_ok_of_toOption (by decide +kernel)
    exact Value.text.inj (Except.ok.inj (hdigits.symm.trans (hdecimal {})))
  have hnames : ∀ name ∈ ["LOAD", "SAVE"], ¬name.toList <+: "$8000000000000000".toList := by
    decide
  have hname : Kind.ofName "N%" = .integer := by decide +kernel
  have hfind : Table.find? "N%" args = some (.integer n) := by decide +kernel
  obtain ⟨hput, heval⟩ := hparameter "N%" args (.integer n) hname hfind rfl
  exact ⟨hnames, hname, hfind, hlex ⟨["LOAD", "SAVE"]⟩ ⟨true, false⟩ fun _ => hnames, hvalue, hput,
    heval {}⟩

end LineBasic
