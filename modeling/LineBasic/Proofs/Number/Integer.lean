import Mathlib.Data.Nat.Digits.Defs
import LineBasic.Proofs.Number.Grammar

/-!
# Integer numerals

A decimal integer is the longest real at the start of a text if that has neither point nor exponent
and its value fits into 64 bits. A hexadecimal integer is the run of hexadecimal digits behind a
dollar sign, if it fits into 64 bits, and these are the bits of the integer. A numeral that was
scanned is read back in the same way when it stands alone.
-/

set_option autoImplicit false

namespace LineBasic.Number

def decimalInt : List Char → Int
  | '-' :: digits => -(Nat.ofDigitChars 10 digits 0 : Int)
  | '+' :: digits => Nat.ofDigitChars 10 digits 0
  | digits => Nat.ofDigitChars 10 digits 0

/-- The number that hexadecimal digits stand for, each by its place in the row of the sixteen
digits. -/
def hexNat (digits : List Char) : Nat :=
  Nat.ofDigits 16 (digits.map fun c => "0123456789ABCDEF".toList.idxOf c.toUpper).reverse

/-- The integer that a numeral stands for: its decimal value, or the one with the bits that its
hexadecimal digits give. -/
def Denotes (numeral : List Char) (v : Int64) : Prop :=
  (numeral ∈ integerGrammar.matches' ∧ v.toInt = decimalInt numeral) ∨
    ∃ digits ∈ hexGrammar.matches', numeral = '$' :: digits ∧ hexNat digits < UInt64.size ∧
      v.toBitVec = BitVec.ofNat 64 (hexNat digits)

section

variable {text sign digits : List Char} {v : Int64} {n : Nat}

theorem int64OfInt?_eq_some {z : Int} : int64OfInt? z = some v ↔ v.toInt = z := by
  rw [int64OfInt?]
  split
  · rename_i hz
    have hval : (Int64.ofInt z).toInt = z :=
      Int64.toInt_ofInt_of_le hz.1 (Int.lt_of_le_of_lt hz.2 (by decide))
    rw [Option.some_inj]
    constructor
    · rintro rfl
      exact hval
    · intro hv
      exact Int64.toInt_inj.1 (hval.trans hv.symm)
  · rename_i hz
    refine iff_of_false (by simp) ?_
    rintro rfl
    exact hz ⟨Int64.minValue_le_toInt v, Int64.toInt_le v⟩

theorem decimalInt_append (hs : sign ∈ signPart.matches') (hne : digits ≠ [])
    (hd : ∀ c ∈ digits, c.isDigit = true) :
    decimalInt (sign ++ digits) =
      if sign = ['-'] then -(decimalValue digits : Int) else decimalValue digits := by
  rw [decimalValue_eq_ofDigitChars]
  rcases mem_signPart.1 hs with rfl | rfl | rfl
  · rfl
  · rfl
  · obtain ⟨d, ds, rfl⟩ := List.exists_cons_of_ne_nil hne
    obtain ⟨hplus, hminus⟩ := ne_sign_of_isDigit (hd d List.mem_cons_self)
    rw [List.nil_append, if_neg (by simp)]
    unfold decimalInt
    split
    · rename_i heq
      exact absurd (List.cons.inj heq).1 hminus
    · rename_i heq
      exact absurd (List.cons.inj heq).1 hplus
    · rfl

theorem mem_integerGrammar {numeral : List Char} : numeral ∈ integerGrammar.matches' ↔
    ∃ sign digits, numeral = sign ++ digits ∧ sign ∈ signPart.matches' ∧ digits ≠ [] ∧
      ∀ c ∈ digits, c.isDigit = true := by
  simp only [integerGrammar, mem_comp, mem_repeatedly_digit]

theorem mem_realGrammar_of_integer {numeral : List Char}
    (h : numeral ∈ integerGrammar.matches') : numeral ∈ realGrammar.matches' := by
  obtain ⟨sign, digits, rfl, hsign, hne, hd⟩ := mem_integerGrammar.1 h
  refine mem_comp.2 ⟨sign, digits, rfl, hsign, ?_⟩
  refine mem_comp.2 ⟨digits, [], (List.append_nil digits).symm, ?_, mem_exponentPart.2 (.inl rfl)⟩
  exact mem_mantissa.2 ⟨digits, [], (List.append_nil digits).symm, hd, .inl ⟨rfl, hne⟩⟩

/-- A numeral is the longest one of its text if it has the length that the scanner finds. -/
theorem longest_iff_size {numeral : List Char} (hstart : numeral <+: text) :
    Longest realGrammar text numeral ↔
      (scanRealNumeral text).map (·.size) = some numeral.length := by
  rw [size_scanRealNumeral_iff]
  constructor
  · intro h
    exact ⟨numeral, h, rfl⟩
  · rintro ⟨other, hother, hlength⟩
    rwa [← (List.prefix_of_prefix_length_le hother.start hstart hlength.le).eq_of_length hlength]

/-- The scanner of decimal integers on a text cut into sign, digits and the rest. -/
theorem scanDecimal_append {rest : List Char} (hs : sign ∈ signPart.matches') (hne : digits ≠ [])
    (hd : ∀ c ∈ digits, c.isDigit = true) (hrest : ∀ c ∈ rest.head?, c.isDigit = false) :
    scanDecimal (sign ++ (digits ++ rest)) = some (v, n) ↔
      Longest realGrammar (sign ++ (digits ++ rest)) (sign ++ digits) ∧
        (sign ++ digits).length = n ∧ v.toInt = decimalInt (sign ++ digits) := by
  have hsize : signOf (sign ++ (digits ++ rest)) = (decide (sign = ['-']), sign.length) :=
    signOf_append hs (ne_sign_of_digits hne hd)
  have hstart : sign ++ digits <+: sign ++ (digits ++ rest) :=
    ⟨rest, List.append_assoc sign digits rest⟩
  have hmem : sign ++ digits ∈ realGrammar.matches' :=
    mem_realGrammar_of_integer (mem_integerGrammar.2 ⟨sign, digits, rfl, hs, hne, hd⟩)
  obtain ⟨m, hm, hle⟩ := scanRealNumeral_complete hstart hmem
  have hlongest := longest_iff_size hstart
  obtain ⟨r, hr, hrm⟩ := Option.map_eq_some_iff.1 hm
  rw [hm, Option.some_inj] at hlongest
  rw [List.length_append] at hle hlongest
  rw [hlongest, scanDecimal, hsize, decimalInt_append hs hne hd, List.length_append]
  dsimp only
  rw [List.drop_left, digitRun_append hd hrest, if_neg (by simpa using hne), hr, Option.any_some,
    hrm]
  by_cases hlt : sign.length + digits.length < m
  · rw [if_pos (by simpa using hlt)]
    refine iff_of_false (by simp) ?_
    rintro ⟨hm, -⟩
    omega
  · rw [if_neg (by simpa using hlt), Option.map_eq_some_iff]
    simp only [decide_eq_true_eq]
    constructor
    · rintro ⟨u, hu, heq⟩
      obtain ⟨rfl, rfl⟩ := Prod.mk.inj heq
      exact ⟨by omega, rfl, int64OfInt?_eq_some.1 hu⟩
    · rintro ⟨-, rfl, hv⟩
      exact ⟨v, int64OfInt?_eq_some.2 hv, rfl⟩

/-- The scanner of decimal integers takes the longest real if that is an integer which fits. -/
theorem scanDecimal_eq_some_iff : scanDecimal text = some (v, n) ↔
    ∃ numeral, Longest realGrammar text numeral ∧ numeral ∈ integerGrammar.matches' ∧
      numeral.length = n ∧ v.toInt = decimalInt numeral := by
  constructor
  · intro h
    obtain ⟨sign, more, rfl, hsign, hsize⟩ := exists_signOf text
    obtain ⟨digits, rest, rfl, hd, hrest⟩ := Text.exists_run Char.isDigit more
    have hne : digits ≠ [] := by
      rintro rfl
      rw [scanDecimal, hsize] at h
      dsimp only at h
      rw [List.drop_left, digitRun_append hd hrest] at h
      cases h
    obtain ⟨hlongest, hn, hv⟩ := (scanDecimal_append hsign hne hd hrest).1 h
    exact ⟨sign ++ digits, hlongest, mem_integerGrammar.2 ⟨sign, digits, rfl, hsign, hne, hd⟩, hn,
      hv⟩
  · rintro ⟨numeral, hlongest, hinteger, hn, hv⟩
    obtain ⟨sign, digits, rfl, hsign, hne, hd⟩ := mem_integerGrammar.1 hinteger
    obtain ⟨more, rfl⟩ := hlongest.start
    obtain ⟨run, rest, rfl, hrun, hrest⟩ := Text.exists_run Char.isDigit more
    have hall : ∀ c ∈ digits ++ run, c.isDigit = true := by
      intro c hc
      rcases List.mem_append.1 hc with hc | hc
      · exact hd c hc
      · exact hrun c hc
    -- Digits that go on behind the numeral would make it longer.
    obtain rfl : run = [] := by
      have hother : sign ++ (digits ++ run) ∈ integerGrammar.matches' :=
        mem_integerGrammar.2 ⟨sign, digits ++ run, rfl, hsign, by simp [hne], hall⟩
      have := hlongest.longest (sign ++ (digits ++ run)) ⟨rest, by simp⟩
        (mem_realGrammar_of_integer hother)
      simp only [List.length_append] at this
      exact List.eq_nil_of_length_eq_zero (by omega)
    rw [List.nil_append, List.append_assoc] at hlongest ⊢
    exact (scanDecimal_append hsign hne hd hrest).2 ⟨hlongest, hn, hv⟩

/-- The longest hexadecimal numeral is the run of hexadecimal digits. -/
theorem longest_hexGrammar_iff : Longest hexGrammar text digits ↔
    digits ≠ [] ∧ digits = text.takeWhile isHexDigit := by
  have hrun : ∀ c ∈ text.takeWhile isHexDigit, isHexDigit c = true := fun c => Text.of_mem_takeWhile
  have hlength : ∀ other, other <+: text → other ∈ hexGrammar.matches' →
      other.length ≤ (text.takeWhile isHexDigit).length := by
    rintro other ⟨rest, rfl⟩ hother
    rw [List.takeWhile_append_of_pos (mem_hexGrammar.1 hother).2]
    exact (List.prefix_append other _).length_le
  constructor
  · intro h
    have hne := (mem_hexGrammar.1 h.mem).1
    have hle := hlength digits h.start h.mem
    have hmem : text.takeWhile isHexDigit ∈ hexGrammar.matches' := by
      refine mem_hexGrammar.2 ⟨fun hnil => hne ?_, hrun⟩
      rw [hnil] at hle
      exact List.eq_nil_of_length_eq_zero (Nat.le_zero.1 hle)
    have hstart : text.takeWhile isHexDigit <+: text := List.takeWhile_prefix isHexDigit
    have hlong := h.longest _ hstart hmem
    exact ⟨hne, (List.prefix_of_prefix_length_le h.start hstart hle).eq_of_length
      (Nat.le_antisymm hle hlong)⟩
  · rintro ⟨hne, rfl⟩
    exact ⟨List.takeWhile_prefix isHexDigit, mem_hexGrammar.2 ⟨hne, hrun⟩, hlength⟩

theorem hexDigitValue_eq_idxOf {c : Char} (h : isHexDigit c = true) :
    hexDigitValue c = "0123456789ABCDEF".toList.idxOf c.toUpper := by
  have hall : "0123456789ABCDEFabcdef".toList.all (fun c =>
      hexDigitValue c == "0123456789ABCDEF".toList.idxOf c.toUpper) = true := by
    decide
  exact eq_of_beq (List.all_eq_true.1 hall c (mem_hexDigits_iff.2 h))

theorem hexValue_eq_hexNat (h : ∀ c ∈ digits, isHexDigit c = true) :
    hexValue digits = hexNat digits := by
  have hmap : digits.map hexDigitValue =
      digits.map fun c => "0123456789ABCDEF".toList.idxOf c.toUpper :=
    List.map_congr_left fun c hc => hexDigitValue_eq_idxOf (h c hc)
  rw [hexNat, ← hmap, Nat.ofDigits_eq_foldr, List.foldr_reverse, List.foldl_map, hexValue]
  congr 1
  funext n c
  exact Nat.add_comm _ _

theorem scanHex_eq_some_iff : scanHex text = some (v, n) ↔
    ∃ digits, Longest hexGrammar text digits ∧ digits.length + 1 = n ∧
      hexNat digits < UInt64.size ∧ v.toBitVec = BitVec.ofNat 64 (hexNat digits) := by
  have hbits : ∀ k : Nat, v.toBitVec = BitVec.ofNat 64 k ↔ k.toUInt64.toInt64 = v := by
    intro k
    rw [← Int64.toBitVec_inj, eq_comm]
    rfl
  simp only [longest_hexGrammar_iff, hbits]
  rw [scanHex, hexValue_eq_hexNat fun c => Text.of_mem_takeWhile]
  dsimp only
  split
  · rename_i hempty
    refine iff_of_false (by simp) ?_
    rintro ⟨digits, ⟨hne, rfl⟩, -⟩
    exact hne (List.isEmpty_iff.1 hempty)
  · rename_i hne
    split
    · rename_i hlt
      rw [Option.some_inj, Prod.mk.injEq]
      constructor
      · rintro ⟨hv, hn⟩
        exact ⟨_, ⟨fun hnil => hne (List.isEmpty_iff.2 hnil), rfl⟩, hn, hlt, hv⟩
      · rintro ⟨digits, ⟨-, rfl⟩, hn, -, hv⟩
        exact ⟨hv, hn⟩
    · rename_i hlt
      refine iff_of_false (by simp) ?_
      rintro ⟨digits, ⟨-, rfl⟩, -, hfits, -⟩
      exact hlt hfits

theorem scanInteger_eq_scanDecimal (h : text.head? ≠ some '$') :
    scanInteger text = scanDecimal text := by
  unfold scanInteger
  split
  · exact absurd rfl h
  · rfl

/-- An integer numeral that was scanned is read back when it stands alone, and what it stands for is
the number that was scanned. -/
theorem scanInteger_take (h : scanInteger text = some (v, n)) :
    (text.take n).length = n ∧ scanInteger (text.take n) = some (v, n) ∧
      Denotes (text.take n) v := by
  by_cases hhead : text.head? = some '$'
  · obtain ⟨rest, rfl⟩ := List.head?_eq_some_iff.1 hhead
    obtain ⟨digits, hlongest, rfl, hlt, hv⟩ := scanHex_eq_some_iff.1 h
    rw [List.take_succ_cons, hlongest.take_length]
    refine ⟨rfl, ?_, .inr ⟨digits, hlongest.mem, rfl, hlt, hv⟩⟩
    exact scanHex_eq_some_iff.2 ⟨digits, .self hlongest.mem, rfl, hlt, hv⟩
  · rw [scanInteger_eq_scanDecimal hhead] at h
    obtain ⟨numeral, hlongest, hinteger, rfl, hv⟩ := scanDecimal_eq_some_iff.1 h
    have hfirst : numeral.head? ≠ some '$' := by
      obtain ⟨rest, rfl⟩ := hlongest.start
      intro hnumeral
      obtain ⟨more, rfl⟩ := List.head?_eq_some_iff.1 hnumeral
      exact hhead rfl
    rw [hlongest.take_length, scanInteger_eq_scanDecimal hfirst]
    refine ⟨rfl, ?_, .inl ⟨hinteger, hv⟩⟩
    exact scanDecimal_eq_some_iff.2 ⟨numeral, .self hlongest.mem, hinteger, rfl, hv⟩

theorem exists_scanReal_iff : (∃ x, scanReal text = some (x, n)) ↔
    ∃ numeral, Longest realGrammar text numeral ∧ numeral.length = n := by
  rw [← size_scanRealNumeral_iff, scanReal]
  cases scanRealNumeral text with
  | none => simp
  | some r => simp

theorem whole_scanReal (h : text ∈ realGrammar.matches') : ∃ x, whole? scanReal text = some x := by
  obtain ⟨x, hx⟩ := exists_scanReal_iff.2 ⟨text, .self h, rfl⟩
  refine ⟨x, ?_⟩
  rw [whole?, hx]
  exact if_pos rfl

end

end LineBasic.Number
