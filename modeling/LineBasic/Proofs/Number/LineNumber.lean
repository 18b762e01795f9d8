import LineBasic.Listing
import LineBasic.Number.Numeral
import LineBasic.Proofs.Text.Runs

/-!
# Written line numbers

The digits of a line number are read back as that number, and a line number ends at the first
character that can neither go on with it nor make it a real.
-/

set_option autoImplicit false

namespace LineBasic.Number

theorem decimalValue_eq_ofDigitChars (cs : List Char) :
    decimalValue cs = Nat.ofDigitChars 10 cs 0 :=
  Nat.ofDigitChars_eq_foldl.symm

theorem toList_toString {n : Int} (h : 0 ≤ n) :
    (toString n).toList = Nat.toDigits 10 n.toNat := by
  obtain ⟨k, rfl⟩ := Int.eq_ofNat_of_zero_le h
  change (toString k).toList = Nat.toDigits 10 k
  rw [Nat.toString_eq_ofList_toDigits, String.toList_ofList]

theorem toString_ne_nil {n : Int} (h : 0 ≤ n) : (toString n).toList ≠ [] := by
  rw [toList_toString h]
  exact Nat.toDigits_ne_nil

theorem isDigit_of_mem_toString {n : Int} (h : 0 ≤ n) {c : Char}
    (hc : c ∈ (toString n).toList) : c.isDigit = true := by
  rw [toList_toString h] at hc
  exact Nat.isDigit_of_mem_toDigits (by decide) (by decide) hc

theorem decimalValue_toString {n : Int} (h : 0 ≤ n) :
    (decimalValue (toString n).toList : Int) = n := by
  rw [toList_toString h, decimalValue_eq_ofDigitChars, Nat.ofDigitChars_ten_toDigits]
  exact Int.toNat_of_nonneg h

theorem lineNumberOf?_eq_some {digits : List Char} {n : LineNumber} :
    lineNumberOf? digits = some n ↔ (decimalValue digits : Int) = n ∧ n ≤ maxLineNumber := by
  have hmin : Int64.minValue.toInt ≤ (decimalValue digits : Int) := by
    have : Int64.minValue.toInt = -9223372036854775808 := rfl
    omega
  have hmax : Int64.maxValue.toInt = maxLineNumber := rfl
  rw [lineNumberOf?, int64OfInt?, hmax]
  by_cases h : (decimalValue digits : Int) ≤ maxLineNumber
  · have hval : (Int64.ofInt (decimalValue digits)).toInt = decimalValue digits :=
      Int64.toInt_ofInt_of_le hmin (by rw [maxLineNumber] at h; omega)
    rw [if_pos ⟨hmin, h⟩, Option.map_some, hval, Option.some_inj]
    grind
  · rw [if_neg fun hc => h hc.2]
    grind

theorem lineNumberOf?_toString {n : LineNumber} (h : 0 ≤ n) (hn : n ≤ maxLineNumber) :
    lineNumberOf? (toString n).toList = some n :=
  lineNumberOf?_eq_some.2 ⟨decimalValue_toString h, hn⟩

def endsDigits (c : Char) : Bool := !c.isDigit && c != '.' && c != 'E' && c != 'e'

theorem not_isSpacing_of_isDigit {c : Char} (h : c.isDigit = true) :
    Text.isSpacing c = false := by
  refine Bool.eq_false_iff.2 fun hs => ?_
  simp only [Text.isSpacing, Bool.or_eq_true, beq_iff_eq] at hs
  rcases hs with ((rfl | rfl) | rfl) | rfl <;> contradiction

theorem digitRun_append {ds rest : List Char} (hds : ∀ c ∈ ds, c.isDigit = true)
    (hrest : ∀ c ∈ rest.head?, c.isDigit = false) : digitRun (ds ++ rest) = ds :=
  Text.takeWhile_append_of_head hds hrest

theorem signOf_digits {ds rest : List Char} (hne : ds ≠ []) (hds : ∀ c ∈ ds, c.isDigit = true) :
    signOf (ds ++ rest) = (false, 0) := by
  obtain ⟨c, ds, rfl⟩ := List.exists_cons_of_ne_nil hne
  have hc := hds c List.mem_cons_self
  unfold signOf
  split <;> simp_all

theorem scanRealNumeral_digits {ds rest : List Char} (hne : ds ≠ [])
    (hds : ∀ c ∈ ds, c.isDigit = true) (hrest : ∀ c ∈ rest.head?, endsDigits c = true) :
    scanRealNumeral (ds ++ rest) = some
      { negative := false, whole := ds, fraction := [], exponent := 0, size := ds.length } := by
  have hrun : digitRun (ds ++ rest) = ds := by
    refine digitRun_append hds fun c hc => ?_
    have := hrest c hc
    simp_all [endsDigits]
  have hfraction : scanFraction rest = none := by
    unfold scanFraction
    split
    · have := hrest '.' rfl
      contradiction
    · rfl
  have hexponent : scanExponent rest = (0, 0) := by
    unfold scanExponent
    split
    · rfl
    · rename_i mark more
      have := hrest mark rfl
      rw [if_neg]
      rintro (rfl | rfl) <;> contradiction
  simp [scanRealNumeral, signOf_digits hne hds, hrun, hfraction, hexponent, hne]

theorem scanLineNumber_digits {ds rest : List Char} (hne : ds ≠ [])
    (hds : ∀ c ∈ ds, c.isDigit = true) (hrest : ∀ c ∈ rest.head?, endsDigits c = true) :
    scanLineNumber (ds ++ rest) = (lineNumberOf? ds).map fun n => (n, ds.length) := by
  have hspacing : (ds ++ rest).dropWhile Text.isSpacing = ds ++ rest := by
    obtain ⟨c, ds, rfl⟩ := List.exists_cons_of_ne_nil hne
    have hc : Text.isSpacing c = false := not_isSpacing_of_isDigit (hds c List.mem_cons_self)
    simp [hc]
  have hrun : digitRun (ds ++ rest) = ds :=
    digitRun_append hds fun c hc => by have := hrest c hc; simp_all [endsDigits]
  simp [scanLineNumber, hspacing, hrun, hne, scanRealNumeral_digits hne hds hrest]

/-- A line number is spacing and then digits, and fits into its range. -/
theorem scanLineNumber_eq_some {cs : List Char} {n : LineNumber} {size : Nat}
    (h : scanLineNumber cs = some (n, size)) :
    (0 ≤ n ∧ n ≤ maxLineNumber) ∧ size ≤ cs.length ∧
      ∀ c ∈ cs.take size, Text.isSpacing c = true ∨ c.isDigit = true := by
  let spacing := cs.takeWhile Text.isSpacing
  let rest := cs.dropWhile Text.isSpacing
  let after := rest.dropWhile Char.isDigit
  have hcs : cs = (spacing ++ digitRun rest) ++ after := by
    rw [List.append_assoc, digitRun, List.takeWhile_append_dropWhile,
      List.takeWhile_append_dropWhile]
  have hsize : cs.length - rest.length + (digitRun rest).length =
      (spacing ++ digitRun rest).length := by
    have hlen : cs.length = spacing.length + rest.length := by
      rw [← List.length_append, List.takeWhile_append_dropWhile]
    rw [List.length_append, hlen]
    omega
  simp only [scanLineNumber] at h
  split at h
  · cases h
  · split at h
    · cases h
    · obtain ⟨k, hk, heq⟩ := Option.map_eq_some_iff.1 h
      obtain ⟨hval, hmax⟩ := lineNumberOf?_eq_some.1 hk
      obtain ⟨rfl, rfl⟩ := Prod.mk.inj heq
      refine ⟨⟨hval ▸ Int.natCast_nonneg _, hmax⟩, ?_, ?_⟩
      · rw [hsize, hcs]
        simp
      · intro c hc
        rw [hsize, hcs, List.take_left' rfl] at hc
        rcases List.mem_append.1 hc with hc | hc
        · exact .inl (List.all_eq_true.1 List.all_takeWhile c hc)
        · exact .inr (List.all_eq_true.1 List.all_takeWhile c hc)

end LineBasic.Number
