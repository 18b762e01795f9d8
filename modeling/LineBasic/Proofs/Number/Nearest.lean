import Mathlib.Algebra.Order.Field.Basic
import Mathlib.Algebra.Order.Field.Power
import Mathlib.Data.Rat.Cast.Order
import Mathlib.Tactic.FieldSimp
import Mathlib.Tactic.GCongr
import Mathlib.Tactic.Linarith
import LineBasic.Number.Decimal

/-!
# The nearest decimal

A finite real is a fraction with a power of two. The digits that it is written with, by a number of
decimals or with an exponent, stand for a decimal that none of the same form is nearer to.
-/

set_option autoImplicit false

namespace LineBasic.Number

section

open Float.Model Float.Model.UnpackedFloat

/-- The distance of a finite real from zero, as the fraction that its bits stand for. -/
def exactMagnitude (x : Float) : ℚ :=
  match x.toModel.unpack with
  | .finite _ mantissa exponent _ => mantissa * 2 ^ exponent
  | _ => 0

theorem toNat_unpackMantissa (b : BitVec 64) :
    (@unpackMantissa Format.binary64 b).toNat = b.toNat % hiddenBit := by
  change (BitVec.cast _ (BitVec.extractLsb 51 0 b)).toNat = _
  rw [BitVec.toNat_cast, BitVec.extractLsb_toNat, Nat.shiftRight_zero]
  rfl

theorem toNat_unpackExponent (b : BitVec 64) :
    (@unpackExponent Format.binary64 b).toNat = b.toNat / hiddenBit % 2048 := by
  change (BitVec.cast _ (BitVec.extractLsb 62 52 b)).toNat = _
  rw [BitVec.toNat_cast, BitVec.extractLsb_toNat, Nat.shiftRight_eq_div_pow]
  rfl

theorem isNaN_isInf_of_isFinite {x : Float} (hx : x.isFinite = true) :
    x.isNaN = false ∧ x.isInf = false := by
  change x.toModel.unpack.isFinite = true at hx
  change x.toModel.unpack.isNaN = false ∧ x.toModel.unpack.isInf = false
  cases hunpack : x.toModel.unpack with
  | notANumber | infinity sign =>
    rw [hunpack] at hx
    cases hx
  | zero sign | finite sign mantissa exponent hpos => exact ⟨rfl, rfl⟩

theorem exactMagnitude_eq_bits {x : Float} (hx : x.isFinite = true) :
    let exponent := x.toBits.toNat / hiddenBit % 2048
    let fraction := x.toBits.toNat % hiddenBit
    exactMagnitude x = (if exponent = 0 then fraction else fraction + hiddenBit : Nat) *
      2 ^ ((max exponent 1 : Nat) - 1075 : ℤ) := by
  intro exponent fraction
  let E := @unpackExponent Format.binary64 x.toBits.toBitVec
  let M := @unpackMantissa Format.binary64 x.toBits.toBitVec
  have hexponent : E.toNat = exponent := toNat_unpackExponent x.toBits.toBitVec
  have hfraction : M.toNat = fraction := toNat_unpackMantissa x.toBits.toBitVec
  obtain ⟨hnan, hinf⟩ : x.toModel.unpack.isNaN = false ∧ x.toModel.unpack.isInf = false :=
    isNaN_isInf_of_isFinite hx
  rw [exactMagnitude]
  rw [show x.toModel.unpack = UnpackedFloat.unpack Format.binary64 x.toBits.toBitVec from rfl]
    at hnan hinf ⊢
  delta UnpackedFloat.unpack at hnan hinf ⊢
  dsimp only at hnan hinf ⊢
  by_cases htop : E = -1#11
  · rw [if_pos htop] at hnan hinf
    split at hnan
    · rename_i hzero
      rw [if_pos hzero] at hinf
      cases hinf
    · cases hnan
  rw [if_neg htop]
  by_cases hlow : E = 0#11
  · have hzero : exponent = 0 := by
      rw [← hexponent, hlow]
      rfl
    rw [if_pos hlow, if_pos hzero, hzero]
    by_cases hnone : M = 0#52
    · rw [dif_pos hnone, ← hfraction, hnone]
      exact (zero_mul _).symm
    · rw [dif_neg hnone]
      change (M.toNat : ℚ) * 2 ^ ((E.toNat : ℤ) - 1075 + 1) = _
      rw [hexponent, hzero, hfraction]
      rfl
  · have hpos : exponent ≠ 0 := by
      intro hzero
      exact hlow (BitVec.eq_of_toNat_eq (hexponent.trans hzero))
    have hmantissa : (1#1 ++ M).toNat = fraction + hiddenBit := by
      rw [BitVec.toNat_append, ← Nat.shiftLeft_add_eq_or_of_lt M.isLt, hfraction, Nat.add_comm]
      rfl
    rw [if_neg hlow, if_neg hpos, Nat.max_eq_left (by omega), ← hmantissa]
    change ((1#1 ++ M).toNat : ℚ) * 2 ^ ((E.toNat : ℤ) - 1075) = _
    rw [hexponent]

theorem exactMagnitude_eq {x : Float} (hx : x.isFinite = true) :
    exactMagnitude x = (magnitude x).1 / (magnitude x).2 := by
  rw [exactMagnitude_eq_bits hx, magnitude]
  generalize x.toBits.toNat / hiddenBit % 2048 = exponent
  generalize (if exponent = 0 then _ else _ : Nat) = mantissa
  generalize max exponent 1 = scale
  by_cases hscale : 1075 ≤ scale
  · obtain ⟨k, rfl⟩ := Nat.exists_eq_add_of_le hscale
    have hexponent : ((1075 + k : Nat) : ℤ) - 1075 = k := by omega
    rw [if_pos hscale, Nat.add_sub_cancel_left, hexponent, zpow_natCast, Nat.pow_eq]
    push_cast
    rw [div_one]
  · obtain ⟨k, hk⟩ := Nat.exists_eq_add_of_le (Nat.le_of_not_le hscale)
    have hexponent : (scale : ℤ) - 1075 = -k := by omega
    rw [if_neg hscale, hexponent, zpow_neg, zpow_natCast, hk, Nat.add_sub_cancel_left,
      Nat.pow_eq, div_eq_mul_inv]
    push_cast
    rfl

end

theorem magnitude_pos (x : Float) : 0 < (magnitude x).2 := by
  rw [magnitude]
  split
  · exact Nat.one_pos
  · exact Nat.two_pow_pos _

theorem roundDiv_near (num : Nat) {den : Nat} (hden : 0 < den) :
    |(roundDiv num den : ℚ) - num / den| ≤ 1 / 2 := by
  have hpos : (0 : ℚ) < den := by exact_mod_cast hden
  have hmod := Nat.mod_lt num hden
  have hsum : (num : ℚ) / den = (num / den : Nat) + (num % den : Nat) / den := by
    field_simp
    exact_mod_cast (Nat.div_add_mod num den).symm
  have hrest : ((num % den : Nat) : ℚ) / den < 1 := by
    rw [div_lt_one hpos]
    exact_mod_cast hmod
  rw [hsum, roundDiv]
  generalize num / den = q
  generalize num % den = r at hmod hrest
  split
  · rename_i hup
    have hhalf : (1 : ℚ) / 2 ≤ r / den := by
      rw [div_le_div_iff₀ (by norm_num) hpos]
      have hle : (den : ℚ) ≤ 2 * r := by exact_mod_cast show den ≤ 2 * r by omega
      linarith
    rw [abs_le]
    push_cast
    constructor <;> linarith
  · rename_i hdown
    have hhalf : (r : ℚ) / den ≤ 1 / 2 := by
      rw [div_le_div_iff₀ hpos (by norm_num)]
      have hle : 2 * (r : ℚ) ≤ den := by exact_mod_cast show 2 * r ≤ den by omega
      linarith
    have hnonneg : (0 : ℚ) ≤ r / den := by positivity
    rw [abs_le]
    constructor <;> linarith

/-! ## A number of decimals -/

theorem isDigit_of_mem_digitsOf {n : Nat} {c : Char} (h : c ∈ digitsOf n) : c.isDigit = true :=
  Nat.isDigit_of_mem_toDigits (by decide) (by decide) h

theorem ofDigitChars_digitsOf (n : Nat) : Nat.ofDigitChars 10 (digitsOf n) 0 = n :=
  Nat.ofDigitChars_toDigits (by decide) (by decide)

theorem isDigit_of_mem_paddedDigits {width n : Nat} {c : Char} (h : c ∈ paddedDigits width n) :
    c.isDigit = true := by
  rcases List.mem_append.1 h with h | h
  · rw [List.eq_of_mem_replicate h]
    rfl
  · exact isDigit_of_mem_digitsOf h

theorem le_length_paddedDigits (width n : Nat) : width ≤ (paddedDigits width n).length := by
  rw [paddedDigits, List.length_append, List.length_replicate]
  omega

theorem ofDigitChars_zeros (k : Nat) : Nat.ofDigitChars 10 (List.replicate k '0') 0 = 0 := by
  induction k with
  | zero => rfl
  | succ k ih => exact ih

theorem ofDigitChars_paddedDigits (width n : Nat) :
    Nat.ofDigitChars 10 (paddedDigits width n) 0 = n := by
  rw [paddedDigits, Nat.ofDigitChars_append, ofDigitChars_zeros, ofDigitChars_digitsOf]

/-- The point stands before as many digits as there are places. -/
theorem exists_withPoint {places : Nat} {digits : List Char} (h : places < digits.length) :
    ∃ whole decimals, digits = whole ++ decimals ∧ whole ≠ [] ∧ decimals.length = places ∧
      withPoint places digits = whole ++ if places = 0 then [] else '.' :: decimals := by
  refine ⟨digits.take (digits.length - places), digits.drop (digits.length - places),
    (List.take_append_drop _ _).symm, ?_, ?_, ?_⟩
  · rw [← List.length_pos_iff, List.length_take]
    omega
  · rw [List.length_drop]
    omega
  · rw [withPoint]
    split
    · rename_i hplaces
      rw [hplaces, Nat.sub_zero, List.take_length, List.append_nil]
    · rfl

/-- The digits of a number with a number of decimals stand for the nearest number that has so many.
-/
theorem fixedDigits_near (places : Nat) {x : Float} (hx : x.isFinite = true) :
    ∃ whole decimals, fixedDigits places x = (whole ++ if places = 0 then [] else '.' :: decimals) ∧
      whole ≠ [] ∧ decimals.length = places ∧ (∀ c ∈ whole ++ decimals, c.isDigit = true) ∧
      |(Nat.ofDigitChars 10 (whole ++ decimals) 0 : ℚ) - exactMagnitude x * 10 ^ places| ≤
        1 / 2 := by
  rw [fixedDigits]
  dsimp only
  generalize hn : roundDiv ((magnitude x).1 * tenTo places) (magnitude x).2 = n
  obtain ⟨whole, decimals, hdigits, hwhole, hlength, hpoint⟩ :=
    exists_withPoint (le_length_paddedDigits (places + 1) n)
  refine ⟨whole, decimals, hpoint, hwhole, hlength, ?_, ?_⟩
  · intro c hc
    rw [← hdigits] at hc
    exact isDigit_of_mem_paddedDigits hc
  · have hnear := roundDiv_near ((magnitude x).1 * tenTo places) (magnitude_pos x)
    have hscaled : (((magnitude x).1 * tenTo places : Nat) : ℚ) / (magnitude x).2 =
        exactMagnitude x * 10 ^ places := by
      rw [exactMagnitude_eq hx, tenTo, Nat.pow_eq]
      push_cast
      rw [div_mul_eq_mul_div]
    rwa [hn, hscaled, ← ofDigitChars_paddedDigits (places + 1) n, hdigits] at hnear

/-! ## A number with an exponent -/

theorem digitCount_bounds {n : Nat} (hn : 0 < n) :
    (10 : ℚ) ^ ((digitCount n : ℤ) - 1) ≤ n ∧ (n : ℚ) < 10 ^ (digitCount n : ℤ) := by
  have hpos : 0 < digitCount n := List.length_pos_of_ne_nil Nat.toDigits_ne_nil
  constructor
  · have hle : 10 ^ (digitCount n - 1) ≤ n := by
      by_cases hone : digitCount n = 1
      · rw [hone]
        exact hn
      · by_contra hlt
        have hshort : digitCount n ≤ digitCount n - 1 :=
          (Nat.length_toDigits_le_iff (by decide) (by omega)).2 (Nat.lt_of_not_le hlt)
        omega
    have hcast : ((digitCount n : ℤ) - 1) = ((digitCount n - 1 : Nat) : ℤ) := by omega
    rw [hcast, zpow_natCast]
    exact_mod_cast hle
  · rw [zpow_natCast]
    exact_mod_cast (Nat.length_toDigits_le_iff (by decide) hpos).1 (Nat.le_refl _)

/-- Ten to the decimal exponent is not above a fraction, and ten to the next one is. -/
theorem decimalExponent_bounds {num den : Nat} (hnum : 0 < num) (hden : 0 < den) :
    (10 : ℚ) ^ decimalExponent num den ≤ num / den ∧
      (num / den : ℚ) < 10 ^ (decimalExponent num den + 1) := by
  have hpos : (0 : ℚ) < den := by exact_mod_cast hden
  obtain ⟨hnumLow, hnumHigh⟩ := digitCount_bounds hnum
  obtain ⟨hdenLow, hdenHigh⟩ := digitCount_bounds hden
  generalize hguess : (digitCount num : ℤ) - digitCount den = guess
  have hreached : (if 0 ≤ guess then den * tenTo guess.natAbs ≤ num
      else den ≤ num * tenTo guess.natAbs) ↔ (10 : ℚ) ^ guess ≤ num / den := by
    rw [le_div_iff₀ hpos, tenTo, Nat.pow_eq]
    split
    · rename_i hle
      obtain ⟨k, rfl⟩ := Int.eq_ofNat_of_zero_le hle
      rw [zpow_natCast, mul_comm, Int.natAbs_natCast]
      norm_cast
    · rename_i hlt
      obtain ⟨k, rfl⟩ : ∃ k : Nat, guess = -k := ⟨guess.natAbs, by omega⟩
      rw [zpow_neg, zpow_natCast, inv_mul_le_iff₀ (by positivity), mul_comm, Int.natAbs_neg,
        Int.natAbs_natCast]
      norm_cast
  by_cases hle : (10 : ℚ) ^ guess ≤ num / den
  · rw [decimalExponent, hguess, if_pos (hreached.2 hle)]
    refine ⟨hle, ?_⟩
    rw [div_lt_iff₀ hpos]
    calc (num : ℚ) < 10 ^ (digitCount num : ℤ) := hnumHigh
      _ = 10 ^ (guess + 1) * 10 ^ ((digitCount den : ℤ) - 1) := by
        rw [← zpow_add₀ (by norm_num)]
        congr 1
        omega
      _ ≤ 10 ^ (guess + 1) * den := by gcongr
  · rw [decimalExponent, hguess, if_neg (hle ∘ hreached.1), Int.sub_add_cancel]
    refine ⟨?_, lt_of_not_ge hle⟩
    rw [le_div_iff₀ hpos]
    calc (10 : ℚ) ^ (guess - 1) * den ≤ 10 ^ (guess - 1) * 10 ^ (digitCount den : ℤ) := by gcongr
      _ = 10 ^ ((digitCount num : ℤ) - 1) := by
        rw [← zpow_add₀ (by norm_num)]
        congr 1
        omega
      _ ≤ num := hnumLow

theorem le_roundDiv {num den k : Nat} (hden : 0 < den) (h : (k : ℚ) ≤ num / den) :
    k ≤ roundDiv num den := by
  have hpos : (0 : ℚ) < den := by exact_mod_cast hden
  rw [le_div_iff₀ hpos] at h
  have hle : k ≤ num / den := (Nat.le_div_iff_mul_le hden).2 (by exact_mod_cast h)
  rw [roundDiv]
  split <;> omega

theorem roundDiv_le {num den k : Nat} (hden : 0 < den) (h : (num : ℚ) / den < k) :
    roundDiv num den ≤ k := by
  have hpos : (0 : ℚ) < den := by exact_mod_cast hden
  rw [div_lt_iff₀ hpos] at h
  have hlt : num / den < k := (Nat.div_lt_iff_lt_mul hden).2 (by exact_mod_cast h)
  rw [roundDiv]
  split <;> omega

theorem length_digitsOf {n places : Nat} (hlow : 10 ^ places ≤ n) (hhigh : n < 10 ^ (places + 1)) :
    (digitsOf n).length = places + 1 := by
  have hle : (digitsOf n).length ≤ places + 1 :=
    (Nat.length_toDigits_le_iff (by decide) (Nat.succ_pos _)).2 hhigh
  have hpos : 0 < (digitsOf n).length := List.length_pos_of_ne_nil Nat.toDigits_ne_nil
  by_contra hne
  have hshort : (digitsOf n).length ≤ places := by omega
  have hlt := (Nat.length_toDigits_le_iff (by decide) (by omega)).1 hshort
  omega

theorem near_of_shift (num : Nat) {den : Nat} (hden : 0 < den) (shift : ℤ) :
    let n := if 0 ≤ shift then roundDiv (num * tenTo shift.natAbs) den
      else roundDiv num (den * tenTo shift.natAbs)
    |(n : ℚ) * 10 ^ (-shift) - num / den| ≤ 1 / 2 * 10 ^ (-shift) ∧
      ∀ k : Nat, ((k : ℚ) ≤ num / den * 10 ^ shift → k ≤ n) ∧
        (num / den * 10 ^ shift < (k : ℚ) → n ≤ k) := by
  intro n
  obtain ⟨num', den', hden', hn, hvalue⟩ : ∃ num' den', 0 < den' ∧ n = roundDiv num' den' ∧
      (num' : ℚ) / den' = num / den * 10 ^ shift := by
    by_cases hshift : 0 ≤ shift
    · obtain ⟨k, rfl⟩ := Int.eq_ofNat_of_zero_le hshift
      refine ⟨_, _, hden, if_pos hshift, ?_⟩
      rw [tenTo, Nat.pow_eq, zpow_natCast, Int.natAbs_natCast]
      push_cast
      rw [div_mul_eq_mul_div]
    · obtain ⟨k, rfl⟩ : ∃ k : Nat, shift = -k := ⟨shift.natAbs, by omega⟩
      have hpos : 0 < tenTo (-(k : ℤ)).natAbs := Nat.pow_pos (by decide)
      refine ⟨num, den * tenTo (-(k : ℤ)).natAbs, Nat.mul_pos hden hpos, if_neg hshift, ?_⟩
      rw [tenTo, Nat.pow_eq, zpow_neg, zpow_natCast, Int.natAbs_neg, Int.natAbs_natCast]
      push_cast
      rw [div_mul_eq_div_div, div_eq_mul_inv _ ((10 : ℚ) ^ k)]
  have hnear := roundDiv_near num' hden'
  rw [← hn, hvalue] at hnear
  have hpos : (0 : ℚ) < 10 ^ (-shift) := zpow_pos (by norm_num) _
  constructor
  · have hback : (n : ℚ) * 10 ^ (-shift) - num / den =
        (n - num / den * 10 ^ shift) * 10 ^ (-shift) := by
      rw [sub_mul, mul_assoc, ← zpow_add₀ (by norm_num), add_neg_cancel, zpow_zero, mul_one]
    rw [hback, abs_mul, abs_of_pos hpos]
    exact mul_le_mul_of_nonneg_right hnear hpos.le
  · intro k
    rw [hn, ← hvalue]
    exact ⟨le_roundDiv hden', roundDiv_le hden'⟩

/-- The digits of a number with an exponent: one in front of the point, and none is nearer to the
number. -/
theorem scientific_near (places : Nat) {x : Float} (hx : x.isFinite = true) :
    ∃ digits, digits.length = places + 1 ∧ (∀ c ∈ digits, c.isDigit = true) ∧
      (scientific places x).1 = withPoint places digits ∧
      |Nat.ofDigitChars 10 digits 0 * (10 : ℚ) ^ ((scientific places x).2 - places) -
        exactMagnitude x| ≤ 1 / 2 * 10 ^ ((scientific places x).2 - places) := by
  have hden := magnitude_pos x
  rw [exactMagnitude_eq hx, scientific]
  generalize magnitude x = exact at hden
  obtain ⟨num, den⟩ := exact
  dsimp only at hden ⊢
  by_cases hnum : num = 0
  · rw [if_pos hnum, hnum]
    refine ⟨_, List.length_replicate, fun c hc => ?_, rfl, ?_⟩
    · rw [List.eq_of_mem_replicate hc]
      rfl
    · rw [ofDigitChars_zeros, Nat.cast_zero, zero_mul, zero_div, sub_zero, abs_zero]
      exact mul_nonneg (by norm_num) (zpow_pos (by norm_num) _).le
  obtain ⟨hlow, hhigh⟩ := decimalExponent_bounds (Nat.pos_of_ne_zero hnum) hden
  obtain ⟨hnear, hbounds⟩ := near_of_shift num hden (places - decimalExponent num den)
  rw [if_neg hnum]
  generalize decimalExponent num den = e at hlow hhigh hnear hbounds ⊢
  generalize (if 0 ≤ (places : ℤ) - e then _ else _ : Nat) = n at hnear hbounds ⊢
  rw [neg_sub] at hnear
  have hscale : (0 : ℚ) < 10 ^ ((places : ℤ) - e) := zpow_pos (by norm_num) _
  have hmove (k : Nat) :
      (10 : ℚ) ^ (e + k) * 10 ^ ((places : ℤ) - e) = (10 ^ (places + k) : Nat) := by
    rw [← zpow_add₀ (by norm_num), show e + k + (places - e) = ((places + k : Nat) : ℤ) by omega,
      zpow_natCast]
    push_cast
    rfl
  have hfirst : 10 ^ places ≤ n := by
    refine (hbounds _).1 ?_
    rw [← Nat.add_zero places, ← hmove 0]
    exact mul_le_mul_of_nonneg_right (by simpa using hlow) hscale.le
  have hlast : n ≤ 10 ^ (places + 1) := by
    refine (hbounds _).2 ?_
    rw [← hmove 1]
    exact mul_lt_mul_of_pos_right hhigh hscale
  by_cases hcarry : n = tenTo (places + 1)
  · rw [if_pos hcarry]
    have hten : n / 10 = 10 ^ places := by
      rw [hcarry, tenTo, Nat.pow_eq, Nat.pow_succ, Nat.mul_div_cancel _ (by decide)]
    rw [hten]
    have hlength := length_digitsOf (Nat.le_refl (10 ^ places)) (Nat.pow_lt_pow_succ (by decide))
    refine ⟨digitsOf (10 ^ places), hlength, fun c => isDigit_of_mem_digitsOf, rfl, ?_⟩
    have hunit : (10 : ℚ) ^ (e + 1 - places) = 10 * 10 ^ (e - places) := by
      rw [show e + 1 - places = 1 + (e - places) by omega, zpow_add₀ (by norm_num), zpow_one]
    have hsame : ((10 ^ places : Nat) : ℚ) * 10 ^ (e + 1 - places) = n * 10 ^ (e - places) := by
      rw [hunit, hcarry, tenTo, Nat.pow_eq]
      push_cast
      rw [pow_succ, mul_assoc]
    have hpos : (0 : ℚ) < 10 ^ (e - places) := zpow_pos (by norm_num) _
    dsimp only
    rw [ofDigitChars_digitsOf, hsame]
    refine hnear.trans ?_
    rw [hunit]
    linarith
  · rw [if_neg hcarry]
    refine ⟨digitsOf n, length_digitsOf hfirst (Nat.lt_of_le_of_ne hlast hcarry),
      fun c => isDigit_of_mem_digitsOf, rfl, ?_⟩
    rw [ofDigitChars_digitsOf]
    exact hnear

end LineBasic.Number
