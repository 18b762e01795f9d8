import LineBasic.Proofs.Number.Nearest
import LineBasic.Proofs.Using.Grouping

/-!
# What a number field shows

A number field shows a numeral that stands for the nearest number of its form. The numeral stands at
the right of the field, with a dollar sign and a sign as the field asks for them. Main statement:
`renderNumber_shows_nearest`.
-/

set_option autoImplicit false

namespace LineBasic.Using

open Number

/-- The numerals of a field for a number: digits and decimals, perhaps in groups, or one digit, its
decimals and an exponent. No numeral of that form is nearer to the number. -/
inductive NumberField.Numeral (f : NumberField) (x : Float) : List Char → Prop
  | fixed {whole decimals : List Char} (hexponent : f.exponent = false) (hne : whole ≠ [])
      (hdigits : ∀ c ∈ whole ++ decimals, c.isDigit = true)
      (hlength : decimals.length = f.decimals.getD 0)
      (hnear : |(Nat.ofDigitChars 10 (whole ++ decimals) 0 : ℚ) -
        exactMagnitude x * 10 ^ decimals.length| ≤ 1 / 2) :
      Numeral f x ((if f.comma then groupDigits whole else whole) ++
        if f.decimals.isSome then '.' :: decimals else [])
  | scientific {whole decimals exponent : List Char} {e : ℤ} (hexponent : f.exponent = true)
      (hone : whole.length = 1) (hdigits : ∀ c ∈ whole ++ decimals ++ exponent, c.isDigit = true)
      (hlength : decimals.length = f.decimals.getD 0)
      (hnear : |(Nat.ofDigitChars 10 (whole ++ decimals) 0 : ℚ) * 10 ^ (e - decimals.length) -
        exactMagnitude x| ≤ 1 / 2 * 10 ^ (e - decimals.length))
      (hpad : 2 ≤ exponent.length) (he : Nat.ofDigitChars 10 exponent 0 = e.natAbs) :
      Numeral f x (whole ++ (if decimals.length = 0 then [] else '.' :: decimals) ++
        'E' :: (if e < 0 then '-' else '+') :: exponent)

theorem unwritable?_of_isFinite {x : Float} (hx : x.isFinite = true) : unwritable? x = none := by
  obtain ⟨hnan, hinf⟩ := isNaN_isInf_of_isFinite hx
  rw [unwritable?, hnan, hinf]
  rfl

theorem point_not_mem_groupDigits {cs : List Char} (h : ∀ c ∈ cs, c.isDigit = true) :
    '.' ∉ groupDigits cs := by
  intro hmem
  have hcs : '.' ∈ cs := by
    rw [← filter_groupDigits h]
    exact List.mem_filter.2 ⟨hmem, rfl⟩
  cases h '.' hcs

theorem renderMagnitude_of_fixed {f : NumberField} {x : Float} {whole decimals : List Char}
    (hexponent : f.exponent = false) (hx : x.isFinite = true)
    (hdigits : ∀ c ∈ whole, c.isDigit = true) (hlength : decimals.length = f.decimals.getD 0)
    (hfixed : fixedDigits (f.decimals.getD 0) x =
      whole ++ if f.decimals.getD 0 = 0 then [] else '.' :: decimals) :
    renderMagnitude f x = (if f.comma then groupDigits whole else whole) ++
      if f.decimals.isSome then '.' :: decimals else [] := by
  rw [renderMagnitude, if_neg (by simp [hexponent]), unwritable?_of_isFinite hx, Option.getD_none,
    hfixed]
  dsimp only
  rw [groupThousands_append hdigits (by split <;> simp), ← apply_ite (· ++ _)]
  have hpoint : '.' ∉ if f.comma = true then groupDigits whole else whole := by
    split
    · exact point_not_mem_groupDigits hdigits
    · exact fun hmem => Bool.false_ne_true (hdigits '.' hmem)
  generalize (if f.comma = true then groupDigits whole else whole) = shown at hpoint
  cases hplaces : f.decimals with
  | none => simp
  | some places =>
    rw [hplaces, Option.getD_some] at hlength
    cases places with
    | zero =>
      rw [List.length_eq_zero_iff.1 hlength]
      simp [hpoint]
    | succ places => simp

theorem numeral_renderMagnitude (f : NumberField) {x : Float} (hx : x.isFinite = true) :
    f.Numeral x (renderMagnitude f x) := by
  cases hexponent : f.exponent with
  | false =>
    obtain ⟨whole, decimals, hfixed, hne, hlength, hdigits, hnear⟩ :=
      fixedDigits_near (f.decimals.getD 0) hx
    have hfront : ∀ c ∈ whole, c.isDigit = true := fun c hc =>
      hdigits c (List.mem_append_left _ hc)
    rw [renderMagnitude_of_fixed hexponent hx hfront hlength hfixed]
    exact .fixed hexponent hne hdigits hlength (hlength ▸ hnear)
  | true =>
    obtain ⟨digits, hcount, hdigits, hpoint, hnear⟩ := scientific_near (f.decimals.getD 0) hx
    obtain ⟨whole, decimals, rfl, -, hlength, hwith⟩ :=
      exists_withPoint (Nat.lt_of_succ_le (Nat.le_of_eq hcount.symm))
    have hone : whole.length = 1 := by
      rw [List.length_append] at hcount
      omega
    rw [renderMagnitude, if_pos hexponent, unwritable?_of_isFinite hx]
    dsimp only
    rw [hpoint, hwith, ← hlength, exponentDigits]
    refine .scientific hexponent hone (fun c hc => ?_) hlength (hlength ▸ hnear)
      (le_length_paddedDigits 2 _) (ofDigitChars_paddedDigits 2 _)
    rcases List.mem_append.1 hc with hc | hc
    · exact hdigits c hc
    · exact isDigit_of_mem_paddedDigits hc

/-- What a number field shows of a finite number: its numeral for the number, with dollar sign and
sign, at the right of the field, or asterisks if that does not fit. -/
theorem renderNumber_shows_nearest (f : NumberField) {x : Float} (hx : x.isFinite = true) :
    ∃ numeral, f.Numeral x numeral ∧
      let body := withSign f (decide (x < 0)) (if f.dollar then '$' :: numeral else numeral)
      renderNumber f x = if f.width < body.length then stars f.width
        else blanks (f.width - body.length) ++ body :=
  ⟨renderMagnitude f x, numeral_renderMagnitude f hx, rfl⟩

end LineBasic.Using
