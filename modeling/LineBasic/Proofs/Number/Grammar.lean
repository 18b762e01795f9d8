import Mathlib.Computability.RegularExpressions
import LineBasic.Proofs.Number.Tail
import LineBasic.Proofs.Text.Case

/-!
# The grammar of numerals

The written forms of numbers as regular expressions, and the scanners measured by them. A scanner
takes the longest prefix of a text that its grammar allows: what it takes is a numeral, and no
numeral at the start of the text is longer. A point or an exponent mark without the digits that
belong to it is left alone.
-/

set_option autoImplicit false

namespace LineBasic.Number

def oneOf (cs : List Char) : RegularExpression Char := (cs.map .char).sum

def optionally (P : RegularExpression Char) : RegularExpression Char := P + 1

def repeatedly (P : RegularExpression Char) : RegularExpression Char := P * P.star

def digit : RegularExpression Char := oneOf "0123456789".toList

def hexDigit : RegularExpression Char := oneOf "0123456789ABCDEFabcdef".toList

def signPart : RegularExpression Char := optionally (oneOf ['+', '-'])

def mantissa : RegularExpression Char :=
  repeatedly digit * optionally (.char '.' * digit.star) + .char '.' * repeatedly digit

def exponentPart : RegularExpression Char :=
  optionally (oneOf ['E', 'e'] * (signPart * repeatedly digit))

def realGrammar : RegularExpression Char := signPart * (mantissa * exponentPart)

def integerGrammar : RegularExpression Char := signPart * repeatedly digit

def hexGrammar : RegularExpression Char := repeatedly hexDigit

section

variable {P Q : RegularExpression Char} {w : List Char} {c : Char}

theorem mem_optionally : w ∈ (optionally P).matches' ↔ w ∈ P.matches' ∨ w = [] := Iff.rfl

theorem mem_comp : w ∈ (P * Q).matches' ↔
    ∃ a b, w = a ++ b ∧ a ∈ P.matches' ∧ b ∈ Q.matches' := by
  rw [RegularExpression.matches'_mul, Language.mem_mul]
  constructor
  · rintro ⟨a, ha, b, hb, rfl⟩
    exact ⟨a, b, rfl, ha, hb⟩
  · rintro ⟨a, b, rfl, ha, hb⟩
    exact ⟨a, ha, b, hb, rfl⟩

theorem mem_oneOf {cs : List Char} : w ∈ (oneOf cs).matches' ↔ ∃ c ∈ cs, w = [c] := by
  induction cs with
  | nil => simp [oneOf]
  | cons c cs ih =>
    have hsum : w ∈ (oneOf (c :: cs)).matches' ↔ w = [c] ∨ w ∈ (oneOf cs).matches' := Iff.rfl
    rw [hsum, ih]
    simp

theorem mem_star_oneOf {cs : List Char} : w ∈ (oneOf cs).star.matches' ↔ ∀ c ∈ w, c ∈ cs := by
  rw [RegularExpression.matches'_star, Language.mem_kstar]
  constructor
  · rintro ⟨parts, rfl, hparts⟩ c hc
    obtain ⟨part, hpart, hc⟩ := List.mem_flatten.1 hc
    obtain ⟨d, hd, rfl⟩ := mem_oneOf.1 (hparts part hpart)
    rwa [List.mem_singleton.1 hc]
  · intro hw
    refine ⟨w.map fun c => [c], by rw [← List.flatMap_def, List.flatMap_singleton'],
      fun part hpart => ?_⟩
    obtain ⟨c, hc, rfl⟩ := List.mem_map.1 hpart
    exact mem_oneOf.2 ⟨c, hw c hc, rfl⟩

theorem mem_repeatedly_oneOf {cs : List Char} :
    w ∈ (repeatedly (oneOf cs)).matches' ↔ w ≠ [] ∧ ∀ c ∈ w, c ∈ cs := by
  rw [repeatedly, mem_comp]
  constructor
  · rintro ⟨first, more, rfl, hfirst, hmore⟩
    obtain ⟨c, hc, rfl⟩ := mem_oneOf.1 hfirst
    refine ⟨by simp, fun d hd => ?_⟩
    rcases List.mem_cons.1 hd with rfl | hd
    · exact hc
    · exact mem_star_oneOf.1 hmore d hd
  · rintro ⟨hne, hw⟩
    obtain ⟨c, more, rfl⟩ := List.exists_cons_of_ne_nil hne
    exact ⟨[c], more, rfl, mem_oneOf.2 ⟨c, hw c List.mem_cons_self, rfl⟩,
      mem_star_oneOf.2 fun d hd => hw d (List.mem_cons_of_mem c hd)⟩

/-! ## The classes of characters -/

theorem mem_digits_iff : c ∈ "0123456789".toList ↔ c.isDigit = true := by
  constructor
  · have hall : "0123456789".toList.all Char.isDigit = true := by decide
    exact List.all_eq_true.1 hall c
  · intro h
    have hall : ∀ n < 58, 48 ≤ n → Char.ofNat n ∈ "0123456789".toList := by decide
    obtain ⟨hlow, hhigh⟩ := Text.isDigit_iff.1 h
    rw [← Char.ofNat_toNat c]
    exact hall c.toNat (by omega) hlow

theorem isHexDigit_iff : isHexDigit c = true ↔
    (48 ≤ c.toNat ∧ c.toNat ≤ 57) ∨ (65 ≤ c.toNat ∧ c.toNat ≤ 70) ∨
      (97 ≤ c.toNat ∧ c.toNat ≤ 102) := by
  have hle : ∀ a b : Char, a ≤ b ↔ a.toNat ≤ b.toNat := fun a b => UInt32.le_iff_toNat_le
  simp only [isHexDigit, Bool.or_eq_true, Bool.and_eq_true, decide_eq_true_eq, Text.isDigit_iff,
    hle, or_assoc]
  rfl

theorem mem_hexDigits_iff : c ∈ "0123456789ABCDEFabcdef".toList ↔ isHexDigit c = true := by
  constructor
  · have hall : "0123456789ABCDEFabcdef".toList.all isHexDigit = true := by decide
    exact List.all_eq_true.1 hall c
  · intro h
    have hall : ∀ n < 103, (48 ≤ n ∧ n ≤ 57) ∨ (65 ≤ n ∧ n ≤ 70) ∨ (97 ≤ n ∧ n ≤ 102) →
        Char.ofNat n ∈ "0123456789ABCDEFabcdef".toList := by decide
    have hc := isHexDigit_iff.1 h
    rw [← Char.ofNat_toNat c]
    exact hall c.toNat (by omega) hc

theorem mem_star_digit : w ∈ digit.star.matches' ↔ ∀ c ∈ w, c.isDigit = true := by
  simp only [digit, mem_star_oneOf, mem_digits_iff]

theorem mem_repeatedly_digit :
    w ∈ (repeatedly digit).matches' ↔ w ≠ [] ∧ ∀ c ∈ w, c.isDigit = true := by
  simp only [digit, mem_repeatedly_oneOf, mem_digits_iff]

theorem mem_hexGrammar :
    w ∈ hexGrammar.matches' ↔ w ≠ [] ∧ ∀ c ∈ w, isHexDigit c = true := by
  simp only [hexGrammar, hexDigit, mem_repeatedly_oneOf, mem_hexDigits_iff]

theorem mem_signPart : w ∈ signPart.matches' ↔ w = ['+'] ∨ w = ['-'] ∨ w = [] := by
  rw [signPart, mem_optionally, mem_oneOf]
  simp [or_assoc]

theorem mem_exponentPart : w ∈ exponentPart.matches' ↔
    w = [] ∨ ∃ mark sign digits, w = mark :: (sign ++ digits) ∧ (mark = 'E' ∨ mark = 'e') ∧
      sign ∈ signPart.matches' ∧ digits ≠ [] ∧ ∀ c ∈ digits, c.isDigit = true := by
  rw [exponentPart, mem_optionally, mem_comp, or_comm]
  apply or_congr Iff.rfl
  constructor
  · rintro ⟨mark, rest, rfl, hmark, hrest⟩
    obtain ⟨c, hc, rfl⟩ := mem_oneOf.1 hmark
    obtain ⟨sign, digits, rfl, hsign, hdigits⟩ := mem_comp.1 hrest
    exact ⟨c, sign, digits, rfl, by simpa using hc, hsign, mem_repeatedly_digit.1 hdigits⟩
  · rintro ⟨mark, sign, digits, rfl, hmark, hsign, hdigits⟩
    refine ⟨[mark], sign ++ digits, rfl, mem_oneOf.2 ⟨mark, by simpa using hmark, rfl⟩, ?_⟩
    exact mem_comp.2 ⟨sign, digits, rfl, hsign, mem_repeatedly_digit.2 hdigits⟩

/-- A mantissa is a run of digits and perhaps a point with digits, with a digit in one of them. -/
theorem mem_mantissa : w ∈ mantissa.matches' ↔
    ∃ whole point, w = whole ++ point ∧ (∀ c ∈ whole, c.isDigit = true) ∧
      ((point = [] ∧ whole ≠ []) ∨ ∃ fraction, point = '.' :: fraction ∧
        (∀ c ∈ fraction, c.isDigit = true) ∧ (whole ≠ [] ∨ fraction ≠ [])) := by
  have hsum : w ∈ mantissa.matches' ↔
      w ∈ (repeatedly digit * optionally (.char '.' * digit.star)).matches' ∨
        w ∈ (.char '.' * repeatedly digit : RegularExpression Char).matches' := Iff.rfl
  rw [hsum, mem_comp, mem_comp]
  constructor
  · rintro (⟨whole, point, rfl, hwhole, hpoint⟩ | ⟨point, fraction, rfl, rfl, hfraction⟩)
    · obtain ⟨hne, hdigits⟩ := mem_repeatedly_digit.1 hwhole
      refine ⟨whole, point, rfl, hdigits, ?_⟩
      rcases mem_optionally.1 hpoint with hpoint | rfl
      · obtain ⟨_, fraction, rfl, rfl, hfraction⟩ := mem_comp.1 hpoint
        exact .inr ⟨fraction, rfl, mem_star_digit.1 hfraction, .inl hne⟩
      · exact .inl ⟨rfl, hne⟩
    · obtain ⟨hne, hdigits⟩ := mem_repeatedly_digit.1 hfraction
      exact ⟨[], '.' :: fraction, rfl, by simp, .inr ⟨fraction, rfl, hdigits, .inr hne⟩⟩
  · rintro ⟨whole, point, rfl, hwhole, ⟨rfl, hne⟩ | ⟨fraction, rfl, hfraction, hne⟩⟩
    · exact .inl ⟨whole, [], rfl, mem_repeatedly_digit.2 ⟨hne, hwhole⟩, mem_optionally.2 (.inr rfl)⟩
    · by_cases hw : whole = []
      · subst hw
        have hne := hne.resolve_left fun h => h rfl
        exact .inr ⟨['.'], fraction, rfl, rfl, mem_repeatedly_digit.2 ⟨hne, hfraction⟩⟩
      · refine .inl ⟨whole, '.' :: fraction, rfl, mem_repeatedly_digit.2 ⟨hw, hwhole⟩, ?_⟩
        exact mem_optionally.2 (.inl (mem_comp.2 ⟨['.'], fraction, rfl, rfl,
          mem_star_digit.2 hfraction⟩))

end

/-! ## The longest numeral -/

structure Longest (P : RegularExpression Char) (text numeral : List Char) : Prop where
  start : numeral <+: text
  mem : numeral ∈ P.matches'
  longest : ∀ other, other <+: text → other ∈ P.matches' → other.length ≤ numeral.length

namespace Longest

variable {P : RegularExpression Char} {text numeral : List Char} {n : Nat}

theorem self (h : numeral ∈ P.matches') : Longest P numeral numeral :=
  ⟨List.prefix_rfl, h, fun _ hother _ => hother.length_le⟩

theorem take_length (h : Longest P text numeral) : text.take numeral.length = numeral :=
  (List.prefix_iff_eq_take.1 h.start).symm

/-- A measure that runs neither long nor short is that of the longest numeral. -/
theorem iff_of_measure {size : Option Nat}
    (hsound : ∀ n, size = some n → n ≤ text.length ∧ text.take n ∈ P.matches')
    (hcomplete : ∀ other, other <+: text → other ∈ P.matches' →
      ∃ n, size = some n ∧ other.length ≤ n) :
    size = some n ↔ ∃ numeral, Longest P text numeral ∧ numeral.length = n := by
  constructor
  · intro h
    obtain ⟨hle, hmem⟩ := hsound n h
    have hlength : (text.take n).length = n := List.length_take_of_le hle
    refine ⟨text.take n, ⟨List.take_prefix n text, hmem, fun other hstart hother => ?_⟩, hlength⟩
    obtain ⟨m, hm, hlong⟩ := hcomplete other hstart hother
    cases h.symm.trans hm
    rwa [hlength]
  · rintro ⟨numeral, hlongest, rfl⟩
    obtain ⟨m, hm, hlong⟩ := hcomplete numeral hlongest.start hlongest.mem
    obtain ⟨hle, hmem⟩ := hsound m hm
    have hshort := hlongest.longest _ (List.take_prefix m text) hmem
    rw [List.length_take_of_le hle] at hshort
    rw [hm, Nat.le_antisymm hshort hlong]

end Longest

section

variable {cs rest sign digits : List Char}

theorem digitRun_prefix_append (hd : ∀ c ∈ digits, c.isDigit = true) (rest : List Char) :
    digits <+: digitRun (digits ++ rest) := by
  rw [digitRun, List.takeWhile_append_of_pos hd]
  exact List.prefix_append _ _

theorem take_digitRun (cs : List Char) : cs.take (digitRun cs).length = digitRun cs :=
  (List.prefix_iff_eq_take.1 (List.takeWhile_prefix Char.isDigit)).symm

theorem isDigit_of_mem_digitRun {c : Char} (h : c ∈ digitRun cs) : c.isDigit = true :=
  Text.of_mem_takeWhile h

/-- A sign is taken for one if no other sign follows it. -/
theorem signOf_append (hs : sign ∈ signPart.matches')
    (hrest : ∀ c ∈ rest.head?, c ≠ '+' ∧ c ≠ '-') :
    signOf (sign ++ rest) = (decide (sign = ['-']), sign.length) := by
  rcases mem_signPart.1 hs with rfl | rfl | rfl
  · rfl
  · rfl
  · unfold signOf
    split
    · rename_i heq
      exact absurd rfl (hrest '-' (by rw [← List.nil_append rest, heq]; rfl)).2
    · rename_i heq
      exact absurd rfl (hrest '+' (by rw [← List.nil_append rest, heq]; rfl)).1
    · rfl

theorem exists_signOf (cs : List Char) :
    ∃ sign rest, cs = sign ++ rest ∧ sign ∈ signPart.matches' ∧
      signOf cs = (decide (sign = ['-']), sign.length) := by
  unfold signOf
  split
  · exact ⟨['-'], _, rfl, mem_signPart.2 (.inr (.inl rfl)), rfl⟩
  · exact ⟨['+'], _, rfl, mem_signPart.2 (.inl rfl), rfl⟩
  · exact ⟨[], _, rfl, mem_signPart.2 (.inr (.inr rfl)), rfl⟩

theorem ne_sign_of_isDigit {c : Char} (h : c.isDigit = true) : c ≠ '+' ∧ c ≠ '-' := by
  constructor <;> rintro rfl <;> cases h

theorem ne_sign_of_digits (hne : digits ≠ []) (hd : ∀ c ∈ digits, c.isDigit = true) :
    ∀ c ∈ (digits ++ rest).head?, c ≠ '+' ∧ c ≠ '-' := by
  obtain ⟨d, ds, rfl⟩ := List.exists_cons_of_ne_nil hne
  intro c hc
  cases hc
  exact ne_sign_of_isDigit (hd d List.mem_cons_self)

/-! ## Exponents -/

theorem take_scanExponent_mem (cs : List Char) :
    cs.take (scanExponent cs).2 ∈ exponentPart.matches' := by
  cases cs with
  | nil => exact mem_exponentPart.2 (.inl rfl)
  | cons mark cs =>
    rw [scanExponent]
    dsimp only
    split
    · rename_i hmark
      obtain ⟨sign, rest, rfl, hsign, hsize⟩ := exists_signOf cs
      rw [hsize]
      dsimp only
      rw [List.drop_left]
      split
      · exact mem_exponentPart.2 (.inl rfl)
      · rename_i hdigits
        refine mem_exponentPart.2 (.inr ⟨mark, sign, digitRun rest, ?_, hmark, hsign, ?_,
          fun c => isDigit_of_mem_digitRun⟩)
        · have htake : (sign ++ rest).take (sign.length + (digitRun rest).length) =
              sign ++ digitRun rest := by
            rw [List.take_length_add_append, take_digitRun]
          rw [Nat.add_assoc, Nat.add_comm, List.take_succ_cons, htake]
        · rintro hnil
          rw [hnil] at hdigits
          exact hdigits rfl
    · exact mem_exponentPart.2 (.inl rfl)

theorem length_le_scanExponent {exponent : List Char} (h : exponent ∈ exponentPart.matches')
    (rest : List Char) : exponent.length ≤ (scanExponent (exponent ++ rest)).2 := by
  rcases mem_exponentPart.1 h with rfl | ⟨mark, sign, digits, rfl, hmark, hsign, hne, hd⟩
  · exact Nat.zero_le _
  · have hsize : signOf (sign ++ (digits ++ rest)) = (decide (sign = ['-']), sign.length) :=
      signOf_append hsign (ne_sign_of_digits hne hd)
    have hrun := (digitRun_prefix_append hd rest).length_le
    have hpos := List.length_pos_iff.2 hne
    have hempty : ¬(digitRun (digits ++ rest)).isEmpty = true := by
      rw [List.isEmpty_iff_length_eq_zero]
      omega
    rw [List.cons_append, List.append_assoc, scanExponent]
    dsimp only
    rw [if_pos hmark, hsize, List.drop_left, if_neg hempty, List.length_cons, List.length_append]
    omega

/-! ## Reals -/

def unsignedSize (cs : List Char) : Option Nat :=
  let rest := cs.drop (digitRun cs).length
  if digitRun cs = [] ∧ (scanFraction rest).getD [] = [] then none
  else some ((digitRun cs).length + tailSize rest)

theorem map_size_scanRealNumeral (cs : List Char) :
    (scanRealNumeral cs).map (·.size) =
      (unsignedSize (cs.drop (signOf cs).2)).map ((signOf cs).2 + ·) := by
  have hdrop : ∀ n, cs.drop ((signOf cs).2 + n) = (cs.drop (signOf cs).2).drop n := fun n =>
    (List.drop_drop).symm
  rw [scanRealNumeral, unsignedSize]
  dsimp only
  rw [hdrop]
  generalize cs.drop (signOf cs).2 = rest at hdrop
  generalize hafter : rest.drop (digitRun rest).length = after
  by_cases hnone : digitRun rest = [] ∧ (scanFraction after).getD [] = []
  · rw [if_pos hnone, if_pos (by simp [hnone])]
    rfl
  · have hsome : ¬((digitRun rest).isEmpty && ((scanFraction after).getD []).isEmpty) = true := by
      simpa using hnone
    have hpoint : (if (scanFraction after).isSome then
        1 + ((scanFraction after).getD []).length else 0) = pointSize after := by
      rw [pointSize]
      cases scanFraction after <;> rfl
    rw [if_neg hnone, if_neg hsome, hpoint, Nat.add_assoc, hdrop, ← List.drop_drop, hafter]
    simp only [Option.map_some, tailSize, Nat.add_assoc]

theorem scanFraction_eq_some {fraction : List Char} :
    scanFraction cs = some fraction ↔ ∃ more, cs = '.' :: more ∧ fraction = digitRun more := by
  unfold scanFraction
  split
  · rename_i more
    simp [eq_comm]
  · rename_i hpoint
    refine iff_of_false (by simp) ?_
    rintro ⟨more, rfl, -⟩
    exact hpoint more rfl

theorem unsignedSize_append {whole : List Char} (hwhole : ∀ c ∈ whole, c.isDigit = true)
    (hrest : ∀ c ∈ rest.head?, c.isDigit = false) :
    unsignedSize (whole ++ rest) =
      if whole = [] ∧ (scanFraction rest).getD [] = [] then none
      else some (whole.length + tailSize rest) := by
  rw [unsignedSize, digitRun_append hwhole hrest, List.drop_left]

theorem unsignedSize_sound {n : Nat} (h : unsignedSize cs = some n) :
    n ≤ cs.length ∧ cs.take n ∈ (mantissa * exponentPart).matches' := by
  obtain ⟨whole, rest, rfl, hwhole, hrest⟩ := Text.exists_run Char.isDigit cs
  rw [unsignedSize_append hwhole hrest] at h
  split at h
  · cases h
  · rename_i hdigits
    cases h
    have hle := (spans_tailSize rest).1
    refine ⟨by rw [List.length_append]; omega, ?_⟩
    rw [List.take_length_add_append, tailSize, List.take_add, ← List.append_assoc]
    refine mem_comp.2 ⟨_, _, rfl, ?_, take_scanExponent_mem _⟩
    refine mem_mantissa.2 ⟨whole, _, rfl, hwhole, ?_⟩
    cases hfraction : scanFraction rest with
    | none =>
      rw [hfraction] at hdigits
      have hpoint : pointSize rest = 0 := by rw [pointSize, hfraction]
      exact .inl ⟨by rw [hpoint, List.take_zero], fun hnil => hdigits ⟨hnil, rfl⟩⟩
    | some fraction =>
      rw [hfraction] at hdigits
      have hpoint : pointSize rest = 1 + fraction.length := by rw [pointSize, hfraction]
      obtain ⟨more, rfl, rfl⟩ := scanFraction_eq_some.1 hfraction
      refine .inr ⟨digitRun more, ?_, fun c => isDigit_of_mem_digitRun, not_and_or.1 hdigits⟩
      rw [hpoint, Nat.add_comm, List.take_succ_cons, take_digitRun]

theorem head_exponentPart {exponent : List Char} (h : exponent ∈ exponentPart.matches')
    (hne : exponent ≠ []) (rest : List Char) :
    ∀ c ∈ (exponent ++ rest).head?, c.isDigit = false ∧ c ≠ '.' := by
  obtain ⟨mark, sign, digits, rfl, hmark, -⟩ := (mem_exponentPart.1 h).resolve_left hne
  intro c hc
  cases hc
  rcases hmark with rfl | rfl <;> decide

/-- A point and an exponent are taken whole, whatever follows them. -/
theorem length_le_tailSize_point {fraction exponent : List Char}
    (hd : ∀ c ∈ fraction, c.isDigit = true) (hexponent : exponent ∈ exponentPart.matches')
    (rest : List Char) :
    fraction.length + 1 + exponent.length ≤ tailSize ('.' :: (fraction ++ (exponent ++ rest))) := by
  rw [tailSize]
  have hpoint : pointSize ('.' :: (fraction ++ (exponent ++ rest))) =
      1 + (digitRun (fraction ++ (exponent ++ rest))).length := rfl
  by_cases hne : exponent = []
  · subst hne
    have := (digitRun_prefix_append hd ([] ++ rest)).length_le
    rw [hpoint, List.length_nil]
    omega
  · have hrun : digitRun (fraction ++ (exponent ++ rest)) = fraction :=
      digitRun_append hd fun c hc => (head_exponentPart hexponent hne rest c hc).1
    have hdrop : ('.' :: (fraction ++ (exponent ++ rest))).drop (1 + fraction.length) =
        exponent ++ rest := by
      rw [Nat.add_comm, List.drop_succ_cons, List.drop_left]
    have := length_le_scanExponent hexponent rest
    rw [hpoint, hrun, hdrop]
    omega

theorem length_le_tailSize_exponent {exponent : List Char}
    (hexponent : exponent ∈ exponentPart.matches') (hne : exponent ≠ []) (rest : List Char) :
    exponent.length ≤ tailSize (exponent ++ rest) := by
  have hpoint : scanFraction (exponent ++ rest) = none := by
    refine Option.eq_none_iff_forall_ne_some.2 fun fraction hfraction => ?_
    obtain ⟨more, heq, -⟩ := scanFraction_eq_some.1 hfraction
    exact (head_exponentPart hexponent hne rest '.' (by rw [heq]; rfl)).2 rfl
  have := length_le_scanExponent hexponent rest
  rw [tailSize, pointSize, hpoint]
  dsimp only
  rwa [List.drop_zero, Nat.zero_add]

/-- A real without its sign is measured in full, whatever follows it. -/
theorem unsignedSize_complete {numeral : List Char}
    (h : numeral ∈ (mantissa * exponentPart).matches') (rest : List Char) :
    ∃ n, unsignedSize (numeral ++ rest) = some n ∧ numeral.length ≤ n := by
  obtain ⟨m, exponent, rfl, hm, hexponent⟩ := mem_comp.1 h
  obtain ⟨whole, point, rfl, hwhole, hpoint⟩ := mem_mantissa.1 hm
  rw [List.append_assoc, List.append_assoc]
  rcases hpoint with ⟨rfl, hne⟩ | ⟨fraction, rfl, hfraction, hne⟩
  · rw [List.nil_append]
    by_cases hempty : exponent = []
    · -- The digits may go on behind the numeral.
      subst hempty
      simp only [List.nil_append, List.append_nil]
      have hrun := digitRun_prefix_append hwhole rest
      have hnone : ¬(digitRun (whole ++ rest) = [] ∧ (scanFraction
          ((whole ++ rest).drop (digitRun (whole ++ rest)).length)).getD [] = []) := by
        rintro ⟨hnil, -⟩
        rw [hnil] at hrun
        exact hne (List.prefix_nil.1 hrun)
      refine ⟨_, if_neg hnone, ?_⟩
      have := hrun.length_le
      omega
    · refine ⟨_, (unsignedSize_append hwhole fun c hc =>
        (head_exponentPart hexponent hempty rest c hc).1).trans (if_neg fun h => hne h.1), ?_⟩
      have := length_le_tailSize_exponent hexponent hempty rest
      simp only [List.length_append, List.length_nil]
      omega
  · have hnone : ¬(whole = [] ∧ (scanFraction
        ('.' :: fraction ++ (exponent ++ rest))).getD [] = []) := by
      rintro ⟨hw, hf⟩
      have hrun := digitRun_prefix_append hfraction (exponent ++ rest)
      rw [show digitRun (fraction ++ (exponent ++ rest)) = [] from hf] at hrun
      exact hne.elim (fun h => h hw) fun h => h (List.prefix_nil.1 hrun)
    refine ⟨_, (unsignedSize_append hwhole ?_).trans (if_neg hnone), ?_⟩
    · intro c hc
      cases hc
      decide
    · have := length_le_tailSize_point hfraction hexponent rest
      simp only [List.length_append, List.length_cons, List.cons_append]
      omega

/-! ## Numerals with their signs -/

theorem ne_sign_of_mantissa {m : List Char} (hm : m ∈ mantissa.matches') (rest : List Char) :
    ∀ c ∈ (m ++ rest).head?, c ≠ '+' ∧ c ≠ '-' := by
  obtain ⟨whole, point, rfl, hwhole, hpoint⟩ := mem_mantissa.1 hm
  rw [List.append_assoc]
  by_cases hne : whole = []
  · subst hne
    obtain ⟨fraction, rfl, -⟩ := hpoint.resolve_left fun h => h.2 rfl
    intro c hc
    cases hc
    decide
  · exact ne_sign_of_digits hne hwhole

theorem scanRealNumeral_sound {text : List Char} {n : Nat}
    (h : (scanRealNumeral text).map (·.size) = some n) :
    n ≤ text.length ∧ text.take n ∈ realGrammar.matches' := by
  obtain ⟨sign, rest, rfl, hsign, hsize⟩ := exists_signOf text
  rw [map_size_scanRealNumeral, hsize, List.drop_left] at h
  obtain ⟨m, hm, rfl⟩ := Option.map_eq_some_iff.1 h
  obtain ⟨hle, hmem⟩ := unsignedSize_sound hm
  refine ⟨by rw [List.length_append]; omega, ?_⟩
  rw [List.take_length_add_append]
  exact mem_comp.2 ⟨sign, rest.take m, rfl, hsign, hmem⟩

theorem scanRealNumeral_complete {numeral text : List Char} (hstart : numeral <+: text)
    (h : numeral ∈ realGrammar.matches') :
    ∃ n, (scanRealNumeral text).map (·.size) = some n ∧ numeral.length ≤ n := by
  obtain ⟨rest, rfl⟩ := hstart
  obtain ⟨sign, unsigned, rfl, hsign, hunsigned⟩ := mem_comp.1 h
  obtain ⟨m, exponent, rfl, hm, hexponent⟩ := mem_comp.1 hunsigned
  obtain ⟨n, hn, hle⟩ := unsignedSize_complete hunsigned rest
  have hsize : signOf (sign ++ (m ++ exponent ++ rest)) = (decide (sign = ['-']), sign.length) := by
    rw [List.append_assoc]
    exact signOf_append hsign (ne_sign_of_mantissa hm _)
  refine ⟨sign.length + n, ?_, by rw [List.length_append]; omega⟩
  rw [List.append_assoc, map_size_scanRealNumeral, hsize, List.drop_left, hn]
  rfl

theorem size_scanRealNumeral_iff {text : List Char} {n : Nat} :
    (scanRealNumeral text).map (·.size) = some n ↔
      ∃ numeral, Longest realGrammar text numeral ∧ numeral.length = n :=
  Longest.iff_of_measure (fun _ => scanRealNumeral_sound) fun _ => scanRealNumeral_complete

end

end LineBasic.Number
