import Mathlib.Data.List.Forall2
import LineBasic.Using.Field

/-!
# The parts of a print format

The fields of a format and the text between them are cut out of it in order, and nothing is left
over. The characters of a field say all that is known about it, and their number is its width. Every
hash sign belongs to a field, and every field has one, so a format has a field exactly if it has a
hash sign.
-/

set_option autoImplicit false

namespace LineBasic.Using

def Alignment.sign : Alignment → Char
  | centre => '='
  | right => '>'

def fractionText : Option Nat → List Char
  | none => []
  | some places => '.' :: List.replicate places '#'

/-- The digit places of a number field: hash signs, with commas among or behind them, and perhaps a
point with more hash signs. -/
def DigitPlaces (digits : Nat) (decimals : Option Nat) (comma : Bool) (text : List Char) : Prop :=
  ∃ whole, text = whole ++ fractionText decimals ∧ (∀ c ∈ whole, c = '#' ∨ c = ',') ∧
    whole.head? ≠ some ',' ∧ whole.count '#' = digits ∧ (comma = true ↔ ',' ∈ whole)

/-- The characters of a number field: a sign in front, a dollar sign, the digit places, four carets
and a sign at the end. A field has one sign at most, and at least one digit place. -/
def NumberField.Spells (f : NumberField) (span : List Char) : Prop :=
  ∃ places, span = f.leadingSign.toList ++ ((if f.dollar then ['$'] else []) ++
      (places ++ ((if f.exponent then ['^', '^', '^', '^'] else []) ++ f.trailingSign.toList))) ∧
    DigitPlaces f.digits f.decimals f.comma places ∧ 0 < f.digits + f.decimals.getD 0 ∧
    (∀ c ∈ f.leadingSign.toList ++ f.trailingSign.toList, c = '+' ∨ c = '-') ∧
    (f.leadingSign = none ∨ f.trailingSign = none) ∧ f.width = span.length

def Field.Spells : Field → List Char → Prop
  | literal cs, span => span = cs ∧ cs ≠ [] ∧ '#' ∉ cs
  | text width align, span => span = align.sign :: List.replicate (width - 1) '#' ∧ 1 < width
  | number f, span => f.Spells span

theorem Field.Spells.length {field : Field} {span : List Char} (h : field.Spells span) :
    span.length = field.width := by
  cases field with
  | literal cs =>
    obtain ⟨rfl, -⟩ := h
    rfl
  | text width align =>
    obtain ⟨rfl, hwidth⟩ := h
    rw [List.length_cons, List.length_replicate, Nat.sub_add_cancel (Nat.le_of_lt hwidth)]
    rfl
  | number f =>
    obtain ⟨places, -, -, -, -, -, hwidth⟩ := h
    exact hwidth.symm

namespace DigitPlaces

variable {digits : Nat} {decimals : Option Nat} {comma : Bool} {text : List Char}

/-- Digit places have as many hash signs as digits and decimals. -/
theorem count (h : DigitPlaces digits decimals comma text) :
    text.count '#' = digits + decimals.getD 0 := by
  obtain ⟨whole, rfl, -, -, hcount, -⟩ := h
  rw [List.count_append, hcount]
  cases decimals with
  | none => rfl
  | some places => simp [fractionText]

theorem nil : DigitPlaces 0 none false [] := ⟨[], rfl, by simp, by simp, rfl, by simp⟩

/-- Without a point, digit places are hash signs and commas. -/
theorem none_iff : DigitPlaces digits none comma text ↔
    (∀ c ∈ text, c = '#' ∨ c = ',') ∧ text.head? ≠ some ',' ∧ text.count '#' = digits ∧
      (comma = true ↔ ',' ∈ text) := by
  constructor
  · rintro ⟨whole, rfl, h⟩
    rwa [fractionText, List.append_nil]
  · intro h
    exact ⟨text, by rw [fractionText, List.append_nil], h⟩

theorem digit (h : DigitPlaces digits none comma text) :
    DigitPlaces (digits + 1) none comma (text ++ ['#']) := by
  obtain ⟨hall, hhead, hcount, hcomma⟩ := none_iff.1 h
  refine none_iff.2 ⟨?_, ?_, ?_, ?_⟩
  · intro c hc
    rcases List.mem_append.1 hc with hc | hc
    · exact hall c hc
    · exact .inl (List.mem_singleton.1 hc)
  · cases text <;> simp_all
  · simp [hcount]
  · simp [hcomma]

theorem separator (h : DigitPlaces digits none comma text) (hpos : 0 < digits) :
    DigitPlaces digits none true (text ++ [',']) := by
  obtain ⟨hall, hhead, hcount, -⟩ := none_iff.1 h
  refine none_iff.2 ⟨?_, ?_, ?_, ?_⟩
  · intro c hc
    rcases List.mem_append.1 hc with hc | hc
    · exact hall c hc
    · exact .inr (List.mem_singleton.1 hc)
  · -- A comma is not the first sign, as a digit place stands in front of it.
    cases text with
    | nil => simp at hcount; omega
    | cons c cs => exact hhead
  · simp [hcount]
  · simp

theorem point (h : DigitPlaces digits none comma text) :
    DigitPlaces digits (some 0) comma (text ++ ['.']) :=
  ⟨text, rfl, none_iff.1 h⟩

theorem decimal {places : Nat} (h : DigitPlaces digits (some places) comma text) :
    DigitPlaces digits (some (places + 1)) comma (text ++ ['#']) := by
  obtain ⟨whole, rfl, h⟩ := h
  exact ⟨whole, by simp [fractionText, List.replicate_succ'], h⟩

end DigitPlaces

/-- Every field has a hash sign, and no text between fields has one. -/
theorem Field.Spells.hash_mem_iff {field : Field} {span : List Char} (h : field.Spells span) :
    '#' ∈ span ↔ field.isLiteral = false := by
  cases field with
  | literal cs =>
    obtain ⟨rfl, -, hhash⟩ := h
    exact iff_of_false hhash (by simp [isLiteral])
  | text width align =>
    obtain ⟨rfl, hwidth⟩ := h
    refine iff_of_true (List.mem_cons_of_mem _ (List.mem_replicate.2 ⟨by omega, rfl⟩)) rfl
  | number f =>
    obtain ⟨places, rfl, hplaces, hpos, -⟩ := h
    have hmem : '#' ∈ places := by
      rw [← List.count_pos_iff, hplaces.count]
      exact hpos
    exact iff_of_true (by simp [hmem]) rfl

theorem Field.Spells.ne_nil {field : Field} {span : List Char} (h : field.Spells span) :
    span ≠ [] := by
  cases field with
  | literal cs =>
    obtain ⟨rfl, hne, -⟩ := h
    exact hne
  | text width align => exact List.ne_nil_of_mem (h.hash_mem_iff.2 rfl)
  | number f => exact List.ne_nil_of_mem (h.hash_mem_iff.2 rfl)

/-! ## Recognition -/

def Places.Spells (p : Places) (text : List Char) : Prop :=
  DigitPlaces p.digits p.decimals p.comma text ∧ p.size = text.length

theorem Places.Spells.extend {p q : Places} {text : List Char} (h : p.Spells text) {c : Char}
    (hq : p.extend? c = some q) : q.Spells (text ++ [c]) := by
  obtain ⟨hplaces, hsize⟩ := h
  have hsucc : p.size + 1 = (text ++ [c]).length := by rw [hsize, List.length_append]; rfl
  unfold extend? at hq
  split at hq
  · rename_i hnone
    cases hq
    rw [hnone] at hplaces
    exact ⟨by rw [hnone]; exact hplaces.digit, hsucc⟩
  · rename_i places hsome
    cases hq
    rw [hsome] at hplaces
    exact ⟨hplaces.decimal, hsucc⟩
  · rename_i hnone
    split at hq <;> cases hq
    rename_i hpos
    rw [hnone] at hplaces
    exact ⟨by rw [hnone]; exact hplaces.separator hpos, hsucc⟩
  · rename_i hnone
    cases hq
    rw [hnone] at hplaces
    exact ⟨hplaces.point, hsucc⟩
  · cases hq

theorem Places.Spells.scan {p : Places} {text : List Char} (h : p.Spells text) (cs : List Char) :
    ∃ span rest, cs = span ++ rest ∧ (p.scan cs).Spells (text ++ span) := by
  induction cs generalizing p text with
  | nil => exact ⟨[], [], rfl, by simpa [Places.scan] using h⟩
  | cons c cs ih =>
    cases hq : p.extend? c with
    | none =>
      refine ⟨[], c :: cs, rfl, ?_⟩
      rw [Places.scan, hq, List.append_nil]
      exact h
    | some q =>
      obtain ⟨span, rest, rfl, hspan⟩ := ih (h.extend hq)
      refine ⟨c :: span, rest, rfl, ?_⟩
      rw [Places.scan, hq, List.append_cons]
      exact hspan

theorem exists_places (cs : List Char) :
    ∃ span, cs = span ++ cs.drop (Places.scan {} cs).size ∧ (Places.scan {} cs).Spells span := by
  obtain ⟨span, rest, hcs, hspan⟩ := Places.Spells.scan (p := {}) ⟨.nil, rfl⟩ cs
  rw [List.nil_append] at hspan
  refine ⟨span, ?_, hspan⟩
  rw [hspan.2]
  conv_rhs => rw [hcs, List.drop_left]
  exact hcs

/-- A sign that was found in front, and what follows it. -/
theorem toList_append_drop {cs : List Char} {sign : Option Char}
    (h : ∀ c ∈ sign, cs.head? = some c) :
    sign.toList ++ cs.drop (if sign.isSome then 1 else 0) = cs := by
  cases sign with
  | none => rfl
  | some c =>
    obtain ⟨more, rfl⟩ := List.head?_eq_some_iff.1 (h c rfl)
    rfl

/-- A mark that was found in front, and what follows it. -/
theorem mark_append_drop {mark cs : List Char} {found : Bool} (h : found = true → mark <+: cs) :
    (if found then mark else []) ++ cs.drop (if found then mark.length else 0) = cs := by
  cases found with
  | false => rfl
  | true =>
    obtain ⟨more, rfl⟩ := h rfl
    simp

theorem head_of_leadingSign? {cs : List Char} {c : Char} (h : leadingSign? cs = some c) :
    cs.head? = some c ∧ (c = '+' ∨ c = '-') := by
  unfold leadingSign? at h
  split at h
  · split at h <;> cases h
    rename_i hsign
    exact ⟨rfl, hsign.1⟩
  · cases h

theorem head_of_trailingSign? {cs : List Char} {c : Char} (h : trailingSign? cs = some c) :
    cs.head? = some c ∧ (c = '+' ∨ c = '-') := by
  unfold trailingSign? at h
  split at h
  · split at h <;> cases h
    rename_i hsign
    exact ⟨rfl, hsign⟩
  · cases h

/-- A number field is cut off the front of its text. -/
theorem spells_numberField? {cs : List Char} {f : NumberField} (h : numberField? cs = some f) :
    ∃ span rest, cs = span ++ rest ∧ f.Spells span := by
  rw [numberField?] at h
  dsimp only at h
  have hleading : ∀ c ∈ leadingSign? cs, cs.head? = some c ∧ (c = '+' ∨ c = '-') :=
    fun c => head_of_leadingSign?
  have hsign := toList_append_drop fun c hc => (hleading c hc).1
  -- Each part is cut off the front, and what is behind it gets a name before the next one is.
  generalize leadingSign? cs = leading at h hleading hsign
  generalize cs.drop (if leading.isSome then 1 else 0) = afterSign at h hsign
  generalize hdollar : (afterSign.head? == some '$') = dollar at h
  have hcurrency : (if dollar then ['$'] else []) ++ afterSign.drop (if dollar then 1 else 0) =
      afterSign := by
    refine mark_append_drop fun hfound => ?_
    obtain ⟨more, rfl⟩ := List.head?_eq_some_iff.1 (beq_iff_eq.1 (hdollar.trans hfound))
    exact List.prefix_append ['$'] more
  generalize afterSign.drop (if dollar then 1 else 0) = afterDollar at h hcurrency
  obtain ⟨text, htext, hplaces⟩ := exists_places afterDollar
  generalize Places.scan {} afterDollar = places at h htext hplaces
  split at h
  · cases h
  · rename_i hdigits
    generalize afterDollar.drop places.size = afterPlaces at h htext
    generalize hcarets : ['^', '^', '^', '^'].isPrefixOf afterPlaces = carets at h
    have hexponent : (if carets then ['^', '^', '^', '^'] else []) ++
        afterPlaces.drop (if carets then 4 else 0) = afterPlaces :=
      mark_append_drop fun hfound => List.isPrefixOf_iff_prefix.1 (hcarets.trans hfound)
    generalize afterPlaces.drop (if carets then 4 else 0) = afterExponent at h hexponent
    have htrailing : ∀ c ∈ (if leading.isSome then none else trailingSign? afterExponent),
        afterExponent.head? = some c ∧ (c = '+' ∨ c = '-') := by
      intro c hc
      split at hc
      · cases hc
      · exact head_of_trailingSign? hc
    have hone : leading = none ∨
        (if leading.isSome then none else trailingSign? afterExponent) = none := by
      cases leading <;> simp
    have hend := toList_append_drop fun c hc => (htrailing c hc).1
    generalize (if leading.isSome then none else trailingSign? afterExponent) = trailing
      at h htrailing hone hend
    generalize afterExponent.drop (if trailing.isSome then 1 else 0) = rest at h hend
    cases h
    have hcs : cs = leading.toList ++ ((if dollar then ['$'] else []) ++ (text ++
        ((if carets then ['^', '^', '^', '^'] else []) ++ trailing.toList))) ++ rest := by
      simp only [List.append_assoc]
      rw [hend, hexponent, ← htext, hcurrency, hsign]
    refine ⟨_, rest, hcs, text, rfl, hplaces.1, ?_, ?_, hone, ?_⟩
    · have : ¬(places.digits = 0 ∧ places.decimals.getD 0 = 0) := by simpa using hdigits
      dsimp only
      omega
    · intro c hc
      rcases List.mem_append.1 hc with hc | hc
      · exact (hleading c (Option.mem_toList.1 hc)).2
      · exact (htrailing c (Option.mem_toList.1 hc)).2
    · dsimp only
      rw [hcs, List.length_append, Nat.add_sub_cancel]

theorem sign_of_alignment? {c : Char} {align : Alignment} (h : alignment? c = some align) :
    c = align.sign := by
  unfold alignment? at h
  split at h <;> cases h <;> rfl

theorem spells_textField? {c : Char} {cs : List Char} {field : Field}
    (h : textField? c cs = some field) :
    ∃ span rest, c :: cs = span ++ rest ∧ field.Spells span := by
  rw [textField?] at h
  split at h
  · cases h
  · rename_i align halign
    dsimp only at h
    split at h <;> cases h
    rename_i hne
    have hhashes : cs.takeWhile (· == '#') =
        List.replicate (cs.takeWhile (· == '#')).length '#' :=
      List.eq_replicate_of_mem fun c hc => beq_iff_eq.1 (List.all_eq_true.1 List.all_takeWhile c hc)
    refine ⟨c :: cs.takeWhile (· == '#'), cs.dropWhile (· == '#'), ?_, ?_, by omega⟩
    · rw [List.cons_append, List.takeWhile_append_dropWhile]
    · rw [Nat.add_sub_cancel, ← hhashes, sign_of_alignment? halign]

theorem spells_field? {c : Char} {cs : List Char} {field : Field} (h : field? c cs = some field) :
    ∃ span rest, c :: cs = span ++ rest ∧ field.Spells span := by
  rw [field?] at h
  split at h
  · rename_i htext
    cases h
    exact spells_textField? htext
  · obtain ⟨f, hf, rfl⟩ := Option.map_eq_some_iff.1 h
    exact spells_numberField? hf

theorem Places.digits_le_scan (p : Places) (cs : List Char) : p.digits ≤ (p.scan cs).digits := by
  induction cs generalizing p with
  | nil => exact Nat.le_refl _
  | cons c cs ih =>
    rw [Places.scan]
    split
    · rename_i q hq
      have hle : p.digits ≤ q.digits := by
        unfold extend? at hq
        split at hq
        · cases hq
          exact Nat.le_succ _
        · cases hq
          exact Nat.le_refl _
        · split at hq <;> cases hq
          exact Nat.le_refl _
        · cases hq
          exact Nat.le_refl _
        · cases hq
      exact Nat.le_trans hle (ih q)
    · exact Nat.le_refl _

theorem exists_field?_hash (cs : List Char) : ∃ field, field? '#' cs = some field := by
  have hlead : leadingSign? ('#' :: cs) = none := by
    cases cs <;> simp [leadingSign?]
  have hdigits : 1 ≤ (Places.scan {} ('#' :: cs)).digits :=
    Places.digits_le_scan { digits := 1, size := 1 } cs
  have hplaces : ¬((Places.scan {} ('#' :: cs)).digits = 0 &&
      (Places.scan {} ('#' :: cs)).decimals.getD 0 = 0) = true := by
    rw [Bool.and_eq_true, decide_eq_true_eq]
    omega
  have hnumber : (numberField? ('#' :: cs)).isSome = true := by
    rw [numberField?, hlead]
    exact (congrArg Option.isSome (if_neg hplaces)).trans rfl
  obtain ⟨f, hf⟩ := Option.isSome_iff_exists.1 hnumber
  exact ⟨.number f, congrArg (Option.map Field.number) hf⟩

/-- Puts a character in front of the text at the start of some parts. -/
theorem spells_consLiteral {c : Char} (hc : c ≠ '#') {fs : List Field} {spans : List (List Char)}
    (h : List.Forall₂ Field.Spells fs spans) :
    ∃ spans', spans'.flatten = c :: spans.flatten ∧
      List.Forall₂ Field.Spells (consLiteral c fs) spans' := by
  have hnew : List.Forall₂ Field.Spells (.literal [c] :: fs) ([c] :: spans) :=
    .cons ⟨rfl, by simp, by simpa using hc.symm⟩ h
  unfold consLiteral
  split
  · rename_i cs fs
    cases h with
    | @cons _ span _ spans hspan h =>
      obtain ⟨rfl, hne, hhash⟩ := hspan
      refine ⟨(c :: span) :: spans, rfl, .cons ⟨rfl, by simp, ?_⟩ h⟩
      simp [hc.symm, hhash]
  · exact ⟨[c] :: spans, rfl, hnew⟩

/-- The parts of a format are cut out of it in order, and nothing is left over. -/
theorem exists_spans (format : List Char) :
    ∃ spans, spans.flatten = format ∧ List.Forall₂ Field.Spells (fields format) spans := by
  fun_induction fields format with
  | case1 => exact ⟨[], rfl, .nil⟩
  | case2 c cs field hfield ih =>
    obtain ⟨spans, hspans, hall⟩ := ih
    obtain ⟨span, rest, hcs, hspan⟩ := spells_field? hfield
    refine ⟨span :: spans, ?_, .cons hspan hall⟩
    obtain ⟨d, ds, rfl⟩ := List.exists_cons_of_ne_nil hspan.ne_nil
    rw [List.cons_append] at hcs
    obtain ⟨rfl, rfl⟩ := List.cons.inj hcs
    rw [List.flatten_cons, hspans, ← hspan.length, List.length_cons, Nat.add_sub_cancel,
      List.drop_left, List.cons_append]
  | case3 c cs hfield ih =>
    obtain ⟨spans, hspans, hall⟩ := ih
    have hc : c ≠ '#' := by
      rintro rfl
      obtain ⟨field, hfield'⟩ := exists_field?_hash cs
      cases hfield.symm.trans hfield'
    obtain ⟨spans', hflatten, hall'⟩ := spells_consLiteral hc hall
    exact ⟨spans', by rw [hflatten, hspans], hall'⟩

/-- A format has no field if and only if it has no hash sign. -/
theorem all_isLiteral_iff (format : List Char) :
    (fields format).all Field.isLiteral = true ↔ '#' ∉ format := by
  obtain ⟨spans, rfl, hall⟩ := exists_spans format
  generalize fields spans.flatten = fs at hall
  induction hall with
  | nil => simp
  | @cons field span fs spans hspan h ih =>
    rw [List.all_cons, Bool.and_eq_true, ih, List.flatten_cons, List.mem_append, not_or,
      hspan.hash_mem_iff, Bool.not_eq_false]

end LineBasic.Using
