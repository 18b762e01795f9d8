import LineBasic.Proofs.Loop
import LineBasic.Proofs.Using.Format
import LineBasic.Using.Render

/-!
# Values fill fields in turn

The fields of a format take the values of a list one after another, and the format starts again as
long as values are left. So the fields that are visited are known from the number of values alone:
as many full passes as there are values for, and then the fields up to the next one that would need
a value. Each field keeps the width that it has in the format. Main statement:
`render_fills_fields_in_turn`.
-/

set_option autoImplicit false

namespace LineBasic.Using

def slots (fs : List Field) : Nat := fs.countP fun f => !f.isLiteral

def upTo : Nat → List Field → List Field
  | _, [] => []
  | n, .literal cs :: fs => .literal cs :: upTo n fs
  | 0, _ :: _ => []
  | n + 1, f :: fs => f :: upTo n fs

/-- The fields that are visited for `n` values: full passes, and then those up to a field for which
no value is left. Nothing more is visited after a pass that took the last value. -/
def visited (fs : List Field) (n : Nat) : List Field :=
  (List.replicate (n / slots fs) fs).flatten ++
    if 0 < n ∧ n % slots fs = 0 then [] else upTo (n % slots fs) fs

def totalWidth : List Field → Nat
  | [] => 0
  | f :: fs => f.width + totalWidth fs

/-- Some fields with the values that they take, once and in order, and what is written for each of
them. Text between fields is copied and takes no value. -/
inductive Filled : List Field → List Value → List (List Char) → Prop
  | nil : Filled [] [] []
  | literal (cs : List Char) {fs : List Field} {vs : List Value} {parts : List (List Char)}
      (h : Filled fs vs parts) : Filled (.literal cs :: fs) vs (cs :: parts)
  | value {f : Field} {v : Value} {cs : List Char} {fs : List Field} {vs : List Value}
      {parts : List (List Char)} (hf : f.isLiteral = false) (hcs : renderField f v = .ok cs)
      (h : Filled fs vs parts) : Filled (f :: fs) (v :: vs) (cs :: parts)

/-- What becomes of some fields and values: all fields are filled, or a value is no number although
its field asks for one. -/
inductive Outcome : List Field → List Value → Except Fault (List Char) → Prop
  | filled {fs : List Field} {vs : List Value} {parts : List (List Char)} (h : Filled fs vs parts) :
      Outcome fs vs (.ok parts.flatten)
  | refused {before after : List Field} {f : NumberField} {vs ws : List Value} {v : Value}
      {parts : List (List Char)} {fault : Fault} (h : Filled before vs parts)
      (hv : v.toReal = .error fault) :
      Outcome (before ++ .number f :: after) (vs ++ v :: ws) (.error fault)

section

variable {fs gs : List Field} {vs ws : List Value} {f : Field} {v : Value} {n : Nat}

theorem slots_literal (cs : List Char) (fs : List Field) :
    slots (.literal cs :: fs) = slots fs := rfl

theorem slots_cons (hf : f.isLiteral = false) (fs : List Field) :
    slots (f :: fs) = slots fs + 1 := by
  simp [slots, hf]

theorem slots_eq_zero_iff : slots fs = 0 ↔ fs.all Field.isLiteral = true := by
  simp [slots, List.countP_eq_zero]

theorem isLiteral_cases (f : Field) : (∃ cs, f = .literal cs) ∨ f.isLiteral = false := by
  cases f with
  | literal cs => exact .inl ⟨cs, rfl⟩
  | text width align => exact .inr rfl
  | number field => exact .inr rfl

theorem ne_literal (hf : f.isLiteral = false) (cs : List Char) : f = .literal cs → False := by
  rintro rfl
  cases hf

/-! ## The fields that are visited -/

theorem upTo_zero (hf : f.isLiteral = false) (fs : List Field) : upTo 0 (f :: fs) = [] := by
  rw [upTo]
  exact ne_literal hf

theorem upTo_succ (hf : f.isLiteral = false) (n : Nat) (fs : List Field) :
    upTo (n + 1) (f :: fs) = f :: upTo n fs := by
  rw [upTo]
  exact ne_literal hf

theorem visited_of_lt (h : n < slots fs) : visited fs n = upTo n fs := by
  have hnone : ¬(0 < n ∧ n = 0) := by omega
  rw [visited, Nat.div_eq_of_lt h, Nat.mod_eq_of_lt h, if_neg hnone]
  rfl

theorem visited_mul {m : Nat} (hm : 0 < m) (h : 0 < slots fs) :
    visited fs (m * slots fs) = (List.replicate m fs).flatten := by
  have hpos : 0 < m * slots fs := Nat.mul_pos hm h
  rw [visited, Nat.mul_div_cancel m h, Nat.mul_mod_left, if_pos ⟨hpos, rfl⟩, List.append_nil]

theorem visited_add (hn : 0 < n) (h : 0 < slots fs) :
    visited fs (slots fs + n) = fs ++ visited fs n := by
  have hcond : (0 < slots fs + n ∧ n % slots fs = 0) ↔ (0 < n ∧ n % slots fs = 0) := by omega
  rw [visited, visited, Nat.add_div_left n h, Nat.add_mod_left, List.replicate_succ,
    List.flatten_cons, List.append_assoc]
  simp only [hcond]

/-! ## One pass -/

theorem renderPass_starved (hf : f.isLiteral = false) (fs : List Field) :
    renderPass (f :: fs) [] = .ok ([], none) := by
  rw [renderPass]
  exact ne_literal hf

theorem renderPass_of_ok (hf : f.isLiteral = false) {cs : List Char}
    (hcs : renderField f v = .ok cs) (fs : List Field) (vs : List Value) :
    renderPass (f :: fs) (v :: vs) =
      (renderPass fs vs).map fun found => (cs ++ found.1, found.2) := by
  rw [renderPass, hcs]
  exact ne_literal hf

theorem renderPass_of_error (hf : f.isLiteral = false) {fault : Fault}
    (hfault : renderField f v = .error fault) (fs : List Field) (vs : List Value) :
    renderPass (f :: fs) (v :: vs) = .error fault := by
  rw [renderPass, hfault]
  exact ne_literal hf

/-- Only a number field refuses a value, and only one that is no number. -/
theorem refused_of_renderField {fault : Fault} (h : renderField f v = .error fault) :
    ∃ field, f = .number field ∧ v.toReal = .error fault := by
  cases f with
  | literal cs => cases h
  | text width align => cases h
  | number field =>
    refine ⟨field, rfl, ?_⟩
    cases hv : v.toReal with
    | error fault' =>
      rw [renderField, hv] at h
      cases h
      rfl
    | ok x =>
      rw [renderField, hv] at h
      cases h

namespace Outcome

variable {r : Except Fault (List Char)}

theorem literal (cs : List Char) (h : Outcome fs vs r) :
    Outcome (.literal cs :: fs) vs (r.map (cs ++ ·)) := by
  cases h with
  | filled h => exact .filled (.literal cs h)
  | refused h hv => exact .refused (.literal cs h) hv

theorem value (hf : f.isLiteral = false) {cs : List Char} (hcs : renderField f v = .ok cs)
    (h : Outcome fs vs r) : Outcome (f :: fs) (v :: vs) (r.map (cs ++ ·)) := by
  cases h with
  | filled h => exact .filled (.value hf hcs h)
  | refused h hv => exact .refused (.value hf hcs h) hv

theorem of_error {fault : Fault} (h : renderField f v = .error fault) (fs : List Field)
    (vs : List Value) : Outcome (f :: fs) (v :: vs) (.error fault) := by
  obtain ⟨field, rfl, hv⟩ := refused_of_renderField h
  exact .refused .nil hv

/-- Fields that were filled stand in front of those that are still to come. -/
theorem prepend {parts : List (List Char)} (hfilled : Filled gs ws parts) (h : Outcome fs vs r) :
    Outcome (gs ++ fs) (ws ++ vs) (r.map (parts.flatten ++ ·)) := by
  induction hfilled with
  | nil => cases h with
    | filled h => exact .filled h
    | refused h hv => exact .refused h hv
  | literal cs _ ih =>
    have hall := ih.literal cs
    cases r <;> simpa [Except.map] using hall
  | value hf hcs _ ih =>
    have hall := ih.value hf hcs
    cases r <;> simpa [Except.map] using hall

/-- What was refused stays refused whatever fields and values follow. -/
theorem append {fault : Fault} (h : Outcome fs vs (.error fault)) (gs : List Field)
    (ws : List Value) : Outcome (fs ++ gs) (vs ++ ws) (.error fault) := by
  cases h with
  | refused h hv =>
    rw [List.append_assoc, List.cons_append, List.append_assoc, List.cons_append]
    exact .refused h hv

theorem filled_of_ok {cs : List Char} (h : Outcome fs vs (.ok cs)) :
    ∃ parts, Filled fs vs parts ∧ cs = parts.flatten := by
  cases h with
  | filled h => exact ⟨_, h, rfl⟩

theorem kind_of_error {fault : Fault} (h : Outcome fs vs (.error fault)) :
    fault.kind = .typeMismatch := by
  cases h with
  | refused _ hv => exact Value.kind_of_toReal_error hv

end Outcome

/-- A pass that has too few values stops in front of the field that finds none. -/
theorem outcome_of_short (h : vs.length < slots fs) :
    ∃ r, Outcome (upTo vs.length fs) vs r ∧ renderPass fs vs = r.map fun cs => (cs, none) := by
  induction fs generalizing vs with
  | nil => exact absurd h (Nat.not_lt_zero _)
  | cons f fs ih =>
    rcases isLiteral_cases f with ⟨cs, rfl⟩ | hf
    · rw [slots_literal] at h
      obtain ⟨r, hr, hpass⟩ := ih h
      refine ⟨_, hr.literal cs, ?_⟩
      rw [renderPass, hpass]
      cases r <;> rfl
    · cases vs with
      | nil =>
        refine ⟨.ok [], ?_, renderPass_starved hf fs⟩
        rw [List.length_nil, upTo_zero hf]
        exact .filled .nil
      | cons v vs =>
        rw [slots_cons hf, List.length_cons, Nat.add_lt_add_iff_right] at h
        rw [List.length_cons, upTo_succ hf]
        cases hfield : renderField f v with
        | error fault =>
          exact ⟨.error fault, .of_error hfield _ vs, renderPass_of_error hf hfield fs vs⟩
        | ok cs =>
          obtain ⟨r, hr, hpass⟩ := ih h
          refine ⟨_, hr.value hf hfield, ?_⟩
          rw [renderPass_of_ok hf hfield, hpass]
          cases r <;> rfl

/-- A pass that has enough values visits all fields and hands on the values it did not need. -/
theorem outcome_of_enough (h : slots fs ≤ vs.length) :
    ∃ r, Outcome fs (vs.take (slots fs)) r ∧
      renderPass fs vs = r.map fun cs => (cs, some (vs.drop (slots fs))) := by
  induction fs generalizing vs with
  | nil => exact ⟨.ok [], .filled .nil, rfl⟩
  | cons f fs ih =>
    rcases isLiteral_cases f with ⟨cs, rfl⟩ | hf
    · rw [slots_literal] at h ⊢
      obtain ⟨r, hr, hpass⟩ := ih h
      refine ⟨_, hr.literal cs, ?_⟩
      rw [renderPass, hpass]
      cases r <;> rfl
    · rw [slots_cons hf] at h ⊢
      cases vs with
      | nil => exact absurd h (Nat.not_succ_le_zero _)
      | cons v vs =>
        rw [List.length_cons, Nat.add_le_add_iff_right] at h
        rw [List.take_succ_cons, List.drop_succ_cons]
        cases hfield : renderField f v with
        | error fault =>
          exact ⟨.error fault, .of_error hfield fs _, renderPass_of_error hf hfield fs vs⟩
        | ok cs =>
          obtain ⟨r, hr, hpass⟩ := ih h
          refine ⟨_, hr.value hf hfield, ?_⟩
          rw [renderPass_of_ok hf hfield, hpass]
          cases r <;> rfl

/-! ## All passes -/

/-- The passes visit the fields that the number of values says. One pass is left over at the end,
because each pass but the last takes a value. -/
theorem outcome_renderPasses (hslots : 0 < slots fs) {fuel : Nat} (h : vs.length < fuel) :
    Outcome (visited fs vs.length) vs (renderPasses fs fuel vs) := by
  induction fuel generalizing vs with
  | zero => exact absurd h (Nat.not_lt_zero _)
  | succ fuel ih =>
    by_cases hshort : vs.length < slots fs
    · obtain ⟨r, hr, hpass⟩ := outcome_of_short hshort
      rw [visited_of_lt hshort, renderPasses, hpass]
      cases r <;> exact hr
    · obtain ⟨r, hr, hpass⟩ := outcome_of_enough (Nat.le_of_not_lt hshort)
      have hvs : vs.take (slots fs) ++ vs.drop (slots fs) = vs := List.take_append_drop _ _
      have hlen : vs.length = slots fs + (vs.drop (slots fs)).length := by
        rw [List.length_drop]
        omega
      generalize vs.drop (slots fs) = rest at hpass hvs hlen
      rw [renderPasses, hpass]
      cases rest with
      | nil =>
        -- The pass took the last value, so no further pass is begun.
        have hvisited : visited fs vs.length = fs := by
          rw [hlen, List.length_nil, Nat.add_zero, ← Nat.one_mul (slots fs),
            visited_mul Nat.one_pos hslots]
          simp
        rw [List.append_nil] at hvs
        rw [hvs] at hr
        rw [hvisited]
        cases r <;> exact hr
      | cons v rest =>
        rw [hlen, visited_add (List.length_pos_of_ne_nil (List.cons_ne_nil v rest)) hslots, ← hvs]
        cases r with
        | error fault => exact hr.append _ _
        | ok cs =>
          obtain ⟨parts, hfilled, rfl⟩ := hr.filled_of_ok
          exact .prepend hfilled (ih (by omega))

/-! ## Widths -/

theorem length_renderText (width : Nat) (align : Alignment) (v : Value) :
    (renderText width align v).length = width := by
  rw [renderText]
  split
  · exact List.length_replicate
  · cases align <;> simp [blanks] <;> omega

theorem length_renderNumber (field : NumberField) (x : Float) :
    (renderNumber field x).length = field.width := by
  rw [renderNumber]
  generalize withSign field (decide (x < 0)) _ = body
  split
  · exact List.length_replicate
  · rw [List.length_append, blanks, List.length_replicate]
    omega

/-- A value takes up as much room as its field has, whatever the value is. -/
theorem length_renderField {cs : List Char} (h : renderField f v = .ok cs) :
    cs.length = f.width := by
  cases f with
  | literal cs' =>
    cases h
    rfl
  | text width align =>
    cases h
    exact length_renderText width align v
  | number field =>
    cases hv : v.toReal with
    | error fault =>
      rw [renderField, hv] at h
      cases h
    | ok x =>
      rw [renderField, hv] at h
      cases h
      exact length_renderNumber field x

theorem Filled.length {parts : List (List Char)} (h : Filled fs vs parts) :
    parts.flatten.length = totalWidth fs := by
  induction h with
  | nil => rfl
  | literal cs _ ih =>
    rw [List.flatten_cons, List.length_append, ih]
    rfl
  | value _ hcs _ ih =>
    rw [List.flatten_cons, List.length_append, ih, length_renderField hcs, totalWidth]

theorem totalWidth_append (fs gs : List Field) :
    totalWidth (fs ++ gs) = totalWidth fs + totalWidth gs := by
  induction fs with
  | nil => exact (Nat.zero_add _).symm
  | cons f fs ih => rw [List.cons_append, totalWidth, totalWidth, ih, Nat.add_assoc]

theorem totalWidth_replicate (m : Nat) (fs : List Field) :
    totalWidth (List.replicate m fs).flatten = m * totalWidth fs := by
  induction m with
  | zero => exact (Nat.zero_mul _).symm
  | succ m ih =>
    rw [List.replicate_succ, List.flatten_cons, totalWidth_append, ih, Nat.succ_mul, Nat.add_comm]

/-- The fields of a format and the text between them are as long as the format. -/
theorem totalWidth_fields (format : List Char) : totalWidth (fields format) = format.length := by
  obtain ⟨spans, rfl, hall⟩ := exists_spans format
  generalize fields spans.flatten = fs at hall ⊢
  induction hall with
  | nil => rfl
  | cons h _ ih => rw [totalWidth, List.flatten_cons, List.length_append, h.length, ih]

/-! ## The whole text -/

theorem outcome_render {format : String} (h : 0 < slots (fields format.toList)) (vs : List Value) :
    ∃ r, Outcome (visited (fields format.toList) vs.length) vs r ∧
      render format vs = r.map String.ofList := by
  refine ⟨_, outcome_renderPasses h (Nat.lt_succ_self vs.length), ?_⟩
  have hfield : ¬(fields format.toList).all Field.isLiteral = true := by
    rw [← slots_eq_zero_iff]
    omega
  rw [render, if_neg hfield]

theorem illegalQuantity_render_iff (format : String) (vs : List Value) :
    (∃ fault, render format vs = .error fault ∧ fault.kind = .illegalQuantity) ↔
      slots (fields format.toList) = 0 := by
  constructor
  · rintro ⟨fault, hfault, hkind⟩
    by_contra hslots
    obtain ⟨r, hr, hrender⟩ := outcome_render (Nat.pos_of_ne_zero hslots) vs
    rw [hrender] at hfault
    cases r with
    | ok cs => cases hfault
    | error fault' =>
      cases hfault
      rw [hr.kind_of_error] at hkind
      cases hkind
  · intro hslots
    exact ⟨_, if_pos (slots_eq_zero_iff.1 hslots), rfl⟩

/-- Values under a format. The fields and the text between them are all of the format, in order. A
format is refused exactly if it has no field, which is to say no hash sign. Otherwise the values
fill the fields in turn, each value one field, unless a value is no number although its field asks
for one. What is written for a field is as long as the field, so full passes give as many times the
length of the format. -/
theorem render_fills_fields_in_turn (format : String) (vs : List Value) :
    (∃ spans, spans.flatten = format.toList ∧
      List.Forall₂ (fun field span => field.Spells span ∧
        ∀ v cs, renderField field v = .ok cs → cs.length = span.length)
        (fields format.toList) spans) ∧
    ((∃ fault, render format vs = .error fault ∧ fault.kind = .illegalQuantity) ↔
      slots (fields format.toList) = 0) ∧
    (slots (fields format.toList) = 0 ↔ '#' ∉ format.toList) ∧
    (0 < slots (fields format.toList) →
      ∃ r, Outcome (visited (fields format.toList) vs.length) vs r ∧
        render format vs = r.map String.ofList) ∧
    ∀ m out, 0 < m → vs.length = m * slots (fields format.toList) →
      render format vs = .ok out → out.length = m * format.length := by
  refine ⟨?_, illegalQuantity_render_iff format vs, ?_, fun h => outcome_render h vs, ?_⟩
  · obtain ⟨spans, hspans, hall⟩ := exists_spans format.toList
    exact ⟨spans, hspans, hall.imp fun field span h =>
      ⟨h, fun v cs hcs => (length_renderField hcs).trans h.length.symm⟩⟩
  · rw [slots_eq_zero_iff, all_isLiteral_iff]
  · intro m out hm hlen hout
    have hslots : 0 < slots (fields format.toList) := by
      by_contra hnone
      obtain ⟨fault, hfault, -⟩ :=
        (illegalQuantity_render_iff format vs).2 (Nat.eq_zero_of_not_pos hnone)
      rw [hfault] at hout
      cases hout
    obtain ⟨r, hr, hrender⟩ := outcome_render hslots vs
    rw [hrender] at hout
    cases r with
    | error fault => cases hout
    | ok cs =>
      cases hout
      obtain ⟨parts, hparts, rfl⟩ := hr.filled_of_ok
      rw [hlen, visited_mul hm hslots] at hparts
      rw [String.length_ofList, hparts.length, totalWidth_replicate, totalWidth_fields,
        String.length_toList]

/-- Four values under a format with a field for numbers and one for texts are written in two passes.
The tie goes to the even digit, and the last text is too long. -/
theorem render_fills_fields_in_turn_twice :
    render "(###.#=##)" [.real 2.25, .text "bc", .integer (-12), .text "ghij"] =
        .ok "(  2.2bc )(-12.0***)" ∧
      "(  2.2bc )(-12.0***)".length = 2 * "(###.#=##)".length := by
  have hrender : render "(###.#=##)" [.real 2.25, .text "bc", .integer (-12), .text "ghij"] =
      .ok "(  2.2bc )(-12.0***)" :=
    eq_ok_of_toOption (by decide +kernel)
  obtain ⟨-, -, -, -, hlength⟩ := render_fills_fields_in_turn "(###.#=##)"
    [.real 2.25, .text "bc", .integer (-12), .text "ghij"]
  exact ⟨hrender, hlength 2 _ (by decide) (by decide +kernel) hrender⟩

end

end LineBasic.Using
