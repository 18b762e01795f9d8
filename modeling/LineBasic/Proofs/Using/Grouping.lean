import LineBasic.Using.Render
import LineBasic.Proofs.Text.Runs

/-!
# Grouping by thousands

Commas cut the whole part of a numeral into groups of three digits, counted from its end. They are
all that is added: without them the numeral is what it was, and its fraction is left alone. Main
statement: `groupThousands_puts_commas_by_threes`.
-/

set_option autoImplicit false

namespace LineBasic.Using

variable {cs before after : List Char} {d : Char}

theorem comma_ne_of_isDigit (hd : d.isDigit = true) : d ≠ ',' := by
  rintro rfl
  cases hd

theorem head?_groupDigits (cs : List Char) : (groupDigits cs).head? = cs.head? := by
  fun_induction groupDigits cs <;> rfl

theorem filter_groupDigits (hcs : ∀ c ∈ cs, c.isDigit = true) :
    (groupDigits cs).filter (· != ',') = cs := by
  fun_induction groupDigits cs with
  | case1 => rfl
  | case2 c =>
    have hc := comma_ne_of_isDigit (hcs c List.mem_cons_self)
    simp [hc]
  | case3 c d cs hlen ih =>
    have hc := comma_ne_of_isDigit (hcs c List.mem_cons_self)
    simp [hc, ih fun x hx => hcs x (List.mem_cons_of_mem c hx)]
  | case4 c d cs hlen ih =>
    have hc := comma_ne_of_isDigit (hcs c List.mem_cons_self)
    simp [hc, ih fun x hx => hcs x (List.mem_cons_of_mem c hx)]

theorem countP_groupDigits (hcs : ∀ c ∈ cs, c.isDigit = true) :
    (groupDigits cs).countP Char.isDigit = cs.length := by
  have hfilter : (groupDigits cs).countP Char.isDigit =
      ((groupDigits cs).filter (· != ',')).countP Char.isDigit := by
    rw [List.countP_filter]
    refine List.countP_congr fun x _ => ?_
    constructor
    · intro hx
      simp [hx, comma_ne_of_isDigit hx]
    · intro hx
      exact (Bool.and_eq_true_iff.1 hx).1
  rw [hfilter, filter_groupDigits hcs, List.countP_eq_length.2 hcs]

/-- The first of the digits starts whole groups if their number is a multiple of three. -/
theorem countP_of_first (hcs : ∀ c ∈ cs, c.isDigit = true) (h : groupDigits cs = d :: after) :
    (d :: after).countP Char.isDigit = cs.length := by
  rw [← h, countP_groupDigits hcs]

/-- A digit has a comma in front if it is not the first and whole groups start with it. -/
theorem comma_before_iff (hcs : ∀ c ∈ cs, c.isDigit = true)
    (h : groupDigits cs = before ++ d :: after) (hd : d.isDigit = true) :
    before.getLast? = some ',' ↔ before ≠ [] ∧ (d :: after).countP Char.isDigit % 3 = 0 := by
  fun_induction groupDigits cs generalizing before with
  | case1 => simp at h
  | case2 c =>
    cases before with
    | nil => simp
    | cons x before => simp at h
  | case3 c e cs hlen ih =>
    have hrest : ∀ x ∈ e :: cs, x.isDigit = true := fun x hx => hcs x (List.mem_cons_of_mem c hx)
    rcases before with _ | ⟨x, _ | ⟨y, before⟩⟩
    · simp
    · -- The comma itself is no digit.
      obtain ⟨-, rfl, -⟩ := by simpa using h
      cases hd
    · obtain ⟨rfl, rfl, hmore⟩ :
          c = x ∧ ',' = y ∧ groupDigits (e :: cs) = before ++ d :: after := by simpa using h
      cases before with
      | nil =>
        rw [countP_of_first hrest hmore, List.length_cons]
        simp [hlen]
      | cons z before => simpa using ih hrest hmore
  | case4 c e cs hlen ih =>
    have hrest : ∀ x ∈ e :: cs, x.isDigit = true := fun x hx => hcs x (List.mem_cons_of_mem c hx)
    rcases before with _ | ⟨x, before⟩
    · simp
    · obtain ⟨rfl, hmore⟩ : c = x ∧ groupDigits (e :: cs) = before ++ d :: after := by simpa using h
      cases before with
      | nil =>
        rw [countP_of_first hrest hmore, List.length_cons]
        simp [hlen, comma_ne_of_isDigit (hcs c List.mem_cons_self)]
      | cons z before => simpa using ih hrest hmore

theorem exists_digit_of_comma (hcs : ∀ c ∈ cs, c.isDigit = true)
    (h : groupDigits cs = before ++ ',' :: after) :
    ∃ d rest, after = d :: rest ∧ d.isDigit = true := by
  fun_induction groupDigits cs generalizing before with
  | case1 => simp at h
  | case2 c =>
    have hc := comma_ne_of_isDigit (hcs c List.mem_cons_self)
    cases before <;> simp [hc] at h
  | case3 c e cs hlen ih =>
    have hrest : ∀ x ∈ e :: cs, x.isDigit = true := fun x hx => hcs x (List.mem_cons_of_mem c hx)
    have hc := comma_ne_of_isDigit (hcs c List.mem_cons_self)
    rcases before with _ | ⟨x, _ | ⟨y, before⟩⟩
    · simp [hc] at h
    · obtain ⟨-, rfl⟩ : c = x ∧ groupDigits (e :: cs) = after := by simpa using h
      obtain ⟨rest, hgrouped⟩ := List.head?_eq_some_iff.1 (head?_groupDigits (e :: cs))
      exact ⟨e, rest, hgrouped, hrest e List.mem_cons_self⟩
    · exact ih hrest (by simpa using (List.cons.inj (List.cons.inj h).2).2)
  | case4 c e cs hlen ih =>
    have hrest : ∀ x ∈ e :: cs, x.isDigit = true := fun x hx => hcs x (List.mem_cons_of_mem c hx)
    have hc := comma_ne_of_isDigit (hcs c List.mem_cons_self)
    cases before with
    | nil => simp [hc] at h
    | cons x before => exact ih hrest (List.cons.inj h).2

theorem groupThousands_append {whole fraction : List Char} (hwhole : ∀ c ∈ whole, c.isDigit = true)
    (hfraction : ∀ c ∈ fraction.head?, c = '.') :
    groupThousands (whole ++ fraction) = groupDigits whole ++ fraction := by
  have hfront : ∀ c ∈ whole, (c != '.') = true := by
    intro c hc
    have hdigit := hwhole c hc
    simp only [bne_iff_ne]
    rintro rfl
    cases hdigit
  have hstop : ∀ c ∈ fraction.head?, (c != '.') = false := by
    intro c hc
    simp [hfraction c hc]
  rw [groupThousands, Text.takeWhile_append_of_head hfront hstop,
    Text.dropWhile_append_of_head hfront hstop]

/-- Commas stand in the whole part of a numeral, before those of its digits, other than the first,
from which on the number of its digits is a multiple of three. There are no others, and without them
the numeral is what it was. -/
theorem groupThousands_puts_commas_by_threes {whole fraction : List Char} (hne : whole ≠ [])
    (hwhole : ∀ c ∈ whole, c.isDigit = true)
    (hfraction : fraction = [] ∨
      ∃ decimals, fraction = '.' :: decimals ∧ ∀ c ∈ decimals, c.isDigit = true) :
    (groupThousands (whole ++ fraction)).filter (· != ',') = whole ++ fraction ∧
    (groupThousands (whole ++ fraction)).head? ≠ some ',' ∧
    ∃ grouped, groupThousands (whole ++ fraction) = grouped ++ fraction ∧ ',' ∉ fraction ∧
      grouped.filter (· != ',') = whole ∧
      (∀ before after, grouped = before ++ ',' :: after →
        ∃ d rest, after = d :: rest ∧ d.isDigit = true) ∧
      ∀ before d after, grouped = before ++ d :: after → d.isDigit = true →
        (before.getLast? = some ',' ↔
          0 < before.countP Char.isDigit ∧ (d :: after).countP Char.isDigit % 3 = 0) := by
  have hhead : ∀ c ∈ fraction.head?, c = '.' := by
    rcases hfraction with rfl | ⟨decimals, rfl, -⟩ <;> simp
  have hcomma : ∀ c ∈ fraction, (c != ',') = true := by
    intro c hc
    rcases hfraction with rfl | ⟨decimals, rfl, hdecimals⟩
    · cases hc
    · rcases List.mem_cons.1 hc with rfl | hc
      · rfl
      · simpa using comma_ne_of_isDigit (hdecimals c hc)
  obtain ⟨first, digits, rfl⟩ := List.exists_cons_of_ne_nil hne
  have hfirst := hwhole first List.mem_cons_self
  obtain ⟨more, hgrouped⟩ := List.head?_eq_some_iff.1 (head?_groupDigits (first :: digits))
  rw [groupThousands_append hwhole hhead]
  refine ⟨?_, ?_, groupDigits (first :: digits), rfl, fun hmem => ?_, filter_groupDigits hwhole,
    fun before after h => exists_digit_of_comma hwhole h, fun before d after h hd => ?_⟩
  · rw [List.filter_append, filter_groupDigits hwhole, List.filter_eq_self.2 hcomma]
  · rw [hgrouped]
    simpa using comma_ne_of_isDigit hfirst
  · cases hcomma ',' hmem
  · -- What stands in front of another digit starts with the first one.
    have hbefore : before ≠ [] ↔ 0 < before.countP Char.isDigit := by
      cases before with
      | nil => simp
      | cons x before =>
        obtain ⟨rfl, -⟩ := List.cons.inj (hgrouped.symm.trans h)
        simp [hfirst]
    rw [← hbefore]
    exact comma_before_iff hwhole h hd

/-- Seven digits get two commas, and the four decimals get none. -/
theorem groupThousands_puts_commas_by_threes_in_millions :
    let whole := "1234567".toList
    let fraction := ".8901".toList
    (whole ≠ [] ∧ whole.all Char.isDigit = true ∧
      ∃ decimals, fraction = '.' :: decimals ∧ decimals.all Char.isDigit = true) ∧
    groupThousands (whole ++ fraction) = "1,234,567.8901".toList ∧
    (groupThousands (whole ++ fraction)).filter (· != ',') = whole ++ fraction ∧
    (groupThousands (whole ++ fraction)).head? ≠ some ',' ∧
    ("1,234,".toList.getLast? = some ',' ↔
      0 < "1,234,".toList.countP Char.isDigit ∧ "567".toList.countP Char.isDigit % 3 = 0) ∧
    ("1,2".toList.getLast? = some ',' ↔
      0 < "1,2".toList.countP Char.isDigit ∧ "34,567".toList.countP Char.isDigit % 3 = 0) := by
  intro whole fraction
  have hwhole : whole.all Char.isDigit = true := by decide
  have hdecimals : "8901".toList.all Char.isDigit = true := by decide
  have hgrouped : groupThousands (whole ++ fraction) = "1,234,567".toList ++ fraction := by
    decide +kernel
  obtain ⟨hfilter, hhead, grouped, hsame, -, -, -, hplaces⟩ :=
    @groupThousands_puts_commas_by_threes whole fraction (by decide)
      (List.all_eq_true.1 hwhole)
      (.inr ⟨"8901".toList, rfl, List.all_eq_true.1 hdecimals⟩)
  obtain rfl := List.append_cancel_right (hgrouped.symm.trans hsame)
  exact ⟨⟨by decide, hwhole, _, rfl, hdecimals⟩, hgrouped, hfilter, hhead,
    hplaces "1,234,".toList '5' "67".toList rfl rfl, hplaces "1,2".toList '3' "4,567".toList rfl rfl⟩

end LineBasic.Using
