import LineBasic.Text.Blank
import LineBasic.Text.Case

/-!
# Program text in upper case

Upper case changes letters and nothing else, so it keeps quotes, blanks and digits in their places,
and to convert a text a second time changes nothing. What the end of a text does with the quotes
before it is settled by the quote that is open there.
-/

set_option autoImplicit false

namespace LineBasic.Text

theorem toUpper_of_lower {c : Char} (h : 'a'.val ≤ c.val ∧ c.val ≤ 'z'.val) :
    c.toUpper.val = c.val + ('A'.val - 'a'.val) := by
  delta Char.toUpper
  rw [dif_pos h]

theorem toUpper_of_not_lower {c : Char} (h : ¬('a'.val ≤ c.val ∧ c.val ≤ 'z'.val)) :
    c.toUpper = c := dif_neg h

theorem isUpper_iff {c : Char} : c.isUpper = true ↔ 65 ≤ c.toNat ∧ c.toNat ≤ 90 := by
  delta Char.isUpper
  simp [UInt32.le_iff_toNat_le]

theorem isLower_iff {c : Char} : c.isLower = true ↔ 97 ≤ c.toNat ∧ c.toNat ≤ 122 := by
  delta Char.isLower
  simp [UInt32.le_iff_toNat_le]

theorem lower_iff {c : Char} :
    'a'.val ≤ c.val ∧ c.val ≤ 'z'.val ↔ 97 ≤ c.toNat ∧ c.toNat ≤ 122 := by
  simp [UInt32.le_iff_toNat_le]

theorem toNat_toUpper {c : Char} (h : 97 ≤ c.toNat ∧ c.toNat ≤ 122) :
    c.toUpper.toNat + 32 = c.toNat := by
  have hval : c.toUpper.toNat = (c.val + ('A'.val - 'a'.val)).toNat :=
    congrArg UInt32.toNat (toUpper_of_lower (lower_iff.2 h))
  have hsum : (c.val + ('A'.val - 'a'.val)).toNat = (c.toNat + 4294967264) % 4294967296 := by
    rw [UInt32.toNat_add]
    rfl
  omega

theorem eq_of_toUpper_eq {c d : Char} (hd : d.isUpper = false) (h : c.toUpper = d) : c = d := by
  by_cases hc : 97 ≤ c.toNat ∧ c.toNat ≤ 122
  · have hnat := toNat_toUpper hc
    have hupper : d.isUpper = true := isUpper_iff.2 (by rw [← h]; omega)
    rw [hd] at hupper
    cases hupper
  · rw [← h, toUpper_of_not_lower (mt lower_iff.1 hc)]

theorem toUpper_toUpper (c : Char) : c.toUpper.toUpper = c.toUpper := by
  by_cases hc : 97 ≤ c.toNat ∧ c.toNat ≤ 122
  · have hnat := toNat_toUpper hc
    exact toUpper_of_not_lower (mt lower_iff.1 (by omega))
  · rw [toUpper_of_not_lower (mt lower_iff.1 hc), toUpper_of_not_lower (mt lower_iff.1 hc)]

theorem isDigit_iff {c : Char} : c.isDigit = true ↔ 48 ≤ c.toNat ∧ c.toNat ≤ 57 := by
  simp [Char.isDigit, UInt32.le_iff_toNat_le]

theorem toUpper_of_isDigit {c : Char} (h : c.isDigit = true) : c.toUpper = c := by
  rw [isDigit_iff] at h
  exact toUpper_of_not_lower (mt lower_iff.1 (by omega))

theorem not_isBlank_of_isDigit {c : Char} (h : c.isDigit = true) : isBlank c = false := by
  rw [isDigit_iff] at h
  grind [isBlank]

def isQuote (c : Char) : Bool := c == '"' || c == '\''

theorem isQuote_iff {c : Char} : isQuote c = true ↔ c = '"' ∨ c = '\'' := by
  simp [isQuote]

theorem not_isQuote_of_isDigit {c : Char} (h : c.isDigit = true) : isQuote c = false := by
  refine Bool.eq_false_iff.2 fun hq => ?_
  rcases isQuote_iff.1 hq with rfl | rfl <;> contradiction

theorem not_isQuote_of_isBlank {c : Char} (h : isBlank c = true) : isQuote c = false := by
  refine Bool.eq_false_iff.2 fun hq => ?_
  rcases isQuote_iff.1 hq with rfl | rfl <;> contradiction

theorem not_isQuote_of_isAlphanum {c : Char} (h : c.isAlphanum = true) : isQuote c = false := by
  refine Bool.eq_false_iff.2 fun hq => ?_
  rcases isQuote_iff.1 hq with rfl | rfl <;> contradiction

theorem isAlphanum_of_isDigit {c : Char} (h : c.isDigit = true) : c.isAlphanum = true := by
  show (c.isAlpha || c.isDigit) = true
  rw [h, Bool.or_true]

theorem isAlphanum_of_isAlpha {c : Char} (h : c.isAlpha = true) : c.isAlphanum = true := by
  show (c.isAlpha || c.isDigit) = true
  rw [h, Bool.true_or]

theorem not_isDigit_of_isAlpha {c : Char} (h : c.isAlpha = true) : c.isDigit = false := by
  refine Bool.eq_false_iff.2 fun hd => ?_
  rw [isDigit_iff] at hd
  change (c.isUpper || c.isLower) = true at h
  rcases Bool.or_eq_true_iff.1 h with h | h
  · have := isUpper_iff.1 h
    omega
  · have := isLower_iff.1 h
    omega

theorem not_isDigit_of_not_isAlphanum {c : Char} (h : c.isAlphanum = false) :
    c.isDigit = false := by
  refine Bool.eq_false_iff.2 fun hd => ?_
  rw [isAlphanum_of_isDigit hd] at h
  cases h

theorem not_isAlpha_of_not_isAlphanum {c : Char} (h : c.isAlphanum = false) :
    c.isAlpha = false := by
  refine Bool.eq_false_iff.2 fun ha => ?_
  have : (c.isAlpha || c.isDigit) = false := h
  rw [ha] at this
  cases this

def quoteStep (quote : Option Char) (c : Char) : Option Char :=
  match quote with
  | some q => if c = q then none else some q
  | none => if isQuote c then some c else none

def quoteAfter (quote : Option Char) (cs : List Char) : Option Char := cs.foldl quoteStep quote

theorem quoteAfter_append (quote : Option Char) (cs ds : List Char) :
    quoteAfter quote (cs ++ ds) = quoteAfter (quoteAfter quote cs) ds := List.foldl_append

theorem quoteAfter_of_not_isQuote {cs : List Char} (h : ∀ c ∈ cs, isQuote c = false) :
    quoteAfter none cs = none := by
  induction cs with
  | nil => rfl
  | cons c cs ih =>
    have hc := h c List.mem_cons_self
    have hcs := ih fun x hx => h x (List.mem_cons_of_mem c hx)
    simpa [quoteAfter, quoteStep, hc] using hcs

/-- A quote stays open up to the next one of its kind. -/
theorem quoteAfter_body {q : Char} {body : List Char} (h : q ∉ body) :
    quoteAfter (some q) body = some q := by
  induction body with
  | nil => rfl
  | cons c body ih =>
    have hc : c ≠ q := fun heq => h (heq ▸ List.mem_cons_self)
    have hbody := ih fun hmem => h (List.mem_cons_of_mem c hmem)
    simpa [quoteAfter, quoteStep, hc] using hbody

theorem quoteAfter_string {q : Char} (hq : isQuote q = true) {body : List Char} (h : q ∉ body) :
    quoteAfter none (q :: (body ++ [q])) = none := by
  have hopen : quoteAfter none [q] = some q := by simp [quoteAfter, quoteStep, hq]
  rw [← List.singleton_append, quoteAfter_append, hopen, quoteAfter_append, quoteAfter_body h]
  simp [quoteAfter, quoteStep]

theorem isQuote_of_mem_quoteStep {quote : Option Char} (hq : ∀ q ∈ quote, isQuote q = true)
    {c : Char} : ∀ q ∈ quoteStep quote c, isQuote q = true := by
  intro q h
  cases quote with
  | none =>
    rw [quoteStep] at h
    split at h <;> cases h
    assumption
  | some p =>
    rw [quoteStep] at h
    split at h <;> cases h
    exact hq q rfl

theorem quoteAfter_digits {quote : Option Char} (hq : ∀ q ∈ quote, isQuote q = true)
    {cs : List Char} (hcs : ∀ c ∈ cs, c.isDigit = true) : quoteAfter quote cs = quote := by
  cases quote with
  | none => exact quoteAfter_of_not_isQuote fun c hc => not_isQuote_of_isDigit (hcs c hc)
  | some q =>
    induction cs with
    | nil => rfl
    | cons c cs ih =>
      have hne : c ≠ q := by
        rintro rfl
        have := not_isQuote_of_isDigit (hcs c List.mem_cons_self)
        simp [hq c rfl] at this
      have := ih fun x hx => hcs x (List.mem_cons_of_mem c hx)
      simpa [quoteAfter, quoteStep, hne] using this

theorem programUpperFrom_cons (quote : Option Char) (c : Char) (cs : List Char) :
    programUpperFrom quote (c :: cs) =
      (if quote = none then c.toUpper else c) :: programUpperFrom (quoteStep quote c) cs := by
  cases quote with
  | none => simp [programUpperFrom, quoteStep, isQuote]
  | some q => simp [programUpperFrom, quoteStep]

theorem programUpperFrom_append (quote : Option Char) (cs ds : List Char) :
    programUpperFrom quote (cs ++ ds) =
      programUpperFrom quote cs ++ programUpperFrom (quoteAfter quote cs) ds := by
  induction cs generalizing quote with
  | nil => rfl
  | cons c cs ih =>
    rw [List.cons_append, programUpperFrom_cons, programUpperFrom_cons, ih]
    rfl

theorem isUpper_of_isQuote {c : Char} (h : isQuote c = true) : c.isUpper = false := by
  rcases isQuote_iff.1 h with rfl | rfl <;> rfl

theorem toUpper_of_isQuote {c : Char} (h : isQuote c = true) : c.toUpper = c := by
  rcases isQuote_iff.1 h with rfl | rfl <;> rfl

/-- Upper case neither makes a quote nor takes one away. -/
theorem quoteStep_toUpper (c : Char) : quoteStep none c.toUpper = quoteStep none c := by
  by_cases h : isQuote c = true
  · rw [toUpper_of_isQuote h]
  · by_cases hu : isQuote c.toUpper = true
    · exact absurd (eq_of_toUpper_eq (isUpper_of_isQuote hu) rfl ▸ hu) h
    · simp [quoteStep, h, hu]

theorem programUpperFrom_programUpperFrom (quote : Option Char) (cs : List Char) :
    programUpperFrom quote (programUpperFrom quote cs) = programUpperFrom quote cs := by
  induction cs generalizing quote with
  | nil => rfl
  | cons c cs ih =>
    rw [programUpperFrom_cons, programUpperFrom_cons]
    cases quote with
    | none => simp only [if_true, toUpper_toUpper, quoteStep_toUpper, ih]
    | some q => simp [ih]

/-- Upper case makes no new character that is not a capital letter. -/
theorem mem_of_mem_programUpperFrom {quote : Option Char} {cs : List Char} {c : Char}
    (hc : c.isUpper = false) (h : c ∈ programUpperFrom quote cs) : c ∈ cs := by
  induction cs generalizing quote with
  | nil => exact h
  | cons d cs ih =>
    rw [programUpperFrom_cons] at h
    rcases List.mem_cons.1 h with h | h
    · split at h
      · exact eq_of_toUpper_eq hc h.symm ▸ List.mem_cons_self
      · exact h ▸ List.mem_cons_self
    · exact List.mem_cons_of_mem d (ih h)

theorem getLast_of_programUpperFrom {quote : Option Char} {cs : List Char} {c : Char}
    (hc : c.isUpper = false) (h : (programUpperFrom quote cs).getLast? = some c) :
    cs.getLast? = some c := by
  rcases List.eq_nil_or_concat cs with rfl | ⟨front, d, rfl⟩
  · exact h
  · rw [List.concat_eq_append, programUpperFrom_append, programUpperFrom_cons] at h
    simp only [programUpperFrom, List.getLast?_concat, Option.some_inj] at h
    have hd : d = c := by
      split at h
      · exact eq_of_toUpper_eq hc h
      · exact h
    simp [hd]

/-- Text without letters and quotes is in upper case. -/
theorem programUpperFrom_of_toUpper_eq {cs : List Char}
    (h : ∀ c ∈ cs, isQuote c = false ∧ c.toUpper = c) : programUpperFrom none cs = cs := by
  induction cs with
  | nil => rfl
  | cons c cs ih =>
    obtain ⟨hq, hu⟩ := h c List.mem_cons_self
    have hcs := ih fun x hx => h x (List.mem_cons_of_mem c hx)
    simp [programUpperFrom_cons, quoteStep, hq, hu, hcs]

theorem programUpperFrom_digits {quote : Option Char} (hq : ∀ q ∈ quote, isQuote q = true)
    {cs : List Char} (hcs : ∀ c ∈ cs, c.isDigit = true) : programUpperFrom quote cs = cs := by
  induction cs with
  | nil => rfl
  | cons c cs ih =>
    have hc := hcs c List.mem_cons_self
    have hsingle : ∀ x ∈ [c], x.isDigit = true := by simpa using hc
    have hstep : quoteStep quote c = quote := quoteAfter_digits hq hsingle
    rw [programUpperFrom_cons, hstep, ih fun x hx => hcs x (List.mem_cons_of_mem c hx),
      toUpper_of_isDigit hc, ite_self]

end LineBasic.Text
