/-!
# Runs of characters

The longest run of characters of a class at the start of a text, and what follows it.
-/

set_option autoImplicit false

namespace LineBasic.Text

variable {p : Char → Bool}

theorem of_mem_takeWhile {cs : List Char} {c : Char} (h : c ∈ cs.takeWhile p) : p c = true :=
  List.all_eq_true.1 List.all_takeWhile c h

theorem takeWhile_append_drop (p : Char → Bool) (cs : List Char) :
    cs.takeWhile p ++ cs.drop (cs.takeWhile p).length = cs := by
  induction cs with
  | nil => rfl
  | cons c cs ih => by_cases hc : p c = true <;> simp [hc, ih]

theorem drop_length_takeWhile (p : Char → Bool) (cs : List Char) :
    cs.drop (cs.takeWhile p).length = cs.dropWhile p :=
  List.append_cancel_left
    ((takeWhile_append_drop p cs).trans List.takeWhile_append_dropWhile.symm)

theorem head_drop_takeWhile {cs : List Char} :
    ∀ c ∈ (cs.drop (cs.takeWhile p).length).head?, p c = false := by
  induction cs with
  | nil => simp
  | cons c cs ih =>
    by_cases hc : p c = true
    · rw [List.takeWhile_cons_of_pos hc]
      exact ih
    · rw [List.takeWhile_cons_of_neg hc]
      intro d hd
      cases hd
      simpa using hc

/-- A text is a run of characters of a class and what no such character starts. -/
theorem exists_run (p : Char → Bool) (cs : List Char) :
    ∃ run rest, cs = run ++ rest ∧ (∀ c ∈ run, p c = true) ∧ ∀ c ∈ rest.head?, p c = false :=
  ⟨_, _, (takeWhile_append_drop p cs).symm, fun _ => of_mem_takeWhile, head_drop_takeWhile⟩

theorem takeWhile_append_of_head {front rest : List Char} (hfront : ∀ c ∈ front, p c = true)
    (hrest : ∀ c ∈ rest.head?, p c = false) : (front ++ rest).takeWhile p = front := by
  rw [List.takeWhile_append_of_pos hfront]
  cases rest with
  | nil => simp
  | cons c rest => simp [hrest c rfl]

theorem dropWhile_append_of_head {front rest : List Char} (hfront : ∀ c ∈ front, p c = true)
    (hrest : ∀ c ∈ rest.head?, p c = false) : (front ++ rest).dropWhile p = rest := by
  rw [List.dropWhile_append_of_pos hfront]
  cases rest with
  | nil => rfl
  | cons c rest => simp [hrest c rfl]

def Spans (p : Char → Bool) (n : Nat) (cs : List Char) : Prop :=
  n ≤ cs.length ∧ ∀ c ∈ cs.take n, p c = true

theorem spans_zero (p : Char → Bool) (cs : List Char) : Spans p 0 cs :=
  ⟨Nat.zero_le _, by simp⟩

theorem spans_takeWhile {q : Char → Bool} (hq : ∀ c, q c = true → p c = true) (cs : List Char) :
    Spans p (cs.takeWhile q).length cs := by
  have hpre : cs.takeWhile q <+: cs := List.takeWhile_prefix q
  refine ⟨hpre.length_le, fun c hc => ?_⟩
  rw [← List.prefix_iff_eq_take.1 hpre] at hc
  exact hq c (of_mem_takeWhile hc)

namespace Spans

variable {n : Nat} {cs : List Char}

theorem cons {c : Char} (hc : p c = true) (h : Spans p n cs) : Spans p (n + 1) (c :: cs) := by
  refine ⟨Nat.succ_le_succ h.1, fun x hx => ?_⟩
  rw [List.take_succ_cons] at hx
  rcases List.mem_cons.1 hx with rfl | hx
  · exact hc
  · exact h.2 x hx

theorem tail {c : Char} (h : Spans p (n + 1) (c :: cs)) : Spans p n cs :=
  ⟨Nat.le_of_succ_le_succ h.1, fun x hx => h.2 x (List.mem_cons_of_mem c hx)⟩

theorem add {m : Nat} (h : Spans p n cs) (h' : Spans p m (cs.drop n)) : Spans p (n + m) cs := by
  obtain ⟨hn, hp⟩ := h
  obtain ⟨hm, hq⟩ := h'
  rw [List.length_drop] at hm
  refine ⟨by omega, fun c hc => ?_⟩
  rw [List.take_add] at hc
  rcases List.mem_append.1 hc with hc | hc
  · exact hp c hc
  · exact hq c hc

theorem mono {q : Char → Bool} (h : Spans p n cs) (hq : ∀ c, p c = true → q c = true) :
    Spans q n cs :=
  ⟨h.1, fun c hc => hq c (h.2 c hc)⟩

end Spans

inductive SameUntil (p : Char → Bool) : List Char → List Char → Prop
  | nil : SameUntil p [] []
  | last {c : Char} (hc : p c = false) (cs ds : List Char) : SameUntil p (c :: cs) (c :: ds)
  | next {c : Char} {cs ds : List Char} (hc : p c = true) (h : SameUntil p cs ds) :
      SameUntil p (c :: cs) (c :: ds)

namespace SameUntil

variable {cs ds : List Char}

theorem head (h : SameUntil p cs ds) : ds.head? = cs.head? := by
  cases h <;> rfl

/-- A run inside the class is the same, and so is what follows it. -/
theorem takeWhile (h : SameUntil p cs ds) {q : Char → Bool} (hq : ∀ c, q c = true → p c = true) :
    ds.takeWhile q = cs.takeWhile q := by
  induction h with
  | nil => rfl
  | last hc cs ds =>
    have hqc := mt (hq _) (by simpa using hc)
    rw [List.takeWhile_cons_of_neg hqc, List.takeWhile_cons_of_neg hqc]
  | @next c cs ds hc h ih =>
    by_cases hqc : q c = true
    · rw [List.takeWhile_cons_of_pos hqc, List.takeWhile_cons_of_pos hqc, ih]
    · rw [List.takeWhile_cons_of_neg hqc, List.takeWhile_cons_of_neg hqc]

theorem drop (h : SameUntil p cs ds) {n : Nat} (hn : Spans p n cs) :
    ds.take n = cs.take n ∧ SameUntil p (cs.drop n) (ds.drop n) := by
  replace hn := hn.2
  induction h generalizing n with
  | nil => exact ⟨by simp, by simpa using SameUntil.nil⟩
  | @last c hc cs ds =>
    cases n with
    | zero => exact ⟨rfl, .last hc cs ds⟩
    | succ n =>
      have := hn c List.mem_cons_self
      rw [hc] at this
      cases this
  | @next c cs ds hc h ih =>
    cases n with
    | zero => exact ⟨rfl, .next hc h⟩
    | succ n =>
      obtain ⟨htake, hdrop⟩ := ih fun x hx => hn x (List.mem_cons_of_mem c hx)
      exact ⟨congrArg (c :: ·) htake, hdrop⟩

end SameUntil

end LineBasic.Text
