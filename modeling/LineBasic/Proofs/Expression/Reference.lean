import LineBasic.Expression.Reference

/-!
# The extent of a reference

Where the arguments of a name end. A search for the closing parenthesis passes by every balanced list
of tokens, and what stands behind the parenthesis does not matter to it.
-/

set_option autoImplicit false

namespace LineBasic

theorem upToClosing_eq {depth : Nat} {ts inner after : List Token}
    (h : upToClosing depth ts = some (inner, after)) : ts = inner ++ .closeParen :: after := by
  fun_induction upToClosing depth ts generalizing inner after <;>
    grind [Option.map_eq_some_iff]

theorem upToClosing_other {depth : Nat} {t : Token} (ts : List Token) (hopen : t ≠ .openParen)
    (hclose : t ≠ .closeParen) :
    upToClosing depth (t :: ts) = (upToClosing depth ts).map (Prod.map (t :: ·) id) := by
  cases t with
  | openParen => exact absurd rfl hopen
  | closeParen => exact absurd rfl hclose
  | _ => rfl

def Balanced (ts : List Token) : Prop :=
  ∀ depth rest, upToClosing depth (ts ++ rest) =
    (upToClosing depth rest).map (Prod.map (ts ++ ·) id)

namespace Balanced

theorem nil : Balanced [] := by
  intro depth rest
  cases hrest : upToClosing depth rest <;> simp [hrest, Prod.map]

theorem append {ts us : List Token} (hts : Balanced ts) (hus : Balanced us) :
    Balanced (ts ++ us) := by
  intro depth rest
  rw [List.append_assoc, hts, hus, Option.map_map]
  cases upToClosing depth rest <;> simp [Prod.map]

theorem cons {t : Token} {ts : List Token} (hopen : t ≠ .openParen) (hclose : t ≠ .closeParen)
    (hts : Balanced ts) : Balanced (t :: ts) := by
  intro depth rest
  rw [List.cons_append, upToClosing_other _ hopen hclose, hts, Option.map_map]
  rfl

theorem parens {ts : List Token} (hts : Balanced ts) :
    Balanced (.openParen :: ts ++ [.closeParen]) := by
  intro depth rest
  rw [List.append_assoc, List.cons_append, upToClosing, hts, List.singleton_append, upToClosing]
  cases upToClosing depth rest <;> simp [Prod.map]

end Balanced

/-- The tokens behind the closing parenthesis play no part in the search for it. -/
theorem upToClosing_of_some {depth : Nat} {ts inner after : List Token}
    (h : upToClosing depth ts = some (inner, after)) (rest : List Token) :
    upToClosing depth (inner ++ .closeParen :: rest) = some (inner, rest) := by
  fun_induction upToClosing depth ts generalizing inner after with
  | case1 => cases h
  | case2 depth ts ih =>
    obtain ⟨⟨inner', after'⟩, hfound, heq⟩ := Option.map_eq_some_iff.1 h
    cases heq
    rw [List.cons_append, upToClosing, ih hfound]
    rfl
  | case3 ts =>
    cases h
    rfl
  | case4 ts depth ih =>
    obtain ⟨⟨inner', after'⟩, hfound, heq⟩ := Option.map_eq_some_iff.1 h
    cases heq
    rw [List.cons_append, upToClosing, ih hfound]
    rfl
  | case5 depth t ts hopen hclose ih =>
    obtain ⟨⟨inner', after'⟩, hfound, heq⟩ := Option.map_eq_some_iff.1 h
    cases heq
    rw [List.cons_append, upToClosing_other _ hopen hclose, ih hfound]
    rfl

namespace Reference

theorem withArguments_of_balanced {args : List Token} (h : Balanced args) (name : String)
    (rest : List Token) :
    withArguments name (.openParen :: args ++ .closeParen :: rest) =
      .ok (⟨name, some args⟩, rest) := by
  rw [List.cons_append, withArguments, h 0 (.closeParen :: rest), upToClosing]
  simp

theorem withArguments_of_head {name : String} {ts : List Token}
    (h : ts.head? ≠ some .openParen) : withArguments name ts = .ok (⟨name, none⟩, ts) := by
  cases ts with
  | nil => rfl
  | cons t ts =>
    cases t with
    | openParen => exact absurd rfl h
    | _ => rfl

/-- What a reference takes off the front, and that it takes the same off any list with the same
token behind, or none. -/
theorem of_withArguments {name : String} {ts rest : List Token} {ref : Reference}
    (h : withArguments name ts = .ok (ref, rest)) :
    ∃ front, ts = front ++ rest ∧ ∀ rest', (rest' = [] ∨ rest'.head? = rest.head?) →
      withArguments name (front ++ rest') = .ok (ref, rest') := by
  by_cases hopen : ts.head? = some .openParen
  · obtain ⟨more, rfl⟩ := List.head?_eq_some_iff.1 hopen
    rw [withArguments] at h
    cases hclosing : upToClosing 0 more with
    | none =>
      rw [hclosing] at h
      cases h
    | some parts =>
      rw [hclosing] at h
      cases h
      refine ⟨.openParen :: (parts.1 ++ [.closeParen]), by simp [← upToClosing_eq hclosing], ?_⟩
      intro rest' _
      rw [List.cons_append, List.append_assoc, List.singleton_append, withArguments,
        upToClosing_of_some hclosing rest']
  · rw [withArguments_of_head hopen] at h
    cases h
    refine ⟨[], rfl, fun rest' hrest' => withArguments_of_head ?_⟩
    rcases hrest' with rfl | hsame
    · simp
    · rwa [List.nil_append, hsame]

theorem of_split {missing : Fault} {t : Token} {ts rest : List Token} {ref : Reference}
    (h : split missing (t :: ts) = .ok (ref, rest)) :
    ∃ front, ts = front ++ rest ∧ ∀ rest', (rest' = [] ∨ rest'.head? = rest.head?) →
      split missing (t :: (front ++ rest')) = .ok (ref, rest') := by
  cases t with
  | ident name => exact of_withArguments h
  | qualifier home =>
    cases ts with
    | nil => cases h
    | cons u us =>
      cases u with
      | ident name =>
        obtain ⟨front, rfl, hsame⟩ := of_withArguments h
        exact ⟨.ident name :: front, rfl, hsame⟩
      | _ => cases h
  | _ => cases h

end Reference

end LineBasic
