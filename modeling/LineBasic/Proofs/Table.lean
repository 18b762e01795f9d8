import LineBasic.Table

/-!
# Tables and their entries

What is stored under a key is an entry of the table, and entries that are in order already are the
entries of the table made of them.
-/

set_option autoImplicit false

namespace LineBasic.Table

theorem mem_of_find?_eq_some {κ α : Type} [DecidableEq κ] {k : κ} {v : α} {es : List (κ × α)}
    (h : find? k es = some v) : (k, v) ∈ es := by
  induction es with
  | nil => cases h
  | cons e es ih =>
    rw [find?] at h
    split at h
    · cases h
      rename_i hk
      exact hk ▸ List.mem_cons_self
    · exact List.mem_cons_of_mem e (ih h)

section

variable {κ α : Type} [LT κ] [DecidableEq κ] [KeyOrder κ]

theorem find?_eq_some_of_mem {k : κ} {v : α} {es : List (κ × α)} (hs : Sorted es)
    (h : (k, v) ∈ es) : find? k es = some v := by
  induction es with
  | nil => cases h
  | cons e es ih =>
    obtain ⟨hall, hes⟩ := List.pairwise_cons.1 hs
    rw [find?]
    rcases List.mem_cons.1 h with rfl | h
    · exact if_pos rfl
    · have hlt : e.1 < k := hall _ h
      rw [if_neg fun hk => KeyOrder.irrefl k (by rwa [← hk] at hlt)]
      exact ih hes h

theorem mem_entries_iff {t : Table κ α} {k : κ} {v : α} :
    (k, v) ∈ t.entries ↔ t.get? k = some v :=
  ⟨find?_eq_some_of_mem t.sorted, mem_of_find?_eq_some⟩

end

section

variable {κ α : Type} [LT κ] [DecidableEq κ] [DecidableLT κ] [KeyOrder κ]

theorem insertEntry_of_lt {k : κ} (v : α) {es : List (κ × α)} (h : ∀ e ∈ es, e.1 < k) :
    insertEntry k v es = es ++ [(k, v)] := by
  induction es with
  | nil => rfl
  | cons e es ih =>
    have he := h e List.mem_cons_self
    have hne : k ≠ e.1 := fun hk => KeyOrder.irrefl k (by rwa [← hk] at he)
    have hlt : ¬ k < e.1 := fun hk => KeyOrder.irrefl k (KeyOrder.trans hk he)
    rw [insertEntry, if_neg hne, if_neg hlt, ih fun x hx => h x (List.mem_cons_of_mem e hx)]
    rfl

theorem entries_foldl_insert (t : Table κ α) {es : List (κ × α)} (h : Sorted (t.entries ++ es)) :
    (es.foldl (fun t e => t.insert e.1 e.2) t).entries = t.entries ++ es := by
  induction es generalizing t with
  | nil => simp
  | cons e es ih =>
    have hlt : ∀ x ∈ t.entries, x.1 < e.1 := fun x hx =>
      (List.pairwise_append.1 h).2.2 x hx e List.mem_cons_self
    have hins : (t.insert e.1 e.2).entries = t.entries ++ [e] := insertEntry_of_lt e.2 hlt
    rw [List.foldl_cons, ih _ (by rw [hins]; simpa using h), hins]
    simp

theorem get?_foldl_insert {es : List (κ × α)} {t : Table κ α} {k : κ} {v : α}
    (h : (es.foldl (fun t e => t.insert e.1 e.2) t).get? k = some v) :
    t.get? k = some v ∨ (k, v) ∈ es := by
  induction es generalizing t with
  | nil => exact .inl h
  | cons e es ih =>
    rcases ih h with hget | hmem
    · rw [get?_insert] at hget
      split at hget
      · rename_i hk
        cases hget
        subst hk
        exact .inr List.mem_cons_self
      · exact .inl hget
    · exact .inr (List.mem_cons_of_mem e hmem)

theorem get?_foldl_insert_ne_none {es : List (κ × α)} {t : Table κ α} {k : κ}
    (h : t.get? k ≠ none ∨ ∃ v, (k, v) ∈ es) :
    (es.foldl (fun t e => t.insert e.1 e.2) t).get? k ≠ none := by
  induction es generalizing t with
  | nil => exact h.resolve_right (by simp)
  | cons e es ih =>
    refine ih ?_
    by_cases hk : k = e.1
    · exact .inl (by simp [hk])
    · rw [get?_insert, if_neg hk]
      refine h.imp_right fun hmem => ?_
      obtain ⟨v, hv⟩ := hmem
      refine ⟨v, (List.mem_cons.1 hv).resolve_left ?_⟩
      rintro rfl
      exact hk rfl

theorem exists_get?_ofList {es : List (κ × α)} {k : κ} {v : α} (h : (k, v) ∈ es) :
    ∃ w, (ofList es).get? k = some w :=
  Option.ne_none_iff_exists'.1 (get?_foldl_insert_ne_none (.inr ⟨v, h⟩))

theorem mem_of_get?_ofList {es : List (κ × α)} {k : κ} {v : α}
    (h : (ofList es).get? k = some v) : (k, v) ∈ es :=
  (get?_foldl_insert h).resolve_left (by simp)

theorem entries_ofList {es : List (κ × α)} (h : Sorted es) : (ofList es).entries = es :=
  entries_foldl_insert empty h

end

end LineBasic.Table
