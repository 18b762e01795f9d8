/-!
# Ordered tables

A table holds entries under keys, each key once and in the order of the keys. So a table is
settled by what is stored under each key (`ext_get?`), and what is stored under one key never
depends on what is stored under another.
-/

set_option autoImplicit false

namespace LineBasic

/-- A strict order in which any two different keys can be compared. -/
class KeyOrder (κ : Type) [LT κ] : Prop where
  irrefl : ∀ a : κ, ¬ a < a
  trans : ∀ {a b c : κ}, a < b → b < c → a < c
  connected : ∀ {a b : κ}, a ≠ b → ¬ a < b → b < a

instance : KeyOrder Nat where
  irrefl := Nat.lt_irrefl
  trans := Nat.lt_trans
  connected := by omega

instance : KeyOrder Int where
  irrefl := Int.lt_irrefl
  trans := Int.lt_trans
  connected := by omega

instance : KeyOrder String where
  irrefl := String.lt_irrefl
  trans := String.lt_trans
  connected := fun hne h => Std.lt_of_le_of_ne (String.not_lt.1 h) (Ne.symm hne)

def Sorted {κ α : Type} [LT κ] (es : List (κ × α)) : Prop := es.Pairwise fun a b => a.1 < b.1

structure Table (κ α : Type) [LT κ] where
  entries : List (κ × α)
  sorted : Sorted entries

namespace Table

def find? {κ α : Type} [DecidableEq κ] (k : κ) : List (κ × α) → Option α
  | [] => none
  | e :: es => if k = e.1 then some e.2 else find? k es

def insertEntry {κ α : Type} [DecidableEq κ] [LT κ] [DecidableLT κ] (k : κ) (v : α) :
    List (κ × α) → List (κ × α)
  | [] => [(k, v)]
  | e :: es =>
    if k = e.1 then (k, v) :: es
    else if k < e.1 then (k, v) :: e :: es
    else e :: insertEntry k v es

theorem find?_insertEntry {κ α : Type} [DecidableEq κ] [LT κ] [DecidableLT κ] (k k' : κ) (v : α)
    (es : List (κ × α)) :
    find? k' (insertEntry k v es) = if k' = k then some v else find? k' es := by
  fun_induction insertEntry k v es <;> grind [find?]

theorem mem_insertEntry {κ α : Type} [DecidableEq κ] [LT κ] [DecidableLT κ] {k : κ} {v : α}
    {es : List (κ × α)} {e : κ × α} (h : e ∈ insertEntry k v es) : e.1 = k ∨ e ∈ es := by
  fun_induction insertEntry k v es <;> grind

theorem find?_filter {κ α : Type} [DecidableEq κ] (p : κ → Bool) (k : κ) (es : List (κ × α)) :
    find? k (es.filter fun e => p e.1) = if p k then find? k es else none := by
  induction es with
  | nil => simp [find?]
  | cons e es ih =>
    rw [List.filter_cons]
    by_cases hp : p e.1 = true
    · by_cases hk : k = e.1 <;> simp_all [find?]
    · by_cases hk : k = e.1 <;> simp_all [find?]

def empty {κ α : Type} [LT κ] : Table κ α := ⟨[], List.Pairwise.nil⟩

section

variable {κ α : Type} [LT κ] [DecidableEq κ]

def get? (t : Table κ α) (k : κ) : Option α := find? k t.entries

def contains (t : Table κ α) (k : κ) : Bool := (t.get? k).isSome

def keys (t : Table κ α) : List κ := t.entries.map (·.1)

def filterKeys (t : Table κ α) (p : κ → Bool) : Table κ α :=
  ⟨t.entries.filter fun e => p e.1, List.Pairwise.filter _ t.sorted⟩

def erase (t : Table κ α) (k : κ) : Table κ α := t.filterKeys fun k' => decide (k' ≠ k)

@[simp] theorem get?_empty (k : κ) : (empty : Table κ α).get? k = none := rfl

@[simp] theorem get?_filterKeys (t : Table κ α) (p : κ → Bool) (k : κ) :
    (t.filterKeys p).get? k = if p k then t.get? k else none :=
  find?_filter p k t.entries

@[simp] theorem get?_erase (t : Table κ α) (k k' : κ) :
    (t.erase k).get? k' = if k' = k then none else t.get? k' := by
  rw [erase, get?_filterKeys]
  by_cases h : k' = k <;> simp [h]

end

section

variable {κ α : Type} [LT κ] [DecidableEq κ] [KeyOrder κ]

theorem find?_eq_none {k : κ} {es : List (κ × α)} (h : ∀ e ∈ es, k < e.1) : find? k es = none := by
  induction es with
  | nil => rfl
  | cons e es ih =>
    have hk : k ≠ e.1 := fun hk => KeyOrder.irrefl k (hk ▸ h e List.mem_cons_self)
    rw [find?, if_neg hk]
    exact ih fun x hx => h x (List.mem_cons_of_mem e hx)

theorem find?_eq_none_of_lt_head {k : κ} {e : κ × α} {es : List (κ × α)} (h : Sorted (e :: es))
    (hk : k < e.1) : find? k (e :: es) = none := by
  refine find?_eq_none fun x hx => ?_
  rcases List.mem_cons.1 hx with rfl | hx
  · exact hk
  · exact KeyOrder.trans hk ((List.pairwise_cons.1 h).1 x hx)

/-- Sorted entries are settled by what is found under each key. -/
theorem eq_of_find?_eq {es fs : List (κ × α)} (he : Sorted es) (hf : Sorted fs)
    (h : ∀ k, find? k es = find? k fs) : es = fs := by
  induction es generalizing fs with
  | nil =>
    cases fs with
    | nil => rfl
    | cons f fs => simpa [find?] using h f.1
  | cons e es ih =>
    cases fs with
    | nil => simpa [find?] using h e.1
    | cons f fs =>
      have hkey : e.1 = f.1 := by
        by_cases hk : e.1 = f.1
        · exact hk
        · exfalso
          by_cases hlt : e.1 < f.1
          · have := h e.1
            rw [find?_eq_none_of_lt_head hf hlt] at this
            simp [find?] at this
          · have := h f.1
            rw [find?_eq_none_of_lt_head he (KeyOrder.connected hk hlt)] at this
            simp [find?] at this
      have hval : e.2 = f.2 := by simpa [find?, hkey] using h e.1
      have htail : ∀ k, find? k es = find? k fs := by
        intro k
        by_cases hk : k = e.1
        · subst hk
          rw [find?_eq_none (List.pairwise_cons.1 he).1, hkey,
            find?_eq_none (List.pairwise_cons.1 hf).1]
        · simpa [find?, hk, hkey ▸ hk] using h k
      rw [Prod.ext hkey hval, ih (List.pairwise_cons.1 he).2 (List.pairwise_cons.1 hf).2 htail]

theorem ext_get? {t u : Table κ α} (h : ∀ k, t.get? k = u.get? k) : t = u := by
  have := eq_of_find?_eq t.sorted u.sorted h
  cases t
  cases u
  simp_all

end

section

variable {κ α : Type} [LT κ] [DecidableEq κ] [DecidableLT κ] [KeyOrder κ]

theorem sorted_insertEntry (k : κ) (v : α) {es : List (κ × α)} (h : Sorted es) :
    Sorted (insertEntry k v es) := by
  fun_induction insertEntry k v es with
  | case1 => exact List.pairwise_singleton _ _
  | case2 e es hk =>
    obtain ⟨hall, hes⟩ := List.pairwise_cons.1 h
    exact List.pairwise_cons.2 ⟨fun x hx => hk ▸ hall x hx, hes⟩
  | case3 e es hk hlt =>
    obtain ⟨hall, _⟩ := List.pairwise_cons.1 h
    refine List.pairwise_cons.2 ⟨fun x hx => ?_, h⟩
    rcases List.mem_cons.1 hx with rfl | hx
    · exact hlt
    · exact KeyOrder.trans hlt (hall x hx)
  | case4 e es hk hlt ih =>
    obtain ⟨hall, hes⟩ := List.pairwise_cons.1 h
    refine List.pairwise_cons.2 ⟨fun x hx => ?_, ih hes⟩
    rcases mem_insertEntry hx with hx | hx
    · exact hx ▸ KeyOrder.connected hk hlt
    · exact hall x hx

def insert (t : Table κ α) (k : κ) (v : α) : Table κ α :=
  ⟨insertEntry k v t.entries, sorted_insertEntry k v t.sorted⟩

def ofList (es : List (κ × α)) : Table κ α := es.foldl (fun t e => t.insert e.1 e.2) empty

@[simp] theorem get?_insert (t : Table κ α) (k k' : κ) (v : α) :
    (t.insert k v).get? k' = if k' = k then some v else t.get? k' :=
  find?_insertEntry k k' v t.entries

end

end Table

end LineBasic
