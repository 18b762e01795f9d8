import LineBasic.Fault

/-!
# Limited stacks

A stack with a limit on its height. A push always puts the element on; `overflow?` then says
whether the stack has grown past its limit, so whoever pushes decides what becomes of it.
Positions count from the bottom.
-/

set_option autoImplicit false

namespace LineBasic

structure Stack (α : Type) where
  /-- What to say when the stack has grown past its limit. -/
  complaint : String
  limit : Nat
  /-- The elements, top first. -/
  held : List α := []
  deriving DecidableEq

namespace Stack

variable {α : Type}

def size (s : Stack α) : Nat := s.held.length

def isEmpty (s : Stack α) : Bool := s.held.isEmpty

def push (s : Stack α) (x : α) : Stack α := { s with held := x :: s.held }

def overflow? (s : Stack α) : Option Fault :=
  if s.limit < s.size then some (.because .formulaTooComplex s.complaint) else none

def pushed (s : Stack α) (x : α) : Except Fault (Stack α) :=
  match (s.push x).overflow? with
  | some f => .error f
  | none => .ok (s.push x)

def underflow : Fault := .because .internal "UNDERFLOW"

def pop (s : Stack α) : Except Fault α × Stack α :=
  match s.held with
  | [] => (.error underflow, s)
  | x :: xs => (.ok x, { s with held := xs })

def pop2 (s : Stack α) : Except Fault (α × α) × Stack α :=
  match s.held with
  | x :: y :: xs => (.ok (y, x), { s with held := xs })
  | _ => (.error underflow, { s with held := [] })

def top? (s : Stack α) : Option α := s.held.head?

def toList (s : Stack α) : List α := s.held.reverse

def get? (s : Stack α) (i : Nat) : Option α := s.toList[i]?

def truncate (s : Stack α) (n : Nat) : Stack α := { s with held := s.held.drop (s.size - n) }

def clear (s : Stack α) : Stack α := { s with held := [] }

@[simp] theorem size_push (s : Stack α) (x : α) : (s.push x).size = s.size + 1 := rfl

@[simp] theorem toList_push (s : Stack α) (x : α) : (s.push x).toList = s.toList ++ [x] := by
  simp [toList, push]

@[simp] theorem toList_clear (s : Stack α) : s.clear.toList = [] := rfl

theorem toList_truncate (s : Stack α) (n : Nat) : (s.truncate n).toList = s.toList.take n := by
  simp only [toList, truncate, size, List.take_reverse]

theorem size_truncate (s : Stack α) (n : Nat) : (s.truncate n).size = min n s.size := by
  simp only [size, truncate, List.length_drop]
  omega

theorem truncate_of_size_le {s : Stack α} {n : Nat} (h : s.size ≤ n) : s.truncate n = s := by
  rw [truncate, Nat.sub_eq_zero_of_le h, List.drop_zero]

theorem truncate_truncate (s : Stack α) (i j : Nat) :
    (s.truncate i).truncate j = s.truncate (min i j) := by
  have hsize := s.size_truncate i
  simp only [truncate, size, List.drop_drop] at hsize ⊢
  congr 2
  omega

@[simp] theorem clear_truncate (s : Stack α) (n : Nat) : s.clear.truncate n = s.clear := by
  simp [clear, truncate]

theorem truncate_push {s : Stack α} {n : Nat} (h : n ≤ s.size) (x : α) :
    (s.push x).truncate n = s.truncate n := by
  have hsub : s.size + 1 - n = (s.size - n) + 1 := by omega
  rw [truncate, truncate, size_push, hsub]
  rfl

theorem sublist_truncate (s : Stack α) (n : Nat) : (s.truncate n).held.Sublist s.held :=
  List.drop_sublist _ _

theorem pop_eq_truncate (s : Stack α) : s.pop.2 = s.truncate (s.size - 1) := by
  rcases s with ⟨complaint, limit, held⟩
  cases held with
  | nil => rfl
  | cons x xs => simp [pop, truncate, size]

theorem toList_of_top? {s : Stack α} {x : α} (h : s.top? = some x) :
    s.toList = s.pop.2.toList ++ [x] := by
  rcases s with ⟨complaint, limit, held⟩
  cases held with
  | nil => cases h
  | cons y ys =>
    cases h
    simp [toList, pop]

/-- What stays below the lowest element of a kind is not of that kind. -/
theorem eq_false_of_mem_truncate {s : Stack α} {p : α → Bool} {x : α}
    (h : x ∈ (s.truncate (s.toList.findIdx p)).held) : p x = false := by
  have hmem : x ∈ (s.truncate (s.toList.findIdx p)).toList := List.mem_reverse.2 h
  rw [toList_truncate] at hmem
  obtain ⟨i, hi, rfl⟩ := List.mem_take_iff_getElem.1 hmem
  exact List.not_of_lt_findIdx (by omega)

theorem length_toList (s : Stack α) : s.toList.length = s.size := List.length_reverse

theorem pred_size_lt {s : Stack α} {x : α} (h : s.top? = some x) : s.size - 1 < s.size := by
  rcases s with ⟨complaint, limit, held⟩
  cases held with
  | nil => cases h
  | cons y ys => exact Nat.lt_succ_self _

end Stack

end LineBasic
