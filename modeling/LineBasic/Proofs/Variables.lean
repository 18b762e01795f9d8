import LineBasic.Expression.Place
import LineBasic.Proofs.Run

/-!
# The values of variables

A value is stored only after it has the kind of its name. The one exception is the time: `TI` shows
it as an integer. An array keeps its bounds as long as no `DIM` makes another one in its place, so a
place that was found in it stays there.
-/

set_option autoImplicit false

namespace LineBasic

namespace DimArray

theorem capacity_pos (bounds : List Nat) : 0 < capacity bounds := by
  induction bounds with
  | nil => exact Nat.one_pos
  | cons b bs ih => exact Nat.mul_pos (Nat.succ_pos b) ih

/-- The step of the last index still lies within the array. -/
theorem add_le_of_offsetFrom {block n : Nat} {bounds index : List Nat}
    (h : offsetFrom block bounds index = some n) : n + block ≤ block * capacity bounds := by
  fun_induction offsetFrom block bounds index generalizing n with
  | case1 block bounds =>
    cases h
    rw [Nat.zero_add]
    exact Nat.le_mul_of_pos_right block (capacity_pos bounds)
  | case2 block b bs i is hi ih =>
    obtain ⟨k, hk, rfl⟩ := Option.map_eq_some_iff.1 h
    have hrest := ih hk
    have hstep : i * block ≤ b * block := Nat.mul_le_mul_right block hi
    rw [capacity, ← Nat.mul_assoc]
    refine Nat.le_trans ?_ hrest
    rw [Nat.mul_succ, Nat.mul_comm block b]
    omega
  | case3 => cases h
  | case4 block is ih => exact ih h
  | case5 => cases h

theorem offset_lt {a : DimArray} {index : List Nat} {n : Nat} (h : a.offset index = .ok n) :
    n < a.elements.size := by
  rw [offset] at h
  split at h
  · cases h
  · split at h
    · rename_i k hk
      cases h
      have hle := add_le_of_offsetFrom hk
      rw [a.size_eq]
      omega
    · cases h

theorem elements_of_create {bounds : List Nat} {zero : Value} {a : DimArray}
    (h : create bounds zero = .ok a) : ∀ v ∈ a.elements, v = zero := by
  rw [create] at h
  split at h
  · cases h
  · split at h
    · cases h
      intro v hv
      exact Array.eq_of_mem_replicate hv
    · cases h

theorem of_set {a b : DimArray} {offset : Nat} {v : Value} (h : a.set offset v = .ok b) :
    b.bounds = a.bounds ∧ ∀ w ∈ b.elements, w ∈ a.elements ∨ w = v := by
  rw [set] at h
  split at h
  · cases h
    exact ⟨rfl, fun w hw => Array.mem_or_eq_of_mem_setIfInBounds hw⟩
  · cases h

end DimArray

namespace Variables

def HasElement (vars : Variables) (name : String) (offset : Nat) : Prop :=
  ∃ a, vars.arrays.get? name = some a ∧ offset < a.elements.size

theorem get?_of_array {vars : Variables} {name : String} {a : DimArray}
    (h : vars.array name = .ok a) : vars.arrays.get? name = some a := by
  rw [array] at h
  split at h
  · rename_i hget
    cases h
    exact hget
  · cases h

theorem hasElement_of_arrayOffset {vars : Variables} {name : String} {index : List Nat}
    {offset : Nat} (h : vars.arrayOffset name index = .ok offset) :
    vars.HasElement name offset := by
  obtain ⟨a, ha, hoffset⟩ := bind_eq_ok.1 h
  exact ⟨a, get?_of_array ha, DimArray.offset_lt hoffset⟩

/-- What an element that was stored has changed: one array, which keeps its bounds. -/
theorem of_storeElement {vars vars' : Variables} {name : String} {offset : Nat} {v : Value}
    (h : vars.storeElement name offset v = .ok vars') :
    ∃ a b w, vars.arrays.get? name = some a ∧ b.bounds = a.bounds ∧ w.kind = Kind.ofName name ∧
      (∀ u ∈ b.elements, u ∈ a.elements ∨ u = w) ∧
      vars' = { vars with arrays := vars.arrays.insert name b } := by
  obtain ⟨w, hw, h⟩ := bind_eq_ok.1 h
  obtain ⟨a, ha, h⟩ := bind_eq_ok.1 h
  obtain ⟨b, hb, h⟩ := bind_eq_ok.1 h
  cases h
  obtain ⟨hbounds, helements⟩ := DimArray.of_set hb
  exact ⟨a, b, w, get?_of_array ha, hbounds, Value.kind_of_coerce hw, helements, rfl⟩

theorem of_dimension {vars vars' : Variables} {name : String} {bounds : List Nat}
    (h : vars.dimension name bounds = .ok vars') :
    ∃ a, (∀ v ∈ a.elements, v = Value.zeroFor name) ∧
      vars' = { vars with arrays := vars.arrays.insert name a } := by
  rw [dimension] at h
  cases ha : DimArray.create bounds (Value.zeroFor name) with
  | error f =>
    rw [ha] at h
    cases h
  | ok a =>
    rw [ha] at h
    cases h
    exact ⟨a, DimArray.elements_of_create ha, rfl⟩

theorem of_store {vars vars' : Variables} {name : String} {v : Value}
    (h : vars.store name v = .ok vars') :
    ∃ w, w.kind = Kind.ofName name ∧ vars' = vars.storeRaw name w := by
  rw [store] at h
  cases hw : Value.coerceFor name v with
  | error f =>
    rw [hw] at h
    cases h
  | ok w =>
    rw [hw] at h
    cases h
    exact ⟨w, Value.kind_of_coerce hw, rfl⟩

/-- Every value has the kind of its name, but for the time, which is a number of either kind. -/
structure WellKinded (vars : Variables) : Prop where
  scalars : ∀ {name : String} {v : Value}, vars.scalars.get? name = some v → name ≠ "TI" →
    v.kind = Kind.ofName name
  time : ∀ {v : Value}, vars.scalars.get? "TI" = some v → v.kind ≠ .text
  arrays : ∀ {name : String} {a : DimArray}, vars.arrays.get? name = some a →
    ∀ v ∈ a.elements, v.kind = Kind.ofName name

namespace WellKinded

variable {vars vars' : Variables} {name : String}

theorem empty : ({} : Variables).WellKinded where
  scalars h := by cases h
  time h := by cases h
  arrays h := by cases h

theorem storeRaw (h : vars.WellKinded) {v : Value}
    (hv : v.kind = Kind.ofName name ∨ name = "TI" ∧ v.kind ≠ .text) :
    (vars.storeRaw name v).WellKinded where
  scalars {other w} hget hti := by
    rw [Variables.storeRaw, Table.get?_insert] at hget
    split at hget
    · rename_i hname
      cases hget
      rcases hv with hv | ⟨rfl, -⟩
      · rw [hname, hv]
      · exact absurd hname hti
    · exact h.scalars hget hti
  time {w} hget := by
    rw [Variables.storeRaw, Table.get?_insert] at hget
    split at hget
    · rename_i hname
      cases hget
      rcases hv with hv | ⟨-, hv⟩
      · rw [hv, ← hname]
        decide
      · exact hv
    · exact h.time hget
  arrays := h.arrays

theorem touch (h : vars.WellKinded) (name : String) : (vars.touch name).WellKinded := by
  rw [Variables.touch]
  split
  · exact h
  · exact h.storeRaw (.inl (Value.kind_zero _))

theorem insertArray (h : vars.WellKinded) {a : DimArray}
    (ha : ∀ v ∈ a.elements, v.kind = Kind.ofName name) :
    ({ vars with arrays := vars.arrays.insert name a } : Variables).WellKinded where
  scalars := h.scalars
  time := h.time
  arrays {other b} hget := by
    rw [Table.get?_insert] at hget
    split at hget
    · rename_i hname
      cases hget
      rw [hname]
      exact ha
    · exact h.arrays hget

theorem dimension (h : vars.WellKinded) {bounds : List Nat}
    (hd : vars.dimension name bounds = .ok vars') : vars'.WellKinded := by
  obtain ⟨a, hzero, rfl⟩ := of_dimension hd
  refine h.insertArray fun v hv => ?_
  rw [hzero v hv]
  exact Value.kind_zero _

theorem storeElement (h : vars.WellKinded) {offset : Nat} {v : Value}
    (hs : vars.storeElement name offset v = .ok vars') : vars'.WellKinded := by
  obtain ⟨a, b, w, ha, -, hw, helements, rfl⟩ := of_storeElement hs
  refine h.insertArray fun u hu => ?_
  rcases helements u hu with hu | rfl
  · exact h.arrays ha u hu
  · exact hw

theorem storeIn (h : vars.WellKinded) {p : Place} {v : Value}
    (hs : p.storeIn vars v = .ok vars') : vars'.WellKinded := by
  cases p with
  | scalar home name =>
    obtain ⟨w, hw, rfl⟩ := of_store hs
    exact h.storeRaw (.inl hw)
  | element home name offset => exact h.storeElement hs

theorem fetch_kind (h : vars.WellKinded) (hname : Kind.ofName name ≠ .text) :
    (vars.fetch name).kind ≠ .text := by
  rw [fetch]
  cases hget : vars.scalars.get? name with
  | none =>
    rw [Option.getD_none, Value.zeroFor, Value.kind_zero]
    exact hname
  | some v =>
    rw [Option.getD_some]
    by_cases hti : name = "TI"
    · subst hti
      exact h.time hget
    · rw [h.scalars hget hti]
      exact hname

end WellKinded

def KeepsArrays (vars vars' : Variables) : Prop :=
  ∀ name a, vars.arrays.get? name = some a →
    ∃ b, vars'.arrays.get? name = some b ∧ b.bounds = a.bounds

namespace KeepsArrays

variable {vars vars' vars₁ : Variables} {name : String}

theorem of_eq (h : vars'.arrays = vars.arrays) : vars.KeepsArrays vars' :=
  fun _ a ha => ⟨a, by rw [h]; exact ha, rfl⟩

theorem refl (vars : Variables) : vars.KeepsArrays vars := of_eq rfl

theorem trans (h : vars.KeepsArrays vars') (h' : vars'.KeepsArrays vars₁) :
    vars.KeepsArrays vars₁ := by
  intro name a ha
  obtain ⟨b, hb, hbounds⟩ := h name a ha
  obtain ⟨c, hc, hbounds'⟩ := h' name b hb
  exact ⟨c, hc, hbounds'.trans hbounds⟩

theorem insertArray {a : DimArray}
    (ha : ∀ b, vars.arrays.get? name = some b → a.bounds = b.bounds) :
    vars.KeepsArrays { vars with arrays := vars.arrays.insert name a } := by
  intro other b hb
  by_cases hname : other = name
  · subst hname
    exact ⟨a, by rw [Table.get?_insert, if_pos rfl], ha b hb⟩
  · exact ⟨b, by rw [Table.get?_insert, if_neg hname, hb], rfl⟩

theorem dimension {bounds : List Nat} (hnone : vars.hasArray name = false)
    (hd : vars.dimension name bounds = .ok vars') : vars.KeepsArrays vars' := by
  obtain ⟨a, -, rfl⟩ := of_dimension hd
  refine insertArray fun b hb => ?_
  rw [hasArray, Table.contains, hb] at hnone
  cases hnone

theorem storeIn {p : Place} {v : Value} (hs : p.storeIn vars v = .ok vars') :
    vars.KeepsArrays vars' := by
  cases p with
  | scalar home name =>
    obtain ⟨w, -, rfl⟩ := of_store hs
    exact of_eq rfl
  | element home name offset =>
    obtain ⟨a, b, w, ha, hbounds, -, -, rfl⟩ := of_storeElement hs
    refine insertArray fun c hc => ?_
    rw [ha] at hc
    cases hc
    exact hbounds

theorem hasElement (h : vars.KeepsArrays vars') {offset : Nat} (ha : vars.HasElement name offset) :
    vars'.HasElement name offset := by
  obtain ⟨a, hget, hlt⟩ := ha
  obtain ⟨b, hb, hbounds⟩ := h name a hget
  refine ⟨b, hb, ?_⟩
  rw [b.size_eq, hbounds, ← a.size_eq]
  exact hlt

end KeepsArrays

/-- Some scalars more, which are zero. -/
structure Touched (vars vars' : Variables) : Prop where
  arrays : vars'.arrays = vars.arrays
  scalars : ∀ name, vars'.scalars.get? name = vars.scalars.get? name ∨
    vars.scalars.get? name = none ∧ vars'.scalars.get? name = some (Value.zeroFor name)

namespace Touched

variable {vars vars' vars₁ : Variables}

theorem refl (vars : Variables) : vars.Touched vars := ⟨rfl, fun _ => .inl rfl⟩

theorem trans (h : vars.Touched vars') (h' : vars'.Touched vars₁) : vars.Touched vars₁ where
  arrays := h'.arrays.trans h.arrays
  scalars name := by
    rcases h'.scalars name with hsame | ⟨hnone, hzero⟩
    · rw [hsame]
      exact h.scalars name
    · rcases h.scalars name with hsame | ⟨-, hsome⟩
      · exact .inr ⟨hsame.symm.trans hnone, hzero⟩
      · rw [hnone] at hsome
        cases hsome

theorem touch (vars : Variables) (name : String) : vars.Touched (vars.touch name) := by
  rw [Variables.touch]
  split
  · exact .refl vars
  · rename_i hnew
    refine ⟨rfl, fun other => ?_⟩
    rw [storeRaw, Table.get?_insert]
    split
    · rename_i hname
      subst hname
      exact .inr ⟨by simpa [Table.contains] using hnew, rfl⟩
    · exact .inl rfl

theorem fetch (h : vars.Touched vars') (name : String) : vars'.fetch name = vars.fetch name := by
  rw [Variables.fetch, Variables.fetch]
  rcases h.scalars name with hsame | ⟨hnone, hzero⟩
  · rw [hsame]
  · rw [hnone, hzero]
    rfl

end Touched

end Variables

def Place.IsIn (vars : Variables) : Place → Prop
  | scalar _ _ => True
  | element _ name offset => vars.HasElement name offset

theorem Place.IsIn.keep {p : Place} {vars vars' : Variables} (h : p.IsIn vars)
    (hkeep : vars.KeepsArrays vars') : p.IsIn vars' := by
  cases p with
  | scalar home name => trivial
  | element home name offset => exact hkeep.hasElement h

end LineBasic
