import LineBasic.DimArray
import LineBasic.Table

/-!
# Variables

The scalars and arrays of one module. A name that was never stored reads as the zero of its kind,
and a value is converted to the kind of its name before it is stored. A scalar and an array may
share a name.
-/

set_option autoImplicit false

namespace LineBasic

structure Variables where
  scalars : Table String Value := .empty
  arrays : Table String DimArray := .empty

namespace Variables

def fetch (vars : Variables) (name : String) : Value :=
  (vars.scalars.get? name).getD (Value.zeroFor name)

def storeRaw (vars : Variables) (name : String) (v : Value) : Variables :=
  { vars with scalars := vars.scalars.insert name v }

def touch (vars : Variables) (name : String) : Variables :=
  if vars.scalars.contains name then vars else vars.storeRaw name (Value.zeroFor name)

def store (vars : Variables) (name : String) (v : Value) : Except Fault Variables :=
  (Value.coerceFor name v).map (vars.storeRaw name)

def hasArray (vars : Variables) (name : String) : Bool := vars.arrays.contains name

def dimension (vars : Variables) (name : String) (bounds : List Nat) : Except Fault Variables :=
  (DimArray.create bounds (Value.zeroFor name)).map fun a =>
    { vars with arrays := vars.arrays.insert name a }

def array (vars : Variables) (name : String) : Except Fault DimArray :=
  match vars.arrays.get? name with
  | some a => .ok a
  | none => .error (.because .badSubscript "ARRAY NOT DIMENSIONED")

def arrayOffset (vars : Variables) (name : String) (index : List Nat) : Except Fault Nat := do
  (← vars.array name).offset index

def fetchElement (vars : Variables) (name : String) (offset : Nat) : Except Fault Value := do
  (← vars.array name).get offset

def storeElement (vars : Variables) (name : String) (offset : Nat) (v : Value) :
    Except Fault Variables := do
  let v ← Value.coerceFor name v
  let a ← (← vars.array name).set offset v
  return { vars with arrays := vars.arrays.insert name a }

@[simp] theorem fetch_storeRaw (vars : Variables) (name other : String) (v : Value) :
    (vars.storeRaw name v).fetch other = if other = name then v else vars.fetch other := by
  simp only [fetch, storeRaw, Table.get?_insert]
  split <;> rfl

/-- Touching a name changes no value that can be read. -/
@[simp] theorem fetch_touch (vars : Variables) (name other : String) :
    (vars.touch name).fetch other = vars.fetch other := by
  rw [touch]
  split
  · rfl
  · rename_i h
    rw [fetch_storeRaw]
    split
    · rename_i hn
      subst hn
      simp only [Table.contains, Bool.not_eq_true, Option.isSome_eq_false_iff,
        Option.isNone_iff_eq_none] at h
      simp [fetch, h]
    · rfl

end Variables

end LineBasic
