import LineBasic.Value

/-!
# Dimensioned arrays

An array of one to four dimensions. A bound is the greatest index of its dimension, so a dimension
holds one element more than its bound. The first index runs fastest. Indices that are left out are
zero, and an index beyond the declared dimensions must be zero.
-/

set_option autoImplicit false

namespace LineBasic

def capacity : List Nat → Nat
  | [] => 1
  | b :: bs => (b + 1) * capacity bs

structure DimArray where
  bounds : List Nat
  elements : Array Value
  size_eq : elements.size = capacity bounds

namespace DimArray

def maxDimensions : Nat := 4

def maxElements : Nat := 0x1000000

/-- How many elements the bounds ask for, if they are not too many; `size` counts those of the
dimensions before. -/
def sizeWithin (size : Nat) : List Nat → Option Nat
  | [] => some size
  | b :: bs => if size * (b + 1) ≤ maxElements then sizeWithin (size * (b + 1)) bs else none

theorem eq_of_sizeWithin {size n : Nat} {bounds : List Nat} (h : sizeWithin size bounds = some n) :
    n = size * capacity bounds := by
  induction bounds generalizing size with
  | nil => simpa [sizeWithin, capacity] using h.symm
  | cons b bs ih =>
    rw [sizeWithin] at h
    split at h
    · rw [ih h, capacity, Nat.mul_assoc]
    · cases h

def create (bounds : List Nat) (zero : Value) : Except Fault DimArray :=
  if bounds = [] ∨ maxDimensions < bounds.length then
    .error (.because .badSubscript "ARRAYS HAVE ONE TO FOUR DIMENSIONS")
  else match h : sizeWithin 1 bounds with
    | some size =>
      .ok ⟨bounds, Array.replicate size zero, by simpa using eq_of_sizeWithin h⟩
    | none => .error (.because .illegalQuantity "ARRAY TOO LARGE")

/-- The place of an index list among the elements, counted from the dimension at hand; `block` is
how many elements one step of its index spans. -/
def offsetFrom (block : Nat) : List Nat → List Nat → Option Nat
  | _, [] => some 0
  | b :: bs, i :: is =>
    if i ≤ b then (offsetFrom (block * (b + 1)) bs is).map (i * block + ·) else none
  | [], i :: is => if i = 0 then offsetFrom block [] is else none

def offset (a : DimArray) (index : List Nat) : Except Fault Nat :=
  if maxDimensions < index.length then .error (.plain .badSubscript)
  else match offsetFrom 1 a.bounds index with
    | some n => .ok n
    | none => .error (.plain .badSubscript)

def outside : Fault := .because .internal "ARRAY OFFSET"

def get (a : DimArray) (offset : Nat) : Except Fault Value :=
  match a.elements[offset]? with
  | some v => .ok v
  | none => .error outside

def set (a : DimArray) (offset : Nat) (v : Value) : Except Fault DimArray :=
  if offset < a.elements.size then
    .ok ⟨a.bounds, a.elements.setIfInBounds offset v, by simpa using a.size_eq⟩
  else .error outside

end DimArray

end LineBasic
