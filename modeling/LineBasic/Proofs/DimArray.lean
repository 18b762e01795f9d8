import LineBasic.Proofs.Variables

/-!
# Places in an array

An index list is a numeral whose places have the spans of the dimensions for bases. Index lists
within the bounds and offsets below the number of elements correspond one to one, up to zeros that
are left out or added, and no number that is computed on the way is larger than an array may be.
-/

set_option autoImplicit false

namespace LineBasic

namespace DimArray

structure InBounds (bounds index : List Nat) : Prop where
  short : index.length ≤ maxDimensions
  within : ∀ d < bounds.length, index.getD d 0 ≤ bounds.getD d 0
  beyond : ∀ d, bounds.length ≤ d → index.getD d 0 = 0

def place : List Nat → List Nat → Nat
  | [], _ => 0
  | b :: bs, index => index.headD 0 + (b + 1) * place bs index.tail

def digits : List Nat → Nat → List Nat
  | [], _ => []
  | b :: bs, n => n % (b + 1) :: digits bs (n / (b + 1))

/-- No index is above its bound. Where there is no bound it counts as zero, and so does an index
that is left out. -/
def Below (bounds index : List Nat) : Prop := ∀ d, index.getD d 0 ≤ bounds.getD d 0

theorem below_cons {b : Nat} {bs index : List Nat} :
    Below (b :: bs) index ↔ index.headD 0 ≤ b ∧ Below bs index.tail := by
  cases index with
  | nil => simp [Below]
  | cons i is =>
    constructor
    · intro h
      exact ⟨h 0, fun d => h (d + 1)⟩
    · rintro ⟨hi, his⟩ d
      cases d with
      | zero => exact hi
      | succ d => exact his d

theorem inBounds_iff {bounds index : List Nat} :
    InBounds bounds index ↔ index.length ≤ maxDimensions ∧ Below bounds index := by
  have hbeyond (d : Nat) (hd : bounds.length ≤ d) : bounds.getD d 0 = 0 := by
    simp [List.getD, List.getElem?_eq_none hd]
  constructor
  · intro h
    refine ⟨h.short, fun d => ?_⟩
    by_cases hd : d < bounds.length
    · exact h.within d hd
    · rw [h.beyond d (Nat.le_of_not_lt hd)]
      exact Nat.zero_le _
  · rintro ⟨hshort, hbelow⟩
    refine ⟨hshort, fun d _ => hbelow d, fun d hd => ?_⟩
    have := hbelow d
    rw [hbeyond d hd] at this
    omega

theorem place_nil (bounds : List Nat) : place bounds [] = 0 := by
  induction bounds with
  | nil => rfl
  | cons b bs ih => simp [place, ih]

theorem offsetFrom_eq_some {block n : Nat} {bounds index : List Nat} :
    offsetFrom block bounds index = some n ↔
      Below bounds index ∧ n = block * place bounds index := by
  fun_induction offsetFrom block bounds index generalizing n with
  | case1 block bounds => simp [Below, place_nil, eq_comm]
  | case2 block b bs i is hi ih =>
    have hsum : i * block + block * (b + 1) * place bs is =
        block * place (b :: bs) (i :: is) := by
      rw [place, List.headD_cons, List.tail_cons, Nat.mul_add block i, Nat.mul_comm i,
        Nat.mul_assoc]
    rw [Option.map_eq_some_iff, below_cons]
    simp only [ih, List.headD_cons, List.tail_cons, hi, true_and]
    constructor
    · rintro ⟨k, ⟨hbelow, rfl⟩, rfl⟩
      exact ⟨hbelow, hsum⟩
    · rintro ⟨hbelow, rfl⟩
      exact ⟨_, ⟨hbelow, rfl⟩, hsum⟩
  | case3 block b bs i is hi => simp [below_cons, hi]
  | case4 block is ih =>
    rw [ih]
    have hzero : Below [] (0 :: is) ↔ Below [] is := by
      constructor
      · exact fun h d => h (d + 1)
      · rintro h (_ | d)
        · exact Nat.le_refl 0
        · exact h d
    rw [hzero]
    rfl
  | case5 block i is hi =>
    have hnot : ¬ Below [] (i :: is) := fun h => hi (Nat.le_zero.1 (h 0))
    simp [hnot]

theorem offset_eq_ok {a : DimArray} {index : List Nat} {n : Nat} :
    a.offset index = .ok n ↔ InBounds a.bounds index ∧ n = place a.bounds index := by
  have hfrom := @offsetFrom_eq_some 1 n a.bounds index
  rw [Nat.one_mul] at hfrom
  rw [inBounds_iff, and_assoc, ← hfrom, offset]
  by_cases hlong : maxDimensions < index.length
  · rw [if_pos hlong]
    constructor
    · intro h
      cases h
    · rintro ⟨hshort, _⟩
      omega
  · rw [if_neg hlong]
    cases offsetFrom 1 a.bounds index with
    | none => simp
    | some k => simp [Nat.le_of_not_lt hlong]

/-- Equal offsets come from equal indices: the first is the remainder by its span. -/
theorem getD_eq_of_place_eq {bounds i j : List Nat} (hi : Below bounds i) (hj : Below bounds j)
    (h : place bounds i = place bounds j) : ∀ d < bounds.length, i.getD d 0 = j.getD d 0 := by
  induction bounds generalizing i j with
  | nil =>
    intro d hd
    cases hd
  | cons b bs ih =>
    obtain ⟨hhi, hti⟩ := below_cons.1 hi
    obtain ⟨hhj, htj⟩ := below_cons.1 hj
    rw [place, place] at h
    have hhead : i.headD 0 = j.headD 0 := by
      have hmod := congrArg (· % (b + 1)) h
      simp only [Nat.add_mul_mod_self_left] at hmod
      rwa [Nat.mod_eq_of_lt (Nat.lt_succ_of_le hhi), Nat.mod_eq_of_lt (Nat.lt_succ_of_le hhj)]
        at hmod
    have hrest : place bs i.tail = place bs j.tail := by
      rw [hhead] at h
      exact Nat.eq_of_mul_eq_mul_left b.succ_pos (Nat.add_left_cancel h)
    intro d hd
    cases d with
    | zero => cases i <;> cases j <;> exact hhead
    | succ d =>
      have := ih hti htj hrest d (Nat.lt_of_succ_lt_succ hd)
      cases i <;> cases j <;> exact this

theorem place_congr {bounds i j : List Nat}
    (h : ∀ d < bounds.length, i.getD d 0 = j.getD d 0) : place bounds i = place bounds j := by
  induction bounds generalizing i j with
  | nil => rfl
  | cons b bs ih =>
    have hhead : i.headD 0 = j.headD 0 := by
      have := h 0 (Nat.succ_pos _)
      cases i <;> cases j <;> exact this
    have htail : ∀ d < bs.length, i.tail.getD d 0 = j.tail.getD d 0 := by
      intro d hd
      have := h (d + 1) (Nat.succ_lt_succ hd)
      cases i <;> cases j <;> exact this
    rw [place, place, hhead, ih htail]

theorem length_digits (bounds : List Nat) (n : Nat) : (digits bounds n).length = bounds.length := by
  induction bounds generalizing n with
  | nil => rfl
  | cons b bs ih => rw [digits, List.length_cons, ih, List.length_cons]

theorem below_digits (bounds : List Nat) (n : Nat) : Below bounds (digits bounds n) := by
  induction bounds generalizing n with
  | nil =>
    intro d
    exact Nat.le_refl _
  | cons b bs ih =>
    rw [below_cons, digits]
    exact ⟨Nat.le_of_lt_succ (Nat.mod_lt n b.succ_pos), ih _⟩

theorem place_digits {bounds : List Nat} {n : Nat} (h : n < capacity bounds) :
    place bounds (digits bounds n) = n := by
  induction bounds generalizing n with
  | nil => exact (Nat.lt_one_iff.1 h).symm
  | cons b bs ih =>
    have hrest : n / (b + 1) < capacity bs := Nat.div_lt_of_lt_mul h
    rw [digits, place, List.headD_cons, List.tail_cons, ih hrest]
    exact Nat.mod_add_div n (b + 1)

def word? (n : Nat) : Option Nat := if n < UInt64.size then some n else none

/-- The number of elements, computed in machine words. No answer means that a word overflows; a
product that is checked for overflow is refused if it does. -/
def sizeInWords (size : Nat) : List Nat → Option (Option Nat)
  | [] => some (some size)
  | b :: bs => do
    let span ← word? (b + 1)
    match word? (size * span) with
    | some size => if size ≤ maxElements then sizeInWords size bs else some none
    | none => some none

def offsetInWords (offset block : Nat) : List Nat → List Nat → Option (Option Nat)
  | _, [] => some (some offset)
  | b :: bs, i :: is =>
    if i ≤ b then do
      let step ← word? (i * block)
      let offset ← word? (offset + step)
      let span ← word? (b + 1)
      let block ← word? (block * span)
      offsetInWords offset block bs is
    else some none
  | [], i :: is => if i = 0 then offsetInWords offset block [] is else some none

theorem word?_of_lt {n : Nat} (h : n < UInt64.size) : word? n = some n := if_pos h

theorem maxElements_lt : maxElements < UInt64.size := by decide

theorem sizeInWords_eq {size : Nat} {bounds : List Nat}
    (h : ∀ b ∈ bounds, b ≤ Int64.maxValue.toInt.toNat) :
    sizeInWords size bounds = some (sizeWithin size bounds) := by
  induction bounds generalizing size with
  | nil => rfl
  | cons b bs ih =>
    have hspan : b + 1 < UInt64.size :=
      Nat.lt_of_le_of_lt (Nat.succ_le_succ (h b List.mem_cons_self)) (by decide)
    have hrest : ∀ c ∈ bs, c ≤ Int64.maxValue.toInt.toNat :=
      fun c hc => h c (List.mem_cons_of_mem b hc)
    rw [sizeInWords, sizeWithin, word?_of_lt hspan]
    by_cases hsize : size * (b + 1) ≤ maxElements
    · simp [word?_of_lt (Nat.lt_of_le_of_lt hsize maxElements_lt), hsize, ih hrest]
    · by_cases hword : size * (b + 1) < UInt64.size
      · simp [word?_of_lt hword, hsize]
      · simp [word?, hword, hsize]

/-- As long as the array is no larger than it may be, nothing that is computed is. -/
theorem offsetInWords_eq {offset block : Nat} {bounds index : List Nat} (hoffset : offset < block)
    (h : block * capacity bounds ≤ maxElements) :
    offsetInWords offset block bounds index =
      some ((offsetFrom block bounds index).map (offset + ·)) := by
  induction index generalizing offset block bounds with
  | nil => cases bounds <;> rfl
  | cons i is ih =>
    cases bounds with
    | nil =>
      rw [offsetInWords, offsetFrom]
      split
      · exact ih hoffset h
      · rfl
    | cons b bs =>
      rw [offsetInWords, offsetFrom]
      split
      · rename_i hi
        have hfull : block * (b + 1) * capacity bs ≤ maxElements := by
          rwa [Nat.mul_assoc, ← capacity]
        have hblock : block * (b + 1) ≤ maxElements :=
          Nat.le_trans (Nat.le_mul_of_pos_right _ (capacity_pos bs)) hfull
        have hstep : offset + i * block < block * (b + 1) := by
          have := Nat.mul_le_mul_right block hi
          rw [Nat.mul_succ, Nat.mul_comm block b]
          omega
        have hspan : b + 1 ≤ block * (b + 1) :=
          Nat.le_mul_of_pos_left _ (Nat.lt_of_le_of_lt (Nat.zero_le _) hoffset)
        have hword : maxElements < UInt64.size := maxElements_lt
        simp [word?_of_lt (show i * block < UInt64.size by omega),
          word?_of_lt (show offset + i * block < UInt64.size by omega),
          word?_of_lt (show b + 1 < UInt64.size by omega),
          word?_of_lt (show block * (b + 1) < UInt64.size by omega),
          ih hstep hfull, Function.comp_def, Nat.add_assoc]
      · rfl

theorem of_create {bounds : List Nat} {zero : Value} {a : DimArray}
    (h : create bounds zero = .ok a) :
    bounds.length ≤ maxDimensions ∧ sizeWithin 1 bounds = some (capacity bounds) := by
  rw [create] at h
  split at h
  · cases h
  · rename_i hrank
    split at h
    · rename_i size hsize
      have := eq_of_sizeWithin hsize
      rw [Nat.one_mul] at this
      exact ⟨by omega, this ▸ hsize⟩
    · cases h

theorem le_maxElements_of_sizeWithin {size n : Nat} {bounds : List Nat} (hsize : size ≤ maxElements)
    (h : sizeWithin size bounds = some n) : n ≤ maxElements := by
  induction bounds generalizing size with
  | nil =>
    cases h
    exact hsize
  | cons b bs ih =>
    rw [sizeWithin] at h
    split at h
    · exact ih ‹_› h
    · cases h

theorem get_of_lt {a : DimArray} {n : Nat} (h : n < a.elements.size) :
    a.get n = .ok (a.elements[n]) := by
  rw [get, Array.getElem?_eq_getElem h]

theorem set_of_lt {a : DimArray} {n : Nat} (h : n < a.elements.size) (v : Value) :
    ∃ b, a.set n v = .ok b ∧ b.bounds = a.bounds := by
  rw [set, if_pos h]
  exact ⟨_, rfl, rfl⟩

theorem get_of_set {a b : DimArray} {n : Nat} {v : Value} (h : a.set n v = .ok b) (k : Nat) :
    b.get k = if k = n then .ok v else a.get k := by
  rw [set] at h
  split at h
  · rename_i hn
    cases h
    rw [get]
    dsimp only
    rw [Array.getElem?_setIfInBounds]
    by_cases hk : k = n
    · simp [hk, hn]
    · simp [hk, Ne.symm hk, get]
  · cases h

/-- Offsets number the elements. Bounds that come from subscripts never overflow a word while the
size is computed. In an array that they make, an index list has an offset exactly if it is within
the bounds; no word overflows on the way; the offset is below the number of elements; two lists have
the same one exactly if they agree up to zeros at their ends; every offset is that of a list; and
what stands at an offset can be read and written, which changes no other element. -/
theorem offsets_number_elements {bounds : List Nat}
    (hbounds : ∀ b ∈ bounds, b ≤ Int64.maxValue.toInt.toNat) (zero : Value) :
    sizeInWords 1 bounds = some (sizeWithin 1 bounds) ∧
    ∀ fresh a : DimArray, create bounds zero = .ok fresh → a.bounds = bounds →
      (a.elements.size = capacity bounds ∧ capacity bounds ≤ maxElements) ∧
      (∀ index, (∃ n, a.offset index = .ok n) ↔ InBounds bounds index) ∧
      (∀ index, offsetInWords 0 1 bounds index = some (offsetFrom 1 bounds index)) ∧
      (∀ index n, a.offset index = .ok n → n < a.elements.size) ∧
      (∀ i j n k, a.offset i = .ok n → a.offset j = .ok k →
        (n = k ↔ ∀ d < bounds.length, i.getD d 0 = j.getD d 0)) ∧
      (∀ n < a.elements.size, ∃ index, a.offset index = .ok n) ∧
      ∀ index n, a.offset index = .ok n →
        (∃ w, a.get n = .ok w) ∧
        ∀ v, ∃ b, a.set n v = .ok b ∧ b.bounds = bounds ∧
          ∀ k, b.get k = if k = n then .ok v else a.get k := by
  refine ⟨sizeInWords_eq hbounds, ?_⟩
  rintro fresh a hcreate rfl
  obtain ⟨hrank, hsize⟩ := of_create hcreate
  have hmax : capacity a.bounds ≤ maxElements :=
    le_maxElements_of_sizeWithin (by decide) hsize
  refine ⟨⟨a.size_eq, hmax⟩, fun index => ?_, fun index => ?_, fun index n => offset_lt,
    fun i j n k hi hj => ?_, fun n hn => ?_, fun index n hn => ?_⟩
  · simp [offset_eq_ok]
  · have hwords := @offsetInWords_eq 0 1 a.bounds index Nat.one_pos (by rwa [Nat.one_mul])
    simpa using hwords
  · obtain ⟨hini, rfl⟩ := offset_eq_ok.1 hi
    obtain ⟨hinj, rfl⟩ := offset_eq_ok.1 hj
    exact ⟨getD_eq_of_place_eq (inBounds_iff.1 hini).2 (inBounds_iff.1 hinj).2, place_congr⟩
  · rw [a.size_eq] at hn
    refine ⟨digits a.bounds n, offset_eq_ok.2 ⟨inBounds_iff.2 ⟨?_, below_digits _ n⟩, ?_⟩⟩
    · rwa [length_digits]
    · exact (place_digits hn).symm
  · have hlt := offset_lt hn
    refine ⟨⟨_, get_of_lt hlt⟩, fun v => ?_⟩
    obtain ⟨b, hset, hsame⟩ := set_of_lt hlt v
    exact ⟨b, hset, hsame, get_of_set hset⟩

/-- Three rows of four: the last element is that of `(2, 3)`, also with a zero behind it. -/
theorem offsets_number_elements_of_rows :
    ∃ a, create [2, 3] (.integer 0) = .ok a ∧ a.offset [2, 3, 0] = .ok 11 ∧
      a.offset [2, 3] = .ok 11 ∧ (11 < a.elements.size) ∧ (∃ w, a.get 11 = .ok w) ∧
      ¬ ∃ n, a.offset [2, 3, 1] = .ok n := by
  obtain ⟨a, ha, hbounds⟩ : ∃ a, create [2, 3] (.integer 0) = .ok a ∧ a.bounds = [2, 3] :=
    ⟨_, rfl, rfl⟩
  obtain ⟨-, h⟩ := @offsets_number_elements [2, 3] (by decide) (.integer 0)
  obtain ⟨-, haccepts, -, hlt, hsame, -, hreads⟩ := h a a ha hbounds
  have hbeyond : ∀ d, 2 ≤ d → [2, 3, 0].getD d 0 = 0 := by
    intro d hd
    obtain ⟨k, rfl⟩ := Nat.exists_eq_add_of_le' hd
    cases k <;> rfl
  obtain ⟨n, hn⟩ := (haccepts [2, 3, 0]).2 ⟨by decide, by decide, hbeyond⟩
  have h11 : a.offset [2, 3] = .ok 11 := by simp [offset, hbounds, offsetFrom, maxDimensions]
  obtain rfl := (hsame _ _ n 11 hn h11).2 (by decide)
  refine ⟨a, ha, hn, h11, hlt _ _ h11, (hreads _ _ h11).1, fun hout => ?_⟩
  exact absurd (((haccepts _).1 hout).beyond 2 (by decide)) (by decide)

end DimArray

end LineBasic
