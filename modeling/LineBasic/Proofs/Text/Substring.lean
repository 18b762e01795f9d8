import LineBasic.Function
import LineBasic.Proofs.Number.Integer
import LineBasic.Proofs.Run
import LineBasic.Text.Layout

/-!
# Parts of texts

How the functions for parts of texts fit together. A position that is searched for is the first one
at which the part of the text is what was searched, two parts that meet are the text again, and a
part has as many characters as were asked for and are there. In machine words no step on the way
leaves the words or the text. Main statement: `substring_functions_are_exact`.
-/

set_option autoImplicit false

namespace LineBasic

namespace Substring

variable {cs needle : List Char} {start : Nat}

/-! ## Searching -/

/-- A search that succeeds stops at the first place that fits. -/
theorem positionFrom_eq_some {first p : Nat} (h : positionFrom needle first cs = some p) :
    ∃ i ≤ cs.length, p = first + i ∧ needle <+: cs.drop i ∧
      ∀ j < i, ¬needle <+: cs.drop j := by
  fun_induction positionFrom needle first cs with
  | case1 first cs hfits =>
    cases h
    exact ⟨0, Nat.zero_le _, rfl, List.isPrefixOf_iff_prefix.1 hfits, by simp⟩
  | case2 => cases h
  | case3 first c rest hfits ih =>
    obtain ⟨i, hi, rfl, hstart, hbefore⟩ := ih h
    refine ⟨i + 1, Nat.succ_le_succ hi, by omega, hstart, fun j hj => ?_⟩
    cases j with
    | zero => exact fun h0 => hfits (List.isPrefixOf_iff_prefix.2 h0)
    | succ j => exact hbefore j (Nat.lt_of_succ_lt_succ hj)

theorem positionFrom_eq_none {first : Nat} (h : positionFrom needle first cs = none) (i : Nat) :
    ¬needle <+: cs.drop i := by
  fun_induction positionFrom needle first cs generalizing i with
  | case1 => cases h
  | case2 first hfits =>
    rw [List.drop_nil]
    exact fun h0 => hfits (List.isPrefixOf_iff_prefix.2 h0)
  | case3 first c rest hfits ih =>
    cases i with
    | zero => exact fun h0 => hfits (List.isPrefixOf_iff_prefix.2 h0)
    | succ i => exact ih h i

def Occurs (cs needle : List Char) (start p : Nat) : Prop :=
  start ≤ p ∧ needle <+: cs.drop (p - 1) ∧ p - 1 + needle.length ≤ cs.length

/-- The position that is found is the least one at which the text stands, and it is zero if there is
none. -/
theorem position_cases (cs needle : List Char) (hstart : 1 ≤ start) :
    (position cs needle start = 0 ∧ ∀ p, ¬Occurs cs needle start p) ∨
      (Occurs cs needle start (position cs needle start) ∧
        ∀ p, Occurs cs needle start p → position cs needle start ≤ p) := by
  have hdrop : ∀ p, start ≤ p → cs.drop (p - 1) = (cs.drop (start - 1)).drop (p - start) := by
    intro p hp
    rw [List.drop_drop]
    congr 1
    omega
  rw [position]
  split
  · rename_i hfits
    cases hfound : positionFrom needle start (cs.drop (start - 1)) with
    | none =>
      refine .inl ⟨rfl, fun p hp => ?_⟩
      obtain ⟨hle, hneedle, -⟩ := hp
      rw [hdrop p hle] at hneedle
      exact positionFrom_eq_none hfound _ hneedle
    | some p =>
      obtain ⟨i, hi, rfl, hneedle, hbefore⟩ := positionFrom_eq_some hfound
      refine .inr ⟨⟨Nat.le_add_right start i, ?_, ?_⟩, fun q hq => ?_⟩
      · rwa [Option.getD_some, hdrop _ (Nat.le_add_right start i), Nat.add_sub_cancel_left]
      · have hlength := hneedle.length_le
        rw [List.length_drop, List.length_drop] at hlength
        rw [List.length_drop] at hi
        rw [Option.getD_some]
        omega
      · obtain ⟨hle, hplace, -⟩ := hq
        rw [hdrop q hle] at hplace
        rw [Option.getD_some]
        refine Nat.le_of_not_lt fun hlt => hbefore (q - start) (by omega) hplace
  · rename_i hfits
    refine .inl ⟨rfl, fun p hp => ?_⟩
    obtain ⟨hle, -, hend⟩ := hp
    omega

theorem position_eq_zero (hstart : 1 ≤ start) (h : ∀ p, ¬Occurs cs needle start p) :
    position cs needle start = 0 := by
  rcases position_cases cs needle hstart with ⟨hzero, -⟩ | ⟨hplace, -⟩
  · exact hzero
  · exact absurd hplace (h _)

theorem position_eq {p : Nat} (hstart : 1 ≤ start) (h : Occurs cs needle start p)
    (hleast : ∀ q, Occurs cs needle start q → p ≤ q) : position cs needle start = p := by
  rcases position_cases cs needle hstart with ⟨-, hnone⟩ | ⟨hplace, hle⟩
  · exact absurd h (hnone p)
  · exact Nat.le_antisymm (hle p h) (hleast _ hplace)

/-- A text stands where the part of its length is the text. -/
theorem middle_eq_iff {p : Nat} :
    middle cs p (some needle.length) = needle ↔ needle <+: cs.drop (p - 1) := by
  rw [List.prefix_iff_eq_take, middle]
  exact eq_comm

/-! ## Parts that meet -/

theorem left_append_middle (cs : List Char) (n : Nat) :
    left cs n ++ middle cs (n + 1) none = cs := List.take_append_drop n cs

theorem left_append_right (cs : List Char) (n : Nat) :
    left cs (cs.length - n) ++ right cs n = cs := List.take_append_drop _ cs

theorem length_middle (cs : List Char) (start n : Nat) :
    (middle cs start (some n)).length = min n (cs.length - (start - 1)) := by
  rw [middle, List.length_take, List.length_drop]

/-! ## Machine words

The search again, with indices in words of 64 bits and positions in signed ones. Every step that may
leave the words or the text has no result then. -/

def sum? (i j : Nat) : Option Nat := if i + j < UInt64.size then some (i + j) else none

def difference? (i j : Nat) : Option Nat := if j ≤ i then some (i - j) else none

def slice? (cs : List Char) (i j : Nat) : Option (List Char) :=
  if i ≤ j ∧ j ≤ cs.length then some ((cs.take j).drop i) else none

def signed? (i : Nat) : Option Int64 := Number.int64OfInt? (i + 1)

def search? (cs needle : List Char) : Nat → Nat → Option (Option Nat)
  | 0, _ => some none
  | steps + 1, i => do
    let stop ← sum? i needle.length
    let part ← slice? cs i stop
    if part = needle then some (some i) else search? cs needle steps (i + 1)

def positionInWords? (cs needle : List Char) (start : Int64) : Option Int64 := do
  let first ← difference? start.toInt.toNat 1
  let stop ← sum? first needle.length
  if cs.length < stop then some 0
  else
    let last ← difference? cs.length needle.length
    match ← search? cs needle (last - first + 1) first with
    | some i => signed? i
    | none => some 0

def middleInWords? (cs : List Char) (start : Int64) (n : Option Nat) : Option (List Char) := do
  let first ← difference? start.toInt.toNat 1
  some ((cs.drop first).take (n.getD (UInt64.size - 1)))

theorem slice?_eq {i n : Nat} (h : i + n ≤ cs.length) :
    slice? cs i (i + n) = some ((cs.drop i).take n) := by
  rw [slice?, if_pos ⟨Nat.le_add_right i n, h⟩, List.drop_take, Nat.add_sub_cancel_left]

/-- A search in words that stays inside the text has a result, and it is the first place that
fits. -/
theorem search?_cases (hcs : cs.length < UInt64.size) (steps i : Nat)
    (hsteps : i + steps + needle.length ≤ cs.length + 1) :
    (search? cs needle steps i = some none ∧
      ∀ j, i ≤ j → j < i + steps → ¬needle <+: cs.drop j) ∨
    ∃ j, search? cs needle steps i = some (some j) ∧ i ≤ j ∧ j < i + steps ∧
      needle <+: cs.drop j ∧ ∀ k, i ≤ k → k < j → ¬needle <+: cs.drop k := by
  induction steps generalizing i with
  | zero => exact .inl ⟨rfl, fun j hle hlt => by omega⟩
  | succ steps ih =>
    have hstop : sum? i needle.length = some (i + needle.length) := if_pos (by omega)
    have hstep : search? cs needle (steps + 1) i =
        if (cs.drop i).take needle.length = needle then some (some i)
        else search? cs needle steps (i + 1) := by
      rw [search?, hstop, Option.bind_eq_bind, Option.bind_some, slice?_eq (by omega)]
      rfl
    rw [hstep]
    by_cases hhere : needle <+: cs.drop i
    · rw [if_pos (List.prefix_iff_eq_take.1 hhere).symm]
      exact .inr ⟨i, rfl, Nat.le_refl i, by omega, hhere, fun k hle hlt => by omega⟩
    · rw [if_neg fun heq => hhere (List.prefix_iff_eq_take.2 heq.symm)]
      have hfrom : ∀ k, i ≤ k → needle <+: cs.drop k → i + 1 ≤ k := by
        intro k hle hk
        rcases Nat.eq_or_lt_of_le hle with rfl | hlt
        · exact absurd hk hhere
        · exact hlt
      rcases ih (i + 1) (by omega) with ⟨hnone, hall⟩ | ⟨j, hsome, hle, hlt, hj, hall⟩
      · refine .inl ⟨hnone, fun k hle hlt hk => ?_⟩
        exact hall k (hfrom k hle hk) (by omega) hk
      · refine .inr ⟨j, hsome, by omega, by omega, hj, fun k hle hlt hk => ?_⟩
        exact hall k (hfrom k hle hk) hlt hk

/-- The most bytes, and so the most characters, that a text in memory can have. -/
def maxBytes : Nat := 0x7FFFFFFFFFFFFFFF

/-- A position that is found is inside the text, or the one where the search starts. -/
theorem position_le (hstart : 1 ≤ start) (cs needle : List Char) :
    position cs needle start ≤ max cs.length start := by
  rcases position_cases cs needle hstart with ⟨hzero, -⟩ | ⟨⟨hle, hplace, hend⟩, hleast⟩
  · omega
  · by_cases hempty : needle = []
    · subst hempty
      rw [List.length_nil] at hend
      have hfirst : Occurs cs [] start start :=
        ⟨Nat.le_refl start, List.nil_prefix, by rw [List.length_nil]; omega⟩
      have := hleast start hfirst
      omega
    · have := List.length_pos_iff.2 hempty
      omega

theorem toNat_of_pos {k : Int64} (hk : 1 ≤ k) :
    1 ≤ k.toInt.toNat ∧ k.toInt.toNat ≤ maxBytes ∧ (k.toInt.toNat : Int) = k.toInt := by
  have hle : (1 : Int) ≤ k.toInt := Int64.le_iff_toInt_le.1 hk
  have hmax : k.toInt ≤ 0x7FFFFFFFFFFFFFFF := k.toInt_le
  rw [maxBytes]
  omega

/-- In machine words a search has a result, which is the position that is found. -/
theorem positionInWords?_eq (hcs : cs.length ≤ maxBytes) (hneedle : needle.length ≤ maxBytes)
    {k : Int64} (hk : 1 ≤ k) :
    positionInWords? cs needle k = some (Int64.ofNat (position cs needle k.toInt.toNat)) := by
  obtain ⟨hpos, hle, -⟩ := toNat_of_pos hk
  rw [positionInWords?]
  generalize k.toInt.toNat = start at hpos hle ⊢
  have hsize : UInt64.size = 2 * maxBytes + 2 := rfl
  have hfirst : difference? start 1 = some (start - 1) := if_pos hpos
  have hstop : sum? (start - 1) needle.length = some (start - 1 + needle.length) :=
    if_pos (by omega)
  rw [hfirst, Option.bind_eq_bind, Option.bind_some, hstop, Option.bind_some]
  by_cases hfits : start - 1 + needle.length ≤ cs.length
  · have hlast : difference? cs.length needle.length = some (cs.length - needle.length) :=
      if_pos (by omega)
    rw [if_neg (Nat.not_lt.2 hfits), hlast, Option.bind_some]
    have hcases := @search?_cases cs needle (by omega)
      (cs.length - needle.length - (start - 1) + 1) (start - 1) (by omega)
    rcases hcases with ⟨hnone, hall⟩ | ⟨j, hsome, hge, hlt, hj, hall⟩
    · have hzero : position cs needle start = 0 := by
        refine position_eq_zero hpos fun p hp => ?_
        obtain ⟨hge, hplace, hend⟩ := hp
        exact hall (p - 1) (by omega) (by omega) hplace
      rw [hnone, hzero]
      rfl
    · have hfound : position cs needle start = j + 1 := by
        refine position_eq hpos ⟨by omega, hj, by omega⟩ fun q hq => ?_
        obtain ⟨hge, hplace, -⟩ := hq
        refine Nat.le_of_not_lt fun hlt => hall (q - 1) (by omega) (by omega) hplace
      have hmax := position_le hpos cs needle
      have hvalue : (Int64.ofNat (j + 1)).toInt = (j : Int) + 1 := by
        rw [Int64.toInt_ofNat_of_lt (by rw [maxBytes] at *; omega)]
        exact Int.natCast_succ j
      have hsigned : signed? j = some (Int64.ofNat (j + 1)) :=
        Number.int64OfInt?_eq_some.2 hvalue
      rw [hsome, hfound, Option.bind_eq_bind, Option.bind_some]
      exact hsigned
  · rw [if_pos (Nat.not_le.1 hfits), position, if_neg hfits]
    rfl

theorem middleInWords?_eq (hcs : cs.length ≤ maxBytes) {k : Int64} (hk : 1 ≤ k) (n : Option Nat) :
    middleInWords? cs k n = some (middle cs k.toInt.toNat n) := by
  obtain ⟨hpos, -, -⟩ := toNat_of_pos hk
  rw [middleInWords?, difference?, if_pos hpos, Option.bind_eq_bind, Option.bind_some]
  cases n with
  | none =>
    have hall : (cs.drop (k.toInt.toNat - 1)).length ≤ UInt64.size - 1 := by
      rw [List.length_drop]
      have : UInt64.size = 0x10000000000000000 := rfl
      rw [maxBytes] at hcs
      omega
    rw [Option.getD_none, List.take_of_length_le hall]
    rfl
  | some n => rfl

theorem length_le_byteLength (cs : List Char) : cs.length ≤ Text.byteLength cs := by
  induction cs with
  | nil => exact Nat.le_refl 0
  | cons c cs ih =>
    have := c.utf8Size_pos
    rw [List.length_cons, Text.byteLength]
    omega

def Held (s : String) : Prop := Text.byteLength s.toList ≤ maxBytes

theorem Held.length_le {s : String} (h : Held s) : s.toList.length ≤ maxBytes :=
  Nat.le_trans (length_le_byteLength _) h

theorem toInt_ofNat_of_le {n : Nat} (h : n ≤ maxBytes) : (Int64.ofNat n).toInt = n :=
  Int64.toInt_ofNat_of_lt (by rw [maxBytes] at h; omega)

theorem toInt_add_one {j : Int64} (hj : 0 ≤ j) (hmax : j < Int64.maxValue) :
    (j + 1).toInt = j.toInt + 1 := by
  have hnonneg : (0 : Int) ≤ j.toInt := Int64.le_iff_toInt_le.1 hj
  have hlt : j.toInt < 0x7FFFFFFFFFFFFFFF := Int64.lt_iff_toInt_lt.1 hmax
  have hone : (1 : Int64).toInt = 1 := rfl
  rw [Int64.toInt_add, hone]
  exact Int.bmod_eq_of_le (by omega) (by omega)

theorem toInt_sub_of_le {i j : Int64} (hj : 0 ≤ j) (hle : j ≤ i) :
    (i - j).toInt = i.toInt - j.toInt := by
  have hnonneg : (0 : Int) ≤ j.toInt := Int64.le_iff_toInt_le.1 hj
  have hji : j.toInt ≤ i.toInt := Int64.le_iff_toInt_le.1 hle
  have hmax : i.toInt ≤ 0x7FFFFFFFFFFFFFFF := i.toInt_le
  rw [Int64.toInt_sub]
  exact Int.bmod_eq_of_le (by omega) (by omega)

theorem toNat_of_nonneg {j : Int64} (hj : 0 ≤ j) : (j.toInt.toNat : Int) = j.toInt :=
  Int.toNat_of_nonneg (Int64.le_iff_toInt_le.1 hj)

end Substring

namespace Arguments

theorem integer_integer (n : Int64) : integer (.integer n) = .ok n := rfl

theorem count_of_nonneg {j : Int64} (hj : 0 ≤ j) : count (.integer j) = .ok j.toInt.toNat := by
  have hsign : ¬j < 0 := Int64.not_lt.2 hj
  rw [count, integer_integer, ok_bind, if_neg hsign]
  rfl

theorem count_of_neg {j : Int64} (hj : j < 0) :
    count (.integer j) = .error (.plain .illegalQuantity) := by
  rw [count, integer_integer, ok_bind, if_pos hj]

theorem position_of_pos {k : Int64} (hk : 1 ≤ k) : position (.integer k) = .ok k.toInt.toNat := by
  have hsign : ¬k < 1 := Int64.not_lt.2 hk
  rw [position, integer_integer, ok_bind, if_neg hsign]
  rfl

theorem position_of_lt {k : Int64} (hk : k < 1) :
    position (.integer k) = .error (.plain .illegalQuantity) := by
  rw [position, integer_integer, ok_bind, if_pos hk]

end Arguments

namespace BuiltinFunction

open Arguments (count_of_nonneg count_of_neg position_of_pos position_of_lt)

variable {j k : Int64} (m : Machine) (s needle : String)

theorem value_len : LEN.value m [.text s] = .ok (.integer (Int64.ofNat s.toList.length)) := rfl

theorem value_left (hj : 0 ≤ j) : LEFT.value m [.text s, .integer j] =
    .ok (.text (String.ofList (Substring.left s.toList j.toInt.toNat))) := by
  rw [value]
  simp only [Arguments.two, Arguments.text, ok_bind, count_of_nonneg hj]
  rfl

theorem value_right (hj : 0 ≤ j) : RIGHT.value m [.text s, .integer j] =
    .ok (.text (String.ofList (Substring.right s.toList j.toInt.toNat))) := by
  rw [value]
  simp only [Arguments.two, Arguments.text, ok_bind, count_of_nonneg hj]
  rfl

theorem value_mid_rest (hk : 1 ≤ k) : MID.value m [.text s, .integer k] =
    .ok (.text (String.ofList (Substring.middle s.toList k.toInt.toNat none))) := by
  rw [value]
  simp only [Arguments.twoOrThree, Arguments.text, ok_bind, position_of_pos hk]
  rfl

theorem value_mid (hk : 1 ≤ k) (hj : 0 ≤ j) : MID.value m [.text s, .integer k, .integer j] =
    .ok (.text (String.ofList
      (Substring.middle s.toList k.toInt.toNat (some j.toInt.toNat)))) := by
  rw [value]
  simp only [Arguments.twoOrThree, Arguments.text, ok_bind, position_of_pos hk, count_of_nonneg hj]
  rfl

theorem value_instr (hk : 1 ≤ k) : INSTR.value m [.text s, .text needle, .integer k] =
    .ok (.integer (Int64.ofNat
      (Substring.position s.toList needle.toList k.toInt.toNat))) := by
  rw [value]
  simp only [Arguments.twoOrThree, Arguments.text, ok_bind, position_of_pos hk]
  rfl

/-- Numbers of characters that are negative are refused. -/
theorem value_of_neg (hj : j < 0) :
    LEFT.value m [.text s, .integer j] = .error (.plain .illegalQuantity) ∧
      RIGHT.value m [.text s, .integer j] = .error (.plain .illegalQuantity) ∧
      ∀ k : Int64, 1 ≤ k →
        MID.value m [.text s, .integer k, .integer j] = .error (.plain .illegalQuantity) := by
  refine ⟨?_, ?_, fun k hk => ?_⟩
  · simp only [value, Arguments.two, Arguments.text, ok_bind, count_of_neg hj, error_bind]
  · simp only [value, Arguments.two, Arguments.text, ok_bind, count_of_neg hj, error_bind]
  · simp only [value, Arguments.twoOrThree, Arguments.text, ok_bind, position_of_pos hk,
      count_of_neg hj]
    rfl

theorem value_of_lt (hk : k < 1) :
    INSTR.value m [.text s, .text needle, .integer k] = .error (.plain .illegalQuantity) ∧
      MID.value m [.text s, .integer k] = .error (.plain .illegalQuantity) ∧
      ∀ v, MID.value m [.text s, .integer k, v] = .error (.plain .illegalQuantity) := by
  refine ⟨?_, ?_, fun v => ?_⟩ <;>
    simp only [value, Arguments.twoOrThree, Arguments.text, ok_bind, position_of_lt hk, error_bind]

/-- The part of `s` at position `q` that is as long as `needle` is `needle`. The position is not
before `k`, and the part ends inside `s`. -/
def StandsAt (m : Machine) (s needle : String) (k q : Int64) : Prop :=
  ∃ length size : Int64, LEN.value m [.text s] = .ok (.integer length) ∧
    LEN.value m [.text needle] = .ok (.integer size) ∧ k ≤ q ∧
    MID.value m [.text s, .integer q, .integer size] = .ok (.text needle) ∧
    q.toInt - 1 + size.toInt ≤ length.toInt

variable {m s needle}

theorem value_mid_eq_iff (hneedle : Substring.Held needle) {q : Int64} (hq : 1 ≤ q) :
    MID.value m [.text s, .integer q, .integer (Int64.ofNat needle.toList.length)] =
        .ok (.text needle) ↔
      needle.toList <+: s.toList.drop (q.toInt.toNat - 1) := by
  have hsize := Substring.toInt_ofNat_of_le hneedle.length_le
  have hnonneg : 0 ≤ Int64.ofNat needle.toList.length :=
    Int64.le_iff_toInt_le.2 (by rw [hsize]; exact Int.natCast_nonneg _)
  rw [value_mid m s hq hnonneg, hsize, Int.toNat_natCast, Except.ok.injEq, Value.text.injEq,
    ← Substring.middle_eq_iff, ← String.toList_inj, String.toList_ofList]

/-- What the functions say about a place is what the characters say. -/
theorem standsAt_iff (hs : Substring.Held s) (hneedle : Substring.Held needle) (hk : 1 ≤ k)
    {q : Int64} : StandsAt m s needle k q ↔
      Substring.Occurs s.toList needle.toList k.toInt.toNat q.toInt.toNat := by
  have hlength := Substring.toInt_ofNat_of_le hs.length_le
  have hsize := Substring.toInt_ofNat_of_le hneedle.length_le
  have hkpos : (1 : Int) ≤ k.toInt := Int64.le_iff_toInt_le.1 hk
  constructor
  · rintro ⟨length, size, hlen, hn, hle, hmid, hend⟩
    cases (value_len m s).symm.trans hlen
    cases (value_len m needle).symm.trans hn
    have hkq : k.toInt ≤ q.toInt := Int64.le_iff_toInt_le.1 hle
    rw [value_mid_eq_iff hneedle (Int64.le_trans hk hle)] at hmid
    rw [hlength, hsize] at hend
    exact ⟨by omega, hmid, by omega⟩
  · rintro ⟨hle, hplace, hend⟩
    have hkq : k ≤ q := Int64.le_iff_toInt_le.2 (by omega)
    refine ⟨_, _, value_len m s, value_len m needle, hkq, ?_, ?_⟩
    · exact (value_mid_eq_iff hneedle (Int64.le_trans hk hkq)).2 hplace
    · rw [hlength, hsize]
      omega

/-- The search finds the least position, or none at all. -/
theorem value_instr_cases (hs : Substring.Held s) (hneedle : Substring.Held needle) (hk : 1 ≤ k) :
    ∃ p, INSTR.value m [.text s, .text needle, .integer k] = .ok (.integer p) ∧
      (p = 0 ↔ ∀ q, ¬StandsAt m s needle k q) ∧
      (p ≠ 0 → StandsAt m s needle k p ∧ ∀ q, StandsAt m s needle k q → p ≤ q) := by
  obtain ⟨hpos, hmax, -⟩ := Substring.toNat_of_pos hk
  have hle := Substring.position_le hpos s.toList needle.toList
  have hvalue := Substring.toInt_ofNat_of_le
    (Nat.le_trans hle (Nat.max_le.2 ⟨hs.length_le, hmax⟩))
  refine ⟨_, value_instr m s needle hk, ?_⟩
  simp only [standsAt_iff hs hneedle hk]
  rcases Substring.position_cases s.toList needle.toList hpos with ⟨hzero, hnone⟩ | ⟨hplace, hleast⟩
  · rw [hzero]
    exact ⟨iff_of_true rfl fun q => hnone _, fun hne => absurd rfl hne⟩
  · have hfound : Int64.ofNat (Substring.position s.toList needle.toList k.toInt.toNat) ≠ 0 := by
      intro heq
      rw [heq] at hvalue
      have := hplace.1
      change (0 : Int) = _ at hvalue
      omega
    have hnat : (Int64.ofNat
        (Substring.position s.toList needle.toList k.toInt.toNat)).toInt.toNat =
          Substring.position s.toList needle.toList k.toInt.toNat := by
      rw [hvalue, Int.toNat_natCast]
    refine ⟨iff_of_false hfound fun hnone => hnone _ (by rwa [hnat]), fun _ => ⟨by rwa [hnat], ?_⟩⟩
    intro q hq
    have hq' := hleast _ hq
    refine Int64.le_iff_toInt_le.2 ?_
    rw [hvalue]
    have := hq.1
    omega

theorem value_left_mid (hj : 0 ≤ j) (hmax : j < Int64.maxValue) :
    ∃ front rest, LEFT.value m [.text s, .integer j] = .ok (.text front) ∧
      MID.value m [.text s, .integer (j + 1)] = .ok (.text rest) ∧ front ++ rest = s := by
  have hsum := Substring.toInt_add_one hj hmax
  have hnat := Substring.toNat_of_nonneg hj
  have hpos : 1 ≤ j + 1 := Int64.le_iff_toInt_le.2 (by rw [hsum]; change (1 : Int) ≤ _; omega)
  have hnext : (j + 1).toInt.toNat = j.toInt.toNat + 1 := by omega
  refine ⟨_, _, value_left m s hj, value_mid_rest m s hpos, ?_⟩
  rw [hnext, ← String.ofList_append, Substring.left_append_middle, String.ofList_toList]

theorem value_left_right (hs : Substring.Held s) (hj : 0 ≤ j)
    (hle : j ≤ Int64.ofNat s.toList.length) :
    ∃ front rest,
      LEFT.value m [.text s, .integer (Int64.ofNat s.toList.length - j)] = .ok (.text front) ∧
        RIGHT.value m [.text s, .integer j] = .ok (.text rest) ∧ front ++ rest = s := by
  have hlength := Substring.toInt_ofNat_of_le hs.length_le
  have hdiff := Substring.toInt_sub_of_le hj hle
  have hnat := Substring.toNat_of_nonneg hj
  have hji : j.toInt ≤ (Int64.ofNat s.toList.length).toInt := Int64.le_iff_toInt_le.1 hle
  rw [hlength] at hdiff hji
  have hnonneg : 0 ≤ Int64.ofNat s.toList.length - j :=
    Int64.le_iff_toInt_le.2 (by rw [hdiff]; change (0 : Int) ≤ _; omega)
  have hrest : (Int64.ofNat s.toList.length - j).toInt.toNat = s.toList.length - j.toInt.toNat := by
    omega
  refine ⟨_, _, value_left m s hnonneg, value_right m s hj, ?_⟩
  rw [hrest, ← String.ofList_append, Substring.left_append_right, String.ofList_toList]

theorem value_len_mid (hs : Substring.Held s) (hj : 0 ≤ j) (hk : 1 ≤ k) :
    ∃ part size, MID.value m [.text s, .integer k, .integer j] = .ok (.text part) ∧
      LEN.value m [.text part] = .ok (.integer size) ∧
      size.toInt = min j.toInt (max 0 ((s.toList.length : Int) - k.toInt + 1)) := by
  obtain ⟨hpos, -, hknat⟩ := Substring.toNat_of_pos hk
  have hnat := Substring.toNat_of_nonneg hj
  have hlength := Substring.length_middle s.toList k.toInt.toNat j.toInt.toNat
  refine ⟨_, _, value_mid m s hk hj, value_len m _, ?_⟩
  have hs := hs.length_le
  rw [String.toList_ofList, hlength, Substring.toInt_ofNat_of_le (by omega)]
  omega

/-- The functions for parts of texts fit together and count characters. The search for a text gives
the least position from a given one on where the part of its length is that text, and zero exactly
if there is none. What is left of a place and what is right of it make up the text. A part has as
many characters as were asked for, or as there are. Every other number of characters and every other
position is refused, and in machine words every step of the functions has a result. -/
theorem substring_functions_are_exact {s needle : String} (hs : Substring.Held s)
    (hneedle : Substring.Held needle) (m : Machine) :
    ∃ length : Int64, LEN.value m [.text s] = .ok (.integer length) ∧ length.toInt = s.length ∧
    (∀ k : Int64, 1 ≤ k →
      ∃ p, INSTR.value m [.text s, .text needle, .integer k] = .ok (.integer p) ∧
        (p = 0 ↔ ∀ q, ¬StandsAt m s needle k q) ∧
        (p ≠ 0 → StandsAt m s needle k p ∧ ∀ q, StandsAt m s needle k q → p ≤ q)) ∧
    (∀ j : Int64, 0 ≤ j → j < Int64.maxValue →
      ∃ front rest, LEFT.value m [.text s, .integer j] = .ok (.text front) ∧
        MID.value m [.text s, .integer (j + 1)] = .ok (.text rest) ∧ front ++ rest = s) ∧
    (∀ j : Int64, 0 ≤ j → j ≤ length →
      ∃ front rest, LEFT.value m [.text s, .integer (length - j)] = .ok (.text front) ∧
        RIGHT.value m [.text s, .integer j] = .ok (.text rest) ∧ front ++ rest = s) ∧
    (∀ j k : Int64, 0 ≤ j → 1 ≤ k →
      ∃ part size, MID.value m [.text s, .integer k, .integer j] = .ok (.text part) ∧
        LEN.value m [.text part] = .ok (.integer size) ∧
        size.toInt = min j.toInt (max 0 (length.toInt - k.toInt + 1))) ∧
    (∀ j : Int64, j < 0 → LEFT.value m [.text s, .integer j] = .error (.plain .illegalQuantity) ∧
      RIGHT.value m [.text s, .integer j] = .error (.plain .illegalQuantity) ∧
      ∀ k : Int64, 1 ≤ k →
        MID.value m [.text s, .integer k, .integer j] = .error (.plain .illegalQuantity)) ∧
    (∀ k : Int64, k < 1 →
      INSTR.value m [.text s, .text needle, .integer k] = .error (.plain .illegalQuantity) ∧
      MID.value m [.text s, .integer k] = .error (.plain .illegalQuantity) ∧
      ∀ v, MID.value m [.text s, .integer k, v] = .error (.plain .illegalQuantity)) ∧
    ∀ k : Int64, 1 ≤ k →
      (∃ p, Substring.positionInWords? s.toList needle.toList k = some p ∧
        INSTR.value m [.text s, .text needle, .integer k] = .ok (.integer p)) ∧
      (∃ part, Substring.middleInWords? s.toList k none = some part ∧
        MID.value m [.text s, .integer k] = .ok (.text (String.ofList part))) ∧
      ∀ j : Int64, 0 ≤ j →
        ∃ part, Substring.middleInWords? s.toList k (some j.toInt.toNat) = some part ∧
          MID.value m [.text s, .integer k, .integer j] = .ok (.text (String.ofList part)) := by
  have hlength := Substring.toInt_ofNat_of_le hs.length_le
  refine ⟨_, value_len m s, ?_, fun k hk => value_instr_cases hs hneedle hk,
    fun j hj hmax => value_left_mid hj hmax, fun j hj hle => value_left_right hs hj hle,
    fun j k hj hk => ?_, fun j hj => value_of_neg m s hj, fun k hk => value_of_lt m s needle hk,
    fun k hk => ⟨?_, ?_, fun j hj => ?_⟩⟩
  · rw [hlength, String.length_toList]
  · rw [hlength]
    exact value_len_mid hs hj hk
  · exact ⟨_, Substring.positionInWords?_eq hs.length_le hneedle.length_le hk,
      value_instr m s needle hk⟩
  · exact ⟨_, Substring.middleInWords?_eq hs.length_le hk none, value_mid_rest m s hk⟩
  · exact ⟨_, Substring.middleInWords?_eq hs.length_le hk _, value_mid m s hk hj⟩

/-- Characters of two bytes, and two places where the text stands that have one in common. -/
theorem substring_functions_are_exact_with_accents :
    let s := "éaéaéa"
    let needle := "éaé"
    Substring.Held s ∧ Substring.Held needle ∧
    INSTR.value {} [.text s, .text needle, .integer 2] = .ok (.integer 3) ∧
    StandsAt {} s needle 2 3 ∧ (∀ q, StandsAt {} s needle 2 q → 3 ≤ q) ∧
    (∃ front rest, LEFT.value {} [.text s, .integer 4] = .ok (.text front) ∧
      RIGHT.value {} [.text s, .integer 2] = .ok (.text rest) ∧ front ++ rest = s) ∧
    (∃ part size, MID.value {} [.text s, .integer 5, .integer Int64.maxValue] = .ok (.text part) ∧
      LEN.value {} [.text part] = .ok (.integer size) ∧ size.toInt = 2) ∧
    MID.value {} [.text s, .integer Int64.minValue] = .error (.plain .illegalQuantity) := by
  intro s needle
  have hs : Substring.Held s := by
    change Text.byteLength s.toList ≤ Substring.maxBytes
    decide +kernel
  have hneedle : Substring.Held needle := by
    change Text.byteLength needle.toList ≤ Substring.maxBytes
    decide +kernel
  have hsix : LEN.value {} [.text s] = .ok (.integer 6) := eq_ok_of_toOption (by decide +kernel)
  have hfound : INSTR.value {} [.text s, .text needle, .integer 2] = .ok (.integer 3) :=
    eq_ok_of_toOption (by decide +kernel)
  obtain ⟨length, hlen, -, hinstr, -, hright, hmid, -, hrefused, -⟩ :=
    substring_functions_are_exact hs hneedle {}
  cases hsix.symm.trans hlen
  obtain ⟨p, hp, -, hplace⟩ := hinstr 2 (by decide)
  cases hfound.symm.trans hp
  obtain ⟨hstands, hleast⟩ := hplace (by decide)
  have hmeet := hright 2 (by decide) (by decide)
  have hfour : (6 : Int64) - 2 = 4 := by decide
  rw [hfour] at hmeet
  obtain ⟨part, size, hpart, hsize, htwo⟩ := hmid Int64.maxValue 5 (by decide) (by decide)
  exact ⟨hs, hneedle, hfound, hstands, hleast, hmeet,
    ⟨part, size, hpart, hsize, htwo.trans (by decide)⟩, (hrefused Int64.minValue (by decide)).2.1⟩

end BuiltinFunction

end LineBasic
