import LineBasic.Pieces

/-!
# Measuring and laying out text

A position inside a line is a byte offset in its UTF-8 form; a column on the screen counts
characters. Lines of a file end in a line feed, before which one carriage return is dropped.
-/

set_option autoImplicit false

namespace LineBasic.Text

def byteLength : List Char → Nat
  | [] => 0
  | c :: cs => c.utf8Size + byteLength cs

def dropBytes : Nat → List Char → Option (List Char)
  | 0, cs => some cs
  | _ + 1, [] => none
  | n + 1, c :: cs => if c.utf8Size ≤ n + 1 then dropBytes (n + 1 - c.utf8Size) cs else none

theorem byteLength_append (a b : List Char) :
    byteLength (a ++ b) = byteLength a + byteLength b := by
  induction a with
  | nil => simp [byteLength]
  | cons c cs ih => simp only [List.cons_append, byteLength, ih]; omega

theorem dropBytes_byteLength (a b : List Char) : dropBytes (byteLength a) (a ++ b) = some b := by
  induction a with
  | nil => simp [byteLength, dropBytes]
  | cons c cs ih =>
    obtain ⟨k, hk⟩ : ∃ k, byteLength (c :: cs) = k + 1 :=
      ⟨c.utf8Size + byteLength cs - 1, by simp only [byteLength]; have := c.utf8Size_pos; omega⟩
    have hle : c.utf8Size ≤ k + 1 := by simp only [byteLength] at hk; omega
    have hsub : k + 1 - c.utf8Size = byteLength cs := by simp only [byteLength] at hk; omega
    rw [hk, List.cons_append, dropBytes, if_pos hle, hsub, ih]

/-- The text of a byte position is a suffix of the line. -/
theorem dropBytes_eq_some {n : Nat} {cs rest : List Char} (h : dropBytes n cs = some rest) :
    ∃ front, cs = front ++ rest ∧ byteLength front = n := by
  fun_induction dropBytes n cs with
  | case1 cs => exact ⟨[], by simpa using h, rfl⟩
  | case2 => simp at h
  | case3 n c cs hle ih =>
    obtain ⟨front, rfl, hn⟩ := ih h
    exact ⟨c :: front, rfl, by simp only [byteLength]; omega⟩
  | case4 => simp at h

def spaces (n : Nat) : String := String.ofList (List.replicate n ' ')

def padRight (width : Nat) (s : String) : String := s ++ spaces (width - s.length)

def columnAfter (start : Nat) (s : String) : Nat :=
  if s.toList.contains '\n' then (s.toList.reverse.takeWhile (· != '\n')).length
  else start + s.length

def dropReturn (cs : List Char) : List Char :=
  match cs.reverse with
  | '\r' :: front => front.reverse
  | _ => cs

/-- The lines of a file. A line feed ends a line and takes one carriage return before it along; what
follows the last line feed is a line only if it is not empty. -/
def lines (s : String) : List String :=
  let pieces := pieces '\n' s.toList
  let ended := pieces.dropLast.map fun p => String.ofList (dropReturn p)
  match pieces.getLast? with
  | some (c :: cs) => ended ++ [String.ofList (c :: cs)]
  | _ => ended

end LineBasic.Text
