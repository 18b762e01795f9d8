import LineBasic.Text.Blank
import LineBasic.Text.Layout

/-!
# Lines of a text

No line holds a line feed, and lines that were written one after the other, each with a carriage
return and a line feed behind it, are read back as they were.
-/

set_option autoImplicit false

namespace LineBasic

theorem not_mem_of_mem_pieces {α : Type} [DecidableEq α] {sep : α} {xs piece : List α}
    (h : piece ∈ pieces sep xs) : sep ∉ piece := by
  induction xs generalizing piece with
  | nil => simp_all [pieces]
  | cons x xs ih =>
    rw [pieces] at h
    split at h
    · rcases List.mem_cons.1 h with rfl | h
      · simp
      · exact ih h
    · rename_i hx
      split at h
      · simp_all [eq_comm]
      · rename_i first more hp
        rw [hp] at ih
        rcases List.mem_cons.1 h with rfl | h
        · have := ih List.mem_cons_self
          simp_all [eq_comm]
        · exact ih (List.mem_cons_of_mem first h)

theorem pieces_append {α : Type} [DecidableEq α] {sep : α} {xs : List α} (ys : List α)
    (h : sep ∉ xs) : pieces sep (xs ++ sep :: ys) = xs :: pieces sep ys := by
  induction xs with
  | nil => simp [pieces]
  | cons x xs ih =>
    have hx : x ≠ sep := fun hx => h (hx ▸ List.mem_cons_self)
    rw [List.cons_append, pieces, if_neg hx, ih fun hs => h (List.mem_cons_of_mem x hs)]

namespace Text

theorem dropTrailing_of_getLast {p : Char → Bool} {cs : List Char}
    (h : ∀ c ∈ cs.getLast?, p c = false) : dropTrailing p cs = cs := by
  have hdrop : cs.reverse.dropWhile p = cs.reverse := by
    cases hr : cs.reverse with
    | nil => rfl
    | cons c front =>
      have hc : p c = false := h c (by rw [List.getLast?_eq_head?_reverse, hr]; rfl)
      simp [hc]
  rw [dropTrailing, hdrop, List.reverse_reverse]

theorem getLast_dropTrailing {p : Char → Bool} {cs : List Char} :
    ∀ c ∈ (dropTrailing p cs).getLast?, p c = false := by
  intro c hc
  rw [dropTrailing, List.getLast?_reverse] at hc
  have := List.head?_dropWhile_not p cs.reverse
  rw [hc] at this
  exact this

theorem dropTrailing_prefix (p : Char → Bool) (cs : List Char) : dropTrailing p cs <+: cs := by
  rw [← List.reverse_suffix, dropTrailing, List.reverse_reverse]
  exact List.dropWhile_suffix p

theorem dropReturn_subset (cs : List Char) : dropReturn cs ⊆ cs := by
  unfold dropReturn
  split
  · rename_i front h
    intro c hc
    have : c ∈ cs.reverse := h ▸ List.mem_cons_of_mem _ (List.mem_reverse.1 hc)
    exact List.mem_reverse.1 this
  · exact fun _ h => h

theorem dropReturn_concat (cs : List Char) : dropReturn (cs ++ ['\r']) = cs := by
  simp [dropReturn]

theorem feed_not_mem_of_mem_lines {s line : String} (h : line ∈ lines s) :
    '\n' ∉ line.toList := by
  have hended : ∀ x ∈ (pieces '\n' s.toList).dropLast.map fun p => String.ofList (dropReturn p),
      '\n' ∉ x.toList := by
    intro x hx hc
    obtain ⟨piece, hp, rfl⟩ := List.mem_map.1 hx
    rw [String.toList_ofList] at hc
    exact not_mem_of_mem_pieces (List.dropLast_subset _ hp) (dropReturn_subset piece hc)
  unfold lines at h
  dsimp only at h
  split at h
  · rename_i c cs hlast
    rcases List.mem_append.1 h with h | h
    · exact hended line h
    · rw [List.mem_singleton.1 h, String.toList_ofList]
      exact not_mem_of_mem_pieces (List.mem_of_getLast? hlast)
  · exact hended line h

theorem pieces_join_lines {xs : List String} (h : ∀ x ∈ xs, '\n' ∉ x.toList) :
    pieces '\n' (String.join (xs.map fun x => x ++ "\r\n")).toList =
      (xs.map fun x => x.toList ++ ['\r']) ++ [[]] := by
  induction xs with
  | nil => rfl
  | cons x xs ih =>
    have hx : '\n' ∉ x.toList ++ ['\r'] := by
      have := h x List.mem_cons_self
      simpa using this
    have hcons : (String.join ((x :: xs).map fun x => x ++ "\r\n")).toList =
        (x.toList ++ ['\r']) ++ '\n' :: (String.join (xs.map fun x => x ++ "\r\n")).toList := by
      rw [List.map_cons, String.join_cons, String.toList_append, String.toList_append]
      simp
    rw [hcons, pieces_append _ hx, ih fun y hy => h y (List.mem_cons_of_mem x hy)]
    rfl

theorem lines_join {xs : List String} (h : ∀ x ∈ xs, '\n' ∉ x.toList) :
    lines (String.join (xs.map fun x => x ++ "\r\n")) = xs := by
  have hback : ∀ x : String, String.ofList (dropReturn (x.toList ++ ['\r'])) = x := fun x => by
    rw [dropReturn_concat, String.ofList_toList]
  rw [lines, pieces_join_lines h]
  simp [Function.comp_def, hback]

end Text

end LineBasic
