import LineBasic.Listing.Renumber
import LineBasic.Proofs.Number.LineNumber
import LineBasic.Proofs.Table
import LineBasic.Proofs.Text.Case

/-!
# What renumbering does to a text

A rewritten text is the old one with some runs of digits in place of others. It starts with the same
character, and what does not depend on digits stays as it was.
-/

set_option autoImplicit false

namespace LineBasic

inductive Redigited : List Char → List Char → Prop
  | nil : Redigited [] []
  | char (c : Char) {cs ds : List Char} (h : Redigited cs ds) : Redigited (c :: cs) (c :: ds)
  | number {old new cs ds : List Char} (hold : ∀ c ∈ old, c.isDigit = true) (hne : new ≠ [])
      (hnew : ∀ c ∈ new, c.isDigit = true) (h : Redigited cs ds) :
      Redigited (old ++ cs) (new ++ ds)

namespace Redigited

theorem refl (cs : List Char) : Redigited cs cs := by
  induction cs with
  | nil => exact .nil
  | cons c cs ih => exact .char c ih

theorem append {as bs cs ds : List Char} (h : Redigited as bs) (h' : Redigited cs ds) :
    Redigited (as ++ cs) (bs ++ ds) := by
  induction h with
  | nil => exact h'
  | char c h ih => exact .char c ih
  | number hold hne hnew h ih =>
    rw [List.append_assoc, List.append_assoc]
    exact .number hold hne hnew ih

theorem mem {cs ds : List Char} (h : Redigited cs ds) {c : Char} (hc : c ∈ ds)
    (hd : c.isDigit = false) : c ∈ cs := by
  induction h with
  | nil => exact hc
  | char x h ih =>
    rcases List.mem_cons.1 hc with rfl | hc
    · exact List.mem_cons_self
    · exact List.mem_cons_of_mem x (ih hc)
  | number hold hne hnew h ih =>
    rcases List.mem_append.1 hc with hc | hc
    · exact absurd (hnew c hc) (by simp [hd])
    · exact List.mem_append_right _ (ih hc)

theorem eq_nil {cs ds : List Char} (h : Redigited cs ds) (hds : ds = []) : cs = [] := by
  cases h with
  | nil => rfl
  | char c h => cases hds
  | number hold hne hnew h => exact absurd (List.append_eq_nil_iff.1 hds).1 hne

theorem getLast {cs ds : List Char} (h : Redigited cs ds) {c : Char}
    (hc : ds.getLast? = some c) (hd : c.isDigit = false) : cs.getLast? = some c := by
  induction h with
  | nil => exact hc
  | @char x cs ds h ih =>
    cases hds : ds with
    | nil =>
      rw [h.eq_nil hds]
      rwa [hds] at hc
    | cons y more =>
      rw [hds, List.getLast?_cons_cons, ← hds] at hc
      rw [List.getLast?_cons, ih hc]
      rfl
  | @number old new cs ds hold hne hnew h ih =>
    rw [List.getLast?_append] at hc ⊢
    cases hl : ds.getLast? with
    | none =>
      rw [hl] at hc
      exact absurd (hnew c (List.mem_of_getLast? hc)) (by simp [hd])
    | some d =>
      rw [hl] at hc
      rw [ih (hl.trans hc)]
      rfl

theorem upper {cs ds : List Char} (h : Redigited cs ds) {quote : Option Char}
    (hq : ∀ q ∈ quote, Text.isQuote q = true) (hcs : Text.programUpperFrom quote cs = cs) :
    Text.programUpperFrom quote ds = ds := by
  induction h generalizing quote with
  | nil => rfl
  | char c h ih =>
    rw [Text.programUpperFrom_cons] at hcs ⊢
    obtain ⟨hc, hcs⟩ := List.cons.inj hcs
    rw [hc, ih (Text.isQuote_of_mem_quoteStep hq) hcs]
  | number hold hne hnew h ih =>
    rw [Text.programUpperFrom_append, Text.programUpperFrom_digits hq hold] at hcs
    rw [Text.programUpperFrom_append, Text.programUpperFrom_digits hq hnew]
    rw [Text.quoteAfter_digits hq hold] at hcs
    rw [Text.quoteAfter_digits hq hnew, ih hq (List.append_cancel_left hcs)]

end Redigited

section

variable {changes : Renumbering}

theorem digits_renumberedDigits (hch : ∀ c ∈ changes, 0 ≤ c.2) {digits : List Char}
    (hne : digits ≠ []) (hd : ∀ c ∈ digits, c.isDigit = true) :
    renumberedDigits changes digits ≠ [] ∧
      ∀ c ∈ renumberedDigits changes digits, c.isDigit = true := by
  rw [renumberedDigits]
  split
  · rename_i n hn
    obtain ⟨k, _, hk⟩ := Option.bind_eq_some_iff.1 hn
    have h0 : 0 ≤ n := hch _ (Table.mem_of_find?_eq_some hk)
    exact ⟨Number.toString_ne_nil h0, fun c => Number.isDigit_of_mem_toString h0⟩
  · exact ⟨hne, hd⟩

theorem redigited_number (hch : ∀ c ∈ changes, 0 ≤ c.2) {cs : List Char}
    (hne : Number.digitRun cs ≠ []) :
    Redigited (Number.digitRun cs) (renumberedDigits changes (Number.digitRun cs)) := by
  have hd : ∀ c ∈ Number.digitRun cs, c.isDigit = true :=
    fun c hc => List.all_eq_true.1 List.all_takeWhile c hc
  obtain ⟨hne', hd'⟩ := digits_renumberedDigits hch hne hd
  have := Redigited.number hd hne' hd' .nil
  rwa [List.append_nil, List.append_nil] at this

/-- The parts of a text from which line numbers are read. -/
theorem split_number (cs : List Char) :
    let rest := cs.drop (spaceRun cs).length
    spaceRun cs ++ Number.digitRun rest ++ rest.drop (Number.digitRun rest).length = cs := by
  intro rest
  rw [List.append_assoc, Number.digitRun, Text.takeWhile_append_drop]
  exact Text.takeWhile_append_drop _ cs

theorem redigited_rewriteTargets (hch : ∀ c ∈ changes, 0 ≤ c.2) (list : Bool) (before : Char)
    (cs : List Char) :
    ∃ front, cs = front ++ (rewriteTargets changes list before cs).2.2 ∧
      Redigited front (rewriteTargets changes list before cs).1 := by
  fun_induction rewriteTargets changes list before cs with
  | case1 before cs spaces rest =>
    exact ⟨spaces, (Text.takeWhile_append_drop _ cs).symm, .refl spaces⟩
  | case2 before cs spaces rest digits hd rest' new gap more hr hlist hlt text last after heq ih =>
    rw [heq] at ih
    obtain ⟨front, hfront, hred⟩ := ih
    refine ⟨spaces ++ digits ++ gap ++ ',' :: front, ?_, ?_⟩
    · have hgap : gap ++ ',' :: (front ++ after) = rest' := by
        rw [← hfront, ← hr]
        exact Text.takeWhile_append_drop _ rest'
      calc cs = spaces ++ digits ++ rest' := (split_number cs).symm
        _ = spaces ++ digits ++ (gap ++ ',' :: (front ++ after)) := by rw [hgap]
        _ = _ := by simp
    · exact (((Redigited.refl spaces).append (redigited_number hch hd)).append
        (.refl gap)).append (.char ',' hred)
  | case3 before cs spaces rest digits hd rest' new =>
    exact ⟨spaces ++ digits, (split_number cs).symm,
      (Redigited.refl spaces).append (redigited_number hch hd)⟩
  | case4 before cs spaces rest digits hd rest' new =>
    exact ⟨spaces ++ digits, (split_number cs).symm,
      (Redigited.refl spaces).append (redigited_number hch hd)⟩

theorem jumpWord?_cons_eq_some {c : Char} {cs w : List Char} {list : Bool}
    (h : jumpWord? (c :: cs) = some (w, list)) :
    ∃ w', w = c :: w' ∧ cs = w' ++ cs.drop w'.length := by
  have hpre : w <+: c :: cs := by
    have := List.find?_some h
    exact List.isPrefixOf_iff_prefix.1 this
  have hne : w ≠ [] := by
    rintro rfl
    have hmem : ([], list) ∈ jumpWords := List.mem_of_find?_eq_some h
    cases list <;> exact absurd hmem (by decide)
  obtain ⟨x, w', rfl⟩ := List.exists_cons_of_ne_nil hne
  obtain ⟨after, hafter⟩ := hpre
  obtain ⟨rfl, rfl⟩ := List.cons.inj hafter
  exact ⟨w', rfl, by simp⟩

theorem redigited_rewriteFrom (hch : ∀ c ∈ changes, 0 ≤ c.2) (quote before : Option Char)
    (cs : List Char) : Redigited cs (rewriteFrom changes quote before cs) := by
  fun_induction rewriteFrom changes quote before cs with
  | case1 => exact .nil
  | case2 before c rest q ih => exact .char c ih
  | case3 before c rest hq ih => exact .char c ih
  | case4 before c rest hq hbefore ih => exact .char c ih
  | case5 before c rest hq hbefore w list hw targets last after ht hlt ih =>
    obtain ⟨w', rfl, hrest⟩ := jumpWord?_cons_eq_some hw
    obtain ⟨front, hfront, hred⟩ := redigited_rewriteTargets hch list ((c :: w').getLastD c)
      (rest.drop ((c :: w').length - 1))
    rw [ht] at hfront hred
    have hsplit : c :: rest = (c :: w') ++ front ++ after := by
      rw [List.append_assoc, ← hfront, hrest]
      simp
    rw [hsplit]
    exact ((Redigited.refl (c :: w')).append hred).append ih
  | case6 before c rest hq hbefore hw ih => exact .char c ih

theorem head_rewriteFrom (quote before : Option Char) (cs : List Char) :
    (rewriteFrom changes quote before cs).head? = cs.head? := by
  fun_cases rewriteFrom changes quote before cs with
  | case5 c rest hq hbefore w list hw targets last after ht hlt =>
    obtain ⟨w', rfl, _⟩ := jumpWord?_cons_eq_some hw
    rfl
  | _ => rfl

end

end LineBasic
