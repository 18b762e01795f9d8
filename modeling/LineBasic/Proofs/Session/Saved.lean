import LineBasic.Proofs.Listing.Saved
import LineBasic.Proofs.Session.Reachable

/-!
# Saved programs of a session

Whatever is entered, every module keeps a listing that can be saved and read back. The changes of a
run keep that, and so does a line that is stored.
-/

set_option autoImplicit false

namespace LineBasic

def Machine.Savable (m : Machine) : Prop := ∀ mod ∈ m.modules, mod.listing.Savable

theorem ModuleChange.savable {mod mod' : Module} (h : ModuleChange mod mod')
    (hmod : mod.listing.Savable) : mod'.listing.Savable := by
  cases h with
  | state _ hlisting => rwa [hlisting]
  | cleared => exact Listing.savable_empty
  | erased first last => exact hmod.eraseRange first last
  | renumbered r listing h => exact hmod.renumber h
  | loaded text listing name h => exact Listing.savable_of_ofText h

namespace Machine

theorem Savable.updateModule {m : Machine} (h : m.Savable) {id : ModuleId} {f : Module → Module}
    (hf : ∀ mod, m.modules[id]? = some mod → mod.listing.Savable → (f mod).listing.Savable) :
    (m.updateModule id f).Savable := by
  intro mod' hmem
  obtain ⟨i, hi⟩ := List.mem_iff_getElem?.1 hmem
  rw [Machine.updateModule, List.getElem?_modify] at hi
  obtain ⟨mod, hmod, rfl⟩ := Option.map_eq_some_iff.1 hi
  have hl := h mod (List.mem_iff_getElem?.2 ⟨i, hmod⟩)
  split
  · rename_i hid
    exact hf mod (hid ▸ hmod) hl
  · exact hl

end Machine

theorem Change.savable {m m' : Machine} (h : Change m m') (hm : m.Savable) : m'.Savable := by
  cases h with
  | world => exact hm
  | scopes => exact hm
  | ensured name =>
    rw [Machine.ensureModule]
    split
    · exact hm
    · intro mod hmem
      rcases List.mem_append.1 hmem with hmem | hmem
      · exact hm mod hmem
      · cases List.mem_singleton.1 hmem
        exact Listing.savable_empty
  | module id f h => exact hm.updateModule fun mod hmod => (h mod hmod).savable

theorem Changes.savable {m m' : Machine} (h : Changes m m') (hm : m.Savable) : m'.Savable := by
  induction h with
  | refl => exact hm
  | tail _ hstep ih => exact hstep.savable ih

namespace Session

theorem normalText_normalLine {line : String} (h : '\n' ∉ (normalEnd line).toList) :
    NormalText (normalLine line).toList := by
  refine normalText_programUpper h fun c hc => ?_
  rw [normalEnd, String.toList_ofList] at hc
  have := Text.getLast_dropTrailing c hc
  rintro rfl
  exact absurd this (by decide)

theorem savable_stored {m : Machine} (hm : m.Savable) {line text : String} {n : LineNumber}
    (hline : NormalText line.toList) (hn : numberedLine? line = some (n, text)) :
    (stored n text m).Savable :=
  hm.updateModule fun _ _ hl => hl.enterLine hline hn

theorem savable_prepare {m : Machine} (hm : m.Savable) (line : String) :
    (prepare line m).Savable := by
  refine (Changes.savable (Run.changes_enterCode m) hm).updateModule fun mod _ hl => ?_
  exact (hl.insert fun h => absurd h (by decide)).insert fun h => absurd h (by decide)

theorem Reachable.savable {m : Machine} (h : Reachable m) : m.Savable := by
  induction h with
  | start host registry options =>
    intro mod hmem
    cases List.mem_singleton.1 hmem
    exact Listing.savable_empty
  | outside m host registry column _ ih => exact ih
  | entered m fuel line _ hline ih =>
    rcases enter_cases fuel line m with h | ⟨n, text, hn, h⟩ | h
    · rwa [h]
    · exact h.savable (savable_stored ih (normalText_normalLine hline) hn)
    · have hstart : Machine.Savable { m with exitCode := none } := ih
      exact h.savable (savable_prepare hstart _)

/-- At any point of a session the saved text of every module reads back as the numbered lines of the
module, with the same texts. What was read from any text is saved and read back as it is. -/
theorem saved_program_reads_back :
    (∀ m, Reachable m → ∀ mod ∈ m.modules, ∃ l, Listing.ofText mod.listing.toText = .ok l ∧
      l.lines.entries = mod.listing.lines.entries.filter fun e => decide (0 ≤ e.1)) ∧
    ∀ text l, Listing.ofText text = .ok l → Listing.ofText l.toText = .ok l :=
  ⟨fun _ h mod hmod => Listing.ofText_toText (h.savable mod hmod),
    fun _ _ => Listing.ofText_toText_of_ofText⟩

theorem saved_program_reads_back_after_renumbering :
    let m := enterAll 9 ["20 goto 10", "10 print \"a\"", "30 rem", "30", "renumber 100"] {}
    Reachable m ∧ ∃ mod ∈ m.modules,
      mod.listing.lines.entries =
        [(-2, "RENUMBER 100"), (-1, ""), (100, "PRINT \"a\""), (110, "GOTO 100")] ∧
      ∃ l, Listing.ofText mod.listing.toText = .ok l ∧
        l.lines.entries = [(100, "PRINT \"a\""), (110, "GOTO 100")] := by
  intro m
  have hends : ∀ line ∈ ["20 goto 10", "10 print \"a\"", "30 rem", "30", "renumber 100"],
      '\n' ∉ (normalEnd line).toList := by
    decide
  have hm : Reachable m := (AtPrompt.start {} {} {}).enterAll fun line hline _ => hends line hline
  obtain ⟨mod, hmod, hlines⟩ : ∃ mod ∈ m.modules, mod.listing.lines.entries =
      [(-2, "RENUMBER 100"), (-1, ""), (100, "PRINT \"a\""), (110, "GOTO 100")] := by
    decide +kernel
  obtain ⟨l, hl, hread⟩ := saved_program_reads_back.1 m hm mod hmod
  rw [hlines] at hread
  exact ⟨hm, mod, hmod, hlines, l, hl, hread⟩

end Session

end LineBasic
