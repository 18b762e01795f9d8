import LineBasic.Proofs.Listing.Saved
import LineBasic.Proofs.Session.Underway

/-!
# Where typed text runs

A line that is entered without a number is kept in the module that it is typed in, and takes the
place of the older typed text there. A statement of typed text runs in that module only, and it is
from that line, unless another module has something left over that leads into the older typed text
of its own: its program counter, if its code is still entered, or a loop, or a call.
-/

set_option autoImplicit false

namespace LineBasic

def ProgramCounter.inTypedText (pc : ProgramCounter) : Bool := pc.line.any fun n => n ≤ typedLine

theorem ProgramCounter.inTypedText_atLine {n : LineNumber} (h : typedLine < n) :
    (ProgramCounter.atLine n).inTypedText = false := by
  simp [inTypedText, atLine, h]

theorem placeRule_not_inTypedText :
    PlaceRule (fun _ => True) fun _ pc => pc.inTypedText = false where
  ended _ := rfl
  line _ n hn := ProgramCounter.inTypedText_atLine (Int.lt_of_lt_of_le (by decide) hn)
  skipped _ _ _ h _ := h
  revised _ _ _ _ h := h

abbrev Machine.SettledAt (m : Machine) (id : ModuleId) : Prop :=
  m.PlacesAt (fun _ pc => pc.inTypedText = false) id

namespace Session

open Run

theorem settledAt_step {m : Machine} {id : ModuleId} (h : m.SettledAt id) (hm : m.WellScoped) :
    (step.final m).SettledAt id := by
  refine h.step hm placeRule_not_inTypedText (fun _ _ _ => trivial) fun hid pc hadvance => ?_
  have hpc := h.codePc hm hid
  cases hadvance with
  | ended => rfl
  | within n text tokens next hline => simpa [ProgramCounter.inTypedText, hline] using hpc
  | onto n n' hline hn =>
    apply ProgramCounter.inTypedText_atLine
    simp [ProgramCounter.inTypedText, hline] at hpc
    exact Int.lt_trans hpc hn

theorem Underway.settledAt {m₀ m : Machine} {line : String} {k : Nat} {id : ModuleId}
    (hm : Underway m₀ line k m) (h : m₀.SettledAt id) (hid : id ≠ m₀.scopes.variableModule) :
    m.SettledAt id := by
  induction hm with
  | prepared hm₀ =>
    exact placesAt_prepare hm₀.wellScoped.clearExit _ (fun hat => absurd hat hid) fun _ => h
  | stepped hm hstep ih =>
    have hnext := settledAt_step ih hm.wellScoped
    rwa [final, hstep] at hnext

end Session

/-- A change of a module keeps its typed text or drops it. -/
theorem ModuleChange.typed_kept_or_dropped {mod mod' : Module} (h : ModuleChange mod mod') :
    (∀ n, n < 0 → mod'.listing.get? n = mod.listing.get? n) ∨
      ∀ n, n < 0 → mod'.listing.get? n = none := by
  cases h with
  | state _ hlisting => exact .inl fun n _ => by rw [hlisting]
  | cleared => exact .inr fun n _ => rfl
  | erased first last => exact .inl fun n hn => Listing.get?_eraseRange_of_neg _ first last hn
  | renumbered r listing hr =>
    obtain ⟨changes, hchanges, hentries⟩ := Listing.renumber_eq_ok hr
    exact .inl fun n hn => Listing.get?_of_renumber hchanges hentries hn
  | loaded file listing name hfile =>
    refine .inr fun n hn => Option.eq_none_iff_forall_ne_some.2 fun text hget => ?_
    exact Int.not_le.2 hn (Listing.nonneg_of_ofText hfile n text hget)

theorem ModuleChange.typed {mod mod' : Module} (h : ModuleChange mod mod') {n : LineNumber}
    (hn : n < 0) {text : String} (hget : mod'.listing.get? n = some text) :
    mod.listing.get? n = some text := by
  rcases h.typed_kept_or_dropped with hkept | hdropped
  · rwa [hkept n hn] at hget
  · rw [hdropped n hn] at hget
    cases hget

theorem Change.typed {m m' : Machine} (h : Change m m') (id : ModuleId) {n : LineNumber}
    (hn : n < 0) {text : String} (hget : (m'.moduleAt id).listing.get? n = some text) :
    (m.moduleAt id).listing.get? n = some text := by
  cases h with
  | world => exact hget
  | scopes => exact hget
  | ensured name =>
    rcases m.moduleAt_ensureModule name id with h | ⟨-, h⟩
    · rwa [h] at hget
    · rw [h] at hget
      cases hget
  | module id' f hf =>
    rw [Machine.moduleAt_updateModule] at hget
    split at hget
    · rename_i hid
      have hmod := List.getElem?_eq_getElem hid.2
      rw [Machine.moduleAt_of_getElem? hmod] at hget ⊢
      exact (hf _ (hid.1 ▸ hmod)).typed hn hget
    · exact hget

theorem Changes.typed {m m' : Machine} (h : Changes m m') (id : ModuleId) {n : LineNumber}
    (hn : n < 0) {text : String} (hget : (m'.moduleAt id).listing.get? n = some text) :
    (m.moduleAt id).listing.get? n = some text := by
  induction h with
  | refl => exact hget
  | tail _ hchange ih => exact ih (hchange.typed id hn hget)

namespace Session

open Run

structure Fresh (mod : Module) : Prop where
  pc : mod.pc = .atLine typedLine
  loops : ∀ l ∈ mod.loops.held, l.resume.isTyped = false
  gosubs : ∀ g ∈ mod.gosubs.held, g.resume.isTyped = false

/-- A line starts in a module from which all that led into its older typed text is dropped. -/
theorem fresh_prepare {m : Machine} (hm : m.WellScoped) (line : String) :
    Fresh (prepare line m).codeModule := by
  rw [Machine.codeModule, codeModule_prepare hm]
  constructor
  · rw [moduleAt_prepare hm]
    exact congrArg Module.pc (if_pos rfl)
  · intro l hl
    exact (resumes_prepare hm line (List.mem_append_left _ (List.mem_map_of_mem hl))).2
  · intro g hg
    exact (resumes_prepare hm line (List.mem_append_right _ (List.mem_map_of_mem hg))).2

inductive LeftOver (m : Machine) (id : ModuleId) : Prop
  | place (hentered : id ∈ m.scopes.codeStack) (h : (m.moduleAt id).pc.inTypedText = true)
  | loop (l : ForLoop) (hl : l ∈ (m.moduleAt id).loops.held) (h : l.resume.inTypedText = true)
  | call (g : Gosub) (hg : g ∈ (m.moduleAt id).gosubs.held) (h : g.resume.inTypedText = true)

theorem settledAt_of_not_leftOver {m : Machine} {id : ModuleId} (h : ¬LeftOver m id) :
    m.SettledAt id where
  pc hentered := eq_false_of_ne_true fun hpc => h (.place hentered hpc)
  loops l hl := eq_false_of_ne_true fun hresume => h (.loop l hl hresume)
  gosubs g hg := eq_false_of_ne_true fun hresume => h (.call g hg hresume)

/-- A module that gets into typed text which was not entered now had something left over. -/
theorem Underway.leftOver {m₀ m : Machine} {line : String} {k : Nat} (hm : Underway m₀ line k m)
    (hid : m.scopes.codeModule ≠ m₀.scopes.variableModule)
    (hline : m.codeModule.pc.line = some typedLine) : LeftOver m₀ m.scopes.codeModule := by
  refine Classical.byContradiction fun hnone => ?_
  have hsettled := hm.settledAt (settledAt_of_not_leftOver hnone) hid
  have hpc := hsettled.codePc hm.wellScoped rfl
  simp [ProgramCounter.inTypedText, hline] at hpc

/-- Every statement that a line runs as typed text is from that line, and is run in the module that
the line was entered in, which starts it with nothing that leads into older text. Only a module with
something left over runs older text, which is its own. -/
theorem typed_statements_come_from_entered_line {m₀ m : Machine} {line text : String} {k : Nat}
    (hm : Underway m₀ line k m) (hline : m.codeModule.pc.line = some typedLine)
    (hlisted : m.codeModule.listing.get? typedLine = some text) :
    Fresh (prepare (normalLine line) { m₀ with exitCode := none }).codeModule ∧
      (m.scopes.codeModule = m₀.scopes.variableModule ∧ text = normalLine line ∨
        m.scopes.codeModule ≠ m₀.scopes.variableModule ∧ LeftOver m₀ m.scopes.codeModule ∧
          (m₀.moduleAt m.scopes.codeModule).listing.get? typedLine = some text) := by
  have hm₀ := hm.waiting.wellScoped.clearExit
  have htyped := hm.changes.typed m.scopes.codeModule (by decide) hlisted
  rw [listing_prepare hm₀] at htyped
  refine ⟨fresh_prepare hm₀ _, ?_⟩
  by_cases hid : m.scopes.codeModule = m₀.scopes.variableModule
  · left
    rw [if_pos hid, Listing.insert, Listing.get?, Table.get?_insert, if_neg (by decide),
      Listing.insert, Table.get?_insert, if_pos rfl] at htyped
    exact ⟨hid, (Option.some.inj htyped).symm⟩
  · right
    rw [if_neg hid] at htyped
    exact ⟨hid, hm.leftOver hid hline, htyped⟩

/-- A call that an older line has left in the module is dropped, and the new one comes back into the
new line. -/
theorem typed_statements_come_from_entered_line_behind_call :
    let line := "GOSUB 20: PRINT \"NEW\""
    let m₀ := enterAll 9 ["10 NEXT", "20 RETURN", "GOSUB 10: PRINT \"OLD\""] {}
    ∃ m text, m₀.codeModule.gosubs.top? = some ⟨⟨some typedLine, 9⟩, 0⟩ ∧ Underway m₀ line 2 m ∧
      Lexed m typedLine text [.word .PRINT, .string "NEW"] 21 ∧
      Fresh (prepare (normalLine line) { m₀ with exitCode := none }).codeModule ∧
      m.scopes.codeModule = m₀.scopes.variableModule ∧ text = normalLine line := by
  intro line m₀
  have hstart : Underway m₀ line 0 _ :=
    .prepared (Waiting.enterAll 9 _) (by decide +kernel) (by decide +kernel) (by decide +kernel)
  obtain ⟨m, hm, hscopes, hlexed⟩ :
      ∃ m, ongoing 2 (prepare (normalLine line) { m₀ with exitCode := none }) = some m ∧
        m.scopes = m₀.scopes ∧
        Lexed m typedLine "GOSUB 20: PRINT \"NEW\"" [.word .PRINT, .string "NEW"] 21 := by
    decide +kernel
  have hvariables : m.scopes.codeModule = m₀.scopes.variableModule := by
    rw [hscopes]
    decide +kernel
  have hunder := hstart.ongoing hm
  obtain ⟨hfresh, ⟨-, htext⟩ | ⟨hne, -⟩⟩ :=
    typed_statements_come_from_entered_line hunder hlexed.line hlexed.listed
  · exact ⟨m, _, by decide +kernel, hunder, hlexed, hfresh, hvariables, htext⟩
  · exact absurd hvariables hne

/-- The rest of a line that ended in a fault after it had named a module is run when the module is
left, and the rest of a line that called a subroutine which ended in a fault is run when another
line returns from that call. -/
theorem left_over_text_runs_again :
    let m₀ := enterAll 9 ["MODULE M: NEXT: PRINT \"OLD\""] {}
    let m₁ := enterAll 9 ["MODULE A", "10 NEXT", "20 RETURN", "GOSUB 10: PRINT \"OLD\""] {}
    ((ongoing 1 (prepare (normalLine "END") m₀)).map fun m =>
        (m.codeModule.pc, m.codeModule.listing.get? typedLine)) =
      some (⟨some typedLine, 15⟩, some "MODULE M: NEXT: PRINT \"OLD\"") ∧
      (enterAll 9 ["END"] m₀).host.printedSince 0 = "?NEXT WITHOUT FOR ERROR\nOLD\n" ∧
      ((ongoing 3 (prepare (normalLine "MODULE A: GOTO 20") m₁)).map fun m =>
        (m.codeModule.pc, m.codeModule.listing.get? typedLine)) =
      some (⟨some typedLine, 9⟩, some "GOSUB 10: PRINT \"OLD\"") ∧
      (enterAll 9 ["MODULE A: GOTO 20"] m₁).host.printedSince 0 =
        "?NEXT WITHOUT FOR ERROR IN 10\n10  NEXT\nOLD\n" := by
  decide +kernel

end Session

end LineBasic
