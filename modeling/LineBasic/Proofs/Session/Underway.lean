import LineBasic.Proofs.Act.Turn
import LineBasic.Proofs.Session.Reachable
import LineBasic.Proofs.World

/-!
# Runs under way

A session waits for lines, and each line that is not stored starts a run of steps. Between any two
steps the machine is well scoped. How many steps a run is given does not change what it does in
those that it takes.
-/

set_option autoImplicit false

namespace LineBasic.Session

open Run

inductive Underway (m₀ : Machine) (line : String) : Nat → Machine → Prop
  | prepared (hm₀ : Waiting m₀) (halive : m₀.host.halted = false)
      (hblank : Text.isBlankText (normalLine line) = false)
      (hnumber : numberedLine? (normalLine line) = none) :
      Underway m₀ line 0 (prepare (normalLine line) { m₀ with exitCode := none })
  | stepped {k : Nat} {m m' : Machine} (h : Underway m₀ line k m) (hstep : step m = .ok false m') :
      Underway m₀ line (k + 1) m'

theorem execute_succ (fuel : Nat) (m : Machine) :
    execute (fuel + 1) m = match step m with
      | .ok true m => .ok true m
      | .ok false m => execute fuel m
      | .error f m => .error f m := by
  rw [execute, bind_apply]
  cases step m with
  | error f m₁ => rfl
  | ok done m₁ => cases done <;> rfl

theorem Underway.execute_eq {m₀ : Machine} {line : String} {k : Nat} {m : Machine}
    (h : Underway m₀ line k m) (fuel : Nat) :
    execute (k + fuel) (prepare (normalLine line) { m₀ with exitCode := none }) =
      execute fuel m := by
  induction h generalizing fuel with
  | prepared => rw [Nat.zero_add]
  | @stepped k m m' h hstep ih =>
    rw [Nat.add_right_comm, Nat.add_assoc, ih (fuel + 1), execute_succ, hstep]

theorem Underway.started {m₀ : Machine} {line : String} {k : Nat} {m : Machine}
    (h : Underway m₀ line k m) : m₀.host.halted = false := by
  induction h with
  | prepared _ halive => exact halive
  | stepped _ _ ih => exact ih

theorem Underway.blank {m₀ : Machine} {line : String} {k : Nat} {m : Machine}
    (h : Underway m₀ line k m) : Text.isBlankText (normalLine line) = false := by
  induction h with
  | prepared _ _ hblank => exact hblank
  | stepped _ _ ih => exact ih

theorem Underway.number {m₀ : Machine} {line : String} {k : Nat} {m : Machine}
    (h : Underway m₀ line k m) : numberedLine? (normalLine line) = none := by
  induction h with
  | prepared _ _ _ hnumber => exact hnumber
  | stepped _ _ ih => exact ih

/-- Entering a line goes on from any point of its run. -/
theorem Underway.enter_eq {m₀ : Machine} {line : String} {k : Nat} {m : Machine}
    (h : Underway m₀ line k m) (fuel : Nat) :
    enter (k + fuel) line m₀ = settle (execute fuel m) := by
  simp [enter, h.started, h.blank, h.number, h.execute_eq]

def ongoing : Nat → Machine → Option Machine
  | 0, m => some m
  | k + 1, m =>
    match step m with
    | .ok false m => ongoing k m
    | _ => none

theorem ongoing_succ {k : Nat} {m m' : Machine} :
    ongoing (k + 1) m = some m' ↔ ∃ m₁, step m = .ok false m₁ ∧ ongoing k m₁ = some m' := by
  rw [ongoing]
  constructor
  · intro h
    split at h
    · rename_i m₁ hstep
      exact ⟨m₁, hstep, h⟩
    · cases h
  · rintro ⟨m₁, hstep, h⟩
    rw [hstep]
    exact h

theorem Underway.ongoing {m₀ : Machine} {line : String} {k : Nat} {m : Machine}
    (h : Underway m₀ line k m) {j : Nat} {m' : Machine} (hj : ongoing j m = some m') :
    Underway m₀ line (k + j) m' := by
  induction j generalizing k m with
  | zero =>
    cases hj
    exact h
  | succ j ih =>
    obtain ⟨m₁, hstep, hj⟩ := ongoing_succ.1 hj
    rw [Nat.add_succ, ← Nat.succ_add]
    exact ih (h.stepped hstep) hj

inductive StepsWhile (P : Machine → Prop) : Machine → Machine → Prop
  | refl (m : Machine) : StepsWhile P m m
  | head {m m₁ m' : Machine} (h : P m) (hstep : step m = .ok false m₁)
      (hrest : StepsWhile P m₁ m') : StepsWhile P m m'

theorem StepsWhile.underway {P : Machine → Prop} {m m' : Machine} (h : StepsWhile P m m')
    {m₀ : Machine} {line : String} {k : Nat} (hm : Underway m₀ line k m) :
    ∃ j, Underway m₀ line j m' := by
  induction h generalizing k with
  | refl m => exact ⟨k, hm⟩
  | head _ hstep _ ih => exact ih (hm.stepped hstep)

theorem Underway.waiting {m₀ : Machine} {line : String} {k : Nat} {m : Machine}
    (h : Underway m₀ line k m) : Waiting m₀ := by
  induction h with
  | prepared hm₀ => exact hm₀
  | stepped _ _ ih => exact ih

theorem ongoing_add {j k : Nat} {m m₁ m₂ : Machine} (h : ongoing j m = some m₁)
    (h₁ : ongoing k m₁ = some m₂) : ongoing (j + k) m = some m₂ := by
  induction j generalizing m with
  | zero =>
    cases h
    rwa [Nat.zero_add]
  | succ j ih =>
    obtain ⟨m', hstep, h⟩ := ongoing_succ.1 h
    rw [Nat.succ_add]
    exact ongoing_succ.2 ⟨m', hstep, ih h⟩

/-- A line and a number of steps lead to one machine only. -/
theorem Underway.ongoing_eq {m₀ : Machine} {line : String} {k : Nat} {m : Machine}
    (h : Underway m₀ line k m) :
    Session.ongoing k (prepare (normalLine line) { m₀ with exitCode := none }) = some m := by
  induction h with
  | prepared => rfl
  | stepped _ hstep ih => exact ongoing_add ih (ongoing_succ.2 ⟨_, hstep, rfl⟩)

theorem Underway.not_edits {m₀ m : Machine} {line : String} {k : Nat} (hm : Underway m₀ line k m)
    (h : ((Session.ongoing k (prepare (normalLine line) { m₀ with exitCode := none })).bind
      nextTokens?).all keepsLines = true) (e : Edit) : ¬Edits e m := by
  rw [hm.ongoing_eq, Option.bind_some] at h
  exact not_edits_of_keepsLines h e

theorem exitCode_prepare (line : String) (m : Machine) :
    (prepare line m).exitCode = m.exitCode := by
  change m.enterCode.2.exitCode = m.exitCode
  cases h : m.scopes.inLockstep with
  | true => rw [Machine.enterCode_of_inLockstep h]
  | false =>
    rw [Machine.enterCode_of_ahead h]
    rfl

/-- A line runs in the module that is in the variable scope. -/
theorem codeModule_prepare {m : Machine} (hm : m.WellScoped) (line : String) :
    (prepare line m).scopes.codeModule = m.scopes.variableModule := by
  have hland : Landing False m none m.enterCode.2 := .jump
  exact hland.codeModule hm

/-- The line is given to one module, and the others stay as they are. -/
theorem moduleAt_prepare {m : Machine} (hm : m.WellScoped) (line : String) (id : ModuleId) :
    (prepare line m).moduleAt id =
      let mod := m.enterCode.2.moduleAt id
      if id = m.scopes.variableModule then
        { (mod.dropLoops (·.resume.isTyped)).dropGosubs (·.resume.isTyped) with
          listing := (mod.listing.insert typedLine line).insert typedEnd ""
          pc := .atLine typedLine }
      else mod := by
  have hcode : m.enterCode.2.scopes.codeModule = m.scopes.variableModule :=
    codeModule_prepare hm line
  have hlt := hm.enterCode.codeModule_lt
  rw [prepare, Machine.updateCodeModule, Machine.moduleAt_updateModule, hcode]
  by_cases hid : id = m.scopes.variableModule
  · rw [if_pos ⟨hid, by rwa [hid, ← hcode]⟩]
    exact (if_pos hid).symm
  · rw [if_neg fun h => hid h.1]
    exact (if_neg hid).symm

theorem calls_prepare {m : Machine} (hm : m.WellScoped) (line : String) (id : ModuleId) :
    ((prepare line m).moduleAt id).loops =
        (if id = m.scopes.variableModule then
          ((m.moduleAt id).dropLoops (·.resume.isTyped)).loops else (m.moduleAt id).loops) ∧
      ((prepare line m).moduleAt id).gosubs =
        if id = m.scopes.variableModule then
          ((m.moduleAt id).dropGosubs (·.resume.isTyped)).gosubs else (m.moduleAt id).gosubs := by
  rw [moduleAt_prepare hm]
  by_cases hid : id = m.scopes.variableModule
  · simp only [if_pos hid, Module.dropLoops, Module.dropGosubs, m.loops_enterCode,
      m.gosubs_enterCode, and_self]
  · simp only [if_neg hid, m.loops_enterCode, m.gosubs_enterCode, and_self]

theorem listing_prepare {m : Machine} (hm : m.WellScoped) (line : String) (id : ModuleId) :
    ((prepare line m).moduleAt id).listing =
      if id = m.scopes.variableModule then
        ((m.moduleAt id).listing.insert typedLine line).insert typedEnd ""
      else (m.moduleAt id).listing := by
  rw [moduleAt_prepare hm]
  by_cases hid : id = m.scopes.variableModule
  · simp only [if_pos hid, m.listing_enterCode]
  · simp only [if_neg hid, m.listing_enterCode]

/-- All that resumed in older typed text is dropped. -/
theorem resumes_prepare {m : Machine} (hm : m.WellScoped) (line : String) {pc : ProgramCounter}
    (hpc : pc ∈ ((prepare line m).moduleAt m.scopes.variableModule).resumes) :
    pc ∈ m.variableModule.resumes ∧ pc.isTyped = false := by
  obtain ⟨hloops, hgosubs⟩ := calls_prepare hm line m.scopes.variableModule
  rw [if_pos rfl] at hloops hgosubs
  rw [Module.resumes, hloops, hgosubs, List.mem_append, List.mem_map, List.mem_map] at hpc
  rcases hpc with ⟨l, hl, rfl⟩ | ⟨g, hg, rfl⟩
  · refine ⟨List.mem_append_left _ (List.mem_map_of_mem ((Stack.sublist_truncate _ _).mem hl)), ?_⟩
    exact Stack.eq_false_of_mem_truncate (p := fun l : ForLoop => l.resume.isTyped) hl
  · refine ⟨List.mem_append_right _ (List.mem_map_of_mem ((Stack.sublist_truncate _ _).mem hg)), ?_⟩
    exact Stack.eq_false_of_mem_truncate (p := fun g : Gosub => g.resume.isTyped) hg

/-- Where a line is typed, the module goes on in it, or where it was to resume outside of typed
text. The other modules go on where they were. -/
theorem placesAt_prepare {m : Machine} (hm : m.WellScoped) (line : String)
    {P : Listing → ProgramCounter → Prop} {id : ModuleId}
    (htyped : id = m.scopes.variableModule →
      let l := ((m.moduleAt id).listing.insert typedLine line).insert typedEnd ""
      P l (.atLine typedLine) ∧ ∀ pc ∈ (m.moduleAt id).resumes, pc.isTyped = false → P l pc)
    (hother : id ≠ m.scopes.variableModule → m.PlacesAt P id) : (prepare line m).PlacesAt P id := by
  have hlisting := listing_prepare hm line id
  have hpc := congrArg Module.pc (moduleAt_prepare hm line id)
  dsimp only at hpc
  by_cases hid : id = m.scopes.variableModule
  · obtain ⟨hstart, hkept⟩ := htyped hid
    rw [if_pos hid] at hlisting hpc
    rw [Machine.PlacesAt, Module.places_iff, hlisting, hpc]
    refine ⟨fun _ => hstart, fun pc hmem => ?_⟩
    rw [hid] at hmem
    obtain ⟨hold, huntyped⟩ := resumes_prepare hm line hmem
    exact hkept pc (hid ▸ hold) huntyped
  · have hplaces := hother hid
    obtain ⟨hloops, hgosubs⟩ := calls_prepare hm line id
    rw [if_neg hid] at hlisting hpc hloops hgosubs
    rw [Machine.pc_enterCode, if_neg fun h => hid h.2.1] at hpc
    constructor
    · intro hentered
      rw [hlisting, hpc]
      apply hplaces.pc
      change id ∈ m.enterCode.2.scopes.codeStack at hentered
      rw [Machine.scopes_enterCode, Scopes.codeStack_enterCode] at hentered
      split at hentered
      · exact hentered
      · exact (List.mem_cons.1 hentered).resolve_left hid
    · rw [hlisting, hloops]
      exact hplaces.loops
    · rw [hlisting, hgosubs]
      exact hplaces.gosubs

/-- The lines of a listing that typed text was put in. -/
theorem get?_insert_typed (listing : Listing) (line : String) (n : LineNumber) :
    ((listing.insert typedLine line).insert typedEnd "").get? n =
      if n = typedEnd then some "" else if n = typedLine then some line else listing.get? n := by
  rw [Listing.insert, Listing.get?, Table.get?_insert, Listing.insert, Table.get?_insert]
  rfl

theorem exitCode_endModule (m : Machine) : m.endModule.exitCode = m.exitCode := by
  cases h : m.scopes.inLockstep with
  | true =>
    rw [Machine.endModule_of_inLockstep h]
    rfl
  | false => rw [Machine.endModule_of_ahead h]

theorem exitCode_of_step {m m' : Machine} (h : step m = .ok false m') (hm : m.exitCode = none) :
    m'.exitCode = none := by
  have hstep := stepResult m
  rw [h] at hstep
  generalize hr : EStateM.Result.ok false m' = r at hstep
  cases hstep with
  | moved =>
    cases hr
    exact hm
  | left =>
    cases hr
    rw [exitCode_endModule]
    exact hm
  | statement n text tokens next =>
    obtain ⟨m₁, -, -, hexit, rfl⟩ := ok_of_afterStatement hr.symm
    exact hexit
  | _ => cases hr

theorem Underway.exitCode {m₀ : Machine} {line : String} {k : Nat} {m : Machine}
    (h : Underway m₀ line k m) : m.exitCode = none := by
  induction h with
  | prepared => exact exitCode_prepare _ _
  | stepped _ hstep ih => exact exitCode_of_step hstep ih

theorem halted_of_step {m m' : Machine} (h : step m = .ok false m')
    (hm : m.host.halted = false) : m'.host.halted = false := by
  have hstep := stepResult m
  rw [h] at hstep
  generalize hr : EStateM.Result.ok false m' = r at hstep
  cases hstep with
  | moved =>
    cases hr
    exact hm
  | left =>
    cases hr
    rw [(m.setPc .atEnd).sameWorld_endModule.host]
    exact hm
  | statement n text tokens next =>
    obtain ⟨m₁, -, halive, -, rfl⟩ := ok_of_afterStatement hr.symm
    exact halive
  | _ => cases hr

theorem Underway.alive {m₀ : Machine} {line : String} {k : Nat} {m : Machine}
    (h : Underway m₀ line k m) : m.host.halted = false := by
  induction h with
  | prepared _ halive =>
    change (Machine.enterCode { m₀ with exitCode := none }).2.host.halted = false
    rw [(Machine.sameWorld_enterCode _).host]
    exact halive
  | stepped _ hstep ih => exact halted_of_step hstep ih

/-- A fault outside of programs leaves the modules entered. -/
theorem scopes_report {m : Machine} {f : Fault} (h : inRunningLine m f = false) :
    (report f m).scopes = m.scopes := by
  rw [report, h]
  rfl

/-- What every step of a run keeps is so when the run is left. -/
theorem Underway.settle_rule {I : Machine → Prop} {m₀ : Machine} {line : String}
    (hreport : ∀ f m, I m → I (report f m)) (hexit : ∀ m exitCode, I m → I { m with exitCode })
    {k : Nat} {m : Machine} (hm : Underway m₀ line k m) (fuel : Nat)
    (hstep : ∀ j s, j < k + fuel → Underway m₀ line j s → I s → I (step.final s)) (h : I m) :
    I (settle (execute fuel m)).2 := by
  induction fuel generalizing k m with
  | zero => exact h
  | succ fuel ih =>
    have hnext := hstep k m (by omega) hm h
    rw [Run.final] at hnext
    rw [execute_succ]
    cases hs : step m with
    | error f m₁ =>
      rw [hs] at hnext
      exact hreport f m₁ hnext
    | ok done m₁ =>
      rw [hs] at hnext
      cases done with
      | false => exact ih (hm.stepped hs) (fun j s hj => hstep j s (by omega)) hnext
      | true =>
        obtain ⟨exitCode, hsettle⟩ := settle_of_over m₁
        rw [hsettle]
        exact hexit m₁ exitCode hnext

/-- What storing a line, getting ready to run one and every step of the run keep is so when the line
was entered. -/
theorem enter_rule {I : Machine → Prop} {m : Machine} {fuel : Nat} {line : String}
    (hm : Waiting m)
    (hstored : ∀ n text, numberedLine? (normalLine line) = some (n, text) → I (stored n text m))
    (hreport : ∀ f m, I m → I (report f m)) (hexit : ∀ m exitCode, I m → I { m with exitCode })
    (hprepared : ∀ s, Underway m line 0 s → I s)
    (hstep : ∀ k s, k < fuel → Underway m line k s → I s → I (step.final s)) (h : I m) :
    I (enter fuel line m).2 := by
  rcases enter_eq line m with ⟨status, henter⟩ |
    ⟨halive, hblank, ⟨n, text, hn, henter | ⟨f, henter⟩⟩ | ⟨hn, henter⟩⟩
  all_goals rw [henter]
  · exact h
  · exact hstored n text hn
  · exact hreport f _ (hstored n text hn)
  · have hstart : Underway m line 0 _ := .prepared hm halive hblank hn
    exact hstart.settle_rule hreport hexit fuel
      (fun k s hk => hstep k s (by omega)) (hprepared _ hstart)

end LineBasic.Session

namespace LineBasic.Machine.WellScoped

open Run Session

variable {m : Machine}

theorem start (host : Host) (registry : Registry) (options : LexOptions) :
    ({ host, registry, options } : Machine).WellScoped where
  reached := ⟨[], rfl⟩
  known id hid := by
    cases List.mem_singleton.1 hid
    exact Nat.zero_lt_one
  homes id := by
    cases id with
    | zero => exact nofun
    | succ id => exact nofun
  names := by simp

theorem step (h : m.WellScoped) : (Session.step.final m).WellScoped :=
  step_rule (I := WellScoped) (J := WellScoped) (fun _ _ hquiet h => h.quiet hquiet)
    (fun _ pc h => h.setPc pc) (fun _ _ hact h => h.act hact) (fun _ _ h => h.of_eq rfl rfl) h

theorem stored (h : m.WellScoped) (n : LineNumber) (text : String) :
    (Session.stored n text m).WellScoped :=
  h.updateModule _ fun _ _ => ⟨rfl, fun _ hl => .inl hl⟩

theorem clearExit (h : m.WellScoped) : ({ m with exitCode := none } : Machine).WellScoped :=
  h.of_eq rfl rfl

theorem prepare (h : m.WellScoped) (line : String) : (Session.prepare line m).WellScoped :=
  h.enterCode.updateModule _ fun _ _ => ⟨rfl, fun _ hl => .inl (List.mem_of_mem_drop hl)⟩

theorem report (h : m.WellScoped) (f : Fault) : (Session.report f m).WellScoped := by
  have hreset := h.operate .reset (by simp)
  rw [Session.report]
  cases inRunningLine m f with
  | true => exact hreset.of_eq rfl rfl
  | false => exact h.of_eq rfl rfl

end LineBasic.Machine.WellScoped

namespace LineBasic.Session

theorem AtPrompt.wellScoped {allowed : Machine → Nat → String → Prop} {m : Machine}
    (h : AtPrompt allowed m) : m.WellScoped := by
  induction h with
  | start host registry options => exact .start host registry options
  | outside m host registry column _ ih => exact ih.of_eq rfl rfl
  | entered m fuel line hm _ ih =>
    apply enter_rule (I := Machine.WellScoped) hm.waiting
    · intro n text _
      exact ih.stored n text
    · intro f m hm
      exact hm.report f
    · intro m exitCode hm
      exact hm.of_eq rfl rfl
    · intro s hs
      cases hs with
      | prepared => exact ih.clearExit.prepare _
    · intro k s _ _ hs
      exact hs.step
    · exact ih

theorem Underway.wellScoped {m₀ : Machine} {line : String} {k : Nat} {m : Machine}
    (h : Underway m₀ line k m) : m.WellScoped := by
  induction h with
  | prepared hm₀ => exact hm₀.wellScoped.clearExit.prepare _
  | stepped _ hstep ih =>
    have hm := ih.step
    rwa [Run.final, hstep] at hm

theorem wellScoped_settle {m : Machine} (hm : m.WellScoped) :
    (settle (step m)).2.WellScoped := by
  have hnext := hm.step
  rw [Run.final] at hnext
  cases hs : step m with
  | error f m₁ =>
    rw [hs] at hnext
    exact hnext.report f
  | ok done m₁ =>
    rw [hs] at hnext
    cases done with
    | false => exact hnext
    | true =>
      obtain ⟨exitCode, hsettle⟩ := settle_of_over m₁
      rw [hsettle]
      exact hnext.of_eq rfl rfl

/-- What can happen beside the steps of a run: a line is stored, its fault is reported, a line is
given to run, or something changes from outside. -/
inductive Aside (m : Machine) : Machine → Prop
  | stored (n : LineNumber) (text : String) : Aside m (stored n text m)
  | refused (f : Fault) (n : LineNumber) : Aside m (report (f.inLine n) m)
  | prepared (line : String) : Aside m (prepare line m)
  | outside (host : Host) (registry : Registry) (column : Nat) :
      Aside m { m with host, registry, column }

theorem Aside.wellScoped {m m' : Machine} (h : Aside m m') (hm : m.WellScoped) :
    m'.WellScoped := by
  cases h with
  | stored n text => exact hm.stored n text
  | refused f n => exact hm.report _
  | prepared line => exact hm.prepare line
  | outside host registry column => exact hm.of_eq rfl rfl

theorem Underway.changes {m₀ m : Machine} {line : String} {k : Nat} (h : Underway m₀ line k m) :
    Changes (prepare (normalLine line) { m₀ with exitCode := none }) m := by
  induction h with
  | prepared => exact .refl
  | @stepped k m m' _ hstep ih =>
    have hnext := confined_step m
    rw [Run.final, hstep] at hnext
    exact ih.trans hnext

theorem Underway.registry {m₀ m : Machine} {line : String} {k : Nat} (h : Underway m₀ line k m) :
    m.registry = m₀.registry :=
  h.changes.registry.trans (Run.changes_enterCode { m₀ with exitCode := none }).registry

theorem Underway.lexicon {m₀ m : Machine} {line : String} {k : Nat} (h : Underway m₀ line k m) :
    m.lexicon = m₀.lexicon ∧ m.options = m₀.options :=
  ⟨congrArg Registry.lexicon h.registry,
    h.changes.options.trans (Run.changes_enterCode { m₀ with exitCode := none }).options⟩

/-- What a machine keeps of another one while a statement is worked out: all that its course is,
with the running module behind the statement. -/
structure Poised (m : Machine) (pc : ProgramCounter) (u : Machine) : Prop where
  scopes : u.scopes = m.scopes
  exitCode : u.exitCode = m.exitCode
  loops : u.codeModule.loops = m.codeModule.loops
  gosubs : u.codeModule.gosubs = m.codeModule.gosubs
  pc : u.codeModule.pc = pc
  wellScoped : u.WellScoped

theorem Poised.of_calm {m u : Machine} {pc : ProgramCounter} (hm : m.WellScoped)
    (h : (m.setPc pc).Calm u) : Poised m pc u := by
  have hscopes : u.scopes = m.scopes := h.scopes
  constructor
  · exact hscopes
  · exact h.exitCode
  · rw [Machine.codeModule, h.loops, hscopes, Machine.loops_setPc]
    rfl
  · rw [Machine.codeModule, h.gosubs, hscopes, Machine.gosubs_setPc]
    rfl
  · rw [Machine.codeModule, h.pc, hscopes, Machine.pc_setPc, if_pos ⟨rfl, hm.codeModule_lt⟩]
  · exact (hm.setPc pc).quiet h.quiet

theorem Lexed.poised {m u : Machine} {n : LineNumber} {text : String} {tokens tokens' : List Token}
    {next : Nat} (h : Lexed m n text tokens next) (hm : m.WellScoped)
    (hcomes : Statement.ComesTo tokens (begun n tokens next m) tokens' u) :
    Poised m ⟨some n, next⟩ u :=
  .of_calm hm ((calm_begun h.line tokens next).trans hcomes.calm)

/-- Nothing that a statement comes to ends the process. -/
theorem Lexed.alive_of_comesTo {m u : Machine} {n : LineNumber} {text : String} {t : Token}
    {tokens rest : List Token} {next : Nat} (h : Lexed m n text tokens next)
    (hcomes : Statement.ComesTo tokens (begun n tokens next m) (t :: rest) u) :
    u.host.halted = false := by
  rw [hcomes.evaluated.rest]
  exact h.alive hcomes.ne_nil

theorem Poised.calm {m u u' : Machine} {pc : ProgramCounter} (h : Poised m pc u)
    (hcalm : u.Calm u') : Poised m pc u' where
  scopes := hcalm.scopes.trans h.scopes
  exitCode := hcalm.exitCode.trans h.exitCode
  loops := hcalm.codeLoops.trans h.loops
  gosubs := by
    rw [Machine.codeModule, hcalm.gosubs, hcalm.scopes]
    exact h.gosubs
  pc := by
    rw [Machine.codeModule, hcalm.pc, hcalm.scopes]
    exact h.pc
  wellScoped := h.wellScoped.quiet hcalm.quiet

end LineBasic.Session
