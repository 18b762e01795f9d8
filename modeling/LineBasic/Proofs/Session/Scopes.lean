import LineBasic.Proofs.Session.Underway

/-!
# The scopes of a session

At every point of a session the scopes are what some series of operations makes of the outermost
scope. So the stacks differ by one module at most, and they rest on the root module. Every module
number that the machine keeps belongs to a module, and names and modules correspond.
-/

set_option autoImplicit false

namespace LineBasic.Session

/-- The states of a session: between two lines, between two steps of a run, and where a step has
led, also if it ended the run or failed. -/
inductive Point : Machine → Prop
  | waiting {m : Machine} (h : Waiting m) : Point m
  | underway {m₀ m : Machine} {line : String} {k : Nat} (h : Underway m₀ line k m) : Point m
  | stepped {m₀ m : Machine} {line : String} {k : Nat} (h : Underway m₀ line k m) :
      Point (step.final m)

theorem Point.wellScoped {m : Machine} (h : Point m) : m.WellScoped := by
  cases h with
  | waiting h => exact h.wellScoped
  | underway h => exact h.wellScoped
  | stepped h => exact h.wellScoped.step

end LineBasic.Session

namespace LineBasic

theorem Scopes.Paired.heights {s : Scopes} (h : s.Paired) :
    s.codeStack.length ≤ s.variableStack.length ∧
      s.variableStack.length ≤ s.codeStack.length + 1 := by
  rcases h.follows with hsame | ⟨id, hid⟩
  · rw [hsame]
    exact ⟨Nat.le_refl _, Nat.le_succ _⟩
  · rw [hid, List.length_cons]
    exact ⟨Nat.le_succ _, Nat.le_refl _⟩

theorem Machine.WellScoped.moduleNamed?_eq_some {m : Machine} (h : m.WellScoped) {name : String}
    {id : ModuleId} :
    m.moduleNamed? name = some id ↔ ∃ mod, m.modules[id]? = some mod ∧ mod.name = name := by
  refine ⟨getElem?_of_moduleNamed?, ?_⟩
  rintro ⟨mod, hmod, rfl⟩
  cases hfound : m.moduleNamed? mod.name with
  | none => exact absurd rfl (name_ne_of_moduleNamed? hfound mod (List.mem_of_getElem? hmod))
  | some j =>
    -- no other module has the name
    obtain ⟨mod', hmod', hname⟩ := getElem?_of_moduleNamed? hfound
    have hlt : j < (m.modules.map (·.name)).length := by
      rw [List.length_map]
      exact lt_length_of_moduleNamed? hfound
    have hsame : (m.modules.map (·.name))[j]? = (m.modules.map (·.name))[id]? := by
      rw [List.getElem?_map, List.getElem?_map, hmod', hmod, Option.map_some, Option.map_some, hname]
    rw [(List.getElem?_inj hlt h.names).1 hsame]

namespace Session

/-- Whatever is done with scopes, the variable stack is the code stack or has one module more on
top, and both have the root module at the bottom; in lockstep they have the same module on top. So
it is at every point of a session, where all modules in either stack and all modules that loops run
over are among the modules of the machine, and a name finds exactly the module that has it. -/
theorem scopes_stay_paired :
    (∀ ops : List Scopes.Op, (Scopes.run ops).Paired ∧
      (Scopes.run ops).codeStack.length ≤ (Scopes.run ops).variableStack.length ∧
      (Scopes.run ops).variableStack.length ≤ (Scopes.run ops).codeStack.length + 1 ∧
      ((Scopes.run ops).inLockstep →
        (Scopes.run ops).codeModule = (Scopes.run ops).variableModule)) ∧
    ∀ m : Machine, Point m →
      (∃ ops, m.scopes = Scopes.run ops) ∧
      m.scopes.Paired ∧
      (∀ id ∈ m.scopes.variableStack, id < m.modules.length) ∧
      (∀ id ∈ m.scopes.codeStack, id < m.modules.length) ∧
      (∀ mod ∈ m.modules, ∀ l ∈ mod.loops.held, l.home < m.modules.length) ∧
      ∀ name id, m.moduleNamed? name = some id ↔
        ∃ mod, m.modules[id]? = some mod ∧ mod.name = name := by
  constructor
  · intro ops
    have hpaired := Scopes.paired_run ops
    exact ⟨hpaired, hpaired.heights.1, hpaired.heights.2, hpaired.codeModule_of_inLockstep⟩
  · intro m hpoint
    have hm := hpoint.wellScoped
    refine ⟨hm.reached, hm.paired, hm.known, fun _ => hm.known_code, fun mod hmod l hl => ?_,
      fun _ _ => hm.moduleNamed?_eq_some⟩
    obtain ⟨id, hid⟩ := List.mem_iff_getElem?.1 hmod
    rw [← Machine.moduleAt_of_getElem? hid] at hl
    exact hm.homes id l hl

/-- A loop is under way in a module whose code is entered, and a second module is named. -/
theorem scopes_stay_paired_in_loop :
    let m := enterAll 9 ["MODULE LIB", "10 FOR I = 1 TO 3: QUIT", "RUN", "MODULE OTHER"] {}
    Point m ∧ m.scopes = ⟨[2, 1, 0], [1, 0]⟩ ∧ m.scopes.Paired ∧
      (∃ mod, m.modules[1]? = some mod ∧ mod.loops.held.map (·.home) = [1]) ∧
      (∀ mod ∈ m.modules, ∀ l ∈ mod.loops.held, l.home < m.modules.length) ∧
      m.moduleNamed? "OTHER" = some 2 ∧
      (m.moduleNamed? "LIB" = some 1 ↔ ∃ mod, m.modules[1]? = some mod ∧ mod.name = "LIB") := by
  intro m
  have hpoint : Point m := .waiting (Waiting.enterAll 9 _)
  obtain ⟨-, hpaired, -, -, hhomes, hnames⟩ := scopes_stay_paired.2 m hpoint
  exact ⟨hpoint, by decide +kernel, hpaired, by decide +kernel, hhomes, by decide +kernel,
    hnames "LIB" 1⟩

end Session

end LineBasic
