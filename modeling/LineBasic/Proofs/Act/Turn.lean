import LineBasic.Proofs.Act.Shift

/-!
# What acts do to loops and calls

A module has a stack of loops and a stack of calls, and each call notes how many loops were under
way when it was made. An act adds a loop or a call on top, drops calls from the top, goes back from
the latest call and ends the loops above its note, or empties both stacks. One act empties the
loops alone: it is the only one that leaves calls behind whose notes are void.
-/

set_option autoImplicit false

namespace LineBasic

inductive Turn (renews forgets : Prop) (loops : Stack ForLoop) (gosubs : Stack Gosub) :
    Stack ForLoop → Stack Gosub → Prop
  | dropped (n : Nat) : Turn renews forgets loops gosubs loops (gosubs.truncate n)
  | looped (l : ForLoop) : Turn renews forgets loops gosubs (loops.push l) gosubs
  | called (g : Gosub) (hnote : g.loops = loops.size) :
      Turn renews forgets loops gosubs loops (gosubs.push g)
  | returned (g : Gosub) (n : Nat) (htop : gosubs.top? = some g) (hn : n < gosubs.size) :
      Turn renews forgets loops gosubs (loops.truncate g.loops) (gosubs.truncate n)
  | emptied (hrenews : renews) (loops' : Stack ForLoop) (gosubs' : Stack Gosub)
      (hloops : loops'.held = []) (hgosubs : gosubs'.held = []) :
      Turn renews forgets loops gosubs loops' gosubs'
  | forgotten (hforgets : forgets) : Turn renews forgets loops gosubs loops.clear gosubs

variable {E F : Prop} {G : Edit → Prop}

theorem Turn.kept (loops : Stack ForLoop) (gosubs : Stack Gosub) :
    Turn E F loops gosubs loops gosubs := by
  have hall : gosubs.truncate gosubs.size = gosubs := Stack.truncate_of_size_le (Nat.le_refl _)
  have h : Turn E F loops gosubs loops (gosubs.truncate gosubs.size) := .dropped _
  rwa [hall] at h

abbrev Module.Turns (renews forgets : Prop) (mod mod' : Module) : Prop :=
  Turn renews forgets mod.loops mod.gosubs mod'.loops mod'.gosubs

namespace Machine

theorem loops_setPc (m : Machine) (pc : ProgramCounter) (id : ModuleId) :
    ((m.setPc pc).moduleAt id).loops = (m.moduleAt id).loops := by
  rw [setPc, updateCodeModule, moduleAt_updateModule]
  split <;> rfl

theorem loops_enterCode (m : Machine) (id : ModuleId) :
    (m.enterCode.2.moduleAt id).loops = (m.moduleAt id).loops :=
  moduleAt_enterCode_of_keeps (fun _ => rfl) m id

theorem gosubs_enterCode (m : Machine) (id : ModuleId) :
    (m.enterCode.2.moduleAt id).gosubs = (m.moduleAt id).gosubs :=
  moduleAt_enterCode_of_keeps (fun _ => rfl) m id

theorem turns_updateModule {m : Machine} {id j : ModuleId} {f : Module → Module}
    (h : j = id → j < m.modules.length → (m.moduleAt j).Turns E F (f (m.moduleAt j))) :
    (m.moduleAt j).Turns E F ((m.updateModule id f).moduleAt j) := by
  rw [moduleAt_updateModule]
  split
  · rename_i hj
    exact h hj.1 hj.2
  · exact .kept _ _

theorem turns_endModule (m : Machine) (id : ModuleId) :
    (m.moduleAt id).Turns E F (m.endModule.moduleAt id) := by
  obtain ⟨hloops, n, hgosubs⟩ := m.moduleAt_endModule_calls id
  rw [Module.Turns, hloops, hgosubs]
  exact .dropped n

end Machine

theorem Landing.turns {m m₁ : Machine} {c : Option Fault} (h : Landing E m c m₁)
    (hm : m.WellScoped) (id : ModuleId) :
    (m.moduleAt id).Turns (E ∧ id = m.scopes.variableModule) F (m₁.moduleAt id) := by
  have hcode := h.codeModule hm
  rw [Module.Turns, ← m.loops_enterCode id, ← m.gosubs_enterCode id]
  cases h with
  | jump => exact .kept _ _
  | call =>
    apply Machine.turns_updateModule
    intro hid _
    subst hid
    exact .called m.callFrame rfl
  | start hE =>
    apply Machine.turns_updateModule
    intro hid _
    exact .emptied ⟨hE, hid.trans hcode⟩ _ _ rfl rfl

namespace Act

/-- Loops and calls of a module are emptied only in the variable scope. -/
theorem turns {m : Machine} {r : EStateM.Result Fault Machine Unit} (h : Act E F G m r)
    (hm : m.WellScoped) (id : ModuleId) :
    (m.moduleAt id).Turns (E ∧ id = m.scopes.variableModule) (F ∧ id = m.scopes.variableModule)
      ((machineAfter r).moduleAt id) := by
  cases h with
  | none => exact .kept _ _
  | named name =>
    have hcalm := Machine.Calm.ensured m name
    have hturn : (m.moduleAt id).Turns (E ∧ id = m.scopes.variableModule)
        (F ∧ id = m.scopes.variableModule) ((m.ensureModule name).2.moduleAt id) := by
      rw [Module.Turns, hcalm.loops, hcalm.gosubs]
      exact .kept _ _
    exact hturn
  | left => exact m.turns_endModule id
  | landed m₁ n hland =>
    rw [machineAfter_ok, Module.Turns, Machine.loops_setPc, Machine.gosubs_setPc]
    exact hland.turns hm id
  | missed m₁ f hland => exact hland.turns hm id
  | ended hE =>
    -- The stacks that were emptied stay empty when the module is left.
    have hland : Landing E m _ m.enterCode.2.restart := .start hE
    obtain ⟨hloops, n, hgosubs⟩ := m.enterCode.2.restart.moduleAt_endModule_calls id
    rw [machineAfter_ok, Module.Turns, hloops, hgosubs, Machine.restart, Machine.updateCodeModule,
      Machine.moduleAt_updateModule]
    split
    · rename_i hid
      rw [Stack.clear_truncate]
      exact .emptied ⟨hE, hid.1.trans (hland.codeModule hm)⟩ _ _ rfl rfl
    · rw [m.loops_enterCode, m.gosubs_enterCode]
      exact .dropped n
  | returned g htop =>
    apply Machine.turns_updateModule
    intro hid _
    subst hid
    rw [Module.Turns, Stack.pop_eq_truncate]
    exact .returned g _ htop (Stack.pred_size_lt htop)
  | returnedHome g htop =>
    obtain ⟨hloops, n, hgosubs⟩ := (m.popGosub g).moduleAt_endModule_calls id
    rw [machineAfter_ok, Module.Turns, hloops, hgosubs, Machine.popGosub, Machine.updateCodeModule,
      Machine.moduleAt_updateModule]
    split
    · rename_i hid
      obtain rfl := hid.1
      rw [Stack.pop_eq_truncate, Stack.truncate_truncate]
      have hlt := Stack.pred_size_lt htop
      exact .returned g _ htop (Nat.lt_of_le_of_lt (Nat.min_le_left _ _) hlt)
    · exact .dropped n
  | skipped offset =>
    rw [machineAfter_ok, Module.Turns, Machine.loops_setPc, Machine.gosubs_setPc]
    exact .kept _ _
  | looped l =>
    apply Machine.turns_updateModule
    intro _ _
    exact .looped l
  | loopRefused l f =>
    apply Machine.turns_updateModule
    intro _ _
    exact .looped l
  | repeated l =>
    rw [machineAfter_ok, Module.Turns, Machine.loops_setPc, Machine.gosubs_setPc]
    exact .kept _ _
  | revised f hf =>
    apply Machine.turns_updateModule
    intro hid hlt
    have hrevision := Revision.at hf hid hlt
    generalize f (m.moduleAt id) = mod' at hrevision
    cases hrevision with
    | forgotten hF => exact .forgotten ⟨hF, hid⟩
    | erased => exact .kept _ _
    | renumbered => exact .kept _ _
  | loaded hE =>
    apply Machine.turns_updateModule
    intro hid _
    exact .emptied ⟨hE, hid⟩ _ _ rfl rfl
  | renewed hE =>
    rw [machineAfter_ok, Module.Turns, Machine.loops_setPc, Machine.gosubs_setPc]
    apply Machine.turns_updateModule
    intro hid _
    exact .emptied ⟨hE, hid⟩ _ _ rfl rfl
  | quit code => exact .kept _ _

end Act

end LineBasic
