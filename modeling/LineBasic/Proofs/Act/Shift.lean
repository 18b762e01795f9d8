import LineBasic.Proofs.WellScoped

/-!
# How acts move between modules

An act keeps the code stack, enters the module that is in the variable scope, or leaves the module
on top. Program counters of other modules stay as they are, unless one is taken back to its start.
-/

set_option autoImplicit false

namespace LineBasic

inductive Shift (renews : Prop) (m m' : Machine) : Prop
  | kept (hstack : m'.scopes.codeStack = m.scopes.codeStack)
      (hpc : ∀ id, id ≠ m.scopes.codeModule → (renews → id ≠ m.scopes.variableModule) →
        (m'.moduleAt id).pc = (m.moduleAt id).pc)
  | pushed (hahead : m.scopes.inLockstep = false)
      (hstack : m'.scopes.codeStack = m.scopes.variableModule :: m.scopes.codeStack)
      (hpc : ∀ id, id ≠ m.scopes.variableModule → (m'.moduleAt id).pc = (m.moduleAt id).pc)
  | popped (hlevel : m.scopes.inLockstep = true)
      (hstack : m'.scopes.codeStack = Scopes.popKeeping m.scopes.codeStack)
      (hend : (m'.moduleAt m.scopes.codeModule).pc = .atEnd)
      (hpc : ∀ id, id ≠ m.scopes.codeModule → (m'.moduleAt id).pc = (m.moduleAt id).pc)

variable {E F : Prop} {G : Edit → Prop}

theorem Shift.of_eq {m m₁ m₂ : Machine} (h : Shift E m m₁) (hscopes : m₂.scopes = m₁.scopes)
    (hmodules : m₂.modules = m₁.modules) : Shift E m m₂ := by
  have hat (id : ModuleId) : m₂.moduleAt id = m₁.moduleAt id := by
    rw [Machine.moduleAt, Machine.moduleAt, hmodules]
  cases h with
  | kept hstack hpc =>
    exact .kept (hscopes ▸ hstack) fun id hcode hid => by rw [hat, hpc id hcode hid]
  | pushed hahead hstack hpc =>
    exact .pushed hahead (hscopes ▸ hstack) fun id hid => by rw [hat, hpc id hid]
  | popped hlevel hstack hend hpc =>
    refine .popped hlevel (hscopes ▸ hstack) (by rw [hat, hend]) fun id hid => ?_
    rw [hat, hpc id hid]

/-- Leaving the running module after changes of nothing but its state. -/
theorem Shift.endModule {m m₁ : Machine} (hm₁ : m₁.WellScoped) (hscopes : m₁.scopes = m.scopes)
    (hpc : ∀ id, id ≠ m.scopes.codeModule → (m₁.moduleAt id).pc = (m.moduleAt id).pc) :
    Shift E m m₁.endModule := by
  have hstack : m₁.endModule.scopes.codeStack = m.scopes.leave.2.codeStack := by
    rw [Machine.scopes_endModule, hscopes]
  have hother (id : ModuleId) (hid : id ≠ m.scopes.codeModule) :
      (m₁.endModule.moduleAt id).pc = (m.moduleAt id).pc := by
    rw [Machine.pc_endModule, hscopes, if_neg fun h => hid h.2.1, hpc id hid]
  rw [Scopes.codeStack_leave] at hstack
  cases hlevel : m.scopes.inLockstep with
  | true =>
    rw [hlevel, if_pos rfl] at hstack
    refine .popped hlevel hstack ?_ hother
    have hlt := hm₁.codeModule_lt
    rw [hscopes] at hlt
    rw [Machine.pc_endModule, hscopes, if_pos ⟨hlevel, rfl, hlt⟩]
  | false =>
    rw [hlevel, if_neg (by simp)] at hstack
    exact .kept hstack fun id hid _ => hother id hid

namespace Landing

variable {m m₁ : Machine} {c : Option Fault}

theorem scopes (h : Landing E m c m₁) : m₁.scopes = m.scopes.enterCode.2 := by
  cases h <;> exact Machine.scopes_enterCode m

theorem pc (h : Landing E m c m₁) (id : ModuleId) :
    (m₁.moduleAt id).pc = (m.enterCode.2.moduleAt id).pc := by
  cases h with
  | jump => rfl
  | call =>
    rw [Machine.pushGosub, Machine.updateCodeModule, Machine.moduleAt_updateModule]
    split <;> rfl
  | start =>
    rw [Machine.restart, Machine.updateCodeModule, Machine.moduleAt_updateModule]
    split <;> rfl

theorem listing (h : Landing E m c m₁) (id : ModuleId) :
    (m₁.moduleAt id).listing = (m.moduleAt id).listing := by
  cases h with
  | jump => exact Machine.listing_enterCode m id
  | call =>
    rw [← Machine.listing_enterCode m id]
    exact Machine.moduleAt_updateModule_of_keeps (fun mod => by rfl) _ _ id
  | start =>
    rw [← Machine.listing_enterCode m id]
    exact Machine.moduleAt_updateModule_of_keeps (fun mod => by rfl) _ _ id

theorem codeModule (h : Landing E m c m₁) (hm : m.WellScoped) :
    m₁.scopes.codeModule = m.scopes.variableModule := by
  rw [h.scopes, Scopes.codeModule, Scopes.codeStack_enterCode]
  split
  · rename_i hlevel
    exact hm.paired.codeModule_of_inLockstep hlevel
  · rfl

theorem pc_of_ne (h : Landing E m c m₁) {id : ModuleId} (hid : id ≠ m.scopes.variableModule) :
    (m₁.moduleAt id).pc = (m.moduleAt id).pc := by
  rw [h.pc, Machine.pc_enterCode, if_neg fun h => hid h.2.1]

/-- Landing enters a module, or stays in the one that runs. -/
theorem shift (h : Landing E m c m₁) (hm : m.WellScoped) {m' : Machine}
    (hscopes : m'.scopes = m₁.scopes)
    (hpc : ∀ id, id ≠ m.scopes.variableModule → (m'.moduleAt id).pc = (m₁.moduleAt id).pc) :
    Shift E m m' := by
  have hstack : m'.scopes.codeStack = m.scopes.enterCode.2.codeStack := by rw [hscopes, h.scopes]
  rw [Scopes.codeStack_enterCode] at hstack
  cases hlevel : m.scopes.inLockstep with
  | true =>
    rw [hlevel, if_pos rfl] at hstack
    refine .kept hstack fun id hid _ => ?_
    rw [hm.paired.codeModule_of_inLockstep hlevel] at hid
    exact (hpc id hid).trans (h.pc_of_ne hid)
  | false =>
    rw [hlevel, if_neg (by simp)] at hstack
    exact .pushed hlevel hstack fun id hid => (hpc id hid).trans (h.pc_of_ne hid)

/-- Landing in a module that is left at once stays in the one that runs, or leaves it. -/
theorem shift_endModule (h : Landing E m c m₁) (hm : m.WellScoped) (hE : E) :
    Shift E m m₁.endModule := by
  have hm₁ := hm.landing h
  cases hlevel : m.scopes.inLockstep with
  | true =>
    have hcode := hm.paired.codeModule_of_inLockstep hlevel
    refine .endModule hm₁ ?_ fun id hid => h.pc_of_ne (hcode ▸ hid)
    rw [h.scopes, Scopes.enterCode, if_pos hlevel]
  | false =>
    have hlevel₁ : m₁.scopes.inLockstep = true := h.scopes ▸ hm.paired.inLockstep_enterCode
    refine .kept ?_ fun id _ hvariables => ?_
    · rw [Machine.scopes_endModule, Scopes.codeStack_leave, if_pos hlevel₁, h.scopes,
        Scopes.codeStack_enterCode, hlevel, if_neg (by simp),
        Scopes.popKeeping_cons hm.paired.codeStack_ne_nil]
    · have hid := hvariables hE
      have hne : id ≠ m₁.scopes.codeModule := by rwa [h.codeModule hm]
      rw [Machine.pc_endModule, if_neg fun h' => hne h'.2.1, h.pc_of_ne hid]

end Landing

namespace Act

theorem shift {m : Machine} {r : EStateM.Result Fault Machine Unit} (h : Act E F G m r)
    (hm : m.WellScoped) : Shift E m (machineAfter r) := by
  have ofCode (f : Module → Module) : Shift E m (m.updateCodeModule f) :=
    .kept rfl fun id hid _ => by
      rw [Machine.updateCodeModule, Machine.moduleAt_updateModule_of_ne hid]
  cases h with
  | none => exact .kept rfl fun _ _ _ => rfl
  | named name =>
    have hcalm := Machine.Calm.ensured m name
    refine .kept ?_ fun id _ _ => hcalm.pc id
    rw [← hcalm.scopes]
    exact Scopes.codeStack_enterVariables _ _
  | left => exact .endModule hm rfl fun _ _ => rfl
  | landed m₁ n hland =>
    refine hland.shift hm rfl fun id hid => ?_
    rw [machineAfter_ok, Machine.pc_setPc, if_neg fun h => hid (h.1.trans (hland.codeModule hm))]
  | missed m₁ f hland => exact hland.shift hm rfl fun _ _ => rfl
  | ended hE => exact (Landing.start hE).shift_endModule hm hE
  | returned g => exact ofCode _
  | returnedHome g =>
    refine .endModule (hm.popGosub g) rfl fun id hid => ?_
    rw [Machine.popGosub, Machine.updateCodeModule, Machine.moduleAt_updateModule_of_ne hid]
  | skipped offset => exact ofCode _
  | looped l => exact ofCode _
  | loopRefused l f => exact ofCode _
  | repeated l => exact ofCode _
  | revised f hf =>
    refine .kept rfl fun id _ _ => ?_
    exact Revision.rule (P := fun mod => mod.pc = (m.moduleAt id).pc) hf (fun _ => Revision.pc) rfl
  | loaded hE =>
    refine .kept rfl fun id _ hvariables => ?_
    rw [machineAfter_ok, Machine.updateVariableModule,
      Machine.moduleAt_updateModule_of_ne (hvariables hE)]
  | renewed hE =>
    refine .kept rfl fun id hcode hvariables => ?_
    rw [machineAfter_ok, Machine.pc_setPc, if_neg fun h => hcode h.1,
      Machine.updateVariableModule, Machine.moduleAt_updateModule_of_ne (hvariables hE)]
  | quit code => exact .kept rfl fun _ _ _ => rfl

end Act

end LineBasic
