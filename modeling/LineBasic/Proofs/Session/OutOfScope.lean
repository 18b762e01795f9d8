import LineBasic.Proofs.Scopes
import LineBasic.Proofs.Session.Reachable

/-!
# Statements and the modules out of scope

A statement may enter a module, leave one, or do both, so that "the running module" is another one
before and after. Still it is always one of the two that were in scope when the statement began: the
code can only follow into the module that was named, and leaving stops the code that was running.
-/

set_option autoImplicit false

namespace LineBasic

namespace Machine

variable {a b : ModuleId}

theorem Spares.codeModule {m : Machine} (h : m.scopes.codeModule = a ∨ m.scopes.codeModule = b)
    (f : Module → Module) : m.Spares a b (m.updateCodeModule f) :=
  .module m h f

/-- Entering code touches the module that was named. -/
theorem spares_enterCode (m : Machine) :
    m.Spares m.scopes.codeModule m.scopes.variableModule m.enterCode.2 := by
  cases h : m.scopes.inLockstep with
  | true =>
    rw [enterCode_of_inLockstep h]
    exact .refl _ _ m
  | false =>
    rw [enterCode_of_ahead h]
    have hscopes : m.Spares m.scopes.codeModule m.scopes.variableModule
        { m with scopes := m.scopes.enterCode.2 } := .of_eq rfl
    exact hscopes.trans (.module _ (.inr rfl) _)

theorem codeModule_enterCode (m : Machine) :
    m.enterCode.2.scopes.codeModule = m.scopes.codeModule ∨
      m.enterCode.2.scopes.codeModule = m.scopes.variableModule := by
  rw [scopes_enterCode, Scopes.codeModule, Scopes.codeStack_enterCode]
  split
  · exact .inl rfl
  · exact .inr rfl

theorem spares_endModule {m : Machine}
    (hcode : m.scopes.codeModule = a ∨ m.scopes.codeModule = b) : m.Spares a b m.endModule := by
  have hscopes : m.Spares a b { m with scopes := m.scopes.leave.2 } := .of_eq rfl
  cases h : m.scopes.inLockstep with
  | true =>
    rw [endModule_of_inLockstep h]
    exact hscopes.trans (.module _ hcode _)
  | false =>
    rw [endModule_of_ahead h]
    exact hscopes

end Machine

section

variable {E F : Prop} {G : Edit → Prop} {m : Machine}

theorem Landing.runs_in_scope {m₁ : Machine} {c : Option Fault} (h : Landing E m c m₁) :
    m₁.scopes.codeModule = m.scopes.codeModule ∨
      m₁.scopes.codeModule = m.scopes.variableModule := by
  cases h <;> exact m.codeModule_enterCode

theorem Landing.spares {m₁ : Machine} {c : Option Fault} (h : Landing E m c m₁) :
    m.Spares m.scopes.codeModule m.scopes.variableModule m₁ := by
  have hcode := m.codeModule_enterCode
  cases h with
  | jump => exact m.spares_enterCode
  | call => exact m.spares_enterCode.trans (.codeModule hcode _)
  | start => exact m.spares_enterCode.trans (.codeModule hcode _)

/-- Whatever an act does, it does to the two modules in scope. -/
theorem Act.spares {r : EStateM.Result Fault Machine Unit} (h : Act E F G m r) :
    m.Spares m.scopes.codeModule m.scopes.variableModule (machineAfter r) := by
  have ofCode (f : Module → Module) :
      m.Spares m.scopes.codeModule m.scopes.variableModule (m.updateCodeModule f) :=
    .codeModule (.inl rfl) f
  have ofVariables (f : Module → Module) :
      m.Spares m.scopes.codeModule m.scopes.variableModule (m.updateVariableModule f) :=
    .module m (.inr rfl) f
  cases h with
  | none => exact .refl _ _ m
  | named name => exact (Machine.Spares.ensured m name).trans (.of_eq rfl)
  | left => exact Machine.spares_endModule (.inl rfl)
  | landed m₁ n hland => exact hland.spares.trans (.codeModule hland.runs_in_scope _)
  | missed m₁ f hland => exact hland.spares
  | ended hE =>
    have hland : Landing E m _ m.enterCode.2.restart := .start hE
    exact hland.spares.trans (Machine.spares_endModule hland.runs_in_scope)
  | returned g => exact ofCode _
  | returnedHome g => exact (ofCode _).trans (Machine.spares_endModule (.inl rfl))
  | skipped offset => exact ofCode _
  | looped l => exact ofCode _
  | loopRefused l f => exact ofCode _
  | repeated l => exact ofCode _
  | revised f => exact ofVariables f
  | loaded _ _ text listing name => exact ofVariables _
  | renewed =>
    have hcleared := ofVariables Module.cleared
    exact hcleared.trans (.module _ (.inl rfl) _)
  | quit code => exact .of_eq rfl

end

namespace Statement

theorem spares_run (tokens : List Token) (m : Machine) :
    m.Spares m.scopes.codeModule m.scopes.variableModule ((run tokens).final m) := by
  change m.Spares m.scopes.codeModule m.scopes.variableModule (machineAfter (run tokens m))
  obtain ⟨m₁, hquiet, ⟨f, hf, -⟩ | hact⟩ := acts_run tokens m
  · rw [hf]
    exact hquiet.spares
  · have hspares := hact.spares
    rw [hquiet.scopes] at hspares
    exact hquiet.spares.trans hspares

/-- A statement, whether it succeeds or fails and wherever it goes, changes of a module that is
neither the running one nor the one in the variable scope nothing but its variables: its lines,
functions, loops, calls, program counter, place in the data and switches stay. -/
theorem run_changes_only_modules_in_scope (tokens : List Token) (m : Machine) (id : ModuleId)
    (mod : Module) (hmod : m.modules[id]? = some mod) (hcode : id ≠ m.scopes.codeModule)
    (hvariables : id ≠ m.scopes.variableModule) :
    ∃ vars, ((run tokens).final m).modules[id]? = some { mod with vars } := by
  obtain ⟨hid, -⟩ := List.getElem?_eq_some_iff.1 hmod
  have hspares := spares_run tokens m
  have hsame := hspares.same id hid hcode hvariables
  rw [Machine.moduleAt_of_getElem? hmod] at hsame
  refine ⟨(((run tokens).final m).moduleAt id).vars, ?_⟩
  have hget := List.getElem?_eq_getElem (Nat.lt_of_lt_of_le hid hspares.length_le)
  rw [hget, ← Machine.moduleAt_of_getElem? hget, ← hsame]

def stoppedElsewhere : Machine :=
  Session.enterAll 9 ["MODULE A", "10 DATA 5: READ V: FOR I=1 TO 3: GOSUB 20", "20 STOP", "RUN",
    "MODULE B", "10 RETURN"] {}

def callElsewhere : List Token :=
  [.word .IF, .qualifier "A", .ident "V", .operator .equal, .integer "5", .word .THEN,
    .word .GOSUB, .integer "10"]

set_option maxRecDepth 100000 in
/-- The call enters module `B`, and the stopped module keeps its loop, its call and its places. -/
theorem run_changes_only_modules_in_scope_at_call :
    stoppedElsewhere.scopes = ⟨[2, 0], [0]⟩ ∧
      ((run callElsewhere).final stoppedElsewhere).scopes = ⟨[2, 0], [2, 0]⟩ ∧
      ∃ mod vars, stoppedElsewhere.modules[1]? = some mod ∧ mod.loops.size = 1 ∧
        mod.gosubs.size = 1 ∧ mod.pc = ⟨some 20, 4⟩ ∧ mod.data = ⟨some 10, 1⟩ ∧
        ((run callElsewhere).final stoppedElsewhere).modules[1]? = some { mod with vars } := by
  obtain ⟨hscopes, hentered, hlength, hloops, hgosubs, hpc, hdata⟩ :
      stoppedElsewhere.scopes = ⟨[2, 0], [0]⟩ ∧
      ((run callElsewhere).final stoppedElsewhere).scopes = ⟨[2, 0], [2, 0]⟩ ∧
      1 < stoppedElsewhere.modules.length ∧
      (stoppedElsewhere.moduleAt 1).loops.size = 1 ∧
      (stoppedElsewhere.moduleAt 1).gosubs.size = 1 ∧
      (stoppedElsewhere.moduleAt 1).pc = ⟨some 20, 4⟩ ∧
      (stoppedElsewhere.moduleAt 1).data = ⟨some 10, 1⟩ := by
    decide +kernel
  have hget := List.getElem?_eq_getElem hlength
  rw [← Machine.moduleAt_of_getElem? hget] at hget
  obtain ⟨vars, hvars⟩ := run_changes_only_modules_in_scope callElsewhere stoppedElsewhere 1 _ hget
    (by rw [hscopes]; decide) (by rw [hscopes]; decide)
  exact ⟨hscopes, hentered, stoppedElsewhere.moduleAt 1, vars, hget, hloops, hgosubs, hpc, hdata,
    hvars⟩

end Statement

end LineBasic
