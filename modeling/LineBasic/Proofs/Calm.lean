import LineBasic.Proofs.Evaluation
import LineBasic.Proofs.Spares

/-!
# Calm runs

Most of what a statement does is calm: it computes, prints, and fills variables, and leaves alone
where programs stand. A calm change keeps the scopes, and of every module its lines, the loops and
calls under way, the program counter, the place in its data, and the arrays with their bounds. A
calm run makes calm changes only, and of modules out of scope it changes variables only. Reading is
calm but for the place in the data of the module that is running.
-/

set_option autoImplicit false

namespace LineBasic

structure Course where
  listing : Listing
  loops : Stack ForLoop
  gosubs : Stack Gosub
  pc : ProgramCounter

namespace Module

def course (mod : Module) : Course := ⟨mod.listing, mod.loops, mod.gosubs, mod.pc⟩

structure Calm (mod mod' : Module) : Prop where
  name : mod'.name = mod.name
  course : mod'.course = mod.course
  sound : mod.Sound → mod'.Sound
  arrays : mod.vars.KeepsArrays mod'.vars
  data : mod'.data = mod.data

namespace Calm

variable {mod mod' : Module}

theorem of_eq (hname : mod'.name = mod.name) (hcourse : mod'.course = mod.course)
    (hvars : mod'.vars = mod.vars) (hdata : mod'.data = mod.data) : mod.Calm mod' where
  name := hname
  course := hcourse
  sound h := by
    have hloops : mod'.loops = mod.loops := congrArg Course.loops hcourse
    rw [Sound, hvars, hloops, hdata]
    exact h
  arrays := .of_eq (by rw [hvars])
  data := hdata

theorem vars {vars : Variables} (hsound : mod.vars.WellKinded → vars.WellKinded)
    (harrays : mod.vars.KeepsArrays vars) : mod.Calm { mod with vars } where
  name := rfl
  course := rfl
  sound h := ⟨hsound h.vars, h.loops, h.data⟩
  arrays := harrays
  data := rfl

end Calm

end Module

namespace Machine

/-- A series of changes that leaves programs where they stand. If it reads, the running module may
go on elsewhere in its data. -/
structure CalmBut (reads : Prop) (m m' : Machine) : Prop where
  changes : Changes m m'
  scopes : m'.scopes = m.scopes
  exitCode : m'.exitCode = m.exitCode
  course : ∀ id, (m'.moduleAt id).course = (m.moduleAt id).course
  arrays : ∀ id, (m.moduleAt id).vars.KeepsArrays (m'.moduleAt id).vars
  data : ∀ id, (reads → id ≠ m.scopes.codeModule) → (m'.moduleAt id).data = (m.moduleAt id).data
  spares : m.Spares m.scopes.codeModule m.scopes.variableModule m'

abbrev Calm : Machine → Machine → Prop := CalmBut False

namespace CalmBut

variable {reads : Prop} {m m₁ m₂ : Machine}

theorem refl (m : Machine) : m.CalmBut reads m :=
  ⟨.refl, rfl, rfl, fun _ => rfl, fun _ => .refl _, fun _ _ => rfl, .refl _ _ m⟩

theorem trans (h : m.CalmBut reads m₁) (h' : m₁.CalmBut reads m₂) : m.CalmBut reads m₂ where
  changes := h.changes.trans h'.changes
  scopes := h'.scopes.trans h.scopes
  exitCode := h'.exitCode.trans h.exitCode
  course id := (h'.course id).trans (h.course id)
  arrays id := (h.arrays id).trans (h'.arrays id)
  data id hid := (h'.data id (by rw [h.scopes]; exact hid)).trans (h.data id hid)
  spares := h.spares.trans (h.scopes ▸ h'.spares)

theorem mono {reads' : Prop} (h : m.CalmBut reads m₁) (hreads : reads → reads') :
    m.CalmBut reads' m₁ :=
  { h with data := fun id hid => h.data id fun hr => hid (hreads hr) }

theorem of_eq (hmodules : m₁.modules = m.modules) (hscopes : m₁.scopes = m.scopes)
    (hregistry : m₁.registry = m.registry) (hoptions : m₁.options = m.options)
    (hexit : m₁.exitCode = m.exitCode) : m.CalmBut reads m₁ where
  changes := .single (.of_eq hmodules hscopes hregistry hoptions)
  scopes := hscopes
  exitCode := hexit
  course id := by rw [moduleAt, moduleAt, hmodules]
  arrays id := by rw [moduleAt, moduleAt, hmodules]; exact .refl _
  data id _ := by rw [moduleAt, moduleAt, hmodules]
  spares := .of_eq hmodules

theorem registry (h : m.CalmBut reads m₁) : m₁.registry = m.registry := h.changes.registry

theorem loops (h : m.CalmBut reads m₁) (id : ModuleId) :
    (m₁.moduleAt id).loops = (m.moduleAt id).loops := congrArg Course.loops (h.course id)

theorem gosubs (h : m.CalmBut reads m₁) (id : ModuleId) :
    (m₁.moduleAt id).gosubs = (m.moduleAt id).gosubs := congrArg Course.gosubs (h.course id)

theorem pc (h : m.CalmBut reads m₁) (id : ModuleId) :
    (m₁.moduleAt id).pc = (m.moduleAt id).pc :=
  congrArg Course.pc (h.course id)

theorem moveData (m : Machine) {data : DataCursor}
    (h : data.line = m.codeModule.data.line ∨ ∀ n, data.line = some n → 0 ≤ n) :
    m.CalmBut True (m.updateCodeModule fun mod => { mod with data }) where
  changes := .single (.module m _ _ fun mod hmod => by
    rw [codeModule, moduleAt_of_getElem? hmod] at h
    refine .state rfl rfl fun hsound => ⟨hsound.vars, hsound.loops, fun n hn => ?_⟩
    rcases h with h | h
    · exact hsound.data n (h ▸ hn)
    · exact h n hn)
  scopes := rfl
  exitCode := rfl
  course id := by
    rw [updateCodeModule, moduleAt_updateModule]
    split <;> rfl
  arrays id := by
    rw [updateCodeModule, moduleAt_updateModule]
    split <;> exact .refl _
  data id hid := by
    rw [updateCodeModule, moduleAt_updateModule, if_neg fun h => hid trivial h.1]
  spares := .module m (.inl rfl) _

end CalmBut

namespace Calm

theorem trans {reads : Prop} {m m₁ m₂ : Machine} (h : m.Calm m₁) (h' : m₁.CalmBut reads m₂) :
    m.CalmBut reads m₂ :=
  CalmBut.trans (h.mono False.elim) h'

theorem module (m : Machine) (id : ModuleId) {f : Module → Module}
    (hf : (m.moduleAt id).Calm (f (m.moduleAt id)))
    (hspares : m.Spares m.scopes.codeModule m.scopes.variableModule (m.updateModule id f)) :
    m.Calm (m.updateModule id f) where
  changes := .single (.module m id f fun mod hmod => by
    rw [moduleAt_of_getElem? hmod] at hf
    exact .state hf.name (congrArg Course.listing hf.course) hf.sound)
  scopes := rfl
  exitCode := rfl
  course j := by
    rw [moduleAt_updateModule]
    split
    · rename_i hj
      rw [hj.1]
      exact hf.course
    · rfl
  arrays j := by
    rw [moduleAt_updateModule]
    split
    · rename_i hj
      rw [hj.1]
      exact hf.arrays
    · exact .refl _
  data j _ := by
    rw [moduleAt_updateModule]
    split
    · rename_i hj
      rw [hj.1]
      exact hf.data
    · rfl
  spares := hspares

theorem ensured (m : Machine) (name : String) : m.Calm (m.ensureModule name).2 where
  changes := .single (.ensured m name)
  scopes := by rw [ensureModule]; split <;> rfl
  exitCode := by rw [ensureModule]; split <;> rfl
  course id := by
    rw [moduleAt_ensureModule_but_name]
    rfl
  arrays id := by
    rw [moduleAt_ensureModule_but_name]
    exact .refl _
  data id _ := by rw [moduleAt_ensureModule_but_name]
  spares := .ensured m name

theorem print (m : Machine) (text : String) : m.Calm (m.print text) := by
  rw [Machine.print]
  split
  · split <;> exact .of_eq rfl rfl rfl rfl rfl
  · exact .of_eq rfl rfl rfl rfl rfl

end Calm

theorem Evaluated.calm {m m' : Machine} (h : m.Evaluated m') : m.Calm m' where
  changes := h.changes
  scopes := by rw [h.rest]
  exitCode := by rw [h.rest]
  course id := by rw [(h.modules id).1]; rfl
  arrays id := .of_eq (h.modules id).2.arrays
  data id _ := by rw [(h.modules id).1]
  spares := ⟨Nat.le_of_eq h.count.symm, fun id _ _ _ => (h.modules id).1⟩

end Machine

def Effect.calmBut (reads : Prop) : Effect where
  Leads := Machine.CalmBut reads
  refl := .refl
  trans := .trans
  registry := Machine.CalmBut.registry

abbrev Effect.calm : Effect := .calmBut False

theorem Effect.calm_le_calmBut (reads : Prop) : Effect.calm ≤ .calmBut reads :=
  fun _ _ h => h.mono False.elim

theorem Effect.evaluation_le_calm : Effect.evaluation ≤ .calm := fun _ _ h => h.calm

namespace Run

variable {α β : Type}

abbrev CalmAt (m : Machine) (x : Run α) : Prop := ObeysAt .calm m x

abbrev Calm (x : Run α) : Prop := Obeys .calm x

theorem ObeysAt.calm {m : Machine} {x : Run α} (h : CalmAt m x) : m.Calm (x.final m) := h.leads

theorem Obeys.toCalm {x : Run α} (h : Obeys .evaluation x) : Calm x :=
  h.mono Effect.evaluation_le_calm

theorem calm_modify {f : Machine → Machine} (hf : ∀ m : Machine, m.Calm (f m)) :
    Calm (modify f : Run Unit) :=
  fun m => obeysAt_modify (hf m)

theorem calm_world {f : Machine → Machine}
    (h : ∀ m, (f m).modules = m.modules ∧ (f m).scopes = m.scopes ∧ (f m).registry = m.registry ∧
      (f m).options = m.options ∧ (f m).exitCode = m.exitCode) : Calm (modify f : Run Unit) :=
  calm_modify fun m => .of_eq (h m).1 (h m).2.1 (h m).2.2.1 (h m).2.2.2.1 (h m).2.2.2.2

abbrev Reading (x : Run α) : Prop := Obeys (.calmBut True) x

theorem Obeys.reading {x : Run α} (h : Calm x) : Reading x := h.mono (Effect.calm_le_calmBut True)

theorem calmAt_updateVars {m : Machine} {id : ModuleId} {vars : Variables}
    (hkinds : (m.moduleAt id).vars.WellKinded → vars.WellKinded)
    (harrays : (m.moduleAt id).vars.KeepsArrays vars) :
    CalmAt m (updateModule id fun mod => { mod with vars }) :=
  obeysAt_modify (Machine.Calm.module m id (.vars hkinds harrays) (.vars m id rfl))

theorem calm_updateVariableModule {f : Module → Module} (hf : ∀ mod : Module, mod.Calm (f mod)) :
    Calm (updateVariableModule f) :=
  calm_modify fun m => .module m _ (hf _) (.module m (.inr rfl) f)

theorem calmAt_updateCodeModule {m : Machine} {f : Module → Module}
    (hf : m.codeModule.Calm (f m.codeModule)) : CalmAt m (updateCodeModule f) :=
  obeysAt_modify (Machine.Calm.module m _ hf (.module m (.inl rfl) f))

theorem calm_updateCodeModule {f : Module → Module} (hf : ∀ mod : Module, mod.Calm (f mod)) :
    Calm (updateCodeModule f) :=
  fun _ => calmAt_updateCodeModule (hf _)

theorem calm_print (text : String) : Calm (print text) := calm_modify fun m => .print m text

theorem calm_ensureModule (name : String) : Calm (ensureModule name) :=
  fun m => obeysAt_of_ok rfl (Machine.Calm.ensured m name)

theorem calm_readLine : Calm readLine := by
  refine obeys_get.bind fun m => ?_
  have hanswer := m.host.ordinary_readLine
  rcases hread : m.host.readLine with ⟨answer, host⟩
  rw [hread] at hanswer
  refine (calm_world (by simp)).bind fun _ => (obeys_liftM hanswer).bind fun line => ?_
  exact (calm_world (by simp)).bind fun _ => obeys_pure line

theorem calm_checkBreak : Calm checkBreak := by
  refine obeys_get.bind fun m => ?_
  rcases m.host.poll with ⟨pressed, host⟩
  refine (calm_world (by simp)).bind fun _ => ?_
  split
  · exact obeys_throw (by decide)
  · exact obeys_pure _

theorem calm_printLines (lines : List String) : Calm (printLines lines) := by
  induction lines with
  | nil => exact obeys_pure ()
  | cons line more ih => exact calm_checkBreak.bind fun _ => (calm_print _).bind fun _ => ih

end Run

end LineBasic
