import LineBasic.Proofs.Calm
import LineBasic.Statement

/-!
# Acts

A statement first computes, which is calm but for loops that end, and then acts on the course of
programs at most once. The acts are listed here, with the machine that each one leaves behind. What
a program can do step by step is read off this list.
-/

set_option autoImplicit false

namespace LineBasic

namespace Machine

theorem updateModule_congr {m : Machine} {id : ModuleId} {f g : Module → Module}
    (h : f (m.moduleAt id) = g (m.moduleAt id)) : m.updateModule id f = m.updateModule id g := by
  have hmodules : m.modules.modify id f = m.modules.modify id g := by
    apply List.ext_getElem?
    intro j
    rw [List.getElem?_modify, List.getElem?_modify]
    cases hj : m.modules[j]? with
    | none => rfl
    | some mod =>
      by_cases hid : id = j
      · subst hid
        rw [moduleAt_of_getElem? hj] at h
        simp [h]
      · simp [hid]
  rw [updateModule, hmodules]
  rfl

def setPc (m : Machine) (pc : ProgramCounter) : Machine :=
  m.updateCodeModule fun mod => { mod with pc }

theorem pc_setPc (m : Machine) (pc : ProgramCounter) (id : ModuleId) :
    ((m.setPc pc).moduleAt id).pc =
      if id = m.scopes.codeModule ∧ id < m.modules.length then pc else (m.moduleAt id).pc := by
  rw [setPc, updateCodeModule, moduleAt_updateModule]
  split <;> rfl

theorem listing_setPc (m : Machine) (pc : ProgramCounter) (id : ModuleId) :
    ((m.setPc pc).moduleAt id).listing = (m.moduleAt id).listing := by
  rw [setPc, updateCodeModule, moduleAt_updateModule]
  split <;> rfl

theorem gosubs_setPc (m : Machine) (pc : ProgramCounter) (id : ModuleId) :
    ((m.setPc pc).moduleAt id).gosubs = (m.moduleAt id).gosubs := by
  rw [setPc, updateCodeModule, moduleAt_updateModule]
  split <;> rfl

def pushLoop (m : Machine) (l : ForLoop) : Machine :=
  m.updateCodeModule fun mod => { mod with loops := mod.loops.push l }

def pushGosub (m : Machine) (g : Gosub) : Machine :=
  m.updateCodeModule fun mod => { mod with gosubs := mod.gosubs.push g }

def popGosub (m : Machine) (g : Gosub) : Machine :=
  m.updateCodeModule fun mod =>
    { mod with gosubs := mod.gosubs.pop.2, loops := mod.loops.truncate g.loops, pc := g.resume }

def restart (m : Machine) : Machine :=
  m.updateCodeModule fun mod =>
    { mod with loops := mod.loops.clear, gosubs := mod.gosubs.clear, data := {} }

def callFrame (m : Machine) : Gosub :=
  ⟨if m.enterCode.1 then .atEnd else m.codeModule.pc, m.enterCode.2.codeModule.loops.size⟩

def IsHome (m : Machine) (id : ModuleId) : Prop :=
  id < m.modules.length ∨ id = m.scopes.variableModule

theorem CalmBut.codeLoops {reads : Prop} {m m' : Machine} (h : m.CalmBut reads m') :
    m'.codeModule.loops = m.codeModule.loops := by
  rw [codeModule, codeModule, h.scopes, h.loops]

/-- A series of changes that leaves programs where they stand, but for loops that end. Loops below
the latest subroutine call stay. If it reads, the running module may go on elsewhere in its data.
Modules out of scope keep all but their variables. -/
structure QuietBut (reads : Prop) (m m' : Machine) : Prop where
  changes : Changes m m'
  scopes : m'.scopes = m.scopes
  exitCode : m'.exitCode = m.exitCode
  course : ∀ id, ∃ k, (m.moduleAt id).loopFloor ≤ k ∧ (m'.moduleAt id).course =
    { (m.moduleAt id).course with loops := (m.moduleAt id).loops.truncate k }
  data : ∀ id, (reads → id ≠ m.scopes.codeModule) → (m'.moduleAt id).data = (m.moduleAt id).data
  spares : m.Spares m.scopes.codeModule m.scopes.variableModule m'

abbrev Quiet : Machine → Machine → Prop := QuietBut True

theorem CalmBut.quietBut {reads : Prop} {m m' : Machine} (h : m.CalmBut reads m') :
    m.QuietBut reads m' where
  changes := h.changes
  scopes := h.scopes
  exitCode := h.exitCode
  course id := by
    refine ⟨(m.moduleAt id).loopFloor + (m.moduleAt id).loops.size, Nat.le_add_right _ _, ?_⟩
    rw [h.course id, Stack.truncate_of_size_le (Nat.le_add_left _ _)]
    rfl
  data := h.data
  spares := h.spares

namespace QuietBut

variable {reads : Prop} {m m₁ m₂ : Machine}

theorem refl (m : Machine) : m.QuietBut reads m := (CalmBut.refl m).quietBut

theorem registry (h : m.QuietBut reads m₁) : m₁.registry = m.registry := h.changes.registry

theorem listing (h : m.QuietBut reads m₁) (id : ModuleId) :
    (m₁.moduleAt id).listing = (m.moduleAt id).listing := by
  obtain ⟨k, -, hk⟩ := h.course id
  exact congrArg Course.listing hk

theorem gosubs (h : m.QuietBut reads m₁) (id : ModuleId) :
    (m₁.moduleAt id).gosubs = (m.moduleAt id).gosubs := by
  obtain ⟨k, -, hk⟩ := h.course id
  exact congrArg Course.gosubs hk

theorem pc (h : m.QuietBut reads m₁) (id : ModuleId) :
    (m₁.moduleAt id).pc = (m.moduleAt id).pc := by
  obtain ⟨k, -, hk⟩ := h.course id
  exact congrArg Course.pc hk

theorem loopFloor (h : m.QuietBut reads m₁) (id : ModuleId) :
    (m₁.moduleAt id).loopFloor = (m.moduleAt id).loopFloor := by
  rw [Module.loopFloor, Module.loopFloor, h.gosubs]

theorem loops (h : m.QuietBut reads m₁) (id : ModuleId) :
    ∃ k, (m.moduleAt id).loopFloor ≤ k ∧
      (m₁.moduleAt id).loops = (m.moduleAt id).loops.truncate k := by
  obtain ⟨k, hfloor, hk⟩ := h.course id
  exact ⟨k, hfloor, congrArg Course.loops hk⟩

theorem codeFloor (h : m.QuietBut reads m₁) :
    m₁.codeModule.loopFloor = m.codeModule.loopFloor := by
  rw [codeModule, codeModule, h.scopes, h.loopFloor]

theorem isHome (h : m.QuietBut reads m₁) {id : ModuleId} (hid : m.IsHome id) : m₁.IsHome id := by
  rcases hid with hid | hid
  · exact .inl (Nat.lt_of_lt_of_le hid h.changes.length_le)
  · exact .inr (by rw [h.scopes]; exact hid)

theorem trans (h : m.QuietBut reads m₁) (h' : m₁.QuietBut reads m₂) : m.QuietBut reads m₂ where
  changes := h.changes.trans h'.changes
  scopes := h'.scopes.trans h.scopes
  exitCode := h'.exitCode.trans h.exitCode
  course id := by
    obtain ⟨i, hi, hloops⟩ := h.loops id
    obtain ⟨j, hj, hcourse⟩ := h'.course id
    rw [h.loopFloor] at hj
    refine ⟨min i j, Nat.le_min.2 ⟨hi, hj⟩, ?_⟩
    rw [hcourse, hloops, Stack.truncate_truncate]
    simp only [Module.course, h.listing, h.gosubs, h.pc]
  data id hid := (h'.data id (by rw [h.scopes]; exact hid)).trans (h.data id hid)
  spares := h.spares.trans (h.scopes ▸ h'.spares)

theorem mono {reads' : Prop} (h : m.QuietBut reads m₁) (hreads : reads → reads') :
    m.QuietBut reads' m₁ :=
  { h with data := fun id hid => h.data id fun hr => hid (hreads hr) }

theorem quiet (h : m.QuietBut reads m₁) : m.Quiet m₁ := h.mono fun _ => trivial

theorem module (m : Machine) (id : ModuleId) {f : Module → Module} {k : Nat}
    (hfloor : (m.moduleAt id).loopFloor ≤ k)
    (hname : (f (m.moduleAt id)).name = (m.moduleAt id).name)
    (hcourse : (f (m.moduleAt id)).course =
      { (m.moduleAt id).course with loops := (m.moduleAt id).loops.truncate k })
    (hsound : (m.moduleAt id).Sound → (f (m.moduleAt id)).Sound)
    (hdata : (f (m.moduleAt id)).data = (m.moduleAt id).data)
    (hspares : m.Spares m.scopes.codeModule m.scopes.variableModule (m.updateModule id f)) :
    m.QuietBut reads (m.updateModule id f) where
  changes := .single (.module m id f fun mod hmod => by
    rw [moduleAt_of_getElem? hmod] at hname hcourse hsound
    exact .state hname (congrArg Course.listing hcourse) hsound)
  scopes := rfl
  exitCode := rfl
  course j := by
    rw [moduleAt_updateModule]
    split
    · rename_i hj
      rw [hj.1]
      exact ⟨k, hfloor, hcourse⟩
    · exact (refl m : m.Quiet m).course j
  data j _ := by
    rw [moduleAt_updateModule]
    split
    · rename_i hj
      rw [hj.1]
      exact hdata
    · rfl
  spares := hspares

theorem cutLoops (m : Machine) {f : Module → Module} {k : Nat}
    (hfloor : m.codeModule.loopFloor ≤ k)
    (hf : f m.codeModule = { m.codeModule with loops := m.codeModule.loops.truncate k }) :
    m.QuietBut reads (m.updateCodeModule f) := by
  refine .module m m.scopes.codeModule hfloor ?_ ?_ (fun hsound => ?_) ?_ (.module m (.inl rfl) f)
  · rw [← codeModule, hf]
  · rw [← codeModule, hf]
    rfl
  · have hcut := hsound.cut k
    rw [← codeModule, hf]
    exact hcut
  · rw [← codeModule, hf]

/-- New variables are quiet, whatever becomes of arrays. -/
theorem vars (m : Machine) (id : ModuleId) {vars : Variables}
    (h : (m.moduleAt id).vars.WellKinded → vars.WellKinded) :
    m.QuietBut reads (m.updateModule id fun mod => { mod with vars }) := by
  refine .module m id (Nat.le_add_right _ (m.moduleAt id).loops.size) rfl ?_
    (fun hsound => ⟨h hsound.vars, hsound.loops, hsound.data⟩) rfl (.vars m id rfl)
  rw [Stack.truncate_of_size_le (Nat.le_add_left _ _)]
  rfl

end QuietBut

theorem CalmBut.quiet {reads : Prop} {m m' : Machine} (h : m.CalmBut reads m') : m.Quiet m' :=
  h.quietBut.quiet

theorem Quiet.trans {reads : Prop} {m m₁ m₂ : Machine} (h : m.Quiet m₁)
    (h' : m₁.QuietBut reads m₂) : m.Quiet m₂ :=
  QuietBut.trans h h'.quiet

end Machine

def Effect.quietBut (reads : Prop) : Effect where
  Leads := Machine.QuietBut reads
  refl := .refl
  trans := .trans
  registry := Machine.QuietBut.registry

theorem Effect.calmBut_le_quietBut (reads : Prop) : Effect.calmBut reads ≤ .quietBut reads :=
  fun _ _ h => h.quietBut

/-- What a jump does before it goes to its line: it lets the code follow the variable scope, and a
call or a new run is noted in the module that is then running. A call is noted first, and then there
may be a fault to raise, since it was one too many. -/
inductive Landing (renews : Prop) (m : Machine) : Option Fault → Machine → Prop
  | jump : Landing renews m none m.enterCode.2
  | call : Landing renews m (m.enterCode.2.codeModule.gosubs.push m.callFrame).overflow?
      (m.enterCode.2.pushGosub m.callFrame)
  | start (hrenews : renews) : Landing renews m none m.enterCode.2.restart

/-- What can be done to the lines of a program: a range of them is taken away, they are renumbered,
or others take their place. -/
inductive Edit
  | erase
  | renumber
  | replace

inductive Revision (forgets : Prop) (edits : Edit → Prop) : Module → Module → Prop
  | forgotten (mod : Module) (hforgets : forgets) :
      Revision forgets edits mod { mod with vars := {}, loops := mod.loops.clear }
  | erased (mod : Module) (first last : LineNumber) (hedits : edits .erase) :
      Revision forgets edits mod { mod with listing := mod.listing.eraseRange first last }
  | renumbered (mod : Module) (r : RenumberRequest) (listing : Listing)
      (h : mod.listing.renumber r = .ok listing) (hedits : edits .renumber) :
      Revision forgets edits mod { mod with listing }

/-- The acts, with what they lead to. Some take a module back to its start, one forgets its loops,
and some edit its lines: they are only for statements that are meant to. -/
inductive Act (renews forgets : Prop) (edits : Edit → Prop) (m : Machine) :
    EStateM.Result Fault Machine Unit → Prop
  | none : Act renews forgets edits m (.ok () m)
  | named (name : String) :
      Act renews forgets edits m (.ok () { (m.ensureModule name).2 with
        scopes := (m.ensureModule name).2.scopes.enterVariables (m.ensureModule name).1 })
  | left : Act renews forgets edits m (.ok () m.endModule)
  | landed (m₁ : Machine) (n : LineNumber) (h : Landing renews m Option.none m₁) (hn : 0 ≤ n) :
      Act renews forgets edits m (.ok () (m₁.setPc (.atLine n)))
  | missed {c : Option Fault} (m₁ : Machine) (f : Fault) (h : Landing renews m c m₁)
      (hf : f.Ordinary) (hc : ∀ f', c = some f' → f' = f) :
      Act renews forgets edits m (.error f m₁)
  | ended (hrenews : renews) : Act renews forgets edits m (.ok () m.enterCode.2.restart.endModule)
  | returned (g : Gosub) (h : m.codeModule.gosubs.top? = some g) (hg : g.resume.isEnd = false) :
      Act renews forgets edits m (.ok () (m.popGosub g))
  | returnedHome (g : Gosub) (h : m.codeModule.gosubs.top? = some g)
      (hg : g.resume.isEnd = true) : Act renews forgets edits m (.ok () (m.popGosub g).endModule)
  | skipped (offset : Nat)
      (h : ∀ n text, m.codeModule.pc.line = some n → m.codeModule.listing.get? n = some text →
        offset = Text.byteLength text.toList) :
      Act renews forgets edits m (.ok () (m.setPc { m.codeModule.pc with offset }))
  | looped (l : ForLoop) (h : m.IsHome l.home) (hl : l.resume = m.codeModule.pc)
      (hk : Kind.ofName l.name ≠ .text) (hroom : (m.codeModule.loops.push l).overflow? = Option.none) :
      Act renews forgets edits m (.ok () (m.pushLoop l))
  | loopRefused (l : ForLoop) (f : Fault) (h : m.IsHome l.home) (hl : l.resume = m.codeModule.pc)
      (hk : Kind.ofName l.name ≠ .text) (hf : f.Ordinary)
      (hroom : (m.codeModule.loops.push l).overflow? = some f) :
      Act renews forgets edits m (.error f (m.pushLoop l))
  | repeated (l : ForLoop) (h : m.codeModule.loops.top? = some l) :
      Act renews forgets edits m (.ok () (m.setPc l.resume))
  | revised (f : Module → Module)
      (h : ∀ mod, m.modules[m.scopes.variableModule]? = some mod →
        Revision forgets edits mod (f mod)) :
      Act renews forgets edits m (.ok () (m.updateVariableModule f))
  | loaded (hrenews : renews) (hedits : edits .replace) (text : String) (listing : Listing)
      (name : String) (h : Listing.ofText text = .ok listing) :
      Act renews forgets edits m (.ok () (m.updateVariableModule fun mod =>
        { mod.cleared with listing, fileName := some name }))
  | renewed (hrenews : renews) (hedits : edits .replace) :
      Act renews forgets edits m (.ok () ((m.updateVariableModule Module.cleared).setPc .atEnd))
  | quit (code : Int32) : Act renews forgets edits m (.ok () { m with exitCode := some code })

theorem Landing.mono {E F : Prop} {m m₁ : Machine} {c : Option Fault} (h : Landing E m c m₁)
    (hEF : E → F) : Landing F m c m₁ := by
  cases h with
  | jump => exact .jump
  | call => exact .call
  | start hE => exact .start (hEF hE)

theorem Landing.changes {E : Prop} {m m₁ : Machine} {c : Option Fault} (h : Landing E m c m₁) :
    Changes m m₁ := by
  have hentered := Run.changes_enterCode m
  cases h with
  | jump => exact hentered
  | call => exact hentered.tail (.module _ _ _ fun _ _ => .state rfl rfl fun h => h)
  | start =>
    refine hentered.tail (.module _ _ _ fun mod _ => .state rfl rfl fun h => ?_)
    refine ⟨h.vars, fun _ hl => ?_, fun _ hn => ?_⟩
    · cases hl
    · cases hn

section

variable {E E' F F' : Prop} {G G' : Edit → Prop}

theorem Revision.mono {mod mod' : Module} (h : Revision F G mod mod') (hF : F → F')
    (hG : ∀ e, G e → G' e) : Revision F' G' mod mod' := by
  cases h with
  | forgotten h => exact .forgotten mod (hF h)
  | erased first last h => exact .erased mod first last (hG _ h)
  | renumbered r listing hok h => exact .renumbered mod r listing hok (hG _ h)

theorem Revision.at {m : Machine} {id j : ModuleId} {f : Module → Module}
    (h : ∀ mod, m.modules[j]? = some mod → Revision F G mod (f mod)) (hid : id = j)
    (hlt : id < m.modules.length) : Revision F G (m.moduleAt id) (f (m.moduleAt id)) := by
  have hget := List.getElem?_eq_getElem hlt
  rw [Machine.moduleAt_of_getElem? hget]
  exact h _ (hid ▸ hget)

/-- Where a module was revised, what is so of every revision of it and of the module itself is so. -/
theorem Revision.rule {m : Machine} {id j : ModuleId} {f : Module → Module} {P : Module → Prop}
    (h : ∀ mod, m.modules[j]? = some mod → Revision F G mod (f mod))
    (hrevised : ∀ mod', Revision F G (m.moduleAt id) mod' → P mod') (hkept : P (m.moduleAt id)) :
    P ((m.updateModule j f).moduleAt id) := by
  rw [Machine.moduleAt_updateModule]
  split
  · rename_i hid
    exact hrevised _ (Revision.at h hid.1 hid.2)
  · exact hkept

theorem Revision.pc {mod mod' : Module} (h : Revision F G mod mod') : mod'.pc = mod.pc := by
  cases h <;> rfl

theorem Revision.moduleChange {mod mod' : Module} (h : Revision F G mod mod') :
    ModuleChange mod mod' := by
  cases h with
  | forgotten =>
    refine .state rfl rfl fun h => ⟨.empty, fun _ hl => ?_, h.data⟩
    cases hl
  | erased first last => exact .erased mod first last
  | renumbered r listing h => exact .renumbered mod r listing h

def machineAfter {α : Type} : EStateM.Result Fault Machine α → Machine
  | .ok _ m => m
  | .error _ m => m

@[simp] theorem machineAfter_ok {α : Type} (a : α) (m : Machine) :
    machineAfter (.ok a m : EStateM.Result Fault Machine α) = m := rfl

@[simp] theorem machineAfter_error {α : Type} (f : Fault) (m : Machine) :
    machineAfter (.error f m : EStateM.Result Fault Machine α) = m := rfl

theorem Act.mono {m : Machine} {r : EStateM.Result Fault Machine Unit} (h : Act E F G m r)
    (hE : E → E') (hF : F → F') (hG : ∀ e, G e → G' e) : Act E' F' G' m r := by
  cases h with
  | none => exact .none
  | named name => exact .named name
  | left => exact .left
  | landed m₁ n h hn => exact .landed m₁ n (h.mono hE) hn
  | missed m₁ f h hf hc => exact .missed m₁ f (h.mono hE) hf hc
  | ended h => exact .ended (hE h)
  | returned g h hg => exact .returned g h hg
  | returnedHome g h hg => exact .returnedHome g h hg
  | skipped offset h => exact .skipped offset h
  | looped l h hl hk hroom => exact .looped l h hl hk hroom
  | loopRefused l f h hl hk hf hroom => exact .loopRefused l f h hl hk hf hroom
  | repeated l h => exact .repeated l h
  | revised f h => exact .revised f fun mod hmod => (h mod hmod).mono hF hG
  | loaded h hedits text listing name hok =>
    exact .loaded (hE h) (hG _ hedits) text listing name hok
  | renewed h hedits => exact .renewed (hE h) (hG _ hedits)
  | quit code => exact .quit code

theorem changes_setPc (m : Machine) (pc : ProgramCounter) : Changes m (m.setPc pc) :=
  .single (.module m _ _ fun _ _ => .state rfl rfl fun h => h)

theorem changes_pushLoop (m : Machine) {l : ForLoop} (hk : Kind.ofName l.name ≠ .text) :
    Changes m (m.pushLoop l) := by
  refine .single (.module m _ _ fun mod _ => .state rfl rfl fun h => ⟨h.vars, ?_, h.data⟩)
  exact List.forall_mem_cons.2 ⟨hk, h.loops⟩

theorem changes_popGosub (m : Machine) (g : Gosub) : Changes m (m.popGosub g) :=
  .single (.module m _ _ fun _ _ => .state rfl rfl fun h => h.cut g.loops)

theorem Act.changes {m : Machine} {r : EStateM.Result Fault Machine Unit}
    (h : Act E F G m r) : Changes m (machineAfter r) := by
  cases h with
  | none => exact .refl
  | named name => exact .tail (.single (.ensured m name)) (.scopes _ _)
  | left => exact Run.changes_endModule m
  | landed m₁ n h => exact h.changes.trans (changes_setPc _ _)
  | missed m₁ f h => exact h.changes
  | ended h => exact (Landing.start h).changes.trans (Run.changes_endModule _)
  | returned g => exact changes_popGosub m g
  | returnedHome g => exact (changes_popGosub m g).trans (Run.changes_endModule _)
  | skipped offset => exact changes_setPc m _
  | looped l _ _ hk => exact changes_pushLoop m hk
  | loopRefused l f _ _ hk => exact changes_pushLoop m hk
  | repeated l => exact changes_setPc m _
  | revised f h => exact .single (.module m _ f fun mod hmod => (h mod hmod).moduleChange)
  | loaded _ _ text listing name h =>
    exact .single (.module m _ _ fun mod _ => .loaded mod text listing name h)
  | renewed => exact .head (.module m _ _ fun mod _ => .cleared mod) (changes_setPc _ _)
  | quit code => exact .single (.of_eq rfl rfl rfl rfl)

end

namespace Run

variable {α β : Type} {P : Machine → EStateM.Result Fault Machine α → Prop} {reads : Prop}
  {m : Machine}

def QuietUntil (reads : Prop) (P : Machine → EStateM.Result Fault Machine α → Prop) (m : Machine)
    (x : Run α) : Prop :=
  ∃ m₁, m.QuietBut reads m₁ ∧
    ((∃ f, x m = .error f m₁ ∧ m.registry.Raises f) ∨ P m₁ (x m))

abbrev ActsAt (reads renews forgets : Prop) (edits : Edit → Prop) (m : Machine) (x : Run Unit) :
    Prop :=
  QuietUntil reads (Act renews forgets edits) m x

/-- A run that ends in an act, does not read, takes no module back to its start, forgets no loops
and edits no lines. -/
def Acts (x : Run Unit) : Prop := ∀ m, ActsAt False False False (fun _ => False) m x

theorem ActsAt.mono {D D' E E' F F' : Prop} {G G' : Edit → Prop} {x : Run Unit}
    (h : ActsAt D E F G m x) (hD : D → D') (hE : E → E') (hF : F → F') (hG : ∀ e, G e → G' e) :
    ActsAt D' E' F' G' m x := by
  obtain ⟨m₁, hquiet, hfault | hact⟩ := h
  · exact ⟨m₁, hquiet.mono hD, .inl hfault⟩
  · exact ⟨m₁, hquiet.mono hD, .inr (hact.mono hE hF hG)⟩

theorem Acts.actsAt {x : Run Unit} (h : Acts x) (D E F : Prop) (G : Edit → Prop) (m : Machine) :
    ActsAt D E F G m x :=
  (h m).mono False.elim False.elim False.elim fun _ => False.elim

theorem quietUntil_of {x : Run α} (h : P m (x m)) : QuietUntil reads P m x :=
  ⟨m, .refl m, .inr h⟩

theorem quietUntil_throw {f : Fault} (hf : f.Ordinary) : QuietUntil reads P m (throw f) :=
  ⟨m, .refl m, .inl ⟨f, rfl, .ordinary hf⟩⟩

theorem QuietUntil.of_get {f : Machine → Run α} (h : QuietUntil reads P m (f m)) :
    QuietUntil reads P m (get >>= f) := h

theorem QuietUntil.bind_quiet {x : Run β} {f : β → Run α} (hx : ObeysAt (.quietBut reads) m x)
    (hf : ∀ b m₁, x m = .ok b m₁ → m.QuietBut reads m₁ → QuietUntil reads P m₁ (f b)) :
    QuietUntil reads P m (x >>= f) := by
  have hm := hx.leads
  rw [final] at hm
  rw [QuietUntil]
  cases h : x m with
  | error e m₁ =>
    rw [h] at hm
    have hbind : (x >>= f) m = .error e m₁ := by rw [bind_apply, h]
    exact ⟨m₁, hm, .inl ⟨e, hbind, hx.raises e m₁ h⟩⟩
  | ok b m₁ =>
    rw [h] at hm
    have hbind : (x >>= f) m = f b m₁ := by rw [bind_apply, h]
    obtain ⟨m₂, hquiet, hend⟩ := hf b m₁ h hm
    rw [Machine.QuietBut.registry hm] at hend
    exact ⟨m₂, Machine.QuietBut.trans hm hquiet, by rw [hbind]; exact hend⟩

theorem QuietUntil.bind {x : Run β} {f : β → Run α} (hx : CalmAt m x)
    (hf : ∀ b m₁, x m = .ok b m₁ → m.Calm m₁ → QuietUntil reads P m₁ (f b)) :
    QuietUntil reads P m (x >>= f) := by
  have hquiet : ObeysAt (.quietBut reads) m x :=
    (hx.mono (Effect.calm_le_calmBut reads)).mono (Effect.calmBut_le_quietBut reads)
  exact .bind_quiet hquiet fun b m₁ hb _ => hf b m₁ hb (hx.ok hb)

/-- What comes after a quiet change is quiet as before. -/
theorem QuietUntil.after {m₁ : Machine} {x y : Run α} (h : m.QuietBut reads m₁) (hxy : x m = y m₁)
    (hy : QuietUntil reads P m₁ y) : QuietUntil reads P m x := by
  obtain ⟨m₂, hquiet, hend⟩ := hy
  rw [h.registry] at hend
  exact ⟨m₂, h.trans hquiet, by rw [hxy]; exact hend⟩

theorem QuietUntil.of_quiet {x : Run Unit} (h : ObeysAt (.quietBut reads) m x) (E F : Prop)
    (G : Edit → Prop) : ActsAt reads E F G m x := by
  rw [← bind_pure x]
  exact .bind_quiet h fun _ _ _ _ => quietUntil_of .none

theorem Acts.of_quiet {x : Run Unit} (h : Obeys (.quietBut False) x) : Acts x :=
  fun m => .of_quiet (h m) _ _ _

theorem Acts.of_calm {x : Run Unit} (h : Calm x) : Acts x :=
  .of_quiet (h.mono (Effect.calmBut_le_quietBut False))

theorem Acts.bind {x : Run β} {f : β → Run Unit} (hx : Calm x) (hf : ∀ b, Acts (f b)) :
    Acts (x >>= f) :=
  fun m => QuietUntil.bind (hx m) fun b m₁ _ _ => hf b m₁

theorem acts_throw {f : Fault} (hf : f.Ordinary) : Acts (throw f) := fun _ => quietUntil_throw hf

theorem acts_fail {kind : FaultKind} (h : kind ≠ .internal) (detail : String) :
    Acts (fail kind detail) :=
  acts_throw ⟨rfl, h⟩

theorem acts_pure : Acts (pure ()) := fun _ => quietUntil_of .none

theorem acts_endModule : Acts endModule := fun _ => quietUntil_of .left

end Run

end LineBasic
