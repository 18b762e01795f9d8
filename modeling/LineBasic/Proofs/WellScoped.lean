import LineBasic.Proofs.Act
import LineBasic.Proofs.Scopes

/-!
# Well-scoped machines

The scopes of a machine come from operations on scopes, and they name modules that are there. Loops
run over variables of such modules, and every module has a name of its own. Each act keeps that.
-/

set_option autoImplicit false

namespace LineBasic

namespace Machine

structure WellScoped (m : Machine) : Prop where
  reached : ∃ ops, m.scopes = Scopes.run ops
  known : ∀ id ∈ m.scopes.variableStack, id < m.modules.length
  homes : ∀ id, ∀ l ∈ (m.moduleAt id).loops.held, l.home < m.modules.length
  names : (m.modules.map (·.name)).Nodup

namespace WellScoped

variable {m m' : Machine}

theorem paired (h : m.WellScoped) : m.scopes.Paired := by
  obtain ⟨ops, hops⟩ := h.reached
  rw [hops]
  exact Scopes.paired_run ops

theorem known_code (h : m.WellScoped) {id : ModuleId} (hid : id ∈ m.scopes.codeStack) :
    id < m.modules.length := h.known id (h.paired.mem_variableStack hid)

theorem codeModule_lt (h : m.WellScoped) : m.scopes.codeModule < m.modules.length :=
  h.known_code h.paired.codeModule_mem

theorem variableModule_lt (h : m.WellScoped) : m.scopes.variableModule < m.modules.length :=
  h.known _ h.paired.variableModule_mem

theorem home_lt (h : m.WellScoped) {id : ModuleId} (hid : m.IsHome id) : id < m.modules.length := by
  rcases hid with hlt | rfl
  · exact hlt
  · exact h.variableModule_lt

theorem of_eq (h : m.WellScoped) (hmodules : m'.modules = m.modules)
    (hscopes : m'.scopes = m.scopes) : m'.WellScoped where
  reached := by rw [hscopes]; exact h.reached
  known := by rw [hscopes, hmodules]; exact h.known
  homes id := by rw [moduleAt, hmodules]; exact h.homes id
  names := by rw [hmodules]; exact h.names

theorem quiet {reads : Prop} (h : m.WellScoped) (hquiet : m.QuietBut reads m') :
    m'.WellScoped where
  reached := by rw [hquiet.scopes]; exact h.reached
  known id hid := by
    rw [hquiet.scopes] at hid
    exact Nat.lt_of_lt_of_le (h.known id hid) hquiet.changes.length_le
  homes id l hl := by
    obtain ⟨k, -, hk⟩ := hquiet.loops id
    rw [hk] at hl
    exact Nat.lt_of_lt_of_le (h.homes id l (List.mem_of_mem_drop hl)) hquiet.changes.length_le
  names := hquiet.changes.nodup_names h.names

theorem updateModule (h : m.WellScoped) (id : ModuleId) {f : Module → Module}
    (hf : ∀ mod, m.modules[id]? = some mod → (f mod).name = mod.name ∧
      ∀ l ∈ (f mod).loops.held, l ∈ mod.loops.held ∨ l.home < m.modules.length) :
    (m.updateModule id f).WellScoped where
  reached := h.reached
  known := by rw [length_updateModule]; exact h.known
  homes j l hl := by
    rw [length_updateModule]
    rw [moduleAt_updateModule] at hl
    split at hl
    · rename_i hj
      have hmod : m.modules[id]? = some (m.moduleAt j) := by
        have hget := List.getElem?_eq_getElem hj.2
        rw [← hj.1, hget, moduleAt_of_getElem? hget]
      rcases (hf _ hmod).2 l hl with hl | hl
      · exact h.homes j l hl
      · exact hl
    · exact h.homes j l hl
  names := by rw [names_updateModule fun mod hmod => (hf mod hmod).1]; exact h.names

theorem operate (h : m.WellScoped) (op : Scopes.Op)
    (hop : ∀ id, op = .enterVariables id → id < m.modules.length) :
    ({ m with scopes := m.scopes.apply op } : Machine).WellScoped where
  reached := by
    obtain ⟨ops, hops⟩ := h.reached
    exact ⟨ops ++ [op], by rw [Scopes.run_concat, hops]⟩
  known id hid := by
    rcases Scopes.mem_variableStack_apply hid with hid | hid
    · exact h.known id hid
    · exact hop id hid
  homes := h.homes
  names := h.names

theorem setPc (h : m.WellScoped) (pc : ProgramCounter) : (m.setPc pc).WellScoped :=
  h.updateModule _ fun _ _ => ⟨rfl, fun _ hl => .inl hl⟩

theorem enterCode (h : m.WellScoped) : m.enterCode.2.WellScoped := by
  cases hlevel : m.scopes.inLockstep with
  | true => rwa [enterCode_of_inLockstep hlevel]
  | false =>
    have hop := h.operate .enterCode (by simp)
    rw [enterCode_of_ahead hlevel]
    exact hop.updateModule _ fun _ _ => ⟨rfl, fun _ hl => .inl hl⟩

theorem endModule (h : m.WellScoped) : m.endModule.WellScoped := by
  have hop := h.operate .leave (by simp)
  cases hlevel : m.scopes.inLockstep with
  | true =>
    rw [endModule_of_inLockstep hlevel]
    exact hop.updateModule _ fun _ _ => ⟨rfl, fun _ hl => .inl hl⟩
  | false =>
    rw [endModule_of_ahead hlevel]
    exact hop

theorem ensureModule (h : m.WellScoped) (name : String) :
    (m.ensureModule name).2.WellScoped ∧
      (m.ensureModule name).1 < (m.ensureModule name).2.modules.length :=
  ⟨h.quiet (Calm.ensured m name).quiet, m.lt_length_ensureModule name⟩

theorem landing {E : Prop} {c : Option Fault} (h : m.WellScoped) (hland : Landing E m c m') :
    m'.WellScoped := by
  cases hland with
  | jump => exact h.enterCode
  | call => exact h.enterCode.updateModule _ fun _ _ => ⟨rfl, fun _ hl => .inl hl⟩
  | start => exact h.enterCode.updateModule _ fun _ _ => ⟨rfl, nofun⟩

theorem pushLoop (h : m.WellScoped) {l : ForLoop} (hl : m.IsHome l.home) :
    (m.pushLoop l).WellScoped := by
  refine h.updateModule _ fun mod _ => ⟨rfl, fun l' hl' => ?_⟩
  rcases List.mem_cons.1 hl' with rfl | hl'
  · exact .inr (h.home_lt hl)
  · exact .inl hl'

theorem popGosub (h : m.WellScoped) (g : Gosub) : (m.popGosub g).WellScoped :=
  h.updateModule _ fun _ _ => ⟨rfl, fun _ hl => .inl (List.mem_of_mem_drop hl)⟩

theorem revise {F : Prop} {G : Edit → Prop} (h : m.WellScoped) {id : ModuleId} {f : Module → Module}
    (hf : ∀ mod, m.modules[id]? = some mod → Revision F G mod (f mod)) :
    (m.updateModule id f).WellScoped := by
  refine h.updateModule id fun mod hmod => ?_
  have hrevision := hf mod hmod
  generalize f mod = mod' at hrevision
  cases hrevision with
  | forgotten => exact ⟨rfl, nofun⟩
  | erased first last => exact ⟨rfl, fun _ hl => .inl hl⟩
  | renumbered r listing => exact ⟨rfl, fun _ hl => .inl hl⟩

theorem act {E F : Prop} {G : Edit → Prop} (h : m.WellScoped)
    {r : EStateM.Result Fault Machine Unit} (hact : Act E F G m r) : (machineAfter r).WellScoped := by
  cases hact with
  | none => exact h
  | named name =>
    obtain ⟨hm, hid⟩ := h.ensureModule name
    exact hm.operate (.enterVariables _) (by rintro _ ⟨⟩; exact hid)
  | left => exact h.endModule
  | landed m₁ n hland => exact (h.landing hland).setPc _
  | missed m₁ f hland => exact h.landing hland
  | ended hE => exact (h.landing (.start hE)).endModule
  | returned g => exact h.popGosub g
  | returnedHome g => exact (h.popGosub g).endModule
  | skipped offset => exact h.setPc _
  | looped l hl => exact h.pushLoop hl
  | loopRefused l f hl => exact h.pushLoop hl
  | repeated l => exact h.setPc _
  | revised f hf => exact h.revise hf
  | loaded => exact h.updateModule _ fun _ _ => ⟨rfl, nofun⟩
  | renewed =>
    have hcleared : (m.updateVariableModule Module.cleared).WellScoped :=
      h.updateModule _ fun _ _ => ⟨rfl, nofun⟩
    exact hcleared.setPc _
  | quit code => exact h.of_eq rfl rfl

end WellScoped

end Machine

end LineBasic
