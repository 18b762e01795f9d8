import LineBasic.Machine
import LineBasic.Proofs.Table

/-!
# The modules of a machine

An update of one module changes nothing else, and what it keeps of that module it keeps of all.
-/

set_option autoImplicit false

namespace LineBasic.Machine

@[simp] theorem scopes_updateModule (m : Machine) (id : ModuleId) (f : Module → Module) :
    (m.updateModule id f).scopes = m.scopes := rfl

@[simp] theorem length_updateModule (m : Machine) (id : ModuleId) (f : Module → Module) :
    (m.updateModule id f).modules.length = m.modules.length := by
  simp [updateModule]

theorem moduleAt_of_getElem? {m : Machine} {id : ModuleId} {mod : Module}
    (h : m.modules[id]? = some mod) : m.moduleAt id = mod := by
  rw [moduleAt, List.getD_eq_getElem?_getD, h, Option.getD_some]

theorem moduleAt_updateModule (m : Machine) (id j : ModuleId) (f : Module → Module) :
    (m.updateModule id f).moduleAt j =
      if j = id ∧ j < m.modules.length then f (m.moduleAt j) else m.moduleAt j := by
  simp only [moduleAt, updateModule, List.getD_eq_getElem?_getD, List.getElem?_modify]
  by_cases hj : j < m.modules.length
  · rw [List.getElem?_eq_getElem hj]
    by_cases hid : id = j
    · simp [hid, hj]
    · simp [hid, Ne.symm hid]
  · rw [List.getElem?_eq_none (Nat.le_of_not_lt hj)]
    simp [hj]

/-- What an update keeps of the module that it changes, it keeps of every module. -/
theorem moduleAt_updateModule_of_keeps {β : Type} {f : Module → Module} {g : Module → β}
    (h : ∀ mod, g (f mod) = g mod) (m : Machine) (id j : ModuleId) :
    g ((m.updateModule id f).moduleAt j) = g (m.moduleAt j) := by
  rw [moduleAt_updateModule]
  split
  · exact h _
  · rfl

theorem moduleAt_updateModule_self {m : Machine} {id : ModuleId} (h : id < m.modules.length)
    (f : Module → Module) : (m.updateModule id f).moduleAt id = f (m.moduleAt id) := by
  rw [moduleAt_updateModule, if_pos ⟨rfl, h⟩]

theorem moduleAt_updateModule_of_ne {id j : ModuleId} (h : j ≠ id) (m : Machine)
    (f : Module → Module) : (m.updateModule id f).moduleAt j = m.moduleAt j := by
  rw [moduleAt_updateModule, if_neg fun hj => h hj.1]

theorem names_updateModule {m : Machine} {id : ModuleId} {f : Module → Module}
    (h : ∀ mod, m.modules[id]? = some mod → (f mod).name = mod.name) :
    (m.updateModule id f).modules.map (·.name) = m.modules.map (·.name) := by
  apply List.ext_getElem?
  intro j
  rw [updateModule, List.getElem?_map, List.getElem?_map, List.getElem?_modify]
  cases hj : m.modules[j]? with
  | none => rfl
  | some mod =>
    by_cases hid : id = j
    · subst hid
      simp [h mod hj]
    · simp [hid]

theorem codeModule_updateCodeModule {m : Machine} (h : m.scopes.codeModule < m.modules.length)
    (f : Module → Module) : (m.updateCodeModule f).codeModule = f m.codeModule :=
  moduleAt_updateModule_self h f

theorem moduleAt_of_length_le {m : Machine} {id : ModuleId} (h : m.modules.length ≤ id) :
    m.moduleAt id = .named "" := by
  rw [moduleAt, List.getD_eq_getElem?_getD, List.getElem?_eq_none h, Option.getD_none]

theorem forall_moduleAt {m : Machine} {P : Module → Prop} (h : ∀ mod ∈ m.modules, P mod)
    (hnew : P (.named "")) (id : ModuleId) : P (m.moduleAt id) := by
  rw [moduleAt, List.getD_eq_getElem?_getD]
  cases hmod : m.modules[id]? with
  | none => exact hnew
  | some mod => exact h mod (List.mem_of_getElem? hmod)

theorem getElem?_of_moduleNamed? {m : Machine} {name : String} {id : ModuleId}
    (h : m.moduleNamed? name = some id) : ∃ mod, m.modules[id]? = some mod ∧ mod.name = name := by
  have hmem : (name, id) ∈ (m.modules.map (·.name)).zipIdx := Table.mem_of_get?_ofList h
  have hname := List.mem_zipIdx_iff_getElem?.1 hmem
  rwa [List.getElem?_map, Option.map_eq_some_iff] at hname

theorem name_ne_of_moduleNamed? {m : Machine} {name : String} (h : m.moduleNamed? name = none) :
    ∀ mod ∈ m.modules, mod.name ≠ name := by
  rintro mod hmod rfl
  obtain ⟨id, hid⟩ := List.mem_iff_getElem?.1 hmod
  have hmem : (mod.name, id) ∈ (m.modules.map (·.name)).zipIdx := by
    rw [List.mem_zipIdx_iff_getElem?, List.getElem?_map, hid]
    rfl
  obtain ⟨id', hid'⟩ := Table.exists_get?_ofList hmem
  cases h.symm.trans hid'

theorem lt_length_of_moduleNamed? {m : Machine} {name : String} {id : ModuleId}
    (h : m.moduleNamed? name = some id) : id < m.modules.length := by
  obtain ⟨mod, hmod, -⟩ := getElem?_of_moduleNamed? h
  exact (List.getElem?_eq_some_iff.1 hmod).1

theorem moduleAt_ensureModule (m : Machine) (name : String) (id : ModuleId) :
    (m.ensureModule name).2.moduleAt id = m.moduleAt id ∨
      m.moduleAt id = .named "" ∧ (m.ensureModule name).2.moduleAt id = .named name := by
  rw [ensureModule]
  split
  · exact .inl rfl
  · simp only [moduleAt, List.getD_eq_getElem?_getD]
    by_cases h : id < m.modules.length
    · exact .inl (by rw [List.getElem?_append_left h])
    · rw [List.getElem?_append_right (Nat.le_of_not_lt h),
        List.getElem?_eq_none (Nat.le_of_not_lt h)]
      cases id - m.modules.length with
      | zero => exact .inr ⟨rfl, rfl⟩
      | succ k => exact .inl rfl

/-- A module that is made has all of a missing one but its name. -/
theorem moduleAt_ensureModule_but_name (m : Machine) (name : String) (id : ModuleId) :
    (m.ensureModule name).2.moduleAt id =
      { m.moduleAt id with name := ((m.ensureModule name).2.moduleAt id).name } := by
  rcases moduleAt_ensureModule m name id with h | ⟨h, h'⟩
  · rw [h]
  · rw [h, h']
    rfl

theorem length_le_ensureModule (m : Machine) (name : String) :
    m.modules.length ≤ (m.ensureModule name).2.modules.length := by
  rw [ensureModule]
  split
  · exact Nat.le_refl _
  · simp

theorem lt_length_ensureModule (m : Machine) (name : String) :
    (m.ensureModule name).1 < (m.ensureModule name).2.modules.length := by
  rw [ensureModule]
  split
  · rename_i id hid
    exact lt_length_of_moduleNamed? hid
  · simp

theorem enterCode_of_inLockstep {m : Machine} (h : m.scopes.inLockstep = true) :
    m.enterCode = (false, m) := by
  simp [enterCode, Scopes.enterCode, h]

theorem enterCode_of_ahead {m : Machine} (h : m.scopes.inLockstep = false) :
    m.enterCode =
      (true, { m with scopes := m.scopes.enterCode.2 }.updateModule m.scopes.variableModule
        fun mod => { mod with pc := .atEnd }) := by
  simp [enterCode, Scopes.enterCode, h]

@[simp] theorem scopes_enterCode (m : Machine) : m.enterCode.2.scopes = m.scopes.enterCode.2 := by
  cases h : m.scopes.inLockstep <;> simp [enterCode, Scopes.enterCode, h]

theorem endModule_of_inLockstep {m : Machine} (h : m.scopes.inLockstep = true) :
    m.endModule = { m with scopes := m.scopes.leave.2 }.updateModule m.scopes.codeModule fun mod =>
      { mod with pc := .atEnd }.dropGosubs fun g => g.resume.isEnd := by
  simp [endModule, Scopes.leave, h]

theorem endModule_of_ahead {m : Machine} (h : m.scopes.inLockstep = false) :
    m.endModule = { m with scopes := m.scopes.leave.2 } := by
  simp [endModule, Scopes.leave, h]

@[simp] theorem scopes_endModule (m : Machine) : m.endModule.scopes = m.scopes.leave.2 := by
  cases h : m.scopes.inLockstep <;> simp [endModule, Scopes.leave, h]

/-- Of all program counters, entering code moves that of the module it enters. -/
theorem pc_enterCode (m : Machine) (id : ModuleId) :
    (m.enterCode.2.moduleAt id).pc =
      if m.scopes.inLockstep = false ∧ id = m.scopes.variableModule ∧ id < m.modules.length
      then .atEnd else (m.moduleAt id).pc := by
  cases h : m.scopes.inLockstep with
  | true => simp [enterCode_of_inLockstep h]
  | false =>
    rw [enterCode_of_ahead h, moduleAt_updateModule]
    simp only [true_and]
    split <;> rfl

/-- Of a module, entering code changes the program counter only. -/
theorem moduleAt_enterCode_of_keeps {β : Type} {g : Module → β}
    (h : ∀ mod : Module, g { mod with pc := .atEnd } = g mod) (m : Machine) (id : ModuleId) :
    g (m.enterCode.2.moduleAt id) = g (m.moduleAt id) := by
  cases hlevel : m.scopes.inLockstep with
  | true => rw [enterCode_of_inLockstep hlevel]
  | false =>
    rw [enterCode_of_ahead hlevel]
    exact moduleAt_updateModule_of_keeps h _ _ id

theorem listing_enterCode (m : Machine) (id : ModuleId) :
    (m.enterCode.2.moduleAt id).listing = (m.moduleAt id).listing :=
  moduleAt_enterCode_of_keeps (fun _ => rfl) m id

/-- Of all program counters, leaving code moves that of the module it leaves. -/
theorem pc_endModule (m : Machine) (id : ModuleId) :
    (m.endModule.moduleAt id).pc =
      if m.scopes.inLockstep = true ∧ id = m.scopes.codeModule ∧ id < m.modules.length
      then .atEnd else (m.moduleAt id).pc := by
  cases h : m.scopes.inLockstep with
  | true =>
    rw [endModule_of_inLockstep h, moduleAt_updateModule]
    simp only [true_and]
    split <;> rfl
  | false =>
    rw [endModule_of_ahead h]
    simp only [Bool.false_eq_true, false_and, if_false]
    rfl

/-- Leaving code ends no loop, and of the calls it keeps the lowest. -/
theorem moduleAt_endModule_calls (m : Machine) (id : ModuleId) :
    (m.endModule.moduleAt id).loops = (m.moduleAt id).loops ∧
      ∃ n, (m.endModule.moduleAt id).gosubs = (m.moduleAt id).gosubs.truncate n := by
  have hkept : ∃ n, (m.moduleAt id).gosubs = (m.moduleAt id).gosubs.truncate n :=
    ⟨_, (Stack.truncate_of_size_le (Nat.le_refl _)).symm⟩
  cases hlevel : m.scopes.inLockstep with
  | true =>
    rw [endModule_of_inLockstep hlevel, moduleAt_updateModule]
    split
    · exact ⟨rfl, _, rfl⟩
    · exact ⟨rfl, hkept⟩
  | false =>
    rw [endModule_of_ahead hlevel]
    exact ⟨rfl, hkept⟩

/-- Of a module, leaving code changes the program counter and the calls only. -/
theorem moduleAt_endModule_of_keeps {β : Type} {g : Module → β}
    (h : ∀ (mod : Module) (gosubs : Stack Gosub), g { mod with pc := .atEnd, gosubs } = g mod)
    (m : Machine) (id : ModuleId) : g (m.endModule.moduleAt id) = g (m.moduleAt id) := by
  cases hlevel : m.scopes.inLockstep with
  | true =>
    rw [endModule_of_inLockstep hlevel]
    exact moduleAt_updateModule_of_keeps (fun mod => h mod _) _ _ id
  | false =>
    rw [endModule_of_ahead hlevel]
    rfl

theorem listing_endModule (m : Machine) (id : ModuleId) :
    (m.endModule.moduleAt id).listing = (m.moduleAt id).listing :=
  moduleAt_endModule_of_keeps (fun _ _ => rfl) m id

end LineBasic.Machine
