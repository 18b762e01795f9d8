import LineBasic.Proofs.Act.Statement

/-!
# What loops do

A `FOR` works out what it says, stores the start, ends an older loop over its variable, and puts the
new loop on top. A `NEXT` of the loop on top adds the step to the variable. The loop goes on behind
its `FOR`, unless the variable has passed the limit: then it is taken off.
-/

set_option autoImplicit false

namespace LineBasic

open Run

namespace Value

variable {v : Value}

theorem apply_plus_real (h : v.kind ≠ .text) (x : Float) :
    ∃ y, apply .plus v (.real x) = .ok (.real y) := by
  cases v with
  | integer n => exact ⟨_, rfl⟩
  | real y => exact ⟨_, rfl⟩
  | text s => exact absurd rfl h

theorem toReal_of_number (h : v.kind ≠ .text) : ∃ x, v.toReal = .ok x := by
  cases v with
  | integer n => exact ⟨_, rfl⟩
  | real x => exact ⟨x, rfl⟩
  | text s => exact absurd rfl h

/-- A number is stored under every name that is not for text. -/
theorem coerceFor_of_number {name : String} (hname : Kind.ofName name ≠ .text)
    (h : v.kind ≠ .text) : ∃ w, coerceFor name v = .ok w := by
  rw [coerceFor]
  cases hkind : Kind.ofName name with
  | text => exact absurd hkind hname
  | integer =>
    cases v with
    | integer n => exact ⟨_, rfl⟩
    | real x => exact ⟨_, rfl⟩
    | text s => exact absurd rfl h
  | real =>
    obtain ⟨x, hx⟩ := toReal_of_number h
    exact ⟨.real x, by rw [coerce, hx]; rfl⟩

theorem kind_of_toInt_error {f : Fault} (h : v.toInt = .error f) : f.kind = .typeMismatch := by
  cases v with
  | integer n => cases h
  | real x => cases h
  | text s =>
    rw [toInt] at h
    split at h
    · cases h
    · cases h
      rfl

/-- Whatever a value is, a number can be added to it. -/
theorem exists_apply_plus (v : Value) (x : Float) : ∃ w, apply .plus v (.real x) = .ok w := by
  cases v <;> exact ⟨_, rfl⟩

theorem kind_of_toReal_error {f : Fault} (h : v.toReal = .error f) : f.kind = .typeMismatch := by
  cases v with
  | integer n => cases h
  | real x => cases h
  | text s =>
    rw [toReal] at h
    split at h
    · cases h
    · split at h
      · cases h
      · cases h
        rfl

theorem kind_of_coerceFor_error {name : String} {f : Fault} (h : coerceFor name v = .error f) :
    f.kind = .typeMismatch := by
  have hmap {α : Type} {x : Except Fault α} {g : α → Value} (h : x.map g = .error f) :
      x = .error f := by
    cases x with
    | ok a => cases h
    | error f' =>
      cases h
      rfl
  rw [coerceFor] at h
  cases hkind : Kind.ofName name with
  | integer =>
    rw [hkind, coerce] at h
    exact kind_of_toInt_error (hmap h)
  | real =>
    rw [hkind, coerce] at h
    exact kind_of_toReal_error (hmap h)
  | text =>
    rw [hkind] at h
    cases v with
    | text s => cases h
    | integer n =>
      cases h
      rfl
    | real x =>
      cases h
      rfl

end Value

section

open Float.Model

end

namespace ForLoop

def advance (l : ForLoop) (v : Value) : Except Fault Value := do
  Value.coerceFor l.name (← Value.apply .plus v (.real l.step))

def advances (l : ForLoop) : Nat → Value → Except Fault Value
  | 0, v => .ok v
  | n + 1, v => l.advances n v >>= l.advance

def isPassedBy (l : ForLoop) (v : Value) : Bool :=
  match v.toReal with
  | .ok x => Statement.passed l.step l.limit x
  | .error _ => false

theorem kind_of_advance {l : ForLoop} {v w : Value} (h : l.advance v = .ok w) :
    w.kind = Kind.ofName l.name := by
  obtain ⟨sum, -, hw⟩ := LineBasic.bind_eq_ok.1 h
  exact Value.kind_of_coerce hw

theorem advance_of_number {l : ForLoop} {v : Value} (hname : Kind.ofName l.name ≠ .text)
    (hv : v.kind ≠ .text) : ∃ w, l.advance v = .ok w ∧ w.kind = Kind.ofName l.name := by
  obtain ⟨y, hy⟩ := Value.apply_plus_real hv l.step
  obtain ⟨w, hw⟩ := Value.coerceFor_of_number (v := .real y) hname (by simp [Value.kind])
  refine ⟨w, ?_, Value.kind_of_coerce hw⟩
  rw [advance, hy, ok_bind, hw]

end ForLoop

namespace Machine

def setScalar (m : Machine) (home : ModuleId) (name : String) (v : Value) : Machine :=
  m.updateModule home fun mod => { mod with vars := mod.vars.storeRaw name v }

def scalar (m : Machine) (home : ModuleId) (name : String) : Value :=
  (m.moduleAt home).vars.fetch name

def popLoop (m : Machine) : Machine :=
  m.updateCodeModule fun mod => { mod with loops := mod.loops.pop.2 }

theorem updateModule_of_eq {m : Machine} {j : ModuleId} {f : Module → Module}
    (h : f (m.moduleAt j) = m.moduleAt j) : m.updateModule j f = m := by
  rw [updateModule_congr (g := id) h, updateModule, List.modify_id]

theorem scalar_setScalar {m : Machine} {home : ModuleId} (h : home < m.modules.length)
    (name : String) (v : Value) : (m.setScalar home name v).scalar home name = v := by
  rw [scalar, setScalar, moduleAt_updateModule_self h, Variables.fetch_storeRaw, if_pos rfl]

theorem course_setScalar (m : Machine) (home : ModuleId) (name : String) (v : Value)
    (id : ModuleId) :
    ((m.setScalar home name v).moduleAt id).course = (m.moduleAt id).course := by
  rw [setScalar, moduleAt_updateModule]
  split <;> rfl

theorem calm_setScalar (m : Machine) (home : ModuleId) {name : String} {v : Value}
    (hv : v.kind = Kind.ofName name) : m.Calm (m.setScalar home name v) :=
  .module m home (.vars (fun h => h.storeRaw (.inl hv)) (.of_eq rfl)) (.vars m home rfl)

/-- What changes no variables of a module changes no scalar. -/
theorem scalar_updateCodeModule {f : Module → Module} (h : ∀ mod, (f mod).vars = mod.vars)
    (m : Machine) (home : ModuleId) (name : String) :
    (m.updateCodeModule f).scalar home name = m.scalar home name := by
  rw [scalar, updateCodeModule, moduleAt_updateModule_of_keeps h, scalar]

end Machine

theorem Place.store_scalar (home : ModuleId) (name : String) (v : Value) (m : Machine) :
    (Place.scalar home name).store v m = match Value.coerceFor name v with
      | .ok w => .ok () (m.setScalar home name w)
      | .error f => .error f m := by
  have hset (w : Value) : m.updateModule home (fun mod =>
      { mod with vars := (m.moduleAt home).vars.storeRaw name w }) = m.setScalar home name w :=
    Machine.updateModule_congr rfl
  rw [Place.store, get_bind, Place.storeIn, Variables.store]
  cases Value.coerceFor name v with
  | error f => rfl
  | ok w =>
    dsimp only
    rw [← hset]
    rfl

namespace Statement

structure LoopHead where
  home : ModuleId
  name : String
  start : Value
  limit : Float
  step : Float

def LoopHead.loop (head : LoopHead) (resume : ProgramCounter) : ForLoop :=
  { name := head.name, home := head.home, limit := head.limit, step := head.step, resume }

def loopHead (tokens : List Token) : Run LoopHead := do
  let (home, name, rest) ← loopVariable tokens
  if Kind.ofName name = .text then Run.fail .typeMismatch "TEXT LOOP VARIABLE"
  let (start, rest) ← loopStart (← afterEqual rest)
  let (limit, rest) ← loopLimit rest
  let step ← loopStep rest
  return { home, name, start, limit, step }

def LoopHead.enter (head : LoopHead) (start : Value) (m : Machine) : Machine :=
  ((m.setScalar head.home head.name start).updateCodeModule
    (endLoopsOver head.home head.name)).pushLoop (head.loop m.codeModule.pc)

theorem endLoopsOver_keeps (home : ModuleId) (name : String) (mod : Module) :
    (endLoopsOver home name mod).vars = mod.vars ∧
      (endLoopsOver home name mod).gosubs = mod.gosubs ∧
      (endLoopsOver home name mod).pc = mod.pc := by
  rw [endLoopsOver]
  split
  · exact ⟨rfl, rfl, rfl⟩
  · exact ⟨rfl, rfl, rfl⟩

theorem loops_endLoopsOver_congr {mod mod' : Module} (hloops : mod.loops = mod'.loops)
    (hgosubs : mod.gosubs = mod'.gosubs) (home : ModuleId) (name : String) :
    (endLoopsOver home name mod).loops = (endLoopsOver home name mod').loops := by
  rw [endLoopsOver, endLoopsOver, reachableLoops, reachableLoops, Module.loopFloor,
    Module.loopFloor, hloops, hgosubs]
  split
  · rfl
  · exact hloops

theorem codePc_endLoopsOver (m : Machine) (home : ModuleId) (name : String) (start : Value) :
    ((m.setScalar home name start).updateCodeModule (endLoopsOver home name)).codeModule.pc =
      m.codeModule.pc := by
  have hquiet := quiet_endLoopsOver home name (m.setScalar home name start)
  rw [Machine.codeModule, hquiet.pc]
  exact congrArg Course.pc (m.course_setScalar home name start _)

namespace LoopHead

variable {m : Machine}

theorem scalar_enter (head : LoopHead) (start : Value) (h : head.home < m.modules.length) :
    (head.enter start m).scalar head.home head.name = start := by
  refine (Machine.scalar_updateCodeModule (fun mod => by rfl) _ _ _).trans ?_
  rw [Machine.scalar_updateCodeModule (fun mod => (endLoopsOver_keeps _ _ mod).1),
    Machine.scalar_setScalar h]

/-- The running module once a loop has begun: the new loop is on top of the outer ones. -/
theorem codeModule_enter (head : LoopHead) (start : Value)
    (h : m.scopes.codeModule < m.modules.length) :
    (head.enter start m).codeModule.gosubs = m.codeModule.gosubs ∧
      (head.enter start m).codeModule.pc = m.codeModule.pc ∧
      (head.enter start m).codeModule.loops =
        (endLoopsOver head.home head.name m.codeModule).loops.push (head.loop m.codeModule.pc) := by
  have hcourse := m.course_setScalar head.home head.name start m.scopes.codeModule
  have hlt : (m.setScalar head.home head.name start).scopes.codeModule <
      (m.setScalar head.home head.name start).modules.length := by
    rw [Machine.setScalar, Machine.length_updateModule]
    exact h
  have hended := Machine.codeModule_updateCodeModule hlt (endLoopsOver head.home head.name)
  have hpushed := Machine.codeModule_updateCodeModule
    (m := (m.setScalar head.home head.name start).updateCodeModule
      (endLoopsOver head.home head.name))
    (by rw [Machine.updateCodeModule, Machine.length_updateModule]; exact hlt)
    fun mod => { mod with loops := mod.loops.push (head.loop m.codeModule.pc) }
  have hkeeps := endLoopsOver_keeps head.home head.name
    (m.setScalar head.home head.name start).codeModule
  have hloops : (endLoopsOver head.home head.name
      (m.setScalar head.home head.name start).codeModule).loops =
      (endLoopsOver head.home head.name m.codeModule).loops :=
    loops_endLoopsOver_congr (congrArg Course.loops hcourse) (congrArg Course.gosubs hcourse) _ _
  rw [hended] at hpushed
  rw [enter, Machine.pushLoop, hpushed]
  refine ⟨hkeeps.2.1.trans (congrArg Course.gosubs hcourse),
    hkeeps.2.2.trans (congrArg Course.pc hcourse), ?_⟩
  dsimp only
  rw [hloops]

end LoopHead

theorem calm_loopHead (tokens : List Token) : Calm (loopHead tokens) := by
  refine (calm_loopVariable tokens).bind fun target => ?_
  dsimp only
  split
  · exact obeys_throw (by decide)
  · refine (calm_afterEqual _).bind fun _ => (calm_loopStart _).bind fun _ => ?_
    exact (calm_loopLimit _).bind fun _ => (calm_loopStep _).bind fun _ => obeys_pure _

theorem eq_of_beginLoop {tokens : List Token} {m m' : Machine}
    (h : beginLoop tokens m = .ok () m') :
    ∃ head m₁ start, loopHead tokens m = .ok head m₁ ∧ Kind.ofName head.name ≠ .text ∧
      m₁.IsHome head.home ∧ Value.coerceFor head.name head.start = .ok start ∧
      m' = head.enter start m₁ := by
  rw [beginLoop, Run.bind_eq_ok] at h
  obtain ⟨⟨home, name, rest⟩, m₁, hvariable, h⟩ := h
  have hhome := loopVariable_home hvariable
  dsimp only at h hhome
  split at h
  · cases h
  rename_i hname
  obtain ⟨rest₁, m₂, hequal, h⟩ := Run.bind_eq_ok.1 h
  obtain ⟨⟨start, rest₂⟩, m₃, hstart, h⟩ := Run.bind_eq_ok.1 h
  obtain ⟨⟨limit, rest₃⟩, m₄, hlimit, h⟩ := Run.bind_eq_ok.1 h
  obtain ⟨step, m₅, hstep, h⟩ := Run.bind_eq_ok.1 h
  obtain ⟨_, m₆, hstore, h⟩ := Run.bind_eq_ok.1 h
  -- Up to here values were found, and nothing that a loop depends on has changed.
  have hcalm := (((calm_afterEqual _).ok hequal).trans ((calm_loopStart _).ok hstart)).trans
    (((calm_loopLimit _).ok hlimit).trans ((calm_loopStep _).ok hstep))
  have hhead : loopHead tokens m = .ok ⟨home, name, start, limit, step⟩ m₅ := by
    rw [loopHead, bind_apply, hvariable]
    dsimp only
    rw [if_neg hname, bind_apply, hequal]
    dsimp only
    rw [bind_apply, hstart]
    dsimp only
    rw [bind_apply, hlimit]
    dsimp only
    rw [bind_apply, hstep]
    rfl
  rw [Place.store_scalar] at hstore
  cases hvalue : Value.coerceFor name start with
  | error f =>
    rw [hvalue] at hstore
    cases hstore
  | ok v =>
    rw [hvalue] at hstore
    cases hstore
    refine ⟨_, m₅, v, hhead, hname, hcalm.quiet.isHome hhome, hvalue, ?_⟩
    rw [updateCodeModule_bind, get_bind, updateCodeModule_bind] at h
    rw [LoopHead.enter, ← codePc_endLoopsOver m₅ home name v]
    generalize (m₅.setScalar home name v).updateCodeModule (endLoopsOver home name) = m₆ at h ⊢
    have hpush (l : ForLoop) : m₆.updateCodeModule (fun mod =>
        { mod with loops := m₆.codeModule.loops.push l }) = m₆.pushLoop l :=
      Machine.updateModule_congr rfl
    rw [hpush] at h
    cases hover : (m₆.codeModule.loops.push ⟨name, home, limit, step, m₆.codeModule.pc⟩).overflow?
      with
    | some f =>
      rw [hover] at h
      cases h
    | none =>
      rw [hover] at h
      cases h
      rfl

theorem reverse_reachableLoops (mod : Module) :
    (reachableLoops mod).reverse = mod.loops.held.take (mod.loops.size - mod.loopFloor) := by
  rw [reachableLoops, Stack.toList, List.drop_reverse, List.reverse_reverse, Stack.size]

theorem reverse_reachableLoops_of_top {mod : Module} {l : ForLoop} {rest : List ForLoop}
    (hheld : mod.loops.held = l :: rest) (hfloor : mod.loopFloor ≤ rest.length) :
    (reachableLoops mod).reverse = l :: rest.take (rest.length - mod.loopFloor) := by
  rw [reverse_reachableLoops, Stack.size, hheld, List.length_cons, Nat.succ_sub hfloor]
  rfl

theorem find?_of_top {mod : Module} {l : ForLoop} {rest : List ForLoop} {p : ForLoop → Bool}
    (hheld : mod.loops.held = l :: rest) (hfloor : mod.loopFloor ≤ rest.length)
    (hp : p l = true) : (reachableLoops mod).reverse.find? p = some l := by
  rw [reverse_reachableLoops_of_top hheld hfloor, List.find?_cons_of_pos hp]

def stepped (l : ForLoop) (m : Machine) : EStateM.Result Fault Machine Bool :=
  match l.advance (m.scalar l.home l.name) with
  | .error f => .error f m
  | .ok w =>
    match ((m.setScalar l.home l.name w).scalar l.home l.name).toReal with
    | .error f => .error f (m.setScalar l.home l.name w)
    | .ok x =>
      if passed l.step l.limit x then .ok true (m.setScalar l.home l.name w).popLoop
      else .ok false ((m.setScalar l.home l.name w).setPc l.resume)

theorem stepLoop_of_find? {m : Machine} {p : ForLoop → Bool} {i : Nat} {l : ForLoop}
    (hi : (reachableLoops m.codeModule).reverse.findIdx? p = some i)
    (hl : (reachableLoops m.codeModule).reverse.find? p = some l) :
    stepLoop p m = stepped l (m.updateCodeModule fun mod =>
      { mod with loops := mod.loops.truncate (mod.loops.size - i) }) := by
  rw [stepLoop, get_bind]
  simp only [hi, hl]
  rw [updateCodeModule_bind, get_bind, stepped]
  generalize m.updateCodeModule _ = m₁
  obtain ⟨sum, hsum⟩ := Value.exists_apply_plus (m₁.scalar l.home l.name) l.step
  have hfetch (m : Machine) : (m.moduleAt l.home).vars.fetch l.name = m.scalar l.home l.name := rfl
  rw [hfetch, ForLoop.advance, hsum, liftM_ok, pure_bind_run, ok_bind, bind_apply,
    Place.store_scalar]
  cases Value.coerceFor l.name sum with
  | error f => rfl
  | ok w =>
    dsimp only
    rw [get_bind, hfetch]
    cases ((m₁.setScalar l.home l.name w).scalar l.home l.name).toReal with
    | error f => rfl
    | ok x =>
      rw [liftM_ok, pure_bind_run]
      dsimp only
      split <;> rfl

theorem stepLoop_of_find?_eq_none {m : Machine} {p : ForLoop → Bool}
    (h : (reachableLoops m.codeModule).reverse.find? p = none) :
    stepLoop p m = .error (.plain .nextWithoutFor) m := by
  rw [stepLoop, get_bind]
  simp only [h]
  cases (reachableLoops m.codeModule).reverse.findIdx? p <;> rfl

theorem stepLoop_of_top {m : Machine} {l : ForLoop} {rest : List ForLoop} {p : ForLoop → Bool}
    (hheld : m.codeModule.loops.held = l :: rest) (hfloor : m.codeModule.loopFloor ≤ rest.length)
    (hp : p l = true) (hhome : l.home < m.modules.length) (hname : Kind.ofName l.name ≠ .text)
    (hv : (m.scalar l.home l.name).kind ≠ .text) :
    ∃ w, l.advance (m.scalar l.home l.name) = .ok w ∧
      stepLoop p m =
        if l.isPassedBy w then .ok true (m.setScalar l.home l.name w).popLoop
        else .ok false ((m.setScalar l.home l.name w).setPc l.resume) := by
  obtain ⟨w, hw, hkind⟩ := ForLoop.advance_of_number hname hv
  refine ⟨w, hw, ?_⟩
  have hinside := reverse_reachableLoops_of_top hheld hfloor
  have hsame : (m.updateCodeModule fun mod =>
      { mod with loops := mod.loops.truncate (mod.loops.size - 0) }) = m := by
    apply Machine.updateModule_of_eq
    rw [Nat.sub_zero, Stack.truncate_of_size_le (Nat.le_refl _)]
  obtain ⟨x, hx⟩ := Value.toReal_of_number (v := w) (by rwa [hkind])
  have hfirst : (reachableLoops m.codeModule).reverse.findIdx? p = some 0 := by
    rw [hinside, List.findIdx?_cons, if_pos hp]
  rw [stepLoop_of_find? hfirst (find?_of_top hheld hfloor hp), hsame, stepped, hw]
  dsimp only
  rw [Machine.scalar_setScalar hhome, ForLoop.isPassedBy, hx]

theorem loopFloor_le_endLoopsOver {mod : Module} (h : mod.loopFloor ≤ mod.loops.size)
    (home : ModuleId) (name : String) :
    mod.loopFloor ≤ (endLoopsOver home name mod).loops.size := by
  rw [endLoopsOver]
  split
  · rw [Stack.size_truncate]
    omega
  · exact h

theorem exists_findIdx? {mod : Module} {p : ForLoop → Bool} {l : ForLoop}
    (h : (reachableLoops mod).reverse.find? p = some l) :
    ∃ i, (reachableLoops mod).reverse.findIdx? p = some i := by
  rw [← Option.isSome_iff_exists, List.findIdx?_isSome, List.any_eq_true]
  exact ⟨l, List.mem_of_find?_eq_some h, List.find?_some h⟩

/-- A `NEXT` that finds a loop fails only if the variable holds no number. -/
theorem kind_of_stepLoop_error {m m' : Machine} {p : ForLoop → Bool} {l : ForLoop} {f : Fault}
    (hfind : (reachableLoops m.codeModule).reverse.find? p = some l)
    (h : stepLoop p m = .error f m') : f.kind = .typeMismatch := by
  obtain ⟨i, hi⟩ := exists_findIdx? hfind
  rw [stepLoop_of_find? hi hfind, stepped] at h
  generalize m.updateCodeModule _ = m₁ at h
  cases hw : l.advance (m₁.scalar l.home l.name) with
  | error f' =>
    rw [hw] at h
    cases h
    obtain ⟨sum, hsum⟩ := Value.exists_apply_plus (m'.scalar l.home l.name) l.step
    rw [ForLoop.advance, hsum, ok_bind] at hw
    exact Value.kind_of_coerceFor_error hw
  | ok w =>
    rw [hw] at h
    dsimp only at h
    cases hx : ((m₁.setScalar l.home l.name w).scalar l.home l.name).toReal with
    | error f' =>
      rw [hx] at h
      cases h
      exact Value.kind_of_toReal_error hx
    | ok x =>
      rw [hx] at h
      dsimp only at h
      split at h <;> cases h

end Statement

end LineBasic
