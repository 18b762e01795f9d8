import LineBasic.Proofs.Act
import LineBasic.Proofs.Calm.Command
import LineBasic.Proofs.Calm.Statement

/-!
# What a statement does

Every statement ends in an act, or in a fault before it acts. Each lemma follows the statement that
it is about.
-/

set_option autoImplicit false

namespace LineBasic

open Run

def BuiltinCommand.Edits (c : BuiltinCommand) : Edit → Prop
  | .erase => False
  | .renumber => c = .RENUMBER
  | .replace => c = .LOAD

namespace Statement

theorem acts_clearVariables (m : Machine) :
    ActsAt False False True (fun _ => False) m clearVariables :=
  quietUntil_of (.revised _ fun mod _ => .forgotten mod trivial)

theorem acts_enterModule (tokens : List Token) : Acts (enterModule tokens) := by
  rw [enterModule.eq_def]
  split
  · rename_i name
    exact fun m => quietUntil_of (.named name)
  · rename_i name
    exact fun m => quietUntil_of (.named name)
  · exact acts_fail (by decide) _

theorem jumpTo_apply (n : LineNumber) (m : Machine) :
    jumpTo n m = if !isTarget m.enterCode.2.codeModule n
      then .error undefinedStatement m.enterCode.2
      else .ok () (m.enterCode.2.setPc (.atLine n)) := by
  rw [jumpTo, enterCode_bind, get_bind]
  dsimp only
  split <;> rfl

theorem acts_jumpTo (n : LineNumber) : Acts (jumpTo n) := by
  intro m
  refine quietUntil_of ?_
  rw [jumpTo_apply]
  split
  · exact .missed _ _ .jump (by decide) (by simp)
  · rename_i htarget
    refine .landed _ n .jump ?_
    simp [isTarget] at htarget
    exact htarget.1

theorem callLine_apply (n : LineNumber) (m : Machine) :
    callLine n m = if !isTarget m.enterCode.2.codeModule n
      then .error undefinedStatement m.enterCode.2
      else match (m.enterCode.2.codeModule.gosubs.push m.callFrame).overflow? with
        | some f => .error f (m.enterCode.2.pushGosub m.callFrame)
        | none => .ok () ((m.enterCode.2.pushGosub m.callFrame).setPc (.atLine n)) := by
  have hframe : (if m.enterCode.1 then ⟨.atEnd, m.enterCode.2.codeModule.loops.size⟩
      else ⟨m.codeModule.pc, m.codeModule.loops.size⟩) = m.callFrame := by
    rw [Machine.callFrame]
    cases h : m.scopes.inLockstep with
    | true => simp [Machine.enterCode_of_inLockstep h]
    | false => simp [Machine.enterCode_of_ahead h]
  have hpush : m.enterCode.2.updateCodeModule (fun mod =>
      { mod with gosubs := m.enterCode.2.codeModule.gosubs.push m.callFrame }) =
      m.enterCode.2.pushGosub m.callFrame :=
    Machine.updateModule_congr rfl
  rw [callLine, get_bind, enterCode_bind, get_bind]
  dsimp only
  split
  · rfl
  · rw [hframe, updateCodeModule_bind, hpush]
    cases (m.enterCode.2.codeModule.gosubs.push m.callFrame).overflow? <;> rfl

theorem ordinary_of_overflow? {α : Type} {s : Stack α} {f : Fault} (h : s.overflow? = some f) :
    f.Ordinary := by
  rw [Stack.overflow?] at h
  split at h
  · cases h
    exact ⟨rfl, FaultKind.noConfusion⟩
  · cases h

theorem acts_callLine (n : LineNumber) : Acts (callLine n) := by
  intro m
  refine quietUntil_of ?_
  rw [callLine_apply]
  split
  · exact .missed _ _ .jump (by decide) (by simp)
  · rename_i htarget
    have hcall : Landing False m _ (m.enterCode.2.pushGosub m.callFrame) := .call
    split
    · rename_i f hf
      rw [hf] at hcall
      refine .missed _ f hcall (ordinary_of_overflow? hf) ?_
      rintro _ ⟨⟩
      rfl
    · rename_i hroom
      rw [hroom] at hcall
      refine .landed _ n hcall ?_
      simp [isTarget] at htarget
      exact htarget.1

/-- What a return does, by the call that it goes back from. -/
theorem returnFromCall_apply (m : Machine) :
    returnFromCall m = match m.codeModule.gosubs.top? with
      | none => .error (.plain .returnWithoutGosub) m
      | some g => .ok () (if g.resume.isEnd then (m.popGosub g).endModule else m.popGosub g) := by
  rw [returnFromCall, get_bind, Stack.top?, Stack.pop]
  cases hheld : m.codeModule.gosubs.held with
  | nil => rfl
  | cons g rest =>
    have hpop : m.updateCodeModule (fun mod =>
        { mod with
          gosubs := { m.codeModule.gosubs with held := rest }
          loops := mod.loops.truncate g.loops
          pc := g.resume }) = m.popGosub g := by
      refine Machine.updateModule_congr ?_
      have hgosubs : (m.moduleAt m.scopes.codeModule).gosubs.pop.2 =
          { m.codeModule.gosubs with held := rest } := by
        change m.codeModule.gosubs.pop.2 = _
        rw [Stack.pop, hheld]
      rw [hgosubs]
    dsimp only [List.head?_cons]
    rw [updateCodeModule_bind, hpop]
    cases g.resume.isEnd <;> rfl

theorem acts_returnFromCall : Acts returnFromCall := by
  intro m
  rw [ActsAt, QuietUntil, returnFromCall_apply]
  refine ⟨m, .refl m, ?_⟩
  split
  · exact .inl ⟨_, rfl, .ordinary (by decide)⟩
  · rename_i g hg
    cases hend : g.resume.isEnd with
    | true => exact .inr (.returnedHome g hg hend)
    | false => exact .inr (.returned g hg hend)

theorem acts_jumpList (isCall : Bool) (selector : Int64) (tokens : List Token) :
    Acts (jumpList isCall selector tokens) := by
  refine .bind (calm_evaluateAll tokens) fun items => ?_
  dsimp only
  split
  · exact acts_pure
  · split
    · exact acts_pure
    · refine .bind (obeys_liftM (by simp)) fun _ => ?_
      split
      · exact acts_callLine _
      · exact acts_jumpTo _

theorem acts_onSelector (tokens : List Token) : Acts (onSelector tokens) := by
  refine .bind (calm_evaluate tokens) fun _ => .bind (obeys_liftM (by simp)) fun _ => ?_
  refine .bind (obeys_liftM (by simp)) fun selector => ?_
  split
  · exact acts_jumpList false selector _
  · exact acts_jumpList true selector _
  · exact acts_fail (by decide) _

theorem acts_startProgram (start : Option LineNumber) (m : Machine) :
    ActsAt False True False (fun _ => False) m (startProgram start) := by
  have hmanual : Calm (updateVariableModule fun mod => { mod with autoStep := 0 }) :=
    calm_updateVariableModule fun _ => .of_eq rfl rfl rfl rfl
  refine .bind (hmanual m) fun _ m _ _ => ?_
  refine quietUntil_of ?_
  have hrestart : m.enterCode.2.updateCodeModule (fun mod =>
      { mod with loops := mod.loops.clear, gosubs := mod.gosubs.clear, data := {} }) =
      m.enterCode.2.restart := rfl
  rw [enterCode_bind, updateCodeModule_bind, get_bind, hrestart]
  cases hn : m.enterCode.2.restart.codeModule.listing.firstFrom? (start.getD 0) with
  | some n =>
    have hfirst := List.find?_some hn
    simp only [Bool.and_eq_true, decide_eq_true_eq] at hfirst
    exact .landed _ n (.start trivial) hfirst.1
  | none =>
    cases start with
    | some n => exact .missed _ _ (.start trivial) (by decide) (by simp)
    | none => exact .ended trivial

theorem acts_runProgram (tokens : List Token) (m : Machine) :
    ActsAt False True False (fun _ => False) m (runProgram tokens) := by
  rw [runProgram]
  split
  · exact acts_startProgram none m
  · exact .bind (calm_lineArgument tokens m) fun n m₁ _ _ => acts_startProgram (some n) m₁

theorem acts_skipLine : Acts skipLine := by
  intro m
  have hskip (offset : Nat) {f : Module → Module}
      (hf : f m.codeModule = { m.codeModule with pc := { m.codeModule.pc with offset } })
      (h : ∀ n text, m.codeModule.pc.line = some n → m.codeModule.listing.get? n = some text →
        offset = Text.byteLength text.toList) :
      Act False False (fun _ => False) m (updateCodeModule f m) := by
    have hset : m.updateCodeModule f = m.setPc { m.codeModule.pc with offset } :=
      Machine.updateModule_congr hf
    change Act _ _ _ m (.ok () (m.updateCodeModule f))
    rw [hset]
    exact .skipped offset h
  refine quietUntil_of ?_
  cases hline : m.codeModule.pc.line with
  | none =>
    refine hskip m.codeModule.pc.offset ?_ (by simp [hline])
    split
    · rfl
    · rename_i n hn
      rw [hline] at hn
      cases hn
  | some n =>
    refine hskip _ (by simp only [hline]; rfl) fun n' text hn htext => ?_
    rw [hline] at hn
    cases hn
    rw [htext]
    rfl

theorem acts_delete (tokens : List Token) (m : Machine) :
    ActsAt False False False (· = .erase) m (delete tokens) := by
  rw [delete]
  split
  · exact (acts_fail (by decide) _).actsAt _ _ _ _ m
  · refine .bind (obeys_liftM (by simp) m) fun range m₁ _ _ => quietUntil_of ?_
    exact .revised _ fun mod _ => .erased mod _ _ rfl

theorem acts_new (m : Machine) : ActsAt False True False (· = .replace) m new :=
  quietUntil_of (.renewed trivial rfl)

theorem obeys_dimEntry (home : ModuleId) (ref : Reference) :
    Obeys (.quietBut False) (dimEntry home ref) := by
  rw [dimEntry]
  split
  · refine ((calm_evaluateSubscripts _).mono (Effect.calmBut_le_quietBut _)).bind fun bounds => ?_
    refine obeys_of_get fun m => (obeys_liftM (Variables.ordinary_dimension _ _ bounds) m).bind
      fun vars m₁ hvars => ?_
    obtain ⟨hmade, rfl⟩ := outcome_eq_ok.1 (liftM_apply _ _ ▸ hvars)
    exact obeysAt_modify (Machine.QuietBut.vars m₁ home fun hkinds => hkinds.dimension hmade)
  · exact (calm_store_scalar home ref.name _).mono (Effect.calmBut_le_quietBut _)

/-- An array that is made anew may be smaller than before, so that this is quiet but not calm. -/
theorem quiet_dim (tokens : List Token) : Obeys (.quietBut False) (dim tokens) := by
  have hmodule (t : Token) : Obeys (.quietBut False) (targetModule t) :=
    (calm_targetModule t).mono (Effect.calmBut_le_quietBut _)
  refine Obeys.bind ?_ fun _ => obeys_pure _
  exact obeys_visitNames hmodule (by decide) (by decide) obeys_dimEntry tokens

theorem qualifiedModule_home {t : Token} {m m' : Machine} {home : ModuleId}
    (h : qualifiedModule t m = .ok home m') : m'.IsHome home := by
  rw [qualifiedModule.eq_def] at h
  split at h
  · rename_i name
    rw [findModule, get_bind] at h
    cases hid : m.moduleNamed? name with
    | some id =>
      simp only [hid, pure_apply] at h
      cases h
      exact .inl (Machine.lt_length_of_moduleNamed? hid)
    | none =>
      simp only [hid, throw_apply] at h
      cases h
  · cases h
    exact .inr rfl

/-- A loop runs over a variable of a module that is there. -/
theorem loopVariable_home {tokens : List Token} {m m' : Machine} {home : ModuleId} {name : String}
    {rest : List Token} (h : loopVariable tokens m = .ok (home, name, rest) m') :
    m'.IsHome home := by
  cases tokens with
  | nil => cases h
  | cons t ts =>
    rw [loopVariable] at h
    dsimp only at h
    split at h
    · cases h
    · obtain ⟨home', m₁, hhome, h⟩ := Run.bind_eq_ok.1 h
      have hknown := qualifiedModule_home hhome
      obtain ⟨⟨ref, rest'⟩, -, h⟩ := liftM_bind_eq_ok.1 h
      cases hargs : ref.args with
      | none =>
        simp only [hargs] at h
        cases h
        rcases hknown with hlt | hvar
        · exact .inl (by simpa using hlt)
        · exact .inr hvar
      | some inner =>
        simp only [hargs] at h
        obtain ⟨index, m₂, -, h⟩ := Run.bind_eq_ok.1 h
        rw [get_bind] at h
        split at h
        · obtain ⟨-, -, h⟩ := liftM_bind_eq_ok.1 h
          cases h
        · cases h

theorem quiet_endLoopsOver (home : ModuleId) (name : String) (m : Machine) :
    m.QuietBut False (m.updateCodeModule (endLoopsOver home name)) := by
  cases h : (reachableLoops m.codeModule).findIdx? (·.isOver home name) with
  | some i =>
    refine .cutLoops m (Nat.le_add_right _ i) ?_
    rw [endLoopsOver, h]
  | none =>
    refine .cutLoops m (Nat.le_add_right _ m.codeModule.loops.size) ?_
    rw [endLoopsOver, h, Stack.truncate_of_size_le (Nat.le_add_left _ _)]

theorem acts_beginLoop (tokens : List Token) : Acts (beginLoop tokens) := by
  intro m
  refine .bind (calm_loopVariable tokens m) fun target m₁ htarget _ => ?_
  rcases target with ⟨home, name, rest⟩
  have hhome := loopVariable_home htarget
  dsimp only
  split
  · exact quietUntil_throw (by decide)
  · rename_i hkind
    refine .bind (calm_afterEqual _ m₁) fun _ m₂ _ h₂ => ?_
    refine .bind (calm_loopStart _ m₂) fun start m₃ _ h₃ => ?_
    refine .bind (calm_loopLimit _ m₃) fun limit m₄ _ h₄ => ?_
    refine .bind (calm_loopStep _ m₄) fun step m₅ _ h₅ => ?_
    refine .bind (calm_store_scalar home name start.1 m₅) fun _ m₆ _ h₆ => ?_
    have hcut := quiet_endLoopsOver home name m₆
    refine .after hcut (updateCodeModule_bind _ _ m₆) (.of_get ?_)
    have hcalm := h₂.trans (h₃.trans (h₄.trans (h₅.trans h₆)))
    have hhome := hcut.isHome (hcalm.quietBut.isHome hhome)
    generalize m₆.updateCodeModule (endLoopsOver home name) = m₇ at hhome
    have hpush (l : ForLoop) : m₇.updateCodeModule (fun mod =>
        { mod with loops := m₇.codeModule.loops.push l }) = m₇.pushLoop l :=
      Machine.updateModule_congr rfl
    refine quietUntil_of ?_
    rw [updateCodeModule_bind, hpush]
    cases hover : (m₇.codeModule.loops.push ⟨name, home, limit.1, step, m₇.codeModule.pc⟩).overflow?
      with
    | none => exact .looped _ hhome rfl hkind hover
    | some f => exact .loopRefused _ f hhome rfl hkind (ordinary_of_overflow? hover) hover

/-- The loop that is stepped lies above the latest subroutine call, and is on top once the loops
inside it are over. -/
theorem found_loop {mod : Module} {p : ForLoop → Bool} {i : Nat} {l : ForLoop}
    (hi : (reachableLoops mod).reverse.findIdx? p = some i)
    (hl : (reachableLoops mod).reverse.find? p = some l) :
    mod.loopFloor < mod.loops.size - i ∧
      (mod.loops.truncate (mod.loops.size - i)).top? = some l := by
  have hinside : (reachableLoops mod).reverse =
      mod.loops.held.take (mod.loops.size - mod.loopFloor) := by
    rw [reachableLoops, Stack.toList, List.drop_reverse, List.reverse_reverse, Stack.size]
  obtain ⟨hlt, hidx⟩ := List.findIdx?_eq_some_iff_findIdx_eq.1 hi
  rw [List.find?_eq_getElem?_findIdx, hidx, hinside] at hl
  rw [hinside, List.length_take] at hlt
  have hfloor : i < mod.loops.size - mod.loopFloor := by omega
  refine ⟨by omega, ?_⟩
  rw [Stack.top?, Stack.truncate, List.head?_drop]
  rw [List.getElem?_take_of_lt hfloor] at hl
  rw [show mod.loops.size - (mod.loops.size - i) = i by omega]
  exact hl

/-- Stepping a loop is quiet, but for the jump back to the body of a loop that goes on. -/
theorem quietUntil_stepLoop (p : ForLoop → Bool) (m : Machine) :
    QuietUntil False (fun m₁ r => r = .ok true m₁ ∨
      ∃ l, m₁.codeModule.loops.top? = some l ∧ r = .ok false (m₁.setPc l.resume)) m
      (stepLoop p) := by
  refine .of_get ?_
  dsimp only
  split
  · rename_i i l hi hl
    obtain ⟨hfloor, htop⟩ := found_loop hi hl
    have hcut : m.QuietBut False (m.updateCodeModule fun mod =>
        { mod with loops := mod.loops.truncate (mod.loops.size - i) }) :=
      .cutLoops m (Nat.le_of_lt hfloor) rfl
    have hloops : (m.updateCodeModule fun mod =>
        { mod with loops := mod.loops.truncate (mod.loops.size - i) }).codeModule.loops =
        m.codeModule.loops.truncate (m.codeModule.loops.size - i) := by
      rw [Machine.codeModule_updateCodeModule]
      refine Nat.lt_of_not_le fun hle => ?_
      have hmod : m.codeModule = .named "" := Machine.moduleAt_of_length_le hle
      rw [hmod] at hfloor
      simp [Module.named, Stack.size] at hfloor
    refine .after hcut (updateCodeModule_bind _ _ m) (.of_get ?_)
    generalize m.updateCodeModule _ = m₁ at hcut hloops
    refine .bind (obeys_liftM (by simp) m₁) fun v m₂ _ h₂ => ?_
    refine .bind (calm_store_scalar l.home l.name v m₂) fun _ m₃ _ h₃ => .of_get ?_
    refine .bind (obeys_liftM (by simp) m₃) fun x m₄ _ h₄ => ?_
    have hcalm := h₂.trans (h₃.trans h₄)
    have hsame := hcalm.codeLoops.trans hloops
    split
    · -- The loop is over: one more loop less, and still none of those below the latest call.
      have hbelow : m₄.codeModule.loopFloor ≤ m₄.codeModule.loops.size - 1 := by
        rw [(hcut.trans hcalm.quietBut).codeFloor, hsame, Stack.size_truncate]
        omega
      have hpop : m₄.QuietBut False (m₄.updateCodeModule fun mod =>
          { mod with loops := mod.loops.pop.2 }) :=
        .cutLoops m₄ hbelow (by rw [Stack.pop_eq_truncate])
      exact .after hpop (updateCodeModule_bind _ _ m₄) (quietUntil_of (.inl rfl))
    · rw [← hsame] at htop
      exact quietUntil_of (.inr ⟨l, htop, rfl⟩)
  · exact quietUntil_throw (by decide)

theorem acts_stepLoops (targets : List (ModuleId × String)) : Acts (stepLoops targets) := by
  induction targets with
  | nil => exact acts_pure
  | cons target targets ih =>
    intro m
    obtain ⟨m₁, hquiet, ⟨f, hf, hline⟩ | hend⟩ := quietUntil_stepLoop
      (fun l => l.isOver target.1 target.2) m
    · exact ⟨m₁, hquiet, .inl ⟨f, by rw [stepLoops, bind_apply, hf], hline⟩⟩
    · rcases hend with hdone | ⟨l, htop, hback⟩
      · refine .after hquiet ?_ (ih m₁)
        rw [stepLoops, bind_apply, hdone]
        rfl
      · refine ⟨m₁, hquiet, .inr ?_⟩
        rw [stepLoops, bind_apply, hback]
        exact .repeated l htop

theorem acts_endLoop (tokens : List Token) : Acts (endLoop tokens) := by
  rw [endLoop]
  split
  · intro m
    obtain ⟨m₁, hquiet, ⟨f, hf, hline⟩ | hend⟩ := quietUntil_stepLoop (fun _ => true) m
    · exact ⟨m₁, hquiet, .inl ⟨f, by rw [bind_apply, hf], hline⟩⟩
    · refine ⟨m₁, hquiet, .inr ?_⟩
      rcases hend with hdone | ⟨l, htop, hback⟩
      · rw [bind_apply, hdone]
        exact .none
      · rw [bind_apply, hback]
        exact .repeated l htop
  · exact .bind (calm_nextTargets tokens) fun targets => acts_stepLoops targets

theorem acts_load (items : List Item) (m : Machine) :
    ActsAt False True False (· = .replace) m (BuiltinCommand.load items) := by
  refine .bind (obeys_liftM (by simp) m) fun _ m₁ _ _ => ?_
  refine .bind (obeys_liftM (by simp) m₁) fun name m₂ _ _ => .of_get ?_
  refine .bind (obeys_liftM (by simp) m₂) fun text m₃ _ _ => ?_
  refine .bind (obeys_liftM (by simp) m₃) fun listing m₄ hlisting _ => quietUntil_of ?_
  rw [liftM_apply, outcome_eq_ok] at hlisting
  refine .loaded trivial ?_ text listing name hlisting.1
  rfl

theorem acts_renumber (items : List Item) (m : Machine) :
    ActsAt False False False (· = .renumber) m (BuiltinCommand.renumber items) := by
  refine .bind (obeys_liftM (by simp) m) fun vs m₁ _ _ => ?_
  refine .bind (obeys_liftM (by simp) m₁) fun _ m₂ _ _ => ?_
  refine .bind (obeys_liftM (by simp) m₂) fun _ m₃ _ _ => ?_
  refine .bind (obeys_liftM (by simp) m₃) fun _ m₄ _ _ => ?_
  refine .bind (obeys_liftM (by simp) m₄) fun _ m₅ _ _ => .of_get ?_
  refine .bind (obeys_liftM (by simp) m₅) fun listing m₆ hlisting _ => quietUntil_of ?_
  rw [liftM_apply, outcome_eq_ok] at hlisting
  obtain ⟨hrenumber, rfl⟩ := hlisting
  refine .revised _ fun mod hmod => ?_
  rw [Machine.variableModule, Machine.moduleAt_of_getElem? hmod] at hrenumber
  exact .renumbered mod _ listing hrenumber rfl

theorem acts_builtin (c : BuiltinCommand) (items : List Item) (m : Machine) :
    ActsAt False (c = .LOAD) False c.Edits m (c.run items) := by
  cases c
  case LOAD =>
    refine (acts_load items m).mono (fun h => h) (fun _ => rfl) (fun h => h) ?_
    rintro _ rfl
    rfl
  case RENUMBER =>
    refine (acts_renumber items m).mono (fun h => h) False.elim (fun h => h) ?_
    rintro _ rfl
    rfl
  all_goals refine Acts.actsAt ?_ _ _ _ _ m
  case AUTO => exact .of_calm (BuiltinCommand.calm_auto items)
  case CLOSE => exact .of_calm (BuiltinCommand.calm_close items)
  case FAST => exact .of_calm (BuiltinCommand.calm_switchFast true items)
  case FIND => exact .of_calm (BuiltinCommand.calm_find items)
  case OPEN => exact .of_calm (BuiltinCommand.calm_openFile items)
  case POKE => exact .of_calm (BuiltinCommand.calm_poke items)
  case QSAVE => exact .of_calm (BuiltinCommand.calm_saveAgain items)
  case QUIT =>
    refine .bind (obeys_liftM (by simp)) fun _ => .bind (obeys_liftM (by simp)) fun code m => ?_
    exact quietUntil_of (.quit _)
  case SAVE => exact .of_calm (BuiltinCommand.calm_save items)
  case SLEEP => exact .of_calm (BuiltinCommand.calm_sleep items)
  case SLOW => exact .of_calm (BuiltinCommand.calm_switchFast false items)
  case STOP => exact .of_calm (BuiltinCommand.calm_stop items)
  case TROFF => exact .of_calm (BuiltinCommand.calm_switchTrace false items)
  case TRON => exact .of_calm (BuiltinCommand.calm_switchTrace true items)

theorem runCommand_apply {name : String} {c : BuiltinCommand} {m : Machine}
    (h : m.registry.commands.get? name = some (.builtin c)) (rest : List Token) :
    runCommand name rest m = (evaluateAll rest >>= c.run) m := by
  rw [runCommand, get_bind, h]
  rfl

theorem acts_runCommand (name : String) (tokens : List Token) (m : Machine) :
    ActsAt False (m.registry.commands.get? name = some (.builtin .LOAD)) False
      (fun e => ∃ c, m.registry.commands.get? name = some (.builtin c) ∧ c.Edits e) m
      (runCommand name tokens) := by
  refine .of_get ?_
  split
  · exact quietUntil_throw (by decide)
  · rename_i c hc
    refine .bind (calm_evaluateAll tokens m) fun items m₁ _ hcalm => ?_
    cases c with
    | builtin b =>
      refine (acts_builtin b items m₁).mono (fun h => h) ?_ (fun h => h) fun e he => ⟨b, hc, he⟩
      rintro rfl
      exact hc
    | added text =>
      refine .bind (obeysAt_liftM fun f hf => ?_) fun out m₂ _ _ =>
        (Acts.of_calm (Run.calm_print out)).actsAt _ _ _ _ m₂
      rw [hcalm.registry]
      exact .command name text items hc hf

theorem acts_jump (tokens : List Token) : Acts (do jumpTo (← lineArgument tokens)) :=
  .bind (calm_lineArgument tokens) fun n => acts_jumpTo n

/-- What a statement comes to: the statement itself, or the one behind a condition that holds. -/
inductive ComesTo : List Token → Machine → List Token → Machine → Prop
  | here (tokens : List Token) (m : Machine) : ComesTo tokens m tokens m
  | behindThen {rest more tokens : List Token} {taken : Nat} {m m₁ m₂ : Machine}
      (hcondition : condition rest m = .ok (true, taken) m₁)
      (hthen : rest.drop taken = .word .THEN :: more) (hmore : ∀ n, more ≠ [.integer n])
      (h : ComesTo more m₁ tokens m₂) : ComesTo (.word .IF :: rest) m tokens m₂

theorem ComesTo.calm {tokens tokens' : List Token} {m m' : Machine}
    (h : ComesTo tokens m tokens' m') : m.Calm m' := by
  induction h with
  | here tokens m => exact .refl m
  | @behindThen rest more tokens taken m m₁ m₂ hcondition _ _ _ ih =>
    have hcalm := (calm_condition rest m).calm
    rw [Run.final, hcondition] at hcalm
    exact hcalm.trans ih

theorem obeys_condition (tokens : List Token) : Obeys .evaluation (condition tokens) :=
  (obeys_evaluate tokens).bind fun _ => (obeys_liftM (by simp)).bind fun _ =>
    (obeys_liftM (by simp)).bind fun _ => obeys_pure _

theorem ComesTo.evaluated {tokens tokens' : List Token} {m m' : Machine}
    (h : ComesTo tokens m tokens' m') : m.Evaluated m' := by
  induction h with
  | here tokens m => exact .refl m
  | behindThen hcondition _ _ _ ih => exact ((obeys_condition _).ok hcondition).trans ih

theorem ComesTo.run_eq {tokens tokens' : List Token} {m m' : Machine}
    (h : ComesTo tokens m tokens' m') : run tokens m = run tokens' m' := by
  induction h with
  | here => rfl
  | @behindThen rest more tokens taken m m₁ m₂ hcondition hthen hmore _ ih =>
    rw [← ih, run.eq_def]
    change (condition rest >>= _) m = _
    rw [Run.bind_apply, hcondition]
    simp only [Bool.not_true, Bool.false_eq_true, if_false]
    generalize rest.drop taken = behind at hthen
    subst hthen
    dsimp only
    split
    · exact absurd rfl (hmore _)
    · rfl

theorem ComesTo.trans {tokens tokens₁ tokens₂ : List Token} {m m₁ m₂ : Machine}
    (h : ComesTo tokens m tokens₁ m₁) (h' : ComesTo tokens₁ m₁ tokens₂ m₂) :
    ComesTo tokens m tokens₂ m₂ := by
  induction h with
  | here => exact h'
  | behindThen hcondition hthen hmore _ ih => exact .behindThen hcondition hthen hmore (ih h')

theorem ComesTo.ne_nil {t : Token} {tokens rest : List Token} {m m' : Machine}
    (h : ComesTo tokens m (t :: rest) m') : tokens ≠ [] := by
  rintro rfl
  cases h

/-- What is so of each way to go on behind a condition is so of the whole statement. -/
theorem run_if {Q : Machine → Run Unit → Prop} {rest : List Token} {m : Machine}
    (hbind : ∀ f : Bool × Nat → Run Unit,
      (∀ result m₁, condition rest m = .ok result m₁ → Q m₁ (f result)) →
        Q m (condition rest >>= f))
    (hskip : ∀ m₁, Q m₁ skipLine)
    (hline : ∀ taken m₁ n, condition rest m = .ok (true, taken) m₁ →
      rest.drop taken = [.word .THEN, .integer n] →
        Q m₁ (do jumpTo (← lineArgument [.integer n])))
    (hgoto : ∀ taken m₁ more, condition rest m = .ok (true, taken) m₁ →
      rest.drop taken = .word .GOTO :: more → Q m₁ (do jumpTo (← lineArgument more)))
    (hrun : ∀ more m₁, more.length < rest.length →
      ComesTo (.word .IF :: rest) m more m₁ → Q m₁ (run more))
    (hfail : ∀ m₁, Q m₁ (Run.fail .badSyntax "EXPECTED THEN")) :
    Q m (run (.word .IF :: rest)) := by
  rw [run.eq_def]
  refine hbind _ fun result m₁ hcondition => ?_
  rcases result with ⟨holds, taken⟩
  dsimp only
  split
  · rename_i more hthen
    have hlength : more.length < rest.length := by
      have := congrArg List.length hthen
      simp only [List.length_drop, List.length_cons] at this
      omega
    cases holds with
    | false => exact hskip m₁
    | true =>
      simp only [Bool.not_true, Bool.false_eq_true, if_false]
      split
      · exact hline taken m₁ _ hcondition hthen
      · rename_i hmore
        exact hrun more m₁ hlength (.behindThen hcondition hthen hmore (.here more m₁))
  · rename_i more hgoto'
    cases holds with
    | false => exact hskip m₁
    | true => exact hgoto taken m₁ more hcondition hgoto'
  · exact hfail m₁

/-- A statement that takes the module in the variable scope back to its start: it empties the
module, loads it, or runs it anew. -/
def Renews (tokens : List Token) (m : Machine) : Prop :=
  ∃ tokens' m', ComesTo tokens m tokens' m' ∧
    ((∃ rest, tokens' = .word .NEW :: rest) ∨ (∃ rest, tokens' = .word .RUN :: rest) ∨
      ∃ name rest, tokens' = .command name :: rest ∧
        m'.registry.commands.get? name = some (.builtin .LOAD))

theorem Renews.of_comesTo {tokens tokens' : List Token} {m m' : Machine}
    (hcomes : ComesTo tokens m tokens' m') (h : Renews tokens' m') : Renews tokens m := by
  obtain ⟨tokens'', m'', h, hend⟩ := h
  exact ⟨tokens'', m'', hcomes.trans h, hend⟩

def Forgets (tokens : List Token) (m : Machine) : Prop :=
  ∃ rest m', ComesTo tokens m (.word .CLR :: rest) m'

theorem Forgets.of_comesTo {tokens tokens' : List Token} {m m' : Machine}
    (hcomes : ComesTo tokens m tokens' m') (h : Forgets tokens' m') : Forgets tokens m := by
  obtain ⟨rest, m'', h⟩ := h
  exact ⟨rest, m'', hcomes.trans h⟩

inductive EditsItself (m : Machine) : Edit → List Token → Prop
  | delete (rest : List Token) : EditsItself m .erase (.word .DELETE :: rest)
  | new (rest : List Token) : EditsItself m .replace (.word .NEW :: rest)
  | command {name : String} {c : BuiltinCommand} {e : Edit} (rest : List Token)
      (hc : m.registry.commands.get? name = some (.builtin c)) (h : c.Edits e) :
      EditsItself m e (.command name :: rest)

def Edits (e : Edit) (tokens : List Token) (m : Machine) : Prop :=
  ∃ tokens' m', ComesTo tokens m tokens' m' ∧ EditsItself m' e tokens'

theorem Edits.of_comesTo {e : Edit} {tokens tokens' : List Token} {m m' : Machine}
    (hcomes : ComesTo tokens m tokens' m') (h : Edits e tokens' m') : Edits e tokens m := by
  obtain ⟨tokens'', m'', h, hend⟩ := h
  exact ⟨tokens'', m'', hcomes.trans h, hend⟩

def Reads (tokens : List Token) (m : Machine) : Prop :=
  ∃ w rest m', ComesTo tokens m (.word w :: rest) m' ∧ (w = .READ ∨ w = .RESTORE)

theorem Reads.of_comesTo {tokens tokens' : List Token} {m m' : Machine}
    (hcomes : ComesTo tokens m tokens' m') (h : Reads tokens' m') : Reads tokens m := by
  obtain ⟨w, rest, m'', h, hw⟩ := h
  exact ⟨w, rest, m'', hcomes.trans h, hw⟩

theorem acts_run (tokens : List Token) (m : Machine) :
    ActsAt (Reads tokens m) (Renews tokens m) (Forgets tokens m) (Edits · tokens m) m
      (run tokens) := by
  rw [run.eq_def]
  split
  · exact acts_pure.actsAt _ _ _ _ m
  · rename_i name rest
    refine (acts_runCommand name rest m).mono False.elim (fun hload => ?_) False.elim fun e he => ?_
    · exact ⟨_, m, .here _ m, .inr (.inr ⟨name, rest, rfl, hload⟩)⟩
    · obtain ⟨c, hc, he⟩ := he
      exact ⟨_, m, .here _ m, .command rest hc he⟩
  · exact (Acts.of_calm (calm_assign _)).actsAt _ _ _ _ m
  · exact (Acts.of_calm (calm_assign _)).actsAt _ _ _ _ m
  · rename_i w rest
    cases w
    case IF =>
      suffices hif : ActsAt (Reads (.word .IF :: rest) m) (Renews (.word .IF :: rest) m)
          (Forgets (.word .IF :: rest) m) (Edits · (.word .IF :: rest) m) m
          (run (.word .IF :: rest)) by
        rw [run.eq_def] at hif
        exact hif
      refine run_if (fun f hf => .bind (calm_condition rest m) fun result m₁ h _ => hf result m₁ h)
        (fun m₁ => acts_skipLine.actsAt _ _ _ _ m₁)
        (fun _ m₁ _ _ _ => (acts_jump _).actsAt _ _ _ _ m₁)
        (fun _ m₁ _ _ _ => (acts_jump _).actsAt _ _ _ _ m₁)
        (fun more m₁ hlength hcomes => ?_)
        fun m₁ => (acts_fail (by decide) _).actsAt _ _ _ _ m₁
      exact (acts_run more m₁).mono (.of_comesTo hcomes) (.of_comesTo hcomes)
        (.of_comesTo hcomes) fun _ => .of_comesTo hcomes
    case NEW =>
      refine (acts_new m).mono False.elim (fun _ => ⟨_, m, .here _ m, .inl ⟨rest, rfl⟩⟩)
        False.elim ?_
      rintro _ rfl
      exact ⟨_, m, .here _ m, .new rest⟩
    case RUN =>
      refine (acts_runProgram rest m).mono False.elim (fun _ => ?_) False.elim fun _ => False.elim
      exact ⟨_, m, .here _ m, .inr (.inl ⟨rest, rfl⟩)⟩
    case CLR =>
      exact (acts_clearVariables m).mono False.elim False.elim (fun _ => ⟨rest, m, .here _ m⟩)
        fun _ => False.elim
    case DELETE =>
      refine (acts_delete rest m).mono False.elim False.elim False.elim ?_
      rintro _ rfl
      exact ⟨_, m, .here _ m, .delete rest⟩
    case READ =>
      have hread := (reading_read rest m).mono (Effect.calmBut_le_quietBut True)
      exact ActsAt.mono (.of_quiet hread _ _ _) (fun _ => ⟨_, rest, m, .here _ m, .inl rfl⟩)
        (fun h => h) (fun h => h) fun _ h => h
    case RESTORE =>
      have hrestore := (reading_restore rest m).mono (Effect.calmBut_le_quietBut True)
      exact ActsAt.mono (.of_quiet hrestore _ _ _) (fun _ => ⟨_, rest, m, .here _ m, .inr rfl⟩)
        (fun h => h) (fun h => h) fun _ h => h
    -- None of the others goes on to another statement, reads, takes a module back to its start,
    -- forgets its loops or edits its lines.
    all_goals refine Acts.actsAt ?_ _ _ _ _ m
    case DATA | REM => exact acts_pure
    case DEF => exact .of_calm (calm_define rest)
    case DIM => exact .of_quiet (quiet_dim rest)
    case DUMP => exact .of_calm calm_dump
    case END => exact acts_endModule
    case FOR => exact acts_beginLoop rest
    case GET => exact .of_calm (calm_getKey false rest)
    case GETKEY => exact .of_calm (calm_getKey true rest)
    case GOSUB => exact .bind (calm_lineArgument rest) fun n => acts_callLine n
    case GOTO => exact acts_jump rest
    case INPUT => exact .of_calm (calm_input rest)
    case LET => exact .of_calm (calm_assign rest)
    case LIST => exact .of_calm (calm_list rest)
    case MODULE => exact acts_enterModule rest
    case NEXT => exact acts_endLoop rest
    case ON => exact acts_onSelector rest
    case PRINT => exact .of_calm (calm_print rest)
    case RETURN => exact acts_returnFromCall
    case SCNCLR => exact .of_calm calm_clearScreen
    case FN | STEP | THEN | TO | USING => exact acts_throw (by decide)
  · exact (acts_throw (by decide)).actsAt _ _ _ _ m
termination_by tokens.length
decreasing_by
  subst_vars
  exact Nat.lt_succ_of_lt hlength

end Statement

end LineBasic
