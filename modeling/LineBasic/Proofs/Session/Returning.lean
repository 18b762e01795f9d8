import LineBasic.Proofs.Session.Underway

/-!
# How a module comes back to its caller

A module that was entered finishes past its last line, or by returning from the call that entered
it. If no other module was named meanwhile, its caller goes on from where it stands. A module that
was named and not entered is all that is left otherwise: the finished module is on top as before,
and the run is over.
-/

set_option autoImplicit false

namespace LineBasic

namespace Session

inductive Finishes (m : Machine) : Prop
  | pastLastLine (n : LineNumber) (text : String) (next : Nat) (h : Lexed m n text [] next)
      (hn : 0 ≤ n) (hlast : m.codeModule.listing.nextAfter? n = none)
  | byReturn (n : LineNumber) (text : String) (tokens rest : List Token) (next : Nat) (m₁ : Machine)
      (g : Gosub) (h : Lexed m n text tokens next)
      (hreturn : Statement.ComesTo tokens (begun n tokens next m) (.word .RETURN :: rest) m₁)
      (htop : m.codeModule.gosubs.top? = some g) (hentered : g.resume.isEnd = true)

/-- What a module on top of its caller leaves when it has finished. In lockstep the caller goes on
from where it stands, unless it was called by itself and so stands at the end. Otherwise it is only
the named module that is left, and the run is over. -/
def HandedBack (m m' : Machine) (top caller : ModuleId) (rest : List ModuleId) : Prop :=
  if m.scopes.inLockstep then
    m'.scopes = ⟨caller :: rest, caller :: rest⟩ ∧
      m'.codeModule.pc = if caller = top then .atEnd else (m.moduleAt caller).pc
  else
    m'.scopes = ⟨top :: caller :: rest, top :: caller :: rest⟩ ∧
      m'.codeModule.pc.isEnd ∧ step m' = .ok true m'

theorem handedBack_endModule {m m₁ m' : Machine} {top caller : ModuleId} {rest : List ModuleId}
    (hm₁ : m₁.WellScoped) (hscopes : m₁.scopes = m.scopes)
    (hstack : m.scopes.codeStack = top :: caller :: rest)
    (hpc : ∀ id ≠ top, (m₁.moduleAt id).pc = (m.moduleAt id).pc)
    (hend : m₁.codeModule.pc.isEnd = true) (hscopes' : m'.scopes = m₁.endModule.scopes)
    (hmodules : m'.modules = m₁.endModule.modules) : HandedBack m m' top caller rest := by
  have hpaired : m.scopes.Paired := hscopes ▸ hm₁.paired
  have htop : m₁.scopes.codeModule = top := by rw [hscopes, Scopes.codeModule, hstack]; rfl
  have hcaller : caller < m₁.modules.length :=
    hm₁.known_code (by rw [hscopes, hstack]; exact List.mem_cons_of_mem top List.mem_cons_self)
  have hat (id : ModuleId) : m'.moduleAt id = m₁.endModule.moduleAt id := by
    rw [Machine.moduleAt, Machine.moduleAt, hmodules]
  rw [Machine.scopes_endModule, hscopes] at hscopes'
  rw [HandedBack, Machine.codeModule, hat, Machine.pc_endModule, htop, hscopes]
  cases hlevel : m.scopes.inLockstep with
  | true =>
    rw [hpaired.leave_of_inLockstep hlevel hstack] at hscopes'
    have hcode : m'.scopes.codeModule = caller := by rw [hscopes']; rfl
    rw [if_pos rfl, hcode]
    refine ⟨hscopes', ?_⟩
    by_cases hself : caller = top
    · rw [if_pos ⟨rfl, hself, hcaller⟩, if_pos hself]
    · rw [if_neg fun h => hself h.2.1, if_neg hself, hpc caller hself]
  | false =>
    rw [hpaired.leave_of_ahead hlevel, hstack] at hscopes'
    have hcode : m'.scopes.codeModule = m₁.scopes.codeModule := by rw [hscopes', htop]; rfl
    have hstopped : m'.codeModule.pc.isEnd = true := by
      rw [Machine.codeModule, hat, Machine.pc_endModule, if_neg (by simp [hscopes, hlevel]), hcode]
      exact hend
    rw [if_neg (by simp), if_neg (by simp), hcode]
    exact ⟨hscopes', hend, step_of_stopped (by simpa [ProgramCounter.isEnd] using hstopped)⟩

/-- Past the last line of a program the module is left. -/
theorem step_of_lastLine {m : Machine} {n : LineNumber} {text : String} {next : Nat}
    (hlexed : Lexed m n text [] next) (hn : 0 ≤ n)
    (hlast : m.codeModule.listing.nextAfter? n = none) :
    step m = .ok false (m.setPc .atEnd).endModule := by
  rw [step_of_end hlexed, leaveLine_apply, hlast]
  simp [Int.not_lt.2 hn]

theorem step_returns {m m₁ : Machine} {n : LineNumber} {text : String} {tokens rest : List Token}
    {next : Nat} {g : Gosub} (hlexed : Lexed m n text tokens next)
    (hreturn : Statement.ComesTo tokens (begun n tokens next m) (.word .RETURN :: rest) m₁)
    (htop : m.codeModule.gosubs.top? = some g) :
    step m = afterStatement
      (.ok () (if g.resume.isEnd then (m₁.popGosub g).endModule else m₁.popGosub g)) := by
  have hcalm := (calm_begun hlexed.line tokens next).trans hreturn.calm
  have hscopes : m₁.scopes = m.scopes := hcalm.scopes
  have hgosubs : m₁.codeModule.gosubs.top? = some g := by
    rw [Machine.codeModule, hcalm.gosubs, hscopes, Machine.gosubs_setPc]
    exact htop
  have htokens : tokens ≠ [] := by
    rintro rfl
    cases hreturn
  have hrun : Statement.run (.word .RETURN :: rest) m₁ = Statement.returnFromCall m₁ := by
    rw [Statement.run.eq_def]
  rw [step_of_statement hlexed htokens, hreturn.run_eq, hrun, Statement.returnFromCall_apply,
    hgosubs]

/-- A return from the call that entered a module leaves the module. -/
theorem step_of_return {m m₁ : Machine} {n : LineNumber} {text : String}
    {tokens rest : List Token} {next : Nat} {g : Gosub} (hlexed : Lexed m n text tokens next)
    (hreturn : Statement.ComesTo tokens (begun n tokens next m) (.word .RETURN :: rest) m₁)
    (htop : m.codeModule.gosubs.top? = some g) (hentered : g.resume.isEnd = true) :
    step m = afterStatement (.ok () (m₁.popGosub g).endModule) := by
  rw [step_returns hlexed hreturn htop, if_pos hentered]

theorem handedBack_of_lastLine {m : Machine} {top caller : ModuleId} {rest : List ModuleId}
    (hm : m.WellScoped) (hstack : m.scopes.codeStack = top :: caller :: rest) :
    HandedBack m (m.setPc .atEnd).endModule top caller rest := by
  have hcode : m.scopes.codeModule = top := by rw [Scopes.codeModule, hstack]; rfl
  refine handedBack_endModule (hm.setPc _) rfl hstack (fun id hid => ?_) ?_ rfl rfl
  · rw [Machine.pc_setPc, if_neg fun h => hid (h.1.trans hcode)]
  · rw [Machine.setPc, Machine.codeModule_updateCodeModule hm.codeModule_lt]
    rfl

theorem handedBack_of_return {m m₁ m' : Machine} {top caller : ModuleId} {rest : List ModuleId}
    {pc : ProgramCounter} {g : Gosub} (hm : m.WellScoped)
    (hstack : m.scopes.codeStack = top :: caller :: rest) (hcalm : (m.setPc pc).Calm m₁)
    (hentered : g.resume.isEnd = true) (hscopes : m'.scopes = (m₁.popGosub g).endModule.scopes)
    (hmodules : m'.modules = (m₁.popGosub g).endModule.modules) :
    HandedBack m m' top caller rest := by
  have hcode : m.scopes.codeModule = top := by rw [Scopes.codeModule, hstack]; rfl
  have hscopes₁ : m₁.scopes = m.scopes := hcalm.scopes
  have hm₁ := (hm.setPc pc).quiet hcalm.quiet
  refine handedBack_endModule (hm₁.popGosub g) hscopes₁ hstack (fun id hid => ?_) ?_ hscopes
    hmodules
  · rw [Machine.popGosub, Machine.updateCodeModule, hscopes₁, hcode,
      Machine.moduleAt_updateModule_of_ne hid, hcalm.pc, Machine.pc_setPc,
      if_neg fun h => hid (h.1.trans hcode)]
  · rw [Machine.popGosub, Machine.codeModule_updateCodeModule hm₁.codeModule_lt]
    exact hentered

/-- A module that was entered and finishes hands back to its caller. -/
theorem finished_module_hands_back {m₀ m : Machine} {line : String} {k : Nat}
    (hm : Underway m₀ line k m) {top caller : ModuleId} {rest : List ModuleId}
    (hstack : m.scopes.codeStack = top :: caller :: rest) (hfinish : Finishes m) :
    ∃ m', (step m = .ok false m' ∨ step m = .error (.plain .interrupted) m') ∧
      HandedBack m m' top caller rest := by
  have hscoped := hm.wellScoped
  cases hfinish with
  | pastLastLine n text next hlexed hn hlast =>
    exact ⟨_, .inl (step_of_lastLine hlexed hn hlast), handedBack_of_lastLine hscoped hstack⟩
  | byReturn n text tokens rest' next m₁ g hlexed hreturn htop hentered =>
    have hcalm := (calm_begun hlexed.line tokens next).trans hreturn.calm
    have hexit : (m₁.popGosub g).endModule.exitCode = none := by
      rw [exitCode_endModule]
      exact hcalm.exitCode.trans hm.exitCode
    have halive : (m₁.popGosub g).endModule.host.halted = false := by
      rw [(m₁.popGosub g).sameWorld_endModule.host]
      change m₁.host.halted = false
      exact hlexed.alive_of_comesTo hreturn
    -- The break key is asked for when the module is left already.
    obtain ⟨host, hgoes⟩ := afterStatement_of_ok halive hexit
    rw [← step_of_return hlexed hreturn htop hentered] at hgoes
    exact ⟨_, hgoes, handedBack_of_return hscoped hstack hcalm hentered rfl rfl⟩

/-- A call into a module comes back behind the call. -/
theorem finished_module_hands_back_by_return :
    let m₀ := enterAll 9 ["MODULE LIB", "10 RETURN", "END", "10 MODULE LIB: GOSUB 10: PRINT 1"] {}
    ∃ m m', Underway m₀ "RUN" 3 m ∧ m.scopes.codeStack = [1, 0] ∧ Finishes m ∧
      (step m = .ok false m' ∨ step m = .error (.plain .interrupted) m') ∧
      m'.scopes = ⟨[0], [0]⟩ ∧ m'.codeModule.pc = ⟨some 10, 21⟩ := by
  intro m₀
  have hstart : Underway m₀ "RUN" 0 _ :=
    .prepared (Waiting.enterAll 9 _) (by decide +kernel) (by decide +kernel) (by decide +kernel)
  obtain ⟨m, hm, hscopes, hcaller, hline, htop⟩ :
      ∃ m, ongoing 3 (prepare (normalLine "RUN") { m₀ with exitCode := none }) = some m ∧
        m.scopes = ⟨[1, 0], [1, 0]⟩ ∧ (m.moduleAt 0).pc = ⟨some 10, 21⟩ ∧
        Lexed m 10 "RETURN" [.word .RETURN] 6 ∧ m.codeModule.gosubs.top? = some ⟨.atEnd, 0⟩ := by
    decide +kernel
  have hfinish : Finishes m := .byReturn 10 _ _ [] 6 _ _ hline (.here _ _) htop rfl
  have hstack : m.scopes.codeStack = [1, 0] := by rw [hscopes]
  have hunder := hstart.ongoing hm
  obtain ⟨m', hstep, hback⟩ := finished_module_hands_back hunder hstack hfinish
  have hlevel : m.scopes.inLockstep = true := by rw [hscopes]; rfl
  rw [HandedBack, if_pos hlevel, if_neg (by decide), hcaller] at hback
  exact ⟨m, m', hunder, hstack, hfinish, hstep, hback⟩

/-- A module that was named in a called module and not entered keeps the call from coming back. -/
theorem named_module_keeps_call_from_coming_back :
    let m := enterAll 9 ["MODULE LIB", "10 MODULE OTHER", "END", "10 MODULE LIB: GOSUB 10",
      "20 PRINT \"MAIN\"", "RUN"] {}
    m.scopes = ⟨[1, 0], [1, 0]⟩ ∧ m.codeModule.pc = .atEnd ∧ m.host.printedSince 0 = "" := by
  decide +kernel

end Session

end LineBasic
