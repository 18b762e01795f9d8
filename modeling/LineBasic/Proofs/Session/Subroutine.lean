import LineBasic.Proofs.Session.Returning

/-!
# Subroutines and the loops of their callers

A call notes how many loops are under way. Nothing that the subroutine does reaches below that
note: loops begin and end above it, calls inside the subroutine note at least as many loops, and a
return from one of them ends loops only above its own note. So the return from the call finds the
loops as the call left them.
-/

set_option autoImplicit false

namespace LineBasic

/-- A call with what lies below it: the loops and the calls that were under way when it was made.
All calls from it upwards note at least as many loops. -/
structure Sheltered (loops₀ : Stack ForLoop) (gosubs₀ : Stack Gosub) (g : Gosub)
    (loops : Stack ForLoop) (gosubs : Stack Gosub) : Prop where
  below : loops.truncate loops₀.size = loops₀
  reached : gosubs.truncate (gosubs₀.size + 1) = gosubs₀.push g
  notes : ∀ g' ∈ gosubs.toList.drop gosubs₀.size, loops₀.size ≤ g'.loops

namespace Sheltered

variable {loops₀ loops loops' : Stack ForLoop} {gosubs₀ gosubs gosubs' : Stack Gosub} {g : Gosub}

theorem called (loops₀ : Stack ForLoop) (gosubs₀ : Stack Gosub) {g : Gosub}
    (hg : g.loops = loops₀.size) : Sheltered loops₀ gosubs₀ g loops₀ (gosubs₀.push g) where
  below := Stack.truncate_of_size_le (Nat.le_refl _)
  reached := Stack.truncate_of_size_le (Nat.le_refl _)
  notes g' hg' := by
    have hdrop : (gosubs₀.push g).toList.drop gosubs₀.size = [g] := by
      rw [Stack.toList_push, ← gosubs₀.length_toList, List.drop_left]
    rw [hdrop, List.mem_singleton] at hg'
    rw [hg']
    exact Nat.le_of_eq hg.symm

theorem size_le (h : Sheltered loops₀ gosubs₀ g loops gosubs) : loops₀.size ≤ loops.size := by
  have hsize := congrArg Stack.size h.below
  rw [Stack.size_truncate] at hsize
  omega

theorem lt_size (h : Sheltered loops₀ gosubs₀ g loops gosubs) : gosubs₀.size < gosubs.size := by
  have hsize := congrArg Stack.size h.reached
  rw [Stack.size_truncate, Stack.size_push] at hsize
  omega

theorem le_top (h : Sheltered loops₀ gosubs₀ g loops gosubs) {g' : Gosub}
    (htop : gosubs.top? = some g') : loops₀.size ≤ g'.loops := by
  apply h.notes
  have hlist := Stack.toList_of_top? htop
  have hle : gosubs₀.size ≤ gosubs.pop.2.toList.length := by
    have hlength := congrArg List.length hlist
    have hlt := h.lt_size
    rw [gosubs.length_toList, List.length_append, List.length_singleton] at hlength
    omega
  rw [hlist, List.drop_append_of_le_length hle]
  exact List.mem_append_right _ (List.mem_singleton.2 rfl)

theorem le_floor {mod : Module} (h : Sheltered loops₀ gosubs₀ g mod.loops mod.gosubs) :
    loops₀.size ≤ mod.loopFloor := by
  have hlt := h.lt_size
  cases htop : mod.gosubs.top? with
  | none =>
    rw [Stack.top?, List.head?_eq_none_iff] at htop
    rw [Stack.size, Stack.size, htop] at hlt
    cases hlt
  | some g' =>
    rw [Module.loopFloor, htop]
    exact h.le_top htop

theorem cut (h : Sheltered loops₀ gosubs₀ g loops gosubs) {n : Nat} (hn : loops₀.size ≤ n) :
    Sheltered loops₀ gosubs₀ g (loops.truncate n) gosubs where
  below := by
    rw [Stack.truncate_truncate, Nat.min_eq_right hn]
    exact h.below
  reached := h.reached
  notes := h.notes

theorem drop (h : Sheltered loops₀ gosubs₀ g loops gosubs) {n : Nat}
    (hn : gosubs₀.size < (gosubs.truncate n).size) :
    Sheltered loops₀ gosubs₀ g loops (gosubs.truncate n) where
  below := h.below
  reached := by
    rw [Stack.size_truncate] at hn
    rw [Stack.truncate_truncate, Nat.min_eq_right (by omega)]
    exact h.reached
  notes g' hg' := by
    rw [Stack.toList_truncate, List.drop_take] at hg'
    exact h.notes g' (List.mem_of_mem_take hg')

/-- A turn keeps what a call shelters, as long as the call itself is kept. -/
theorem turn {E F : Prop} (h : Sheltered loops₀ gosubs₀ g loops gosubs)
    (hturn : Turn E F loops gosubs loops' gosubs') (hE : ¬E) (hF : ¬F)
    (hcall : gosubs₀.size < gosubs'.size) : Sheltered loops₀ gosubs₀ g loops' gosubs' := by
  cases hturn with
  | dropped n => exact h.drop hcall
  | looped l =>
    constructor
    · rw [Stack.truncate_push h.size_le]
      exact h.below
    · exact h.reached
    · exact h.notes
  | called g' hnote =>
    have hlt := h.lt_size
    constructor
    · exact h.below
    · rw [Stack.truncate_push hlt]
      exact h.reached
    · intro g'' hg''
      have hle : gosubs₀.size ≤ gosubs.toList.length := by
        rw [gosubs.length_toList]
        omega
      rw [Stack.toList_push, List.drop_append_of_le_length hle, List.mem_append,
        List.mem_singleton] at hg''
      rcases hg'' with hg'' | rfl
      · exact h.notes g'' hg''
      · rw [hnote]
        exact h.size_le
  | returned g' n htop => exact (h.drop hcall).cut (h.le_top htop)
  | emptied hrenews => exact absurd hrenews hE
  | forgotten hforgets => exact absurd hforgets hF

/-- The return from the call finds what the call left. -/
theorem pop (h : Sheltered loops₀ gosubs₀ g loops gosubs)
    (hlast : gosubs.size = gosubs₀.size + 1) : gosubs = gosubs₀.push g := by
  rw [← h.reached, Stack.truncate_of_size_le (Nat.le_of_eq hlast)]

end Sheltered

namespace Statement

open Run

inductive CallsLine : List Token → Machine → LineNumber → Machine → Prop
  | gosub {rest : List Token} {n : LineNumber} {m m₁ : Machine}
      (h : lineArgument rest m = .ok n m₁) : CallsLine (.word .GOSUB :: rest) m n m₁
  | selected {rest more : List Token} {items lines : List Item} {taken : Nat}
      {selection line : Value} {selector n : Int64} {m m₁ m₂ : Machine}
      (hitems : evaluate rest m = .ok (items, taken) m₁)
      (hselection : Item.single items = .ok selection) (hselector : selection.toInt = .ok selector)
      (hgosub : rest.drop taken = .word .GOSUB :: more)
      (hlines : evaluateAll more m₁ = .ok lines m₂) (hfirst : ¬selector < 1)
      (hline : (Item.values lines)[selector.toInt.toNat - 1]? = some line)
      (hn : line.toInt = .ok n) : CallsLine (.word .ON :: rest) m n.toInt m₂

variable {tokens : List Token} {m m₁ : Machine} {n : LineNumber}

theorem CallsLine.run_eq (h : CallsLine tokens m n m₁) : run tokens m = callLine n m₁ := by
  cases h with
  | gosub h =>
    rw [run.eq_def]
    change (lineArgument _ >>= callLine) m = _
    rw [bind_apply, h]
  | selected hitems hselection hselector hgosub hlines hfirst hline hn =>
    rw [run.eq_def]
    change onSelector _ m = _
    rw [onSelector, bind_apply, hitems]
    simp only [hselection, hselector, hgosub, liftM_ok, pure_bind_run]
    rw [jumpList, bind_apply, hlines]
    simp only [hfirst, hline, hn, liftM_ok, pure_bind_run, if_false, if_true]

theorem callsLine_of_ok {rest : List Token} (h : run (.word .GOSUB :: rest) m = .ok () m₁) :
    ∃ n m₂, CallsLine (.word .GOSUB :: rest) m n m₂ := by
  rw [run.eq_def] at h
  change (lineArgument rest >>= callLine) m = _ at h
  cases hline : lineArgument rest m with
  | ok n m₂ => exact ⟨n, m₂, .gosub hline⟩
  | error f m₂ =>
    rw [bind_apply, hline] at h
    cases h

theorem eq_of_callLine (hlevel : m.scopes.inLockstep = true) (h : callLine n m = .ok () m₁) :
    m₁ = (m.pushGosub ⟨m.codeModule.pc, m.codeModule.loops.size⟩).setPc (.atLine n) := by
  have hframe : m.callFrame = ⟨m.codeModule.pc, m.codeModule.loops.size⟩ := by
    simp [Machine.callFrame, Machine.enterCode_of_inLockstep hlevel]
  rw [callLine_apply, Machine.enterCode_of_inLockstep hlevel, hframe] at h
  split at h
  · cases h
  · split at h
    · cases h
    · cases h
      rfl

theorem CallsLine.calm (h : CallsLine tokens m n m₁) : m.Calm m₁ := by
  cases h with
  | gosub h => exact (calm_lineArgument _).ok h
  | selected hitems _ _ _ hlines =>
    exact ((calm_evaluate _).ok hitems).trans ((calm_evaluateAll _).ok hlines)

end Statement

namespace Session

open Run

abbrev Shelters (m : Machine) (id : ModuleId) (loops₀ : Stack ForLoop) (gosubs₀ : Stack Gosub)
    (g : Gosub) : Prop :=
  Sheltered loops₀ gosubs₀ g (m.moduleAt id).loops (m.moduleAt id).gosubs

variable {loops₀ : Stack ForLoop} {gosubs₀ : Stack Gosub} {g : Gosub} {id : ModuleId}

theorem Shelters.quiet {reads : Prop} {m m' : Machine} (h : Shelters m id loops₀ gosubs₀ g)
    (hquiet : m.QuietBut reads m') : Shelters m' id loops₀ gosubs₀ g := by
  obtain ⟨n, hfloor, hloops⟩ := hquiet.loops id
  rw [Shelters, hloops, hquiet.gosubs]
  apply h.cut
  exact Nat.le_trans h.le_floor hfloor

/-- A step inside a subroutine keeps what the call shelters. -/
theorem Shelters.step {m : Machine} (h : Shelters m id loops₀ gosubs₀ g) (hm : m.WellScoped)
    (hspared : Renews m ∨ Forgets m → m.scopes.variableModule ≠ id)
    (hcall : gosubs₀.size < ((step.final m).moduleAt id).gosubs.size) :
    Shelters (step.final m) id loops₀ gosubs₀ g := by
  refine step_rule (I := fun m₁ => m₁.WellScoped ∧ m₁.scopes = m.scopes ∧
    Shelters m₁ id loops₀ gosubs₀ g) (J := fun m' => gosubs₀.size < (m'.moduleAt id).gosubs.size →
      Shelters m' id loops₀ gosubs₀ g) ?_ ?_ ?_ ?_ ⟨hm, rfl, h⟩ hcall
  · rintro m₁ m₂ hquiet ⟨hm₁, hscopes, h₁⟩
    exact ⟨hm₁.quiet hquiet, hquiet.scopes.trans hscopes, h₁.quiet hquiet⟩
  · rintro m₁ pc ⟨hm₁, hscopes, h₁⟩
    have h₂ : Shelters (m₁.setPc pc) id loops₀ gosubs₀ g := by
      rw [Shelters, Machine.loops_setPc, Machine.gosubs_setPc]
      exact h₁
    exact ⟨hm₁.setPc pc, hscopes, h₂⟩
  · rintro m₁ r hact ⟨hm₁, hscopes, h₁⟩ hcall
    apply h₁.turn (hact.turns hm₁ id) _ _ hcall
    · rintro ⟨hrenews, hid⟩
      exact hspared (.inl hrenews) (by rw [hid, hscopes])
    · rintro ⟨hforgets, hid⟩
      exact hspared (.inr hforgets) (by rw [hid, hscopes])
  · intro m' host hm' hcall
    exact hm' hcall

/-- A state within a call of a module. The next statement does not empty the module, load it, run
it anew or forget its loops. -/
def WithinCall (id : ModuleId) (depth : Nat) (m : Machine) : Prop :=
  depth < (m.moduleAt id).gosubs.size ∧
    (Renews m ∨ Forgets m → m.scopes.variableModule ≠ id)

theorem Shelters.steps {m m' : Machine} (h : Shelters m id loops₀ gosubs₀ g) (hm : m.WellScoped)
    (hsteps : StepsWhile (WithinCall id gosubs₀.size) m m')
    (hcall : gosubs₀.size < (m'.moduleAt id).gosubs.size) : Shelters m' id loops₀ gosubs₀ g := by
  induction hsteps with
  | refl m => exact h
  | @head m m₁ m' hwithin hstep hrest ih =>
    have hfinal : Session.step.final m = m₁ := by rw [final, hstep]
    have hcall₁ : gosubs₀.size < (m₁.moduleAt id).gosubs.size := by
      cases hrest with
      | refl => exact hcall
      | head hwithin₁ => exact hwithin₁.1
    rw [← hfinal] at hcall₁ ih
    exact ih (h.step hm hwithin.2 hcall₁) hm.step hcall

/-- A call within the running module shelters the loops and the calls there. -/
theorem shelters_of_call {m m₁ mb mc : Machine} {n target : LineNumber} {text : String}
    {tokens tokens' : List Token} {next : Nat} (hm : m.WellScoped)
    (hlexed : Lexed m n text tokens next)
    (hcomes : Statement.ComesTo tokens (begun n tokens next m) tokens' mb)
    (hcall : Statement.CallsLine tokens' mb target mc) (hlevel : m.scopes.inLockstep = true)
    (hstep : Session.step m = .ok false m₁) :
    Shelters m₁ m.scopes.codeModule m.codeModule.loops m.codeModule.gosubs
      ⟨⟨some n, next⟩, m.codeModule.loops.size⟩ := by
  have htokens : tokens ≠ [] := by
    rintro rfl
    cases hcomes
    cases hcall
  have hpoised := (hlexed.poised hm hcomes).calm hcall.calm
  rw [step_of_statement hlexed htokens, hcomes.run_eq, hcall.run_eq] at hstep
  obtain ⟨m', hrun, -, -, rfl⟩ := ok_of_afterStatement hstep
  have hm' := Statement.eq_of_callLine (by rwa [hpoised.scopes]) hrun
  have hat : (mc.pushGosub ⟨mc.codeModule.pc, mc.codeModule.loops.size⟩).moduleAt
      m.scopes.codeModule = { mc.codeModule with
        gosubs := mc.codeModule.gosubs.push ⟨mc.codeModule.pc, mc.codeModule.loops.size⟩ } := by
    rw [← hpoised.scopes]
    exact Machine.codeModule_updateCodeModule hpoised.wellScoped.codeModule_lt _
  have hafter : Shelters m' m.scopes.codeModule m.codeModule.loops m.codeModule.gosubs
      ⟨⟨some n, next⟩, m.codeModule.loops.size⟩ := by
    rw [hm', Shelters, Machine.loops_setPc, Machine.gosubs_setPc, hat, hpoised.pc, hpoised.loops,
      hpoised.gosubs]
    exact .called _ _ rfl
  exact hafter

/-- After the return from a call within a module, its loops are those before the call, and it goes
on behind the statement that made the call. -/
theorem return_restores_loops {m₀ m m₁ m₂ mb mc u : Machine} {line text text' : String} {k : Nat}
    {n n' target : LineNumber} {tokens tokens' calling rest : List Token} {next next' : Nat}
    (hm : Underway m₀ line k m) (hlexed : Lexed m n text tokens next)
    (hcomes : Statement.ComesTo tokens (begun n tokens next m) calling mb)
    (hcall : Statement.CallsLine calling mb target mc) (hlevel : m.scopes.inLockstep = true)
    (hstep : Session.step m = .ok false m₁)
    (hsteps : StepsWhile (WithinCall m.scopes.codeModule m.codeModule.gosubs.size) m₁ m₂)
    (hcode : m₂.scopes.codeModule = m.scopes.codeModule)
    (hlast : m₂.codeModule.gosubs.size = m.codeModule.gosubs.size + 1)
    (hlexed' : Lexed m₂ n' text' tokens' next')
    (hreturn : Statement.ComesTo tokens' (begun n' tokens' next' m₂) (.word .RETURN :: rest) u) :
    ∃ m₃, (Session.step m₂ = .ok false m₃ ∨ Session.step m₂ = .error (.plain .interrupted) m₃) ∧
      m₃.scopes = m₂.scopes ∧ m₃.codeModule.loops = m.codeModule.loops ∧
      m₃.codeModule.gosubs = m.codeModule.gosubs ∧ m₃.codeModule.pc = ⟨some n, next⟩ := by
  obtain ⟨j, hm₂⟩ := hsteps.underway (hm.stepped hstep)
  have hcall₂ : m.codeModule.gosubs.size < (m₂.moduleAt m.scopes.codeModule).gosubs.size := by
    rw [← hcode]
    exact Nat.lt_of_lt_of_eq (Nat.lt_succ_self _) hlast.symm
  have hshelters := (shelters_of_call hm.wellScoped hlexed hcomes hcall hlevel hstep).steps
    (hm.stepped hstep).wellScoped hsteps hcall₂
  rw [Shelters, ← hcode] at hshelters
  have hgosubs : m₂.codeModule.gosubs = _ := hshelters.pop hlast
  have htop : m₂.codeModule.gosubs.top? = some ⟨⟨some n, next⟩, m.codeModule.loops.size⟩ := by
    rw [hgosubs]
    rfl
  have hpoised := hlexed'.poised hm₂.wellScoped hreturn
  have hback := Machine.codeModule_updateCodeModule hpoised.wellScoped.codeModule_lt fun mod =>
    { mod with
      gosubs := mod.gosubs.pop.2
      loops := mod.loops.truncate m.codeModule.loops.size
      pc := ⟨some n, next⟩ }
  have halive : u.host.halted = false := hlexed'.alive_of_comesTo hreturn
  obtain ⟨host, hgoes⟩ := afterStatement_of_ok
    (m := u.popGosub ⟨⟨some n, next⟩, m.codeModule.loops.size⟩) halive
    (hpoised.exitCode.trans hm₂.exitCode)
  rw [step_returns hlexed' hreturn htop, if_neg (by simp [ProgramCounter.isEnd])]
  refine ⟨_, hgoes, hpoised.scopes, ?_, ?_, ?_⟩
  · refine (congrArg Module.loops hback).trans ?_
    dsimp only
    rw [hpoised.loops]
    exact hshelters.below
  · refine (congrArg Module.gosubs hback).trans ?_
    dsimp only
    rw [hpoised.gosubs, hgosubs]
    rfl
  · exact congrArg Module.pc hback

/-- A subroutine begins a loop of its own over the variable of its caller's loop. -/
theorem return_restores_loops_over_same_variable :
    let m₀ := enterAll 9 ["10 FOR I=1 TO 2: GOSUB 100", "20 END", "100 FOR I=5 TO 6: RETURN"] {}
    ∃ m m₁ m₂ m₃, Underway m₀ "RUN" 2 m ∧ Session.step m = .ok false m₁ ∧
      StepsWhile (WithinCall 0 0) m₁ m₂ ∧ m₂.codeModule.loops.size = 2 ∧
      (Session.step m₂ = .ok false m₃ ∨ Session.step m₂ = .error (.plain .interrupted) m₃) ∧
      m₃.codeModule.loops = m.codeModule.loops ∧ m₃.codeModule.loops.size = 1 ∧
      m₃.codeModule.pc = ⟨some 10, 23⟩ := by
  intro m₀
  have hstart : Underway m₀ "RUN" 0 _ :=
    .prepared (Waiting.enterAll 9 _) (by decide +kernel) (by decide +kernel) (by decide +kernel)
  obtain ⟨m, hm, hscopes, hsize, hdepth, hline, m₁, hm₁, hdepth₁, hline₁, m₂, hm₂, hscopes₂, hsize₂,
      hdepth₂, hline₂⟩ :
      ∃ m, ongoing 2 (prepare (normalLine "RUN") { m₀ with exitCode := none }) = some m ∧
        m.scopes = ⟨[0], [0]⟩ ∧ m.codeModule.loops.size = 1 ∧ m.codeModule.gosubs.size = 0 ∧
        Lexed m 10 "FOR I=1 TO 2: GOSUB 100" [.word .GOSUB, .integer "100"] 23 ∧
        ∃ m₁, ongoing 1 m = some m₁ ∧ (m₁.moduleAt 0).gosubs.size = 1 ∧
          Lexed m₁ 100 "FOR I=5 TO 6: RETURN" [.word .FOR, .ident "I", .operator .equal,
            .integer "5", .word .TO, .integer "6"] 13 ∧
          ∃ m₂, ongoing 1 m₁ = some m₂ ∧ m₂.scopes = ⟨[0], [0]⟩ ∧
            m₂.codeModule.loops.size = 2 ∧ m₂.codeModule.gosubs.size = 1 ∧
            Lexed m₂ 100 "FOR I=5 TO 6: RETURN" [.word .RETURN] 20 := by
    decide +kernel
  obtain ⟨_, hcall, ⟨⟩⟩ := ongoing_succ.1 hm₁
  obtain ⟨_, hloop, ⟨⟩⟩ := ongoing_succ.1 hm₂
  have hsteps : StepsWhile (WithinCall 0 0) m₁ m₂ := by
    refine .head ⟨by omega, ?_⟩ hloop (.refl m₂)
    rintro (hrenews | hforgets)
    · exact absurd hrenews (not_renews_of_lexed hline₁ (by decide) (by decide) (by decide))
    · exact absurd hforgets (not_forgets_of_lexed hline₁ (by decide) (by decide))
  have hcode : m.scopes.codeModule = 0 := by rw [hscopes]; rfl
  have hrun := hcall
  rw [step_of_statement hline (by simp)] at hrun
  obtain ⟨_, hrun, -⟩ := ok_of_afterStatement hrun
  obtain ⟨target, mc, hcalls⟩ := Statement.callsLine_of_ok hrun
  have hunder := hstart.ongoing hm
  obtain ⟨m₃, hstep, -, hloops, -, hpc⟩ := return_restores_loops hunder hline (.here _ _) hcalls
    (by rw [hscopes]; rfl) hcall (by rw [hcode, hdepth]; exact hsteps) (by rw [hscopes₂, hscopes])
    (by rw [hdepth₂, hdepth]) hline₂ (.here _ _)
  exact ⟨m, m₁, m₂, m₃, hunder, hcall, hsteps, hsize₂, hstep, hloops, by rw [hloops, hsize], hpc⟩

end Session

end LineBasic
