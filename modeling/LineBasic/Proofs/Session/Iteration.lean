import LineBasic.Proofs.Loop
import LineBasic.Proofs.Session.Underway

/-!
# How often a loop runs

A pass of a loop leads from behind its `FOR` to a `NEXT` of its variable, with the variable, the
loops and the calls as they were. The first value past the limit that steps from the start reach
says how many passes there are.
-/

set_option autoImplicit false

namespace LineBasic

def ForLoop.isPassedAfter (l : ForLoop) (start : Value) (n : Nat) : Bool :=
  match l.advances n start with
  | .ok v => l.isPassedBy v
  | .error _ => false

namespace Session

open Run

inductive AtNext (home : ModuleId) (name : String) (q u : Machine) : Prop
  | intro {n : LineNumber} {text : String} {tokens rest : List Token} {next : Nat}
      (hlexed : Lexed q n text tokens next)
      (hcomes : Statement.ComesTo tokens (begun n tokens next q) (.word .NEXT :: rest) u)
      (htargets : Statement.nextTargets rest u = .ok [(home, name)] u)

theorem atNext_of_ident {q : Machine} {n : LineNumber} {text name : String} {next : Nat}
    (h : Lexed q n text [.word .NEXT, .ident name] next) :
    AtNext q.scopes.variableModule name q (begun n [.word .NEXT, .ident name] next q) := by
  refine .intro h (.here _ _) ?_
  rw [Statement.nextTargets, get_bind, (calm_begun h.line _ _).scopes]
  rfl

theorem AtNext.step_eq {home : ModuleId} {name : String} {q u : Machine}
    (h : AtNext home name q u) :
    step q = afterStatement (match Statement.stepLoop (fun l => l.isOver home name) u with
      | .ok _ u' => .ok () u'
      | .error f u' => .error f u') := by
  obtain ⟨hlexed, hcomes, htargets⟩ := h
  rename_i n text tokens rest next
  have htokens := hcomes.ne_nil
  have hrest : rest.isEmpty = false := by
    cases rest with
    | nil => cases htargets
    | cons t ts => rfl
  have hrun : Statement.run (.word .NEXT :: rest) u = Statement.endLoop rest u := by
    rw [Statement.run.eq_def]
  rw [step_of_statement hlexed htokens, hcomes.run_eq, hrun, Statement.endLoop, hrest,
    if_neg (by simp), bind_apply, htargets]
  dsimp only [Statement.stepLoops]
  rw [bind_apply]
  cases Statement.stepLoop (fun l => l.isOver home name) u with
  | error f u' => rfl
  | ok ended u' => cases ended <;> rfl

theorem AtNext.alive {home : ModuleId} {name : String} {q u : Machine} (h : AtNext home name q u) :
    u.host.halted = false := by
  obtain ⟨hlexed, hcomes, -⟩ := h
  exact hlexed.alive_of_comesTo hcomes

theorem AtNext.poised {home : ModuleId} {name : String} {q u : Machine} (h : AtNext home name q u)
    (hq : q.WellScoped) : ∃ pc, Poised q pc u := by
  obtain ⟨hlexed, hcomes, -⟩ := h
  exact ⟨_, hlexed.poised hq hcomes⟩

/-- A statement has changed nothing but the running module and one scalar when it ends. -/
theorem goes_on_of_update {q u : Machine} {pc : ProgramCounter} (hu : Poised q pc u)
    (halive : u.host.halted = false) (hexit : q.exitCode = none) {f : Module → Module}
    (hf : ∀ mod, (f mod).vars = mod.vars ∧ (f mod).gosubs = mod.gosubs) :
    ∃ t, (afterStatement (.ok () (u.updateCodeModule f)) = .ok false t ∨
        afterStatement (.ok () (u.updateCodeModule f)) = .error (.plain .interrupted) t) ∧
      t.scopes = q.scopes ∧ (∀ home name, t.scalar home name = u.scalar home name) ∧
      t.codeModule.gosubs = q.codeModule.gosubs ∧ t.codeModule.loops = (f u.codeModule).loops ∧
      t.codeModule.pc = (f u.codeModule).pc := by
  have hat := Machine.codeModule_updateCodeModule hu.wellScoped.codeModule_lt f
  obtain ⟨host, hgoes⟩ := afterStatement_of_ok (m := u.updateCodeModule f) halive
    (hu.exitCode.trans hexit)
  refine ⟨_, hgoes, hu.scopes, ?_, ?_, congrArg Module.loops hat, congrArg Module.pc hat⟩
  · exact fun home name => Machine.scalar_updateCodeModule (fun mod => (hf mod).1) u home name
  · exact ((congrArg Module.gosubs hat).trans (hf _).2).trans hu.gosubs

/-- What a `NEXT` of the loop on top comes to. Only the break key keeps the run from going on. -/
theorem next_of_top {m₀ q u : Machine} {line : String} {k : Nat} {l : ForLoop}
    {outer : Stack ForLoop} (hq : Underway m₀ line k q) (hnext : AtNext l.home l.name q u)
    (hloops : q.codeModule.loops = outer.push l) (hfloor : q.codeModule.loopFloor ≤ outer.size)
    (hname : Kind.ofName l.name ≠ .text) (hv : (u.scalar l.home l.name).kind ≠ .text) :
    ∃ w t, l.advance (u.scalar l.home l.name) = .ok w ∧
      (step q = .ok false t ∨ step q = .error (.plain .interrupted) t) ∧
      t.scopes = q.scopes ∧ t.scalar l.home l.name = w ∧
      t.codeModule.gosubs = q.codeModule.gosubs ∧
      if l.isPassedBy w then t.codeModule.loops = outer
      else t.codeModule.loops = outer.push l ∧ t.codeModule.pc = l.resume := by
  obtain ⟨pc, hpoised⟩ := hnext.poised hq.wellScoped
  have hheld : u.codeModule.loops.held = l :: outer.held := by
    rw [hpoised.loops, hloops]
    rfl
  have hfloor' : u.codeModule.loopFloor ≤ outer.held.length := by
    rw [Module.loopFloor, hpoised.gosubs]
    exact hfloor
  have hhome : l.home < u.modules.length :=
    hpoised.wellScoped.homes u.scopes.codeModule l (by
      change l ∈ u.codeModule.loops.held
      rw [hheld]
      exact List.mem_cons_self)
  obtain ⟨w, hw, hloop⟩ := Statement.stepLoop_of_top (p := fun l' => l'.isOver l.home l.name)
    hheld hfloor' (by simp [ForLoop.isOver]) hhome hname hv
  have hset := hpoised.calm (u.calm_setScalar l.home (ForLoop.kind_of_advance hw))
  have hscalar := Machine.scalar_setScalar hhome l.name w
  cases hpassed : l.isPassedBy w with
  | true =>
    rw [hpassed, if_pos rfl] at hloop
    obtain ⟨t, hgoes, hscopes, hscalars, hgosubs, hloops', -⟩ := goes_on_of_update hset
      hnext.alive hq.exitCode (f := fun mod => { mod with loops := mod.loops.pop.2 })
        fun _ => ⟨rfl, rfl⟩
    refine ⟨w, t, hw, ?_, hscopes, (hscalars _ _).trans hscalar, hgosubs, ?_⟩
    · rw [hnext.step_eq, hloop]
      exact hgoes
    · rw [if_pos hpassed, hloops']
      dsimp only
      rw [hset.loops, hloops]
      rfl
  | false =>
    rw [hpassed, if_neg (by simp)] at hloop
    obtain ⟨t, hgoes, hscopes, hscalars, hgosubs, hloops', hpc⟩ := goes_on_of_update hset
      hnext.alive hq.exitCode (f := fun mod => { mod with pc := l.resume }) fun _ => ⟨rfl, rfl⟩
    refine ⟨w, t, hw, ?_, hscopes, (hscalars _ _).trans hscalar, hgosubs, ?_⟩
    · rw [hnext.step_eq, hloop]
      exact hgoes
    · rw [if_neg (by simp [hpassed])]
      exact ⟨hloops'.trans (hset.loops.trans hloops), hpc⟩

theorem loop_begins {m₀ m m₁ u : Machine} {line text : String} {k : Nat} {n : LineNumber}
    {tokens rest : List Token} {next : Nat} (hm : Underway m₀ line k m)
    (hlexed : Lexed m n text tokens next)
    (hcomes : Statement.ComesTo tokens (begun n tokens next m) (.word .FOR :: rest) u)
    (hstep : step m = .ok false m₁) :
    ∃ head u₁ start, Statement.loopHead rest u = .ok head u₁ ∧ Kind.ofName head.name ≠ .text ∧
      Value.coerceFor head.name head.start = .ok start ∧ m₁.scopes = m.scopes ∧
      m₁.scalar head.home head.name = start ∧ m₁.codeModule.gosubs = m.codeModule.gosubs ∧
      m₁.codeModule.loops = (Statement.endLoopsOver head.home head.name m.codeModule).loops.push
        (head.loop ⟨some n, next⟩) ∧ m₁.codeModule.pc = ⟨some n, next⟩ := by
  have htokens := hcomes.ne_nil
  have hrun : Statement.run (.word .FOR :: rest) u = Statement.beginLoop rest u := by
    rw [Statement.run.eq_def]
  rw [step_of_statement hlexed htokens, hcomes.run_eq, hrun] at hstep
  obtain ⟨m', hbegin, -, -, rfl⟩ := ok_of_afterStatement hstep
  obtain ⟨head, u₁, start, hhead, hname, hhome, hstart, rfl⟩ := Statement.eq_of_beginLoop hbegin
  have hpoised :=
    (hlexed.poised hm.wellScoped hcomes).calm ((Statement.calm_loopHead rest).ok hhead)
  obtain ⟨hgosubs, hpc, hloops⟩ := head.codeModule_enter start hpoised.wellScoped.codeModule_lt
  rw [Statement.loops_endLoopsOver_congr hpoised.loops hpoised.gosubs, hpoised.pc] at hloops
  exact ⟨head, u₁, start, hhead, hname, hstart, hpoised.scopes,
    head.scalar_enter start (hpoised.wellScoped.home_lt hhome), hgosubs.trans hpoised.gosubs,
    hloops, hpc.trans hpoised.pc⟩

/-- A pass of the body of a loop leads to a `NEXT` of its variable. The clock is set before the
`NEXT` is worked out, so the variable must have its value then. -/
structure Pass (code : ModuleId) (l : ForLoop) (t q u : Machine) : Prop where
  reaches : ∃ j, ongoing j t = some q
  atNext : AtNext l.home l.name q u
  running : q.scopes.codeModule = code
  value : u.scalar l.home l.name = t.scalar l.home l.name
  loops : (q.moduleAt code).loops = (t.moduleAt code).loops
  gosubs : (q.moduleAt code).gosubs = (t.moduleAt code).gosubs

/-- The machine when some passes of a loop are made, each with the `NEXT` at its end. There is no
further pass once the loops are no longer those that its `FOR` left. -/
inductive Passes (code : ModuleId) (l : ForLoop) (m₁ : Machine) : Nat → Machine → Prop
  | start : Passes code l m₁ 0 m₁
  | again {i : Nat} {t q u t' : Machine} (h : Passes code l m₁ i t)
      (hin : (t.moduleAt code).loops = (m₁.moduleAt code).loops) (hpass : Pass code l t q u)
      (hstep : step q = .ok false t') : Passes code l m₁ (i + 1) t'

theorem Passes.underway {m₀ m₁ t : Machine} {line : String} {k i : Nat} {code : ModuleId}
    {l : ForLoop} (h : Passes code l m₁ i t) (hm₁ : Underway m₀ line k m₁) :
    ∃ j, Underway m₀ line j t := by
  induction h with
  | start => exact ⟨k, hm₁⟩
  | again _ _ hpass hstep ih =>
    obtain ⟨j, ht⟩ := ih
    obtain ⟨j', hreaches⟩ := hpass.reaches
    exact ⟨_, (ht.ongoing hreaches).stepped hstep⟩

structure LoopState (code : ModuleId) (l : ForLoop) (start : Value) (outer : Stack ForLoop)
    (gosubs : Stack Gosub) (i : Nat) (t : Machine) : Prop where
  value : l.advances i start = .ok (t.scalar l.home l.name)
  kind : (t.scalar l.home l.name).kind = Kind.ofName l.name
  earlier : ∀ j, 0 < j → j < i → l.isPassedAfter start j = false
  calls : (t.moduleAt code).gosubs = gosubs
  loops : if 0 < i ∧ l.isPassedAfter start i = true then (t.moduleAt code).loops = outer
    else (t.moduleAt code).loops = outer.push l ∧ (t.moduleAt code).pc = l.resume

namespace LoopState

variable {code : ModuleId} {l : ForLoop} {start : Value} {outer : Stack ForLoop}
  {gosubs : Stack Gosub} {i : Nat} {t : Machine}

/-- A loop that is still under way has not been passed. -/
theorem not_passed (h : LoopState code l start outer gosubs i t)
    (hin : (t.moduleAt code).loops = outer.push l) (j : Nat) (hj : 0 < j) (hji : j ≤ i) :
    l.isPassedAfter start j = false := by
  by_cases hlt : j < i
  · exact h.earlier j hj hlt
  · obtain rfl : j = i := by omega
    cases hpassed : l.isPassedAfter start j with
    | false => rfl
    | true =>
      have hloops := h.loops
      rw [if_pos ⟨hj, hpassed⟩] at hloops
      have hsize := congrArg Stack.size (hloops.symm.trans hin)
      rw [Stack.size_push] at hsize
      omega

theorem pass {m₀ q u : Machine} {line : String} {k : Nat}
    (h : LoopState code l start outer gosubs i t) (hname : Kind.ofName l.name ≠ .text)
    (hfloor : (gosubs.top?.map (·.loops)).getD 0 ≤ outer.size)
    (hin : (t.moduleAt code).loops = outer.push l) (hpass : Pass code l t q u)
    (hq : Underway m₀ line k q) :
    ∃ t', (step q = .ok false t' ∨ step q = .error (.plain .interrupted) t') ∧
      LoopState code l start outer gosubs (i + 1) t' := by
  obtain ⟨-, hnext, rfl, hvalue, hloops, hcalls⟩ := hpass
  have hgosubs : q.codeModule.gosubs = gosubs := hcalls.trans h.calls
  have hkind : (u.scalar l.home l.name).kind ≠ .text := by
    rw [hvalue, h.kind]
    exact hname
  obtain ⟨w, t', hw, hgoes, hscopes, hscalar, hgosubs', hend⟩ := next_of_top hq hnext
    (hloops.trans hin) (by rw [Module.loopFloor, hgosubs]; exact hfloor) hname hkind
  have hsteps : l.advances (i + 1) start = .ok w := by
    rw [ForLoop.advances, h.value, ok_bind, ← hvalue, hw]
  have hpassed : l.isPassedAfter start (i + 1) = l.isPassedBy w := by
    rw [ForLoop.isPassedAfter, hsteps]
  rw [Machine.codeModule, hscopes] at hgosubs' hend
  refine ⟨t', hgoes, ?_, ?_, ?_, hgosubs'.trans hgosubs, ?_⟩
  · rw [hsteps, hscalar]
  · rw [hscalar]
    rw [ForLoop.advance, bind_eq_ok] at hw
    obtain ⟨_, _, hw⟩ := hw
    exact Value.kind_of_coerce hw
  · intro j hj hji
    exact h.not_passed hin j hj (by omega)
  · rw [hpassed]
    simpa using hend

theorem passes {m₀ m₁ : Machine} {line : String} {k : Nat}
    (h : LoopState code l start outer gosubs 0 m₁) (hname : Kind.ofName l.name ≠ .text)
    (hfloor : (gosubs.top?.map (·.loops)).getD 0 ≤ outer.size) (hm₁ : Underway m₀ line k m₁)
    (hpasses : Passes code l m₁ i t) : LoopState code l start outer gosubs i t := by
  have hleft := h.loops
  rw [if_neg (by simp)] at hleft
  induction hpasses with
  | start => exact h
  | again hpasses hin hpass hstep ih =>
    obtain ⟨j, ht⟩ := hpasses.underway hm₁
    obtain ⟨j', hreaches⟩ := hpass.reaches
    obtain ⟨t', hgoes, hstate⟩ := ih.pass hname hfloor (hin.trans hleft.1) hpass
      (ht.ongoing hreaches)
    rw [hstep] at hgoes
    rcases hgoes with hgoes | hgoes
    · cases hgoes
      exact hstate
    · cases hgoes

end LoopState

end Session

end LineBasic
