import LineBasic.Proofs.Session.Iteration

/-!
# Loops and calls are nested

Each call of a module notes how many loops are under way. As long as later calls note no fewer loops
and the latest one notes no more than there are, a loop that begins is in reach of its `NEXT`. Two
things break this: a `CLR` in a subroutine that was called inside a loop forgets the loops and
leaves the notes, and a line that is entered drops loops that older typed text began below a call
that stays.
-/

set_option autoImplicit false

namespace LineBasic

structure Module.Nested (mod : Module) : Prop where
  ordered : (mod.gosubs.toList.map (·.loops)).Pairwise (· ≤ ·)
  within : mod.loopFloor ≤ mod.loops.size

structure Nested (loops : Stack ForLoop) (gosubs : Stack Gosub) : Prop where
  ordered : (gosubs.toList.map (·.loops)).Pairwise (· ≤ ·)
  within : ∀ g ∈ gosubs.toList, g.loops ≤ loops.size

namespace Nested

variable {loops loops' : Stack ForLoop} {gosubs gosubs' : Stack Gosub}

/-- The calls below the latest one note no more loops than it. -/
theorem le_top (h : Nested loops gosubs) {g g' : Gosub} (htop : gosubs.top? = some g')
    (hg : g ∈ gosubs.pop.2.toList) : g.loops ≤ g'.loops := by
  have hordered := h.ordered
  rw [Stack.toList_of_top? htop, List.map_append, List.pairwise_append] at hordered
  exact hordered.2.2 _ (List.mem_map_of_mem hg) _ (List.mem_singleton.2 rfl)

theorem top_le (h : Nested loops gosubs) {g : Gosub} (htop : gosubs.top? = some g) :
    g.loops ≤ loops.size := by
  apply h.within
  rw [Stack.toList_of_top? htop]
  exact List.mem_append_right _ (List.mem_singleton.2 rfl)

theorem drop (h : Nested loops gosubs) (n : Nat) : Nested loops (gosubs.truncate n) where
  ordered := by
    rw [Stack.toList_truncate, List.map_take]
    exact h.ordered.sublist (List.take_sublist _ _)
  within g hg := by
    rw [Stack.toList_truncate] at hg
    exact h.within g (List.mem_of_mem_take hg)

theorem cut (h : Nested loops gosubs) {n : Nat} (hn : ∀ g ∈ gosubs.toList, g.loops ≤ n) :
    Nested (loops.truncate n) gosubs where
  ordered := h.ordered
  within g hg := by
    have hsize := h.within g hg
    have hle := hn g hg
    rw [Stack.size_truncate]
    omega

theorem call (h : Nested loops gosubs) {g : Gosub} (hnote : g.loops = loops.size) :
    Nested loops (gosubs.push g) where
  ordered := by
    rw [Stack.toList_push, List.map_append, List.pairwise_append]
    refine ⟨h.ordered, List.pairwise_singleton _ _, ?_⟩
    intro a ha b hb
    obtain ⟨g', hg', rfl⟩ := List.mem_map.1 ha
    rw [List.map_singleton, List.mem_singleton] at hb
    rw [hb, hnote]
    exact h.within g' hg'
  within g' hg' := by
    rw [Stack.toList_push, List.mem_append, List.mem_singleton] at hg'
    rcases hg' with hg' | rfl
    · exact h.within g' hg'
    · exact Nat.le_of_eq hnote

theorem of_no_calls (h : gosubs.held = []) : Nested loops gosubs := by
  have hempty : gosubs.toList = [] := by rw [Stack.toList, h, List.reverse_nil]
  constructor
  · rw [hempty]
    exact .nil
  · intro g hg
    rw [hempty] at hg
    cases hg

theorem turn {E F : Prop} (h : Nested loops gosubs)
    (hturn : Turn E F loops gosubs loops' gosubs')
    (hF : F → ∀ g ∈ gosubs.toList, g.loops = 0) : Nested loops' gosubs' := by
  cases hturn with
  | dropped n => exact h.drop n
  | looped l =>
    constructor
    · exact h.ordered
    · intro g hg
      have hle := h.within g hg
      rw [Stack.size_push]
      omega
  | called g hnote => exact h.call hnote
  | returned g n htop hn =>
    have hbelow : gosubs.truncate n = gosubs.pop.2.truncate n := by
      rw [Stack.pop_eq_truncate, Stack.truncate_truncate, Nat.min_eq_right (by omega)]
    rw [hbelow]
    apply cut
    · rw [← hbelow]
      exact h.drop n
    · intro g' hg'
      rw [Stack.toList_truncate] at hg'
      exact h.le_top htop (List.mem_of_mem_take hg')
  | emptied _ _ _ _ hgosubs => exact of_no_calls hgosubs
  | forgotten hforgets =>
    constructor
    · exact h.ordered
    · intro g hg
      rw [hF hforgets g hg]
      exact Nat.zero_le _

end Nested

namespace Module

variable {mod : Module}

/-- The latest call notes at least as many loops as any other. -/
theorem le_loopFloor (h : (mod.gosubs.toList.map (·.loops)).Pairwise (· ≤ ·)) {g : Gosub}
    (hg : g ∈ mod.gosubs.toList) : g.loops ≤ mod.loopFloor := by
  cases htop : mod.gosubs.top? with
  | none =>
    rw [Stack.top?, List.head?_eq_none_iff] at htop
    rw [Stack.toList, htop] at hg
    cases hg
  | some g' =>
    rw [loopFloor, htop]
    rw [Stack.toList_of_top? htop] at h hg
    rw [List.map_append, List.pairwise_append] at h
    rw [List.mem_append, List.mem_singleton] at hg
    rcases hg with hg | rfl
    · exact h.2.2 _ (List.mem_map_of_mem hg) _ (List.mem_singleton.2 rfl)
    · exact Nat.le_refl _

theorem nested_iff : mod.Nested ↔ LineBasic.Nested mod.loops mod.gosubs := by
  constructor
  · intro h
    refine ⟨h.ordered, ?_⟩
    intro g hg
    exact Nat.le_trans (le_loopFloor h.ordered hg) h.within
  · intro h
    refine ⟨h.ordered, ?_⟩
    rw [loopFloor]
    cases htop : mod.gosubs.top? with
    | none => exact Nat.zero_le _
    | some g => exact h.top_le htop

end Module

def Machine.Nested (m : Machine) : Prop := ∀ id, (m.moduleAt id).Nested

namespace Session

open Run

def LosesLoops (m : Machine) : Prop := Forgets m ∧ 0 < m.variableModule.loopFloor

def DropsLoops (m : Machine) : Prop :=
  let kept := m.variableModule.dropGosubs (·.resume.isTyped)
  ∃ l ∈ kept.loops.toList.take kept.loopFloor, l.resume.isTyped = true

theorem nested_step {m : Machine} (hm : m.WellScoped) (h : m.Nested) (hkept : ¬LosesLoops m) :
    (step.final m).Nested := by
  refine step_rule (I := fun m₁ => m₁.WellScoped ∧ m₁.scopes = m.scopes ∧
    (∀ id, (m₁.moduleAt id).gosubs = (m.moduleAt id).gosubs) ∧ m₁.Nested) (J := Machine.Nested)
    ?_ ?_ ?_ ?_ ⟨hm, rfl, fun _ => rfl, h⟩
  · rintro m₁ m₂ hquiet ⟨hm₁, hscopes, hgosubs, h₁⟩
    refine ⟨hm₁.quiet hquiet, hquiet.scopes.trans hscopes, ?_, ?_⟩
    · intro id
      rw [hquiet.gosubs, hgosubs]
    · intro id
      obtain ⟨k, hfloor, hloops⟩ := hquiet.loops id
      rw [Module.nested_iff, hloops, hquiet.gosubs]
      apply (Module.nested_iff.1 (h₁ id)).cut
      intro g hg
      exact Nat.le_trans (Module.le_loopFloor (h₁ id).ordered hg) hfloor
  · rintro m₁ pc ⟨hm₁, hscopes, hgosubs, h₁⟩
    refine ⟨hm₁.setPc pc, hscopes, ?_, ?_⟩
    · intro id
      rw [Machine.gosubs_setPc, hgosubs]
    · intro id
      rw [Module.nested_iff, Machine.loops_setPc, Machine.gosubs_setPc, ← Module.nested_iff]
      exact h₁ id
  · rintro m₁ r hact ⟨hm₁, hscopes, hgosubs, h₁⟩ id
    rw [Module.nested_iff]
    apply (Module.nested_iff.1 (h₁ id)).turn (hact.turns hm₁ id)
    rintro ⟨hforgets, hid⟩ g hg
    have hnone : m.variableModule.loopFloor = 0 := by
      by_cases hpos : 0 < m.variableModule.loopFloor
      · exact absurd ⟨hforgets, hpos⟩ hkept
      · omega
    rw [hid, hscopes, hgosubs] at hg
    have hle := Module.le_loopFloor (h _).ordered hg
    exact Nat.le_zero.1 (Nat.le_trans hle (Nat.le_of_eq hnone))
  · intro m' host hm'
    exact hm'

theorem le_findIdx_iff {α : Type} {p : α → Bool} {xs : List α} {n : Nat} (hn : n ≤ xs.length) :
    n ≤ xs.findIdx p ↔ ∀ x ∈ xs.take n, ¬p x = true := by
  constructor
  · intro hle x hx
    obtain ⟨i, hi, rfl⟩ := List.mem_take_iff_getElem.1 hx
    have hfalse : p xs[i] = false := List.not_of_lt_findIdx (by omega)
    rw [hfalse]
    exact Bool.false_ne_true
  · intro h
    refine Nat.le_of_not_lt fun hlt => ?_
    have hidx : xs.findIdx p < xs.length := by omega
    have hmem : xs[xs.findIdx p] ∈ xs.take n :=
      List.mem_take_iff_getElem.2 ⟨xs.findIdx p, by omega, rfl⟩
    exact h _ hmem (List.findIdx_getElem (w := hidx))

/-- Giving a machine a line keeps loops and calls nested, unless it drops loops below a call. -/
theorem nested_prepare_iff {m : Machine} (hm : m.WellScoped) (h : m.Nested) (line : String) :
    (prepare line m).Nested ↔ ¬DropsLoops m := by
  have hkept : (m.variableModule.dropGosubs (·.resume.isTyped)).Nested :=
    Module.nested_iff.2 ((Module.nested_iff.1 (h m.scopes.variableModule)).drop _)
  have hdrops : ¬DropsLoops m ↔ (m.variableModule.dropGosubs (·.resume.isTyped)).loopFloor ≤
      m.variableModule.loops.toList.findIdx (·.resume.isTyped) := by
    rw [le_findIdx_iff (by rw [Stack.length_toList]; exact hkept.within), DropsLoops]
    simp only [not_exists, not_and]
    rfl
  obtain ⟨hloops, hgosubs⟩ := calls_prepare hm line m.scopes.variableModule
  rw [if_pos rfl] at hloops hgosubs
  have hfloor : ((prepare line m).moduleAt m.scopes.variableModule).loopFloor =
      (m.variableModule.dropGosubs (·.resume.isTyped)).loopFloor := by
    rw [Module.loopFloor, hgosubs]
    rfl
  have hsize : ((prepare line m).moduleAt m.scopes.variableModule).loops.size =
      min (m.variableModule.loops.toList.findIdx (·.resume.isTyped))
        m.variableModule.loops.size := by
    rw [hloops]
    exact Stack.size_truncate _ _
  rw [hdrops]
  constructor
  · intro hprepared
    have hwithin := (hprepared m.scopes.variableModule).within
    rw [hfloor, hsize] at hwithin
    omega
  · intro hle id
    by_cases hid : id = m.scopes.variableModule
    · rw [hid]
      constructor
      · rw [hgosubs]
        exact hkept.ordered
      · have hwithin : _ ≤ m.variableModule.loops.size := hkept.within
        rw [hfloor, hsize]
        omega
    · obtain ⟨hloops, hgosubs⟩ := calls_prepare hm line id
      rw [Module.nested_iff, hloops, hgosubs, if_neg hid, if_neg hid, ← Module.nested_iff]
      exact h id

/-- A step that loses loops leaves a call that notes more loops than there are. -/
theorem nested_step_iff {m : Machine} (hm : m.WellScoped) (h : m.Nested) :
    (step.final m).Nested ↔ ¬LosesLoops m := by
  constructor
  · rintro hnested ⟨⟨n, text, tokens, next, hlexed, rest, u, hcomes⟩, hfloor⟩
    have htokens := hcomes.ne_nil
    have hpoised := hlexed.poised hm hcomes
    have hcalm := (calm_begun hlexed.line tokens next).trans hcomes.calm
    have hrun : Statement.run (.word .CLR :: rest) u =
        .ok () (u.updateVariableModule fun mod =>
          { mod with vars := {}, loops := mod.loops.clear }) := by
      rw [Statement.run.eq_def]
      rfl
    have hstep := step_of_statement hlexed htokens
    rw [hcomes.run_eq, hrun] at hstep
    obtain ⟨host, hfinal⟩ := final_of_afterStatement hstep
    have hwithin := (hnested u.scopes.variableModule).within
    have hat := Machine.moduleAt_updateModule_self hpoised.wellScoped.variableModule_lt fun mod =>
      { mod with vars := {}, loops := mod.loops.clear }
    rw [hfinal] at hwithin
    change ((u.updateVariableModule _).moduleAt u.scopes.variableModule).loopFloor ≤
      ((u.updateVariableModule _).moduleAt u.scopes.variableModule).loops.size at hwithin
    rw [Machine.updateVariableModule, hat] at hwithin
    have hgosubs : (u.moduleAt u.scopes.variableModule).gosubs = m.variableModule.gosubs := by
      rw [hcalm.gosubs, hpoised.scopes, Machine.gosubs_setPc]
      rfl
    simp only [Module.loopFloor, hgosubs] at hwithin hfloor
    exact Nat.lt_irrefl _ (Nat.lt_of_lt_of_le hfloor hwithin)
  · exact nested_step hm h

/-- Sessions in which no loops are lost. -/
abbrev Tidy : Machine → Prop := AtPrompt fun m fuel line =>
  (∀ s, Underway m line 0 s → ¬DropsLoops m) ∧
    ∀ k s, k < fuel → Underway m line k s → ¬LosesLoops s

theorem Tidy.stores {m : Machine} (h : Tidy m) (fuel : Nat) {line : String}
    (hnumber : numberedLine? (normalLine line) ≠ none) : Tidy (enter fuel line m).2 :=
  .entered m fuel line h
    ⟨fun _ hs => absurd hs.number hnumber, fun _ _ _ hs => absurd hs.number hnumber⟩

/-- A run keeps loops and calls nested if the line that starts it and its steps lose none. -/
theorem nested_underway {m₀ m : Machine} {line : String} {k : Nat} (h₀ : m₀.Nested)
    (hprompt : ¬DropsLoops m₀) (hm : Underway m₀ line k m)
    (hsteps : ∀ j s, j < k → Underway m₀ line j s → ¬LosesLoops s) : m.Nested := by
  induction hm with
  | prepared hm₀ => exact (nested_prepare_iff hm₀.wellScoped.clearExit h₀ _).2 hprompt
  | @stepped k m m' hm hstep ih =>
    have hnested := nested_step hm.wellScoped
      (ih fun j s hj => hsteps j s (Nat.lt_succ_of_lt hj)) (hsteps k m (Nat.lt_succ_self k) hm)
    rwa [final, hstep] at hnested

theorem Tidy.nested {m : Machine} (h : Tidy m) : m.Nested := by
  induction h with
  | start host registry options =>
    intro id
    cases id with
    | zero => exact ⟨.nil, Nat.le_refl _⟩
    | succ id => exact ⟨.nil, Nat.le_refl _⟩
  | outside m host registry column _ ih => exact ih
  | entered m fuel line h hline ih =>
    obtain ⟨hprompt, hsteps⟩ := hline
    apply enter_rule (I := Machine.Nested) h.waiting
    · intro n text _ id
      have hloops : ((stored n text m).moduleAt id).loops = (m.moduleAt id).loops :=
        Machine.moduleAt_updateModule_of_keeps (fun mod => by rfl) _ _ id
      have hgosubs : ((stored n text m).moduleAt id).gosubs = (m.moduleAt id).gosubs :=
        Machine.moduleAt_updateModule_of_keeps (fun mod => by rfl) _ _ id
      rw [Module.nested_iff, hloops, hgosubs, ← Module.nested_iff]
      exact ih id
    · intro f m hm
      exact hm
    · intro m exitCode hm
      exact hm
    · intro s hs
      exact nested_underway ih (hprompt s hs) hs (fun j _ hj => absurd hj (Nat.not_lt_zero j))
    · intro k s hk hs hnested
      exact nested_step hs.wellScoped hnested (hsteps k s hk hs)
    · exact ih

def Idle (m : Machine) : Prop := ∃ n text next, Lexed m n text [] next

/-- On the way to another line loops go on, and no calls are made. -/
theorem calls_of_idle {m m' : Machine} (h : StepsWhile Idle m m') (id : ModuleId) :
    (m'.moduleAt id).loops = (m.moduleAt id).loops ∧
      ∃ n, (m'.moduleAt id).gosubs = (m.moduleAt id).gosubs.truncate n := by
  induction h with
  | refl m => exact ⟨rfl, _, (Stack.truncate_of_size_le (Nat.le_refl _)).symm⟩
  | @head m m₁ m' hidle hstep _ ih =>
    obtain ⟨n, text, next, hlexed⟩ := hidle
    have hfirst : (m₁.moduleAt id).loops = (m.moduleAt id).loops ∧
        ∃ n, (m₁.moduleAt id).gosubs = (m.moduleAt id).gosubs.truncate n := by
      rw [step_of_end hlexed, leaveLine_apply] at hstep
      split at hstep
      · cases hstep
        exact ⟨m.loops_setPc _ id, _, (m.gosubs_setPc _ id).trans
          (Stack.truncate_of_size_le (Nat.le_refl _)).symm⟩
      · split at hstep
        · cases hstep
        · cases hstep
          obtain ⟨hloops, j, hj⟩ := (m.setPc .atEnd).moduleAt_endModule_calls id
          rw [m.loops_setPc] at hloops
          rw [m.gosubs_setPc] at hj
          exact ⟨hloops, j, hj⟩
    obtain ⟨hloops, i, hi⟩ := ih
    obtain ⟨hloops₁, j, hj⟩ := hfirst
    exact ⟨hloops.trans hloops₁, min j i, by rw [hi, hj, Stack.truncate_truncate]⟩

theorem find?_of_push {mod : Module} {outer : Stack ForLoop} {l : ForLoop} {p : ForLoop → Bool}
    (houter : LineBasic.Nested outer mod.gosubs) (hloops : mod.loops = outer.push l)
    (hp : p l = true) : (Statement.reachableLoops mod).reverse.find? p = some l := by
  have hheld : mod.loops.held = l :: outer.held := by
    rw [hloops]
    rfl
  have hwithin : ({ mod with loops := outer } : Module).Nested := Module.nested_iff.2 houter
  exact Statement.find?_of_top hheld hwithin.within hp

/-- A `NEXT` right after the `FOR` of its variable finds the loop. -/
theorem next_after_for {m₀ m m₁ q u u₁ v : Machine} {line text : String} {k : Nat}
    {n : LineNumber} {tokens rest : List Token} {next : Nat} {head : Statement.LoopHead}
    (hm : Underway m₀ line k m) (hnested : m.Nested) (hlexed : Lexed m n text tokens next)
    (hcomes : Statement.ComesTo tokens (begun n tokens next m) (.word .FOR :: rest) u)
    (hhead : Statement.loopHead rest u = .ok head u₁) (hstep : step m = .ok false m₁)
    (hidle : StepsWhile Idle m₁ q) (hcode : q.scopes.codeModule = m.scopes.codeModule)
    (hnext : AtNext head.home head.name q v) :
    (Statement.reachableLoops q.codeModule).reverse.find? (·.isOver head.home head.name) =
        some (head.loop ⟨some n, next⟩) ∧
      ∀ t, step q ≠ .error (.plain .nextWithoutFor) t := by
  obtain ⟨head', u', start, hhead', -, -, hscopes, -, hgosubs, hloops, -⟩ :=
    loop_begins hm hlexed hcomes hstep
  cases hhead.symm.trans hhead'
  obtain ⟨hloops', i, hi⟩ := calls_of_idle hidle m.scopes.codeModule
  rw [Machine.codeModule, hscopes] at hgosubs hloops
  rw [hloops] at hloops'
  rw [hgosubs] at hi
  have hcalls : m.codeModule.Nested := hnested m.scopes.codeModule
  have hfloor := Statement.loopFloor_le_endLoopsOver hcalls.within head.home head.name
  generalize (Statement.endLoopsOver head.home head.name m.codeModule).loops = outer
    at hloops' hfloor
  have houter : LineBasic.Nested outer m.codeModule.gosubs := by
    refine ⟨hcalls.ordered, ?_⟩
    intro g hg
    exact Nat.le_trans (Module.le_loopFloor hcalls.ordered hg) hfloor
  -- The loop is on top of the outer ones wherever they and the calls are as they are now.
  have hfind (mod : Module) (hloops : mod.loops = outer.push (head.loop ⟨some n, next⟩))
      (hgosubs : mod.gosubs = m.codeModule.gosubs.truncate i) :
      (Statement.reachableLoops mod).reverse.find? (·.isOver head.home head.name) =
        some (head.loop ⟨some n, next⟩) :=
    find?_of_push (hgosubs ▸ houter.drop i) hloops (by simp [ForLoop.isOver, Statement.LoopHead.loop])
  rw [← hcode] at hloops' hi
  refine ⟨hfind q.codeModule hloops' hi, ?_⟩
  intro t ht
  obtain ⟨j, hq⟩ := hidle.underway (hm.stepped hstep)
  obtain ⟨pc, hpoised⟩ := hnext.poised hq.wellScoped
  have hfound := hfind v.codeModule (hpoised.loops.trans hloops') (hpoised.gosubs.trans hi)
  rw [hnext.step_eq] at ht
  cases hloop : Statement.stepLoop (·.isOver head.home head.name) v with
  | error f v' =>
    rw [hloop] at ht
    cases ht
    cases Statement.kind_of_stepLoop_error hfound hloop
  | ok ended v' =>
    rw [hloop] at ht
    dsimp only [afterStatement] at ht
    split at ht
    · cases ht
    · split at ht
      · cases ht
      · cases ht

/-- Loops and calls are nested in every state of a session that loses no loops, so that a `NEXT`
right after the `FOR` of its variable finds the loop. From such a state it is exactly a `CLR` in a
subroutine that was called inside a loop, and a line that drops loops below a call that stays, that
leave a call which notes more loops than there are. -/
theorem loops_and_calls_stay_nested {m₀ : Machine} (h₀ : Tidy m₀) (line : String) :
    m₀.Nested ∧
    (∀ s, Underway m₀ line 0 s → (s.Nested ↔ ¬DropsLoops m₀)) ∧
    ∀ k m, Underway m₀ line k m → ¬DropsLoops m₀ →
      (∀ j s, j < k → Underway m₀ line j s → ¬LosesLoops s) →
      m.Nested ∧ ((step.final m).Nested ↔ ¬LosesLoops m) ∧
      ∀ n text tokens next rest u head u₁ m₁ q v, Lexed m n text tokens next →
        Statement.ComesTo tokens (begun n tokens next m) (.word .FOR :: rest) u →
        Statement.loopHead rest u = .ok head u₁ → step m = .ok false m₁ →
        StepsWhile Idle m₁ q → q.scopes.codeModule = m.scopes.codeModule →
        AtNext head.home head.name q v →
        (Statement.reachableLoops q.codeModule).reverse.find? (·.isOver head.home head.name) =
            some (head.loop ⟨some n, next⟩) ∧
          ∀ t, step q ≠ .error (.plain .nextWithoutFor) t := by
  refine ⟨h₀.nested, ?_, ?_⟩
  · intro s hs
    cases hs with
    | prepared hm₀ => exact nested_prepare_iff hm₀.wellScoped.clearExit h₀.nested _
  · intro k m hm hprompt hsteps
    have hnested := nested_underway h₀.nested hprompt hm hsteps
    refine ⟨hnested, nested_step_iff hm.wellScoped hnested, ?_⟩
    intro n text tokens next rest u head u₁ m₁ q v hlexed hcomes hhead hstep hidle hcode hnext
    exact next_after_for hm hnested hlexed hcomes hhead hstep hidle hcode hnext

/-- A loop in a subroutine that was called inside a loop. -/
theorem loops_and_calls_stay_nested_in_subroutine :
    let m₀ := enterAll 9 ["10 FOR I%=1 TO 3: GOSUB 100", "100 FOR J%=1 TO 2: NEXT J%"] {}
    ∃ m m₁, Tidy m₀ ∧ Underway m₀ "RUN" 3 m ∧ m.codeModule.loopFloor = 1 ∧ m.Nested ∧
      step m = .ok false m₁ ∧ m₁.codeModule.loops.size = 2 ∧
      ∀ t, step m₁ ≠ .error (.plain .nextWithoutFor) t := by
  intro m₀
  have htidy : Tidy m₀ :=
    (Tidy.stores (.start {} {} {}) 9 (by decide +kernel)).stores 9 (by decide +kernel)
  have hstart : Underway m₀ "RUN" 0 _ :=
    .prepared htidy.waiting (by decide +kernel) (by decide +kernel) (by decide +kernel)
  have hnone : m₀.variableModule.loops.held.length = 0 := by decide +kernel
  have hline₀ : Lexed (prepare (normalLine "RUN") { m₀ with exitCode := none }) typedLine "RUN"
      [.word .RUN] 3 := by decide +kernel
  obtain ⟨s, hs, hlineₛ, s', hs', hlineₛ'⟩ :
      ∃ s, ongoing 1 (prepare (normalLine "RUN") { m₀ with exitCode := none }) = some s ∧
        Lexed s 10 "FOR I%=1 TO 3: GOSUB 100" [.word .FOR, .ident "I%", .operator .equal,
          .integer "1", .word .TO, .integer "3"] 14 ∧
        ∃ s', ongoing 2 (prepare (normalLine "RUN") { m₀ with exitCode := none }) = some s' ∧
          Lexed s' 10 "FOR I%=1 TO 3: GOSUB 100" [.word .GOSUB, .integer "100"] 24 := by
    decide +kernel
  obtain ⟨m, hm, hscopes, hfloor, hline, m₁, hm₁, hscopes₁, hloops, hline₁⟩ :
      ∃ m, ongoing 3 (prepare (normalLine "RUN") { m₀ with exitCode := none }) = some m ∧
        m.scopes = ⟨[0], [0]⟩ ∧ m.codeModule.loopFloor = 1 ∧
        Lexed m 100 "FOR J%=1 TO 2: NEXT J%" [.word .FOR, .ident "J%", .operator .equal,
          .integer "1", .word .TO, .integer "2"] 14 ∧
        ∃ m₁, ongoing 1 m = some m₁ ∧ m₁.scopes = ⟨[0], [0]⟩ ∧
          m₁.codeModule.loops.held.map (fun l => (l.home, l.name)) = [(0, "J%"), (0, "I%")] ∧
          Lexed m₁ 100 "FOR J%=1 TO 2: NEXT J%" [.word .NEXT, .ident "J%"] 22 := by
    decide +kernel
  have hprompt : ¬DropsLoops m₀ := by
    rintro ⟨l, hl, -⟩
    have hmem : l ∈ m₀.variableModule.loops.toList := List.mem_of_mem_take hl
    rw [Stack.toList, List.length_eq_zero_iff.1 hnone] at hmem
    cases hmem
  have hkept (j : Nat) (t : Machine) (hj : j < 3) (ht : Underway m₀ "RUN" j t) :
      ¬LosesLoops t := by
    have heq := ht.ongoing_eq
    rintro ⟨hforgets, -⟩
    have hcases : j = 0 ∨ j = 1 ∨ j = 2 := by omega
    rcases hcases with rfl | rfl | rfl
    · cases heq
      exact not_forgets_of_lexed hline₀ (by decide) (by decide) hforgets
    · cases hs.symm.trans heq
      exact not_forgets_of_lexed hlineₛ (by decide) (by decide) hforgets
    · cases hs'.symm.trans heq
      exact not_forgets_of_lexed hlineₛ' (by decide) (by decide) hforgets
  have hunder : Underway m₀ "RUN" 3 m := by
    rw [← Nat.zero_add 3]
    exact hstart.ongoing hm
  obtain ⟨_, hstep, ⟨⟩⟩ := ongoing_succ.1 hm₁
  obtain ⟨head, u₁, start, hhead, -, -, -, -, -, hbegun, -⟩ :=
    loop_begins hunder hline (.here _ _) hstep
  have htwo : m₁.codeModule.loops.size = 2 := by
    rw [Stack.size, ← List.length_map, hloops]
    rfl
  rw [hbegun] at hloops
  obtain ⟨hhome, hname⟩ : head.home = 0 ∧ head.name = "J%" :=
    Prod.mk.inj (List.cons.inj hloops).1
  have hnext : AtNext head.home head.name m₁
      (begun 100 [.word .NEXT, .ident "J%"] 22 m₁) := by
    rw [hhome, hname, show 0 = m₁.scopes.variableModule by rw [hscopes₁]; rfl]
    exact atNext_of_ident hline₁
  obtain ⟨-, -, hruns⟩ := loops_and_calls_stay_nested htidy "RUN"
  obtain ⟨hnested, -, hfinds⟩ := hruns 3 m hunder hprompt hkept
  exact ⟨m, m₁, htidy, hunder, hfloor, hnested, hstep, htwo,
    (hfinds _ _ _ _ _ _ _ _ _ _ _ hline (.here _ _) hhead hstep (.refl _)
      (by rw [hscopes₁, hscopes]) hnext).2⟩

/-- A `CLR` in a subroutine that was called inside a loop leaves the note of the call, and so does a
line that drops the loop. -/
theorem lost_loops_break_nesting :
    let m₀ := enterAll 20 ["10 FOR I=1 TO 2: GOSUB 100", "20 PRINT \"DONE\"", "30 END",
      "100 CLR: FOR J=1 TO 2: NEXT J: RETURN"] {}
    let m₁ := enterAll 20 ["10 GOSUB 100", "20 END", "100 END",
      "200 FOR J=1 TO 2: NEXT J: PRINT \"OK\"", "FOR I=1 TO 3: GOTO 10"] {}
    ((ongoing 4 (prepare (normalLine "RUN") m₀)).map fun m =>
        (m.codeModule.loops.size, m.codeModule.loopFloor)) = some (0, 1) ∧
      (enterAll 20 ["RUN"] m₀).host.printedSince 0 =
        "?NEXT WITHOUT FOR ERROR IN 100\n100 CLR: FOR J=1 TO 2: NEXT J: RETURN\n" ∧
      ((prepare (normalLine "GOTO 200") m₁).codeModule.loops.size,
        (prepare (normalLine "GOTO 200") m₁).codeModule.loopFloor) = (0, 1) ∧
      (enterAll 20 ["GOTO 200"] m₁).host.printedSince 0 =
        "?NEXT WITHOUT FOR ERROR IN 200\n200 FOR J=1 TO 2: NEXT J: PRINT \"OK\"\n" := by
  decide +kernel

end Session

end LineBasic
