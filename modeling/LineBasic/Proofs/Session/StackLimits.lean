import LineBasic.Proofs.Session.Underway

/-!
# How high the stacks of a module grow

The loops and the calls of a module have a limit each. One that is too many is put on its stack
before the fault is raised, and nothing takes it off again: the lines that follow find it there. So
a stack can be higher than its limit, but by no more elements than there were runs that ended in
that fault.
-/

set_option autoImplicit false

namespace LineBasic

open Run

namespace Stack

variable {α : Type} {s : Stack α} {limit k k' : Nat}

structure Within (limit k : Nat) (s : Stack α) : Prop where
  limit_eq : s.limit = limit
  size_le : s.size ≤ limit + k

namespace Within

theorem of_empty (hlimit : s.limit = limit) (hheld : s.held = []) : s.Within limit k := by
  refine ⟨hlimit, ?_⟩
  rw [size, hheld]
  exact Nat.zero_le _

theorem mono (h : s.Within limit k) (hk : k ≤ k') : s.Within limit k' :=
  ⟨h.limit_eq, Nat.le_trans h.size_le (Nat.add_le_add_left hk limit)⟩

theorem truncate (h : s.Within limit k) (n : Nat) :
    (s.truncate n).Within limit k := by
  refine ⟨h.limit_eq, ?_⟩
  rw [size_truncate]
  exact Nat.le_trans (Nat.min_le_right _ _) h.size_le

theorem clear (h : s.Within limit k) : s.clear.Within limit k :=
  .of_empty h.limit_eq rfl

theorem pop (h : s.Within limit k) : s.pop.2.Within limit k := by
  rw [pop_eq_truncate]
  exact h.truncate _

/-- Without a complaint there was room for the new element. -/
theorem push (h : s.Within limit k) {x : α} (hroom : (s.push x).overflow? = none) :
    (s.push x).Within limit k := by
  refine ⟨h.limit_eq, ?_⟩
  rw [overflow?] at hroom
  split at hroom
  · cases hroom
  · rename_i hle
    rw [← h.limit_eq]
    exact Nat.le_trans (Nat.le_of_not_lt hle) (Nat.le_add_right _ _)

theorem push_succ (h : s.Within limit k) (x : α) :
    (s.push x).Within limit (k + 1) :=
  ⟨h.limit_eq, Nat.succ_le_succ h.size_le⟩

end Within

theorem kind_of_overflow? {f : Fault} (h : s.overflow? = some f) : f.kind = .formulaTooComplex := by
  rw [overflow?] at h
  split at h
  · cases h
    rfl
  · cases h

/-- What a failure leaves of a stack that was to grow: it is as it was, or the new element is on it
and is what the failure is about. -/
def Refused (f : Fault) (s s' : Stack α) : Prop :=
  s' = s ∨ ∃ n x, s' = (s.truncate n).push x ∧ s'.overflow? = some f

end Stack

/-- The stacks of a module are higher than their limits by a number of elements at most. -/
structure Module.Within (k : Nat) (mod : Module) : Prop where
  loops : mod.loops.Within maxLoops k
  gosubs : mod.gosubs.Within maxGosubs k

theorem Module.Within.mono {k k' : Nat} {mod : Module} (h : mod.Within k) (hk : k ≤ k') :
    mod.Within k' :=
  ⟨h.loops.mono hk, h.gosubs.mono hk⟩

def Machine.Within (k : Nat) (m : Machine) : Prop := ∀ id, (m.moduleAt id).Within k

namespace Machine.Within

variable {m m' : Machine} {k k' : Nat}

theorem mono (h : m.Within k) (hk : k ≤ k') : m.Within k' := fun id => (h id).mono hk

theorem of_eq (h : m.Within k) (hmodules : m'.modules = m.modules) : m'.Within k := by
  intro id
  rw [moduleAt, hmodules]
  exact h id

/-- The stacks of a module may change; all others stay. -/
theorem module (h : m.Within k) (hk : k ≤ k') (id : ModuleId) {f : Module → Module}
    (hf : (m.moduleAt id).Within k → (f (m.moduleAt id)).Within k') :
    (m.updateModule id f).Within k' := by
  intro j
  rw [moduleAt_updateModule]
  split
  · rename_i hj
    rw [hj.1]
    exact hf (h id)
  · exact (h j).mono hk

theorem setPc (h : m.Within k) (pc : ProgramCounter) : (m.setPc pc).Within k :=
  h.module (Nat.le_refl k) _ fun hmod => ⟨hmod.loops, hmod.gosubs⟩

theorem enterCode (h : m.Within k) : m.enterCode.2.Within k := by
  intro id
  refine ⟨?_, ?_⟩
  · rw [m.loops_enterCode id]
    exact (h id).loops
  · rw [m.gosubs_enterCode id]
    exact (h id).gosubs

theorem endModule (h : m.Within k) : m.endModule.Within k := by
  intro id
  obtain ⟨hloops, n, hgosubs⟩ := m.moduleAt_endModule_calls id
  refine ⟨?_, ?_⟩
  · rw [hloops]
    exact (h id).loops
  · rw [hgosubs]
    exact (h id).gosubs.truncate n

theorem restart (h : m.Within k) : m.restart.Within k :=
  h.module (Nat.le_refl k) _ fun hmod => ⟨hmod.loops.clear, hmod.gosubs.clear⟩

theorem popGosub (h : m.Within k) (g : Gosub) : (m.popGosub g).Within k :=
  h.module (Nat.le_refl k) _ fun hmod => ⟨hmod.loops.truncate _, hmod.gosubs.pop⟩

theorem ensured (h : m.Within k) (name : String) : (m.ensureModule name).2.Within k := by
  intro id
  rcases m.moduleAt_ensureModule name id with hid | ⟨-, hid⟩
  · rw [hid]
    exact h id
  · rw [hid]
    exact ⟨.of_empty rfl rfl, .of_empty rfl rfl⟩

theorem quiet {reads : Prop} (h : m.Within k) (hquiet : m.QuietBut reads m') : m'.Within k := by
  intro id
  obtain ⟨n, -, hloops⟩ := hquiet.loops id
  refine ⟨?_, ?_⟩
  · rw [hloops]
    exact (h id).loops.truncate n
  · rw [hquiet.gosubs id]
    exact (h id).gosubs

end Machine.Within

/-- How many elements too many a run may have left behind: one, if it ended because something was
too complex. -/
def tooMany {α : Type} : EStateM.Result Fault Machine α → Nat
  | .ok _ _ => 0
  | .error f _ => if f.kind = .formulaTooComplex then 1 else 0

@[simp] theorem tooMany_ok {α : Type} (a : α) (m : Machine) :
    tooMany (.ok a m : EStateM.Result Fault Machine α) = 0 := rfl

theorem tooMany_error {α : Type} {f : Fault} (h : f.kind = .formulaTooComplex) (m : Machine) :
    tooMany (.error f m : EStateM.Result Fault Machine α) = 1 := if_pos h

theorem exists_error_of_tooMany {α : Type} {r : EStateM.Result Fault Machine α}
    (h : tooMany r = 1) : ∃ f m, r = .error f m ∧ f.kind = .formulaTooComplex := by
  cases r with
  | ok a m => cases h
  | error f m =>
    rw [tooMany] at h
    split at h
    · rename_i hf
      exact ⟨f, m, rfl, hf⟩
    · cases h

section

variable {E F : Prop} {G : Edit → Prop} {m m₁ : Machine} {k : Nat}

theorem Landing.within {c : Option Fault} (h : Landing E m c m₁) (hc : c = none)
    (hm : m.Within k) : m₁.Within k := by
  cases h with
  | jump => exact hm.enterCode
  | call =>
    exact hm.enterCode.module (Nat.le_refl k) _ fun hmod => ⟨hmod.loops, hmod.gosubs.push hc⟩
  | start => exact hm.enterCode.restart

theorem Landing.within_succ {c : Option Fault} (h : Landing E m c m₁) (hm : m.Within k) :
    m₁.Within (k + 1) := by
  have hmore := hm.mono (Nat.le_succ k)
  cases h with
  | jump => exact hmore.enterCode
  | call =>
    exact hm.enterCode.module (Nat.le_succ k) _ fun hmod =>
      ⟨hmod.loops.mono (Nat.le_succ k), hmod.gosubs.push_succ _⟩
  | start => exact hmore.enterCode.restart

/-- An act that succeeds had room for what it put on a stack, and so had one that fails for another
reason. -/
theorem Act.within {r : EStateM.Result Fault Machine Unit} (h : Act E F G m r)
    (hm : m.Within k) : (machineAfter r).Within (k + tooMany r) := by
  cases h with
  | none => exact hm
  | named name => exact (hm.ensured name).of_eq rfl
  | left => exact hm.endModule
  | landed m₁ n hland => exact (hland.within rfl hm).setPc _
  | @missed c m₁ f hland _ hfault =>
    cases hc : c with
    | none => exact (hland.within hc hm).mono (Nat.le_add_right _ _)
    | some f' =>
      have hkind : f.kind = .formulaTooComplex := by
        cases hland with
        | call => exact hfault f' hc ▸ Stack.kind_of_overflow? hc
        | jump => cases hc
        | start => cases hc
      rw [tooMany_error hkind]
      exact hland.within_succ hm
  | ended => exact hm.enterCode.restart.endModule
  | returned g => exact hm.popGosub g
  | returnedHome g => exact (hm.popGosub g).endModule
  | skipped offset => exact hm.setPc _
  | looped l _ _ _ hroom =>
    exact hm.module (Nat.le_refl k) _ fun hmod => ⟨hmod.loops.push hroom, hmod.gosubs⟩
  | loopRefused l f _ _ _ _ hfull =>
    rw [tooMany_error (Stack.kind_of_overflow? hfull)]
    exact hm.module (Nat.le_succ k) _ fun hmod =>
      ⟨hmod.loops.push_succ l, hmod.gosubs.mono (Nat.le_succ k)⟩
  | repeated l => exact hm.setPc _
  | revised f hf =>
    intro id
    refine Revision.rule (P := Module.Within k) hf (fun mod' hrevision => ?_) (hm id)
    cases hrevision with
    | forgotten => exact ⟨(hm id).loops.clear, (hm id).gosubs⟩
    | erased => exact ⟨(hm id).loops, (hm id).gosubs⟩
    | renumbered => exact ⟨(hm id).loops, (hm id).gosubs⟩
  | loaded => exact hm.module (Nat.le_refl k) _ fun _ => ⟨.of_empty rfl rfl, .of_empty rfl rfl⟩
  | renewed =>
    have hcleared : (m.updateVariableModule Module.cleared).Within k :=
      hm.module (Nat.le_refl k) _ fun _ => ⟨.of_empty rfl rfl, .of_empty rfl rfl⟩
    exact hcleared.setPc _
  | quit code => exact hm.of_eq rfl

end

namespace Statement

theorem within_run (tokens : List Token) {m : Machine} {k : Nat} (hm : m.Within k) :
    (machineAfter (run tokens m)).Within (k + tooMany (run tokens m)) := by
  obtain ⟨m₁, hquiet, ⟨f, hf, -⟩ | hact⟩ := acts_run tokens m
  · rw [hf]
    exact (hm.quiet hquiet).mono (Nat.le_add_right _ _)
  · exact hact.within (hm.quiet hquiet)

/-- A run that fails leaves a stack as it was, or with one element too many. -/
def Refuses {α β : Type} (stack : Machine → Stack β) (x : Run α) (m : Machine) : Prop :=
  ∀ f m', x m = .error f m' → (stack m).Refused f (stack m')

section

variable {α β γ : Type} {stack : Machine → Stack γ} {m : Machine}

theorem refuses_pure (a : α) : Refuses stack (pure a) m := by
  rintro f m' ⟨⟩

/-- Calm parts leave the stack alone, whether they fail or not. -/
theorem Refuses.bind {x : Run α} {g : α → Run β}
    (hstack : ∀ m m' : Machine, m.Calm m' → stack m' = stack m) (hx : Calm x)
    (hg : ∀ a m₁, m.Calm m₁ → Refuses stack (g a) m₁) : Refuses stack (x >>= g) m := by
  intro f m' h
  rcases bind_eq_error.1 h with hfail | ⟨a, m₁, hok, hrest⟩
  · have hcalm := (hx m).calm
    rw [final, hfail] at hcalm
    exact .inl (hstack _ _ hcalm)
  · have hcalm : m.Calm m₁ := hx.ok hok
    have hrefused := hg a m₁ hcalm f m' hrest
    rwa [hstack _ _ hcalm] at hrefused

end

/-- Loops over the same variable end before the new one is put on. -/
theorem refuses_beginLoop (tokens : List Token) {m : Machine} (hm : m.WellScoped) :
    Refuses (·.codeModule.loops) (beginLoop tokens) m := by
  have hstack (m m' : Machine) (hcalm : m.Calm m') : m'.codeModule.loops = m.codeModule.loops :=
    hcalm.codeLoops
  refine .bind hstack (calm_loopVariable tokens) fun target m₁ hm₁ => ?_
  rcases target with ⟨home, name, rest⟩
  dsimp only
  split
  · rintro f m' ⟨⟩
    exact .inl rfl
  refine .bind hstack (calm_afterEqual _) fun _ m₂ hm₂ => ?_
  refine .bind hstack (calm_loopStart _) fun start m₃ hm₃ => ?_
  refine .bind hstack (calm_loopLimit _) fun limit m₄ hm₄ => ?_
  refine .bind hstack (calm_loopStep _) fun step m₅ hm₅ => ?_
  refine .bind hstack (calm_store_scalar home name start.1) fun _ m₆ hm₆ => ?_
  have hquiet := quiet_endLoopsOver home name m₆
  have hcalm := ((((hm₁.trans hm₂).trans hm₃).trans hm₄).trans hm₅).trans hm₆
  have hm₇ := (hm.quiet hcalm.quiet).quiet hquiet
  obtain ⟨n, hcut⟩ : ∃ n, (m₆.updateCodeModule (endLoopsOver home name)).codeModule.loops =
      m₆.codeModule.loops.truncate n := by
    obtain ⟨n, -, hloops⟩ := hquiet.loops m₆.scopes.codeModule
    exact ⟨n, hloops⟩
  intro f m' h
  rw [updateCodeModule_bind, get_bind] at h
  generalize m₆.updateCodeModule (endLoopsOver home name) = m₇ at hcut hm₇ h
  rw [updateCodeModule_bind] at h
  cases hfull : (m₇.codeModule.loops.push ⟨name, home, limit.1, step, m₇.codeModule.pc⟩).overflow?
    with
  | none =>
    rw [hfull] at h
    cases h
  | some f' =>
    rw [hfull] at h
    cases h
    refine .inr ⟨n, ⟨name, home, limit.1, step, m₇.codeModule.pc⟩, ?_⟩
    dsimp only
    rw [Machine.codeModule_updateCodeModule hm₇.codeModule_lt]
    exact ⟨congrArg (Stack.push · _) hcut, hfull⟩

/-- A call is put on the calls of the module that it goes to. -/
theorem refuses_callLine (n : LineNumber) {m : Machine} (hm : m.WellScoped) :
    Refuses (fun u => (u.moduleAt m.scopes.variableModule).gosubs) (callLine n) m := by
  intro f m' h
  have hgosubs := m.gosubs_enterCode m.scopes.variableModule
  rw [callLine_apply] at h
  split at h
  · cases h
    exact .inl hgosubs
  · have hland : Landing False m _ m.enterCode.2 := .jump
    have hcode := hland.codeModule hm
    cases hfull : (m.enterCode.2.codeModule.gosubs.push m.callFrame).overflow? with
    | none =>
      rw [hfull] at h
      cases h
    | some f' =>
      rw [hfull] at h
      cases h
      refine .inr ⟨(m.moduleAt m.scopes.variableModule).gosubs.size, m.callFrame, ?_⟩
      have hpushed := Machine.codeModule_updateCodeModule hm.enterCode.codeModule_lt fun mod =>
        { mod with gosubs := mod.gosubs.push m.callFrame }
      dsimp only
      rw [Stack.truncate_of_size_le (Nat.le_refl _), ← hgosubs, ← hcode]
      exact ⟨congrArg Module.gosubs hpushed, (congrArg (·.gosubs.overflow?) hpushed).trans hfull⟩

theorem refuses_jumpTo (n : LineNumber) (m : Machine) :
    Refuses (fun u => (u.moduleAt m.scopes.variableModule).gosubs) (jumpTo n) m := by
  intro f m' h
  rw [jumpTo_apply] at h
  split at h
  · cases h
    exact .inl (m.gosubs_enterCode m.scopes.variableModule)
  · cases h

theorem refuses_gosub (tokens : List Token) {m : Machine} (hm : m.WellScoped) :
    Refuses (fun u => (u.moduleAt m.scopes.variableModule).gosubs)
      (lineArgument tokens >>= callLine) m := by
  refine .bind (fun _ _ hcalm => hcalm.gosubs _) (calm_lineArgument tokens) fun n m₁ hcalm => ?_
  rw [← hcalm.scopes]
  exact refuses_callLine n (hm.quiet hcalm.quiet)

/-- A call that is one of a list is made like any other, and a jump makes none. -/
theorem refuses_jumpList (isCall : Bool) (selector : Int64) (tokens : List Token) {m : Machine}
    (hm : m.WellScoped) : Refuses (fun u => (u.moduleAt m.scopes.variableModule).gosubs)
      (jumpList isCall selector tokens) m := by
  rw [jumpList]
  refine .bind (fun _ _ hcalm => hcalm.gosubs _) (calm_evaluateAll tokens) fun items m₁ hm₁ => ?_
  dsimp only
  split
  · exact refuses_pure ()
  split
  · exact refuses_pure ()
  refine .bind (fun _ _ hcalm => hcalm.gosubs _) (obeys_liftM (by simp)) fun n m₂ hm₂ => ?_
  have hcalm := hm₁.trans hm₂
  rw [← hcalm.scopes]
  split
  · exact refuses_callLine _ (hm.quiet hcalm.quiet)
  · exact refuses_jumpTo _ m₂

theorem refuses_onSelector (tokens : List Token) {m : Machine} (hm : m.WellScoped) :
    Refuses (fun u => (u.moduleAt m.scopes.variableModule).gosubs) (onSelector tokens) m := by
  rw [onSelector]
  refine .bind (fun _ _ hcalm => hcalm.gosubs _) (calm_evaluate tokens) fun result m₁ hm₁ => ?_
  refine .bind (fun _ _ hcalm => hcalm.gosubs _) (obeys_liftM (by simp)) fun v m₂ hm₂ => ?_
  refine .bind (fun _ _ hcalm => hcalm.gosubs _) (obeys_liftM (by simp))
    fun selector m₃ hm₃ => ?_
  have hcalm := (hm₁.trans hm₂).trans hm₃
  rw [← hcalm.scopes]
  split
  · exact refuses_jumpList false selector _ (hm.quiet hcalm.quiet)
  · exact refuses_jumpList true selector _ (hm.quiet hcalm.quiet)
  · rintro f m' ⟨⟩
    exact .inl rfl

end Statement

namespace Session

variable {m : Machine} {k : Nat}

theorem within_afterStatement {r : EStateM.Result Fault Machine Unit}
    (h : (machineAfter r).Within (k + tooMany r)) :
    (machineAfter (afterStatement r)).Within (k + tooMany (afterStatement r)) := by
  cases r with
  | error f m => exact h
  | ok _ m =>
    rw [afterStatement]
    split
    · exact h
    · split <;> exact h.of_eq rfl

theorem within_step (hm : m.Within k) :
    (machineAfter (step m)).Within (k + tooMany (step m)) := by
  have hstep := stepResult m
  generalize step m = r at hstep ⊢
  cases hstep with
  | stopped => exact hm
  | finished => exact hm.setPc _
  | unread => exact hm.mono (Nat.le_add_right _ _)
  | moved => exact hm.setPc _
  | left => exact (hm.setPc _).endModule
  | overslept n text tokens next hline =>
    exact (hm.setPc ⟨some n, next⟩).quiet (calm_begun hline tokens next).quiet
  | statement n text tokens next hlexed =>
    have hbegun := (hm.setPc ⟨some n, next⟩).quiet (calm_begun hlexed.line tokens next).quiet
    exact within_afterStatement (Statement.within_run tokens hbegun)

/-- Only the last step of a run can leave something behind that is too many. -/
theorem within_execute (fuel : Nat) (hm : m.Within k) :
    (machineAfter (execute fuel m)).Within (k + tooMany (execute fuel m)) := by
  induction fuel generalizing m with
  | zero => exact hm
  | succ fuel ih =>
    have hstep := within_step hm
    rw [execute_succ]
    cases hr : step m with
    | error f m₁ => rwa [hr] at hstep
    | ok done m₁ =>
      rw [hr] at hstep
      cases done with
      | true => exact hstep
      | false => exact ih hstep

theorem within_prepare (line : String) (hm : m.Within k) : (prepare line m).Within k :=
  hm.enterCode.module (Nat.le_refl k) _ fun hmod => ⟨hmod.loops.truncate _, hmod.gosubs.truncate _⟩

theorem within_settle {r : EStateM.Result Fault Machine Bool} (h : (machineAfter r).Within k) :
    (settle r).2.Within k := by
  cases r with
  | error f m => exact h.of_eq rfl
  | ok done m =>
    cases done with
    | false => exact h
    | true =>
      obtain ⟨exitCode, hsettle⟩ := settle_of_over m
      rw [hsettle]
      exact h.of_eq rfl

def lineTooMany (fuel : Nat) (line : String) (m : Machine) : Nat :=
  if m.host.halted || Text.isBlankText (normalLine line) || (numberedLine? (normalLine line)).isSome
  then 0
  else tooMany (execute fuel (prepare (normalLine line) { m with exitCode := none }))

theorem within_enter (fuel : Nat) (line : String) (hm : m.Within k) :
    (enter fuel line m).2.Within (k + lineTooMany fuel line m) := by
  have hstored (n : LineNumber) (text : String) : (stored n text m).Within k :=
    hm.module (Nat.le_refl k) _ fun hmod => ⟨hmod.loops, hmod.gosubs⟩
  have hle : k ≤ k + lineTooMany fuel line m := Nat.le_add_right _ _
  rcases enter_eq line m with ⟨status, henter⟩ |
    ⟨halive, hblank, ⟨n, text, -, henter | ⟨f, henter⟩⟩ | ⟨hn, henter⟩⟩
  all_goals rw [henter]
  · exact hm.mono hle
  · exact (hstored n text).mono hle
  · exact ((hstored n text).mono hle).of_eq rfl
  · have hcount : lineTooMany fuel line m =
        tooMany (execute fuel (prepare (normalLine line) { m with exitCode := none })) := by
      simp [lineTooMany, halive, hblank, hn]
    rw [hcount]
    exact within_settle (within_execute fuel (within_prepare _ (hm.of_eq rfl)))

/-- The states between two lines of a session, with the number of its runs so far that ended because
something was too complex. -/
inductive WaitingAfter : Nat → Machine → Prop
  | start (host : Host) (registry : Registry) (options : LexOptions) :
      WaitingAfter 0 { host, registry, options }
  | outside {k : Nat} (m : Machine) (host : Host) (registry : Registry) (column : Nat)
      (h : WaitingAfter k m) : WaitingAfter k { m with host, registry, column }
  | entered {k : Nat} (m : Machine) (fuel : Nat) (line : String) (h : WaitingAfter k m) :
      WaitingAfter (k + lineTooMany fuel line m) (enter fuel line m).2

def linesTooMany (fuel : Nat) : List String → Machine → Nat
  | [], _ => 0
  | line :: lines, m => lineTooMany fuel line m + linesTooMany fuel lines (enter fuel line m).2

theorem WaitingAfter.enterAll (h : WaitingAfter k m) (fuel : Nat) (lines : List String) :
    WaitingAfter (k + linesTooMany fuel lines m) (enterAll fuel lines m) := by
  induction lines generalizing k m with
  | nil => exact h
  | cons line lines ih =>
    rw [linesTooMany, ← Nat.add_assoc]
    exact ih (.entered m fuel line h)

theorem waiting_iff_waitingAfter : Waiting m ↔ ∃ k, WaitingAfter k m := by
  constructor
  · intro h
    induction h with
    | start host registry options => exact ⟨0, .start host registry options⟩
    | outside m host registry column _ ih =>
      obtain ⟨k, hk⟩ := ih
      exact ⟨k, .outside m host registry column hk⟩
    | entered m fuel line _ _ ih =>
      obtain ⟨k, hk⟩ := ih
      exact ⟨_, .entered m fuel line hk⟩
  · rintro ⟨k, h⟩
    induction h with
    | start host registry options => exact .start host registry options
    | outside m host registry column _ ih => exact .outside m host registry column ih
    | entered m fuel line _ ih => exact ih.entered fuel line

theorem WaitingAfter.within (h : WaitingAfter k m) : m.Within k := by
  induction h with
  | start host registry options =>
    intro id
    cases id with
    | zero => exact ⟨.of_empty rfl rfl, .of_empty rfl rfl⟩
    | succ id => exact ⟨.of_empty rfl rfl, .of_empty rfl rfl⟩
  | outside m host registry column _ ih => exact ih.of_eq rfl
  | entered m fuel line _ ih => exact within_enter fuel line ih

theorem Underway.within {m₀ : Machine} {line : String} {j : Nat} (h : Underway m₀ line j m)
    (hm₀ : m₀.Within k) : m.Within k := by
  induction h with
  | prepared => exact within_prepare _ (hm₀.of_eq rfl)
  | stepped _ hstep ih =>
    have hm := within_step ih
    rwa [hstep] at hm

/-- After a statement, only the break key is a fault of its own. -/
theorem error_of_afterStatement {r : EStateM.Result Fault Machine Unit} {f : Fault} {m' : Machine}
    (h : afterStatement r = .error f m') (hf : f ≠ .plain .interrupted) : r = .error f m' := by
  cases r with
  | error f' m₁ =>
    cases h
    rfl
  | ok _ m₁ =>
    rw [afterStatement] at h
    split at h
    · cases h
    · split at h
      · cases h
        exact absurd rfl hf
      · cases h

/-- A statement that was too complex was run on a machine with the stacks as they were. -/
theorem Lexed.refused {α : Type} {stack : Machine → Stack α} {u m' : Machine} {f : Fault}
    {n : LineNumber} {text : String} {t : Token} {tokens rest : List Token} {next : Nat}
    (h : Lexed m n text tokens next)
    (hcomes : Statement.ComesTo tokens (begun n tokens next m) (t :: rest) u)
    (hstack : ∀ m m' : Machine, m.Calm m' → stack m' = stack m)
    (hpc : stack (m.setPc ⟨some n, next⟩) = stack m)
    (hrefuses : Statement.Refuses stack (Statement.run (t :: rest)) u)
    (hstep : step m = .error f m') (hf : f.kind = .formulaTooComplex) :
    (stack m).Refused f (stack m') := by
  have hcalm := (calm_begun h.line tokens next).trans hcomes.calm
  rw [step_of_statement h hcomes.ne_nil, hcomes.run_eq] at hstep
  have hrun : Statement.run (t :: rest) u = .error f m' := by
    refine error_of_afterStatement hstep ?_
    rintro rfl
    cases hf
  rw [← hpc, ← hstack _ _ hcalm]
  exact hrefuses f m' hrun

/-- Between two lines of a session and between any two steps, the stacks of every module are higher
than their limits by no more elements than the session has had runs that ended because something was
too complex. A `FOR`, a `GOSUB` or an `ON` that ends so, also behind a condition, leaves its stack
as it was, or what it left of the stack was full and has the new element on it all the same. -/
theorem stacks_outgrow_limits_by_refused_pushes {k : Nat} {m₀ : Machine}
    (hsession : WaitingAfter k m₀) :
    (∀ id, (m₀.moduleAt id).loops.size ≤ maxLoops + k ∧
      (m₀.moduleAt id).gosubs.size ≤ maxGosubs + k) ∧
    ∀ line j m, Underway m₀ line j m →
      (∀ id, (m.moduleAt id).loops.size ≤ maxLoops + k ∧
        (m.moduleAt id).gosubs.size ≤ maxGosubs + k) ∧
      ∀ n text tokens next w rest u f m', Lexed m n text tokens next →
        Statement.ComesTo tokens (begun n tokens next m) (.word w :: rest) u →
        step m = .error f m' → f.kind = .formulaTooComplex →
          (w = .FOR → m.codeModule.loops.Refused f m'.codeModule.loops) ∧
          (w = .GOSUB ∨ w = .ON →
            m.variableModule.gosubs.Refused f (m'.moduleAt m.scopes.variableModule).gosubs) := by
  have hm₀ := hsession.within
  refine ⟨fun id => ⟨(hm₀ id).loops.size_le, (hm₀ id).gosubs.size_le⟩, fun line j m hrun => ?_⟩
  have hm := hrun.within hm₀
  refine ⟨fun id => ⟨(hm id).loops.size_le, (hm id).gosubs.size_le⟩, ?_⟩
  intro n text tokens next w rest u f m' hlexed hcomes hstep hf
  have hu := hlexed.poised hrun.wellScoped hcomes
  have hcall {x : Run Unit} (hx : Statement.run (.word w :: rest) = x)
      (hrefuses : Statement.Refuses (fun u' => (u'.moduleAt u.scopes.variableModule).gosubs) x u) :
      m.variableModule.gosubs.Refused f (m'.moduleAt m.scopes.variableModule).gosubs := by
    rw [hu.scopes] at hrefuses
    exact hlexed.refused hcomes (fun _ _ hcalm => hcalm.gosubs _) (m.gosubs_setPc _ _)
      (hx ▸ hrefuses) hstep hf
  constructor
  · rintro rfl
    have hrefuses : Statement.Refuses (·.codeModule.loops)
        (Statement.run (.word .FOR :: rest)) u := by
      rw [Statement.run]
      exact Statement.refuses_beginLoop rest hu.wellScoped
    exact hlexed.refused hcomes (fun _ _ hcalm => hcalm.codeLoops) (m.loops_setPc _ _) hrefuses
      hstep hf
  · rintro (rfl | rfl)
    · exact hcall (by rw [Statement.run]) (Statement.refuses_gosub rest hu.wellScoped)
    · exact hcall (by rw [Statement.run]) (Statement.refuses_onSelector rest hu.wellScoped)

/-- A session in which a line that calls itself has run. -/
def overcalled : Machine := enterAll 258 ["10 GOSUB 10", "RUN"] {}

set_option maxRecDepth 100000 in
/-- The call that was refused is still there when the next one is made, and so it goes on. -/
theorem stacks_outgrow_limits_by_refused_pushes_at_call :
    WaitingAfter 1 overcalled ∧ ∃ m f m', Underway overcalled "GOTO 10" 1 m ∧
      m.variableModule.gosubs.size = 257 ∧ m.variableModule.gosubs.size ≤ maxGosubs + 1 ∧
      step m = .error f m' ∧ f.kind = .formulaTooComplex ∧
      m.variableModule.gosubs.Refused f (m'.moduleAt m.scopes.variableModule).gosubs ∧
      (m'.moduleAt m.scopes.variableModule).gosubs.size = 258 := by
  obtain ⟨hcount, m, hm, hsize, hline, hmany, hafter⟩ :
      linesTooMany 258 ["10 GOSUB 10", "RUN"] {} = 1 ∧
      ∃ m, ongoing 1 (prepare (normalLine "GOTO 10") { overcalled with exitCode := none }) =
        some m ∧ m.variableModule.gosubs.size = 257 ∧
        Lexed m 10 "GOSUB 10" [.word .GOSUB, .integer "10"] 8 ∧ tooMany (step m) = 1 ∧
        ((machineAfter (step m)).moduleAt m.scopes.variableModule).gosubs.size = 258 := by
    decide +kernel
  have hsession : WaitingAfter 1 overcalled := by
    have hcounted := (WaitingAfter.start {} {} {}).enterAll 258 ["10 GOSUB 10", "RUN"]
    rwa [hcount] at hcounted
  have hrun : Underway overcalled "GOTO 10" 1 m := by
    have hstart : Underway overcalled "GOTO 10" 0 _ :=
      .prepared (waiting_iff_waitingAfter.2 ⟨1, hsession⟩) (by decide +kernel) (by decide +kernel)
        (by decide +kernel)
    exact hstart.ongoing hm
  obtain ⟨f, m', hstep, hf⟩ := exists_error_of_tooMany hmany
  obtain ⟨-, hunderway⟩ := stacks_outgrow_limits_by_refused_pushes hsession
  obtain ⟨hbound, hrefused⟩ := hunderway _ _ m hrun
  rw [hstep, machineAfter_error] at hafter
  exact ⟨hsession, m, f, m', hrun, hsize, (hbound _).2, hstep, hf,
    (hrefused _ _ _ _ _ _ _ f m' hline (.here _ _) hstep hf).2 (.inl rfl), hafter⟩

set_option maxRecDepth 100000 in
/-- The call that finds 256 others on its stack fails, and there are 257 afterwards. -/
theorem refused_call_stays_on_stack :
    let m := (enter 1 "10 GOSUB 10" {}).2
    Waiting m ∧ (enter 257 "RUN" m).1 = .running ∧
      ((enter 257 "RUN" m).2.moduleAt 0).gosubs.size = 256 ∧
      (enter 258 "RUN" m).1 = .failed ∧ ((enter 258 "RUN" m).2.moduleAt 0).gosubs.size = 257 := by
  refine ⟨Waiting.enterAll 1 ["10 GOSUB 10"], ?_⟩
  decide +kernel

end Session

end LineBasic
