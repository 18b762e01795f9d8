import LineBasic.Proofs.Act.Statement
import LineBasic.Proofs.Listing.Renumbering
import LineBasic.Proofs.Scopes

/-!
# Where statements lead

A statement that is no jump leaves each module in its line, or ends it. Jumps to a given line lead
to a line of the program. Where lines are taken away or get new numbers, typed text stays.
-/

set_option autoImplicit false

namespace LineBasic

open Run

def Effect.staying : Effect where
  Leads m m' := m'.registry = m.registry ∧ m'.scopes.codeStack = m.scopes.codeStack ∧
    ∀ id, (m'.moduleAt id).pc.line = (m.moduleAt id).pc.line ∨ (m'.moduleAt id).pc.line = none
  refl _ := ⟨rfl, rfl, fun _ => .inl rfl⟩
  trans h h' := by
    refine ⟨h'.1.trans h.1, h'.2.1.trans h.2.1, fun id => ?_⟩
    rcases h'.2.2 id with hline | hline
    · rw [hline]
      exact h.2.2 id
    · exact .inr hline
  registry h := h.1

def Effect.landing : Effect where
  Leads m m' := m'.registry = m.registry ∧ ∀ id, (m'.moduleAt id).pc = (m.moduleAt id).pc ∨
    ∀ n, (m'.moduleAt id).pc.line = some n → 0 ≤ n
  refl _ := ⟨rfl, fun _ => .inl rfl⟩
  trans h h' := by
    refine ⟨h'.1.trans h.1, fun id => ?_⟩
    rcases h'.2 id with hpc | hpc
    · rw [hpc]
      exact h.2 id
    · exact .inr hpc
  registry h := h.1

def Effect.keepingTyped : Effect where
  Leads m m' := m'.registry = m.registry ∧ ∀ id n, n < 0 →
    (m'.moduleAt id).listing.get? n = (m.moduleAt id).listing.get? n
  refl _ := ⟨rfl, fun _ _ _ => rfl⟩
  trans h h' := ⟨h'.1.trans h.1, fun id n hn => (h'.2 id n hn).trans (h.2 id n hn)⟩
  registry h := h.1

namespace Machine

theorem QuietBut.staying {reads : Prop} {m m' : Machine} (h : m.QuietBut reads m') :
    Effect.staying.Leads m m' :=
  ⟨h.registry, by rw [h.scopes], fun id => .inl (by rw [h.pc])⟩

theorem CalmBut.landing {reads : Prop} {m m' : Machine} (h : m.CalmBut reads m') :
    Effect.landing.Leads m m' :=
  ⟨h.registry, fun id => .inl (h.pc id)⟩

theorem CalmBut.keepingTyped {reads : Prop} {m m' : Machine} (h : m.CalmBut reads m') :
    Effect.keepingTyped.Leads m m' :=
  ⟨h.registry, fun id _ _ => by rw [h.quiet.listing]⟩

end Machine

namespace Run

variable {α : Type}

theorem Obeys.staying {reads : Prop} {x : Run α} (h : Obeys (.quietBut reads) x) :
    Follows .staying x :=
  h.follows.mono fun _ _ hquiet => Machine.QuietBut.staying hquiet

theorem staying_of_calm {reads : Prop} {x : Run α} (h : Obeys (.calmBut reads) x) :
    Follows .staying x :=
  h.follows.mono fun _ _ hcalm => (Machine.CalmBut.quietBut hcalm).staying

theorem landing_of_calm {x : Run α} (h : Calm x) : Follows .landing x :=
  h.follows.mono fun _ _ hcalm => Machine.CalmBut.landing hcalm

theorem keepingTyped_of_calm {x : Run α} (h : Calm x) : Follows .keepingTyped x :=
  h.follows.mono fun _ _ hcalm => Machine.CalmBut.keepingTyped hcalm

theorem staying_updateModule (id : ModuleId) {f : Module → Module}
    (hf : ∀ mod, (f mod).pc.line = mod.pc.line ∨ (f mod).pc.line = none) :
    Follows .staying (updateModule id f) := by
  refine fun m => ⟨rfl, rfl, fun j => ?_⟩
  change ((m.updateModule id f).moduleAt j).pc.line = _ ∨
    ((m.updateModule id f).moduleAt j).pc.line = none
  rw [Machine.moduleAt_updateModule]
  split
  · exact hf _
  · exact .inl rfl

theorem staying_updateCodeModule {f : Module → Module}
    (hf : ∀ mod, (f mod).pc.line = mod.pc.line ∨ (f mod).pc.line = none) :
    Follows .staying (updateCodeModule f) :=
  fun m => staying_updateModule m.scopes.codeModule hf m

theorem staying_updateVariableModule {f : Module → Module}
    (hf : ∀ mod, (f mod).pc.line = mod.pc.line ∨ (f mod).pc.line = none) :
    Follows .staying (updateVariableModule f) :=
  fun m => staying_updateModule m.scopes.variableModule hf m

end Run

namespace BuiltinCommand

theorem staying_run (c : BuiltinCommand) (items : List Item) : Follows .staying (c.run items) := by
  cases c with
  | AUTO => exact staying_of_calm (calm_auto items)
  | CLOSE => exact staying_of_calm (calm_close items)
  | FAST => exact staying_of_calm (calm_switchFast true items)
  | FIND => exact staying_of_calm (calm_find items)
  | LOAD =>
    refine (follows_liftM _).bind fun _ => (follows_liftM _).bind fun name => ?_
    refine follows_get.bind fun m => (follows_liftM _).bind fun text => ?_
    exact (follows_liftM _).bind fun listing => staying_updateVariableModule fun _ => .inr rfl
  | OPEN => exact staying_of_calm (calm_openFile items)
  | POKE => exact staying_of_calm (calm_poke items)
  | QSAVE => exact staying_of_calm (calm_saveAgain items)
  | QUIT =>
    refine (follows_liftM _).bind fun _ => (follows_liftM _).bind fun code => ?_
    exact fun m => ⟨rfl, rfl, fun _ => .inl rfl⟩
  | RENUMBER =>
    intro m
    rcases renumber_cases items m with ⟨r, l, -, h⟩ | ⟨f, h⟩
    · rw [FollowsAt, final, run, h]
      exact staying_updateVariableModule (fun _ => by exact .inl rfl) m
    · rw [FollowsAt, final, run, h]
      exact Effect.staying.refl m
  | SAVE => exact staying_of_calm (calm_save items)
  | SLEEP => exact staying_of_calm (calm_sleep items)
  | SLOW => exact staying_of_calm (calm_switchFast false items)
  | STOP => exact staying_of_calm (calm_stop items)
  | TROFF => exact staying_of_calm (calm_switchTrace false items)
  | TRON => exact staying_of_calm (calm_switchTrace true items)

end BuiltinCommand

namespace Statement

inductive JumpsToLine (m : Machine) : List Token → Prop
  | word {w : Word} (rest : List Token) (hw : w ∈ [.GOSUB, .GOTO, .ON, .RUN]) :
      JumpsToLine m (.word w :: rest)
  | thenLine {rest : List Token} {taken : Nat} {m₁ : Machine} {n : String}
      (hcondition : condition rest m = .ok (true, taken) m₁)
      (hthen : rest.drop taken = [.word .THEN, .integer n]) : JumpsToLine m (.word .IF :: rest)
  | thenGoto {rest more : List Token} {taken : Nat} {m₁ : Machine}
      (hcondition : condition rest m = .ok (true, taken) m₁)
      (hgoto : rest.drop taken = .word .GOTO :: more) : JumpsToLine m (.word .IF :: rest)

inductive JumpsItself (m : Machine) : List Token → Prop
  | toLine {tokens : List Token} (h : JumpsToLine m tokens) : JumpsItself m tokens
  | back {w : Word} (rest : List Token) (hw : w ∈ [.END, .NEXT, .RETURN]) :
      JumpsItself m (.word w :: rest)

def Jumps (tokens : List Token) (m : Machine) : Prop :=
  ∃ tokens' m', ComesTo tokens m tokens' m' ∧ JumpsItself m' tokens'

theorem JumpsItself.jumps {tokens : List Token} {m : Machine} (h : JumpsItself m tokens) :
    Jumps tokens m :=
  ⟨tokens, m, .here tokens m, h⟩

theorem Jumps.of_comesTo {tokens tokens' : List Token} {m m' : Machine}
    (hcomes : ComesTo tokens m tokens' m') (h : Jumps tokens' m') : Jumps tokens m := by
  obtain ⟨tokens'', m'', h, hend⟩ := h
  exact ⟨tokens'', m'', hcomes.trans h, hend⟩

theorem staying_beginLoop (tokens : List Token) : Follows .staying (beginLoop tokens) := by
  refine (staying_of_calm (calm_loopVariable tokens)).bind fun target => ?_
  refine .ite (follows_fail _ _) ((staying_of_calm (calm_afterEqual _)).bind fun _ => ?_)
  refine (staying_of_calm (calm_loopStart _)).bind fun start => ?_
  refine (staying_of_calm (calm_loopLimit _)).bind fun limit => ?_
  refine (staying_of_calm (calm_loopStep _)).bind fun step => ?_
  refine (staying_of_calm (calm_store_scalar _ _ _)).bind fun _ => ?_
  refine .bind (staying_updateCodeModule fun mod => ?_) fun _ => follows_get.bind fun m => ?_
  · rw [endLoopsOver]
    split <;> exact .inl rfl
  · refine .bind (staying_updateCodeModule fun _ => by exact .inl rfl) fun _ => ?_
    split <;> simp

theorem staying_skipLine : Follows .staying skipLine := by
  refine staying_updateCodeModule fun mod => ?_
  split <;> exact .inl rfl

theorem staying_enterModule (tokens : List Token) : Follows .staying (enterModule tokens) := by
  have named (name : String) : Follows .staying (do
      let id ← ensureModule name
      modify fun m => { m with scopes := m.scopes.enterVariables id }) := by
    refine (staying_of_calm (calm_ensureModule name)).bind fun id m => ?_
    exact ⟨rfl, m.scopes.codeStack_enterVariables id, fun _ => .inl rfl⟩
  rw [enterModule.eq_def]
  split
  · exact named _
  · exact named _
  · exact follows_fail _ _

theorem staying_runCommand (name : String) (rest : List Token) :
    Follows .staying (runCommand name rest) := by
  refine follows_get.bind fun m => ?_
  split
  · exact follows_throw _
  · rename_i c _
    refine (staying_of_calm (calm_evaluateAll rest)).bind fun items => ?_
    cases c with
    | builtin c => exact c.staying_run items
    | added text =>
      exact (follows_liftM _).bind fun out => staying_of_calm (Run.calm_print out)

theorem staying_run {tokens : List Token} {m : Machine} (h : ¬ Jumps tokens m) :
    FollowsAt .staying m (run tokens) := by
  rw [run.eq_def]
  split
  · exact follows_pure _ m
  · exact staying_runCommand _ _ m
  · exact staying_of_calm (calm_assign _) m
  · exact staying_of_calm (calm_assign _) m
  · rename_i w rest
    cases w with
    | IF =>
      suffices hif : FollowsAt .staying m (run (.word .IF :: rest)) by
        rw [run.eq_def] at hif
        exact hif
      refine run_if (fun f => (staying_of_calm (calm_condition rest) m).bind) staying_skipLine ?_ ?_ ?_
        (follows_fail _ _)
      · intro taken m₁ n hcondition hthen
        exact absurd (JumpsItself.toLine (.thenLine hcondition hthen)).jumps h
      · intro taken m₁ more hcondition hgoto
        exact absurd (JumpsItself.toLine (.thenGoto hcondition hgoto)).jumps h
      · intro more m₁ hlength hcomes
        exact staying_run fun hjumps => h (hjumps.of_comesTo hcomes)
    | CLR => exact staying_updateVariableModule (fun _ => by exact .inl rfl) m
    | DATA | REM => exact follows_pure _ m
    | DEF => exact staying_of_calm (calm_define rest) m
    | DELETE =>
      refine Follows.ite (follows_fail _ _) ((follows_liftM _).bind fun range => ?_) m
      exact staying_updateVariableModule fun _ => by exact .inl rfl
    | DIM => exact (quiet_dim rest).staying m
    | DUMP => exact staying_of_calm calm_dump m
    | FOR => exact staying_beginLoop rest m
    | GET => exact staying_of_calm (calm_getKey false rest) m
    | GETKEY => exact staying_of_calm (calm_getKey true rest) m
    | INPUT => exact staying_of_calm (calm_input rest) m
    | LET => exact staying_of_calm (calm_assign rest) m
    | LIST => exact staying_of_calm (calm_list rest) m
    | MODULE => exact staying_enterModule rest m
    | NEW =>
      refine Follows.bind (staying_updateVariableModule fun _ => .inr rfl) (fun _ => ?_) m
      exact staying_updateCodeModule fun _ => .inr rfl
    | PRINT => exact staying_of_calm (calm_print rest) m
    | READ => exact staying_of_calm (reading_read rest) m
    | RESTORE => exact staying_of_calm (reading_restore rest) m
    | SCNCLR => exact staying_of_calm calm_clearScreen m
    | FN | STEP | THEN | TO | USING => exact follows_throw _ m
    | GOSUB | GOTO | ON | RUN =>
      exact absurd (JumpsItself.toLine (.word rest (by simp))).jumps h
    | END | NEXT | RETURN => exact absurd (JumpsItself.back rest (by simp)).jumps h
  · exact follows_throw _ m
termination_by tokens.length
decreasing_by
  subst_vars
  exact Nat.lt_succ_of_lt hlength

theorem landing_enterCode : Follows .landing enterCode := by
  refine fun m => ⟨(Run.changes_enterCode m).registry, fun id => ?_⟩
  change (m.enterCode.2.moduleAt id).pc = _ ∨ ∀ n, (m.enterCode.2.moduleAt id).pc.line = some n → _
  rw [Machine.pc_enterCode]
  split
  · exact .inr fun n hn => by cases hn
  · exact .inl rfl

theorem landing_endModule : Follows .landing endModule := by
  refine fun m => ⟨(Run.changes_endModule m).registry, fun id => ?_⟩
  change (m.endModule.moduleAt id).pc = _ ∨ ∀ n, (m.endModule.moduleAt id).pc.line = some n → _
  rw [Machine.pc_endModule]
  split
  · exact .inr fun n hn => by cases hn
  · exact .inl rfl

theorem landing_updateCodeModule {f : Module → Module}
    (hf : ∀ mod, (f mod).pc = mod.pc ∨ ∀ n, (f mod).pc.line = some n → 0 ≤ n) :
    Follows .landing (updateCodeModule f) := by
  refine fun m => ⟨rfl, fun id => ?_⟩
  change ((m.updateCodeModule f).moduleAt id).pc = _ ∨
    ∀ n, ((m.updateCodeModule f).moduleAt id).pc.line = some n → _
  rw [Machine.updateCodeModule, Machine.moduleAt_updateModule]
  split
  · exact hf _
  · exact .inl rfl

theorem landing_goTo {n : LineNumber} (hn : 0 ≤ n) :
    Follows .landing (updateCodeModule fun mod => { mod with pc := .atLine n }) :=
  landing_updateCodeModule fun _ => .inr fun n' hn' => by
    cases hn'
    exact hn

theorem nonneg_of_isTarget {mod : Module} {n : LineNumber} (h : isTarget mod n = true) : 0 ≤ n := by
  rw [isTarget, Bool.and_eq_true, decide_eq_true_eq] at h
  exact h.1

theorem landing_jumpTo (n : LineNumber) : Follows .landing (jumpTo n) := by
  refine landing_enterCode.bind fun _ => follows_get.bind fun m => ?_
  cases htarget : isTarget m.codeModule n with
  | false => exact follows_throw _
  | true => exact landing_goTo (nonneg_of_isTarget htarget)

theorem landing_callLine (n : LineNumber) : Follows .landing (callLine n) := by
  refine follows_get.bind fun _ => landing_enterCode.bind fun entered => ?_
  refine follows_get.bind fun m => ?_
  dsimp only
  split
  · exact Effect.landing.refl
  · rename_i htarget
    refine .bind (landing_updateCodeModule fun _ => by exact .inl rfl) fun _ => ?_
    split
    · exact follows_throw _
    · exact landing_goTo (nonneg_of_isTarget (by simpa using htarget))

theorem landing_startProgram (start : Option LineNumber) :
    Follows .landing (startProgram start) := by
  have prepared : Follows .landing
      (updateVariableModule fun mod => { mod with autoStep := 0 }) :=
    landing_of_calm (calm_updateVariableModule fun _ => .of_eq rfl rfl rfl rfl)
  refine prepared.bind fun _ => landing_enterCode.bind fun _ => ?_
  refine .bind (landing_updateCodeModule fun _ => by exact .inl rfl) fun _ => ?_
  refine follows_get.bind fun m => ?_
  split
  · rename_i n hn
    have hfound := List.find?_some hn
    rw [Bool.and_eq_true, decide_eq_true_eq] at hfound
    exact landing_goTo hfound.1
  · exact .ite (follows_throw _) landing_endModule

theorem landing_jumpList (isCall : Bool) (selector : Int64) (tokens : List Token) :
    Follows .landing (jumpList isCall selector tokens) := by
  refine (landing_of_calm (calm_evaluateAll tokens)).bind fun items => .ite (follows_pure _) ?_
  split
  · exact follows_pure _
  · exact (follows_liftM _).bind fun n => .ite (landing_callLine _) (landing_jumpTo _)

theorem landing_onSelector (tokens : List Token) : Follows .landing (onSelector tokens) := by
  refine (landing_of_calm (calm_evaluate tokens)).bind fun _ => (follows_liftM _).bind fun _ => ?_
  refine (follows_liftM _).bind fun selector => ?_
  split
  · exact landing_jumpList false selector _
  · exact landing_jumpList true selector _
  · exact follows_fail _ _

theorem landing_lineArgument (tokens : List Token) :
    Follows .landing (do jumpTo (← lineArgument tokens)) :=
  (landing_of_calm (calm_lineArgument tokens)).bind landing_jumpTo

theorem landing_run {tokens : List Token} {m : Machine} (h : JumpsToLine m tokens) :
    FollowsAt .landing m (run tokens) := by
  cases h with
  | @word w rest hw =>
    have argued := landing_of_calm (calm_lineArgument rest)
    rw [run.eq_def]
    cases w with
    | GOSUB => exact argued.bind landing_callLine m
    | GOTO => exact landing_lineArgument rest m
    | ON => exact landing_onSelector rest m
    | RUN =>
      refine Follows.ite (landing_startProgram _) (argued.bind fun _ => ?_) m
      exact landing_startProgram _
    | _ => simp at hw
  | @thenLine rest taken m₁ n hcondition hthen =>
    rw [run.eq_def]
    refine (landing_of_calm (calm_condition rest) m).bind fun result m₂ hresult => ?_
    cases hcondition.symm.trans hresult
    dsimp only
    split
    · rename_i more hmore
      cases hthen.symm.trans hmore
      exact landing_lineArgument _ m₁
    · rename_i more hmore
      cases hthen.symm.trans hmore
    · rename_i hother _
      exact absurd hthen (hother _)
  | @thenGoto rest more taken m₁ hcondition hgoto =>
    rw [run.eq_def]
    refine (landing_of_calm (calm_condition rest) m).bind fun result m₂ hresult => ?_
    cases hcondition.symm.trans hresult
    dsimp only
    split
    · rename_i more' hmore
      cases hgoto.symm.trans hmore
    · rename_i more' hmore
      cases hgoto.symm.trans hmore
      exact landing_lineArgument _ m₁
    · rename_i _ hother
      exact absurd hgoto (hother _)

inductive Rearranges (m : Machine) : List Token → Prop
  | delete (rest : List Token) : Rearranges m (.word .DELETE :: rest)
  | renumber {name : String} (rest : List Token)
      (hname : m.registry.commands.get? name = some (.builtin .RENUMBER)) :
      Rearranges m (.command name :: rest)

theorem keepingTyped_updateVariableModule {m : Machine} {f : Module → Module}
    (hf : ∀ n, n < 0 → (f m.variableModule).listing.get? n = m.variableModule.listing.get? n) :
    Effect.keepingTyped.Leads m (m.updateVariableModule f) := by
  refine ⟨rfl, fun id n hn => ?_⟩
  rw [Machine.updateVariableModule, Machine.moduleAt_updateModule]
  split
  · rename_i hid
    rw [hid.1]
    exact hf n hn
  · rfl

theorem keepingTyped_run {tokens : List Token} {m : Machine} (h : Rearranges m tokens) :
    FollowsAt .keepingTyped m (run tokens) := by
  cases h with
  | delete rest =>
    rw [run.eq_def]
    refine Follows.ite (follows_fail _ _) ((follows_liftM _).bind fun range m => ?_) m
    exact keepingTyped_updateVariableModule fun n hn => Listing.get?_eraseRange_of_neg _ _ _ hn
  | @renumber name rest hname =>
    rw [run, FollowsAt, final, runCommand_apply hname]
    refine FollowsAt.bind (keepingTyped_of_calm (calm_evaluateAll rest) m) fun items m₁ _ => ?_
    rcases BuiltinCommand.renumber_cases items m₁ with ⟨r, l, hl, h⟩ | ⟨f, h⟩
    · rw [FollowsAt, final, BuiltinCommand.run, h]
      refine keepingTyped_updateVariableModule fun n hn => ?_
      obtain ⟨changes, hchanges, hentries⟩ := Listing.renumber_eq_ok hl
      exact Listing.get?_of_renumber hchanges hentries hn
    · rw [FollowsAt, final, BuiltinCommand.run, h]
      exact Effect.keepingTyped.refl m₁

end Statement

end LineBasic
