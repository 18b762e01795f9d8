import LineBasic.Proofs.Act.Shift
import LineBasic.Proofs.Session.Underway

/-!
# Callers that wait for a called module

A jump that enters a module leaves its caller where it stands, and so are all modules below. They
stand there until the entered module is left, whatever it does and calls meanwhile, as long as they
are not entered again or taken back to their start. A module has one program counter, however often
it is on the stack: one that is entered again has lost its place, and stands at its end afterwards.
-/

set_option autoImplicit false

namespace LineBasic.Session

open Run

/-- What can come next in a session: a step of the run, unless it fails in a running program and so
leaves all modules, or something beside the steps. -/
inductive Onward (m : Machine) : Machine → Prop
  | step (h : ∀ f m', step m = .error f m' → inRunningLine m' f = false) :
      Onward m (settle (step m)).2
  | aside {m' : Machine} (h : Aside m m') : Onward m m'

theorem onward_of_step {m m' : Machine} (h : step m = .ok false m') : Onward m m' := by
  have honward : Onward m (settle (step m)).2 := .step (by simp [h])
  rwa [h] at honward

/-- The states of a session from a machine on, until the code stack is as low as a given depth. -/
inductive CodeFrame (depth : Nat) : Machine → List Machine → Machine → Prop
  | left {m : Machine} (h : m.scopes.codeStack.length ≤ depth) : CodeFrame depth m [] m
  | onward {m m' m'' : Machine} {visited : List Machine} (h : depth < m.scopes.codeStack.length)
      (hmove : Onward m m') (hrest : CodeFrame depth m' visited m'') :
      CodeFrame depth m (m :: visited) m''

def Spared (visited : List Machine) (x : ModuleId) : Prop :=
  ∀ s ∈ visited, s.scopes.codeModule ≠ x ∧ (Renews s → s.scopes.variableModule ≠ x)

def Moves (m m' : Machine) : Prop :=
  ∃ m₁ : Machine, m₁.scopes = m.scopes ∧
    (∀ id, id ≠ m.scopes.codeModule → (m₁.moduleAt id).pc = (m.moduleAt id).pc) ∧
    Shift (Renews m) m₁ m'

theorem moves_of_shift {m m' : Machine} (h : Shift (Renews m) m m') : Moves m m' :=
  ⟨m, rfl, fun _ _ => rfl, h⟩

theorem Moves.of_eq {m m₁ m₂ : Machine} (h : Moves m m₁) (hscopes : m₂.scopes = m₁.scopes)
    (hmodules : m₂.modules = m₁.modules) : Moves m m₂ := by
  obtain ⟨m₀, hm₀, hpc, hshift⟩ := h
  exact ⟨m₀, hm₀, hpc, hshift.of_eq hscopes hmodules⟩

/-- A move leaves alone the program counters of modules that it does not run, take back to their
start, or enter. -/
theorem Moves.pc {m m' : Machine} (h : Moves m m') {x : ModuleId} (hcode : m.scopes.codeModule ≠ x)
    (hrenews : Renews m → m.scopes.variableModule ≠ x)
    (hentered : m.scopes.codeStack.length < m'.scopes.codeStack.length →
      m'.scopes.codeModule ≠ x) :
    (m'.moduleAt x).pc = (m.moduleAt x).pc := by
  obtain ⟨m₁, hscopes, hpc, hshift⟩ := h
  rw [← hpc x hcode.symm]
  rw [← hscopes] at hcode hrenews hentered
  cases hshift with
  | kept _ hkept => exact hkept x hcode.symm fun hm => (hrenews hm).symm
  | pushed _ hstack hkept =>
    have hlt : m₁.scopes.codeStack.length < m'.scopes.codeStack.length := by
      rw [hstack]
      exact Nat.lt_succ_self _
    have hnext : m'.scopes.codeModule = m₁.scopes.variableModule := by
      rw [Scopes.codeModule, hstack]
      rfl
    exact hkept x (hnext ▸ hentered hlt).symm
  | popped _ _ _ hkept => exact hkept x hcode.symm

theorem moves_step {m : Machine} (hm : m.WellScoped) : Moves m (Session.step.final m) := by
  refine step_rule (I := fun m₁ => m₁.WellScoped ∧ m₁.scopes = m.scopes ∧
    ∀ id, id ≠ m.scopes.codeModule → (m₁.moduleAt id).pc = (m.moduleAt id).pc) (J := Moves m)
    ?_ ?_ ?_ ?_ ⟨hm, rfl, fun _ _ => rfl⟩
  · rintro m₁ m₂ hquiet ⟨hm₁, hscopes, hpc⟩
    exact ⟨hm₁.quiet hquiet, hquiet.scopes.trans hscopes,
      fun id hid => (hquiet.pc id).trans (hpc id hid)⟩
  · rintro m₁ pc ⟨hm₁, hscopes, hpc⟩
    refine ⟨hm₁.setPc pc, hscopes, fun id hid => ?_⟩
    rw [Machine.pc_setPc, hscopes, if_neg fun h => hid h.1, hpc id hid]
  · rintro m₁ r hact ⟨hm₁, hscopes, hpc⟩
    exact ⟨m₁, hscopes, hpc, hact.shift hm₁⟩
  · exact fun m₁ host h => h.of_eq rfl rfl

theorem shift_prepare {E : Prop} {m : Machine} (hm : m.WellScoped) (line : String) :
    Shift E m (prepare line m) := by
  have hland : Landing E m none m.enterCode.2 := .jump
  refine hland.shift hm rfl fun id hid => ?_
  rw [prepare, Machine.updateCodeModule, hland.codeModule hm,
    Machine.moduleAt_updateModule_of_ne hid]

theorem Onward.wellScoped {m m' : Machine} (h : Onward m m') (hm : m.WellScoped) :
    m'.WellScoped := by
  cases h with
  | step => exact wellScoped_settle hm
  | aside h => exact h.wellScoped hm

theorem Aside.moves {m m' : Machine} (h : Aside m m') (hm : m.WellScoped) : Moves m m' := by
  have hkept {m' : Machine} (hscopes : m'.scopes = m.scopes)
      (hpc : ∀ id, (m'.moduleAt id).pc = (m.moduleAt id).pc) : Moves m m' :=
    moves_of_shift (.kept (by rw [hscopes]) fun id _ _ => hpc id)
  cases h with
  | stored n text =>
    refine hkept rfl fun id => ?_
    rw [Session.stored, Machine.updateVariableModule, Machine.moduleAt_updateModule]
    split <;> rfl
  | refused f n => exact hkept (scopes_report rfl) fun _ => rfl
  | prepared line => exact moves_of_shift (shift_prepare hm line)
  | outside host registry column => exact hkept rfl fun _ => rfl

theorem Onward.moves {m m' : Machine} (h : Onward m m') (hm : m.WellScoped) : Moves m m' := by
  cases h with
  | aside h => exact h.moves hm
  | step hfault =>
    have hstep := moves_step hm
    rw [final] at hstep
    cases hs : Session.step m with
    | error f m₁ =>
      rw [hs] at hstep
      exact hstep.of_eq (scopes_report (hfault f m₁ hs)) rfl
    | ok done m₁ =>
      rw [hs] at hstep
      cases done with
      | false => exact hstep
      | true =>
        obtain ⟨exitCode, hsettle⟩ := settle_of_over m₁
        rw [hsettle]
        exact hstep.of_eq rfl rfl

theorem CodeFrame.mem_visited {depth : Nat} {m m' : Machine} {visited : List Machine}
    (h : CodeFrame depth m visited m') (hlt : depth < m.scopes.codeStack.length) : m ∈ visited := by
  cases h with
  | left hle => exact absurd hlt (Nat.not_lt.2 hle)
  | onward => exact List.mem_cons_self

/-- A frame ends with the stack that its module was entered on. That module stands at its end then,
and a module that was spared stands where it stood. -/
theorem CodeFrame.ends {base : List ModuleId} {entered : ModuleId} {m m' : Machine}
    {visited : List Machine} (h : CodeFrame base.length m visited m') (hbase : base ≠ [])
    (hm : m.WellScoped) {above : List ModuleId}
    (hstack : m.scopes.codeStack = above ++ entered :: base) :
    m'.scopes.codeStack = base ∧ (m'.moduleAt entered).pc = .atEnd ∧
      ∀ x, Spared visited x → (m'.moduleAt x).pc = (m.moduleAt x).pc := by
  induction h generalizing above with
  | left hle =>
    rw [hstack, List.length_append, List.length_cons] at hle
    omega
  | @onward m m₁ m' visited hlt hmove hrest ih =>
    have hmoves := hmove.moves hm
    have hpc (x : ModuleId) (hx : Spared (m :: visited) x) :
        (m₁.moduleAt x).pc = (m.moduleAt x).pc := by
      obtain ⟨hcode, hrenews⟩ := hx m List.mem_cons_self
      refine hmoves.pc hcode hrenews fun hpush => ?_
      have hvisited := hrest.mem_visited (Nat.lt_trans hlt hpush)
      exact (hx m₁ (List.mem_cons_of_mem m hvisited)).1
    -- As long as the entered module is on the stack, the frame goes on from the next state.
    have hback (above' : List ModuleId)
        (hstack' : m₁.scopes.codeStack = above' ++ entered :: base) :
        m'.scopes.codeStack = base ∧ (m'.moduleAt entered).pc = .atEnd ∧
          ∀ x, Spared (m :: visited) x → (m'.moduleAt x).pc = (m.moduleAt x).pc := by
      obtain ⟨hend, hentered, hkept⟩ := ih (hmove.wellScoped hm) hstack'
      refine ⟨hend, hentered, fun x hx => ?_⟩
      rw [hkept x fun s hs => hx s (List.mem_cons_of_mem m hs), hpc x hx]
    obtain ⟨m₀, hscopes, -, hshift⟩ := hmoves
    cases hshift with
    | kept hstack' => exact hback above (by rw [hstack', hscopes, hstack])
    | pushed _ hstack' =>
      refine hback (m.scopes.variableModule :: above) ?_
      rw [hstack', hscopes, hstack]
      rfl
    | popped _ hstack' hend =>
      rw [hscopes, hstack] at hstack'
      cases above with
      | nil =>
        -- The frame is over here, so nothing was visited but the last state of it.
        rw [List.nil_append, Scopes.popKeeping_cons hbase] at hstack'
        have hcode : m₀.scopes.codeModule = entered := by
          rw [hscopes, Scopes.codeModule, hstack]
          rfl
        cases hrest with
        | left => exact ⟨hstack', hcode ▸ hend, hpc⟩
        | onward hlt =>
          rw [hstack'] at hlt
          exact absurd hlt (Nat.lt_irrefl _)
      | cons a as =>
        rw [List.cons_append, Scopes.popKeeping_cons (by simp)] at hstack'
        exact hback as hstack'

/-- A statement that lets the code stack grow enters the module in the variable scope, and lets all
others stand where they stood when the statement was read. -/
theorem enters_of_push {m m₁ : Machine} {n : LineNumber} {text : String} {tokens : List Token}
    {next : Nat} (hm : m.WellScoped) (hlexed : Lexed m n text tokens next) (htokens : tokens ≠ [])
    (hstep : step m = .ok false m₁)
    (hpush : m.scopes.codeStack.length < m₁.scopes.codeStack.length) :
    m₁.scopes.codeStack = m.scopes.variableModule :: m.scopes.codeStack ∧
      ∀ id, id ≠ m.scopes.variableModule →
        (m₁.moduleAt id).pc = ((m.setPc ⟨some n, next⟩).moduleAt id).pc := by
  have hbegun := calm_begun hlexed.line tokens next
  rw [step_of_statement hlexed htokens] at hstep
  obtain ⟨m₂, hrun, -, -, rfl⟩ := ok_of_afterStatement hstep
  obtain ⟨m₀, hquiet, ⟨f, hf, -⟩ | hact⟩ := Statement.acts_run tokens (begun n tokens next m)
  · rw [hrun] at hf
    cases hf
  · have hm₀ := ((hm.setPc ⟨some n, next⟩).quiet hbegun.quiet).quiet hquiet
    have hscopes : m₀.scopes = m.scopes := hquiet.scopes.trans hbegun.scopes
    have hpc (id : ModuleId) : (m₀.moduleAt id).pc = ((m.setPc ⟨some n, next⟩).moduleAt id).pc :=
      (hquiet.pc id).trans (hbegun.pc id)
    rw [hrun] at hact
    have hshift := hact.shift hm₀
    rw [machineAfter_ok] at hshift
    cases hshift with
    | kept hstack =>
      rw [hscopes] at hstack
      exact absurd hpush (by rw [hstack]; exact Nat.lt_irrefl _)
    | pushed _ hstack hsame =>
      rw [hscopes] at hstack hsame
      exact ⟨hstack, fun id hid => (hsame id hid).trans (hpc id)⟩
    | popped _ hstack =>
      rw [hscopes] at hstack
      exact absurd hpush (by rw [hstack]; exact Nat.not_lt.2 (Scopes.length_popKeeping_le _))

/-- A jump enters a module, and its frame ends with the stack that it was entered on. Every module
on that stack that was neither entered again nor taken back to its start meanwhile stands where it
stood when the jump was read, so its program goes on from there. The entered module stands at its
end, whether it was on the stack before or not. -/
theorem suspended_modules_keep_their_place {m₀ m m₁ m₂ : Machine} {line : String} {k : Nat}
    {n : LineNumber} {text : String} {tokens : List Token} {next : Nat} {visited : List Machine}
    (hm : Underway m₀ line k m) (hlexed : Lexed m n text tokens next) (htokens : tokens ≠ [])
    (hjump : step m = .ok false m₁)
    (hpush : m.scopes.codeStack.length < m₁.scopes.codeStack.length)
    (hframe : CodeFrame m.scopes.codeStack.length m₁ visited m₂) :
    m₂.scopes.codeStack = m.scopes.codeStack ∧
      (m₂.moduleAt m.scopes.variableModule).pc = .atEnd ∧
      ∀ x ∈ m.scopes.codeStack, Spared visited x →
        (m₂.moduleAt x).pc =
          if x = m.scopes.codeModule then ⟨some n, next⟩ else (m.moduleAt x).pc := by
  have hscoped := hm.wellScoped
  obtain ⟨hstack, hpc⟩ := enters_of_push hscoped hlexed htokens hjump hpush
  have hscoped₁ := (hm.stepped hjump).wellScoped
  have hstack' : m₁.scopes.codeStack = [] ++ m.scopes.variableModule :: m.scopes.codeStack := hstack
  obtain ⟨hend, hentered, hkept⟩ :=
    hframe.ends hscoped.paired.codeStack_ne_nil hscoped₁ hstack'
  refine ⟨hend, hentered, fun x hx hspared => ?_⟩
  have hne : x ≠ m.scopes.variableModule := by
    have hcode := (hspared m₁ (hframe.mem_visited hpush)).1
    rw [Scopes.codeModule, hstack] at hcode
    exact hcode.symm
  rw [hkept x hspared, hpc x hne, Machine.pc_setPc]
  have hlt := hscoped.known_code hx
  simp only [hlt, and_true]

/-- A call into another module comes back behind the call, also if the caller was named
meanwhile. -/
theorem suspended_modules_keep_their_place_in_call :
    let m₀ := enterAll 9 ["MODULE LIB", "10 MODULE \"\": END: RETURN", "END",
      "10 MODULE LIB: GOSUB 10: PRINT 1"] {}
    ∃ m m₁ s t m₂, Underway m₀ "RUN" 2 m ∧ step m = .ok false m₁ ∧ m.scopes.codeStack = [0] ∧
      m.scopes.variableModule = 1 ∧ s.scopes.variableModule = 0 ∧ CodeFrame 1 m₁ [m₁, s, t] m₂ ∧
      m₂.scopes.codeStack = [0] ∧ (m₂.moduleAt 1).pc = .atEnd ∧
      (m₂.moduleAt 0).pc = ⟨some 10, 21⟩ := by
  intro m₀
  have hstart : Underway m₀ "RUN" 0 _ :=
    .prepared (Waiting.enterAll 9 _) (by decide +kernel) (by decide +kernel) (by decide +kernel)
  obtain ⟨m, hm, hscopes, hline, m₁, hm₁, hscopes₁, s, hs, hscopesₛ, hlineₛ, t, ht, hscopesₜ, m₂,
      hm₂, hscopes₂⟩ :
      ∃ m, ongoing 2 (prepare (normalLine "RUN") { m₀ with exitCode := none }) = some m ∧
        m.scopes = ⟨[1, 0], [0]⟩ ∧
        Lexed m 10 "MODULE LIB: GOSUB 10: PRINT 1" [.word .GOSUB, .integer "10"] 21 ∧
        ∃ m₁, ongoing 1 m = some m₁ ∧ m₁.scopes = ⟨[1, 0], [1, 0]⟩ ∧
          ∃ s, ongoing 1 m₁ = some s ∧ s.scopes = ⟨[0, 1, 0], [1, 0]⟩ ∧
            Lexed s 10 "MODULE \"\": END: RETURN" [.word .END] 15 ∧
            ∃ t, ongoing 1 s = some t ∧ t.scopes = ⟨[1, 0], [1, 0]⟩ ∧
              ∃ m₂, ongoing 1 t = some m₂ ∧ m₂.scopes = ⟨[0], [0]⟩ := by
    decide +kernel
  obtain ⟨_, hjump, ⟨⟩⟩ := ongoing_succ.1 hm₁
  obtain ⟨_, hname, ⟨⟩⟩ := ongoing_succ.1 hs
  obtain ⟨_, hleave, ⟨⟩⟩ := ongoing_succ.1 ht
  obtain ⟨_, hreturn, ⟨⟩⟩ := ongoing_succ.1 hm₂
  have hframe : CodeFrame 1 m₁ [m₁, s, t] m₂ :=
    .onward (by rw [hscopes₁]; decide) (onward_of_step hname) <|
    .onward (by rw [hscopesₛ]; decide) (onward_of_step hleave) <|
    .onward (by rw [hscopesₜ]; decide) (onward_of_step hreturn) (.left (by rw [hscopes₂]; decide))
  have hspared : Spared [m₁, s, t] 0 := by
    have hs := not_renews_of_lexed hlineₛ (by decide) (by decide) (by decide)
    simp [Spared, hscopes₁, hscopesₛ, hscopesₜ, Scopes.codeModule, Scopes.variableModule, hs]
  have hcode : m.scopes.codeStack = [0] := by rw [hscopes]
  have hlength : m.scopes.codeStack.length = 1 := by rw [hcode]; rfl
  have hvariables : m.scopes.variableModule = 1 := by rw [hscopes]; rfl
  have hunder := hstart.ongoing hm
  obtain ⟨hend, hentered, hkept⟩ := suspended_modules_keep_their_place hunder hline (by simp) hjump
    (by rw [hscopes, hscopes₁]; decide) (hlength ▸ hframe)
  have hroot := hkept 0 (by simp [hcode]) hspared
  rw [if_pos (by rw [hscopes]; rfl)] at hroot
  exact ⟨m, m₁, s, t, m₂, hunder, hjump, hcode, hvariables, by rw [hscopesₛ]; rfl, hframe,
    hcode ▸ hend, hvariables ▸ hentered, hroot⟩

/-- A module that calls itself by its name has lost its place when the call comes back. -/
theorem module_entered_again_loses_its_place :
    let m := enterAll 9 ["10 MODULE \"\": GOSUB 100: PRINT \"BACK\"", "20 END", "100 RETURN",
      "RUN"] {}
    m.scopes = ⟨[0], [0]⟩ ∧ m.codeModule.pc = .atEnd ∧ m.host.printedSince 0 = "" := by
  decide +kernel

end LineBasic.Session
