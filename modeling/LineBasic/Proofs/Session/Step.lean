import LineBasic.Proofs.Act.Places
import LineBasic.Proofs.Act.Statement
import LineBasic.Session

/-!
# The steps of a run

A step ends the run, goes to another line, leaves the module at the end of its program, or runs one
statement. What every act keeps is kept by a step, and so by a run.
-/

set_option autoImplicit false

namespace LineBasic.Session

open Run

def clocked (next : Nat) (m : Machine) : Machine :=
  refreshClock.final <|
    m.updateCodeModule fun mod => { mod with pc := { mod.pc with offset := next } }

def begun (n : LineNumber) (tokens : List Token) (next : Nat) (m : Machine) : Machine :=
  let code := m.codeModule
  let traced :=
    if code.trace && decide (0 ≤ n) && code.pc.offset == 0
    then (clocked next m).print ("[" ++ toString n ++ "]") else clocked next m
  if !code.fast then (countTokens tokens.length).final traced else traced

/-- The statement that is next: the text of its line, its tokens, and where the next one starts. The
process is not over when it begins. -/
structure Lexed (m : Machine) (n : LineNumber) (text : String) (tokens : List Token)
    (next : Nat) : Prop where
  line : m.codeModule.pc.line = some n
  listed : m.codeModule.listing.get? n = some text
  lexed : lexStatement m.lexicon m.options text m.codeModule.pc.offset = .ok (tokens, next)
  alive : tokens ≠ [] → (begun n tokens next m).host.halted = false

theorem lexed_iff {m : Machine} {n : LineNumber} {text : String} {tokens : List Token}
    {next : Nat} :
    (m.codeModule.pc.line = some n ∧ m.codeModule.listing.get? n = some text ∧
      (lexStatement m.lexicon m.options text m.codeModule.pc.offset).toOption =
        some (tokens, next) ∧ (tokens ≠ [] → (begun n tokens next m).host.halted = false)) ↔
      Lexed m n text tokens next := by
  constructor
  · rintro ⟨hline, hlisted, hlexed, halive⟩
    exact ⟨hline, hlisted, eq_ok_of_toOption hlexed, halive⟩
  · intro h
    exact ⟨h.line, h.listed, by rw [h.lexed]; rfl, h.alive⟩

instance {m : Machine} {n : LineNumber} {text : String} {tokens : List Token} {next : Nat} :
    Decidable (Lexed m n text tokens next) := decidable_of_iff _ lexed_iff

theorem Lexed.tokens_eq {m : Machine} {n n' : LineNumber} {text text' : String}
    {tokens tokens' : List Token} {next next' : Nat} (h : Lexed m n text tokens next)
    (h' : Lexed m n' text' tokens' next') : tokens = tokens' := by
  obtain rfl : n = n' := Option.some.inj (h.line.symm.trans h'.line)
  obtain rfl : text = text' := Option.some.inj (h.listed.symm.trans h'.listed)
  exact congrArg Prod.fst (Except.ok.inj (h.lexed.symm.trans h'.lexed))

def afterStatement : EStateM.Result Fault Machine Unit → EStateM.Result Fault Machine Bool
  | .error f m => .error f m
  | .ok () m =>
    if m.host.halted || m.exitCode.isSome then .ok true m
    else if m.host.poll.1 then .error (.plain .interrupted) { m with host := m.host.poll.2 }
    else .ok false { m with host := m.host.poll.2 }

/-- A run goes on after a statement that neither failed nor ended the process or the session. -/
theorem ok_of_afterStatement {r : EStateM.Result Fault Machine Unit} {m' : Machine}
    (h : afterStatement r = .ok false m') :
    ∃ m, r = .ok () m ∧ m.host.halted = false ∧ m.exitCode = none ∧
      m' = { m with host := m.host.poll.2 } := by
  cases r with
  | error f m => cases h
  | ok _ m =>
    rw [afterStatement] at h
    split at h
    · cases h
    · rename_i hover
      rw [Bool.not_eq_true, Bool.or_eq_false_iff] at hover
      split at h
      · cases h
      · cases h
        exact ⟨m, rfl, hover.1, by simpa using hover.2, rfl⟩

/-- After a statement that ended nothing the run goes on, or the break key stops it. -/
theorem afterStatement_of_ok {m : Machine} (halive : m.host.halted = false)
    (h : m.exitCode = none) :
    ∃ host, afterStatement (.ok () m) = .ok false { m with host } ∨
      afterStatement (.ok () m) = .error (.plain .interrupted) { m with host } := by
  refine ⟨m.host.poll.2, ?_⟩
  rw [afterStatement, if_neg (by simp [halive, h])]
  split
  · exact .inr rfl
  · exact .inl rfl

theorem final_of_afterStatement {x : Run Bool} {m m' : Machine}
    (h : x m = afterStatement (.ok () m')) : ∃ host, x.final m = { m' with host } := by
  rw [final, h, afterStatement]
  by_cases hover : (m'.host.halted || m'.exitCode.isSome) = true
  · rw [if_pos hover]
    exact ⟨m'.host, rfl⟩
  · rw [if_neg hover]
    by_cases hpressed : m'.host.poll.1 = true
    · rw [if_pos hpressed]
      exact ⟨m'.host.poll.2, rfl⟩
    · rw [if_neg hpressed]
      exact ⟨m'.host.poll.2, rfl⟩

theorem run_then_poll (tokens : List Token) (m : Machine) :
    (do
      if (← get).host.halted then return true
      Statement.run tokens
      let m ← get
      if m.host.halted || m.exitCode.isSome then return true
      Run.checkBreak
      return false : Run Bool) m =
      if m.host.halted then .ok true m else afterStatement (Statement.run tokens m) := by
  rw [get_bind]
  split
  · rfl
  rw [bind_apply]
  cases Statement.run tokens m with
  | error f m₁ => rfl
  | ok _ m₁ =>
    dsimp only [afterStatement]
    rw [get_bind]
    split
    · rfl
    · rw [bind_apply, checkBreak_apply]
      cases m₁.host.poll.1 <;> rfl

theorem runStatement_apply (n : LineNumber) (tokens : List Token) (next : Nat) (m : Machine) :
    runStatement m.codeModule n tokens next m =
      if (begun n tokens next m).host.halted then .ok true (begun n tokens next m)
      else afterStatement (Statement.run tokens (begun n tokens next m)) := by
  have hclock (f : Unit → Run Bool) (m : Machine) :
      (refreshClock >>= f) m = f () (refreshClock.final m) := rfl
  have hprint (text : String) (f : Unit → Run Bool) (m : Machine) :
      (Run.print text >>= f) m = f () (m.print text) := rfl
  have hcount (k : Nat) (f : Unit → Run Bool) (m : Machine) :
      (countTokens k >>= f) m = f () ((countTokens k).final m) := rfl
  rw [runStatement, updateCodeModule_bind, hclock, begun]
  dsimp only
  split
  · rw [hprint]
    split
    · rw [hcount, run_then_poll]
      rfl
    · rw [run_then_poll]
      rfl
  · split
    · rw [hcount, run_then_poll]
      rfl
    · rw [run_then_poll]
      rfl

theorem calm_refreshClock : Calm refreshClock := by
  refine obeys_get.bind fun m => calm_updateVariableModule fun mod => ?_
  refine .vars (fun h => ?_) (.of_eq rfl)
  have htext : Kind.text = Kind.ofName "TI$" := by decide
  exact (h.storeRaw (.inr ⟨rfl, Kind.noConfusion⟩)).storeRaw (.inl htext)

theorem calm_countTokens (n : Nat) : Calm (countTokens n) := by
  refine calm_world fun m => ?_
  dsimp only
  split <;> exact ⟨rfl, rfl, rfl, rfl, rfl⟩

theorem calm_begun {m : Machine} {n : LineNumber} (hline : m.codeModule.pc.line = some n)
    (tokens : List Token) (next : Nat) : (m.setPc ⟨some n, next⟩).Calm (begun n tokens next m) := by
  have hset : m.setPc ⟨some n, next⟩ =
      m.updateCodeModule fun mod => { mod with pc := { mod.pc with offset := next } } := by
    refine Machine.updateModule_congr ?_
    change { m.codeModule with pc := ⟨some n, next⟩ } =
      { m.codeModule with pc := ⟨m.codeModule.pc.line, next⟩ }
    rw [hline]
  have hclock : (m.setPc ⟨some n, next⟩).Calm (clocked next m) := by
    rw [hset]
    exact (calm_refreshClock _).calm
  rw [begun]
  have htrace : (clocked next m).Calm ((clocked next m).print ("[" ++ toString n ++ "]")) :=
    .print _ _
  split
  · refine .trans ?_ (calm_countTokens _ _).calm
    split
    · exact hclock.trans htrace
    · exact hclock
  · split
    · exact hclock.trans htrace
    · exact hclock

inductive StepResult (m : Machine) : EStateM.Result Fault Machine Bool → Prop
  | stopped (h : m.codeModule.pc.line = none) : StepResult m (.ok true m)
  | finished : StepResult m (.ok true (m.setPc .atEnd))
  | unread (n : LineNumber) (text : String) (f : Fault) (hline : m.codeModule.pc.line = some n)
      (htext : m.codeModule.listing.get? n = some text)
      (hlex : lexStatement m.lexicon m.options text m.codeModule.pc.offset = .error f) :
      StepResult m (.error f m)
  | moved (n n' : LineNumber) (h : m.codeModule.pc.line = some n) (hn : n < n')
      (hend : n' ≠ typedEnd) : StepResult m (.ok false (m.setPc (.atLine n')))
  | left : StepResult m (.ok false (m.setPc .atEnd).endModule)
  | statement (n : LineNumber) (text : String) (tokens : List Token) (next : Nat)
      (h : Lexed m n text tokens next) (htokens : tokens ≠ []) :
      StepResult m (afterStatement (Statement.run tokens (begun n tokens next m)))
  /-- The clock cannot count the pause before a statement. -/
  | overslept (n : LineNumber) (text : String) (tokens : List Token) (next : Nat)
      (hline : m.codeModule.pc.line = some n) (htext : m.codeModule.listing.get? n = some text)
      (hlex : lexStatement m.lexicon m.options text m.codeModule.pc.offset = .ok (tokens, next))
      (htokens : tokens ≠ []) (h : (begun n tokens next m).host.halted = true) :
      StepResult m (.ok true (begun n tokens next m))

theorem leaveLine_apply (n : LineNumber) (m : Machine) :
    leaveLine n m =
      match if m.codeModule.listing.nextAfter? n = some typedEnd then none
        else m.codeModule.listing.nextAfter? n with
      | some next => .ok false (m.setPc (.atLine next))
      | none =>
        if n < 0 then .ok true (m.setPc .atEnd) else .ok false (m.setPc .atEnd).endModule := by
  rw [leaveLine, get_bind]
  cases if m.codeModule.listing.nextAfter? n = some typedEnd then none
    else m.codeModule.listing.nextAfter? n with
  | some next => rfl
  | none => by_cases hn : n < 0 <;> simp only [hn] <;> rfl

theorem step_of_stopped {m : Machine} (h : m.codeModule.pc.line = none) : step m = .ok true m := by
  rw [step, get_bind]
  simp only [h, pure_apply]

theorem step_of_end {m : Machine} {n : LineNumber} {text : String} {next : Nat}
    (h : Lexed m n text [] next) : step m = leaveLine n m := by
  rw [step, get_bind]
  simp only [h.line, h.listed, h.lexed, liftM_ok, pure_bind_run, List.isEmpty_nil, if_true]

/-- A step with a statement runs it, unless the process is over before it begins. -/
theorem step_of_tokens {m : Machine} {n : LineNumber} {text : String} {tokens : List Token}
    {next : Nat} (hline : m.codeModule.pc.line = some n)
    (htext : m.codeModule.listing.get? n = some text)
    (hlex : lexStatement m.lexicon m.options text m.codeModule.pc.offset = .ok (tokens, next))
    (htokens : tokens ≠ []) :
    step m = if (begun n tokens next m).host.halted then .ok true (begun n tokens next m)
      else afterStatement (Statement.run tokens (begun n tokens next m)) := by
  have hempty : tokens.isEmpty = false := by simpa using htokens
  rw [step, get_bind]
  simp only [hline, htext, hlex, liftM_ok, pure_bind_run, hempty]
  exact runStatement_apply n tokens next m

theorem step_of_statement {m : Machine} {n : LineNumber} {text : String} {tokens : List Token}
    {next : Nat} (h : Lexed m n text tokens next) (htokens : tokens ≠ []) :
    step m = afterStatement (Statement.run tokens (begun n tokens next m)) := by
  rw [step_of_tokens h.line h.listed h.lexed htokens, if_neg (by simp [h.alive htokens])]

theorem step_of_unread {m : Machine} {n : LineNumber} {text : String} {f : Fault}
    (hline : m.codeModule.pc.line = some n) (htext : m.codeModule.listing.get? n = some text)
    (hlex : lexStatement m.lexicon m.options text m.codeModule.pc.offset = .error f) :
    step m = .error f m := by
  rw [step, get_bind]
  simp only [hline, htext, hlex, liftM_error, throw_bind, throw_apply]

theorem stepResult (m : Machine) : StepResult m (step m) := by
  cases hline : m.codeModule.pc.line with
  | none =>
    rw [step_of_stopped hline]
    exact .stopped hline
  | some n =>
    cases htext : m.codeModule.listing.get? n with
    | none =>
      have hstep : step m = .ok true (m.setPc .atEnd) := by
        rw [step, get_bind]
        simp only [hline, htext]
        rfl
      rw [hstep]
      exact .finished
    | some text =>
      cases hlex : lexStatement m.lexicon m.options text m.codeModule.pc.offset with
      | error f =>
        rw [step_of_unread hline htext hlex]
        exact .unread n text f hline htext hlex
      | ok result =>
        obtain ⟨tokens, next⟩ := result
        by_cases htokens : tokens = []
        · subst htokens
          have hlexed : Lexed m n text [] next := ⟨hline, htext, hlex, fun hne => absurd rfl hne⟩
          rw [step_of_end hlexed, leaveLine_apply]
          split
          · rename_i n' hnext
            split at hnext
            · cases hnext
            · rename_i hend
              refine .moved n n' hline (Listing.lt_of_nextAfter? hnext) ?_
              rintro rfl
              exact hend hnext
          · split
            · exact .finished
            · exact .left
        · rw [step_of_tokens hline htext hlex htokens]
          split
          · rename_i halted
            exact .overslept n text tokens next hline htext hlex htokens halted
          · rename_i halive
            have hlexed : Lexed m n text tokens next :=
              ⟨hline, htext, hlex, fun _ => by simpa using halive⟩
            exact .statement n text tokens next hlexed htokens

def Reads (m : Machine) : Prop :=
  ∃ n text tokens next, Lexed m n text tokens next ∧
    Statement.Reads tokens (begun n tokens next m)

def Renews (m : Machine) : Prop :=
  ∃ n text tokens next, Lexed m n text tokens next ∧
    Statement.Renews tokens (begun n tokens next m)

def Forgets (m : Machine) : Prop :=
  ∃ n text tokens next, Lexed m n text tokens next ∧
    Statement.Forgets tokens (begun n tokens next m)

def Edits (e : Edit) (m : Machine) : Prop :=
  ∃ n text tokens next, Lexed m n text tokens next ∧
    Statement.Edits e tokens (begun n tokens next m)

theorem not_renews_of_lexed {m : Machine} {n : LineNumber} {text : String} {w : Word}
    {rest : List Token} {next : Nat} (h : Lexed m n text (.word w :: rest) next) (hif : w ≠ .IF)
    (hnew : w ≠ .NEW) (hrun : w ≠ .RUN) : ¬ Renews m := by
  rintro ⟨n', text', tokens, next', hlexed, tokens', m', hcomes, hrenews⟩
  cases h.tokens_eq hlexed
  cases hcomes with
  | here =>
    rcases hrenews with ⟨_, hw⟩ | ⟨_, hw⟩ | ⟨_, _, hw, -⟩
    · cases hw
      exact hnew rfl
    · cases hw
      exact hrun rfl
    · cases hw
  | behindThen => exact hif rfl

theorem not_forgets_of_lexed {m : Machine} {n : LineNumber} {text : String} {w : Word}
    {rest : List Token} {next : Nat} (h : Lexed m n text (.word w :: rest) next) (hif : w ≠ .IF)
    (hclr : w ≠ .CLR) : ¬ Forgets m := by
  rintro ⟨n', text', tokens, next', hlexed, rest', m', hcomes⟩
  cases h.tokens_eq hlexed
  cases hcomes with
  | here => exact hclr rfl
  | behindThen => exact hif rfl

theorem not_reads_of_lexed {m : Machine} {n : LineNumber} {text : String} {w : Word}
    {rest : List Token} {next : Nat} (h : Lexed m n text (.word w :: rest) next) (hif : w ≠ .IF)
    (hread : w ≠ .READ) (hrestore : w ≠ .RESTORE) : ¬ Reads m := by
  rintro ⟨n', text', tokens, next', hlexed, w', rest', m', hcomes, hw⟩
  cases h.tokens_eq hlexed
  cases hcomes with
  | here => exact hw.elim hread hrestore
  | behindThen => exact hif rfl

def nextTokens? (m : Machine) : Option (List Token) := do
  let n ← m.codeModule.pc.line
  let text ← m.codeModule.listing.get? n
  let found ← (lexStatement m.lexicon m.options text m.codeModule.pc.offset).toOption
  return found.1

theorem nextTokens?_eq_some {m : Machine} {tokens : List Token} :
    nextTokens? m = some tokens ↔ ∃ n text next, m.codeModule.pc.line = some n ∧
      m.codeModule.listing.get? n = some text ∧
      lexStatement m.lexicon m.options text m.codeModule.pc.offset = .ok (tokens, next) := by
  constructor
  · intro h
    rw [nextTokens?] at h
    obtain ⟨n, hline, h⟩ := Option.bind_eq_some_iff.1 h
    obtain ⟨text, htext, h⟩ := Option.bind_eq_some_iff.1 h
    obtain ⟨⟨_, next⟩, hlex, h⟩ := Option.bind_eq_some_iff.1 h
    cases h
    exact ⟨n, text, next, hline, htext, eq_ok_of_toOption hlex⟩
  · rintro ⟨n, text, next, hline, htext, hlex⟩
    simp [nextTokens?, hline, htext, hlex, Except.toOption]

theorem Lexed.nextTokens? {m : Machine} {n : LineNumber} {text : String} {tokens : List Token}
    {next : Nat} (h : Lexed m n text tokens next) : nextTokens? m = some tokens :=
  nextTokens?_eq_some.2 ⟨n, text, next, h.line, h.listed, h.lexed⟩

def keepsLines : List Token → Bool
  | [] => true
  | .word w :: _ => w ≠ .IF && w ≠ .DELETE && w ≠ .NEW
  | _ => false

theorem not_edits_of_keepsLines {m : Machine} (h : (nextTokens? m).all keepsLines = true)
    (e : Edit) : ¬ Edits e m := by
  rintro ⟨n, text, tokens, next, hlexed, last, m', hcomes, hedits⟩
  rw [hlexed.nextTokens?, Option.all_some] at h
  cases hcomes with
  | here => cases hedits <;> simp [keepsLines] at h
  | behindThen => simp [keepsLines] at h

inductive Advance (m : Machine) : ProgramCounter → Prop
  | ended : Advance m .atEnd
  | within (n : LineNumber) (text : String) (tokens : List Token) (next : Nat)
      (hline : m.codeModule.pc.line = some n) (htext : m.codeModule.listing.get? n = some text)
      (hlex : lexStatement m.lexicon m.options text m.codeModule.pc.offset = .ok (tokens, next))
      (htokens : tokens ≠ []) : Advance m ⟨some n, next⟩
  | onto (n n' : LineNumber) (h : m.codeModule.pc.line = some n) (hn : n < n')
      (hend : n' ≠ typedEnd) : Advance m (.atLine n')

/-- What every act establishes and the break key keeps is so after a step, if what it needs is so
where the step goes on and is kept by all that is quiet. -/
theorem step_rule_advance {I J : Machine → Prop} {m : Machine}
    (hquiet : ∀ m₁ m₂, m₁.QuietBut (Reads m) m₂ → I m₁ → I m₂)
    (hpc : ∀ pc, Advance m pc → I (m.setPc pc))
    (hact : ∀ m₁ r, Act (Renews m) (Forgets m) (Edits · m) m₁ r → I m₁ → J (machineAfter r))
    (hhost : ∀ m host, J m → J { m with host }) (h : I m) : J (step.final m) := by
  change J (machineAfter (step m))
  have hstep := stepResult m
  generalize step m = r at hstep ⊢
  cases hstep with
  | stopped => exact hact m _ .none h
  | finished => exact hact _ _ .none (hpc _ .ended)
  | unread => exact hact m (.ok () m) .none h
  | moved n n' hline hn hend => exact hact _ _ .none (hpc _ (.onto n n' hline hn hend))
  | left => exact hact _ _ .left (hpc _ .ended)
  | overslept n text tokens next hline htext hlex htokens =>
    have hbegun := hquiet _ _ ((calm_begun hline tokens next).mono False.elim).quietBut
      (hpc _ (.within n text tokens next hline htext hlex htokens))
    exact hact _ _ .none hbegun
  | statement n text tokens next hlexed htokens =>
    have hbegun := hquiet _ _ ((calm_begun hlexed.line tokens next).mono False.elim).quietBut
      (hpc _ (.within n text tokens next hlexed.line hlexed.listed hlexed.lexed htokens))
    obtain ⟨m₁, hquiet₁, hend⟩ := Statement.acts_run tokens (begun n tokens next m)
    have hm₁ : (begun n tokens next m).QuietBut (Reads m) m₁ :=
      hquiet₁.mono fun hreads => ⟨n, text, tokens, next, hlexed, hreads⟩
    have hrun : J (machineAfter (Statement.run tokens (begun n tokens next m))) := by
      rcases hend with ⟨f, hf, -⟩ | hend
      · rw [hf]
        exact hact m₁ (.ok () m₁) .none (hquiet _ _ hm₁ hbegun)
      · refine hact m₁ _ (hend.mono ?_ ?_ ?_) (hquiet _ _ hm₁ hbegun)
        · exact fun hrenews => ⟨n, text, tokens, next, hlexed, hrenews⟩
        · exact fun hforgets => ⟨n, text, tokens, next, hlexed, hforgets⟩
        · exact fun e hedits => ⟨n, text, tokens, next, hlexed, hedits⟩
    cases hr : Statement.run tokens (begun n tokens next m) with
    | error f m₂ => rwa [hr] at hrun
    | ok _ m₂ =>
      rw [hr] at hrun
      rw [afterStatement]
      split
      · exact hrun
      · split <;> exact hhost m₂ _ hrun

/-- As `step_rule_advance`, for what is kept wherever the running module goes on. -/
theorem step_rule {I J : Machine → Prop} {m : Machine}
    (hquiet : ∀ m₁ m₂, m₁.QuietBut (Reads m) m₂ → I m₁ → I m₂)
    (hpc : ∀ m pc, I m → I (m.setPc pc))
    (hact : ∀ m₁ r, Act (Renews m) (Forgets m) (Edits · m) m₁ r → I m₁ → J (machineAfter r))
    (hhost : ∀ m host, J m → J { m with host }) (h : I m) : J (step.final m) :=
  step_rule_advance hquiet (fun pc _ => hpc m pc h) hact hhost h

end LineBasic.Session

/-- A step obeys a rule for the places of a module, if it goes on at a place that does. -/
theorem LineBasic.Machine.PlacesAt.step {P : Listing → ProgramCounter → Prop} {edits : Edit → Prop}
    {m : Machine} {id : ModuleId} (h : m.PlacesAt P id) (hm : m.WellScoped)
    (rule : PlaceRule edits P)
    (hedits : id = m.scopes.variableModule → ∀ e, Session.Edits e m → edits e)
    (hpc : id = m.scopes.codeModule → ∀ pc, Session.Advance m pc → P (m.moduleAt id).listing pc) :
    (Session.step.final m).PlacesAt P id := by
  refine Session.step_rule_advance
    (I := fun m₁ => m₁.WellScoped ∧ m₁.scopes = m.scopes ∧ m₁.PlacesAt P id)
    (J := fun m₁ => m₁.PlacesAt P id) ?_ ?_ ?_ ?_ ⟨hm, rfl, h⟩
  · rintro m₁ m₂ hquiet ⟨hm₁, hscopes, h₁⟩
    exact ⟨hm₁.quiet hquiet, hquiet.scopes.trans hscopes, h₁.quiet hquiet⟩
  · intro pc hadvance
    exact ⟨hm.setPc pc, rfl, h.setPc fun hid => hpc hid pc hadvance⟩
  · rintro m₁ r hact ⟨hm₁, hscopes, h₁⟩
    refine h₁.act hm₁ rule hact fun hid => hedits ?_
    rw [hid, hscopes]
  · intro m₁ host h₁
    exact h₁
