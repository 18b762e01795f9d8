import LineBasic.Proofs.Session.Move

/-!
# Time

The clock of a session moves only where somebody waits: `SLEEP` waits as long as it is told to, and
a slow module pauses. The clock shows the sum of all waits. It counts milliseconds in a word of 64
bits, and a wait that has no room there ends the process, so the clock never runs backwards, and
neither does the time that a program is shown.
-/

set_option autoImplicit false

namespace LineBasic

open Run

namespace BuiltinCommand

def sleepTime (items : List Item) : Except Fault UInt64 := do
  let seconds ← (← oneArgument items).toReal
  if seconds.isNaN || seconds < 0 then .error (.plain .illegalQuantity)
  return (seconds * 1000).toUInt64

theorem sleep_apply (items : List Item) (m : Machine) :
    sleep items m = match sleepTime items with
      | .ok ms => .ok () { m with host := m.host.sleep ms }
      | .error f => .error f m := by
  rw [sleep, sleepTime]
  cases oneArgument items with
  | error f => rfl
  | ok v =>
    rw [liftM_ok, pure_bind_run, ok_bind]
    cases v.toReal with
    | error f => rfl
    | ok seconds =>
      rw [liftM_ok, pure_bind_run, ok_bind]
      split <;> rfl

end BuiltinCommand

namespace Statement

def Sleeps (tokens : List Token) (m : Machine) (ms : UInt64) : Prop :=
  ∃ name rest m₁ items m₂, ComesTo tokens m (.command name :: rest) m₁ ∧
    m₁.registry.commands.get? name = some (.builtin .SLEEP) ∧
    evaluateAll rest m₁ = .ok items m₂ ∧ BuiltinCommand.sleepTime items = .ok ms

inductive Waits (tokens : List Token) (m : Machine) : UInt64 → Prop
  | asleep {ms : UInt64} (h : Sleeps tokens m ms) : Waits tokens m ms
  | awake (h : ∀ ms, ¬ Sleeps tokens m ms) : Waits tokens m 0

theorem exists_waits (tokens : List Token) (m : Machine) : ∃ ms, Waits tokens m ms := by
  by_cases h : ∃ ms, Sleeps tokens m ms
  · obtain ⟨ms, h⟩ := h
    exact ⟨ms, .asleep h⟩
  · exact ⟨0, .awake fun ms hms => h ⟨ms, hms⟩⟩

/-- A statement moves the clock by as much as it waits. -/
theorem clock_run {tokens : List Token} {m : Machine} {ms : UInt64} (hscreen : m.printFile = none)
    (h : Waits tokens m ms) :
    ((run tokens).final m).host.clock = (m.host.sleep ms).clock ∧
      ((run tokens).final m).host.halted = (m.host.sleep ms).halted := by
  cases h with
  | asleep h =>
    obtain ⟨name, rest, m₁, items, m₂, hcomes, hname, hitems, hms⟩ := h
    have hhost : m₂.host = m.host :=
      ((obeys_evaluateAll rest).ok hitems).sameWorld.host.trans hcomes.evaluated.sameWorld.host
    have hrun : run tokens m = .ok () { m₂ with host := m₂.host.sleep ms } := by
      rw [hcomes.run_eq, run, runCommand_apply hname, bind_apply, hitems]
      change BuiltinCommand.sleep items m₂ = _
      rw [BuiltinCommand.sleep_apply, hms]
    rw [final, hrun, ← hhost]
    exact ⟨rfl, rfl⟩
  | awake h =>
    rw [Host.sleep_zero]
    by_cases hsleep : Permitted tokens m .wait
    · -- A `SLEEP` without a time to sleep fails, and evaluation takes no time.
      obtain ⟨_, m₁, hcomes, @⟨name, rest, _, hname⟩⟩ := hsleep
      have hhost := hcomes.evaluated.sameWorld.host
      have hevaluated := (obeys_evaluateAll rest m₁).leads.sameWorld.host
      rw [final, hcomes.run_eq, run, runCommand_apply hname, bind_apply]
      rw [final] at hevaluated
      cases hitems : evaluateAll rest m₁ with
      | error f m₂ =>
        rw [hitems] at hevaluated
        rw [← hhost, ← hevaluated]
        exact ⟨rfl, rfl⟩
      | ok items m₂ =>
        rw [hitems] at hevaluated
        change (machineAfter (BuiltinCommand.sleep items m₂)).host.clock = _ ∧
          (machineAfter (BuiltinCommand.sleep items m₂)).host.halted = _
        rw [BuiltinCommand.sleep_apply]
        cases hms : BuiltinCommand.sleepTime items with
        | ok ms => exact absurd ⟨name, rest, m₁, items, m₂, hcomes, hname, hitems, hms⟩ (h ms)
        | error f =>
          rw [machineAfter_error, ← hhost, ← hevaluated]
          exact ⟨rfl, rfl⟩
    · exact ((does_run tokens m).2 hscreen).clock hsleep

end Statement

namespace Session

theorem time_refreshClock {m : Machine} (h : m.scopes.variableModule < m.modules.length) :
    (refreshClock.final m).variableModule.vars.fetch "TI" = .integer (jiffies m.host.clock) := by
  have hmodule := Machine.moduleAt_updateModule_self h fun mod =>
    let vars := mod.vars.storeRaw "TI" (.integer (jiffies m.host.clock))
    { mod with vars := vars.storeRaw "TI$" (.text m.host.timeOfDay) }
  change ((refreshClock.final m).moduleAt m.scopes.variableModule).vars.fetch "TI" = _
  rw [show (refreshClock.final m).moduleAt m.scopes.variableModule = _ from hmodule]
  simp

/-- A statement finds in `TI` the time of the clock when it began. -/
theorem time_begun {m : Machine} (hscreen : m.printFile = none) (hm : m.WellScoped)
    (n : LineNumber) (tokens : List Token) (next : Nat) :
    (begun n tokens next m).variableModule.vars.fetch "TI" = .integer (jiffies m.host.clock) := by
  obtain ⟨host, column, tokenCount, hbegun, -⟩ := begun_eq hscreen n tokens next
  rw [hbegun]
  refine time_refreshClock (m := m.updateCodeModule _) ?_
  rw [Machine.updateCodeModule, Machine.length_updateModule]
  exact hm.variableModule_lt

inductive State.Waits : State → Nat → Prop
  | waiting (m : Machine) : Waits (.waiting m) 0
  | idle {m : Machine} (h : ∀ tokens, nextTokens? m = some tokens → tokens = []) :
      Waits (.running m) 0
  | overslept {m : Machine} {tokens : List Token} (h : nextTokens? m = some tokens)
      (htokens : tokens ≠ []) (hroom : m.host.hasRoom (pause tokens m) = false) :
      Waits (.running m) (pause tokens m).toNat
  | statement {m : Machine} {n : LineNumber} {text : String} {tokens : List Token} {next : Nat}
      {ms : UInt64} (hlexed : Lexed m n text tokens next) (htokens : tokens ≠ [])
      (h : Statement.Waits tokens (begun n tokens next m) ms) :
      Waits (.running m) ((pause tokens m).toNat + ms.toNat)

inductive Elapses : Nat → State → State → Prop
  | refl (s : State) : Elapses 0 s s
  | moved {s s' s'' : State} {t t' : Nat} (h : Elapses t s s') (hmove : Move s' s'')
      (hwaits : s'.Waits t') : Elapses (t + t') s s''

theorem Reached.alive {m : Machine} (h : Reached (.running m)) : m.host.halted = false := by
  cases h.regular with
  | running hm => exact hm.alive

/-- Nothing moves any more when the process is over. -/
theorem Move.alive {s s' : State} (h : Move s s') (hs : Reached s) :
    s.machine.host.halted = false := by
  cases h with
  | supplied m host registry _ _ halive => exact halive
  | printed m text halive => exact halive
  | entered m line halive => exact halive
  | stepped m => exact hs.alive

/-- The process is over when a statement begins, if the clock cannot count the pause before it. -/
theorem halted_begun {m : Machine} (hscreen : m.printFile = none) (halive : m.host.halted = false)
    (n : LineNumber) (tokens : List Token) (next : Nat) :
    (begun n tokens next m).host.halted = !m.host.hasRoom (pause tokens m) := by
  obtain ⟨host, column, tokenCount, hbegun, -, hhalted, -⟩ := begun_eq hscreen n tokens next
  rw [hbegun]
  change host.halted = _
  rw [hhalted, Host.sleep, halive]
  rfl

theorem State.exists_waits {s : State} (hs : Reached s) : ∃ t, s.Waits t := by
  cases s with
  | waiting m => exact ⟨0, .waiting m⟩
  | running m =>
    by_cases h : ∀ tokens, nextTokens? m = some tokens → tokens = []
    · exact ⟨0, .idle h⟩
    · simp only [Classical.not_forall] at h
      obtain ⟨tokens, hnext, htokens⟩ := h
      cases hroom : m.host.hasRoom (pause tokens m) with
      | false => exact ⟨_, .overslept hnext htokens hroom⟩
      | true =>
        obtain ⟨n, text, next, hline, hlisted, hlex⟩ := nextTokens?_eq_some.1 hnext
        have hlexed : Lexed m n text tokens next := by
          refine ⟨hline, hlisted, hlex, fun _ => ?_⟩
          rw [halted_begun (m := m) hs.printFile hs.alive, hroom]
          rfl
        obtain ⟨ms, hms⟩ := Statement.exists_waits tokens (begun n tokens next m)
        exact ⟨_, .statement hlexed htokens hms⟩

theorem exists_elapses {s s' : State} (hs : Reached s) (h : MovesTo s s') :
    ∃ t, Elapses t s s' := by
  induction h with
  | refl => exact ⟨0, .refl s⟩
  | tail hbefore hmove ih =>
    obtain ⟨t, ht⟩ := ih
    obtain ⟨t', ht'⟩ := State.exists_waits (hs.moves hbefore)
    exact ⟨t + t', ht.moved hmove ht'⟩

/-- What a wait does to a clock. While the process goes on the clock has counted the whole wait. It
is over because there was no room for the wait, and until then the clock went forward. -/
structure Counts (before after : Host) (t : Nat) : Prop where
  counted : after.halted = false → after.clock.toNat = before.clock.toNat + t
  refused : after.halted = true → UInt64.size ≤ before.clock.toNat + t
  forward : before.clock.toNat ≤ after.clock.toNat

theorem Counts.still {before after : Host} (halive : before.halted = false)
    (h : after.clock = before.clock ∧ after.halted = before.halted) : Counts before after 0 where
  counted _ := by rw [h.1, Nat.add_zero]
  refused halted := by
    rw [h.2, halive] at halted
    cases halted
  forward := Nat.le_of_eq (by rw [h.1])

theorem counts_sleep {h : Host} (halive : h.halted = false) (ms : UInt64) :
    Counts h (h.sleep ms) ms.toNat := by
  cases hroom : h.hasRoom ms with
  | true =>
    have hlt : h.clock.toNat + ms.toNat < UInt64.size := of_decide_eq_true hroom
    have hclock : (h.sleep ms).clock.toNat = h.clock.toNat + ms.toNat := by
      rw [Host.sleep, if_pos hroom, UInt64.toNat_add, Nat.mod_eq_of_lt hlt]
    refine ⟨fun _ => hclock, fun halted => ?_, by omega⟩
    simp [Host.sleep, halive, hroom] at halted
  | false =>
    have hle : UInt64.size ≤ h.clock.toNat + ms.toNat :=
      Nat.le_of_not_lt (of_decide_eq_false hroom)
    refine ⟨fun hgoes => ?_, fun _ => hle, ?_⟩
    · simp [Host.sleep, hroom] at hgoes
    · simp [Host.sleep, hroom]

theorem Counts.of_eq {before after after' : Host} {t : Nat} (h : Counts before after t)
    (hafter : after'.clock = after.clock ∧ after'.halted = after.halted) :
    Counts before after' t where
  counted := by rw [hafter.1, hafter.2]; exact h.counted
  refused := by rw [hafter.2]; exact h.refused
  forward := by rw [hafter.1]; exact h.forward

theorem Counts.trans {h₀ h₁ h₂ : Host} {t t' : Nat} (h : Counts h₀ h₁ t) (h' : Counts h₁ h₂ t')
    (halive : h₁.halted = false) : Counts h₀ h₂ (t + t') where
  counted hgoes := by rw [h'.counted hgoes, h.counted halive, Nat.add_assoc]
  refused halted := by
    have hle := h'.refused halted
    rwa [h.counted halive, Nat.add_assoc] at hle
  forward := Nat.le_trans h.forward h'.forward

theorem counts_step {m : Machine} {t : Nat} (hscreen : m.printFile = none)
    (halive : m.host.halted = false) (h : (State.running m).Waits t) :
    Counts m.host (State.after (step m)).machine.host t := by
  have hafter : (State.after (step m)).machine.host.clock = (step.final m).host.clock ∧
      (State.after (step m)).machine.host.halted = (step.final m).host.halted := by
    rcases machine_after m with ⟨f, hm⟩ | ⟨exitCode, hm⟩
    · rw [hm]
      exact ⟨rfl, rfl⟩
    · rw [hm]
      exact ⟨rfl, rfl⟩
  cases h with
  | idle hidle =>
    refine (Counts.still halive ?_).of_eq hafter
    change (machineAfter (step m)).host.clock = _ ∧ (machineAfter (step m)).host.halted = _
    have hstep := stepResult m
    generalize step m = r at hstep ⊢
    cases hstep with
    | left =>
      rw [machineAfter_ok, (m.setPc .atEnd).sameWorld_endModule.host]
      exact ⟨rfl, rfl⟩
    | statement n text tokens next hlexed htokens =>
      exact absurd (hidle _ hlexed.nextTokens?) htokens
    | overslept n text tokens next hline htext hlex htokens =>
      exact absurd (hidle _ (nextTokens?_eq_some.2 ⟨n, text, next, hline, htext, hlex⟩)) htokens
    | _ => exact ⟨rfl, rfl⟩
  | @overslept _ tokens hnext htokens hroom =>
    obtain ⟨n, text, next, hline, hlisted, hlex⟩ := nextTokens?_eq_some.1 hnext
    have hover : (begun n tokens next m).host.halted = true := by
      rw [halted_begun hscreen halive, hroom]
      rfl
    obtain ⟨host, column, tokenCount, hbegun, hclock, hhalted, -⟩ :=
      begun_eq hscreen n tokens next
    refine ((counts_sleep halive (pause tokens m)).of_eq ?_).of_eq hafter
    rw [final, step_of_tokens hline hlisted hlex htokens, if_pos hover, hbegun]
    exact ⟨hclock, hhalted⟩
  | @statement _ n text tokens next ms hlexed htokens hms =>
    obtain ⟨host, column, tokenCount, hbegun, hclock, hhalted, -⟩ :=
      begun_eq hscreen n tokens next
    have hpaused : Counts m.host (begun n tokens next m).host (pause tokens m).toNat := by
      refine (counts_sleep halive (pause tokens m)).of_eq ?_
      rw [hbegun]
      exact ⟨hclock, hhalted⟩
    have hrun := Statement.clock_run (by rw [hbegun]; exact hscreen) hms
    have hslept := (counts_sleep (hlexed.alive htokens) ms).of_eq hrun
    exact (hpaused.trans hslept (hlexed.alive htokens)).of_eq
      (world_after_statement hlexed htokens).2.2

theorem counts_move {s s' : State} {t : Nat} (hs : Reached s) (hmove : Move s s') (h : s.Waits t) :
    Counts s.machine.host s'.machine.host t := by
  have still (m m' : Machine) (halive : m.host.halted = false)
      (hclock : m'.host.clock = m.host.clock ∧ m'.host.halted = m.host.halted)
      (h : (State.waiting m).Waits t) : Counts m.host m'.host t := by
    cases h
    exact .still halive hclock
  cases hmove with
  | supplied m host registry _ hclock halive hhalted =>
    exact still m { m with host, registry } halive ⟨hclock, hhalted.trans halive.symm⟩ h
  | printed m text halive =>
    have hdeeds := (m.leads_print (p := fun _ => False) text).2 hs.printFile
    exact still m (m.print text) halive (hdeeds.clock id) h
  | entered m line halive =>
    have hdeeds := deeds_entered (m := m) hs.printFile line
    exact still m (State.entered line m).machine halive (hdeeds.clock id) h
  | stepped m => exact counts_step hs.printFile hs.alive h

theorem Elapses.movesTo {s s' : State} {t : Nat} (h : Elapses t s s') : MovesTo s s' := by
  induction h with
  | refl s => exact .refl
  | moved _ hmove _ ih => exact ih.tail hmove

theorem Elapses.counts {s s' : State} {t : Nat} (h : Elapses t s s') (hs : Reached s)
    (halive : s.machine.host.halted = false) : Counts s.machine.host s'.machine.host t := by
  induction h with
  | refl s => exact .still halive ⟨rfl, rfl⟩
  | @moved _ s' s'' t t' h hmove hwaits ih =>
    have hs' := hs.moves h.movesTo
    exact (ih hs halive).trans (counts_move hs' hmove hwaits) (hmove.alive hs')

theorem jiffies_le_jiffies {a b : UInt64} (h : a ≤ b) : jiffies a ≤ jiffies b := by
  have hle : a.toNat ≤ b.toNat := UInt64.le_iff_toNat_le.1 h
  have hsmall (c : UInt64) : min (c.toNat * 60) (UInt64.size - 1) / 1000 < Nat.pow 2 63 := by
    have hmin : min (c.toNat * 60) (UInt64.size - 1) ≤ UInt64.size - 1 := Nat.min_le_right _ _
    have hdiv := Nat.div_le_div_right (c := 1000) hmin
    exact Nat.lt_of_le_of_lt hdiv (by decide)
  rw [jiffies, jiffies, Int64.le_iff_toInt_le, Int64.toInt_ofNat_of_lt (hsmall a),
    Int64.toInt_ofNat_of_lt (hsmall b)]
  refine Int.ofNat_le.2 (Nat.div_le_div_right ?_)
  omega

/-- The clock of a session never runs backwards, nor does the time in `TI`, which is that of the
clock at each statement. While the process goes on, the clock shows what it showed before and the
sum of all waits since. The process is over only if that sum has no room in the word of the clock. -/
theorem clock_never_runs_backwards {s s' : State} (hs : Reached s) (h : MovesTo s s') :
    s.machine.host.clock ≤ s'.machine.host.clock ∧
      jiffies s.machine.host.clock ≤ jiffies s'.machine.host.clock ∧
      (∃ t, Elapses t s s' ∧
        (s'.machine.host.halted = false →
          s'.machine.host.clock.toNat = s.machine.host.clock.toNat + t) ∧
        (s.machine.host.halted = false → s'.machine.host.halted = true →
          UInt64.size ≤ s.machine.host.clock.toNat + t)) ∧
      ∀ m n text tokens next m' n' text' tokens' next', s = .running m → s' = .running m' →
        Lexed m n text tokens next → Lexed m' n' text' tokens' next' →
          ∃ time time', (begun n tokens next m).variableModule.vars.fetch "TI" = .integer time ∧
            (begun n' tokens' next' m').variableModule.vars.fetch "TI" = .integer time' ∧
            time ≤ time' := by
  obtain ⟨t, ht⟩ := exists_elapses hs h
  have hs' := hs.moves h
  have hcounts : s.machine.host.halted = false → Counts s.machine.host s'.machine.host t :=
    ht.counts hs
  -- Only a session that goes on moves at all.
  have hmoved : s = s' ∨ s.machine.host.halted = false := by
    rcases Relation.ReflTransGen.cases_head h with heq | ⟨_, hmove, -⟩
    · exact .inl heq
    · exact .inr (hmove.alive hs)
  have hle : s.machine.host.clock ≤ s'.machine.host.clock := by
    rcases hmoved with rfl | halive
    · exact UInt64.le_refl _
    · exact UInt64.le_iff_toNat_le.2 (hcounts halive).forward
  refine ⟨hle, jiffies_le_jiffies hle, ⟨t, ht, fun hgoes => ?_, fun halive halted =>
    (hcounts halive).refused halted⟩, ?_⟩
  · rcases hmoved with rfl | halive
    · exact (hcounts hgoes).counted hgoes
    · exact (hcounts halive).counted hgoes
  · rintro m n text tokens next m' n' text' tokens' next' rfl rfl - -
    exact ⟨_, _, time_begun hs.printFile hs.point.wellScoped n tokens next,
      time_begun hs'.printFile hs'.point.wellScoped n' tokens' next', jiffies_le_jiffies hle⟩

/-- A wait, and a statement that is long enough for a slow module to pause. -/
def slowLines : List String := ["SLEEP 1.5", "SLOW", "PRINT 1;2;3;4;5;6;7;8;9;10;11"]

set_option maxRecDepth 100000 in
/-- Two waits are counted, and the third one is longer than the clock can count. -/
theorem clock_never_runs_backwards_until_overslept :
    let m := enterAll 9 slowLines {}
    let m' := enterAll 9 ["SLEEP 1E300"] m
    (∃ t, Elapses t (.waiting {}) (.waiting m) ∧ m.host.clock.toNat = t) ∧ m.host.clock = 1505 ∧
      m'.host.halted = true ∧ m.host.clock ≤ m'.host.clock ∧
      ∃ t, Elapses t (.waiting m) (.waiting m') ∧ UInt64.size ≤ 1505 + t := by
  intro m m'
  obtain ⟨hstatuses, hclock, halive, hstatuses', halted⟩ : .running ∉ statuses 9 slowLines {} ∧
      (enterAll 9 slowLines {}).host.clock = 1505 ∧
      (enterAll 9 slowLines {}).host.halted = false ∧
      .running ∉ statuses 9 ["SLEEP 1E300"] (enterAll 9 slowLines {}) ∧
      (enterAll 9 ["SLEEP 1E300"] (enterAll 9 slowLines {})).host.halted = true := by
    decide +kernel
  have hstart : Reached (.waiting {}) := .start {} {} {} rfl
  have hmoves := moves_enterAll hstatuses
  obtain ⟨-, -, ⟨t, ht, hcounted, -⟩, -⟩ := clock_never_runs_backwards hstart hmoves
  obtain ⟨hle, -, ⟨t', ht', -, hrefused⟩, -⟩ :=
    clock_never_runs_backwards (hstart.moves hmoves) (moves_enterAll hstatuses')
  refine ⟨⟨t, ht, (hcounted halive).trans (Nat.zero_add t)⟩, hclock, halted, hle, t', ht', ?_⟩
  have hsize := hrefused halive halted
  rwa [show (State.waiting m).machine.host.clock = 1505 from hclock] at hsize

end Session

end LineBasic
