import LineBasic.Proofs.Session.Scopes
import LineBasic.Proofs.World.Permit

/-!
# The moves of a session

A session waits for a line or runs one. While it waits the host may be given lines, keys and files,
commands may be registered, and whoever owns the session may print. An entered line is stored or
starts a run, and a run goes on by steps until it is over or a fault is reported. Whatever a session
does is a series of such moves.
-/

set_option autoImplicit false

namespace LineBasic.Session

open Run

inductive State where
  | waiting (m : Machine)
  | running (m : Machine)

namespace State

def machine : State → Machine
  | waiting m | running m => m

def entered (line : String) (m : Machine) : State :=
  if Text.isBlankText (normalLine line) = false ∧ numberedLine? (normalLine line) = none then
    running (prepare (normalLine line) { m with exitCode := none })
  else waiting (enter 0 line m).2

def after : EStateM.Result Fault Machine Bool → State
  | .ok false m => running m
  | r => waiting (settle r).2

end State

inductive Move : State → State → Prop
  | supplied (m : Machine) (host : Host) (registry : Registry)
      (htranscript : host.transcript = m.host.transcript) (hclock : host.clock = m.host.clock)
      (halive : m.host.halted = false) (hhalted : host.halted = false) :
      Move (.waiting m) (.waiting { m with host, registry })
  | printed (m : Machine) (text : String) (halive : m.host.halted = false) :
      Move (.waiting m) (.waiting (m.print text))
  | entered (m : Machine) (line : String) (halive : m.host.halted = false) :
      Move (.waiting m) (.entered line m)
  | stepped (m : Machine) : Move (.running m) (.after (step m))

abbrev MovesTo : State → State → Prop := Relation.ReflTransGen Move

/-- The states of a session that starts with an empty screen. -/
def Reached (s : State) : Prop :=
  ∃ host registry options, host.transcript = [] ∧
    MovesTo (.waiting { host, registry, options }) s

theorem Reached.start (host : Host) (registry : Registry) (options : LexOptions)
    (h : host.transcript = []) : Reached (.waiting { host, registry, options }) :=
  ⟨host, registry, options, h, .refl⟩

theorem Reached.moves {s s' : State} (h : Reached s) (hmoves : MovesTo s s') : Reached s' := by
  obtain ⟨host, registry, options, htranscript, hbefore⟩ := h
  exact ⟨host, registry, options, htranscript, hbefore.trans hmoves⟩

theorem Reached.moved {s s' : State} (h : Reached s) (hmove : Move s s') : Reached s' :=
  h.moves (.single hmove)

/-- What is so at the start of every session and is kept by every move is so in every state. -/
theorem Reached.rule {P : State → Prop} {s : State} (h : Reached s)
    (hstart : ∀ host registry options, host.transcript = [] →
      P (.waiting { host, registry, options }))
    (hmove : ∀ s s', Reached s → Move s s' → P s → P s') : P s := by
  obtain ⟨host, registry, options, htranscript, hmoves⟩ := h
  induction hmoves with
  | refl => exact hstart host registry options htranscript
  | tail hbefore hlast ih =>
    exact hmove _ _ ⟨host, registry, options, htranscript, hbefore⟩ hlast ih

/-- A run that was given a number of steps is a series of moves. If they were not used up the
session waits again. -/
theorem moves_execute (fuel : Nat) (m : Machine) :
    ∃ s, MovesTo (.running m) s ∧ s.machine = (settle (execute fuel m)).2 ∧
      ((settle (execute fuel m)).1 ≠ .running → s = .waiting (settle (execute fuel m)).2) := by
  induction fuel generalizing m with
  | zero => exact ⟨.running m, .refl, rfl, fun h => absurd rfl h⟩
  | succ fuel ih =>
    have hmove := Move.stepped m
    rw [execute_succ]
    cases hstep : step m with
    | error f m' =>
      rw [hstep] at hmove
      exact ⟨_, .single hmove, rfl, fun _ => rfl⟩
    | ok done m' =>
      rw [hstep] at hmove
      cases done with
      | true => exact ⟨_, .single hmove, rfl, fun _ => rfl⟩
      | false =>
        obtain ⟨s, hmoves, hs⟩ := ih m'
        exact ⟨s, .head hmove hmoves, hs⟩

theorem moves_enter (fuel : Nat) (line : String) (m : Machine) :
    ∃ s, MovesTo (.waiting m) s ∧ s.machine = (enter fuel line m).2 ∧
      ((enter fuel line m).1 ≠ .running → s = .waiting (enter fuel line m).2) := by
  rcases enter_eq line m with ⟨status, henter⟩ |
    ⟨halive, hblank, ⟨n, text, hn, henter | ⟨f, henter⟩⟩ | ⟨hn, henter⟩⟩
  all_goals rw [henter fuel]
  · exact ⟨.waiting m, .refl, rfl, fun _ => rfl⟩
  all_goals
    have hmove := Move.entered m line halive
    rw [State.entered] at hmove
  · rw [if_neg (by simp [hn]), henter] at hmove
    exact ⟨_, .single hmove, rfl, fun _ => rfl⟩
  · rw [if_neg (by simp [hn]), henter] at hmove
    exact ⟨_, .single hmove, rfl, fun _ => rfl⟩
  · rw [if_pos ⟨hblank, hn⟩] at hmove
    obtain ⟨s, hmoves, hs⟩ :=
      moves_execute fuel (prepare (normalLine line) { m with exitCode := none })
    exact ⟨s, .head hmove hmoves, hs⟩

def statuses (fuel : Nat) : List String → Machine → List Status
  | [], _ => []
  | line :: lines, m =>
    let result := enter fuel line m
    result.1 :: statuses fuel lines result.2

/-- A session that enters lines waits after the last of them, if none runs out of steps. -/
theorem moves_enterAll {fuel : Nat} {lines : List String} {m : Machine}
    (h : .running ∉ statuses fuel lines m) :
    MovesTo (.waiting m) (.waiting (enterAll fuel lines m)) := by
  induction lines generalizing m with
  | nil => exact .refl
  | cons line lines ih =>
    rw [statuses, List.mem_cons, not_or] at h
    obtain ⟨s, hmoves, -, hs⟩ := moves_enter fuel line m
    cases hs (Ne.symm h.1)
    exact hmoves.trans (ih h.2)

def Permitted (m : Machine) (permit : Permit) : Prop :=
  permit = .wait ∨ ∃ n text tokens next, Lexed m n text tokens next ∧
    Statement.Permitted tokens (begun n tokens next m) permit

/-- A step has one permit at most, besides that for a pause. -/
theorem Permitted.unique {m : Machine} {l l' : Permit} (h : Permitted m l) (h' : Permitted m l')
    (hl : l ≠ .wait) (hl' : l' ≠ .wait) : l = l' := by
  obtain ⟨n, text, tokens, next, hlexed, h⟩ := h.resolve_left hl
  obtain ⟨n', text', tokens', next', hlexed', h'⟩ := h'.resolve_left hl'
  obtain rfl : n = n' := Option.some.inj (hlexed.line.symm.trans hlexed'.line)
  obtain rfl : text = text' := Option.some.inj (hlexed.listed.symm.trans hlexed'.listed)
  cases hlexed.lexed.symm.trans hlexed'.lexed
  exact h.unique h'

def pause (tokens : List Token) (m : Machine) : UInt64 :=
  if !m.codeModule.fast && decide (tokensPerPause ≤ m.tokenCount + tokens.length) then pauseTime
  else 0

/-- Before a statement runs a trace may be printed, and a slow module may pause. -/
theorem begun_eq {m : Machine} (hscreen : m.printFile = none) (n : LineNumber)
    (tokens : List Token) (next : Nat) :
    ∃ host column tokenCount,
      begun n tokens next m = { clocked next m with host, column, tokenCount } ∧
        host.clock = (m.host.sleep (pause tokens m)).clock ∧
        host.halted = (m.host.sleep (pause tokens m)).halted ∧ host.files = m.host.files := by
  have htraced (trace : Bool) : ∃ host column,
      (if trace then (clocked next m).print ("[" ++ toString n ++ "]") else clocked next m) =
        { clocked next m with host, column } ∧ host.clock = m.host.clock ∧
          host.halted = m.host.halted ∧ host.files = m.host.files := by
    cases trace with
    | true => exact ⟨_, _, Machine.print_of_screen (m := clocked next m) hscreen _, rfl, rfl, rfl⟩
    | false => exact ⟨m.host, m.column, rfl, rfl, rfl, rfl⟩
  obtain ⟨host, column, htrace, hclock, hhalted, hfiles⟩ :=
    htraced (m.codeModule.trace && decide (0 ≤ n) && m.codeModule.pc.offset == 0)
  rw [begun]
  dsimp only
  rw [htrace, pause]
  cases m.codeModule.fast with
  | true =>
    rw [if_neg (by simp), if_neg (by simp), Host.sleep_zero]
    exact ⟨host, column, m.tokenCount, rfl, hclock, hhalted, hfiles⟩
  | false =>
    have hfinal : (countTokens tokens.length).final { clocked next m with host, column } =
        if tokensPerPause ≤ m.tokenCount + tokens.length
        then { clocked next m with column, tokenCount := 0, host := host.sleep pauseTime }
        else { clocked next m with host, column, tokenCount := m.tokenCount + tokens.length } := rfl
    rw [if_pos (Bool.not_false), hfinal]
    by_cases hpause : tokensPerPause ≤ m.tokenCount + tokens.length
    · obtain ⟨hclock', hhalted'⟩ := Host.sleep_congr hclock hhalted pauseTime
      rw [if_pos hpause, if_pos (by simp [hpause])]
      exact ⟨_, _, _, rfl, hclock', hhalted', hfiles⟩
    · rw [if_neg hpause, if_neg (by simp [hpause]), Host.sleep_zero]
      exact ⟨_, _, _, rfl, hclock, hhalted, hfiles⟩

theorem deeds_begun {p : Permit → Prop} {m : Machine} (hwait : p .wait)
    (hscreen : m.printFile = none) (n : LineNumber) (tokens : List Token) (next : Nat) :
    m.Deeds p (begun n tokens next m) := by
  have hclock : m.Deeds p (clocked next m) :=
    Machine.SameWorld.deeds ⟨rfl, rfl, rfl, rfl, rfl⟩
  have htrace : m.Deeds p ((clocked next m).print ("[" ++ toString n ++ "]")) :=
    hclock.trans (((clocked next m).leads_print _).2 (hclock.keeps.1.trans hscreen))
  have hcount (u : Machine) : u.Deeds p ((countTokens tokens.length).final u) := by
    change u.Deeds p (if tokensPerPause ≤ u.tokenCount + tokens.length then _ else _)
    split
    · exact .tail (.single (.slept pauseTime hwait)) (.inward ⟨rfl, rfl, rfl, rfl, rfl⟩)
    · exact Machine.SameWorld.deeds ⟨rfl, rfl, rfl, rfl, rfl⟩
  rw [begun]
  split
  · refine .trans ?_ (hcount _)
    split
    · exact htrace
    · exact hclock
  · split
    · exact htrace
    · exact hclock

/-- A step does what its statement is permitted to do. -/
theorem deeds_step {m : Machine} (hscreen : m.printFile = none) :
    m.Deeds (Permitted m) (step.final m) := by
  change m.Deeds (Permitted m) (machineAfter (step m))
  have hstep := stepResult m
  generalize step m = r at hstep ⊢
  cases hstep with
  | stopped => exact .refl
  | finished => exact Machine.SameWorld.deeds ⟨rfl, rfl, rfl, rfl, rfl⟩
  | unread => exact .refl
  | moved => exact Machine.SameWorld.deeds ⟨rfl, rfl, rfl, rfl, rfl⟩
  | left =>
    refine .tail (.single (.inward ?_)) (.inward (Machine.sameWorld_endModule _))
    exact ⟨rfl, rfl, rfl, rfl, rfl⟩
  | overslept n text tokens next => exact deeds_begun (.inl rfl) hscreen n tokens next
  | statement n text tokens next hlexed htokens =>
    have hbegun := deeds_begun (p := Permitted m) (.inl rfl) hscreen n tokens next
    have hrun :=
      (Statement.does_run tokens (begun n tokens next m)).2 (hbegun.keeps.1.trans hscreen)
    have hdone := hbegun.trans (hrun.mono fun permit hpermit =>
      .inr ⟨n, text, tokens, next, hlexed, hpermit⟩)
    rw [final] at hdone
    cases hr : Statement.run tokens (begun n tokens next m) with
    | error f m' =>
      rw [hr] at hdone
      exact hdone
    | ok _ m' =>
      rw [hr] at hdone
      have hpolled : m.Deeds (Permitted m) { m' with host := m'.host.poll.2 } :=
        hdone.tail (.sensed _ _ _)
      rw [afterStatement]
      split
      · exact hdone
      · split
        · exact hpolled
        · exact hpolled

theorem exists_faultReport_eq (m : Machine) (f : Fault) :
    ∃ text, faultReport m f = text ++ "\n" := by
  rw [faultReport]
  split
  rename_i mod line _
  generalize (if m.column = 0 then "" else "\n") = start
  dsimp only
  cases line with
  | none => exact ⟨_, rfl⟩
  | some n =>
    dsimp only
    split
    · exact ⟨_, rfl⟩
    · cases (if f.isBreak then none else mod.listing.listed? n) with
      | none => exact ⟨_, String.append_empty⟩
      | some listed => exact ⟨_, by rw [Option.map_some, Option.getD_some, ← String.append_assoc]⟩

theorem columnAfter_faultReport (m : Machine) (f : Fault) (column : Nat) :
    Text.columnAfter column (faultReport m f) = 0 := by
  obtain ⟨text, htext⟩ := exists_faultReport_eq m f
  simp [htext, Text.columnAfter]

theorem deeds_report {p : Permit → Prop} {m : Machine} (hscreen : m.printFile = none) (f : Fault) :
    m.Deeds p (report f m) := by
  refine .tail (.single (.printed (faultReport m f))) (.inward ?_)
  exact ⟨rfl, rfl, hscreen.symm, (columnAfter_faultReport m f m.column).symm, rfl⟩

/-- What is left of a step: a fault has been reported, and an exit code has been taken. -/
theorem machine_after (m : Machine) :
    (∃ f, (State.after (step m)).machine = report f (step.final m)) ∨
      ∃ exitCode, (State.after (step m)).machine = { step.final m with exitCode } := by
  rw [final]
  cases step m with
  | error f m' => exact .inl ⟨f, rfl⟩
  | ok done m' =>
    cases done with
    | false => exact .inr ⟨m'.exitCode, rfl⟩
    | true =>
      obtain ⟨exitCode, hsettle⟩ := settle_of_over m'
      exact .inr ⟨exitCode, hsettle⟩

/-- What is left of a statement: neither the poll for the break key nor a report touches files or
the clock, or ends the process. -/
theorem world_after_statement {m : Machine} {n : LineNumber} {text : String} {tokens : List Token}
    {next : Nat} (hlexed : Lexed m n text tokens next) (htokens : tokens ≠ []) :
    let m' := (State.after (step m)).machine
    let u := (Statement.run tokens).final (begun n tokens next m)
    m'.files = u.files ∧ m'.host.files = u.host.files ∧ m'.host.clock = u.host.clock ∧
      m'.host.halted = u.host.halted := by
  intro m' u
  have hu : u = machineAfter (Statement.run tokens (begun n tokens next m)) := rfl
  have hstep : (step.final m).files = u.files ∧ (step.final m).host.files = u.host.files ∧
      (step.final m).host.clock = u.host.clock ∧ (step.final m).host.halted = u.host.halted := by
    change (machineAfter (step m)).files = _ ∧ (machineAfter (step m)).host.files = _ ∧
      (machineAfter (step m)).host.clock = _ ∧ (machineAfter (step m)).host.halted = _
    rw [step_of_statement hlexed htokens, hu]
    cases Statement.run tokens (begun n tokens next m) with
    | error f m' => exact ⟨rfl, rfl, rfl, rfl⟩
    | ok _ m' =>
      rw [afterStatement]
      split
      · exact ⟨rfl, rfl, rfl, rfl⟩
      · split <;> exact ⟨rfl, rfl, rfl, rfl⟩
  rcases machine_after m with ⟨f, h⟩ | ⟨exitCode, h⟩
  · rw [show m' = _ from h]
    exact hstep
  · rw [show m' = _ from h]
    exact hstep

theorem deeds_after {m : Machine} (hscreen : m.printFile = none) :
    m.Deeds (Permitted m) (State.after (step m)).machine := by
  have hstep := deeds_step hscreen
  rcases machine_after m with ⟨f, h⟩ | ⟨exitCode, h⟩
  · rw [h]
    exact hstep.trans (deeds_report (hstep.keeps.1.trans hscreen) f)
  · rw [h]
    exact hstep.tail (.inward ⟨rfl, rfl, rfl, rfl, rfl⟩)

theorem deeds_entered {m : Machine} (hscreen : m.printFile = none) (line : String) :
    m.Deeds (fun _ => False) (State.entered line m).machine := by
  rw [State.entered]
  split
  · have hexit : m.SameWorld { m with exitCode := none } := ⟨rfl, rfl, rfl, rfl, rfl⟩
    refine hexit.deeds.trans (.tail (.single (.inward (Machine.sameWorld_enterCode _))) ?_)
    exact .inward ⟨rfl, rfl, rfl, rfl, rfl⟩
  · rename_i h
    change m.Deeds _ (enter 0 line m).2
    have hworld (n : LineNumber) (text : String) : m.SameWorld (stored n text m) :=
      ⟨rfl, rfl, rfl, rfl, rfl⟩
    rcases enter_eq line m with ⟨status, henter⟩ |
      ⟨-, hblank, ⟨n, text, -, henter | ⟨f, henter⟩⟩ | ⟨hn, -⟩⟩
    · rw [henter]
    · rw [henter]
      exact (hworld n text).deeds
    · rw [henter]
      exact (hworld n text).deeds.trans (deeds_report ((hworld n text).printFile.trans hscreen) f)
    · exact absurd ⟨hblank, hn⟩ h

/-- Between two moves everything that is printed goes to the screen. -/
theorem Reached.printFile {s : State} (h : Reached s) : s.machine.printFile = none := by
  refine h.rule (P := fun s => s.machine.printFile = none) (fun _ _ _ _ => rfl)
    fun s s' _ hmove ih => ?_
  cases hmove with
  | supplied => exact ih
  | printed m text => exact ((m.leads_print (p := fun _ => False) text).2 ih).keeps.1.trans ih
  | entered m line => exact (deeds_entered ih line).keeps.1.trans ih
  | stepped m => exact (deeds_after ih).keeps.1.trans ih

inductive State.Regular : State → Prop
  | waiting {m : Machine} (h : Waiting m) : Regular (.waiting m)
  | running {m₀ m : Machine} {line : String} {k : Nat} (h : Underway m₀ line k m) :
      Regular (.running m)

theorem Waiting.regular {m : Machine} (h : Waiting m) (halive : m.host.halted = false)
    (line : String) : (State.entered line m).Regular := by
  rw [State.entered]
  split
  · rename_i hline
    exact .running (.prepared h halive hline.1 hline.2)
  · exact .waiting (h.entered 0 line)

theorem Underway.regular {m₀ m : Machine} {line : String} {k : Nat} (h : Underway m₀ line k m) :
    (State.after (step m)).Regular := by
  have hentered := h.waiting.entered (k + 1) line
  rw [h.enter_eq, execute_succ] at hentered
  cases hstep : step m with
  | error f m' =>
    rw [hstep] at hentered
    exact .waiting hentered
  | ok done m' =>
    cases done with
    | true =>
      rw [hstep] at hentered
      exact .waiting hentered
    | false => exact .running (h.stepped hstep)

theorem Reached.regular {s : State} (h : Reached s) : s.Regular := by
  refine h.rule (P := State.Regular)
    (fun host registry options _ => .waiting (.start host registry options))
    fun s s' hs hmove ih => ?_
  have hscreen := hs.printFile
  cases ih with
  | @waiting m hm =>
    cases hmove with
    | supplied _ host registry => exact .waiting (.outside m host registry m.column hm)
    | printed _ text =>
      rw [Machine.print_of_screen (m := m) hscreen]
      exact .waiting (.outside m (m.host.print text) m.registry _ hm)
    | entered _ line halive => exact hm.regular halive line
  | running hm =>
    cases hmove
    exact hm.regular

theorem Reached.underway {m₀ m : Machine} {line : String} {k : Nat} (h : Reached (.waiting m₀))
    (hm : Underway m₀ line k m) : Reached (.running m) := by
  induction hm with
  | prepared _ halive hblank hnumber =>
    have hmove := Move.entered m₀ line halive
    rw [State.entered, if_pos ⟨hblank, hnumber⟩] at hmove
    exact h.moved hmove
  | @stepped k m m' _ hstep ih =>
    have hmove := Move.stepped m
    rw [hstep] at hmove
    exact ih.moved hmove

theorem Reached.point {s : State} (h : Reached s) : Point s.machine := by
  cases h.regular with
  | waiting hm => exact .waiting hm
  | running hm => exact .underway hm

end LineBasic.Session
