import LineBasic.Proofs.Session.Step

/-!
# What a session can reach

Entering a line leaves the machine alone, stores a line, or runs a series of changes on a machine
that was given the line. The states of a session are those that entered lines lead to, whatever the
world around the modules does between two lines. Sessions differ in the lines that are entered:
those of `Waiting` are all lines, and the others meet some condition.
-/

set_option autoImplicit false

namespace LineBasic.Session

open Run

theorem confined_step : Confined step := by
  intro m
  refine step_rule (I := Changes m) (J := Changes m) (fun _ _ hquiet h => h.trans hquiet.changes)
    (fun _ pc h => h.trans (changes_setPc _ pc))
    (fun _ _ hact h => h.trans hact.changes) (fun _ _ h => h.tail (.of_eq rfl rfl rfl rfl)) .refl

theorem confined_execute (fuel : Nat) : Confined (execute fuel) := by
  induction fuel with
  | zero => exact confined_pure _
  | succ fuel ih =>
    refine confined_step.bind fun done => ?_
    split
    · exact confined_pure _
    · exact ih

theorem changes_report (f : Fault) (m : Machine) : Changes m (report f m) := by
  have hscopes : Change m { m with scopes := (report f m).scopes } := .scopes m _
  exact .tail (.single hscopes) (.of_eq rfl rfl rfl rfl)

/-- A run that is over leaves its machine behind, without the exit code if that was taken. -/
theorem settle_of_over (m : Machine) :
    ∃ exitCode, (settle (.ok true m)).2 = { m with exitCode } := by
  rw [settle]
  split
  · exact ⟨m.exitCode, rfl⟩
  · cases m.exitCode with
    | some code => exact ⟨none, rfl⟩
    | none => exact ⟨m.exitCode, rfl⟩

theorem changes_settle (x : Run Bool) (m : Machine) : Changes (x.final m) (settle (x m)).2 := by
  rw [final]
  cases x m with
  | error f m' => exact changes_report f m'
  | ok done m' =>
    cases done with
    | false => exact .refl
    | true =>
      obtain ⟨exitCode, hsettle⟩ := settle_of_over m'
      rw [hsettle]
      exact .single (.of_eq rfl rfl rfl rfl)

def stored (n : LineNumber) (text : String) (m : Machine) : Machine :=
  m.updateVariableModule fun mod =>
    { mod with
      listing := mod.listing.enterLine n text
      autoStep := if text.isEmpty then 0 else mod.autoStep
      lastEntered := n }

theorem storeLine_apply (n : LineNumber) (text : String) (m : Machine) :
    storeLine n text m =
      match checkLine m.lexicon m.options text with
      | .ok _ => .ok () (stored n text m)
      | .error f => .error (f.inLine n) (stored n text m) := by
  have hstored : updateVariableModule (fun mod =>
      { mod with
        listing := mod.listing.enterLine n text
        autoStep := if text.isEmpty then 0 else mod.autoStep
        lastEntered := n }) m = .ok () (stored n text m) := rfl
  have hcheck : checkLine (stored n text m).lexicon (stored n text m).options text =
      checkLine m.lexicon m.options text := rfl
  rw [storeLine, bind_apply, hstored]
  dsimp only
  rw [get_bind, hcheck]
  cases checkLine m.lexicon m.options text with
  | ok _ => rfl
  | error f => rfl

theorem storeLine_cases (n : LineNumber) (text : String) (m : Machine) :
    storeLine n text m = .ok () (stored n text m) ∨
      ∃ f, storeLine n text m = .error f (stored n text m) := by
  rw [storeLine_apply]
  cases checkLine m.lexicon m.options text with
  | ok _ => exact .inl rfl
  | error f => exact .inr ⟨f.inLine n, rfl⟩

/-- Whatever the number of steps, nothing is done when the process is over or the line is blank. A
numbered line is stored, and every other one is run. -/
theorem enter_eq (line : String) (m : Machine) :
    (∃ status, ∀ fuel, enter fuel line m = (status, m)) ∨
      m.host.halted = false ∧ Text.isBlankText (normalLine line) = false ∧
        ((∃ n text, numberedLine? (normalLine line) = some (n, text) ∧
          ((∀ fuel, enter fuel line m = (.programmed, stored n text m)) ∨
            ∃ f, ∀ fuel, enter fuel line m = (.failed, report f (stored n text m)))) ∨
        (numberedLine? (normalLine line) = none ∧ ∀ fuel, enter fuel line m =
          settle (execute fuel (prepare (normalLine line) { m with exitCode := none })))) := by
  cases halted : m.host.halted with
  | true => exact .inl ⟨.aborted, fun fuel => by simp [enter, halted]⟩
  | false =>
    cases hblank : Text.isBlankText (normalLine line) with
    | true => exact .inl ⟨.idle, fun fuel => by simp [enter, halted, hblank]⟩
    | false =>
      refine .inr ⟨rfl, rfl, ?_⟩
      cases hn : numberedLine? (normalLine line) with
      | none => exact .inr ⟨rfl, fun fuel => by simp [enter, halted, hblank, hn]⟩
      | some e =>
        refine .inl ⟨e.1, e.2, rfl, ?_⟩
        rcases storeLine_cases e.1 e.2 m with h | ⟨f, h⟩
        · exact .inl fun fuel => by simp [enter, halted, hblank, hn, h]
        · exact .inr ⟨f, fun fuel => by simp [enter, halted, hblank, hn, h]⟩

theorem enter_cases (fuel : Nat) (line : String) (m : Machine) :
    (enter fuel line m).2 = m ∨
      (∃ n text, numberedLine? (normalLine line) = some (n, text) ∧
        Changes (stored n text m) (enter fuel line m).2) ∨
      Changes (prepare (normalLine line) { m with exitCode := none }) (enter fuel line m).2 := by
  rcases enter_eq line m with ⟨status, henter⟩ |
    ⟨-, -, ⟨n, text, hn, henter | ⟨f, henter⟩⟩ | ⟨-, henter⟩⟩
  all_goals rw [henter]
  · exact .inl rfl
  · exact .inr (.inl ⟨n, text, hn, .refl⟩)
  · exact .inr (.inl ⟨n, text, hn, changes_report f _⟩)
  · exact .inr (.inr ((confined_execute fuel _).trans (changes_settle _ _)))

theorem registry_enter (fuel : Nat) (line : String) (m : Machine) :
    (enter fuel line m).2.registry = m.registry := by
  rcases enter_cases fuel line m with h | ⟨n, text, -, h⟩ | h
  · rw [h]
  · exact h.registry
  · exact h.registry.trans (changes_enterCode { m with exitCode := none }).registry

/-- The states between two lines of a session in which only lines are entered that are allowed. The
host, the registered commands and functions and the column of the screen may change there. -/
inductive AtPrompt (allowed : Machine → Nat → String → Prop) : Machine → Prop
  | start (host : Host) (registry : Registry) (options : LexOptions) :
      AtPrompt allowed { host, registry, options }
  | outside (m : Machine) (host : Host) (registry : Registry) (column : Nat)
      (h : AtPrompt allowed m) : AtPrompt allowed { m with host, registry, column }
  | entered (m : Machine) (fuel : Nat) (line : String) (h : AtPrompt allowed m)
      (hline : allowed m fuel line) : AtPrompt allowed (enter fuel line m).2

abbrev Waiting : Machine → Prop := AtPrompt fun _ _ _ => True

/-- The states of a session in which no line that is entered has a line feed in it. -/
abbrev Reachable : Machine → Prop := AtPrompt fun _ _ line => '\n' ∉ (normalEnd line).toList

theorem AtPrompt.waiting {allowed : Machine → Nat → String → Prop} {m : Machine}
    (h : AtPrompt allowed m) : Waiting m := by
  induction h with
  | start host registry options => exact .start host registry options
  | outside m host registry column _ ih => exact .outside m host registry column ih
  | entered m fuel line _ _ ih => exact .entered m fuel line ih trivial

def enterAll (fuel : Nat) : List String → Machine → Machine
  | [], m => m
  | line :: lines, m => enterAll fuel lines (enter fuel line m).2

theorem registry_enterAll (fuel : Nat) (lines : List String) (m : Machine) :
    (enterAll fuel lines m).registry = m.registry := by
  induction lines generalizing m with
  | nil => rfl
  | cons line lines ih => exact (ih _).trans (registry_enter fuel line m)

theorem AtPrompt.enterAll {allowed : Machine → Nat → String → Prop} {fuel : Nat}
    {lines : List String} {m : Machine} (h : AtPrompt allowed m)
    (hlines : ∀ line ∈ lines, ∀ m, allowed m fuel line) :
    AtPrompt allowed (enterAll fuel lines m) := by
  induction lines generalizing m with
  | nil => exact h
  | cons line lines ih =>
    have hline := AtPrompt.entered m fuel line h (hlines line List.mem_cons_self m)
    rw [Session.enterAll]
    exact ih hline fun x hx => hlines x (List.mem_cons_of_mem line hx)

theorem Waiting.entered {m : Machine} (h : Waiting m) (fuel : Nat) (line : String) :
    Waiting (enter fuel line m).2 :=
  AtPrompt.entered m fuel line h trivial

theorem Waiting.enterAll (fuel : Nat) (lines : List String) : Waiting (enterAll fuel lines {}) :=
  (AtPrompt.start {} {} {}).enterAll fun _ _ _ => trivial

end LineBasic.Session
