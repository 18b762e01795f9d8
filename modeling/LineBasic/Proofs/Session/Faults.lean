import LineBasic.Proofs.Act.Shift
import LineBasic.Proofs.Session.Underway

/-!
# Reports of faults

A fault in a program line is reported with the number and the text of the line, and all modules are
left. The line is found by the program counter of the module whose code runs when the fault is
reported. A statement that fails has left that where it was, unless it is a jump into a module that
was only named before: it has entered the module then, and no line is running there.
-/

set_option autoImplicit false

namespace LineBasic

namespace Machine

structure InPlace (m m' : Machine) : Prop where
  scopes : m'.scopes = m.scopes
  pc : m'.codeModule.pc = m.codeModule.pc
  listing : m'.codeModule.listing = m.codeModule.listing

structure Entered (m m' : Machine) : Prop where
  ahead : m.scopes.inLockstep = false
  scopes : m'.scopes = m.scopes.enterCode.2
  pc : m'.codeModule.pc = .atEnd

theorem Entered.scopes_ne {m m' : Machine} (h : m.Entered m') : m'.scopes ≠ m.scopes := by
  intro hsame
  have hstack := congrArg Scopes.codeStack (h.scopes.symm.trans hsame)
  rw [Scopes.codeStack_enterCode, h.ahead, if_neg (by simp)] at hstack
  exact List.cons_ne_self _ _ hstack

theorem QuietBut.inPlace {reads : Prop} {m m' : Machine} (h : m.QuietBut reads m') :
    m.InPlace m' where
  scopes := h.scopes
  pc := by rw [codeModule, codeModule, h.scopes, h.pc]
  listing := by rw [codeModule, codeModule, h.scopes, h.listing]

theorem InPlace.trans {m m₁ m₂ : Machine} (h : m.InPlace m₁) (h' : m₁.InPlace m₂) :
    m.InPlace m₂ :=
  ⟨h'.scopes.trans h.scopes, h'.pc.trans h.pc, h'.listing.trans h.listing⟩

theorem Entered.after {m m₁ m₂ : Machine} (h : m.InPlace m₁) (h' : m₁.Entered m₂) :
    m.Entered m₂ :=
  ⟨h.scopes ▸ h'.ahead, h.scopes ▸ h'.scopes, h'.pc⟩

end Machine

/-- Landing stays in the module that runs, or enters the code of the one that is named. -/
theorem Landing.inPlace_or_entered {E : Prop} {m m₁ : Machine} {c : Option Fault}
    (h : Landing E m c m₁) (hm : m.WellScoped) :
    m.InPlace m₁ ∨ m.Entered m₁ := by
  cases hlevel : m.scopes.inLockstep with
  | true =>
    have hsame : m₁.scopes = m.scopes := by rw [h.scopes, Scopes.enterCode, if_pos hlevel]
    refine .inl ⟨hsame, ?_, ?_⟩
    · rw [Machine.codeModule, hsame, h.pc, Machine.enterCode_of_inLockstep hlevel]
      rfl
    · rw [Machine.codeModule, hsame, h.listing]
      rfl
  | false =>
    refine .inr ⟨hlevel, h.scopes, ?_⟩
    rw [Machine.codeModule, h.codeModule hm, h.pc, Machine.pc_enterCode,
      if_pos ⟨hlevel, rfl, hm.variableModule_lt⟩]

/-- An act that fails is a jump that has landed, or a loop too many. -/
theorem Act.inPlace_or_entered {E F : Prop} {G : Edit → Prop} {m m' : Machine} {f : Fault}
    (h : Act E F G m (.error f m')) (hm : m.WellScoped) :
    f.Ordinary ∧ (m.InPlace m' ∨ m.Entered m') := by
  generalize hr : EStateM.Result.error f m' = r at h
  cases h with
  | missed m₁ f hland hf =>
    cases hr
    exact ⟨hf, hland.inPlace_or_entered hm⟩
  | loopRefused l f _ _ _ hf =>
    cases hr
    have hcode : (m.pushLoop l).codeModule =
        { m.codeModule with loops := m.codeModule.loops.push l } :=
      Machine.codeModule_updateCodeModule hm.codeModule_lt _
    exact ⟨hf, .inl ⟨rfl, by rw [hcode], by rw [hcode]⟩⟩
  | _ => cases hr

namespace Session

open Run

/-- A failed statement is still in its line, or has entered a module. It names a line itself only
if something that was added to the registry does. -/
theorem inPlace_or_entered_of_fault {m m' : Machine} {n : LineNumber} {text : String}
    {tokens : List Token} {next : Nat} {f : Fault} (hm : m.WellScoped)
    (hlexed : Lexed m n text tokens next)
    (hfault : Statement.run tokens (begun n tokens next m) = .error f m') :
    (m.registry.Unlocated → f.line = none) ∧
      ((m.setPc ⟨some n, next⟩).InPlace m' ∨
        f.line = none ∧ (m.setPc ⟨some n, next⟩).Entered m') := by
  have hbegun := (calm_begun hlexed.line tokens next).quiet
  obtain ⟨m₁, hquiet, hend⟩ := Statement.acts_run tokens (begun n tokens next m)
  have hplace := (hbegun.trans hquiet).inPlace
  rw [hfault] at hend
  rcases hend with ⟨f', hf', hraises⟩ | hact
  · cases hf'
    rw [hbegun.registry] at hraises
    exact ⟨hraises.unlocated, .inl hplace⟩
  · have hm₁ := (hm.setPc ⟨some n, next⟩).quiet (hbegun.trans hquiet)
    obtain ⟨hf, hin | hentered⟩ := hact.inPlace_or_entered hm₁
    · exact ⟨fun _ => hf.1, .inl (hplace.trans hin)⟩
    · exact ⟨fun _ => hf.1, .inr ⟨hf.1, .after hplace hentered⟩⟩

/-- In its line a failed statement finds the number and the text that it was read from. -/
theorem Lexed.of_inPlace {m m' : Machine} {n : LineNumber} {text : String} {tokens : List Token}
    {next : Nat} (h : Lexed m n text tokens next) (hm : m.WellScoped)
    (hplace : (m.setPc ⟨some n, next⟩).InPlace m') :
    m'.codeModule.pc.line = some n ∧ m'.codeModule.listing.get? n = some text := by
  have hcode : (m.setPc ⟨some n, next⟩).codeModule = { m.codeModule with pc := ⟨some n, next⟩ } :=
    Machine.codeModule_updateCodeModule hm.codeModule_lt _
  rw [hplace.pc, hplace.listing, hcode]
  exact ⟨rfl, h.listed⟩

def freshLine (m : Machine) : String := if m.column = 0 then "" else "\n"

def lineReport (f : Fault) (n : LineNumber) (text : String) : String :=
  "?" ++ f.kind.text ++ " IN " ++ toString n ++ "\n" ++
    if f.isBreak then "" else Listing.listedLine n text ++ "\n"

theorem faultReport_of_line {m : Machine} {f : Fault} {n : LineNumber} {text : String}
    (hf : f.line = none) (hn : 0 ≤ n) (hline : m.codeModule.pc.line = some n)
    (hlisted : m.codeModule.listing.get? n = some text) :
    faultReport m f = freshLine m ++ lineReport f n text := by
  have hmessage : (f.inLine n).message = f.kind.text ++ " IN " ++ toString n := by
    simp [Fault.message, Fault.inLine, hn]
  simp only [faultReport, hf, hline, if_neg (Int.not_lt.2 hn), hmessage, Listing.listed?, hlisted,
    freshLine, lineReport]
  cases f.isBreak <;> simp [String.append_assoc]

theorem faultReport_of_end {m : Machine} {f : Fault} (hf : f.line = none)
    (hend : m.codeModule.pc = .atEnd) :
    faultReport m f = freshLine m ++ "?" ++ f.kind.text ++ "\n" := by
  simp [faultReport, hf, hend, ProgramCounter.atEnd, Fault.message, freshLine]

/-- A statement of a program line that fails ends the run. If it leaves the scopes as they were, all
modules are left, and the report names the line and shows it as it is listed, unless the fault is a
break. The others are jumps that fail in a module they have entered: it stays entered, and the
report names no line. -/
theorem fault_report_names_line {m₀ m m' : Machine} {line : String} {k fuel : Nat} {n : LineNumber}
    {text : String} {tokens : List Token} {next : Nat} {f : Fault} (hm : Underway m₀ line k m)
    (hlexed : Lexed m n text tokens next) (htokens : tokens ≠ []) (hn : 0 ≤ n)
    (hfault : Statement.run tokens (begun n tokens next m) = .error f m') (hfuel : k < fuel) :
    ∃ m₁, enter fuel line m₀ = (.failed, m₁) ∧ (m.registry.Unlocated → f.line = none) ∧
      (m'.scopes = m.scopes → f.line = none →
        m₁.scopes = {} ∧ m₁.host = m'.host.print (freshLine m' ++ lineReport f n text)) ∧
      (m'.scopes ≠ m.scopes →
        m.scopes.inLockstep = false ∧ m₁.scopes = m.scopes.enterCode.2 ∧
          m₁.host = m'.host.print (freshLine m' ++ "?" ++ f.kind.text ++ "\n")) := by
  obtain ⟨j, rfl⟩ := Nat.exists_eq_add_of_lt hfuel
  have hstep : step m = .error f m' := by
    rw [step_of_statement hlexed htokens, hfault, afterStatement]
  have hreport : enter (k + j + 1) line m₀ = (.failed, report f m') := by
    rw [Nat.add_assoc, hm.enter_eq, execute_succ, hstep, settle]
  have hscoped := hm.wellScoped
  obtain ⟨hunlocated, hplace⟩ := inPlace_or_entered_of_fault hscoped hlexed hfault
  refine ⟨report f m', hreport, hunlocated, ?_, ?_⟩
  · intro hscopes hf
    rcases hplace with hplace | ⟨-, hentered⟩
    · obtain ⟨hline, hlisted⟩ := hlexed.of_inPlace hscoped hplace
      have hrunning : inRunningLine m' f = true := by simp [inRunningLine, hf, hline, hn]
      constructor
      · rw [report, hrunning, if_pos rfl, hscopes]
        exact hscoped.paired.reset_eq
      · rw [report, faultReport_of_line hf hn hline hlisted]
    · exact absurd hscopes hentered.scopes_ne
  · intro hscopes
    rcases hplace with hplace | ⟨hf, hentered⟩
    · exact absurd hplace.scopes hscopes
    · have hrunning : inRunningLine m' f = false := by
        simp [inRunningLine, hentered.pc, ProgramCounter.atEnd]
      refine ⟨hentered.ahead, ?_, ?_⟩
      · rw [scopes_report hrunning]
        exact hentered.scopes
      · rw [report, faultReport_of_end hf hentered.pc]

def failure? {α : Type} : EStateM.Result Fault Machine α → Option (Fault × Machine)
  | .ok .. => none
  | .error f m => some (f, m)

theorem eq_error_of_failure? {α : Type} {r : EStateM.Result Fault Machine α} {f : Fault}
    {m : Machine} (h : failure? r = some (f, m)) : r = .error f m := by
  cases r with
  | ok => cases h
  | error => cases h; rfl

/-- A fault in a module that another one has entered. -/
theorem fault_report_names_line_of_module :
    let m₀ := enterAll 9 ["MODULE LIB", "10 NEXT", "END", "10 MODULE LIB: GOTO 10"] {}
    ∃ m m' m₁, Underway m₀ "RUN" 3 m ∧ m.scopes = ⟨[1, 0], [1, 0]⟩ ∧
      Statement.run [.word .NEXT] (begun 10 [.word .NEXT] 4 m) =
        .error (.plain .nextWithoutFor) m' ∧
      enter 9 "RUN" m₀ = (.failed, m₁) ∧ m₁.scopes = {} ∧
      m₁.host = m'.host.print "?NEXT WITHOUT FOR ERROR IN 10\n10  NEXT\n" := by
  intro m₀
  have hstart : Underway m₀ "RUN" 0 _ :=
    .prepared (Waiting.enterAll 9 _) (by decide +kernel) (by decide +kernel) (by decide +kernel)
  obtain ⟨m, hm, hscopes, hline, ⟨f, m'⟩, hfailure, hf, hscopes', hcolumn⟩ :
      ∃ m, ongoing 3 (prepare (normalLine "RUN") { m₀ with exitCode := none }) = some m ∧
        m.scopes = ⟨[1, 0], [1, 0]⟩ ∧ Lexed m 10 "NEXT" [.word .NEXT] 4 ∧
        ∃ e, failure? (Statement.run [.word .NEXT] (begun 10 [.word .NEXT] 4 m)) = some e ∧
          e.1 = .plain .nextWithoutFor ∧ e.2.scopes = ⟨[1, 0], [1, 0]⟩ ∧ e.2.column = 0 := by
    decide +kernel
  obtain rfl : f = .plain .nextWithoutFor := hf
  have hfault := eq_error_of_failure? hfailure
  have hunder := hstart.ongoing hm
  obtain ⟨m₁, henter, -, hreport, -⟩ :=
    fault_report_names_line hunder hline (by simp) (by decide) hfault (by decide : 0 + 3 < 9)
  obtain ⟨hroot, hhost⟩ := hreport (by rw [hscopes', hscopes]) rfl
  refine ⟨m, m', m₁, hunder, hscopes, hfault, henter, hroot, ?_⟩
  have htext : freshLine m' ++ lineReport (.plain .nextWithoutFor) 10 "NEXT" =
      "?NEXT WITHOUT FOR ERROR IN 10\n10  NEXT\n" := by
    rw [freshLine, hcolumn]
    decide +kernel
  rw [hhost, htext]

/-- A jump to a line that is missing in the module it enters: the module stays entered, and the
report does not name the line of the jump. -/
theorem missed_jump_into_module_is_reported_without_line :
    let m := enterAll 9 ["10 MODULE M: GOTO 99", "RUN"] {}
    m.scopes = ⟨[1, 0], [1, 0]⟩ ∧ m.host.printedSince 0 = "?UNDEF'D STATEMENT ERROR\n" := by
  decide +kernel

end Session

end LineBasic
