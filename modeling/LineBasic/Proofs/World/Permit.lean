import LineBasic.Proofs.World.Command
import LineBasic.Proofs.World.Statement

/-!
# Permits

`PRINT #` prints to a file, and nothing of it reaches the screen. A statement has the permits of the
command that it comes to, or of the file that it prints to, and does no more than they allow.
-/

set_option autoImplicit false

namespace LineBasic

open Run

structure Machine.Filed (n : Nat) (name text : String) (m m' : Machine) : Prop where
  host : m'.host = m.host
  column : m'.column = m.column
  printFile : m'.printFile = m.printFile
  files : ∃ more, m'.files = m.files.insert n (.writing name (text ++ more))

def Effect.filing (n : Nat) : Effect where
  Leads m m' := m'.registry = m.registry ∧ ∀ name text, m.printFile = some n →
    m.files.get? n = some (.writing name text) → m.Filed n name text m'
  refl m := by
    refine ⟨rfl, fun name text _ hfile => ⟨rfl, rfl, rfl, "", Table.ext_get? fun k => ?_⟩⟩
    rw [String.append_empty, Table.get?_insert]
    split
    · rename_i hk
      rw [hk, hfile]
    · rfl
  trans {m m₁ m₂} h h' := by
    refine ⟨h'.1.trans h.1, fun name text hprint hfile => ?_⟩
    have hfirst := h.2 name text hprint hfile
    obtain ⟨more, hmore⟩ := hfirst.files
    have hthen := h'.2 name (text ++ more) (hfirst.printFile.trans hprint) (by simp [hmore])
    obtain ⟨more', hmore'⟩ := hthen.files
    refine ⟨hthen.host.trans hfirst.host, hthen.column.trans hfirst.column,
      hthen.printFile.trans hfirst.printFile, more ++ more', Table.ext_get? fun k => ?_⟩
    rw [hmore', hmore, Table.get?_insert, Table.get?_insert, Table.get?_insert, String.append_assoc]
    split <;> rfl
  registry h := h.1

theorem Effect.evaluation_le_filing (n : Nat) : Effect.evaluation ≤ .filing n := by
  intro m m' h
  have hworld := h.sameWorld
  have hsame := (Effect.filing n).refl m
  refine ⟨hworld.registry, fun name text hprint hfile => ?_⟩
  obtain ⟨more, hmore⟩ := (hsame.2 name text hprint hfile).files
  exact ⟨hworld.host, hworld.column, hworld.printFile, more, hworld.files.trans hmore⟩

namespace Statement

theorem filing_print (n : Nat) (text : String) : Obeys (.filing n) (Run.print text) := by
  refine fun m => obeysAt_modify ⟨m.registry_print text, fun name old hprint hfile => ?_⟩
  rw [Machine.print_of_file hprint hfile]
  exact ⟨rfl, rfl, rfl, text, rfl⟩

theorem filing_printList (n : Nat) (tokens : List Token) :
    Follows (.filing n) (printList tokens) := by
  have evaluated {α : Type} {x : Run α} (h : Obeys .evaluation x) : Follows (.filing n) x :=
    (h.mono (Effect.evaluation_le_filing n)).follows
  have printed (item : Item) : Obeys (.filing n) (printItem item) :=
    obeys_get.bind fun _ => filing_print n _
  have lineEnd (items : List Item) :
      Follows (.filing n) (if endsLine items then Run.print "\n" else pure ()) :=
    .ite (filing_print n _).follows (follows_pure _)
  rw [printList.eq_def]
  split
  · refine (evaluated (obeys_evaluateAll _)).bind fun items => ?_
    split
    · simp
    · exact (follows_liftM _).bind fun text => (filing_print n text).follows.bind fun _ => lineEnd _
    · simp
  · refine Follows.bind ?_ fun _ => .ite (follows_throw _) (lineEnd _)
    exact (obeys_evaluateEmitting (Effect.evaluation_le_filing n) printed _).follows

/-- A machine after printing is as it was when it had printed, but prints to its screen. -/
theorem final_printingTo (file : Option Nat) {α : Type} (act : Run α) (m : Machine) :
    (printingTo file act).final m =
      { act.final { m with printFile := file } with printFile := none } := by
  rw [final, final, printingTo]
  cases act { m with printFile := file } <;> rfl

theorem filed_print {digits : String} (rest : List Token) {n : Nat} {m : Machine}
    {name text : String} (hn : handleOf digits = .ok n)
    (hfile : m.files.get? n = some (.writing name text)) :
    (print (.fileHandle digits :: rest)).final m =
      { (printList (afterHandle rest)).final { m with printFile := some n } with
        printFile := none } ∧
      Machine.Filed n name text { m with printFile := some n }
        ((printList (afterHandle rest)).final { m with printFile := some n }) := by
  refine ⟨?_, (filing_printList n _ { m with printFile := some n }).2 name text rfl hfile⟩
  rw [← final_printingTo, final, final, print, hn, liftM_ok, pure_bind_run, get_bind, hfile]

variable {p : Permit → Prop}

theorem does_printList (tokens : List Token) : Does p (printList tokens) := by
  have printed (item : Item) : Obeys (.deeds p) (printItem item) :=
    obeys_get.bind fun _ m => obeysAt_modify (m.leads_print _)
  rw [printList.eq_def]
  split
  · refine (does_evaluateAll _).bind fun items => ?_
    split
    · simp
    · exact (follows_liftM _).bind fun text => (does_print text).bind fun _ =>
        .ite (does_print _) (follows_pure _)
    · simp
  · refine (obeys_evaluateEmitting Effect.evaluation_le_deeds printed _).follows.bind fun _ => ?_
    exact .ite (follows_throw _) (.ite (does_print _) (follows_pure _))

theorem print_file_cases (digits : String) (rest : List Token) (m : Machine) :
    (print (.fileHandle digits :: rest)).final m = m ∨
      ∃ n name text, handleOf digits = .ok n ∧ m.files.get? n = some (.writing name text) := by
  cases hn : handleOf digits with
  | error f =>
    rw [final, print, hn]
    exact .inl rfl
  | ok n =>
    rw [final, print, hn, liftM_ok, pure_bind_run, get_bind]
    cases hfile : m.files.get? n with
    | none => exact .inl rfl
    | some file =>
      cases file with
      | reading lines => exact .inl rfl
      | writing name text => exact .inr ⟨n, name, text, rfl, hfile⟩

/-- What is printed to a file reaches neither the screen nor another file. -/
theorem print_file_spares (digits : String) (rest : List Token) (m : Machine) :
    let m' := (print (.fileHandle digits :: rest)).final m
    m'.host = m.host ∧ m'.column = m.column ∧
      ∀ k, handleOf digits ≠ .ok k → m'.files.get? k = m.files.get? k := by
  rcases print_file_cases digits rest m with hsame | ⟨n, name, text, hn, hfile⟩
  · rw [hsame]
    exact ⟨rfl, rfl, fun _ _ => rfl⟩
  · obtain ⟨hfinal, hfiled⟩ := filed_print rest hn hfile
    obtain ⟨more, hmore⟩ := hfiled.files
    rw [hfinal]
    refine ⟨hfiled.host, hfiled.column, fun k hk => ?_⟩
    rw [hmore, Table.get?_insert, if_neg]
    rintro rfl
    exact hk hn

theorem does_print_file {digits : String} (h : ∀ n, handleOf digits = .ok n → p (.printTo n))
    (rest : List Token) : Does p (print (.fileHandle digits :: rest)) := by
  intro m
  refine ⟨(calm_print _ m).calm.registry, fun hscreen => ?_⟩
  rcases print_file_cases digits rest m with hsame | ⟨n, name, text, hn, hfile⟩
  · rw [hsame]
  · obtain ⟨hfinal, hfiled⟩ := filed_print rest hn hfile
    obtain ⟨more, hmore⟩ := hfiled.files
    refine .tail (.single (.filed n name text more hfile (h n hn))) (.inward ?_)
    rw [hfinal]
    exact ⟨hfiled.host, hmore, hscreen.symm, hfiled.column, (filing_printList n _ _).1⟩

theorem does_print_screen {tokens : List Token}
    (h : ∀ digits rest, tokens ≠ .fileHandle digits :: rest) : Does p (print tokens) := by
  intro m
  have hprint : print tokens = printingTo none (printList tokens) := by
    rw [print.eq_def]
    split
    · exact absurd rfl (h _ _)
    · rfl
  obtain ⟨hregistry, hdeeds⟩ := does_printList (p := p) tokens { m with printFile := none }
  rw [FollowsAt, hprint, final_printingTo]
  refine ⟨hregistry, fun hscreen => ?_⟩
  have hm : { m with printFile := none } = m := by rw [← hscreen]
  have hdone := hdeeds rfl
  have hnone : ({ (printList tokens).final m with printFile := none } : Machine) =
      (printList tokens).final m := by
    have hkept := hdone.keeps.1
    rw [hm] at hkept
    rw [← hscreen, ← hkept]
  rw [hm] at hdone ⊢
  rw [hnone]
  exact hdone

/-- A statement comes to one other statement at most, if it does not stop at a condition. -/
theorem ComesTo.unique {tokens tokens₁ tokens₂ : List Token} {m m₁ m₂ : Machine}
    (h₁ : ComesTo tokens m tokens₁ m₁) (h₂ : ComesTo tokens m tokens₂ m₂)
    (hif₁ : ∀ rest, tokens₁ ≠ .word .IF :: rest) (hif₂ : ∀ rest, tokens₂ ≠ .word .IF :: rest) :
    tokens₁ = tokens₂ ∧ m₁ = m₂ := by
  induction h₁ with
  | here tokens m =>
    cases h₂ with
    | here => exact ⟨rfl, rfl⟩
    | behindThen => exact absurd rfl (hif₁ _)
  | behindThen hcondition hthen _ _ ih =>
    cases h₂ with
    | here => exact absurd rfl (hif₂ _)
    | behindThen hcondition' hthen' _ h₂ =>
      rw [hcondition] at hcondition'
      cases hcondition'
      rw [hthen] at hthen'
      cases hthen'
      exact ih h₂ hif₁

/-- The permit that a statement is written for: that of its command, or of the file that it reads
from or prints to. -/
inductive Permits : List Token → Machine → Permit → Prop
  | wait {name : String} {rest : List Token} {m : Machine}
      (hname : m.registry.commands.get? name = some (.builtin .SLEEP)) :
      Permits (.command name :: rest) m .wait
  | openFile {name : String} {rest : List Token} {m : Machine}
      (hname : m.registry.commands.get? name = some (.builtin .OPEN)) :
      Permits (.command name :: rest) m .openFile
  | closeFile {name : String} {rest : List Token} {m m' : Machine} {items : List Item} {n : Nat}
      (hname : m.registry.commands.get? name = some (.builtin .CLOSE))
      (hitems : evaluateAll rest m = .ok items m')
      (hn : BuiltinCommand.closedHandle items = .ok n) :
      Permits (.command name :: rest) m (.closeFile n)
  | readFrom {digits : String} {n : Nat} (hn : handleOf digits = .ok n) (rest : List Token)
      (m : Machine) : Permits (.word .INPUT :: .fileHandle digits :: rest) m (.readFrom n)
  | printTo {digits : String} {n : Nat} (hn : handleOf digits = .ok n) (rest : List Token)
      (m : Machine) : Permits (.word .PRINT :: .fileHandle digits :: rest) m (.printTo n)

def Permitted (tokens : List Token) (m : Machine) (permit : Permit) : Prop :=
  ∃ tokens' m', ComesTo tokens m tokens' m' ∧ Permits tokens' m' permit

variable {tokens : List Token} {m : Machine} {l l' : Permit}

theorem Permits.permitted (h : Permits tokens m l) : Permitted tokens m l :=
  ⟨tokens, m, .here tokens m, h⟩

theorem Permitted.of_comesTo {tokens' : List Token} {m' : Machine}
    (hcomes : ComesTo tokens m tokens' m') (h : Permitted tokens' m' l) : Permitted tokens m l := by
  obtain ⟨tokens'', m'', h, hpermits⟩ := h
  exact ⟨tokens'', m'', hcomes.trans h, hpermits⟩

theorem Permits.unique (h : Permits tokens m l) (h' : Permits tokens m l') : l = l' := by
  cases h with
  | wait hname =>
    cases h' with
    | wait => rfl
    | openFile hname' | closeFile hname' =>
      rw [hname] at hname'
      cases hname'
  | openFile hname =>
    cases h' with
    | openFile => rfl
    | wait hname' | closeFile hname' =>
      rw [hname] at hname'
      cases hname'
  | closeFile hname hitems hn =>
    cases h' with
    | wait hname' | openFile hname' =>
      rw [hname] at hname'
      cases hname'
    | closeFile _ hitems' hn' =>
      rw [hitems] at hitems'
      cases hitems'
      exact congrArg Permit.closeFile (Except.ok.inj (hn.symm.trans hn'))
  | readFrom hn =>
    cases h' with
    | readFrom hn' => exact congrArg Permit.readFrom (Except.ok.inj (hn.symm.trans hn'))
  | printTo hn =>
    cases h' with
    | printTo hn' => exact congrArg Permit.printTo (Except.ok.inj (hn.symm.trans hn'))

theorem Permitted.unique (h : Permitted tokens m l) (h' : Permitted tokens m l') : l = l' := by
  obtain ⟨tokens₁, m₁, hcomes, hpermits⟩ := h
  obtain ⟨tokens₂, m₂, hcomes', hpermits'⟩ := h'
  have hend {tokens : List Token} {m : Machine} {l : Permit} (h : Permits tokens m l) :
      ∀ rest, tokens ≠ .word .IF :: rest := by
    cases h <;> simp
  obtain ⟨rfl, rfl⟩ := hcomes.unique hcomes' (hend hpermits) (hend hpermits')
  exact hpermits.unique hpermits'

theorem does_input (rest : List Token) (m : Machine) :
    FollowsAt (.deeds (Permitted (.word .INPUT :: rest) m)) m (input rest) := by
  rcases rest with _ | ⟨t, ts⟩
  · exact does_input_typed (by simp) m
  · cases t with
    | fileHandle digits =>
      exact does_input_file (fun n hn => (Permits.readFrom hn ts m).permitted) ts m
    | _ => exact does_input_typed (by simp) m

theorem does_print (rest : List Token) (m : Machine) :
    FollowsAt (.deeds (Permitted (.word .PRINT :: rest) m)) m (print rest) := by
  rcases rest with _ | ⟨t, ts⟩
  · exact does_print_screen (by simp) m
  · cases t with
    | fileHandle digits =>
      exact does_print_file (fun n hn => (Permits.printTo hn ts m).permitted) ts m
    | _ => exact does_print_screen (by simp) m

theorem does_runCommand (name : String) (rest : List Token) (m : Machine) :
    FollowsAt (.deeds (Permitted (.command name :: rest) m)) m (runCommand name rest) := by
  refine followsAt_of_get ?_
  split
  · exact follows_throw _ m
  · rename_i c hc
    refine (does_evaluateAll rest m).bind fun items m₁ hitems => ?_
    cases c with
    | builtin c =>
      refine c.does_run items ?_ ?_ ?_ m₁
      · rintro rfl
        exact (Permits.wait hc).permitted
      · rintro rfl
        exact (Permits.openFile hc).permitted
      · rintro rfl n hn
        exact (Permits.closeFile hc hitems hn).permitted
    | added text => exact (follows_liftM _).bind (fun out => Run.does_print out) m₁

theorem does_run (tokens : List Token) (m : Machine) :
    FollowsAt (.deeds (Permitted tokens m)) m (run tokens) := by
  rw [run.eq_def]
  split
  · exact follows_pure _ m
  · exact does_runCommand _ _ m
  · exact does_assign _ m
  · exact does_assign _ m
  · rename_i w rest
    cases w with
    | IF =>
      suffices hif : FollowsAt (.deeds (Permitted (.word .IF :: rest) m)) m
          (run (.word .IF :: rest)) by
        rw [run.eq_def] at hif
        exact hif
      have hcondition : Does (Permitted (.word .IF :: rest) m) (condition rest) := by
        refine (does_evaluate rest).bind fun _ => (follows_liftM _).bind fun _ => ?_
        simp
      have hjump (tokens : List Token) :
          Does (Permitted (.word .IF :: rest) m) (do jumpTo (← lineArgument tokens)) :=
        (does_lineArgument tokens).bind fun n => does_jumpTo n
      refine run_if (fun f => (hcondition m).bind) does_skipLine (fun _ m₁ _ _ _ => hjump _ m₁)
        (fun _ m₁ _ _ _ => hjump _ m₁) (fun more m₁ hlength hcomes => ?_) (follows_fail _ _)
      exact (does_run more m₁).mono (Effect.deeds_mono fun _ => .of_comesTo hcomes)
    | CLR => exact does_updateVariableModule _ m
    | DATA | REM => exact follows_pure _ m
    | DEF => exact does_define rest m
    | DELETE => exact does_delete rest m
    | DIM => exact does_dim rest m
    | DUMP => exact follows_get.bind (fun _ => Run.does_print _) m
    | END => exact does_endModule m
    | FOR => exact does_beginLoop rest m
    | GET => exact does_getKey false rest m
    | GETKEY => exact does_getKey true rest m
    | GOSUB => exact (does_lineArgument rest).bind (fun n => does_callLine n) m
    | GOTO => exact (does_lineArgument rest).bind (fun n => does_jumpTo n) m
    | INPUT => exact does_input rest m
    | LET => exact does_assign rest m
    | LIST => exact does_list rest m
    | MODULE =>
      change FollowsAt _ m (enterModule rest)
      have named (name : String) : Does (Permitted (.word .MODULE :: rest) m) (do
          let id ← ensureModule name
          modify fun m => { m with scopes := m.scopes.enterVariables id }) :=
        (does_ensureModule name).bind fun _ => does_inward fun _ => ⟨rfl, rfl, rfl, rfl, rfl⟩
      rw [enterModule.eq_def]
      split
      · exact named _ m
      · exact named _ m
      · exact follows_fail _ _ m
    | NEW => exact does_new m
    | NEXT => exact does_endLoop rest m
    | ON => exact does_onSelector rest m
    | PRINT => exact does_print rest m
    | READ => exact does_read rest m
    | RESTORE => exact does_restore rest m
    | RETURN => exact does_returnFromCall m
    | RUN => exact does_runProgram rest m
    | SCNCLR => exact (Machine.Deed.cleared).leads
    | FN | STEP | THEN | TO | USING => exact follows_throw _ m
  · exact follows_throw _ m
termination_by tokens.length
decreasing_by
  subst_vars
  exact Nat.lt_succ_of_lt hlength

end Statement

end LineBasic
