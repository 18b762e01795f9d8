import LineBasic.Proofs.Act.Statement
import LineBasic.Proofs.Blind

/-!
# Programs without typed text

Typed text is kept beside the program, but what deals with the program does not see it. A statement
that lists, finds, saves, reads or jumps does the same on a machine from which all typed text is
taken away: it gives the same answer or the same fault, and leaves the same machine, again without
the typed text.
-/

set_option autoImplicit false

namespace LineBasic

open Run

namespace Listing

def untyped (l : Listing) : Listing := ⟨l.lines.filterKeys fun n => decide (0 ≤ n)⟩

theorem get?_untyped {l : Listing} {n : LineNumber} (hn : 0 ≤ n) :
    l.untyped.get? n = l.get? n := by
  rw [untyped, get?, Table.get?_filterKeys, if_pos (by simpa using hn)]
  rfl

theorem range_untyped (l : Listing) (first last : LineNumber) :
    l.untyped.range first last = l.range first last := by
  change (l.lines.entries.filter fun e => decide (0 ≤ e.1)).filter _ = _
  rw [List.filter_filter]
  refine List.filter_congr fun e _ => ?_
  cases h : inRange first last e.1 with
  | false => rfl
  | true =>
    simp only [inRange, Bool.and_eq_true, decide_eq_true_eq] at h
    simp [h.1.1]

theorem firstFrom?_untyped (l : Listing) (n : LineNumber) :
    l.untyped.firstFrom? n = l.firstFrom? n := by
  change ((l.lines.entries.filter fun e => decide (0 ≤ e.1)).map (·.1)).find? _ =
    (l.lines.entries.map (·.1)).find? _
  rw [List.find?_map, List.find?_map, List.find?_filter]
  congr 2
  funext e
  by_cases h : 0 ≤ e.1 <;> simp [h]

theorem toText_untyped (l : Listing) : l.untyped.toText = l.toText := by
  rw [toText, toText, program, program, range_untyped]

end Listing

def Module.untyped (mod : Module) : Module := { mod with listing := mod.listing.untyped }

@[simp] theorem Module.pc_untyped (mod : Module) : mod.untyped.pc = mod.pc := rfl

@[simp] theorem Module.loops_untyped (mod : Module) : mod.untyped.loops = mod.loops := rfl

@[simp] theorem Module.gosubs_untyped (mod : Module) : mod.untyped.gosubs = mod.gosubs := rfl

@[simp] theorem Module.data_untyped (mod : Module) : mod.untyped.data = mod.data := rfl

theorem Statement.isTarget_untyped (mod : Module) (n : LineNumber) :
    isTarget mod.untyped n = isTarget mod n := by
  rw [isTarget, isTarget]
  by_cases hn : 0 ≤ n
  · have hget : mod.untyped.listing.contains n = mod.listing.contains n :=
      congrArg Option.isSome (Listing.get?_untyped hn)
    rw [hget]
  · simp [hn]

namespace Machine

def untyped (m : Machine) : Machine := { m with modules := m.modules.map Module.untyped }

theorem moduleAt_untyped (m : Machine) (id : ModuleId) :
    m.untyped.moduleAt id = (m.moduleAt id).untyped := by
  change (m.modules.map Module.untyped).getD id (.named "") =
    (m.modules.getD id (.named "")).untyped
  rw [List.getD_eq_getElem?_getD, List.getD_eq_getElem?_getD, List.getElem?_map]
  cases m.modules[id]? <;> rfl

theorem updateModule_untyped (m : Machine) (id : ModuleId) {f : Module → Module}
    (hf : ∀ mod, (f mod).untyped = f mod.untyped) :
    (m.updateModule id f).untyped = m.untyped.updateModule id f := by
  have hmodules : (m.modules.modify id f).map Module.untyped =
      (m.modules.map Module.untyped).modify id f := by
    apply List.ext_getElem?
    intro j
    rw [List.getElem?_map, List.getElem?_modify, List.getElem?_modify, List.getElem?_map]
    cases m.modules[j]? with
    | none => rfl
    | some mod =>
      by_cases hid : id = j
      · simp [hid, hf]
      · simp [hid]
  rw [untyped, updateModule, hmodules]
  rfl

theorem moduleNamed?_untyped (m : Machine) (name : String) :
    m.untyped.moduleNamed? name = m.moduleNamed? name := by
  have hnames : (m.modules.map Module.untyped).map (·.name) = m.modules.map (·.name) := by
    rw [List.map_map]
    rfl
  change (Table.ofList (((m.modules.map Module.untyped).map (·.name)).zipIdx)).get? name = _
  rw [hnames]
  rfl

theorem print_untyped (m : Machine) (text : String) :
    (m.print text).untyped = m.untyped.print text := by
  cases hprint : m.printFile with
  | none => simp only [print, untyped, hprint]
  | some n =>
    rcases hfile : m.files.get? n with _ | (_ | _)
    · simp only [print, untyped, hprint, hfile]
    · simp only [print, untyped, hprint, hfile]
    · simp only [print, untyped, hprint, hfile]

end Machine

def Module.ReadsProgram (mod : Module) : Prop := ∀ n, mod.data.line = some n → 0 ≤ n

structure Untyped (m m' : Machine) : Prop where
  eq : m' = m.untyped
  data : ∀ id, (m.moduleAt id).ReadsProgram

namespace Untyped

variable {m m' : Machine}

/-- What is done to the world is done on both machines. -/
theorem world (h : Untyped m m') {f : Machine → Machine}
    (hf : (f m).untyped = f m.untyped) (hmodules : (f m).modules = m.modules) :
    Untyped (f m) (f m') where
  eq := by rw [h.eq, hf]
  data id := by
    rw [Machine.moduleAt, hmodules]
    exact h.data id

theorem update (h : Untyped m m') (id : ModuleId) {f : Module → Module}
    (hf : ∀ mod, (f mod).untyped = f mod.untyped)
    (hdata : ∀ mod : Module, mod.ReadsProgram → (f mod).ReadsProgram) :
    Untyped (m.updateModule id f) (m'.updateModule id f) where
  eq := by rw [h.eq, m.updateModule_untyped id hf]
  data j := by
    rw [Machine.moduleAt_updateModule]
    split
    · exact hdata _ (h.data j)
    · exact h.data j

theorem setScopes (h : Untyped m m') (scopes : Scopes) :
    Untyped { m with scopes } { m' with scopes } :=
  h.world (f := fun m => { m with scopes }) rfl rfl

theorem scopes (h : Untyped m m') : m'.scopes = m.scopes := by rw [h.eq]; rfl

theorem moduleAt (h : Untyped m m') (id : ModuleId) :
    m'.moduleAt id = (m.moduleAt id).untyped := by
  rw [h.eq, m.moduleAt_untyped]

theorem codeModule (h : Untyped m m') : m'.codeModule = m.codeModule.untyped := by
  rw [Machine.codeModule, h.scopes, h.moduleAt]
  rfl

theorem variableModule (h : Untyped m m') : m'.variableModule = m.variableModule.untyped := by
  rw [Machine.variableModule, h.scopes, h.moduleAt]
  rfl

theorem host (h : Untyped m m') : m'.host = m.host := by rw [h.eq]; rfl

theorem enterCode (h : Untyped m m') :
    m'.enterCode.1 = m.enterCode.1 ∧ Untyped m.enterCode.2 m'.enterCode.2 := by
  cases hlevel : m.scopes.inLockstep with
  | true =>
    have hlevel' : m'.scopes.inLockstep = true := by rw [h.scopes, hlevel]
    rw [Machine.enterCode_of_inLockstep hlevel, Machine.enterCode_of_inLockstep hlevel']
    exact ⟨rfl, h⟩
  | false =>
    have hlevel' : m'.scopes.inLockstep = false := by rw [h.scopes, hlevel]
    rw [Machine.enterCode_of_ahead hlevel, Machine.enterCode_of_ahead hlevel', h.scopes]
    exact ⟨rfl, (h.setScopes _).update _ (fun _ => rfl) fun _ hdata => hdata⟩

theorem endModule (h : Untyped m m') : Untyped m.endModule m'.endModule := by
  cases hlevel : m.scopes.inLockstep with
  | true =>
    have hlevel' : m'.scopes.inLockstep = true := by rw [h.scopes, hlevel]
    rw [Machine.endModule_of_inLockstep hlevel, Machine.endModule_of_inLockstep hlevel', h.scopes]
    exact (h.setScopes _).update _ (fun _ => rfl) fun _ hdata => hdata
  | false =>
    have hlevel' : m'.scopes.inLockstep = false := by rw [h.scopes, hlevel]
    rw [Machine.endModule_of_ahead hlevel, Machine.endModule_of_ahead hlevel', h.scopes]
    exact h.setScopes _

theorem ensureModule (h : Untyped m m') (name : String) :
    (m'.ensureModule name).1 = (m.ensureModule name).1 ∧
      Untyped (m.ensureModule name).2 (m'.ensureModule name).2 := by
  have hnamed : m'.moduleNamed? name = m.moduleNamed? name := by
    rw [h.eq, m.moduleNamed?_untyped]
  have hlength : m'.modules.length = m.modules.length := by
    rw [h.eq]
    exact List.length_map _
  cases hname : m.moduleNamed? name with
  | some id =>
    simp only [Machine.ensureModule, hnamed, hname]
    exact ⟨trivial, h⟩
  | none =>
    simp only [Machine.ensureModule, hnamed, hname, hlength]
    refine ⟨trivial, ?_, fun id => ?_⟩
    · rw [h.eq]
      simp only [Machine.untyped, List.map_append]
      rfl
    · have hensured := m.moduleAt_ensureModule name id
      simp only [Machine.ensureModule, hname] at hensured
      rcases hensured with hid | ⟨-, hid⟩
      · rw [hid]
        exact h.data id
      · rw [hid]
        intro n hn
        cases hn

theorem unseen : Unseen Untyped where
  scopes h := h.scopes
  registry h := by rw [h.eq]; rfl
  memory h := by rw [h.eq]; rfl
  column h := by rw [h.eq]; rfl
  dice h := by rw [h.eq]; rfl
  random h := by rw [h.eq]; rfl
  named h name := by rw [h.eq, Machine.moduleNamed?_untyped]
  vars h id := by rw [h.moduleAt]; rfl
  functions h id := by rw [h.moduleAt]; rfl
  setVars h id f := h.update id (fun _ => rfl) fun _ hdata => hdata
  setDice h dice := h.world (f := fun m => { m with dice }) rfl rfl

theorem blind_world {f : Machine → Machine} (hf : ∀ m, (f m).untyped = f m.untyped)
    (hmodules : ∀ m, (f m).modules = m.modules) : Blind Untyped (modify f) :=
  fun m _ h => .of_modify (h.world (hf m) (hmodules m))

theorem blind_updateCodeModule {f : Module → Module}
    (hf : ∀ mod, (f mod).untyped = f mod.untyped)
    (hdata : ∀ mod : Module, mod.ReadsProgram → (f mod).ReadsProgram) :
    Blind Untyped (updateCodeModule f) := by
  refine fun m m' h => .of_modify ?_
  rw [Machine.updateCodeModule, Machine.updateCodeModule, h.scopes]
  exact h.update _ hf hdata

theorem blind_updateVariableModule {f : Module → Module}
    (hf : ∀ mod, (f mod).untyped = f mod.untyped)
    (hdata : ∀ mod : Module, mod.ReadsProgram → (f mod).ReadsProgram) :
    Blind Untyped (updateVariableModule f) := by
  refine fun m m' h => .of_modify ?_
  rw [Machine.updateVariableModule, Machine.updateVariableModule, h.scopes]
  exact h.update _ hf hdata

theorem blind_enterCode : Blind Untyped Run.enterCode := by
  intro m m' h
  obtain ⟨hentered, huntyped⟩ := h.enterCode
  change Alike _ (.ok m.enterCode.1 m.enterCode.2) (.ok m'.enterCode.1 m'.enterCode.2)
  rw [hentered]
  exact .ok _ huntyped

theorem blind_endModule : Blind Untyped Run.endModule := fun _ _ h => .of_modify h.endModule

theorem blind_ensureModule (name : String) : Blind Untyped (Run.ensureModule name) := by
  intro m m' h
  obtain ⟨hid, huntyped⟩ := h.ensureModule name
  change Alike _ (.ok (m.ensureModule name).1 (m.ensureModule name).2)
    (.ok (m'.ensureModule name).1 (m'.ensureModule name).2)
  rw [hid]
  exact .ok _ huntyped

theorem blind_print (text : String) : Blind Untyped (print text) := by
  refine blind_world (fun m => m.print_untyped text) fun m => ?_
  rw [Machine.print]
  split
  · split <;> rfl
  · rfl

theorem blind_setHost (host : Host) : Blind Untyped (modify fun m => { m with host }) :=
  blind_world (fun _ => rfl) fun _ => rfl

theorem blind_checkBreak : Blind Untyped checkBreak := by
  refine fun m m' h => .of_get ?_
  rw [h.host]
  exact (blind_setHost _).bind (fun _ => .ite (blind_throw _) (blind_pure _)) m m' h

theorem blind_readLine : Blind Untyped readLine := by
  refine fun m m' h => .of_get ?_
  rw [h.host]
  refine (blind_setHost _).bind (fun _ => (blind_liftM _).bind fun line => ?_) m m' h
  exact (blind_world (fun _ => by rfl) fun _ => by rfl).bind fun _ => blind_pure _

theorem blind_printLines (lines : List String) : Blind Untyped (printLines lines) := by
  induction lines with
  | nil => exact blind_pure ()
  | cons line lines ih => exact blind_checkBreak.bind fun _ => (blind_print _).bind fun _ => ih

theorem blind_list (tokens : List Token) : Blind Untyped (Statement.list tokens) := by
  refine (blind_liftM _).bind fun range m m' h => .of_get ?_
  have hrange : m.variableModule.untyped.listing.range range.1 range.2 =
      m.variableModule.listing.range range.1 range.2 := Listing.range_untyped _ _ _
  rw [h.variableModule, hrange]
  exact blind_printLines _ m m' h

theorem blind_find (items : List Item) : Blind Untyped (BuiltinCommand.find items) := by
  refine (blind_liftM _).bind fun v => ?_
  cases v with
  | text pattern =>
    refine fun m m' h => .of_get ?_
    have hprogram : m.variableModule.untyped.listing.program = m.variableModule.listing.program :=
      Listing.range_untyped _ _ _
    rw [h.variableModule, hprogram]
    exact blind_printLines _ m m' h
  | _ => exact blind_throw _

theorem blind_writeFile (name text : String) :
    Blind Untyped (BuiltinCommand.writeFile name text) :=
  blind_world (fun _ => rfl) fun _ => rfl

theorem blind_confirmed (name : String) : Blind Untyped (BuiltinCommand.confirmed name) := by
  refine fun m m' h => .of_get ?_
  rw [h.host]
  refine Blind.ite (blind_pure _) ((blind_print _).bind fun _ => ?_) m m' h
  exact blind_readLine.bind fun _ => blind_pure _

theorem blind_save (items : List Item) : Blind Untyped (BuiltinCommand.save items) := by
  refine (blind_liftM _).bind fun v => (blind_liftM _).bind fun name => ?_
  refine (blind_confirmed name).bind fun yes => .ite ?_ (blind_pure _)
  refine .bind (blind_updateVariableModule (fun _ => by rfl) fun _ h => by exact h) fun _ => ?_
  refine fun m m' h => .of_get ?_
  have htext : m.variableModule.untyped.listing.toText = m.variableModule.listing.toText :=
    m.variableModule.listing.toText_untyped
  rw [h.variableModule, htext]
  exact blind_writeFile _ _ m m' h

theorem blind_saveAgain (items : List Item) : Blind Untyped (BuiltinCommand.saveAgain items) := by
  refine (blind_liftM _).bind fun _ m m' h => .of_get ?_
  have htext : m.variableModule.untyped.listing.toText = m.variableModule.listing.toText :=
    m.variableModule.listing.toText_untyped
  have hname : m.variableModule.untyped.fileName = m.variableModule.fileName := rfl
  dsimp only
  rw [h.variableModule, htext, hname]
  cases m.variableModule.fileName with
  | some name => exact blind_writeFile _ _ m m' h
  | none => exact blind_fail _ _ m m' h

theorem blind_lineArgument (tokens : List Token) : Blind Untyped (Statement.lineArgument tokens) :=
  (unseen.blind_evaluateSingle tokens).bind fun _ => (blind_liftM _).bind fun _ => blind_pure _

theorem blind_goTo (n : LineNumber) :
    Blind Untyped (updateCodeModule fun mod => { mod with pc := .atLine n }) :=
  blind_updateCodeModule (fun _ => rfl) fun _ h => h

theorem blind_jumpTo (n : LineNumber) : Blind Untyped (Statement.jumpTo n) := by
  refine blind_enterCode.bind fun _ m m' h => .of_get ?_
  rw [h.codeModule, Statement.isTarget_untyped]
  exact Blind.ite (blind_throw _) (blind_goTo n) m m' h

theorem blind_callLine (n : LineNumber) : Blind Untyped (Statement.callLine n) := by
  refine fun m m' h => .of_get ?_
  rw [h.codeModule]
  refine (blind_enterCode m m' h).bind fun entered m₁ m₁' h₁ => .of_get ?_
  rw [h₁.codeModule]
  simp only [Statement.isTarget_untyped, Module.pc_untyped, Module.loops_untyped,
    Module.gosubs_untyped]
  refine Blind.ite (blind_throw _) ?_ m₁ m₁' h₁
  refine .bind (blind_updateCodeModule (fun _ => by rfl) fun _ h => by exact h) fun _ => ?_
  split
  · exact blind_throw _
  · exact blind_goTo n

theorem blind_startProgram (start : Option LineNumber) :
    Blind Untyped (Statement.startProgram start) := by
  refine .bind (blind_updateVariableModule (fun _ => by rfl) fun _ h => by exact h) fun _ => ?_
  refine blind_enterCode.bind fun _ => .bind (blind_updateCodeModule (fun _ => by rfl) ?_) ?_
  · intro mod _ n hn
    cases hn
  · refine fun _ m m' h => .of_get ?_
    have hfirst : m.codeModule.untyped.listing.firstFrom? (start.getD 0) =
        m.codeModule.listing.firstFrom? (start.getD 0) := Listing.firstFrom?_untyped _ _
    rw [h.codeModule, hfirst]
    split
    · exact blind_goTo _ m m' h
    · exact Blind.ite (blind_throw _) blind_endModule m m' h

theorem blind_runProgram (tokens : List Token) : Blind Untyped (Statement.runProgram tokens) :=
  .ite (blind_startProgram _) ((blind_lineArgument tokens).bind fun _ => blind_startProgram _)

theorem blind_moveData {n : LineNumber} (hn : 0 ≤ n) (index : Nat) :
    Blind Untyped (updateCodeModule fun mod => { mod with data := ⟨some n, index⟩ }) := by
  refine blind_updateCodeModule (fun _ => rfl) fun mod _ n' hn' => ?_
  cases hn'
  exact hn

theorem blind_restore (tokens : List Token) : Blind Untyped (Statement.restore tokens) := by
  refine .ite (blind_updateCodeModule (fun _ => by rfl) ?_) ?_
  · intro mod _ n hn
    cases hn
  · refine (blind_lineArgument tokens).bind fun n m m' h => .of_get ?_
    rw [h.codeModule, Statement.isTarget_untyped]
    cases htarget : Statement.isTarget m.codeModule n with
    | false => exact blind_throw _ m m' h
    | true =>
      rw [Statement.isTarget, Bool.and_eq_true, decide_eq_true_eq] at htarget
      exact blind_moveData htarget.1 0 m m' h

theorem blind_readFrom {lines : List (LineNumber × String)} (hlines : ∀ e ∈ lines, 0 ≤ e.1)
    (index : Nat) : Blind Untyped (Statement.readFrom index lines) := by
  induction lines generalizing index with
  | nil => exact blind_throw _
  | cons line lines ih =>
    obtain ⟨hline, hlines⟩ := List.forall_mem_cons.1 hlines
    refine (blind_moveData hline index).bind fun _ m m' h => .of_get ?_
    have hlexed : m'.lexicon = m.lexicon ∧ m'.options = m.options := by
      rw [h.eq]
      exact ⟨rfl, rfl⟩
    rw [hlexed.1, hlexed.2]
    refine (blind_liftM _).bind (fun items => ?_) m m' h
    split
    · exact (blind_moveData hline _).bind fun _ => blind_pure _
    · exact ih hlines 0

theorem blind_readItem : Blind Untyped Statement.readItem := by
  refine fun m m' h => .of_get ?_
  have hrange (first last : LineNumber) :
      m.codeModule.untyped.listing.range first last = m.codeModule.listing.range first last :=
    Listing.range_untyped _ _ _
  dsimp only
  rw [h.codeModule, Module.data_untyped]
  split
  · rename_i n hn
    have hn : 0 ≤ n := h.data _ n hn
    have hget : m.codeModule.untyped.listing.get? n = m.codeModule.listing.get? n :=
      Listing.get?_untyped hn
    rw [Statement.linesFrom, Statement.linesFrom, hget, hrange]
    refine blind_readFrom (List.forall_mem_cons.2 ⟨hn, fun e he => ?_⟩) _ m m' h
    exact Listing.nonneg_of_mem_range he
  · rw [Listing.program, Listing.program, hrange]
    exact blind_readFrom (fun e he => Listing.nonneg_of_mem_range he) 0 m m' h

theorem blind_targetModule (t : Token) : Blind Untyped (targetModule t) := by
  cases t with
  | qualifier name => exact blind_ensureModule name
  | _ => exact unseen.blind_variableScope

theorem blind_read (tokens : List Token) : Blind Untyped (Statement.read tokens) := by
  refine .ite (blind_fail _ _) (.bind (blind_visitNames blind_targetModule ?_ tokens) fun _ =>
    blind_pure _)
  intro home ref
  refine (unseen.blind_targetPlace home ref).bind fun place => blind_readItem.bind fun v => ?_
  exact .ite (blind_fail _ _) (unseen.blind_store place v)

theorem blind_dump : Blind Untyped Statement.dump := by
  refine fun m m' h => .of_get ?_
  rw [h.variableModule]
  exact blind_print _ m m' h

end Untyped

inductive Statement.Surveys (m : Machine) : List Token → Prop
  | word {w : Word} (rest : List Token)
      (hw : w ∈ [.DUMP, .GOSUB, .GOTO, .LIST, .READ, .RESTORE, .RUN]) : Surveys m (.word w :: rest)
  | command {name : String} {c : BuiltinCommand} (rest : List Token)
      (hname : m.registry.commands.get? name = some (.builtin c))
      (hc : c ∈ [.FIND, .QSAVE, .SAVE]) : Surveys m (.command name :: rest)

theorem Untyped.alikeAt_run {m m' : Machine} (h : Untyped m m') {tokens : List Token}
    (htokens : Statement.Surveys m tokens) :
    AlikeAt Untyped m m' (Statement.run tokens) (Statement.run tokens) := by
  cases htokens with
  | @word w rest hw =>
    rw [Statement.run.eq_def]
    cases w with
    | DUMP => exact blind_dump m m' h
    | GOSUB => exact (blind_lineArgument rest).bind (fun n => blind_callLine n) m m' h
    | GOTO => exact (blind_lineArgument rest).bind (fun n => blind_jumpTo n) m m' h
    | LIST => exact blind_list rest m m' h
    | READ => exact blind_read rest m m' h
    | RESTORE => exact blind_restore rest m m' h
    | RUN => exact blind_runProgram rest m m' h
    | _ => simp at hw
  | @command name c rest hname hc =>
    have hname' : m'.registry.commands.get? name = some (.builtin c) := by
      rw [h.eq]
      exact hname
    rw [Statement.run, AlikeAt, Statement.runCommand_apply hname, Statement.runCommand_apply hname']
    refine (unseen.blind_evaluateAll rest).bind (fun items => ?_) m m' h
    cases c with
    | FIND => exact blind_find items
    | QSAVE => exact blind_saveAgain items
    | SAVE => exact blind_save items
    | _ => simp at hc

end LineBasic
