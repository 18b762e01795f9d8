import LineBasic.Proofs.Data.Stream
import LineBasic.Proofs.Session.Underway

/-!
# Reading the data of a program

Only `READ` and `RESTORE` move the place of the running module in its data, and only what takes a
module back to its start begins with its data anew. Whatever else a session does, the next question
for an item is answered by the one behind the last. So from the start of the data, or from the line
that a `RESTORE` goes to, all items are read in the order of the program, each of them once.
-/

set_option autoImplicit false

namespace LineBasic

open Run

section

variable {E F : Prop} {G : Edit → Prop} {m m₁ : Machine} {id : ModuleId}

theorem Landing.data {c : Option Fault} (h : Landing E m c m₁) (hm : m.WellScoped)
    (hE : E → m.scopes.variableModule ≠ id) :
    (m₁.moduleAt id).data = (m.moduleAt id).data := by
  have hentered : (m.enterCode.2.moduleAt id).data = (m.moduleAt id).data :=
    Machine.moduleAt_enterCode_of_keeps (fun _ => rfl) m id
  have hcode : m.enterCode.2.scopes.codeModule = m.scopes.variableModule :=
    (Landing.jump : Landing E m none _).codeModule hm
  cases h with
  | jump => exact hentered
  | call => exact (Machine.moduleAt_updateModule_of_keeps (fun _ => by rfl) _ _ id).trans hentered
  | start hrenews =>
    rw [Machine.restart, Machine.updateCodeModule, hcode,
      Machine.moduleAt_updateModule_of_ne (hE hrenews).symm]
    exact hentered

/-- An act that does not take a module back to its start leaves its place in the data. -/
theorem Act.data {r : EStateM.Result Fault Machine Unit} (h : Act E F G m r) (hm : m.WellScoped)
    (hE : E → m.scopes.variableModule ≠ id) :
    ((machineAfter r).moduleAt id).data = (m.moduleAt id).data := by
  have ofCode (m : Machine) {f : Module → Module} (hf : ∀ mod, (f mod).data = mod.data) :
      ((m.updateCodeModule f).moduleAt id).data = (m.moduleAt id).data :=
    Machine.moduleAt_updateModule_of_keeps hf m _ id
  have ofEnd (m : Machine) : (m.endModule.moduleAt id).data = (m.moduleAt id).data :=
    Machine.moduleAt_endModule_of_keeps (fun _ _ => rfl) m id
  have ofRenewed (hE' : E) (f : Module → Module) :
      ((m.updateVariableModule f).moduleAt id).data = (m.moduleAt id).data := by
    rw [Machine.updateVariableModule, Machine.moduleAt_updateModule_of_ne (hE hE').symm]
  cases h with
  | none => rfl
  | named name => exact (Machine.Calm.ensured m name).data id False.elim
  | left => exact ofEnd m
  | landed m₁ n hland => exact (ofCode m₁ fun _ => by rfl).trans (hland.data hm hE)
  | missed m₁ f hland => exact hland.data hm hE
  | ended hE' => exact (ofEnd _).trans ((Landing.start hE').data hm hE)
  | returned g => exact ofCode m fun _ => by rfl
  | returnedHome g => exact (ofEnd _).trans (ofCode m fun _ => by rfl)
  | skipped offset => exact ofCode m fun _ => by rfl
  | looped l => exact ofCode m fun _ => by rfl
  | loopRefused l f => exact ofCode m fun _ => by rfl
  | repeated l => exact ofCode m fun _ => by rfl
  | revised f hf =>
    refine Revision.rule (P := fun mod => mod.data = (m.moduleAt id).data) hf ?_ rfl
    intro mod' hrevision
    cases hrevision <;> rfl
  | loaded hE' => exact ofRenewed hE' _
  | renewed hE' => exact (ofCode _ fun _ => by rfl).trans (ofRenewed hE' _)
  | quit code => rfl

end

namespace Session

/-- A step that neither moves a module in its data nor takes it back to its start leaves its place
in the data. -/
theorem data_step {m : Machine} {id : ModuleId} (hm : m.WellScoped)
    (hreads : Reads m → m.scopes.codeModule ≠ id)
    (hrenews : Renews m → m.scopes.variableModule ≠ id) :
    ((step.final m).moduleAt id).data = (m.moduleAt id).data := by
  refine step_rule (I := fun m₁ => m₁.WellScoped ∧ m₁.scopes = m.scopes ∧
      (m₁.moduleAt id).data = (m.moduleAt id).data)
    (J := fun m₁ => (m₁.moduleAt id).data = (m.moduleAt id).data) ?_ ?_ ?_ ?_ ⟨hm, rfl, rfl⟩
  · rintro m₁ m₂ hquiet ⟨hm₁, hscopes, hdata⟩
    refine ⟨hm₁.quiet hquiet, hquiet.scopes.trans hscopes, (hquiet.data id ?_).trans hdata⟩
    rw [hscopes]
    exact fun hr => (hreads hr).symm
  · rintro m₁ pc ⟨hm₁, hscopes, hdata⟩
    refine ⟨hm₁.setPc pc, hscopes, ?_⟩
    exact (Machine.moduleAt_updateModule_of_keeps (fun _ => by rfl) m₁ _ id).trans hdata
  · rintro m₁ r hact ⟨hm₁, hscopes, hdata⟩
    exact (hact.data hm₁ (by rwa [hscopes])).trans hdata
  · exact fun m₁ host hdata => hdata

inductive Asks (id : ModuleId) (m : Machine) : List Machine → Prop
  | none (h : Reads m → m.scopes.codeModule ≠ id) : Asks id m []
  | read {n : LineNumber} {text : String} {tokens rest : List Token} {next : Nat} {u : Machine}
      (hlexed : Lexed m n text tokens next)
      (hcomes : Statement.ComesTo tokens (begun n tokens next m) (.word .READ :: rest) u)
      (hid : m.scopes.codeModule = id) : Asks id m (Statement.itemCalls rest u)

/-- A stretch of a session in which the program of a module stays, and the questions for items of
that module in it. The module is not taken back to its start, and its place in the data is moved by
questions only. -/
inductive Streams (id : ModuleId) : Machine → List Machine → Machine → Prop
  | here (m : Machine) : Streams id m [] m
  | step {m m' : Machine} {calls later : List Machine} (hasks : Asks id m calls)
      (hrenews : Renews m → m.scopes.variableModule ≠ id)
      (hprogram : ((settle (step m)).2.moduleAt id).listing.program =
        (m.moduleAt id).listing.program)
      (hrest : Streams id (settle (Session.step m)).2 later m') : Streams id m (calls ++ later) m'
  | aside {m m₁ m' : Machine} {calls : List Machine} (haside : Aside m m₁)
      (hprogram : (m₁.moduleAt id).listing.program = (m.moduleAt id).listing.program)
      (hlexicon : m₁.lexicon = m.lexicon) (hrest : Streams id m₁ calls m') : Streams id m calls m'

structure Agree (m m' : Machine) : Prop where
  modules : m'.modules = m.modules
  registry : m'.registry = m.registry
  options : m'.options = m.options

theorem Agree.dataAhead {m m' : Machine} (h : Agree m m') {id : ModuleId} {items : List Value}
    (hitems : m.DataAhead id items) : m'.DataAhead id items := by
  have hmodule : m'.moduleAt id = m.moduleAt id := by rw [Machine.moduleAt, h.modules]; rfl
  exact hitems.of_eq (congrArg Registry.lexicon h.registry) h.options (by rw [hmodule])
    (by rw [hmodule])

theorem agree_settle (r : EStateM.Result Fault Machine Bool) :
    Agree (machineAfter r) (settle r).2 := by
  cases r with
  | error f m => exact ⟨rfl, rfl, rfl⟩
  | ok done m =>
    cases done with
    | false => exact ⟨rfl, rfl, rfl⟩
    | true =>
      obtain ⟨exitCode, hsettle⟩ := settle_of_over m
      rw [hsettle]
      exact ⟨rfl, rfl, rfl⟩

theorem agree_afterStatement (r : EStateM.Result Fault Machine Unit) :
    Agree (machineAfter r) (settle (afterStatement r)).2 := by
  cases r with
  | error f m => exact ⟨rfl, rfl, rfl⟩
  | ok _ m =>
    rw [afterStatement]
    split
    · exact agree_settle (.ok true m)
    · split <;> exact ⟨rfl, rfl, rfl⟩

theorem step_of_comesTo {m u : Machine} {n : LineNumber} {text : String} {tokens rest : List Token}
    {next : Nat} {w : Word} (hlexed : Lexed m n text tokens next)
    (hcomes : Statement.ComesTo tokens (begun n tokens next m) (.word w :: rest) u) :
    step m = afterStatement (Statement.run (.word w :: rest) u) := by
  have htokens := hcomes.ne_nil
  rw [step_of_statement hlexed htokens, hcomes.run_eq]

theorem Lexed.dataAhead {m u : Machine} {n : LineNumber} {text : String}
    {tokens tokens' : List Token} {next : Nat} {id : ModuleId} {items : List Value}
    (h : Lexed m n text tokens next)
    (hcomes : Statement.ComesTo tokens (begun n tokens next m) tokens' u)
    (hitems : m.DataAhead id items) : u.DataAhead id items := by
  have hset : (m.setPc ⟨some n, next⟩).DataAhead id items :=
    hitems.of_eq rfl rfl (congrArg Listing.program (m.listing_setPc _ id))
      (Machine.moduleAt_updateModule_of_keeps (fun _ => by rfl) m _ id)
  exact (hset.calm (calm_begun h.line tokens next)).calm hcomes.calm

/-- The questions of a statement are answered by the items ahead, and the others stay ahead. -/
theorem Asks.draws {id : ModuleId} {m : Machine} {calls : List Machine} (h : Asks id m calls)
    (hm : m.WellScoped) (hrenews : Renews m → m.scopes.variableModule ≠ id)
    (hprogram : ((settle (step m)).2.moduleAt id).listing.program =
      (m.moduleAt id).listing.program) {items : List Value} (hitems : m.DataAhead id items) :
    calls.map Statement.readItem.answer = Statement.answers items calls.length ∧
      (settle (step m)).2.DataAhead id (items.drop calls.length) := by
  cases h with
  | none hreads =>
    have hagree : Agree (step.final m) (settle (step m)).2 := agree_settle (step m)
    have hchanges := confined_step m
    refine ⟨rfl, hitems.of_eq ?_ (hagree.options.trans hchanges.options) hprogram ?_⟩
    · exact congrArg Registry.lexicon (hagree.registry.trans hchanges.registry)
    · rw [Machine.moduleAt, hagree.modules]
      exact data_step hm hreads hrenews
  | @read n text tokens rest next u hlexed hcomes hid =>
    have hu := hlexed.poised hm hcomes
    have hdraws := Statement.drawsAt_read rest hu.wellScoped.codeModule_lt
    rw [hu.scopes, hid] at hdraws
    obtain ⟨hanswers, hahead⟩ := hdraws items (hlexed.dataAhead hcomes hitems)
    rw [step_of_comesTo hlexed hcomes, Statement.run]
    exact ⟨hanswers, (agree_afterStatement _).dataAhead hahead⟩

/-- Beside the steps of a run nothing moves in the data. -/
theorem Aside.data {m m' : Machine} (h : Aside m m') (hm : m.WellScoped) (id : ModuleId) :
    (m'.moduleAt id).data = (m.moduleAt id).data := by
  cases h with
  | stored n text => exact Machine.moduleAt_updateModule_of_keeps (fun _ => by rfl) m _ id
  | refused f n => rfl
  | prepared line =>
    have hentered : (m.enterCode.2.moduleAt id).data = (m.moduleAt id).data :=
      Machine.moduleAt_enterCode_of_keeps (fun _ => rfl) m id
    rw [moduleAt_prepare hm, ← hentered]
    dsimp only
    split <;> rfl
  | outside host registry column => rfl

theorem Aside.options {m m' : Machine} (h : Aside m m') : m'.options = m.options := by
  cases h with
  | prepared line => exact (Run.changes_enterCode m).options
  | _ => rfl

/-- All questions of a stretch are answered by the items ahead, in order. -/
theorem Streams.draws {id : ModuleId} {m m' : Machine} {calls : List Machine}
    (h : Streams id m calls m') (hm : m.WellScoped) {items : List Value}
    (hitems : m.DataAhead id items) :
    calls.map Statement.readItem.answer = Statement.answers items calls.length := by
  induction h generalizing items with
  | here m => rfl
  | step hasks hrenews hprogram _ ih =>
    obtain ⟨hanswers, hahead⟩ := hasks.draws hm hrenews hprogram hitems
    rw [List.map_append, hanswers, ih (wellScoped_settle hm) hahead, List.length_append,
      Statement.answers_add]
  | aside haside hprogram hlexicon _ ih =>
    exact ih (haside.wellScoped hm)
      (hitems.of_eq hlexicon haside.options hprogram (haside.data hm id))

inductive Rewound (id : ModuleId) : Machine → LineNumber → Prop
  | fresh {m : Machine} (h : (m.moduleAt id).data = {}) : Rewound id m 0
  | restored {m u u₁ : Machine} {n first : LineNumber} {text : String} {tokens rest : List Token}
      {next : Nat} (hm : m.WellScoped) (hlexed : Lexed m n text tokens next)
      (hcomes : Statement.ComesTo tokens (begun n tokens next m) (.word .RESTORE :: rest) u)
      (hid : m.scopes.codeModule = id) (hrest : rest ≠ [])
      (hline : Statement.lineArgument rest u = .ok first u₁)
      (hlisted : Statement.isTarget (u₁.moduleAt id) first = true) :
      Rewound id (settle (step m)).2 first

/-- From there on the items of all later lines are ahead. -/
theorem Rewound.dataAhead {id : ModuleId} {m : Machine} {first : LineNumber}
    (h : Rewound id m first) {items : List Value}
    (hitems : Statement.linesData m.lexicon m.options
      ((m.moduleAt id).listing.program.filter fun e => first ≤ e.1) = .ok items) :
    m.DataAhead id items := by
  cases h with
  | fresh h =>
    have hprogram : ((m.moduleAt id).listing.program.filter fun e => 0 ≤ e.1) =
        (m.moduleAt id).listing.program :=
      List.filter_eq_self.2 fun e he => decide_eq_true (Listing.nonneg_of_mem_range he)
    rw [hprogram] at hitems
    rw [Machine.DataAhead, h]
    exact .start hitems
  | @restored m u u₁ n first text tokens rest next hm hlexed hcomes hid hrest hline hlisted =>
    have hu₁ := (hlexed.poised hm hcomes).calm ((Statement.calm_lineArgument rest).ok hline)
    obtain rfl : u₁.scopes.codeModule = id := by rw [hu₁.scopes, hid]
    have hstep : step m = afterStatement (.ok () (u₁.setData ⟨some first, 0⟩)) := by
      rw [step_of_comesTo hlexed hcomes, Statement.run, Statement.restore_eq hrest hline hlisted]
    have hagree := agree_afterStatement (.ok () (u₁.setData ⟨some first, 0⟩))
    rw [← hstep, machineAfter_ok] at hagree
    have hmodule : (settle (step m)).2.moduleAt u₁.scopes.codeModule =
        { u₁.codeModule with data := ⟨some first, 0⟩ } := by
      rw [Machine.moduleAt, hagree.modules]
      exact Machine.moduleAt_updateModule_self hu₁.wellScoped.codeModule_lt _
    simp only [Statement.isTarget, Bool.and_eq_true, decide_eq_true_eq] at hlisted
    rw [Machine.DataAhead]
    rw [hmodule] at hitems ⊢
    exact Statement.ahead_line (Statement.le_maxLineNumber_of_lineArgument hline) hlisted hitems

/-- If the items of all lines of a program can be told, they are read in order. From the start of
the data, or from the line that a `RESTORE` has gone to, the questions for items are answered by the
items of the lines from there on, one after another, and then by a fault, whatever else the session
does meanwhile. -/
theorem data_is_read_in_program_order {id : ModuleId} {m m' : Machine} {first : LineNumber}
    {all : List Value} {calls : List Machine} (hm : m.WellScoped) (hstart : Rewound id m first)
    (hall : Statement.linesData m.lexicon m.options (m.moduleAt id).listing.program = .ok all)
    (hrun : Streams id m calls m') :
    ∃ before after, all = before ++ after ∧
      Statement.linesData m.lexicon m.options
        ((m.moduleAt id).listing.program.filter fun e => e.1 < first) = .ok before ∧
      Statement.linesData m.lexicon m.options
        ((m.moduleAt id).listing.program.filter fun e => first ≤ e.1) = .ok after ∧
      calls.map Statement.readItem.answer =
        (List.range calls.length).map fun k =>
          match after[k]? with
          | some v => .ok v
          | none => .error Statement.outOfData := by
  rw [← Listing.filter_append_filter_program _ first] at hall
  obtain ⟨before, after, hbefore, hafter, hsplit⟩ := Statement.linesData_append_eq_ok hall
  exact ⟨before, after, hsplit, hbefore, hafter, hrun.draws hm (hstart.dataAhead hafter)⟩

/-- Typed text goes to the second of two lines, reads the one item that is left, prints it, and asks
for another. -/
theorem data_is_read_in_program_order_from_line :
    let line := "RESTORE 20: READ A$: PRINT A$: READ A"
    let s := prepare line (enterAll 9 ["10 DATA 1", "20 DATA X Y"] {})
    ∃ calls m', Rewound 0 (settle (step s)).2 20 ∧ Streams 0 (settle (step s)).2 calls m' ∧
      calls.map Statement.readItem.answer =
        [.ok (.text "X Y"), .error Statement.outOfData] := by
  intro line s
  have hs : s.WellScoped := (Waiting.enterAll 9 _).wellScoped.prepare line
  let s₁ := (settle (step s)).2
  let s₂ := (settle (step s₁)).2
  let s₃ := (settle (step s₂)).2
  let s₄ := (settle (step s₃)).2
  let program (m : Machine) := (m.moduleAt 0).listing.program
  let u := begun typedLine [.word .RESTORE, .integer "20"] 11 s
  let calls₁ := Statement.itemCalls [.ident "A$"] (begun typedLine [.word .READ, .ident "A$"] 20 s₁)
  let calls₃ := Statement.itemCalls [.ident "A"] (begun typedLine [.word .READ, .ident "A"] 37 s₃)
  obtain ⟨hlexed, hlexed₁, hlexed₂, hlexed₃⟩ :
      Lexed s typedLine line [.word .RESTORE, .integer "20"] 11 ∧
      Lexed s₁ typedLine line [.word .READ, .ident "A$"] 20 ∧
      Lexed s₂ typedLine line [.word .PRINT, .ident "A$"] 30 ∧
      Lexed s₃ typedLine line [.word .READ, .ident "A"] 37 := by
    decide +kernel
  obtain ⟨hline, hlisted, hscopes, hprogram, hall, hlast⟩ :
      ((Statement.lineArgument [.integer "20"]).answer u).toOption = some 20 ∧
      Statement.isTarget (((Statement.lineArgument [.integer "20"]).final u).moduleAt 0) 20 ∧
      (s.scopes = {} ∧ s₁.scopes = {} ∧ s₃.scopes = {}) ∧
      (program s₂ = program s₁ ∧ program s₃ = program s₂ ∧ program s₄ = program s₃) ∧
      (Statement.linesData s₁.lexicon s₁.options (program s₁)).toOption =
        some [.integer 1, .text "X Y"] ∧
      (Statement.linesData s₁.lexicon s₁.options
        ((program s₁).filter fun e => 20 ≤ e.1)).toOption = some [.text "X Y"] ∧
      calls₁.length + calls₃.length = 2 := by
    decide +kernel
  have hrewound : Rewound 0 s₁ 20 :=
    .restored hs hlexed (.here _ _) (by rw [hscopes.1]; rfl) (by simp)
      (eq_ok_of_answer (eq_ok_of_toOption hline)) hlisted
  have hrenews {m : Machine} {w : Word} {rest : List Token} {next : Nat}
      (h : Lexed m typedLine line (.word w :: rest) next)
      (hw : w ≠ .IF ∧ w ≠ .NEW ∧ w ≠ .RUN) : Renews m → m.scopes.variableModule ≠ 0 :=
    fun hm => absurd hm (not_renews_of_lexed h hw.1 hw.2.1 hw.2.2)
  have hread₁ : Asks 0 s₁ calls₁ := .read hlexed₁ (.here _ _) (by rw [hscopes.2.1]; rfl)
  have hprint : Asks 0 s₂ [] :=
    .none fun hm => absurd hm (not_reads_of_lexed hlexed₂ (by decide) (by decide) (by decide))
  have hread₃ : Asks 0 s₃ calls₃ := .read hlexed₃ (.here _ _) (by rw [hscopes.2.2]; rfl)
  have hrun : Streams 0 s₁ (calls₁ ++ ([] ++ (calls₃ ++ []))) s₄ :=
    .step hread₁ (hrenews hlexed₁ (by decide)) hprogram.1 <|
      .step hprint (hrenews hlexed₂ (by decide)) hprogram.2.1 <|
        .step hread₃ (hrenews hlexed₃ (by decide)) hprogram.2.2 (.here s₄)
  obtain ⟨before, after, -, -, hafter, hanswers⟩ :=
    data_is_read_in_program_order (wellScoped_settle hs) hrewound (eq_ok_of_toOption hall) hrun
  cases hafter.symm.trans (eq_ok_of_toOption hlast.1)
  have hlength : (calls₁ ++ ([] ++ (calls₃ ++ []))).length = 2 := by simpa using hlast.2
  refine ⟨_, s₄, hrewound, hrun, ?_⟩
  rw [hanswers, hlength]
  rfl

end Session

end LineBasic
