import LineBasic.Expression.Place
import LineBasic.Proofs.Effect

/-!
# What evaluation changes

Evaluation makes the scalars that it reads, with their zero values, and draws random numbers. It
changes nothing else, so no value that can be read is another one afterwards. An expression list
also hands its items on; what is done with them is the business of whoever takes them.
-/

set_option autoImplicit false

namespace LineBasic

open Run

namespace Machine

/-- Some scalars more, which are zero, and other dice. -/
structure Evaluated (m m' : Machine) : Prop where
  changes : Changes m m'
  rest : m' = { m with modules := m'.modules, dice := m'.dice }
  count : m'.modules.length = m.modules.length
  modules : ∀ id, m'.moduleAt id = { m.moduleAt id with vars := (m'.moduleAt id).vars } ∧
    (m.moduleAt id).vars.Touched (m'.moduleAt id).vars

namespace Evaluated

variable {m m₁ m₂ : Machine}

theorem refl (m : Machine) : m.Evaluated m := ⟨.refl, rfl, rfl, fun _ => ⟨rfl, .refl _⟩⟩

theorem trans (h : m.Evaluated m₁) (h' : m₁.Evaluated m₂) : m.Evaluated m₂ where
  changes := h.changes.trans h'.changes
  rest := by rw [h'.rest, h.rest]
  count := h'.count.trans h.count
  modules id := by
    obtain ⟨hmod, htouched⟩ := h.modules id
    obtain ⟨hmod', htouched'⟩ := h'.modules id
    refine ⟨?_, htouched.trans htouched'⟩
    rw [hmod', hmod]

theorem drawn (m : Machine) (dice : Dice) : m.Evaluated { m with dice } :=
  ⟨.single (.of_eq rfl rfl rfl rfl), rfl, rfl, fun _ => ⟨rfl, .refl _⟩⟩

theorem touched (m : Machine) (home : ModuleId) (name : String) :
    m.Evaluated (m.updateModule home fun mod => { mod with vars := mod.vars.touch name }) where
  changes := .single (.module m home _ fun mod _ =>
    .state rfl rfl fun h => ⟨h.vars.touch name, h.loops, h.data⟩)
  rest := rfl
  count := length_updateModule _ _ _
  modules id := by
    rw [moduleAt_updateModule]
    split
    · exact ⟨rfl, .touch _ name⟩
    · exact ⟨rfl, .refl _⟩

end Evaluated

end Machine

def Effect.evaluation : Effect where
  Leads := Machine.Evaluated
  refl := .refl
  trans := .trans
  registry h := h.changes.registry

theorem obeys_call_builtin (f : BuiltinFunction) (args : List Value) :
    Obeys .evaluation (f.call args) := by
  -- what is set is the machine that was read, with other dice
  refine obeys_of_get fun m => (obeys_liftM (f.ordinary_value m args) m).bind fun v m₁ hv => ?_
  obtain ⟨_, rfl⟩ := outcome_eq_ok.1 (liftM_apply _ _ ▸ hv)
  split
  · refine (obeys_liftM (ordinary_drawn m₁ args) m₁).bind fun dice m₂ hdice => ?_
    obtain ⟨_, rfl⟩ := outcome_eq_ok.1 (liftM_apply _ _ ▸ hdice)
    have hset : m₂.Evaluated { m₂ with dice } := .drawn m₂ dice
    exact .bind (obeysAt_set hset) fun _ m₃ _ => obeys_pure v m₃
  · exact obeys_pure v m₁

/-- What was added to the registry changes no machine. -/
theorem obeysAt_call {m : Machine} {name : String} {f : Function}
    (hf : m.registry.functions.get? name = some f) (args : List Value) :
    ObeysAt .evaluation m (f.call args) := by
  cases f with
  | builtin b => exact obeys_call_builtin b args m
  | added run => exact obeysAt_liftM fun e he => .function name run args hf he

theorem obeys_qualifiedModule {F : Effect} (t : Token) : Obeys F (qualifiedModule t) := by
  cases t with
  | qualifier name => exact obeys_findModule name
  | _ => exact obeys_get.bind fun _ => obeys_pure _

theorem obeys_touch (home : ModuleId) (name : String) :
    Obeys .evaluation (updateModule home fun mod => { mod with vars := mod.vars.touch name }) :=
  fun m => obeysAt_modify (Machine.Evaluated.touched m home name)

theorem obeys_scalarValue (home : ModuleId) (name : String) :
    Obeys .evaluation (scalarValue home name) :=
  (obeys_touch home name).bind fun _ => obeys_get.bind fun _ => obeys_pure _

theorem obeys_elementValue (home : ModuleId) (name : String) (args : List Value) :
    Obeys .evaluation (elementValue home name args) := by
  refine (obeys_liftM (ordinary_subscripts args)).bind fun index => obeys_get.bind fun m => ?_
  intro m₁
  refine (obeys_liftM (Variables.ordinary_arrayOffset _ name index) m₁).bind fun offset m₂ h => ?_
  obtain ⟨hoffset, rfl⟩ := outcome_eq_ok.1 (liftM_apply _ _ ▸ h)
  exact obeys_liftM (Variables.ordinary_fetchElement hoffset) m₂

section

variable {F : Effect} {emit : Item → Run Unit} (hemit : ∀ item, Obeys F (emit item))

include hemit

theorem obeys_emitAll (items : List Item) : Obeys F (emitAll emit items) := by
  induction items with
  | nil => exact obeys_pure ()
  | cons item items ih => exact (hemit item).bind fun _ => ih

namespace Scan

theorem obeys_separate (s : Scan) (mark : String) : Obeys F (s.separate emit mark) :=
  (obeys_liftM s.frame.ordinary_flush).bind fun _ =>
    (obeys_emitAll hemit _).bind fun _ => obeys_pure _

theorem obeys_beforeToken (s : Scan) (t : Token) : Obeys F (s.beforeToken emit t) := by
  rw [beforeToken]
  split
  · split
    · exact obeys_throw (by decide)
    · exact obeys_separate hemit s ";"
  · exact obeys_pure s

theorem obeys_finish (s : Scan) : Obeys F (s.finish emit) := by
  rw [finish]
  split
  · exact obeys_throw (by decide)
  · refine (obeys_liftM s.frame.ordinary_flush).bind fun _ => ?_
    exact (obeys_emitAll hemit _).bind fun _ => obeys_pure _

theorem obeys_step (s : Scan) (t : Token) : Obeys F (s.step emit t) := by
  cases t with
  | number text =>
    refine (obeys_liftM (ordinary_numberValue text)).bind fun v => ?_
    exact (obeys_liftM (s.ordinary_withValue v)).bind fun _ => obeys_pure _
  | integer text =>
    refine (obeys_liftM (ordinary_integerValue text)).bind fun v => ?_
    exact (obeys_liftM (s.ordinary_withValue v)).bind fun _ => obeys_pure _
  | string | literal => exact (obeys_liftM (s.ordinary_withValue _)).bind fun _ => obeys_pure _
  | unary | openParen =>
    exact (obeys_liftM (s.frame.ordinary_pushPending _)).bind fun _ => obeys_pure _
  | word => exact obeys_pure _
  | comma =>
    rw [step]
    split
    · exact (obeys_separate hemit s ",").map _
    · exact obeys_fail (by decide) _
  | operator op =>
    rw [step]
    split
    · exact (obeys_separate hemit s ";").map _
    · split
      · exact (obeys_liftM (s.frame.ordinary_pushOperator op)).bind fun _ => obeys_pure _
      · exact obeys_throw (by decide)
  | closeParen =>
    rw [step]
    split
    · exact obeys_pure _
    · split
      · exact (obeys_liftM s.frame.ordinary_closeParen).bind fun _ => obeys_pure _
      · exact obeys_throw (by decide)
  | command | fileHandle => exact obeys_fail (by decide) _
  | ident | qualifier => exact obeys_pure _

end Scan

end

section

variable {call : Call} (hcall : ∀ home key args, Obeys .evaluation (call home key args))

include hcall

theorem obeys_plainOperand (fnCall : Bool) (home : ModuleId) (name : String) :
    Obeys .evaluation (plainOperand call fnCall home name) := by
  refine obeys_get.bind fun m => ?_
  split
  · exact hcall home _ []
  · exact obeys_scalarValue home name

theorem obeys_appliedOperand (fnCall : Bool) (home : ModuleId) (name : String)
    (args : List Value) : Obeys .evaluation (appliedOperand call fnCall home name args) := by
  refine obeys_of_get fun m => ?_
  split
  · exact obeys_elementValue home name args m
  · split
    · rename_i f hf
      have hf : m.registry.functions.get? name = some f := by
        split at hf
        · cases hf
        · exact hf
      exact obeysAt_call hf args
    · dsimp only
      split
      · exact hcall home _ args m
      · exact obeys_throw (by decide) m

variable {F : Effect} (hF : Effect.evaluation ≤ F)

include hF

theorem obeys_scan {emit : Item → Run Unit} (hemit : ∀ item, Obeys F (emit item)) (s : Scan)
    (tokens : List Token) : Obeys F (scan call emit s tokens) := by
  cases tokens with
  | nil =>
    rw [scan]
    exact (Scan.obeys_finish hemit s).bind fun _ => obeys_pure _
  | cons t ts =>
    rw [scan]
    refine (Scan.obeys_beforeToken hemit s t).bind fun s => ?_
    split
    case h_3 =>
      refine (Scan.obeys_step hemit s t).bind fun next => ?_
      cases next with
      | some s => exact obeys_scan hemit s ts
      | none => exact (Scan.obeys_finish hemit s).bind fun _ => obeys_pure _
    all_goals
      refine (obeys_qualifiedModule _).bind fun home => ?_
      split
      · rename_i f hf
        exact obeys_throw (Reference.ordinary_split (by decide) _ f hf)
      · rename_i ref rest h
        have hrest := (Reference.length_split h).1
        have after (v : Value) : Obeys F (do
            let s ← s.withValue v
            scan call emit { s with fnCall := false } rest) :=
          (obeys_liftM (s.ordinary_withValue v)).bind fun _ => obeys_scan hemit _ rest
        dsimp only
        split
        · exact ((obeys_plainOperand hcall _ _ _).mono hF).bind after
        · rename_i inner ha
          have hinner := (Reference.length_split h).2 inner ha
          have applied (args : List Value) :=
            ((obeys_appliedOperand hcall s.fnCall home ref.name args).mono hF).bind after
          split
          · exact applied []
          · refine (obeys_scan (fun _ => obeys_pure _) {} inner).bind fun result => ?_
            rcases result with ⟨items, left⟩
            dsimp only
            split
            · exact obeys_throw (by decide)
            · exact applied (Item.values items)
termination_by tokens.length
decreasing_by all_goals (simp only [List.length_cons] at *; omega)

theorem obeys_evaluateWith {emit : Item → Run Unit} (hemit : ∀ item, Obeys F (emit item))
    (tokens : List Token) : Obeys F (evaluateWith call emit tokens) :=
  (obeys_scan hcall hF hemit {} tokens).bind fun _ => obeys_pure _

end

theorem obeys_evaluateSingleWith {call : Call}
    (hcall : ∀ home key args, Obeys .evaluation (call home key args)) (tokens : List Token) :
    Obeys .evaluation (evaluateSingleWith call tokens) := by
  refine (obeys_evaluateWith hcall (fun _ _ h => h) (fun _ => obeys_pure _) tokens).bind
    fun result => ?_
  rcases result with ⟨items, taken⟩
  dsimp only
  split
  · exact obeys_throw (by decide)
  · exact obeys_liftM (Item.ordinary_single items)

theorem obeys_callDefined (n : Nat) (home : ModuleId) (key : String) (args : List Value) :
    Obeys .evaluation (callDefined n home key args) := by
  rw [callDefined.eq_def]
  refine obeys_get.bind fun m => ?_
  split
  · exact obeys_fail (by decide) _
  · dsimp only
    split
    · exact obeys_throw (by decide)
    · split
      · exact obeys_fail (by decide) _
      · rename_i k
        exact (obeys_liftM (ordinary_substitute _ _ _)).bind fun body =>
          obeys_evaluateSingleWith (obeys_callDefined k) body

theorem obeys_evaluateEmitting {F : Effect} (hF : Effect.evaluation ≤ F) {emit : Item → Run Unit}
    (hemit : ∀ item, Obeys F (emit item)) (tokens : List Token) :
    Obeys F (evaluateEmitting emit tokens) :=
  obeys_evaluateWith (obeys_callDefined maxCallDepth) hF hemit tokens

theorem obeys_evaluate (tokens : List Token) : Obeys .evaluation (evaluate tokens) :=
  obeys_evaluateEmitting (fun _ _ h => h) (fun _ => obeys_pure _) tokens

theorem obeys_evaluateAll (tokens : List Token) : Obeys .evaluation (evaluateAll tokens) := by
  refine (obeys_evaluate tokens).bind fun result => ?_
  rcases result with ⟨items, taken⟩
  dsimp only
  split
  · exact obeys_throw (by decide)
  · exact obeys_pure _

theorem obeys_evaluateSingle (tokens : List Token) : Obeys .evaluation (evaluateSingle tokens) :=
  obeys_evaluateSingleWith (obeys_callDefined maxCallDepth) tokens

theorem obeys_evaluateSubscripts (tokens : List Token) :
    Obeys .evaluation (evaluateSubscripts tokens) := by
  rw [evaluateSubscripts]
  split
  · exact obeys_pure _
  · exact (obeys_evaluateAll tokens).bind fun _ => obeys_liftM (ordinary_subscripts _)

end LineBasic
