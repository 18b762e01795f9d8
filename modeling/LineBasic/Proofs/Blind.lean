import LineBasic.Expression.Place
import LineBasic.Proofs.Expression.Pass
import LineBasic.Proofs.Machine

/-!
# Blind runs

Two machines may differ in a way that a run cannot tell. It is blind to the difference if it gives
the same answer or the same fault on both, and leaves them with no other difference than that. A run
is blind if all its parts are. Evaluation is blind to whatever leaves alone the variables and
functions of the modules, the scopes, the registered functions, the memory, the column, the dice and
the random numbers.
-/

set_option autoImplicit false

namespace LineBasic

namespace Run

variable {α β : Type} {R : Machine → Machine → Prop}

inductive Alike (R : Machine → Machine → Prop) :
    EStateM.Result Fault Machine α → EStateM.Result Fault Machine α → Prop
  | ok (a : α) {m m' : Machine} (h : R m m') : Alike R (.ok a m) (.ok a m')
  | error (f : Fault) {m m' : Machine} (h : R m m') : Alike R (.error f m) (.error f m')

def AlikeAt (R : Machine → Machine → Prop) (m m' : Machine) (x y : Run α) : Prop :=
  Alike R (x m) (y m')

def Twins (R : Machine → Machine → Prop) (x y : Run α) : Prop :=
  ∀ m m', R m m' → AlikeAt R m m' x y

def Blind (R : Machine → Machine → Prop) (x : Run α) : Prop := Twins R x x

theorem AlikeAt.bind {m m' : Machine} {x y : Run α} {f g : α → Run β} (hx : AlikeAt R m m' x y)
    (hf : ∀ a m₁ m₁', R m₁ m₁' → AlikeAt R m₁ m₁' (f a) (g a)) :
    AlikeAt R m m' (x >>= f) (y >>= g) := by
  rw [AlikeAt] at hx ⊢
  rw [bind_apply, bind_apply]
  generalize x m = r at hx
  generalize y m' = r' at hx
  cases hx with
  | ok a h => exact hf a _ _ h
  | error e h => exact .error e h

theorem AlikeAt.of_get {m m' : Machine} {f g : Machine → Run α} (h : AlikeAt R m m' (f m) (g m')) :
    AlikeAt R m m' (get >>= f) (get >>= g) := h

theorem AlikeAt.of_modify {m m' : Machine} {f g : Machine → Machine} (h : R (f m) (g m')) :
    AlikeAt R m m' (modify f : Run Unit) (modify g) := .ok () h

theorem Twins.bind {x y : Run α} {f g : α → Run β} (hx : Twins R x y)
    (hf : ∀ a, Twins R (f a) (g a)) : Twins R (x >>= f) (y >>= g) :=
  fun m m' h => (hx m m' h).bind fun a => hf a

theorem Blind.bind {x : Run α} {f : α → Run β} (hx : Blind R x) (hf : ∀ a, Blind R (f a)) :
    Blind R (x >>= f) :=
  Twins.bind hx hf

theorem blind_pure (a : α) : Blind R (pure a : Run α) := fun _ _ h => .ok a h

theorem blind_throw (f : Fault) : Blind R (throw f : Run α) := fun _ _ h => .error f h

theorem blind_fail (kind : FaultKind) (detail : String) : Blind R (fail kind detail : Run α) :=
  blind_throw _

theorem blind_liftM (x : Except Fault α) : Blind R (liftM x : Run α) := by
  cases x with
  | ok a => exact blind_pure a
  | error f => exact blind_throw f

theorem Twins.map {x y : Run α} (hx : Twins R x y) (f : α → β) : Twins R (f <$> x) (f <$> y) := by
  rw [← bind_pure_comp, ← bind_pure_comp]
  exact hx.bind fun a => blind_pure (f a)

theorem Twins.ite {c : Prop} [Decidable c] {x x' y y' : Run α} (hx : Twins R x x')
    (hy : Twins R y y') : Twins R (if c then x else y) (if c then x' else y') := by
  by_cases hc : c
  · rw [if_pos hc, if_pos hc]
    exact hx
  · rw [if_neg hc, if_neg hc]
    exact hy

theorem Blind.ite {c : Prop} [Decidable c] {x y : Run α} (hx : Blind R x) (hy : Blind R y) :
    Blind R (if c then x else y) :=
  Twins.ite hx hy

end Run

open Run

structure Unseen (R : Machine → Machine → Prop) : Prop where
  scopes : ∀ {m m'}, R m m' → m'.scopes = m.scopes
  registry : ∀ {m m'}, R m m' → m'.registry.functions = m.registry.functions
  memory : ∀ {m m'}, R m m' → m'.memory = m.memory
  column : ∀ {m m'}, R m m' → m'.column = m.column
  dice : ∀ {m m'}, R m m' → m'.dice = m.dice
  random : ∀ {m m'}, R m m' → m'.host.random = m.host.random
  named : ∀ {m m'}, R m m' → ∀ name, m'.moduleNamed? name = m.moduleNamed? name
  vars : ∀ {m m'}, R m m' → ∀ id, (m'.moduleAt id).vars = (m.moduleAt id).vars
  functions : ∀ {m m'}, R m m' → ∀ id, (m'.moduleAt id).functions = (m.moduleAt id).functions
  setVars : ∀ {m m'}, R m m' → ∀ id (f : Variables → Variables),
    R (m.updateModule id fun mod => { mod with vars := f mod.vars })
      (m'.updateModule id fun mod => { mod with vars := f mod.vars })
  setDice : ∀ {m m'}, R m m' → ∀ dice, R { m with dice } { m' with dice }

section

variable {R : Machine → Machine → Prop} {emit emit' : Item → Run Unit}
  (hemit : ∀ item, Twins R (emit item) (emit' item))

include hemit

theorem twins_emitAll (items : List Item) : Twins R (emitAll emit items) (emitAll emit' items) := by
  induction items with
  | nil => exact blind_pure ()
  | cons item items ih => exact (hemit item).bind fun _ => ih

namespace Scan

theorem twins_separate (s : Scan) (mark : String) :
    Twins R (s.separate emit mark) (s.separate emit' mark) :=
  .bind (blind_liftM _) fun _ => (twins_emitAll hemit _).bind fun _ => blind_pure _

theorem twins_beforeToken (s : Scan) (t : Token) :
    Twins R (s.beforeToken emit t) (s.beforeToken emit' t) :=
  .ite (.ite (blind_throw _) (twins_separate hemit s ";")) (blind_pure s)

theorem twins_finish (s : Scan) : Twins R (s.finish emit) (s.finish emit') :=
  .ite (blind_fail _ _) (.bind (blind_liftM _) fun _ => (twins_emitAll hemit _).bind fun _ =>
    blind_pure _)

theorem twins_step (s : Scan) (t : Token) : Twins R (s.step emit t) (s.step emit' t) := by
  cases t with
  | number | integer =>
    exact (blind_liftM _).bind fun _ => (blind_liftM _).bind fun _ => blind_pure _
  | string | literal | unary | openParen => exact (blind_liftM _).bind fun _ => blind_pure _
  | word | ident | qualifier => exact blind_pure _
  | comma => exact .ite ((twins_separate hemit s ",").map _) (blind_fail _ _)
  | operator =>
    exact .ite ((twins_separate hemit s ";").map _)
      (.ite ((blind_liftM _).bind fun _ => blind_pure _) (blind_throw _))
  | closeParen =>
    exact .ite (blind_pure _) (.ite ((blind_liftM _).bind fun _ => blind_pure _) (blind_throw _))
  | command | fileHandle => exact blind_fail _ _

end Scan

end

namespace Unseen

variable {R : Machine → Machine → Prop} (hR : Unseen R)

include hR

theorem blind_call_builtin (f : BuiltinFunction) (args : List Value) : Blind R (f.call args) := by
  intro m m' h
  have hdrawn : drawn m' args = drawn m args := by simp only [drawn, hR.dice h, hR.random h]
  have hvalue : f.value m' args = f.value m args := by
    cases f with
    | PEEK => simp only [BuiltinFunction.value, peek, hR.memory h]
    | POS => simp only [BuiltinFunction.value, cursorColumn, hR.column h]
    | TAB => simp only [BuiltinFunction.value, tabulate, hR.column h]
    | RND => simp only [BuiltinFunction.value, hdrawn]
    | _ => rfl
  refine .of_get ?_
  rw [hvalue, hdrawn]
  cases f.value m args with
  | error e => exact .error e h
  | ok v =>
    rw [liftM_ok, pure_bind_run, pure_bind_run]
    split
    · cases drawn m args with
      | error e => exact .error e h
      | ok dice => exact .ok v (hR.setDice h dice)
    · exact .ok v h

theorem blind_findModule (name : String) : Blind R (findModule name) := by
  refine fun m m' h => .of_get ?_
  rw [hR.named h]
  split
  · exact blind_pure _ m m' h
  · exact blind_throw _ m m' h

theorem blind_variableScope : Blind R (return (← get).scopes.variableModule : Run ModuleId) := by
  refine fun m m' h => .of_get ?_
  rw [hR.scopes h]
  exact blind_pure _ m m' h

theorem blind_qualifiedModule (t : Token) : Blind R (qualifiedModule t) := by
  cases t with
  | qualifier name => exact hR.blind_findModule name
  | _ => exact hR.blind_variableScope

theorem blind_updateVars (home : ModuleId) (f : Variables → Variables) :
    Blind R (updateModule home fun mod => { mod with vars := f mod.vars }) :=
  fun _ _ h => .of_modify (hR.setVars h home f)

theorem blind_scalarValue (home : ModuleId) (name : String) :
    Blind R (scalarValue home name) := by
  refine (hR.blind_updateVars home (·.touch name)).bind fun _ m m' h => .of_get ?_
  rw [hR.vars h]
  exact blind_pure _ m m' h

theorem blind_elementValue (home : ModuleId) (name : String) (args : List Value) :
    Blind R (elementValue home name args) := by
  refine (blind_liftM _).bind fun index m m' h => .of_get ?_
  dsimp only
  rw [hR.vars h]
  exact (blind_liftM _).bind (fun _ => blind_liftM _) m m' h

section

variable {call : Call} (hcall : ∀ home key args, Blind R (call home key args))

include hcall

theorem blind_plainOperand (fnCall : Bool) (home : ModuleId) (name : String) :
    Blind R (plainOperand call fnCall home name) := by
  refine fun m m' h => .of_get ?_
  rw [hR.functions h]
  exact Blind.ite (hcall home _ []) (hR.blind_scalarValue home name) m m' h

theorem blind_appliedOperand (fnCall : Bool) (home : ModuleId) (name : String)
    (args : List Value) : Blind R (appliedOperand call fnCall home name args) := by
  refine fun m m' h => .of_get ?_
  rw [hR.vars h, hR.registry h, hR.functions h]
  refine Blind.ite (hR.blind_elementValue home name args) ?_ m m' h
  split
  · rename_i f _
    cases f with
    | builtin b => exact hR.blind_call_builtin b args
    | added run => exact blind_liftM _
  · exact .ite (hcall home _ args) (blind_throw _)

theorem blind_operandWith {arguments : List Token → Run (List Item × List Token)} {ref : Reference}
    (h : ∀ inner, ref.args = some inner → Blind R (arguments inner)) (fnCall : Bool)
    (home : ModuleId) : Blind R (operandWith call arguments fnCall home ref) := by
  rw [operandWith]
  split
  · exact hR.blind_plainOperand hcall _ _ _
  · rename_i inner ha
    have applied (args : List Value) := hR.blind_appliedOperand hcall fnCall home ref.name args
    dsimp only
    split
    · exact applied []
    · exact (h inner ha).bind fun result => .ite (blind_throw _) (applied _)

/-- Passes that hand their items on to two who do alike. -/
theorem twins_scan {emit emit' : Item → Run Unit}
    (hemit : ∀ item, Twins R (emit item) (emit' item)) (s : Scan) (tokens : List Token) :
    Twins R (scan call emit s tokens) (scan call emit' s tokens) := by
  cases tokens with
  | nil =>
    rw [scan, scan]
    exact (Scan.twins_finish hemit s).bind fun _ => blind_pure _
  | cons t ts =>
    have hbefore := Scan.twins_beforeToken hemit s t
    cases ht : t.startsName with
    | false =>
      rw [scan_other ht, scan_other ht]
      refine hbefore.bind fun s => (Scan.twins_step hemit s t).bind fun next => ?_
      cases next with
      | some s => exact twins_scan hemit s ts
      | none => exact (Scan.twins_finish hemit s).bind fun _ => blind_pure _
    | true =>
      cases h : Reference.split expectedName (t :: ts) with
      | error f =>
        rw [scan_unnamed ht h, scan_unnamed ht h]
        exact hbefore.bind fun _ => (hR.blind_qualifiedModule t).bind fun _ => blind_throw f
      | ok found =>
        obtain ⟨ref, rest⟩ := found
        obtain ⟨hrest, hinner⟩ := Reference.length_split h
        rw [scan_name ht h, scan_name ht h]
        refine hbefore.bind fun s => Twins.bind (hR.blind_qualifiedModule t) fun home => ?_
        refine Twins.bind (hR.blind_operandWith hcall (fun inner ha => ?_) _ home) fun v => ?_
        · have := hinner inner ha
          exact twins_scan (fun _ => blind_pure _) {} inner
        · exact Twins.bind (blind_liftM _) fun _ => twins_scan hemit _ rest
termination_by tokens.length
decreasing_by all_goals (simp only [List.length_cons] at *; omega)

theorem twins_evaluateWith {emit emit' : Item → Run Unit}
    (hemit : ∀ item, Twins R (emit item) (emit' item)) (tokens : List Token) :
    Twins R (evaluateWith call emit tokens) (evaluateWith call emit' tokens) :=
  (hR.twins_scan hcall hemit {} tokens).bind fun _ => blind_pure _

theorem blind_evaluateSingleWith (tokens : List Token) :
    Blind R (evaluateSingleWith call tokens) :=
  (hR.twins_evaluateWith hcall (fun _ => blind_pure _) tokens).bind fun _ =>
    .ite (blind_throw _) (blind_liftM _)

end

theorem blind_callDefined (n : Nat) (home : ModuleId) (key : String) (args : List Value) :
    Blind R (callDefined n home key args) := by
  rw [callDefined.eq_def]
  refine fun m m' h => .of_get ?_
  rw [hR.functions h]
  split
  · exact blind_fail _ _ m m' h
  · refine Blind.ite (blind_throw _) ?_ m m' h
    split
    · exact blind_fail _ _
    · rename_i k
      exact (blind_liftM _).bind fun body =>
        hR.blind_evaluateSingleWith (blind_callDefined k) body

theorem twins_evaluateEmitting {emit emit' : Item → Run Unit}
    (hemit : ∀ item, Twins R (emit item) (emit' item)) (tokens : List Token) :
    Twins R (evaluateEmitting emit tokens) (evaluateEmitting emit' tokens) :=
  hR.twins_evaluateWith (hR.blind_callDefined maxCallDepth) hemit tokens

theorem blind_evaluate (tokens : List Token) : Blind R (evaluate tokens) :=
  hR.twins_evaluateEmitting (fun _ => blind_pure _) tokens

theorem blind_evaluateAll (tokens : List Token) : Blind R (evaluateAll tokens) :=
  (hR.blind_evaluate tokens).bind fun _ => .ite (blind_throw _) (blind_pure _)

theorem blind_evaluateSingle (tokens : List Token) : Blind R (evaluateSingle tokens) :=
  hR.blind_evaluateSingleWith (hR.blind_callDefined maxCallDepth) tokens

theorem blind_evaluateSubscripts (tokens : List Token) :
    Blind R (evaluateSubscripts tokens) :=
  .ite (blind_pure _) ((hR.blind_evaluateAll tokens).bind fun _ => blind_liftM _)

theorem blind_store (place : Place) (v : Value) : Blind R (place.store v) := by
  refine fun m m' h => .of_get ?_
  rw [hR.vars h]
  exact (blind_liftM _).bind (fun vars => hR.blind_updateVars _ fun _ => vars) m m' h

theorem blind_dimension (home : ModuleId) (name : String) (bounds : List Nat) :
    Blind R (dimension home name bounds) := by
  refine fun m m' h => .of_get ?_
  rw [hR.vars h]
  exact (blind_liftM _).bind (fun vars => hR.blind_updateVars _ fun _ => vars) m m' h

theorem blind_targetPlace (home : ModuleId) (ref : Reference) : Blind R (targetPlace home ref) := by
  have located (index : List Nat) : Blind R (do
      let offset ← ((← get).moduleAt home).vars.arrayOffset ref.name index
      return Place.element home ref.name offset) := by
    refine fun m m' h => .of_get ?_
    rw [hR.vars h]
    exact (blind_liftM _).bind (fun _ => blind_pure _) m m' h
  rw [targetPlace]
  split
  · exact (hR.blind_updateVars home (·.touch ref.name)).bind fun _ => blind_pure _
  · refine (hR.blind_evaluateSubscripts _).bind fun index m m' h => .of_get ?_
    dsimp only
    rw [hR.vars h]
    split
    · exact (hR.blind_dimension _ _ _).bind (fun _ => located index) m m' h
    · exact located index m m' h

end Unseen

theorem blind_visitNames {α : Type} {R : Machine → Machine → Prop} {rule : NameList}
    {visit : ModuleId → Reference → Run α} (hmodule : ∀ t, Blind R (targetModule t))
    (hvisit : ∀ home ref, Blind R (visit home ref)) (tokens : List Token) :
    Blind R (visitNames rule visit tokens) :=
  visitNames_rule (Q := Blind R) blind_pure .bind (blind_throw _) (fun _ f _ => blind_throw f)
    (blind_throw _) hmodule hvisit tokens

end LineBasic
