import LineBasic.Proofs.Evaluation
import LineBasic.Proofs.Expression.Pass
import LineBasic.Proofs.Unbounded

/-!
# Calls that are counted

Written down as it is, the recursion of evaluation has no bound: a body is evaluated by a pass that
may call functions, whose bodies are evaluated in turn. What bounds it is a counter of the calls
that are under way. With the counter in place every evaluation ends, and leaves the counter as it
was. So a machine is after an evaluation what it was before, but for zeros and the dice.
-/

set_option autoImplicit false

namespace LineBasic

open Run Limited Unbounded

structure Meter where
  depth : Nat := 0
  peak : Nat := 0

namespace Meter

def opened (r : Meter) : Meter := { depth := r.depth + 1, peak := max r.peak (r.depth + 1) }

def closed (r : Meter) : Meter := { r with depth := r.depth - 1 }

structure Returns (r r' : Meter) : Prop where
  depth : r'.depth = r.depth
  peak : r.peak ≤ r'.peak
  bounded : r'.peak ≤ max r.peak maxCallDepth

theorem Returns.refl (r : Meter) : r.Returns r := ⟨rfl, Nat.le_refl _, Nat.le_max_left _ _⟩

theorem Returns.trans {r₁ r₂ r₃ : Meter} (h : r₁.Returns r₂) (h' : r₂.Returns r₃) :
    r₁.Returns r₃ where
  depth := h'.depth.trans h.depth
  peak := Nat.le_trans h.peak h'.peak
  bounded := by
    have hfirst := h.bounded
    have hsecond := h'.bounded
    omega

theorem Returns.nested {r r' : Meter} (h : r.opened.Returns r') (hr : r.depth < maxCallDepth) :
    r.Returns r'.closed where
  depth := by
    have hdepth : r'.depth = r.depth + 1 := h.depth
    change r'.depth - 1 = r.depth
    omega
  peak := Nat.le_trans (Nat.le_max_left _ _) h.peak
  bounded := by
    have hbounded : r'.peak ≤ max (max r.peak (r.depth + 1)) maxCallDepth := h.bounded
    change r'.peak ≤ _
    omega

end Meter

/-! ### Evaluation with a counter -/

def nested {α : Type} (x : Limited Meter α) : Limited Meter α := do
  record Meter.opened
  let result ← caught x
  record Meter.closed
  lift (liftM result)

def countedCall (value : List Token → Limited Meter Value) (home : ModuleId) (key : String)
    (args : List Value) : Limited Meter Value := do
  let m ← lift get
  match (m.moduleAt home).functions.get? key with
  | none => lift (Run.fail .undefinedVariable "FUNCTION NOT DEFINED")
  | some f =>
    if f.params.length ≠ args.length then throw (.plain .argumentCount)
    if maxCallDepth ≤ (← recorded).depth then
      lift (Run.fail .formulaTooComplex "FN NESTED TOO DEEP")
    else
      let body ← lift (liftM (substitute (f.params.zip args) false f.body))
      nested (value body)

abbrev CountedCall := ModuleId → String → List Value → Limited Meter Value

def countedPlain (call : CountedCall) (fnCall : Bool) (home : ModuleId) (name : String) :
    Limited Meter Value := do
  let key := functionKey fnCall name
  if fnCall || ((← lift get).moduleAt home).functions.contains key then call home key []
  else lift (scalarValue home name)

def countedApplied (call : CountedCall) (fnCall : Bool) (home : ModuleId) (name : String)
    (args : List Value) : Limited Meter Value := do
  let m ← lift get
  let key := functionKey fnCall name
  if !fnCall && (m.moduleAt home).vars.hasArray name then lift (elementValue home name args)
  else match if fnCall then none else m.registry.functions.get? name with
    | some f => lift (f.call args)
    | none =>
      if (m.moduleAt home).functions.contains key then call home key args
      else throw (.plain .undefinedVariable)

def countedOperand (call : CountedCall)
    (arguments : List Token → Limited Meter (List Item × List Token)) (fnCall : Bool)
    (home : ModuleId) (ref : Reference) : Limited Meter Value :=
  match ref.args with
  | none => countedPlain call fnCall home ref.name
  | some inner => do
    let args ←
      if inner.isEmpty then pure []
      else do
        let result ← arguments inner
        if !result.2.isEmpty then throw (.plain .badSyntax)
        pure (Item.values result.1)
    countedApplied call fnCall home ref.name args

def countedValue (pass : List Token → Limited Meter (List Item × List Token))
    (tokens : List Token) : Limited Meter Value := do
  let result ← pass tokens
  if tokens.length - result.2.length ≠ tokens.length then throw (.plain .badSyntax)
  lift (liftM (Item.single result.1))

def countedScan : Nat → (Item → Run Unit) → Scan → List Token →
    Limited Meter (List Item × List Token)
  | 0, _, _, _ => giveUp
  | _ + 1, emit, s, [] => do return (← lift (s.finish emit), [])
  | n + 1, emit, s, t :: ts => do
    let s ← lift (s.beforeToken emit t)
    if t.startsName then
      let home ← lift (qualifiedModule t)
      let parts ← lift (liftM (Reference.split expectedName (t :: ts)))
      let pass := countedScan n ignore {}
      let v ← countedOperand (countedCall (countedValue pass)) pass s.fnCall home parts.1
      let s ← lift (liftM (s.withValue v))
      countedScan n emit { s with fnCall := false } parts.2
    else
      match ← lift (s.step emit t) with
      | some s => countedScan n emit s ts
      | none => return (← lift (s.finish emit), t :: ts)

def countedEvaluate (n : Nat) (tokens : List Token) : Limited Meter (List Item × Nat) := do
  let result ← countedScan n ignore {} tokens
  return (result.1, tokens.length - result.2.length)

def countedEvaluateSingle (n : Nat) (tokens : List Token) : Limited Meter Value :=
  countedValue (countedScan n ignore {}) tokens

/-! ### Evaluation ends -/

abbrev Comes {α : Type} (m : Machine) (r : Meter) (x : Unbounded Meter α) (y : Run α) : Prop :=
  EndsAs Meter.Returns (m, r) x y

section

variable {α β : Type} {m : Machine} {r : Meter}

theorem comes_lift (y : Run α) : Comes m r (fun _ => lift y) y := endsAs_lift .refl y

theorem comes_throw (f : Fault) : Comes m r (fun _ => (throw f : Limited Meter α)) (throw f) :=
  endsAs_throw .refl f

theorem Comes.bind {x : Unbounded Meter α} {y : Run α} {f : Nat → α → Limited Meter β}
    {g : α → Run β} (hx : Comes m r x y)
    (hf : ∀ a m₁ r₁, y m = .ok a m₁ → r₁.depth = r.depth → Comes m₁ r₁ (fun n => f n a) (g a)) :
    Comes m r (fun n => x n >>= f n) (y >>= g) :=
  EndsAs.bind .trans hx fun a m₁ r₁ ha hr => hf a m₁ r₁ ha hr.depth

/-- What is lifted comes to its answer without a call. -/
theorem Comes.lift_bind {y : Run α} {f : Nat → α → Limited Meter β} {g : α → Run β}
    (hf : ∀ a m₁ r₁, y m = .ok a m₁ → r₁.depth = r.depth → Comes m₁ r₁ (fun n => f n a) (g a)) :
    Comes m r (fun n => lift y >>= f n) (y >>= g) :=
  Comes.bind (comes_lift y) hf

theorem Comes.recorded_bind {f : Nat → Meter → Limited Meter α} {y : Run α}
    (h : Comes m r (fun n => f n r) y) : Comes m r (fun n => recorded >>= f n) y := h

theorem Comes.nested {x : Unbounded Meter α} {y : Run α} (h : Comes m r.opened x y)
    (hr : r.depth < maxCallDepth) : Comes m r (fun n => LineBasic.nested (x n)) y := by
  obtain ⟨r', hr', limit, hx⟩ := h
  refine ⟨r'.closed, hr'.nested hr, limit, fun n hn => ?_⟩
  change (x n (m, r.opened)).map _ >>= _ = _
  rw [hx n hn]
  cases y m <;> rfl

end

/-- A call goes one level deeper, unless there is none left. -/
theorem countedCall_comes {k : Nat} {value : Nat → List Token → Limited Meter Value}
    (hvalue : ∀ j, k = j + 1 → ∀ body m r, r.depth + j = maxCallDepth →
      Comes m r (fun n => value n body) (evaluateSingleWith (callDefined j) body))
    {r : Meter} (hr : r.depth + k = maxCallDepth) (home : ModuleId) (key : String)
    (args : List Value) (m : Machine) :
    Comes m r (fun n => countedCall (value n) home key args) (callDefined k home key args) := by
  rw [callDefined.eq_def]
  refine Comes.lift_bind fun m₁ m₂ r₁ _ hr₁ => ?_
  cases (m₁.moduleAt home).functions.get? key with
  | none => exact comes_lift _
  | some f =>
    dsimp only
    split
    · exact comes_throw _
    · refine Comes.recorded_bind ?_
      cases k with
      | zero =>
        have hfull : maxCallDepth ≤ r₁.depth := by omega
        simp only [if_pos hfull]
        exact comes_lift _
      | succ j =>
        have hroom : ¬ maxCallDepth ≤ r₁.depth := by omega
        simp only [if_neg hroom]
        refine Comes.lift_bind fun body m₃ r₂ _ hr₂ => Comes.nested ?_ (by omega)
        refine hvalue j rfl body m₃ r₂.opened ?_
        change r₂.depth + 1 + j = maxCallDepth
        omega

section

variable {call : Nat → CountedCall} {call' : Call} {r : Meter}
  (hcall : ∀ r', r'.depth = r.depth → ∀ home key args m,
    Comes m r' (fun n => call n home key args) (call' home key args))

include hcall

theorem countedPlain_comes (fnCall : Bool) (home : ModuleId) (name : String) (m : Machine) :
    Comes m r (fun n => countedPlain (call n) fnCall home name)
      (plainOperand call' fnCall home name) := by
  refine Comes.lift_bind fun m₁ m₂ r₁ _ hr₁ => ?_
  split
  · exact hcall r₁ hr₁ home _ [] m₂
  · exact comes_lift _

theorem countedApplied_comes (fnCall : Bool) (home : ModuleId) (name : String)
    (args : List Value) (m : Machine) :
    Comes m r (fun n => countedApplied (call n) fnCall home name args)
      (appliedOperand call' fnCall home name args) := by
  refine Comes.lift_bind fun m₁ m₂ r₁ _ hr₁ => ?_
  dsimp only
  split
  · exact comes_lift _
  · cases (if fnCall then none else m₁.registry.functions.get? name) with
    | some f => exact comes_lift _
    | none =>
      dsimp only
      split
      · exact hcall r₁ hr₁ home _ args m₂
      · exact comes_throw _

theorem countedOperand_comes
    {arguments : Nat → List Token → Limited Meter (List Item × List Token)}
    {arguments' : List Token → Run (List Item × List Token)} {ref : Reference}
    (harguments : ∀ inner, ref.args = some inner → ∀ m,
      Comes m r (fun n => arguments n inner) (arguments' inner))
    (fnCall : Bool) (home : ModuleId) (m : Machine) :
    Comes m r (fun n => countedOperand (call n) (arguments n) fnCall home ref)
      (operandWith call' arguments' fnCall home ref) := by
  simp only [countedOperand, operandWith]
  cases hargs : ref.args with
  | none => exact countedPlain_comes hcall fnCall home ref.name m
  | some inner =>
    dsimp only
    split
    · exact countedApplied_comes hcall fnCall home ref.name [] m
    · refine (harguments inner hargs m).bind fun result m₁ r₁ _ hr₁ => ?_
      have hcall₁ : ∀ r', r'.depth = r₁.depth → ∀ home key args m,
          Comes m r' (fun n => call n home key args) (call' home key args) :=
        fun r' hr' => hcall r' (hr'.trans hr₁)
      split
      · exact comes_throw _
      · exact countedApplied_comes hcall₁ fnCall home ref.name _ m₁

end

theorem countedScan_comes_of_calls {call : Nat → CountedCall} {call' : Call} {depth : Nat}
    (hpass : ∀ n, call n = countedCall (countedValue (countedScan n ignore {})))
    (hcall : ∀ r, r.depth = depth → ∀ home key args m,
      Comes m r (fun n => call n home key args) (call' home key args))
    (tokens : List Token) {r : Meter} (hr : r.depth = depth) (emit : Item → Run Unit) (s : Scan)
    (m : Machine) :
    Comes m r (fun n => countedScan n emit s tokens) (scan call' emit s tokens) := by
  -- Each token takes one round more, and the calls behind it are counted from the same depth.
  induction tokens using pass_induction generalizing r emit s m with
  | nil =>
    refine EndsAs.succ ?_
    rw [scan]
    exact Comes.lift_bind fun items m₁ r₁ _ _ => comes_lift (pure _)
  | other t ts ht ih =>
    refine EndsAs.succ ?_
    rw [scan_other ht]
    refine Comes.lift_bind fun s₁ m₁ r₁ _ hr₁ => ?_
    simp only [ht, Bool.false_eq_true, if_false]
    refine Comes.lift_bind fun next m₂ r₂ _ hr₂ => ?_
    cases next with
    | some s₂ => exact ih (hr₂.trans (hr₁.trans hr)) emit s₂ m₂
    | none => exact Comes.lift_bind fun items m₃ r₃ _ _ => comes_lift (pure _)
  | unnamed t ts f ht hsplit =>
    refine EndsAs.succ ?_
    rw [scan_unnamed ht hsplit]
    refine Comes.lift_bind fun s₁ m₁ r₁ _ hr₁ => ?_
    simp only [ht, if_true]
    refine Comes.lift_bind fun home m₂ r₂ _ hr₂ => ?_
    rw [hsplit]
    exact comes_throw f
  | name t ts ref rest ht hsplit hinner hrest =>
    refine EndsAs.succ ?_
    rw [scan_name ht hsplit]
    refine Comes.lift_bind fun s₁ m₁ r₁ _ hr₁ => ?_
    simp only [ht, if_true]
    refine Comes.lift_bind fun home m₂ r₂ _ hr₂ => ?_
    have hdepth : r₂.depth = depth := hr₂.trans (hr₁.trans hr)
    rw [hsplit]
    simp only [← hpass]
    have hoperand : Comes m₂ r₂
        (fun n => countedOperand (call n) (countedScan n ignore {}) s₁.fnCall home ref)
        (operandWith call' (scan call' ignore {}) s₁.fnCall home ref) :=
      countedOperand_comes (fun r' hr' => hcall r' (hr'.trans hdepth))
        (fun inner ha m => hinner inner ha hdepth ignore {} m) s₁.fnCall home m₂
    refine Comes.bind hoperand fun v m₃ r₃ _ hr₃ => ?_
    refine Comes.lift_bind fun s₂ m₄ r₄ _ hr₄ => ?_
    exact hrest (hr₄.trans (hr₃.trans hdepth)) emit _ m₄

theorem countedValue_comes {call : Call}
    {pass : Nat → List Token → Limited Meter (List Item × List Token)} {tokens : List Token}
    {r : Meter} {m : Machine}
    (h : Comes m r (fun n => pass n tokens) (scan call ignore {} tokens)) :
    Comes m r (fun n => countedValue (pass n) tokens) (evaluateSingleWith call tokens) := by
  rw [evaluateSingleWith, evaluateWith, bind_assoc]
  refine Comes.bind h fun result m₁ r₁ _ hr₁ => ?_
  simp only [pure_bind_run]
  split
  · exact comes_throw _
  · exact comes_lift _

/-- The outer recursion is on the levels of calls that are left, the inner one on the tokens. -/
theorem countedScan_comes {k : Nat} {r : Meter} (hr : r.depth + k = maxCallDepth)
    (tokens : List Token) (emit : Item → Run Unit) (s : Scan) (m : Machine) :
    Comes m r (fun n => countedScan n emit s tokens) (scan (callDefined k) emit s tokens) := by
  induction k generalizing r tokens emit s m with
  | zero =>
    refine countedScan_comes_of_calls (fun _ => rfl) (fun r' hr' => ?_) tokens rfl emit s m
    exact countedCall_comes (fun j hj => by cases hj) (by rw [hr', hr])
  | succ k ih =>
    refine countedScan_comes_of_calls (fun _ => rfl) (fun r' hr' => ?_) tokens rfl emit s m
    refine countedCall_comes (fun j hj body m r hr => ?_) (by rw [hr', hr])
    cases hj
    exact countedValue_comes (ih hr body ignore {} m)

theorem countedCall_returns {k : Nat} {r : Meter} (hr : r.depth + k = maxCallDepth)
    (home : ModuleId) (key : String) (args : List Value) (m : Machine) :
    Comes m r (fun n => countedCall (countedValue (countedScan n ignore {})) home key args)
      (callDefined k home key args) := by
  refine countedCall_comes (fun j _ body m r hr => ?_) hr home key args m
  exact countedValue_comes (countedScan_comes hr body ignore {} m)

/-- From a depth on, a run ends with a result. All its calls have come back, and there never were
more of them under way than may be. -/
def Settles {α : Type} (x : Unbounded Meter α) (m : Machine) (r : Meter)
    (result : EStateM.Result Fault Machine α) : Prop :=
  ∃ r', r'.depth = r.depth ∧ r'.peak ≤ maxCallDepth ∧
    ∃ limit, ∀ n, limit ≤ n → x n (m, r) = some (ending r' result)

theorem Comes.settles {α : Type} {x : Unbounded Meter α} {y : Run α} {m : Machine} {r : Meter}
    (h : Comes m r x y) (hr : r.peak ≤ maxCallDepth) : Settles x m r (y m) := by
  obtain ⟨r', hreturns, hx⟩ := h
  refine ⟨r', hreturns.depth, ?_, hx⟩
  have hbounded : r'.peak ≤ max r.peak maxCallDepth := hreturns.bounded
  omega

theorem countedEvaluate_comes (tokens : List Token) (m : Machine) :
    Comes m {} (fun n => countedEvaluate n tokens) (evaluate tokens) :=
  Comes.bind (countedScan_comes rfl tokens ignore {} m) fun _ _ _ _ _ => comes_lift (pure _)

theorem countedEvaluateSingle_comes (tokens : List Token) (m : Machine) :
    Comes m {} (fun n => countedEvaluateSingle n tokens) (evaluateSingle tokens) :=
  countedValue_comes (countedScan_comes rfl tokens ignore {} m)

/-- Evaluation, whether it gives items or fails, leaves all of a machine but its dice as it is, and
of every module all but its scalars. No name has another value afterwards: the scalars are those
from before, and some more that have the zero value of their names. All calls of functions have come
back then: the evaluation that counts them ends as well, in the same way, and with no call counted
that is still under way. -/
theorem evaluation_keeps_state (tokens : List Token) (m : Machine) :
    let m' := (evaluate tokens).final m
    m' = { m with modules := m'.modules, dice := m'.dice } ∧
      m'.modules.length = m.modules.length ∧
      (∀ id,
        (∃ scalars, m'.moduleAt id =
          { m.moduleAt id with vars := { (m.moduleAt id).vars with scalars } }) ∧
        (∀ name, (m'.moduleAt id).vars.fetch name = (m.moduleAt id).vars.fetch name) ∧
        ∀ name, (m'.moduleAt id).vars.scalars.get? name = (m.moduleAt id).vars.scalars.get? name ∨
          (m.moduleAt id).vars.scalars.get? name = none ∧
            (m'.moduleAt id).vars.scalars.get? name = some (Value.zeroFor name)) ∧
      Settles (fun n => countedEvaluate n tokens) m {} (evaluate tokens m) := by
  intro m'
  have hevaluated : m.Evaluated m' := (obeys_evaluate tokens m).leads
  have hcounted := (countedEvaluate_comes tokens m).settles (Nat.zero_le _)
  refine ⟨hevaluated.rest, hevaluated.count, fun id => ?_, hcounted⟩
  obtain ⟨hmodule, htouched⟩ := hevaluated.modules id
  refine ⟨⟨(m'.moduleAt id).vars.scalars, ?_⟩, htouched.fetch, htouched.scalars⟩
  dsimp only
  rw [← htouched.arrays]
  exact hmodule

end LineBasic
