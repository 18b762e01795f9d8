import LineBasic.Expression.Place
import LineBasic.Proofs.Expression.Grammar
import LineBasic.Proofs.Expression.Pending

/-!
# A pass over an arithmetic expression

Tokens of arithmetic neither read nor change the machine. The pass over the tokens of an ordered
formula makes the pushes of that formula.
-/

set_option autoImplicit false

namespace LineBasic

def Token.isArithmetic : Token → Bool
  | unary op => op.isUnary
  | operator op => op.isBinary
  | openParen | closeParen => true
  | t => t.isLiteral

theorem scan_cons (call : Call) (emit : Item → Run Unit) (s : Scan) {t : Token} (ts : List Token)
    (ht : t.isArithmetic = true) :
    scan call emit s (t :: ts) = (do
      let s ← s.beforeToken emit t
      match ← s.step emit t with
      | some s => scan call emit s ts
      | none => do return (← s.finish emit, t :: ts)) := by
  rw [scan]
  cases t with
  | ident | qualifier => cases ht
  | _ => rfl

def operandWith (call : Call) (arguments : List Token → Run (List Item × List Token))
    (fnCall : Bool) (home : ModuleId) (ref : Reference) : Run Value :=
  match ref.args with
  | none => plainOperand call fnCall home ref.name
  | some inner => do
    let args ←
      if inner.isEmpty then pure []
      else do
        let (items, after) ← arguments inner
        if !after.isEmpty then Run.syntaxError
        pure (Item.values items)
    appliedOperand call fnCall home ref.name args

theorem operandWith_bind {β : Type} (call : Call)
    (arguments : List Token → Run (List Item × List Token)) (fnCall : Bool) (home : ModuleId)
    {ref : Reference} {inner : List Token} (h : ref.args = some inner) (k : Value → Run β) :
    (operandWith call arguments fnCall home ref >>= k) =
      if inner.isEmpty then appliedOperand call fnCall home ref.name [] >>= k
      else (do
        let result ← arguments inner
        if !result.2.isEmpty then Run.syntaxError
        appliedOperand call fnCall home ref.name (Item.values result.1) >>= k) := by
  simp only [operandWith, h]
  split
  · rfl
  · rw [bind_assoc]
    refine bind_congr fun result => ?_
    split <;> rfl

section

variable {call : Call} {emit : Item → Run Unit} {s : Scan} {t : Token} {ts rest : List Token}
  {ref : Reference}

theorem scan_name (ht : t.startsName = true)
    (h : Reference.split expectedName (t :: ts) = .ok (ref, rest)) :
    scan call emit s (t :: ts) = (do
      let s ← s.beforeToken emit t
      let home ← qualifiedModule t
      let v ← operandWith call (scan call ignore {}) s.fnCall home ref
      let s ← s.withValue v
      scan call emit { s with fnCall := false } rest) := by
  rw [scan]
  refine bind_congr fun s => ?_
  cases t with
  | ident | qualifier =>
    refine bind_congr fun home => ?_
    split <;> rename_i heq <;> cases h.symm.trans heq
    dsimp only
    split <;> rename_i ha
    · simp only [operandWith, ha]
    · rw [operandWith_bind call _ _ home ha]
      rfl
  | _ => cases ht

theorem scan_unnamed {f : Fault} (ht : t.startsName = true)
    (h : Reference.split expectedName (t :: ts) = .error f) :
    scan call emit s (t :: ts) = (do
      let _ ← s.beforeToken emit t
      let _ ← qualifiedModule t
      throw f) := by
  rw [scan]
  refine bind_congr fun s => ?_
  cases t with
  | ident | qualifier =>
    refine bind_congr fun home => ?_
    split <;> rename_i heq <;> cases h.symm.trans heq
    rfl
  | _ => cases ht

theorem scan_other (ht : t.startsName = false) :
    scan call emit s (t :: ts) = (do
      let s ← s.beforeToken emit t
      match ← s.step emit t with
      | some s => scan call emit s ts
      | none => do return (← s.finish emit, t :: ts)) := by
  rw [scan]
  cases t with
  | ident | qualifier => cases ht
  | _ => rfl

end

/-- A pass goes on behind each token, or behind a whole reference, whose arguments have a pass of
their own. -/
@[elab_as_elim]
theorem pass_induction {motive : List Token → Prop} (nil : motive [])
    (other : ∀ t ts, t.startsName = false → motive ts → motive (t :: ts))
    (unnamed : ∀ t ts f, t.startsName = true →
      Reference.split expectedName (t :: ts) = .error f → motive (t :: ts))
    (name : ∀ t ts ref rest, t.startsName = true →
      Reference.split expectedName (t :: ts) = .ok (ref, rest) →
      (∀ inner, ref.args = some inner → motive inner) → motive rest → motive (t :: ts))
    (tokens : List Token) : motive tokens := by
  induction hn : tokens.length using Nat.strongRecOn generalizing tokens with
  | ind n ih =>
    cases tokens with
    | nil => exact nil
    | cons t ts =>
      cases ht : t.startsName with
      | false => exact other t ts ht (ih ts.length (by simp [← hn]) ts rfl)
      | true =>
        cases hsplit : Reference.split expectedName (t :: ts) with
        | error f => exact unnamed t ts f ht hsplit
        | ok parts =>
          obtain ⟨hshorter, hinner⟩ := Reference.length_split hsplit
          refine name t ts parts.1 parts.2 ht hsplit (fun inner ha => ?_) ?_
          · exact ih inner.length (hn ▸ hinner inner ha) inner rfl
          · exact ih parts.2.length (hn ▸ hshorter) parts.2 rfl

namespace Scan

variable (emit : Item → Run Unit) (s : Scan)

theorem beforeToken_of_not_done (hs : s.operandDone = false) (t : Token) :
    s.beforeToken emit t = pure s := by
  simp [beforeToken, hs]

theorem beforeToken_of_not_starts {t : Token} (ht : t.startsOperand = false) :
    s.beforeToken emit t = pure s := by
  simp [beforeToken, ht]

theorem step_literal {t : Token} (ht : t.isLiteral = true) :
    s.step emit t = (do
      let v ← t.literalValue
      return some (← s.withValue v)) := by
  cases t with
  | number | integer | string | literal => rfl
  | _ => cases ht

theorem isArithmetic_of_isLiteral {t : Token} (ht : t.isLiteral = true) :
    t.isArithmetic = true := by
  cases t with
  | number | integer | string | literal => rfl
  | _ => cases ht

end Scan

section

variable (call : Call) (emit : Item → Run Unit) {s : Scan} (ts : List Token)

theorem scan_literal (hs : s.operandDone = false) {t : Token} (ht : t.isLiteral = true) :
    scan call emit s (t :: ts) = (do
      let v ← t.literalValue
      let f ← s.frame.pushValue v
      scan call emit { s with frame := f, operandDone := true } ts) := by
  rw [scan_cons call emit s ts (Scan.isArithmetic_of_isLiteral ht),
    s.beforeToken_of_not_done emit hs, Run.pure_bind_run, s.step_literal emit ht]
  cases t.literalValue with
  | error f => rfl
  | ok v =>
    simp only [Scan.withValue, Run.liftM_ok, Run.pure_bind_run]
    cases s.frame.pushValue v <;> rfl

theorem scan_unary (hs : s.operandDone = false) {op : Operator} (hop : op.isUnary = true) :
    scan call emit s (.unary op :: ts) = (do
      let f ← s.frame.pushPending (.prefixed op)
      scan call emit { s with frame := f } ts) := by
  rw [scan_cons (t := .unary op) call emit s ts hop, s.beforeToken_of_not_done emit hs,
    Run.pure_bind_run]
  simp only [Scan.step]
  cases s.frame.pushPending (.prefixed op) <;> rfl

theorem scan_openParen (hs : s.operandDone = false) :
    scan call emit s (.openParen :: ts) = (do
      let f ← s.frame.pushPending .paren
      scan call emit { s with frame := f, depth := s.depth + 1 } ts) := by
  rw [scan_cons call emit s ts rfl, s.beforeToken_of_not_done emit hs, Run.pure_bind_run]
  simp only [Scan.step]
  cases s.frame.pushPending .paren <;> rfl

theorem scan_operator (hs : s.operandDone = true) {op : Operator} (hop : op.isBinary = true) :
    scan call emit s (.operator op :: ts) = (do
      let f ← s.frame.pushOperator op
      scan call emit { s with frame := f, operandDone := false } ts) := by
  have hsemi : ¬ (s.depth = 0 ∧ op = .semicolon) := by
    rintro ⟨_, rfl⟩
    cases hop
  rw [scan_cons (t := .operator op) call emit s ts hop, s.beforeToken_of_not_starts emit rfl,
    Run.pure_bind_run]
  simp only [Scan.step, hsemi, hs, if_false, if_true]
  cases s.frame.pushOperator op <;> rfl

theorem scan_operator_missing (hs : s.operandDone = false) {op : Operator}
    (hop : op.isBinary = true) : scan call emit s (.operator op :: ts) = throw missingOperand := by
  have hsemi : ¬ (s.depth = 0 ∧ op = .semicolon) := by
    rintro ⟨_, rfl⟩
    cases hop
  rw [scan_cons (t := .operator op) call emit s ts hop, s.beforeToken_of_not_starts emit rfl,
    Run.pure_bind_run]
  simp only [Scan.step, hsemi, hs, if_false, Bool.false_eq_true, Run.throw_bind]

theorem scan_closeParen_missing (hs : s.operandDone = false) (hd : s.depth ≠ 0) :
    scan call emit s (.closeParen :: ts) = throw missingOperand := by
  rw [scan_cons call emit s ts rfl, s.beforeToken_of_not_starts emit rfl, Run.pure_bind_run]
  simp only [Scan.step, hd, hs, if_false, Bool.false_eq_true, Run.throw_bind]

theorem scan_closeParen_unopened (hd : s.depth = 0) :
    scan call emit s (.closeParen :: ts) = (do return (← s.finish emit, .closeParen :: ts)) := by
  rw [scan_cons call emit s ts rfl, s.beforeToken_of_not_starts emit rfl, Run.pure_bind_run]
  simp only [Scan.step, hd, if_true, Run.pure_bind_run]

theorem scan_closeParen (hs : s.operandDone = true) (hd : s.depth ≠ 0) :
    scan call emit s (.closeParen :: ts) = (do
      let f ← s.frame.closeParen
      scan call emit { s with frame := f, depth := s.depth - 1 } ts) := by
  rw [scan_cons call emit s ts rfl, s.beforeToken_of_not_starts emit rfl, Run.pure_bind_run]
  simp only [Scan.step, hd, hs, if_false, if_true]
  cases s.frame.closeParen <;> rfl

end

theorem scan_tokens (call : Call) (emit : Item → Run Unit) {e : Formula} (he : e.Ordered)
    {s : Scan} (hs : s.operandDone = false) (rest : List Token) :
    scan call emit s (e.tokens ++ rest) = (do
      let f ← e.pend s.frame
      scan call emit { s with frame := f, operandDone := true } rest) := by
  induction e generalizing s rest with
  | leaf t =>
    rw [Formula.tokens, List.singleton_append, scan_literal call emit rest hs he, Formula.pend]
    cases t.literalValue <;> rfl
  | group e ih =>
    rw [Formula.tokens, List.cons_append, List.append_assoc, scan_openParen call emit _ hs,
      Formula.pend]
    cases s.frame.pushPending .paren with
    | error f => rfl
    | ok f =>
      simp only [Run.liftM_ok, Run.pure_bind_run, ok_bind]
      rw [ih (s := { s with frame := f, depth := s.depth + 1 }) he hs]
      cases e.pend f with
      | error f => rfl
      | ok g =>
        simp only [Run.liftM_ok, Run.pure_bind_run, ok_bind, List.singleton_append]
        rw [scan_closeParen call emit rest rfl (Nat.succ_ne_zero s.depth)]
        simp only [Nat.add_sub_cancel]
  | prefixed op e ih =>
    rw [Formula.tokens, List.cons_append, scan_unary call emit _ hs he.1, Formula.pend]
    cases s.frame.pushPending (.prefixed op) with
    | error f => rfl
    | ok f =>
      simp only [Run.liftM_ok, Run.pure_bind_run, ok_bind]
      rw [ih (s := { s with frame := f }) he.2.1 hs]
  | binary op l r ihl ihr =>
    rw [Formula.tokens, List.append_assoc, List.cons_append, ihl he.2.1 hs, Formula.pend]
    cases l.pend s.frame with
    | error f => rfl
    | ok f =>
      simp only [Run.liftM_ok, Run.pure_bind_run, ok_bind]
      rw [scan_operator call emit _ rfl he.1]
      cases f.pushOperator op with
      | error f => rfl
      | ok g =>
        simp only [Run.liftM_ok, Run.pure_bind_run, ok_bind]
        rw [ihr (s := { s with frame := g, operandDone := false }) he.2.2.1 rfl]

namespace Formula

/-- What was read last of a formula has left a value. -/
theorem vals_pend_ne_nil {e : Formula} (he : e.Ordered) {f g : Frame} (h : e.pend f = .ok g) :
    g.vals ≠ [] := by
  induction e generalizing f with
  | leaf t =>
    obtain ⟨v, _, hv⟩ := bind_eq_ok.1 h
    rw [Frame.pushValue] at hv
    split at hv <;> cases hv
    exact List.cons_ne_nil v f.vals
  | group e ih =>
    have hr := reduce_pend (e := group e) he f (by simp [Fenced, spine]) (fun _ => false)
      (by simp [edge])
    rw [h, ok_bind, Frame.reduce, Frame.reduceWhile_of_head _ _ _ (by simp)] at hr
    obtain ⟨v, _, hv⟩ := bind_eq_ok.1 hr.symm
    rw [Frame.reduceWhile_of_head _ _ _ (by simp)] at hv
    simp only [Except.ok.injEq, Frame.mk.injEq] at hv
    rw [← hv.1]
    exact List.cons_ne_nil v f.vals
  | prefixed op e ih =>
    obtain ⟨f', _, hg⟩ := bind_eq_ok.1 h
    exact ih he.2.1 hg
  | binary op l r ihl ihr =>
    obtain ⟨f', _, hg⟩ := bind_eq_ok.1 h
    obtain ⟨f'', _, hg⟩ := bind_eq_ok.1 hg
    exact ihr he.2.2.1 hg

theorem flush_pend {e : Formula} (he : e.Ordered) :
    (e.pend {} >>= Frame.flush) =
      (e.evalWithin Frame.maxPending Frame.maxPending >>= fun v => .ok [.value v]) := by
  have hr : (e.pend {} >>= fun g => g.reduce fun _ => true) =
      (e.evalWithin Frame.maxPending Frame.maxPending >>= fun v => .ok ⟨[v], []⟩) :=
    reduce_pend he {} (by simp [Fenced]) (fun _ => true) (fun _ _ => rfl)
  cases hp : e.pend {} with
  | error f =>
    rw [hp, error_bind] at hr
    cases hv : e.evalWithin Frame.maxPending Frame.maxPending with
    | error f' =>
      rw [hv, error_bind] at hr
      rw [error_bind, error_bind, Except.error.inj hr]
    | ok v =>
      rw [hv] at hr
      cases hr
  | ok g =>
    have hne : g.vals.isEmpty = false := by simpa using vals_pend_ne_nil he hp
    rw [hp, ok_bind] at hr
    simp only [ok_bind, Frame.flush, hne, hr, bind_assoc, Bool.false_eq_true, if_false]
    rfl

end Formula

theorem emitAll_ignore (items : List Item) : emitAll ignore items = pure () := by
  induction items with
  | nil => rfl
  | cons item items ih =>
    rw [emitAll, ih]
    rfl

theorem finish_ignore (s : Scan) (hs : s.fnCall = false) :
    s.finish ignore = (do return s.items ++ (← s.frame.flush)) := by
  rw [Scan.finish, hs]
  simp only [emitAll_ignore]
  rfl

theorem scan_nil (call : Call) {s : Scan} (hs : s.fnCall = false) :
    scan call ignore s [] = (do return (s.items ++ (← s.frame.flush), [])) := by
  rw [scan, finish_ignore s hs]
  cases s.frame.flush <;> rfl

theorem scan_formula (call : Call) {e : Formula} (he : e.Ordered) :
    scan call ignore {} e.tokens = (do
      let v ← e.evalWithin Frame.maxPending Frame.maxPending
      return ([.value v], [])) := by
  have hs := scan_tokens call ignore he (s := {}) rfl []
  rw [List.append_nil] at hs
  simp only [scan_nil call, List.nil_append] at hs
  rw [hs, ← bind_assoc, ← Run.liftM_bind, Formula.flush_pend he, Run.liftM_bind, bind_assoc]
  rfl

/-- The value of the tokens of an ordered formula is that of the formula, as long as there is
room. -/
theorem evaluateSingleWith_tokens (call : Call) {e : Formula} (he : e.Ordered) (m : Machine) :
    evaluateSingleWith call e.tokens m =
      outcome m (e.evalWithin Frame.maxPending Frame.maxPending) := by
  rw [evaluateSingleWith, evaluateWith, scan_formula call he]
  cases e.evalWithin Frame.maxPending Frame.maxPending with
  | error f => rfl
  | ok v =>
    simp only [Run.liftM_ok, Run.pure_bind_run, List.length_nil, Nat.sub_zero, ne_eq,
      not_true_eq_false, if_false]
    rfl

end LineBasic
