import LineBasic.Proofs.Expression.Acceptance
import LineBasic.Stack

/-!
# Expressions on stacks

What waits of an expression can be kept on two stacks, with all that can go wrong there: taking from
an empty stack is an internal fault, and so is a parenthesis that closes without having been opened.
Neither comes up. An operator is applied only if its operands are there, and the parentheses that
wait are counted. So the stacks do what the lists of values and operators do.
-/

set_option autoImplicit false

namespace LineBasic

def pendingStack {α : Type} (held : List α) : Stack α :=
  { complaint := "EXPRESSION TOO COMPLEX", limit := Frame.maxPending, held }

structure StackFrame where
  vals : Stack Value := pendingStack []
  ops : Stack Pending := pendingStack []

namespace StackFrame

def noParen : Fault := .because .internal "NO PARENTHESIS"

def pushValue (f : StackFrame) (v : Value) : Except Fault StackFrame := do
  return { f with vals := ← f.vals.pushed v }

def pushPending (f : StackFrame) (p : Pending) : Except Fault StackFrame := do
  return { f with ops := ← f.ops.pushed p }

def applied (vals : Stack Value) : Pending → Except Fault (Stack Value)
  | .binary op => do
    if vals.size < 2 then throw missingOperand
    let (l, r) ← vals.pop2.1
    vals.pop2.2.pushed (← Value.apply op l r)
  | .prefixed op => do
    if vals.isEmpty then throw missingOperand
    let v ← vals.pop.1
    vals.pop.2.pushed (← Value.applyPrefix op v)
  | .paren => throw unclosed

def reduce (f : StackFrame) : Except Fault StackFrame := do
  let x ← f.ops.pop.1
  return { vals := ← applied f.vals x, ops := f.ops.pop.2 }

theorem ops_of_reduce {f g : StackFrame} (h : f.reduce = .ok g) : g.ops.size < f.ops.size := by
  obtain ⟨x, hx, h⟩ := LineBasic.bind_eq_ok.1 h
  obtain ⟨vals, -, h⟩ := LineBasic.bind_eq_ok.1 h
  cases h
  rcases f with ⟨vals, complaint, limit, ops⟩
  cases ops with
  | nil => cases hx
  | cons x ops => exact Nat.lt_succ_self _

def reduceWhile (p : Pending → Bool) (f : StackFrame) : Except Fault StackFrame :=
  match f.ops.top? with
  | none => .ok f
  | some x =>
    if p x then
      match h : f.reduce with
      | .ok g =>
        have := ops_of_reduce h
        reduceWhile p g
      | .error e => .error e
    else .ok f
termination_by f.ops.size
decreasing_by exact ops_of_reduce h

def pushOperator (f : StackFrame) (op : Operator) : Except Fault StackFrame := do
  (← f.reduceWhile (Pending.yieldsTo op)).pushPending (.binary op)

def closeParen (f : StackFrame) : Except Fault StackFrame := do
  let f ← f.reduceWhile fun p => !p.isParen
  if f.ops.isEmpty then throw noParen
  let _ ← f.ops.pop.1
  return { f with ops := f.ops.pop.2 }

def flush (f : StackFrame) : Except Fault (List Item) :=
  if f.vals.isEmpty then f.ops.toList.mapM Pending.mark
  else do
    let f ← f.reduceWhile fun _ => true
    if f.vals.size ≠ 1 then throw missingOperator
    return [.value (← f.vals.pop.1)]

/-! ### Stacks and lists -/

theorem pushed_pendingStack {α : Type} (held : List α) (x : α) :
    (pendingStack held).pushed x =
      if held.length < Frame.maxPending then .ok (pendingStack (x :: held))
      else .error Frame.tooComplex := by
  have hfull : ((pendingStack held).push x).limit < ((pendingStack held).push x).size ↔
      ¬ held.length < Frame.maxPending := Nat.lt_succ_iff.trans Nat.not_lt.symm
  rw [Stack.pushed, Stack.overflow?]
  by_cases h : held.length < Frame.maxPending
  · rw [if_neg fun hover => hfull.1 hover h, if_pos h]
    rfl
  · rw [if_pos (hfull.2 h), if_neg h]
    rfl

/-- Values that have room leave room for the one that an operator makes of them. -/
theorem applied_pendingStack {vals : List Value} (h : vals.length ≤ Frame.maxPending)
    (x : Pending) :
    applied (pendingStack vals) x = (x.apply vals).map pendingStack := by
  have pushes {v : Value} {rest : List Value} (hrest : rest.length < Frame.maxPending) :
      (pendingStack rest).pushed v = .ok (pendingStack (v :: rest)) := by
    rw [pushed_pendingStack, if_pos hrest]
  cases x with
  | paren => rfl
  | binary op =>
    cases vals with
    | nil => rfl
    | cons r vals =>
      cases vals with
      | nil => rfl
      | cons l vals =>
        have hroom : vals.length < Frame.maxPending := by
          simp only [List.length_cons] at h
          omega
        change (Value.apply op l r >>= fun v => (pendingStack vals).pushed v) = _
        rw [Pending.apply]
        cases Value.apply op l r with
        | error e => rfl
        | ok v => exact pushes hroom
  | prefixed op =>
    cases vals with
    | nil => rfl
    | cons v vals =>
      change (Value.applyPrefix op v >>= fun v => (pendingStack vals).pushed v) = _
      rw [Pending.apply]
      cases Value.applyPrefix op v with
      | error e => rfl
      | ok v => exact pushes h

end StackFrame

namespace Frame

def stacked (f : Frame) : StackFrame := { vals := pendingStack f.vals, ops := pendingStack f.ops }

def Roomy (f : Frame) : Prop := f.vals.length ≤ maxPending

theorem stacked_pushValue (f : Frame) (v : Value) :
    f.stacked.pushValue v = (f.pushValue v).map stacked := by
  change ((pendingStack f.vals).pushed v >>= fun vals => _) = _
  rw [StackFrame.pushed_pendingStack, pushValue]
  split <;> rfl

theorem stacked_pushPending (f : Frame) (x : Pending) :
    f.stacked.pushPending x = (f.pushPending x).map stacked := by
  change ((pendingStack f.ops).pushed x >>= fun ops => _) = _
  rw [StackFrame.pushed_pendingStack, pushPending]
  split <;> rfl

theorem roomy_of_pushValue {f g : Frame} {v : Value} (h : f.pushValue v = .ok g) : g.Roomy := by
  rw [pushValue] at h
  split at h
  · cases h
    exact ‹_›
  · cases h

theorem roomy_of_apply {vals vals' : List Value} {x : Pending} (h : vals.length ≤ maxPending)
    (hx : x.apply vals = .ok vals') : vals'.length ≤ maxPending := by
  have hlength := (Pending.apply_eq_ok hx).1
  omega

theorem stacked_reduceWhile (p : Pending → Bool) {vals : List Value} (ops : List Pending)
    (h : vals.length ≤ maxPending) :
    (stacked ⟨vals, ops⟩).reduceWhile p = (reduceWhile p vals ops).map stacked := by
  induction ops generalizing vals with
  | nil =>
    rw [StackFrame.reduceWhile]
    rfl
  | cons x ops ih =>
    have hreduce : (stacked ⟨vals, x :: ops⟩).reduce =
        (x.apply vals).map fun vals => stacked ⟨vals, ops⟩ := by
      change (StackFrame.applied (pendingStack vals) x >>= fun vals => _) = _
      rw [StackFrame.applied_pendingStack h]
      cases x.apply vals <;> rfl
    rw [StackFrame.reduceWhile, reduceWhile]
    change (if p x then _ else _) = _
    split
    · cases hx : x.apply vals with
      | error e =>
        rw [hx] at hreduce
        split <;> rename_i heq <;> cases hreduce.symm.trans heq
        rfl
      | ok vals' =>
        rw [hx] at hreduce
        split <;> rename_i heq <;> cases hreduce.symm.trans heq
        exact ih (roomy_of_apply h hx)
    · rfl

theorem roomy_of_reduceWhile {p : Pending → Bool} {vals : List Value} {ops : List Pending}
    {g : Frame} (h : vals.length ≤ maxPending) (hg : reduceWhile p vals ops = .ok g) :
    g.Roomy := by
  induction ops generalizing vals with
  | nil =>
    cases hg
    exact h
  | cons x ops ih =>
    rw [reduceWhile] at hg
    split at hg
    · cases hx : x.apply vals with
      | error e =>
        rw [hx] at hg
        cases hg
      | ok vals' =>
        rw [hx] at hg
        exact ih (roomy_of_apply h hx) hg
    · cases hg
      exact h

theorem roomy_of_pushOperator {f g : Frame} {op : Operator} (h : f.Roomy)
    (hg : f.pushOperator op = .ok g) : g.Roomy := by
  obtain ⟨f₁, hreduce, hg⟩ := LineBasic.bind_eq_ok.1 hg
  have hroomy : f₁.Roomy := roomy_of_reduceWhile h hreduce
  obtain rfl := eq_of_pushPending hg
  exact hroomy

theorem roomy_of_closeParen {f g : Frame} (h : f.Roomy) (hg : f.closeParen = .ok g) :
    g.Roomy := by
  obtain ⟨f₁, hreduce, hg⟩ := LineBasic.bind_eq_ok.1 hg
  have hroomy : f₁.Roomy := roomy_of_reduceWhile h hreduce
  split at hg <;> cases hg
  exact hroomy

/-- Operators are applied up to one that does not meet the condition. -/
theorem head_of_reduceWhile {p : Pending → Bool} {vals : List Value} {ops rest : List Pending}
    {g : Frame} {x : Pending} (hg : reduceWhile p vals ops = .ok g) (hx : g.ops = x :: rest) :
    p x = false := by
  induction ops generalizing vals with
  | nil =>
    cases hg
    cases hx
  | cons y ops ih =>
    rw [reduceWhile] at hg
    split at hg
    · cases hy : y.apply vals with
      | error e =>
        rw [hy] at hg
        cases hg
      | ok vals' =>
        rw [hy] at hg
        exact ih hg
    · rename_i hp
      cases hg
      cases hx
      simpa using hp

theorem stacked_pushOperator {f : Frame} (h : f.Roomy) (op : Operator) :
    f.stacked.pushOperator op = (f.pushOperator op).map stacked := by
  rw [StackFrame.pushOperator, pushOperator, reduce]
  change ((stacked ⟨f.vals, f.ops⟩).reduceWhile _ >>= _) = _
  rw [stacked_reduceWhile _ _ h]
  cases reduceWhile (Pending.yieldsTo op) f.vals f.ops with
  | error e => rfl
  | ok g => exact stacked_pushPending g (.binary op)

theorem closeParen_finds {f g : Frame} (hopen : f.parens ≠ 0)
    (hg : f.reduce (fun p => !p.isParen) = .ok g) : ∃ ops, g.ops = .paren :: ops := by
  have hcount : g.parens = f.parens := (reduceWhile_counts hg).1
  cases hops : g.ops with
  | nil =>
    rw [parens, hops] at hcount
    exact absurd hcount.symm hopen
  | cons x ops =>
    have hx := head_of_reduceWhile hg hops
    cases x with
    | paren => exact ⟨ops, rfl⟩
    | _ => cases hx

theorem stacked_closeParen {f : Frame} (h : f.Roomy) (hopen : f.parens ≠ 0) :
    f.stacked.closeParen = f.closeParen.map stacked := by
  rw [StackFrame.closeParen, closeParen]
  change ((stacked ⟨f.vals, f.ops⟩).reduceWhile _ >>= _) = _
  rw [stacked_reduceWhile _ _ h]
  cases hg : f.reduce (fun p => !p.isParen) with
  | error e =>
    rw [reduce] at hg
    rw [hg]
    rfl
  | ok g =>
    obtain ⟨ops, hops⟩ := closeParen_finds hopen hg
    rw [reduce] at hg
    rw [hg]
    rcases g with ⟨vals, _⟩
    cases hops
    rfl

theorem stacked_flush {f : Frame} (h : f.Roomy) : f.stacked.flush = f.flush := by
  rw [StackFrame.flush, flush]
  change (if f.vals.isEmpty then f.ops.reverse.mapM _ else _) = _
  split
  · rfl
  · change ((stacked ⟨f.vals, f.ops⟩).reduceWhile _ >>= _) = _
    rw [stacked_reduceWhile _ _ h, reduce]
    cases reduceWhile (fun _ => true) f.vals f.ops with
    | error e => rfl
    | ok g =>
      rcases g with ⟨vals, ops⟩
      cases vals with
      | nil => rfl
      | cons v vals =>
        cases vals with
        | nil => rfl
        | cons w vals =>
          have hsize : (pendingStack (v :: w :: vals)).size ≠ 1 := by
            change vals.length + 2 ≠ 1
            omega
          simp only [Except.map, ok_bind, stacked, hsize, ne_eq, not_false_eq_true, if_true]
          rfl

end Frame

end LineBasic
