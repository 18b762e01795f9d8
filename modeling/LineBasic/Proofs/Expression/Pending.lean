import LineBasic.Proofs.Expression.Formula
import LineBasic.Proofs.Run

/-!
# What a formula does to a frame

The tokens of a formula push values and operators one by one, and an operator is applied when the
next one binds no tighter. For an ordered formula all this comes to one push of its value, as soon
as the operators that wait at its end are applied.
-/

set_option autoImplicit false

namespace LineBasic

namespace Formula

def pend : Formula → Frame → Except Fault Frame
  | leaf t, f => do f.pushValue (← t.literalValue)
  | group e, f => do (← e.pend (← f.pushPending .paren)).closeParen
  | prefixed op e, f => do e.pend (← f.pushPending (.prefixed op))
  | binary op l r, f => do r.pend (← (← l.pend f).pushOperator op)

def evalWithin : Formula → Nat → Nat → Except Fault Value
  | leaf t, v, _ => do
    let a ← t.literalValue
    if 0 < v then return a else .error Frame.tooComplex
  | group e, v, o => if 0 < o then e.evalWithin v (o - 1) else .error Frame.tooComplex
  | prefixed op e, v, o =>
    if 0 < o then do Value.applyPrefix op (← e.evalWithin v (o - 1))
    else .error Frame.tooComplex
  | binary op l r, v, o => do
    let a ← l.evalWithin v o
    if 0 < o then do
      let b ← r.evalWithin (v - 1) (o - 1)
      Value.apply op a b
    else .error Frame.tooComplex

/-- Whether no push finds its stack full while a formula is evaluated, with room for `v` values and
`o` operators. What comes after a fault is not evaluated. -/
def fits : Formula → Nat → Nat → Bool
  | leaf t, v, _ => !t.literalValue.isOk || decide (0 < v)
  | group e, v, o => decide (0 < o) && e.fits v (o - 1)
  | prefixed _ e, v, o => decide (0 < o) && e.fits v (o - 1)
  | binary _ l r, v, o =>
    l.fits v o && (!l.eval.isOk || (decide (0 < o) && r.fits (v - 1) (o - 1)))

/-- There is room for a formula that has no more tokens than a stack has places. -/
theorem fits_of_length_le (e : Formula) {v o : Nat} (hv : e.tokens.length ≤ v)
    (ho : e.tokens.length ≤ o) : e.fits v o = true := by
  induction e generalizing v o with
  | leaf t => simp_all [fits, tokens, Nat.lt_iff_add_one_le]
  | group e ih =>
    simp only [tokens, List.length_cons, List.length_append, List.length_nil] at hv ho
    simp [fits, ih (v := v) (o := o - 1) (by omega) (by omega)]
    omega
  | prefixed op e ih =>
    simp only [tokens, List.length_cons] at hv ho
    simp [fits, ih (v := v) (o := o - 1) (by omega) (by omega)]
    omega
  | binary op l r ihl ihr =>
    have hl := l.tokens_length_pos
    simp only [tokens, List.length_cons, List.length_append] at hv ho
    simp [fits, ihl (v := v) (o := o) (by omega) (by omega),
      ihr (v := v - 1) (o := o - 1) (by omega) (by omega)]
    omega

theorem evalWithin_eq (e : Formula) (v o : Nat) :
    e.evalWithin v o = if e.fits v o then e.eval else .error Frame.tooComplex := by
  induction e generalizing v o with
  | leaf t =>
    cases h : t.literalValue with
    | error f => simp [evalWithin, fits, eval, h, Except.isOk, Except.toBool]
    | ok a =>
      by_cases hv : 0 < v
      · simp [evalWithin, fits, eval, h, Except.isOk, Except.toBool, hv]
      · simp [evalWithin, fits, h, Except.isOk, Except.toBool, hv]
  | group e ih =>
    by_cases ho : 0 < o <;> simp [evalWithin, fits, eval, ho, ih]
  | prefixed op e ih =>
    by_cases ho : 0 < o
    · by_cases hf : e.fits v (o - 1) = true <;> simp [evalWithin, fits, eval, ho, ih, hf]
    · simp [evalWithin, fits, ho]
  | binary op l r ihl ihr =>
    cases hl : l.eval with
    | error f =>
      by_cases hfl : l.fits v o = true <;>
        simp [evalWithin, fits, eval, ihl, hl, hfl, Except.isOk, Except.toBool]
    | ok a =>
      by_cases hfl : l.fits v o = true
      · by_cases ho : 0 < o
        · by_cases hfr : r.fits (v - 1) (o - 1) = true <;>
            simp [evalWithin, fits, eval, ihl, ihr, hl, hfl, hfr, ho, Except.isOk, Except.toBool]
        · simp [evalWithin, fits, ihl, hl, hfl, ho, Except.isOk, Except.toBool]
      · simp [evalWithin, fits, ihl, hfl]

end Formula

namespace Frame

theorem reduceWhile_of_head (p : Pending → Bool) (vals : List Value) (ops : List Pending)
    (h : ∀ x ∈ ops.head?, p x = false) : reduceWhile p vals ops = .ok { vals, ops } := by
  cases ops with
  | nil => rfl
  | cons x ops => simp [reduceWhile, h x rfl]

theorem reduceWhile_binary {p : Pending → Bool} {op : Operator} (h : p (.binary op) = true)
    (a b : Value) (vals : List Value) (ops : List Pending) :
    reduceWhile p (b :: a :: vals) (.binary op :: ops) =
      (Value.apply op a b >>= fun v => reduceWhile p (v :: vals) ops) := by
  simp only [reduceWhile, h, Pending.apply, if_true]
  cases Value.apply op a b <;> rfl

theorem reduceWhile_prefixed {p : Pending → Bool} {op : Operator} (h : p (.prefixed op) = true)
    (a : Value) (vals : List Value) (ops : List Pending) :
    reduceWhile p (a :: vals) (.prefixed op :: ops) =
      (Value.applyPrefix op a >>= fun v => reduceWhile p (v :: vals) ops) := by
  simp only [reduceWhile, h, Pending.apply, if_true]
  cases Value.applyPrefix op a <;> rfl

def valueRoom (f : Frame) : Nat := maxPending - f.vals.length

def pendingRoom (f : Frame) : Nat := maxPending - f.ops.length

theorem pushPending_eq (f : Frame) (x : Pending) :
    f.pushPending x = if 0 < f.pendingRoom then .ok { f with ops := x :: f.ops }
      else .error tooComplex := by
  simp only [pushPending, pendingRoom, Nat.sub_pos_iff_lt]

theorem pushValue_eq (f : Frame) (v : Value) :
    f.pushValue v = if 0 < f.valueRoom then .ok { f with vals := v :: f.vals }
      else .error tooComplex := by
  simp only [pushValue, valueRoom, Nat.sub_pos_iff_lt]

@[simp] theorem valueRoom_ops (f : Frame) (ops : List Pending) :
    ({ f with ops } : Frame).valueRoom = f.valueRoom := rfl

@[simp] theorem pendingRoom_vals (f : Frame) (vals : List Value) :
    ({ f with vals } : Frame).pendingRoom = f.pendingRoom := rfl

@[simp] theorem pendingRoom_cons (vals : List Value) (x : Pending) (ops : List Pending) :
    (⟨vals, x :: ops⟩ : Frame).pendingRoom = (⟨vals, ops⟩ : Frame).pendingRoom - 1 := by
  simp only [pendingRoom, List.length_cons]
  omega

@[simp] theorem valueRoom_cons (v : Value) (vals : List Value) (ops : List Pending) :
    (⟨v :: vals, ops⟩ : Frame).valueRoom = (⟨vals, ops⟩ : Frame).valueRoom - 1 := by
  simp only [valueRoom, List.length_cons]
  omega

end Frame

namespace Formula

/-- The pushes of an ordered formula, with what then waits at its end applied, are one push of its
value. -/
theorem reduce_pend {e : Formula} (he : e.Ordered) (f : Frame) (hf : e.Fenced f.ops)
    (p : Pending → Bool) (hp : ∀ x ∈ e.edge, p x = true) :
    (e.pend f >>= fun g => g.reduce p) =
      (e.evalWithin f.valueRoom f.pendingRoom >>= fun v =>
        Frame.reduceWhile p (v :: f.vals) f.ops) := by
  induction e generalizing f p with
  | leaf t =>
    cases h : t.literalValue with
    | error e => simp [pend, evalWithin, h]
    | ok a =>
      by_cases hv : 0 < f.valueRoom
      · simp [pend, evalWithin, h, Frame.pushValue_eq, hv]
        rfl
      · simp [pend, evalWithin, h, Frame.pushValue_eq, hv]
  | group e ih =>
    by_cases ho : 0 < f.pendingRoom
    · have hin := ih he { f with ops := .paren :: f.ops } (fenced_paren f.ops e) _
        e.not_paren_of_mem_edge
      simp only [pend, evalWithin, Frame.pushPending_eq, ho, if_true, ok_bind, Frame.closeParen,
        bind_assoc]
      rw [← bind_assoc, hin, bind_assoc, Frame.valueRoom_ops, Frame.pendingRoom_cons]
      refine bind_congr fun v => ?_
      rw [Frame.reduceWhile_of_head _ _ _ (by simp [Pending.isParen])]
      rfl
    · simp [pend, evalWithin, Frame.pushPending_eq, ho]
  | prefixed op e ih =>
    obtain ⟨_, hord, habove⟩ := he
    by_cases ho : 0 < f.pendingRoom
    · have hin := ih hord { f with ops := .prefixed op :: f.ops } (habove.fenced_prefixed f.ops) p
        (fun x hx => hp x (List.mem_append_left _ hx))
      simp only [pend, evalWithin, Frame.pushPending_eq, ho, if_true, ok_bind, hin, bind_assoc,
        Frame.valueRoom_ops, Frame.pendingRoom_cons]
      refine bind_congr fun v => ?_
      exact Frame.reduceWhile_prefixed (hp _ (by simp [edge])) v f.vals f.ops
    · simp [pend, evalWithin, Frame.pushPending_eq, ho]
  | binary op l r ihl ihr =>
    obtain ⟨_, hl, hr, hyield, habove⟩ := he
    have hleft := ihl hl f (fun b hb => hf b (by simp [spine, hb])) _ (edge_yieldsTo hl hyield)
    simp only [pend, evalWithin, Frame.pushOperator, bind_assoc]
    rw [← bind_assoc, hleft, bind_assoc]
    refine bind_congr fun a => ?_
    rw [Frame.reduceWhile_of_head _ _ _ (hf op (by simp [spine])), ok_bind]
    by_cases ho : 0 < f.pendingRoom
    · have hright := ihr hr ⟨a :: f.vals, .binary op :: f.ops⟩ (habove.fenced_binary f.ops) p
        (fun x hx => hp x (List.mem_append_left _ hx))
      simp only [Frame.pushPending_eq, Frame.pendingRoom_vals, ho, if_true, ok_bind, hright,
        bind_assoc, Frame.valueRoom_cons, Frame.pendingRoom_cons]
      refine bind_congr fun b => ?_
      exact Frame.reduceWhile_binary (hp _ (by simp [edge])) a b f.vals f.ops
    · simp [Frame.pushPending_eq, ho]

end Formula

end LineBasic
