import LineBasic.Expression.Frame
import LineBasic.Expression.Literal

/-!
# Formulas

The tree of an arithmetic expression. Binary operators of equal precedence group to the left, and
a prefix operator takes the longest operand whose own binary operators bind tighter than it does.
A tree that keeps these rules is ordered, and an ordered tree can be read back from its tokens.
-/

set_option autoImplicit false

namespace LineBasic

def Token.isLiteral : Token → Bool
  | number _ | integer _ | string _ | literal _ => true
  | _ => false

def Token.literalValue : Token → Except Fault Value
  | number text => numberValue text
  | integer text => integerValue text
  | string text => .ok (.text text)
  | literal v => .ok v
  | _ => .error missingOperand

def Operator.isUnary : Operator → Bool
  | plus | minus | NOT => true
  | _ => false

def Operator.isBinary : Operator → Bool
  | NOT | semicolon => false
  | _ => true

inductive Formula where
  | leaf (t : Token)
  | group (e : Formula)
  | prefixed (op : Operator) (e : Formula)
  | binary (op : Operator) (l r : Formula)
  deriving DecidableEq

namespace Formula

def tokens : Formula → List Token
  | leaf t => [t]
  | group e => .openParen :: (e.tokens ++ [.closeParen])
  | prefixed op e => .unary op :: e.tokens
  | binary op l r => l.tokens ++ .operator op :: r.tokens

theorem tokens_length_pos (e : Formula) : 0 < e.tokens.length := by
  cases e with
  | leaf t => exact Nat.one_pos
  | group e => exact Nat.succ_pos _
  | prefixed op e => exact Nat.succ_pos _
  | binary op l r =>
    rw [tokens, List.length_append, List.length_cons]
    omega

def eval : Formula → Except Fault Value
  | leaf t => t.literalValue
  | group e => e.eval
  | prefixed op e => do Value.applyPrefix op (← e.eval)
  | binary op l r => do
    let a ← l.eval
    let b ← r.eval
    Value.apply op a b

def spine : Formula → List Operator
  | binary op l r => l.spine ++ op :: r.spine
  | _ => []

def openPrefixes : Formula → List Operator
  | prefixed op e => op :: e.openPrefixes
  | binary _ _ r => r.openPrefixes
  | _ => []

def Above (op : Operator) (e : Formula) : Prop := ∀ b ∈ e.spine, op.precedence < b.precedence

/-- An operator that follows takes the whole formula for its left operand: it binds no tighter than
any binary operator at the top, nor than a prefix operator that it would prolong. -/
def YieldsTo (op : Operator) (e : Formula) : Prop :=
  (∀ b ∈ e.spine, op.precedence ≤ b.precedence) ∧
    ∀ u ∈ e.openPrefixes, op.precedence ≤ u.precedence

def Ordered : Formula → Prop
  | leaf t => t.isLiteral = true
  | group e => e.Ordered
  | prefixed op e => op.isUnary = true ∧ e.Ordered ∧ e.Above op
  | binary op l r =>
    op.isBinary = true ∧ l.Ordered ∧ r.Ordered ∧ l.YieldsTo op ∧ r.Above op

instance (op : Operator) (e : Formula) : Decidable (e.Above op) :=
  inferInstanceAs (Decidable (∀ b ∈ e.spine, _))

instance (op : Operator) (e : Formula) : Decidable (e.YieldsTo op) :=
  inferInstanceAs (Decidable (_ ∧ _))

def decideOrdered : (e : Formula) → Decidable e.Ordered
  | leaf t => inferInstanceAs (Decidable (t.isLiteral = true))
  | group e => e.decideOrdered
  | prefixed op e =>
    have := e.decideOrdered
    inferInstanceAs (Decidable (op.isUnary = true ∧ e.Ordered ∧ e.Above op))
  | binary op l r =>
    have := l.decideOrdered
    have := r.decideOrdered
    inferInstanceAs (Decidable
      (op.isBinary = true ∧ l.Ordered ∧ r.Ordered ∧ l.YieldsTo op ∧ r.Above op))

instance : DecidablePred Ordered := decideOrdered

def edge : Formula → List Pending
  | prefixed op e => e.edge ++ [.prefixed op]
  | binary op _ r => r.edge ++ [.binary op]
  | _ => []

theorem not_paren_of_mem_edge (e : Formula) : ∀ x ∈ e.edge, (!x.isParen) = true := by
  induction e with
  | leaf t => simp [edge]
  | group e ih => simp [edge]
  | prefixed op e ih =>
    intro x hx
    rcases List.mem_append.1 hx with hx | hx
    · exact ih x hx
    · rw [List.mem_singleton.1 hx]
      rfl
  | binary op l r ihl ihr =>
    intro x hx
    rcases List.mem_append.1 hx with hx | hx
    · exact ihr x hx
    · rw [List.mem_singleton.1 hx]
      rfl

theorem YieldsTo.of_prefixed {op u : Operator} {e : Formula} (hy : (prefixed u e).YieldsTo op)
    (he : (prefixed u e).Ordered) : e.YieldsTo op := by
  have hu : op.precedence ≤ u.precedence := hy.2 u List.mem_cons_self
  constructor
  · intro b hb
    exact Nat.le_trans hu (Nat.le_of_lt (he.2.2 b hb))
  · intro w hw
    exact hy.2 w (List.mem_cons_of_mem u hw)

theorem YieldsTo.right {op b : Operator} {l r : Formula} (hy : (binary b l r).YieldsTo op) :
    r.YieldsTo op :=
  ⟨fun c hc => hy.1 c (by simp [spine, hc]), hy.2⟩

/-- Where a formula yields to an operator, each operator that waits does so too. -/
theorem edge_yieldsTo {op : Operator} {e : Formula} (he : e.Ordered) (hy : e.YieldsTo op) :
    ∀ x ∈ e.edge, x.yieldsTo op = true := by
  induction e with
  | leaf t => simp [edge]
  | group e ih => simp [edge]
  | prefixed u e ih =>
    intro x hx
    rcases List.mem_append.1 hx with hx | hx
    · exact ih he.2.1 (hy.of_prefixed he) x hx
    · rw [List.mem_singleton.1 hx]
      simpa [Pending.yieldsTo] using hy.2 u List.mem_cons_self
  | binary b l r ihl ihr =>
    obtain ⟨_, _, hord, _, _⟩ := he
    intro x hx
    rcases List.mem_append.1 hx with hx | hx
    · exact ihr hord hy.right x hx
    · rw [List.mem_singleton.1 hx]
      simpa [Pending.yieldsTo] using hy.1 b (by simp [spine])

def Fenced (ops : List Pending) (e : Formula) : Prop :=
  ∀ b ∈ e.spine, ∀ x ∈ ops.head?, x.yieldsTo b = false

theorem fenced_paren (ops : List Pending) (e : Formula) : e.Fenced (.paren :: ops) := by
  intro b _ x hx
  cases hx
  rfl

theorem Above.fenced_prefixed {op : Operator} {e : Formula} (h : e.Above op)
    (ops : List Pending) : e.Fenced (.prefixed op :: ops) := by
  intro b hb x hx
  cases hx
  simpa [Pending.yieldsTo] using h b hb

theorem Above.fenced_binary {op : Operator} {e : Formula} (h : e.Above op)
    (ops : List Pending) : e.Fenced (.binary op :: ops) := by
  intro b hb x hx
  cases hx
  simpa [Pending.yieldsTo] using h b hb

end Formula

structure Draft where
  parts : List Formula := []
  ops : List Pending := []

namespace Draft

def join : Pending → List Formula → List Formula
  | .binary op, r :: l :: parts => .binary op l r :: parts
  | .prefixed op, e :: parts => .prefixed op e :: parts
  | _, parts => parts

def reduceWhile (p : Pending → Bool) (parts : List Formula) : List Pending → Draft
  | [] => { parts, ops := [] }
  | op :: ops =>
    if p op then reduceWhile p (join op parts) ops else { parts, ops := op :: ops }

def reduce (d : Draft) (p : Pending → Bool) : Draft := reduceWhile p d.parts d.ops

def closeParen (d : Draft) : Draft :=
  match d.parts, d.ops with
  | e :: parts, .paren :: ops => { parts := .group e :: parts, ops }
  | _, _ => d

def read (d : Draft) : Token → Draft
  | .unary op => { d with ops := .prefixed op :: d.ops }
  | .openParen => { d with ops := .paren :: d.ops }
  | .operator op =>
    let d := d.reduce (Pending.yieldsTo op)
    { d with ops := .binary op :: d.ops }
  | .closeParen => (d.reduce fun x => !x.isParen).closeParen
  | t => { d with parts := .leaf t :: d.parts }

theorem reduceWhile_of_head (p : Pending → Bool) (parts : List Formula) (ops : List Pending)
    (h : ∀ x ∈ ops.head?, p x = false) : reduceWhile p parts ops = { parts, ops } := by
  cases ops with
  | nil => rfl
  | cons x ops => simp [reduceWhile, h x rfl]

/-- Reading a formula and then applying what waits at its end is the same as putting the formula in
as a whole. -/
theorem reduce_foldl_read {e : Formula} (he : e.Ordered) (d : Draft) (hd : e.Fenced d.ops)
    (p : Pending → Bool) (hp : ∀ x ∈ e.edge, p x = true) :
    (e.tokens.foldl read d).reduce p = reduceWhile p (e :: d.parts) d.ops := by
  induction e generalizing d p with
  | leaf t =>
    cases t with
    | number | integer | string | literal => rfl
    | _ => cases he
  | group e ih =>
    have hin := ih he { d with ops := .paren :: d.ops } (Formula.fenced_paren d.ops e) _
      e.not_paren_of_mem_edge
    rw [reduceWhile_of_head _ _ _ (by simp [Pending.isParen])] at hin
    simp only [Formula.tokens, List.foldl_cons, List.foldl_append, List.foldl_nil, read, hin]
    rfl
  | prefixed op e ih =>
    obtain ⟨_, hord, habove⟩ := he
    simp only [Formula.tokens, List.foldl_cons, read]
    rw [ih hord _ (habove.fenced_prefixed d.ops) p
      (fun x hx => hp x (List.mem_append_left _ hx))]
    simp [reduceWhile, join, hp (.prefixed op) (by simp [Formula.edge])]
  | binary op l r ihl ihr =>
    obtain ⟨_, hl, hr, hyield, habove⟩ := he
    have hleft := ihl hl d (fun b hb => hd b (by simp [Formula.spine, hb])) _
      (Formula.edge_yieldsTo hl hyield)
    rw [reduceWhile_of_head _ _ _ (hd op (by simp [Formula.spine]))] at hleft
    simp only [Formula.tokens, List.foldl_append, List.foldl_cons, read, hleft]
    rw [ihr hr _ (habove.fenced_binary d.ops) p (fun x hx => hp x (List.mem_append_left _ hx))]
    simp [reduceWhile, join, hp (.binary op) (by simp [Formula.edge])]

def parse (tokens : List Token) : List Formula :=
  ((tokens.foldl read {}).reduce fun _ => true).parts

theorem parse_tokens {e : Formula} (he : e.Ordered) : parse e.tokens = [e] := by
  have h := reduce_foldl_read he {} (by intro b _ x hx; cases hx) (fun _ => true)
    (fun _ _ => rfl)
  rw [parse, h]
  rfl

end Draft

theorem Formula.eq_of_tokens_eq {e e' : Formula} (he : e.Ordered) (he' : e'.Ordered)
    (h : e.tokens = e'.tokens) : e = e' := by
  have hp := Draft.parse_tokens he
  rw [h, Draft.parse_tokens he'] at hp
  exact (List.cons.inj hp).1.symm

end LineBasic
