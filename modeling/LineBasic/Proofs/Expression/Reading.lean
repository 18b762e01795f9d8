import LineBasic.Proofs.Expression.Acceptance
import LineBasic.Proofs.Expression.Reference

/-!
# A pass token by token

What each token of an expression does to the values and operators that wait, in a pass that hands
nothing on before the end. The tokens may be names and calls, so the machine takes part.
-/

set_option autoImplicit false

namespace LineBasic

open Run

theorem Pending.apply_ne_nil {x : Pending} {vals vals' : List Value}
    (h : x.apply vals = .ok vals') : vals' ≠ [] := by
  unfold apply at h
  split at h
  · rename_i op r l vals
    cases ha : Value.apply op l r <;> rw [ha] at h <;> cases h
    exact List.cons_ne_nil _ _
  · rename_i op v vals
    cases ha : Value.applyPrefix op v <;> rw [ha] at h <;> cases h
    exact List.cons_ne_nil _ _
  · cases h
  · cases h

namespace Frame

def applyAll (vals : List Value) : List Pending → Except Fault (List Value)
  | [] => .ok vals
  | x :: xs => do applyAll (← x.apply vals) xs

theorem applyAll_append (vals : List Value) (xs ys : List Pending) :
    applyAll vals (xs ++ ys) = (do applyAll (← applyAll vals xs) ys) := by
  induction xs generalizing vals with
  | nil => rfl
  | cons x xs ih => simp only [List.cons_append, applyAll, ih, bind_assoc]

theorem reduceWhile_cons (p : Pending → Bool) (vals : List Value) (x : Pending)
    (xs : List Pending) :
    reduceWhile p vals (x :: xs) =
      if p x then (do reduceWhile p (← x.apply vals) xs) else .ok ⟨vals, x :: xs⟩ := by
  rw [reduceWhile]
  cases x.apply vals <;> rfl

theorem reduceWhile_of_all {p : Pending → Bool} {xs : List Pending} (h : ∀ x ∈ xs, p x = true)
    (vals : List Value) (ys : List Pending) :
    reduceWhile p vals (xs ++ ys) = (do reduceWhile p (← applyAll vals xs) ys) := by
  induction xs generalizing vals with
  | nil => rfl
  | cons x xs ih =>
    have hxs : ∀ y ∈ xs, p y = true := fun y hy => h y (List.mem_cons_of_mem x hy)
    rw [List.cons_append, reduceWhile_cons, if_pos (h x List.mem_cons_self), applyAll, bind_assoc]
    exact bind_congr fun vals => ih hxs vals

theorem reduceWhile_append {p : Pending → Bool} {ys : List Pending}
    (h : ∀ y ∈ ys.head?, p y = false) (vals : List Value) (xs : List Pending) :
    reduceWhile p vals (xs ++ ys) =
      (do let f ← reduceWhile p vals xs; .ok ⟨f.vals, f.ops ++ ys⟩) := by
  induction xs generalizing vals with
  | nil => exact reduceWhile_of_head p vals ys h
  | cons x xs ih =>
    rw [List.cons_append, reduceWhile_cons, reduceWhile_cons]
    split
    · rw [bind_assoc]
      exact bind_congr fun vals => ih vals
    · rfl

theorem suffix_of_reduceWhile {p : Pending → Bool} {vals : List Value} {xs : List Pending}
    {f : Frame} (h : reduceWhile p vals xs = .ok f) : f.ops <:+ xs := by
  induction xs generalizing vals with
  | nil =>
    cases h
    exact List.suffix_rfl
  | cons y ys ih =>
    rw [reduceWhile_cons] at h
    split at h
    · obtain ⟨vals', -, h⟩ := LineBasic.bind_eq_ok.1 h
      exact (ih h).trans (List.suffix_cons y ys)
    · cases h
      exact List.suffix_rfl

theorem applyAll_ne_nil {vals vals' : List Value} {xs : List Pending} (hvals : vals ≠ [])
    (h : applyAll vals xs = .ok vals') : vals' ≠ [] := by
  induction xs generalizing vals with
  | nil =>
    cases h
    exact hvals
  | cons x xs ih =>
    obtain ⟨next, hnext, h⟩ := LineBasic.bind_eq_ok.1 h
    exact ih (Pending.apply_ne_nil hnext) h

end Frame

def Scan.reading (depth : Nat) (items : List Item) (done : Bool) (vals : List Value)
    (ops : List Pending) : Scan :=
  ⟨⟨vals, ops⟩, depth, done, false, items⟩

def Operator.joins (inside : Bool) (op : Operator) : Bool :=
  op.isBinary || (inside && op == .semicolon)

section

variable {call : Call} {d : Nat} {items : List Item} {vals : List Value}
  {ops : List Pending} {ts : List Token}

theorem scan_reading_unary (u : Operator) :
    scan call ignore (.reading d items false vals ops) (.unary u :: ts) = (do
      let f ← Frame.pushPending ⟨vals, ops⟩ (.prefixed u)
      scan call ignore (.reading d items false f.vals f.ops) ts) := by
  rw [scan_other rfl, Scan.beforeToken_of_not_done _ _ rfl, pure_bind_run]
  simp only [Scan.step, Scan.reading]
  cases Frame.pushPending ⟨vals, ops⟩ (.prefixed u) <;> rfl

theorem scan_reading_openParen :
    scan call ignore (.reading d items false vals ops) (.openParen :: ts) = (do
      let f ← Frame.pushPending ⟨vals, ops⟩ .paren
      scan call ignore (.reading (d + 1) items false f.vals f.ops) ts) :=
  scan_openParen call ignore ts rfl

theorem scan_reading_literal {t : Token} (ht : t.isLiteral = true) :
    scan call ignore (.reading d items false vals ops) (t :: ts) = (do
      let v ← t.literalValue
      let f ← Frame.pushValue ⟨vals, ops⟩ v
      scan call ignore (.reading d items true f.vals f.ops) ts) :=
  scan_literal call ignore ts rfl ht

theorem scan_reading_operator {inside : Bool} {op : Operator} (hop : op.joins inside = true)
    (hd : inside = true → d ≠ 0) :
    scan call ignore (.reading d items true vals ops) (.operator op :: ts) = (do
      let f ← Frame.pushOperator ⟨vals, ops⟩ op
      scan call ignore (.reading d items false f.vals f.ops) ts) := by
  have hsemi : ¬ (d = 0 ∧ op = .semicolon) := by
    rintro ⟨rfl, rfl⟩
    cases inside with
    | true => exact hd rfl rfl
    | false => cases hop
  rw [scan_other rfl, Scan.beforeToken_of_not_starts _ _ rfl, pure_bind_run]
  simp only [Scan.step, Scan.reading, hsemi, if_false, if_true]
  cases Frame.pushOperator ⟨vals, ops⟩ op <;> rfl

theorem scan_reading_separator {t : Token} (ht : t = .comma ∨ t = .operator .semicolon) :
    scan call ignore (.reading 0 items true vals ops) (t :: ts) = (do
      let flushed ← Frame.flush ⟨vals, ops⟩
      scan call ignore (.reading 0 (items ++ (flushed ++ [.separator t.display])) false [] [])
        ts) := by
  rcases ht with rfl | rfl
  all_goals
    rw [scan_other rfl, Scan.beforeToken_of_not_starts _ _ rfl, pure_bind_run]
    simp only [Scan.step, Scan.reading, Scan.separate_ignore]
    cases Frame.flush ⟨vals, ops⟩ <;> rfl

/-- A parenthesis that closes applies all operators behind the one that it closes. -/
theorem scan_reading_closeParen (above : List Pending) (h : ∀ x ∈ above, x.isParen = false) :
    scan call ignore (.reading (d + 1) items true vals (above ++ .paren :: ops))
      (.closeParen :: ts) = (do
        let vals ← Frame.applyAll vals above
        scan call ignore (.reading d items true vals ops) ts) := by
  have hreduce : Frame.closeParen ⟨vals, above ++ .paren :: ops⟩ =
      (do let vals ← Frame.applyAll vals above; .ok ⟨vals, ops⟩) := by
    rw [Frame.closeParen, Frame.reduce, Frame.reduceWhile_of_all (by simpa using h), bind_assoc]
    exact bind_congr fun vals => rfl
  rw [scan_closeParen call ignore ts rfl (Nat.succ_ne_zero d)]
  simp only [Scan.reading, hreduce, liftM_bind, bind_assoc]
  exact bind_congr fun vals => rfl

theorem scan_reading_empty_closeParen :
    scan call ignore (.reading (d + 1) items true vals (.paren :: ops)) (.closeParen :: ts) =
      scan call ignore (.reading d items true vals ops) ts :=
  scan_reading_closeParen [] (by simp)

end

/-- What can stand behind an expression that was begun with these operators waiting: the end of the
tokens, the parenthesis that closes it, or a separator. -/
inductive Closing : Nat → List Pending → List Token → Prop
  | finish (d : Nat) : Closing d [] []
  | paren (d : Nat) (ops : List Pending) (ts : List Token) :
      Closing (d + 1) (.paren :: ops) (.closeParen :: ts)
  | separator {t : Token} (ht : t = .comma ∨ t = .operator .semicolon) (ts : List Token) :
      Closing 0 [] (t :: ts)

theorem Closing.head_not_yields {d : Nat} {base : List Pending} {ts : List Token}
    (h : Closing d base ts) (op : Operator) : ∀ x ∈ base.head?, x.yieldsTo op = false := by
  cases h <;> simp [Pending.yieldsTo]

theorem Closing.head_ne_openParen {d : Nat} {base : List Pending} {ts : List Token}
    (h : Closing d base ts) : ts.head? ≠ some .openParen := by
  cases h with
  | finish | paren => simp
  | separator ht => rcases ht with rfl | rfl <;> simp

theorem Frame.flush_of_applyAll {vals : List Value} (hvals : vals ≠ []) (ops : List Pending) :
    flush ⟨vals, ops⟩ = (do flush ⟨← applyAll vals ops, []⟩) := by
  have hempty : vals.isEmpty = false := by simpa using hvals
  have hreduce := @reduceWhile_of_all (fun _ => true) ops (fun _ _ => rfl) vals []
  rw [List.append_nil] at hreduce
  rw [flush, hempty, if_neg (by simp), reduce, hreduce, bind_assoc]
  cases happly : applyAll vals ops with
  | error f => rfl
  | ok vals' =>
    have hempty' : vals'.isEmpty = false := by simpa using applyAll_ne_nil hvals happly
    rw [ok_bind, ok_bind, flush, hempty', if_neg (by simp)]
    rfl

/-- Where an expression ends, all that has waited since its begin is applied. -/
theorem scan_reading_closing {call : Call} {d : Nat} {items : List Item} {vals : List Value}
    {above base : List Pending} {ts : List Token} (h : Closing d base ts) (hvals : vals ≠ [])
    (habove : ∀ x ∈ above, x.isParen = false) :
    scan call ignore (.reading d items true vals (above ++ base)) ts = (do
      let vals ← Frame.applyAll vals above
      scan call ignore (.reading d items true vals base) ts) := by
  cases h with
  | finish =>
    rw [List.append_nil, scan_nil call rfl]
    simp only [Scan.reading, Frame.flush_of_applyAll hvals above, liftM_bind, bind_assoc]
    refine bind_congr fun vals => ?_
    exact (scan_nil call (s := .reading d items true vals []) rfl).symm
  | paren d ops ts =>
    rw [scan_reading_closeParen above habove]
    exact bind_congr fun vals => scan_reading_empty_closeParen.symm
  | separator ht ts =>
    rw [List.append_nil, scan_reading_separator ht, Frame.flush_of_applyAll hvals above, liftM_bind,
      bind_assoc]
    exact bind_congr fun vals => (scan_reading_separator ht).symm

def nameTokens (fn : Bool) (home : Option String) (name : String) : List Token :=
  (if fn then [.word .FN] else []) ++ ((home.map Token.qualifier).toList ++ [.ident name])

def nameToken (home : Option String) (name : String) : Token :=
  (home.map Token.qualifier).getD (.ident name)

theorem scan_reading_name {call : Call} {d : Nat} {items : List Item} {vals : List Value}
    {ops : List Pending} {fn : Bool} {home : Option String} {name : String}
    {ref : Reference} {ts rest : List Token}
    (h : Reference.withArguments name ts = .ok (ref, rest)) :
    scan call ignore (.reading d items false vals ops) (nameTokens fn home name ++ ts) = (do
      let home ← qualifiedModule (nameToken home name)
      let v ← operandWith call (scan call ignore {}) fn home ref
      let f ← Frame.pushValue ⟨vals, ops⟩ v
      scan call ignore (.reading d items true f.vals f.ops) rest) := by
  have hname : scan call ignore ⟨⟨vals, ops⟩, d, false, fn, items⟩
      (((home.map Token.qualifier).toList ++ [.ident name]) ++ ts) = (do
        let home ← qualifiedModule (nameToken home name)
        let v ← operandWith call (scan call ignore {}) fn home ref
        let f ← Frame.pushValue ⟨vals, ops⟩ v
        scan call ignore (.reading d items true f.vals f.ops) rest) := by
    have hsplit : ∃ behind, ((home.map Token.qualifier).toList ++ [.ident name]) ++ ts =
          nameToken home name :: behind ∧
        Reference.split expectedName (nameToken home name :: behind) = .ok (ref, rest) ∧
        (nameToken home name).startsName = true := by
      cases home with
      | none => exact ⟨ts, rfl, h, rfl⟩
      | some home => exact ⟨.ident name :: ts, rfl, h, rfl⟩
    obtain ⟨behind, htokens, hsplit, hstarts⟩ := hsplit
    rw [htokens, scan_name hstarts hsplit, Scan.beforeToken_of_not_done _ _ rfl, pure_bind_run]
    refine bind_congr fun home => bind_congr fun v => ?_
    rw [Scan.withValue]
    cases Frame.pushValue ⟨vals, ops⟩ v <;> rfl
  cases fn with
  | false => exact hname
  | true =>
    refine Eq.trans ?_ hname
    refine (scan_other rfl).trans ?_
    rw [Scan.beforeToken_of_not_done _ _ rfl]
    rfl

/-- An expression takes all tokens if the pass leaves none. -/
theorem evaluateSingleWith_eq (call : Call) {ts : List Token} (hne : ts ≠ []) :
    evaluateSingleWith call ts = (do
      let result ← scan call ignore {} ts
      if !result.2.isEmpty then Run.syntaxError
      Item.single result.1) := by
  rw [evaluateSingleWith, evaluateWith, bind_assoc]
  refine bind_congr fun result => ?_
  have hpos := List.length_pos_iff.2 hne
  rw [pure_bind_run]
  cases hrest : result.2 with
  | nil => simp
  | cons t rest =>
    have htaken : ts.length - (rest.length + 1) ≠ ts.length := by omega
    simp [htaken]

end LineBasic
