import LineBasic.Proofs.Change
import LineBasic.Proofs.Expression.Reading

/-!
# Parentheses around prefix operators

A prefix operator waits on the same stack as the others, and what stands behind its operand decides
whether it is applied to that operand alone. Where the next operator binds no tighter, it is, and
parentheses around the two change nothing. A sign binds as loosely as the binary operator of its
name, so before a product or a power it is applied to the whole of it.
-/

set_option autoImplicit false

namespace LineBasic

open Run

section

variable {α β : Type} {full : Prop}

def Run.SameUnless (full : Prop) (x y : Run α) : Prop :=
  ∀ m, x m = y m ∨ full ∧ ∃ m', x m = .error Frame.tooComplex m'

namespace Run.SameUnless

theorem refl (x : Run α) : SameUnless full x x := fun _ => .inl rfl

theorem of_eq {x x' y : Run α} (hx : x = x') (h : SameUnless full x' y) : SameUnless full x y := by
  rw [hx]
  exact h

theorem bind {x y : Run α} {f g : α → Run β} (h : SameUnless full x y)
    (hf : ∀ a, SameUnless full (f a) (g a)) : SameUnless full (x >>= f) (y >>= g) := by
  intro m
  rcases h m with hm | ⟨hfull, m', hm⟩
  · rw [bind_apply, bind_apply, hm]
    cases y m with
    | error e m₁ => exact .inl rfl
    | ok a m₁ => exact hf a m₁
  · exact .inr ⟨hfull, m', by rw [bind_apply, hm]⟩

theorem liftM_bind {x : Except Fault α} {f g : α → Run β}
    (h : ∀ a, x = .ok a → SameUnless full (f a) (g a)) :
    SameUnless full (liftM x >>= f) (liftM x >>= g) := by
  cases x with
  | error e => exact .refl _
  | ok a => exact h a rfl

theorem pushPending {vals vals' : List Value} {ops ops' : List Pending} {x : Pending}
    {k k' : Frame → Run β} (hlen : ops.length ≤ ops'.length)
    (hroom : ¬ full → ops'.length < Frame.maxPending)
    (h : SameUnless full (k' ⟨vals', x :: ops'⟩) (k ⟨vals, x :: ops⟩)) :
    SameUnless full (liftM (Frame.pushPending ⟨vals', ops'⟩ x) >>= k')
      (liftM (Frame.pushPending ⟨vals, ops⟩ x) >>= k) := by
  by_cases hlt : ops'.length < Frame.maxPending
  · rw [Frame.pushPending, Frame.pushPending, if_pos hlt, if_pos (Nat.lt_of_le_of_lt hlen hlt)]
    exact h
  · rw [Frame.pushPending, if_neg hlt]
    exact fun m => .inr ⟨Classical.byContradiction fun hfull => hlt (hroom hfull), m, rfl⟩

theorem pushPending_left {vals : List Value} {ops : List Pending} {x : Pending}
    {k : Frame → Run β} {y : Run β} (hroom : ¬ full → ops.length < Frame.maxPending)
    (h : SameUnless full (k ⟨vals, x :: ops⟩) y) :
    SameUnless full (liftM (Frame.pushPending ⟨vals, ops⟩ x) >>= k) y := by
  by_cases hlt : ops.length < Frame.maxPending
  · rw [Frame.pushPending, if_pos hlt]
    exact h
  · rw [Frame.pushPending, if_neg hlt]
    exact fun m => .inr ⟨Classical.byContradiction fun hfull => hlt (hroom hfull), m, rfl⟩

end Run.SameUnless

end

inductive Part where
  /-- An operand without prefix operators. -/
  | primary
  /-- Operands that operators join. -/
  | expression (inside : Bool)
  /-- What stands in the parentheses behind a name. -/
  | arguments

def prefixes (us : List Operator) : List Token := us.map .unary

def applications (p : List Token) : List Operator → List Token
  | [] => p
  | u :: us => .openParen :: (.unary u :: applications p us) ++ [.closeParen]

/-- Puts parentheses around applications of prefix operators: in each operand around those of the
operators nearest to it, as many as wanted, if the operator behind the operand binds no tighter than
any of them. -/
inductive Bracketed : Part → List Token → List Token → Prop
  | literal {t : Token} (ht : t.isLiteral = true) : Bracketed .primary [t] [t]
  | name (fn : Bool) (home : Option String) (name : String) :
      Bracketed .primary (nameTokens fn home name) (nameTokens fn home name)
  | call (fn : Bool) (home : Option String) (name : String) {args args' : List Token}
      (h : Bracketed .arguments args args') :
      Bracketed .primary (nameTokens fn home name ++ (.openParen :: args ++ [.closeParen]))
        (nameTokens fn home name ++ (.openParen :: args' ++ [.closeParen]))
  | group {ts ts' : List Token} (h : Bracketed (.expression true) ts ts') :
      Bracketed .primary (.openParen :: ts ++ [.closeParen]) (.openParen :: ts' ++ [.closeParen])
  | operand {inside : Bool} {p p' : List Token} (us ws : List Operator)
      (hp : Bracketed .primary p p') :
      Bracketed (.expression inside) (prefixes us ++ (prefixes ws ++ p))
        (prefixes us ++ applications p' ws)
  | joined {inside : Bool} {p p' ts ts' : List Token} (us ws : List Operator) {op : Operator}
      (hp : Bracketed .primary p p') (hop : op.joins inside = true)
      (hws : ∀ u ∈ ws, op.precedence ≤ u.precedence) (h : Bracketed (.expression inside) ts ts') :
      Bracketed (.expression inside) (prefixes us ++ (prefixes ws ++ p) ++ .operator op :: ts)
        (prefixes us ++ applications p' ws ++ .operator op :: ts')
  | noArguments : Bracketed .arguments [] []
  | argument {ts ts' : List Token} (h : Bracketed (.expression false) ts ts') :
      Bracketed .arguments ts ts'
  | moreArguments {t : Token} {ts ts' args args' : List Token}
      (h : Bracketed (.expression false) ts ts') (ht : t = .comma ∨ t = .operator .semicolon)
      (hargs : Bracketed .arguments args args') :
      Bracketed .arguments (ts ++ t :: args) (ts' ++ t :: args')

theorem balanced_prefixes (us : List Operator) : Balanced (prefixes us) := by
  induction us with
  | nil => exact .nil
  | cons u us ih => exact .cons (by simp) (by simp) ih

theorem balanced_nameTokens (fn : Bool) (home : Option String) (name : String) :
    Balanced (nameTokens fn home name) := by
  have hident : Balanced [.ident name] := .cons (by simp) (by simp) .nil
  cases fn <;> cases home
  · exact hident
  · exact .cons (by simp) (by simp) hident
  · exact .cons (by simp) (by simp) hident
  · exact .cons (by simp) (by simp) (.cons (by simp) (by simp) hident)

theorem balanced_applications {p : List Token} (hp : Balanced p) (us : List Operator) :
    Balanced (applications p us) := by
  induction us with
  | nil => exact hp
  | cons u us ih => exact .parens (.cons (by simp) (by simp) ih)

theorem Bracketed.balanced {part : Part} {ts ts' : List Token} (h : Bracketed part ts ts') :
    Balanced ts ∧ Balanced ts' := by
  induction h with
  | @literal t ht =>
    have : Balanced [t] := .cons (by rintro rfl; cases ht) (by rintro rfl; cases ht) .nil
    exact ⟨this, this⟩
  | name fn home name => exact ⟨balanced_nameTokens _ _ _, balanced_nameTokens _ _ _⟩
  | call fn home name _ ih =>
    exact ⟨(balanced_nameTokens _ _ _).append ih.1.parens,
      (balanced_nameTokens _ _ _).append ih.2.parens⟩
  | group _ ih => exact ⟨ih.1.parens, ih.2.parens⟩
  | operand us ws _ ih =>
    exact ⟨(balanced_prefixes us).append ((balanced_prefixes ws).append ih.1),
      (balanced_prefixes us).append (balanced_applications ih.2 ws)⟩
  | joined us ws _ _ _ _ ihp ih =>
    exact ⟨((balanced_prefixes us).append ((balanced_prefixes ws).append ihp.1)).append
        (.cons (by simp) (by simp) ih.1),
      ((balanced_prefixes us).append (balanced_applications ihp.2 ws)).append
        (.cons (by simp) (by simp) ih.2)⟩
  | noArguments => exact ⟨.nil, .nil⟩
  | argument _ ih => exact ih
  | @moreArguments t _ _ _ _ _ ht _ ih ihargs =>
    have hopen : t ≠ .openParen := by rcases ht with rfl | rfl <;> simp
    have hclose : t ≠ .closeParen := by rcases ht with rfl | rfl <;> simp
    exact ⟨ih.1.append (.cons hopen hclose ihargs.1), ih.2.append (.cons hopen hclose ihargs.2)⟩

def Room (full : Prop) (ops : List Pending) (tokens : List Token) : Prop :=
  ¬ full → ops.length + tokens.length ≤ Frame.maxPending

theorem Room.mono {full : Prop} {ops ops' : List Pending} {ts ts' : List Token}
    (h : Room full ops ts) (hle : ops'.length + ts'.length ≤ ops.length + ts.length) :
    Room full ops' ts' :=
  fun hfull => Nat.le_trans hle (h hfull)

theorem Room.lt {full : Prop} {ops ops' : List Pending} {ts : List Token} (h : Room full ops ts)
    (hlt : ops'.length < ops.length + ts.length) : ¬ full → ops'.length < Frame.maxPending :=
  fun hfull => Nat.lt_of_lt_of_le hlt (h hfull)

section

variable (full : Prop) (call : Call)

def SameBehind (items : List Item) (d d' : Nat) (ops ops' : List Pending)
    (rest rest' : List Token) : Prop :=
  ∀ vals, vals ≠ [] → SameUnless full (scan call ignore (.reading d' items true vals ops') rest')
    (scan call ignore (.reading d items true vals ops) rest)

/-- Two primaries do the same in passes that have the same values waiting, and the second one no
fewer operators, as long as what stands behind them does. -/
def SamePrimary (p p' : List Token) : Prop :=
  ∀ d d' items vals ops ops' rest rest', ops.length ≤ ops'.length → Room full ops' (p' ++ rest') →
    rest.head? ≠ some .openParen → rest'.head? ≠ some .openParen →
    SameBehind full call items d d' ops ops' rest rest' →
    SameUnless full (scan call ignore (.reading d' items false vals ops') (p' ++ rest'))
      (scan call ignore (.reading d items false vals ops) (p ++ rest))

/-- The same for expressions. The operators `above` wait since they began, and those of the base are
out of reach until they end. -/
def SameExpression (inside : Bool) (ts ts' : List Token) : Prop :=
  ∀ d d' items vals above base base' rest rest', (inside = true → d ≠ 0 ∧ d' ≠ 0) →
    base.length ≤ base'.length → Room full (above ++ base') (ts' ++ rest') →
    (∀ x ∈ above, Pending.isParen x = false) →
    Closing d base rest → Closing d' base' rest' →
    SameBehind full call items d d' base base' rest rest' →
    SameUnless full
      (scan call ignore (.reading d' items false vals (above ++ base')) (ts' ++ rest'))
      (scan call ignore (.reading d items false vals (above ++ base)) (ts ++ rest))

def SameArguments (ts ts' : List Token) : Prop :=
  Room full [] ts' → ∀ items, SameUnless full (scan call ignore (.reading 0 items false [] []) ts')
    (scan call ignore (.reading 0 items false [] []) ts)

def Part.Same : Part → List Token → List Token → Prop
  | primary => SamePrimary full call
  | expression inside => SameExpression full call inside
  | arguments => SameArguments full call

end

def waiting (us : List Operator) : List Pending := (us.map .prefixed).reverse

theorem waiting_cons (u : Operator) (us : List Operator) :
    waiting (u :: us) = waiting us ++ [.prefixed u] := by
  simp [waiting]

theorem not_paren_of_mem_waiting (us : List Operator) : ∀ x ∈ waiting us, x.isParen = false := by
  simp [waiting, Pending.isParen]

theorem Room.waiting {full : Prop} {us : List Operator} {ops : List Pending} {ts : List Token}
    (h : Room full ops (prefixes us ++ ts)) : Room full (waiting us ++ ops) ts := by
  refine h.mono ?_
  simp only [LineBasic.waiting, prefixes, List.length_append, List.length_reverse, List.length_map]
  omega

section

variable {full : Prop} {call : Call} {d d' : Nat} {items : List Item} {vals : List Value}
  {ops ops' : List Pending} {rest rest' : List Token}

theorem same_prefixes (us : List Operator) (hlen : ops.length ≤ ops'.length)
    (hroom : Room full ops' (prefixes us ++ rest'))
    (h : SameUnless full
      (scan call ignore (.reading d' items false vals (waiting us ++ ops')) rest')
      (scan call ignore (.reading d items false vals (waiting us ++ ops)) rest)) :
    SameUnless full (scan call ignore (.reading d' items false vals ops') (prefixes us ++ rest'))
      (scan call ignore (.reading d items false vals ops) (prefixes us ++ rest)) := by
  induction us generalizing ops ops' with
  | nil => exact h
  | cons u us ih =>
    rw [waiting_cons, List.append_assoc, List.append_assoc] at h
    change SameUnless full (scan call ignore _ (.unary u :: (prefixes us ++ rest')))
      (scan call ignore _ (.unary u :: (prefixes us ++ rest)))
    rw [scan_reading_unary, scan_reading_unary]
    have hroom : Room full ops' (.unary u :: (prefixes us ++ rest')) := hroom
    refine .pushPending hlen (hroom.lt (by simp)) (ih (Nat.succ_le_succ hlen) (hroom.mono ?_) h)
    simp only [List.length_cons]
    omega

/-- An operand with its innermost prefix operators in parentheses, against the same without them.
Behind the parentheses the operators have been applied, and without them they still wait. -/
theorem same_applications {p p' : List Token} (hp : SamePrimary full call p p') (ws : List Operator)
    (hlen : ops.length ≤ ops'.length) (hroom : Room full ops' (applications p' ws ++ rest'))
    (hrest : rest.head? ≠ some .openParen) (hrest' : rest'.head? ≠ some .openParen)
    (h : ∀ vals, vals ≠ [] → SameUnless full
      (do
        let vals ← Frame.applyAll vals (waiting ws)
        scan call ignore (.reading d' items true vals ops') rest')
      (scan call ignore (.reading d items true vals (waiting ws ++ ops)) rest)) :
    SameUnless full
      (scan call ignore (.reading d' items false vals ops') (applications p' ws ++ rest'))
      (scan call ignore (.reading d items false vals ops) (prefixes ws ++ (p ++ rest))) := by
  induction ws generalizing d' ops ops' rest' with
  | nil => exact hp d d' items vals ops ops' rest rest' hlen hroom hrest hrest' h
  | cons u ws ih =>
    have htokens : applications p' (u :: ws) ++ rest' =
        .openParen :: .unary u :: (applications p' ws ++ .closeParen :: rest') := by
      simp [applications]
    rw [htokens] at hroom
    rw [htokens, scan_reading_openParen]
    refine .pushPending_left (hroom.lt (by simp)) ?_
    change SameUnless full _ (scan call ignore _ (.unary u :: (prefixes ws ++ (p ++ rest))))
    rw [scan_reading_unary, scan_reading_unary]
    refine .pushPending (Nat.le_succ_of_le hlen) (hroom.lt (by simp))
      (ih ?_ (hroom.mono ?_) (by simp) fun vals hvals => ?_)
    · exact Nat.succ_le_succ (Nat.le_succ_of_le hlen)
    · simp only [List.length_cons]
      omega
    · have hvals := h vals hvals
      rw [waiting_cons, List.append_assoc, Frame.applyAll_append, liftM_bind, bind_assoc] at hvals
      refine .of_eq (bind_congr fun vals => ?_) hvals
      exact scan_reading_closeParen [.prefixed u] (by simp [Pending.isParen])

end

/-- What does the same once the operators of an expression are applied does so where it ends. -/
theorem SameBehind.closing {full : Prop} {call : Call} {items : List Item} {d d' : Nat}
    {above base base' : List Pending} {rest rest' : List Token}
    (h : SameBehind full call items d d' base base' rest rest') (hclosing : Closing d base rest)
    (hclosing' : Closing d' base' rest') (habove : ∀ x ∈ above, x.isParen = false) :
    SameBehind full call items d d' (above ++ base) (above ++ base') rest rest' := by
  intro vals hvals
  rw [scan_reading_closing hclosing hvals habove, scan_reading_closing hclosing' hvals habove]
  exact .liftM_bind fun vals' happly => h vals' (Frame.applyAll_ne_nil hvals happly)

theorem not_paren_append {xs ys : List Pending} (hxs : ∀ x ∈ xs, x.isParen = false)
    (hys : ∀ x ∈ ys, x.isParen = false) : ∀ x ∈ xs ++ ys, x.isParen = false := by
  intro x hx
  rcases List.mem_append.1 hx with hx | hx
  · exact hxs x hx
  · exact hys x hx

theorem same_operand {full : Prop} {call : Call} {p p' : List Token}
    (hp : SamePrimary full call p p') (inside : Bool) (us ws : List Operator) :
    SameExpression full call inside (prefixes us ++ (prefixes ws ++ p))
      (prefixes us ++ applications p' ws) := by
  intro d d' items vals above base base' rest rest' _ hlen hroom habove hclosing hclosing' h
  rw [List.append_assoc] at hroom
  rw [List.append_assoc, List.append_assoc, List.append_assoc]
  refine same_prefixes us (by simpa using hlen) hroom ?_
  refine same_applications hp ws (by simpa using hlen) hroom.waiting hclosing.head_ne_openParen
    hclosing'.head_ne_openParen fun vals hvals => ?_
  -- without parentheses all that waits is applied at once, with them the innermost already are
  have hbelow := not_paren_append (not_paren_of_mem_waiting us) habove
  have hall := not_paren_append (not_paren_of_mem_waiting ws) hbelow
  rw [← List.append_assoc (waiting us), ← List.append_assoc (waiting us),
    ← List.append_assoc (waiting ws), scan_reading_closing hclosing hvals hall,
    Frame.applyAll_append, Run.liftM_bind, bind_assoc]
  refine .liftM_bind fun vals' happly => ?_
  have hvals' := Frame.applyAll_ne_nil hvals happly
  rw [← scan_reading_closing hclosing hvals' hbelow]
  exact h.closing hclosing hclosing' hbelow vals' hvals'

theorem waiting_yieldsTo {op : Operator} {ws : List Operator}
    (h : ∀ u ∈ ws, op.precedence ≤ u.precedence) : ∀ x ∈ waiting ws, x.yieldsTo op = true := by
  simpa [waiting, Pending.yieldsTo] using h

theorem same_joined {full : Prop} {call : Call} {inside : Bool} {p p' ts ts' : List Token}
    (hp : SamePrimary full call p p') (us ws : List Operator) {op : Operator}
    (hop : op.joins inside = true) (hws : ∀ u ∈ ws, op.precedence ≤ u.precedence)
    (hts : SameExpression full call inside ts ts') :
    SameExpression full call inside (prefixes us ++ (prefixes ws ++ p) ++ .operator op :: ts)
      (prefixes us ++ applications p' ws ++ .operator op :: ts') := by
  intro d d' items vals above base base' rest rest' hinside hlen hroom habove hclosing hclosing' h
  simp only [List.append_assoc, List.cons_append] at hroom ⊢
  refine same_prefixes us (by simpa using hlen) hroom ?_
  have hroom := hroom.waiting
  refine same_applications hp ws (by simpa using hlen) hroom (by simp) (by simp)
    fun vals hvals => ?_
  -- the operator applies the innermost prefix operators first, and then the same as behind them
  rw [scan_reading_operator hop fun hin => (hinside hin).1, Frame.pushOperator, Frame.reduce,
    Frame.reduceWhile_of_all (waiting_yieldsTo hws), bind_assoc, Run.liftM_bind, bind_assoc]
  refine .liftM_bind fun vals' _ => ?_
  have hbelow := not_paren_append (not_paren_of_mem_waiting us) habove
  rw [scan_reading_operator hop fun hin => (hinside hin).2, Frame.pushOperator, Frame.reduce,
    ← List.append_assoc, ← List.append_assoc,
    Frame.reduceWhile_append (hclosing.head_not_yields op),
    Frame.reduceWhile_append (hclosing'.head_not_yields op)]
  simp only [bind_assoc, ok_bind, Run.liftM_bind]
  refine .liftM_bind fun f hf => ?_
  have hsuffix := Frame.suffix_of_reduceWhile hf
  have hroom : Room full (f.ops ++ base') (.operator op :: (ts' ++ rest')) := by
    have hshorter := hsuffix.length_le
    refine hroom.mono ?_
    simp only [List.length_append] at hshorter ⊢
    omega
  refine .pushPending (by simpa using hlen) (hroom.lt (by simp)) ?_
  refine hts d d' items f.vals (.binary op :: f.ops) base base' rest rest' hinside hlen
    (hroom.mono ?_) ?_ hclosing hclosing' h
  · simp only [List.cons_append, List.length_cons]
    omega
  intro x hx
  rcases List.mem_cons.1 hx with rfl | hx
  · rfl
  · exact hbelow x (hsuffix.subset hx)

theorem SameBehind.pushValue {full : Prop} {call : Call} {items : List Item} {d d' : Nat}
    {ops ops' : List Pending} {rest rest' : List Token}
    (h : SameBehind full call items d d' ops ops' rest rest') (vals : List Value) (v : Value) :
    SameUnless full
      (do
        let f ← Frame.pushValue ⟨vals, ops'⟩ v
        scan call ignore (.reading d' items true f.vals f.ops) rest')
      (do
        let f ← Frame.pushValue ⟨vals, ops⟩ v
        scan call ignore (.reading d items true f.vals f.ops) rest) := by
  rw [Frame.pushValue, Frame.pushValue]
  dsimp only
  split
  · exact h (v :: vals) (List.cons_ne_nil v vals)
  · exact .refl _

theorem same_literal {full : Prop} {call : Call} {t : Token} (ht : t.isLiteral = true) :
    SamePrimary full call [t] [t] := by
  intro d d' items vals ops ops' rest rest' _ _ _ _ h
  rw [List.singleton_append, List.singleton_append, scan_reading_literal ht,
    scan_reading_literal ht]
  exact .liftM_bind fun v _ => h.pushValue vals v

theorem same_group {full : Prop} {call : Call} {ts ts' : List Token}
    (hts : SameExpression full call true ts ts') :
    SamePrimary full call (.openParen :: ts ++ [.closeParen])
      (.openParen :: ts' ++ [.closeParen]) := by
  intro d d' items vals ops ops' rest rest' hlen hroom _ _ h
  simp only [List.cons_append, List.append_assoc, List.nil_append] at hroom ⊢
  rw [scan_reading_openParen, scan_reading_openParen]
  refine .pushPending hlen (hroom.lt (by simp)) ?_
  refine hts (d + 1) (d' + 1) items vals [] (.paren :: ops) (.paren :: ops') _ _ (by simp)
    (Nat.succ_le_succ hlen) (hroom.mono ?_) (by simp) (.paren d ops rest) (.paren d' ops' rest')
    fun vals hvals => ?_
  · simp only [List.nil_append, List.length_cons]
    omega
  rw [scan_reading_empty_closeParen, scan_reading_empty_closeParen]
  exact h vals hvals

theorem same_name {full : Prop} {call : Call} {fn : Bool} {home : Option String} {name : String}
    {d d' : Nat} {items : List Item} {vals : List Value} {ops ops' : List Pending}
    {ref ref' : Reference} {ts ts' rest rest' : List Token}
    (hts : Reference.withArguments name ts = .ok (ref, rest))
    (hts' : Reference.withArguments name ts' = .ok (ref', rest'))
    (hsame : ∀ home, SameUnless full (operandWith call (scan call ignore {}) fn home ref')
      (operandWith call (scan call ignore {}) fn home ref))
    (h : SameBehind full call items d d' ops ops' rest rest') :
    SameUnless full
      (scan call ignore (.reading d' items false vals ops') (nameTokens fn home name ++ ts'))
      (scan call ignore (.reading d items false vals ops) (nameTokens fn home name ++ ts)) := by
  rw [scan_reading_name hts, scan_reading_name hts']
  exact .bind (.refl _) fun home => .bind (hsame home) fun v => h.pushValue vals v

theorem same_call {full : Prop} {call : Call} {args args' : List Token}
    (hargs : SameArguments full call args args') (hroom : Room full [] args')
    (hempty : args'.isEmpty = args.isEmpty) (fn : Bool) (home : ModuleId) (name : String) :
    SameUnless full (operandWith call (scan call ignore {}) fn home ⟨name, some args'⟩)
      (operandWith call (scan call ignore {}) fn home ⟨name, some args⟩) := by
  rw [operandWith, operandWith]
  dsimp only
  rw [hempty]
  split
  · exact .refl _
  · exact .bind (hargs hroom []) fun _ => .refl _

theorem Bracketed.ne_nil {part : Part} {ts ts' : List Token} (h : Bracketed part ts ts')
    (hpart : part ≠ .arguments) : ts ≠ [] ∧ ts' ≠ [] := by
  induction h with
  | literal => simp
  | name => simp [nameTokens]
  | call => simp
  | group => simp
  | operand us ws hp ih =>
    have := ih (by simp)
    refine ⟨by simp [this.1], ?_⟩
    cases ws with
    | nil => simp [applications, this.2]
    | cons w ws => simp [applications]
  | joined => simp
  | _ => exact absurd rfl hpart

theorem Bracketed.isEmpty_eq {args args' : List Token} (h : Bracketed .arguments args args') :
    args'.isEmpty = args.isEmpty := by
  cases h with
  | noArguments => rfl
  | argument h =>
    obtain ⟨hts, hts'⟩ := h.ne_nil (by simp)
    rw [List.isEmpty_eq_false_iff.2 hts, List.isEmpty_eq_false_iff.2 hts']
  | @moreArguments t ts ts' => cases ts <;> cases ts' <;> rfl

theorem Bracketed.same (full : Prop) (call : Call) {part : Part} {ts ts' : List Token}
    (h : Bracketed part ts ts') : part.Same full call ts ts' := by
  induction h with
  | literal ht => exact same_literal ht
  | name fn home name =>
    intro d d' items vals ops ops' rest rest' _ _ hrest hrest' h
    exact same_name (Reference.withArguments_of_head hrest) (Reference.withArguments_of_head hrest')
      (fun _ => .refl _) h
  | @call fn home name args args' hargs ih =>
    intro d d' items vals ops ops' rest rest' _ hroom _ _ h
    have hroom : Room full [] args' := by
      refine hroom.mono ?_
      simp only [List.length_append, List.length_cons, List.length_nil]
      omega
    rw [List.append_assoc, List.append_assoc, List.append_assoc, List.append_assoc]
    exact same_name (Reference.withArguments_of_balanced hargs.balanced.1 name rest)
      (Reference.withArguments_of_balanced hargs.balanced.2 name rest')
      (fun home => same_call ih hroom hargs.isEmpty_eq fn home name) h
  | group _ ih => exact same_group ih
  | operand us ws _ ih => exact same_operand ih _ us ws
  | joined us ws _ hop hws _ ihp ih => exact same_joined ihp us ws hop hws ih
  | noArguments => exact fun _ items => .refl _
  | @argument ts ts' _ ih =>
    intro hroom items
    have := ih 0 0 items [] [] [] [] [] [] (by simp) (Nat.le_refl _) (hroom.mono (by simp))
      (by simp) (.finish 0) (.finish 0) fun vals _ => .refl _
    simpa using this
  | @moreArguments t ts ts' args args' _ ht _ ih ihargs =>
    intro hroom items
    refine ih 0 0 items [] [] [] [] (t :: args) (t :: args') (by simp) (Nat.le_refl _) hroom
      (by simp) (.separator ht args) (.separator ht args') fun vals _ => ?_
    rw [scan_reading_separator ht, scan_reading_separator ht]
    have hroom : Room full [] args' := by
      refine hroom.mono ?_
      simp only [List.length_append, List.length_cons]
      omega
    exact .liftM_bind fun flushed _ => ihargs hroom _

/-- Parentheses around applications of prefix operators change nothing, in any machine, where the
operator behind each operand binds no tighter than the prefix operators that are set apart with it.
All that they can do is to fill a stack, and only if there are more tokens than it has places. -/
theorem parentheses_around_prefixes_change_nothing {ts ts' : List Token}
    (h : Bracketed (.expression false) ts ts') (m : Machine) :
    evaluateSingle ts' m = evaluateSingle ts m ∨ Frame.maxPending < ts'.length ∧
      ∃ m', evaluateSingle ts' m = .error Frame.tooComplex m' := by
  have hroom : Room (Frame.maxPending < ts'.length) [] ts' := fun hfull => by
    simpa using hfull
  have hscan : SameUnless (Frame.maxPending < ts'.length)
      (scan (callDefined maxCallDepth) ignore {} ts')
      (scan (callDefined maxCallDepth) ignore {} ts) := (Bracketed.argument h).same _ _ hroom []
  obtain ⟨hne, hne'⟩ := h.ne_nil (by simp)
  rw [evaluateSingle, evaluateSingle, evaluateSingleWith_eq _ hne, evaluateSingleWith_eq _ hne']
  exact hscan.bind (fun _ => .refl _) m

/-- `-X+NOT(-1)` -/
def signedSum : List Token :=
  [.unary .minus, .ident "X", .operator .plus, .unary .NOT, .openParen, .unary .minus,
    .integer "1", .closeParen]

/-- `(-X)+(NOT((-1)))` -/
def bracketedSum : List Token :=
  [.openParen, .unary .minus, .ident "X", .closeParen, .operator .plus, .openParen, .unary .NOT,
    .openParen, .openParen, .unary .minus, .integer "1", .closeParen, .closeParen, .closeParen]

theorem parentheses_around_prefixes_change_nothing_in_sum :
    Bracketed (.expression false) signedSum bracketedSum ∧
      evaluateSingle bracketedSum {} = evaluateSingle signedSum {} := by
  have hone : Bracketed (.expression true) [.unary .minus, .integer "1"]
      [.openParen, .unary .minus, .integer "1", .closeParen] :=
    .operand [] [.minus] (.literal rfl)
  have hnot : Bracketed (.expression false)
      [.unary .NOT, .openParen, .unary .minus, .integer "1", .closeParen]
      [.openParen, .unary .NOT, .openParen, .openParen, .unary .minus, .integer "1", .closeParen,
        .closeParen, .closeParen] :=
    .operand [] [.NOT] (.group hone)
  have hsum : Bracketed (.expression false) signedSum bracketedSum :=
    .joined [] [.minus] (.name false none "X") rfl (by decide) hnot
  have hroom : ¬ Frame.maxPending < bracketedSum.length := by decide
  exact ⟨hsum, (parentheses_around_prefixes_change_nothing hsum {}).resolve_right fun hfull =>
    hroom hfull.1⟩

/-- `NOT -2*2` -/
def signedProduct : List Token :=
  prefixes [.NOT, .minus] ++ ([.integer "2"] ++ [.operator .times, .integer "2"])

/-- `(NOT(-2))*2` -/
def bracketedFactor : List Token :=
  applications [.integer "2"] [.NOT, .minus] ++ [.operator .times, .integer "2"]

set_option maxRecDepth 100000 in
/-- Multiplication binds tighter than a sign, which is applied to the product. -/
theorem parentheses_around_prefixes_of_factor_change_product :
    ((evaluateSingle signedProduct).answer {}).toOption = some (.integer 3) ∧
      ((evaluateSingle bracketedFactor).answer {}).toOption = some (.integer 2) := by
  decide +kernel

end LineBasic
