import LineBasic.Proofs.Expression.Pass

/-!
# What a pass accepts

A pass that comes to one value has read an expression. At each token the state of the pass fits what
it has read so far: the open parentheses are those that wait in the frame, and there is one value
more than there are binary operators waiting, or as many if an operand is still to come.
-/

set_option autoImplicit false

namespace LineBasic

namespace Pending

def isBinary : Pending → Bool
  | binary _ => true
  | _ => false

/-- A binary operator makes one value of two, and a parenthesis is never applied. -/
theorem apply_eq_ok {x : Pending} {vals vals' : List Value} (h : x.apply vals = .ok vals') :
    vals.length = vals'.length + (if x.isBinary then 1 else 0) ∧ x.isParen = false := by
  unfold apply at h
  split at h
  · rename_i op r l vals
    cases ha : Value.apply op l r <;> rw [ha] at h <;> cases h
    exact ⟨rfl, rfl⟩
  · rename_i op v vals
    cases ha : Value.applyPrefix op v <;> rw [ha] at h <;> cases h
    exact ⟨rfl, rfl⟩
  · cases h
  · cases h

end Pending

namespace Frame

def parens (f : Frame) : Nat := f.ops.countP Pending.isParen

def binaries (f : Frame) : Nat := f.ops.countP Pending.isBinary

theorem reduceWhile_counts {p : Pending → Bool} {vals : List Value} {ops : List Pending}
    {f : Frame} (h : reduceWhile p vals ops = .ok f) :
    f.parens = ops.countP Pending.isParen ∧
      f.vals.length + ops.countP Pending.isBinary = vals.length + f.binaries := by
  induction ops generalizing vals with
  | nil =>
    cases h
    exact ⟨rfl, rfl⟩
  | cons x ops ih =>
    rw [reduceWhile] at h
    split at h
    · cases ha : x.apply vals with
      | error e => rw [ha] at h; cases h
      | ok vals' =>
        rw [ha] at h
        obtain ⟨hlen, hparen⟩ := Pending.apply_eq_ok ha
        obtain ⟨hp, hb⟩ := ih h
        simp only [List.countP_cons, hparen]
        constructor
        · simpa using hp
        · split at hlen
          · simp_all
            omega
          · simp_all
    · cases h
      exact ⟨rfl, rfl⟩

theorem ops_of_reduceWhile_true {vals : List Value} {ops : List Pending} {f : Frame}
    (h : reduceWhile (fun _ => true) vals ops = .ok f) : f.ops = [] := by
  induction ops generalizing vals with
  | nil => cases h; rfl
  | cons x ops ih =>
    rw [reduceWhile, if_pos rfl] at h
    cases ha : x.apply vals with
    | error e => rw [ha] at h; cases h
    | ok vals' => rw [ha] at h; exact ih h

theorem eq_of_pushValue {f g : Frame} {v : Value} (h : f.pushValue v = .ok g) :
    g = { f with vals := v :: f.vals } := by
  rw [pushValue] at h
  split at h <;> cases h
  rfl

theorem eq_of_pushPending {f g : Frame} {x : Pending} (h : f.pushPending x = .ok g) :
    g = { f with ops := x :: f.ops } := by
  rw [pushPending] at h
  split at h <;> cases h
  rfl

theorem pushOperator_counts {f g : Frame} {op : Operator} (h : f.pushOperator op = .ok g) :
    g.parens = f.parens ∧ g.vals.length + f.binaries + 1 = f.vals.length + g.binaries := by
  obtain ⟨f', hr, hg⟩ := LineBasic.bind_eq_ok.1 h
  obtain ⟨hp, hb⟩ := reduceWhile_counts hr
  rw [eq_of_pushPending hg]
  simp only [parens, binaries, List.countP_cons, Pending.isParen, Pending.isBinary, if_true,
    Bool.false_eq_true, if_false] at hp hb ⊢
  omega

theorem closeParen_counts {f g : Frame} (h : f.closeParen = .ok g) :
    f.parens = g.parens + 1 ∧ g.vals.length + f.binaries = f.vals.length + g.binaries := by
  obtain ⟨f', hr, hg⟩ := LineBasic.bind_eq_ok.1 h
  obtain ⟨hp, hb⟩ := reduceWhile_counts hr
  split at hg
  · rename_i ops hops
    cases hg
    simp only [parens, binaries, hops, List.countP_cons, Pending.isParen, Pending.isBinary,
      if_true, Bool.false_eq_true, if_false] at hp hb ⊢
    omega
  · cases hg

theorem value_not_mem_marks (v : Value) {ops : List Pending} {items : List Item}
    (h : ops.mapM Pending.mark = .ok items) : Item.value v ∉ items := by
  induction ops generalizing items with
  | nil => cases h; simp
  | cons x ops ih =>
    rw [List.mapM_cons] at h
    obtain ⟨item, hx, h⟩ := LineBasic.bind_eq_ok.1 h
    obtain ⟨more, hm, h⟩ := LineBasic.bind_eq_ok.1 h
    cases h
    have hitem : item ≠ .value v := by
      cases x <;> cases hx <;> simp
    simpa [hitem.symm] using ih hm

/-- A frame that comes to one value has no open parenthesis, and one value more than it has binary
operators. -/
theorem flush_eq_value {f : Frame} {v : Value} (h : f.flush = .ok [.value v]) :
    f.parens = 0 ∧ f.vals.length = f.binaries + 1 := by
  rw [flush] at h
  split at h
  · exact absurd List.mem_cons_self (value_not_mem_marks v h)
  · obtain ⟨g, hg, hv⟩ := LineBasic.bind_eq_ok.1 h
    obtain ⟨hp, hb⟩ := reduceWhile_counts hg
    have hops := ops_of_reduceWhile_true hg
    split at hv
    · rename_i w hw
      simp only [parens, binaries, hops, hw, List.countP_nil, List.length_singleton] at hp hb ⊢
      omega
    · cases hv

end Frame

theorem Token.startsOperand_of_isLiteral {t : Token} (ht : t.isLiteral = true) :
    t.startsOperand = true := by
  cases t with
  | number | integer | string | literal => rfl
  | _ => cases ht

namespace Scan

theorem separate_ignore (s : Scan) (mark : String) :
    s.separate ignore mark = (do
      let items ← s.frame.flush
      return { s with
        frame := {}
        operandDone := false
        items := s.items ++ (items ++ [.separator mark]) }) := by
  rw [separate]
  simp only [emitAll_ignore]
  rfl

theorem items_beforeToken {s s' : Scan} {t : Token} {m m' : Machine}
    (h : s.beforeToken ignore t m = .ok s' m') : s.items <+: s'.items := by
  rw [beforeToken] at h
  split at h
  · split at h
    · cases h
    · rw [separate_ignore] at h
      obtain ⟨items, m₁, _, h⟩ := Run.bind_eq_ok.1 h
      cases h
      exact List.prefix_append _ _
  · cases h
    exact List.prefix_rfl

theorem items_step {s s' : Scan} {t : Token} (ht : t.isArithmetic = true) {m m' : Machine}
    (h : s.step ignore t m = .ok (some s') m') : s'.items = s.items := by
  by_cases hl : t.isLiteral = true
  · rw [s.step_literal ignore hl] at h
    obtain ⟨v, _, h⟩ := Run.liftM_bind_eq_ok.1 h
    obtain ⟨s₁, hw, h⟩ := Run.liftM_bind_eq_ok.1 h
    obtain ⟨f, _, hf⟩ := LineBasic.bind_eq_ok.1 hw
    cases hf
    cases h
    rfl
  · cases t with
    | unary op =>
      obtain ⟨f, m₁, _, h⟩ := Run.bind_eq_ok.1 h
      cases h
      rfl
    | openParen =>
      obtain ⟨f, m₁, _, h⟩ := Run.bind_eq_ok.1 h
      cases h
      rfl
    | closeParen =>
      simp only [step] at h
      split at h
      · cases h
      · split at h
        · obtain ⟨f, m₁, _, h⟩ := Run.bind_eq_ok.1 h
          cases h
          rfl
        · cases h
    | operator op =>
      have hsemi : ¬ (s.depth = 0 ∧ op = .semicolon) := by
        rintro ⟨_, rfl⟩
        cases ht
      simp only [step, hsemi, if_false] at h
      split at h
      · obtain ⟨f, m₁, _, h⟩ := Run.bind_eq_ok.1 h
        cases h
        rfl
      · cases h
    | _ => exact absurd ht hl

theorem items_finish {s : Scan} {items : List Item} {m m' : Machine}
    (h : s.finish ignore m = .ok items m') : s.items <+: items := by
  cases hc : s.fnCall with
  | true =>
    rw [finish, hc] at h
    cases h
  | false =>
    rw [finish_ignore s hc] at h
    obtain ⟨flushed, m₁, _, h⟩ := Run.bind_eq_ok.1 h
    cases h
    exact List.prefix_append _ _

end Scan

theorem items_scan {call : Call} {ts rest : List Token} (hts : ∀ t ∈ ts, t.isArithmetic = true)
    {s : Scan} {items : List Item} {m m' : Machine}
    (h : scan call ignore s ts m = .ok (items, rest) m') : s.items <+: items := by
  induction ts generalizing s m with
  | nil =>
    rw [scan] at h
    obtain ⟨items', m₁, hf, h⟩ := Run.bind_eq_ok.1 h
    cases h
    exact Scan.items_finish hf
  | cons t ts ih =>
    rw [scan_cons call ignore s ts (hts t List.mem_cons_self)] at h
    obtain ⟨s₁, m₁, hb, h⟩ := Run.bind_eq_ok.1 h
    obtain ⟨next, m₂, hs, h⟩ := Run.bind_eq_ok.1 h
    have hpre := Scan.items_beforeToken hb
    cases next with
    | none =>
      obtain ⟨items', m₃, hf, h⟩ := Run.bind_eq_ok.1 h
      cases h
      exact hpre.trans (Scan.items_finish hf)
    | some s₂ =>
      have hstep := Scan.items_step (hts t List.mem_cons_self) hs
      exact hpre.trans (hstep ▸ ih (fun u hu => hts u (List.mem_cons_of_mem t hu)) h)

structure Scan.Follows (s : Scan) (read : List Token) : Prop where
  reads : Reads s.depth s.operandDone read
  parens : s.frame.parens = s.depth
  balance : s.frame.vals.length + (if s.operandDone then 0 else 1) = s.frame.binaries + 1
  items : s.items = []
  noCall : s.fnCall = false

theorem Scan.follows_nil : Scan.Follows {} [] where
  reads := Reads.nil
  parens := rfl
  balance := rfl
  items := rfl
  noCall := rfl

section

variable {call : Call} {s : Scan} {read ts : List Token} {v : Value} {m m' : Machine}

/-- A second operand at the top starts a new value, and then there is more than one. -/
theorem scan_operand_after_operand {t : Token} (hs : s.operandDone = true)
    (hto : t.startsOperand = true) (hts : ∀ u ∈ t :: ts, u.isArithmetic = true) :
    scan call ignore s (t :: ts) m ≠ .ok ([.value v], []) m' := by
  intro h
  have ht := hts t List.mem_cons_self
  rw [scan_cons call ignore s ts ht, Scan.beforeToken, hto, hs] at h
  simp only [Bool.and_self, if_true] at h
  split at h
  · cases h
  · rw [Scan.separate_ignore, bind_assoc] at h
    obtain ⟨items, _, h⟩ := Run.liftM_bind_eq_ok.1 h
    rw [Run.pure_bind_run] at h
    have hscan : scan call ignore { s with
        frame := {}
        operandDone := false
        items := s.items ++ (items ++ [.separator ";"]) } (t :: ts) m =
          .ok ([.value v], []) m' := by
      rw [scan_cons call ignore _ ts ht, Scan.beforeToken_of_not_done ignore _ rfl,
        Run.pure_bind_run]
      exact h
    have hsep : Item.separator ";" ∈ [Item.value v] := (items_scan hts hscan).subset (by simp)
    simp at hsep

theorem Scan.Follows.operator {op : Operator} (hf : s.Follows read)
    (ht : (Token.operator op).isArithmetic = true)
    (h : scan call ignore s (.operator op :: ts) m = .ok ([.value v], []) m') :
    ∃ s' : Scan, s'.Follows (read ++ [.operator op]) ∧
      scan call ignore s' ts m = .ok ([.value v], []) m' := by
  obtain ⟨hreads, hparens, hbal, hitems, hcall⟩ := hf
  cases hs : s.operandDone with
  | false =>
    rw [scan_operator_missing call ignore ts hs ht] at h
    cases h
  | true =>
    rw [scan_operator call ignore ts hs ht] at h
    obtain ⟨f, hp, h⟩ := Run.liftM_bind_eq_ok.1 h
    obtain ⟨hpc, hbc⟩ := Frame.pushOperator_counts hp
    rw [hs] at hreads hbal
    refine ⟨_, ?_, h⟩
    refine ⟨hreads.operator ht, hpc.trans hparens, ?_, hitems, hcall⟩
    simp only [if_true, Bool.false_eq_true, if_false] at hbal ⊢
    omega

theorem Scan.Follows.closeParen (hf : s.Follows read)
    (h : scan call ignore s (.closeParen :: ts) m = .ok ([.value v], []) m') :
    ∃ s' : Scan, s'.Follows (read ++ [.closeParen]) ∧
      scan call ignore s' ts m = .ok ([.value v], []) m' := by
  obtain ⟨hreads, hparens, hbal, hitems, hcall⟩ := hf
  by_cases hd : s.depth = 0
  -- A parenthesis that none was opened for ends the pass, and is left over.
  · rw [scan_closeParen_unopened call ignore ts hd] at h
    obtain ⟨items, m₁, _, h⟩ := Run.bind_eq_ok.1 h
    cases h
  · cases hs : s.operandDone with
    | false =>
      rw [scan_closeParen_missing call ignore ts hs hd] at h
      cases h
    | true =>
      rw [scan_closeParen call ignore ts hs hd] at h
      obtain ⟨f, hp, h⟩ := Run.liftM_bind_eq_ok.1 h
      obtain ⟨hpc, hbc⟩ := Frame.closeParen_counts hp
      obtain ⟨d, hd⟩ := Nat.exists_eq_succ_of_ne_zero hd
      rw [hs] at hreads hbal
      rw [hd] at hreads hparens h
      refine ⟨_, ?_, h⟩
      refine ⟨hs ▸ hreads.closeParen, ?_, ?_, hitems, hcall⟩
      · simp only [Nat.succ_sub_one]
        omega
      · simp only [hs, if_true] at hbal ⊢
        omega

/-- One token more: if the pass still comes to one value, its state fits what it has read. -/
theorem Scan.Follows.step {t : Token} (hf : s.Follows read)
    (hts : ∀ u ∈ t :: ts, u.isArithmetic = true)
    (h : scan call ignore s (t :: ts) m = .ok ([.value v], []) m') :
    ∃ s' : Scan, s'.Follows (read ++ [t]) ∧ scan call ignore s' ts m = .ok ([.value v], []) m' := by
  have ht := hts t List.mem_cons_self
  have hnew : t.startsOperand = true → s.operandDone = false := fun hto =>
    Bool.eq_false_iff.2 fun hs => scan_operand_after_operand hs hto hts h
  have ⟨hreads, hparens, hbal, hitems, hcall⟩ := hf
  by_cases hl : t.isLiteral = true
  · have hs := hnew (Token.startsOperand_of_isLiteral hl)
    rw [scan_literal call ignore ts hs hl] at h
    obtain ⟨a, _, h⟩ := Run.liftM_bind_eq_ok.1 h
    obtain ⟨f, hp, h⟩ := Run.liftM_bind_eq_ok.1 h
    obtain rfl := Frame.eq_of_pushValue hp
    rw [hs] at hreads hbal
    refine ⟨_, ?_, h⟩
    exact ⟨hreads.operand (.primary (.literal hl)), hparens, hbal, hitems, hcall⟩
  · cases t with
    | unary op =>
      have hs := hnew rfl
      rw [scan_unary call ignore ts hs ht] at h
      obtain ⟨f, hp, h⟩ := Run.liftM_bind_eq_ok.1 h
      obtain rfl := Frame.eq_of_pushPending hp
      rw [hs] at hreads
      refine ⟨_, ?_, h⟩
      exact ⟨hs ▸ hreads.unary ht, hparens, hbal, hitems, hcall⟩
    | openParen =>
      have hs := hnew rfl
      rw [scan_openParen call ignore ts hs] at h
      obtain ⟨f, hp, h⟩ := Run.liftM_bind_eq_ok.1 h
      obtain rfl := Frame.eq_of_pushPending hp
      rw [hs] at hreads
      refine ⟨_, ?_, h⟩
      refine ⟨hs ▸ hreads.openParen, ?_, hbal, hitems, hcall⟩
      rw [← hparens]
      exact List.countP_cons_of_pos rfl
    | operator op => exact hf.operator ht h
    | closeParen => exact hf.closeParen h
    | _ => exact absurd ht hl

/-- A pass that comes to one value has read an expression. -/
theorem Scan.Follows.derives (hf : s.Follows read) (hts : ∀ t ∈ ts, t.isArithmetic = true)
    (h : scan call ignore s ts m = .ok ([.value v], []) m') :
    Derives .expression (read ++ ts) := by
  induction ts generalizing s read with
  | nil =>
    rw [scan_nil call hf.noCall, hf.items] at h
    obtain ⟨items, hi, h⟩ := Run.liftM_bind_eq_ok.1 h
    cases h
    obtain ⟨hp, hv⟩ := Frame.flush_eq_value hi
    have hbal := hf.balance
    have hreads := hf.reads
    rw [hf.parens] at hp
    rw [hp] at hreads
    cases hs : s.operandDone with
    | false => simp [hs] at hbal; omega
    | true =>
      rw [hs] at hreads
      rw [List.append_nil]
      exact hreads
  | cons t ts ih =>
    obtain ⟨s', hf', h'⟩ := hf.step hts h
    have := ih hf' (fun u hu => hts u (List.mem_cons_of_mem t hu)) h'
    simpa using this

end

theorem Item.eq_of_single {items : List Item} {v : Value} (h : Item.single items = .ok v) :
    items = [.value v] := by
  unfold Item.single at h
  split at h <;> cases h
  rfl

theorem derives_of_evaluateSingleWith {call : Call} {ts : List Token} {v : Value} {m m' : Machine}
    (hts : ∀ t ∈ ts, t.isArithmetic = true) (h : evaluateSingleWith call ts m = .ok v m') :
    Derives .expression ts := by
  rw [evaluateSingleWith, evaluateWith, bind_assoc] at h
  obtain ⟨⟨items, rest⟩, m₁, hscan, h⟩ := Run.bind_eq_ok.1 h
  simp only [Run.pure_bind_run] at h
  split at h
  · cases h
  · rename_i hlen
    rw [Run.liftM_apply] at h
    cases hi : Item.single items with
    | error f => rw [hi] at h; cases h
    | ok w =>
      obtain rfl := Item.eq_of_single hi
      have hrest : rest = [] := by
        cases ts with
        | nil =>
          rw [scan_nil call rfl] at hscan
          cases hscan
        | cons t ts =>
          refine List.eq_nil_of_length_eq_zero ?_
          simp only [List.length_cons, ne_eq, Decidable.not_not] at hlen
          omega
      subst hrest
      exact Scan.follows_nil.derives hts hscan

/-- Evaluation follows the grammar. Arithmetic tokens have a value exactly if they are an expression
whose one ordered formula has that value, and the fault of an expression is the fault of its
formula, unless one of the two stacks is full before that. -/
theorem evaluateSingle_arithmetic {ts : List Token} (hts : ∀ t ∈ ts, t.isArithmetic = true)
    (m : Machine) :
    (Derives .expression ts ↔ ∃! e : Formula, e.Ordered ∧ e.tokens = ts) ∧
    (∀ e : Formula, e.Ordered → e.tokens = ts →
      e.TakesLongest [] ∧
      (ts.length ≤ Frame.maxPending → e.fits Frame.maxPending Frame.maxPending = true) ∧
      evaluateSingle ts m =
        outcome m (if e.fits Frame.maxPending Frame.maxPending then e.eval
          else .error Frame.tooComplex)) ∧
    ∀ v m', evaluateSingle ts m = .ok v m' ↔
      m' = m ∧ Derives .expression ts ∧ ∃ e : Formula, e.Ordered ∧ e.tokens = ts ∧
        e.fits Frame.maxPending Frame.maxPending = true ∧ e.eval = .ok v := by
  have hformula : ∀ e : Formula, e.Ordered → e.tokens = ts → evaluateSingle ts m =
      outcome m (if e.fits Frame.maxPending Frame.maxPending then e.eval
        else .error Frame.tooComplex) := by
    rintro e he rfl
    rw [evaluateSingle, evaluateSingleWith_tokens _ he, Formula.evalWithin_eq]
  refine ⟨derives_expression_iff ts, fun e he ht => ⟨?_, ?_, hformula e he ht⟩, fun v m' => ?_⟩
  · exact Formula.takesLongest he fun op h => by cases h
  · intro hlen
    rw [← ht] at hlen
    exact e.fits_of_length_le hlen hlen
  · constructor
    · intro h
      have hd := derives_of_evaluateSingleWith hts h
      obtain ⟨e, he, ht, _⟩ := hd.exists_formula
      rw [hformula e he ht] at h
      split at h
      · obtain ⟨hv, hm⟩ := outcome_eq_ok.1 h
        exact ⟨hm, hd, e, he, ht, ‹_›, hv⟩
      · cases h
    · rintro ⟨rfl, _, e, he, ht, hfits, hv⟩
      rw [hformula e he ht, if_pos hfits, hv]
      rfl

/-- `10-NOT 1*2-(3-5)`: differences group to the left, and `NOT` takes only the number. -/
theorem evaluateSingle_differences :
    let product : Formula :=
      .binary .times (.prefixed .NOT (.leaf (.integer "1"))) (.leaf (.integer "2"))
    let e : Formula := .binary .minus (.binary .minus (.leaf (.integer "10")) product)
      (.group (.binary .minus (.leaf (.integer "3")) (.leaf (.integer "5"))))
    (∀ t ∈ e.tokens, t.isArithmetic = true) ∧
      evaluateSingle e.tokens {} = .ok (.integer 16) {} := by
  intro product e
  have he : e.Ordered := by decide
  refine ⟨by decide, ((evaluateSingle_arithmetic (by decide) {}).2.2 _ _).2 ?_⟩
  exact ⟨rfl, Formula.derives_tokens he, e, he, rfl, by decide, rfl⟩

end LineBasic
