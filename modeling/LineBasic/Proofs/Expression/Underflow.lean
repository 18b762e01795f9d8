import LineBasic.Proofs.Blind
import LineBasic.Proofs.Evaluation
import LineBasic.Proofs.Expression.Stacks

/-!
# Evaluation on stacks

A pass can keep what waits on two stacks. Its depth is the number of parentheses that wait there, so
what it does is what a pass on lists does, and it never takes from an empty stack.
-/

set_option autoImplicit false

namespace LineBasic

open Run

structure StackScan where
  frame : StackFrame := {}
  depth : Nat := 0
  operandDone : Bool := false
  fnCall : Bool := false
  items : List Item := []

namespace StackScan

def separate (emit : Item → Run Unit) (s : StackScan) (mark : String) : Run StackScan := do
  let items := (← s.frame.flush) ++ [.separator mark]
  emitAll emit items
  return { s with frame := {}, operandDone := false, items := s.items ++ items }

def beforeToken (emit : Item → Run Unit) (s : StackScan) (t : Token) : Run StackScan :=
  if t.startsOperand && s.operandDone then
    if 0 < s.depth then throw missingOperator else s.separate emit ";"
  else pure s

def withValue (s : StackScan) (v : Value) : Except Fault StackScan := do
  return { s with frame := ← s.frame.pushValue v, operandDone := true }

def finish (emit : Item → Run Unit) (s : StackScan) : Run (List Item) := do
  if s.fnCall then Run.fail .badSyntax "FN WITHOUT NAME"
  let items ← s.frame.flush
  emitAll emit items
  return s.items ++ items

def step (emit : Item → Run Unit) (s : StackScan) : Token → Run (Option StackScan)
  | .number text => do return some (← s.withValue (← numberValue text))
  | .integer text => do return some (← s.withValue (← integerValue text))
  | .string text => do return some (← s.withValue (.text text))
  | .literal v => do return some (← s.withValue v)
  | .word w => return if w = .FN then some { s with fnCall := true } else none
  | .unary op => do return some { s with frame := ← s.frame.pushPending (.prefixed op) }
  | .comma =>
    if s.depth = 0 then some <$> s.separate emit ","
    else Run.fail .badSyntax "COMMA INSIDE PARENTHESES"
  | .operator op =>
    if s.depth = 0 ∧ op = .semicolon then some <$> s.separate emit ";"
    else if s.operandDone then do
      return some { s with frame := ← s.frame.pushOperator op, operandDone := false }
    else throw missingOperand
  | .openParen => do
    return some { s with frame := ← s.frame.pushPending .paren, depth := s.depth + 1 }
  | .closeParen =>
    if s.depth = 0 then return none
    else if s.operandDone then do
      return some { s with frame := ← s.frame.closeParen, depth := s.depth - 1 }
    else throw missingOperand
  | .command _ | .fileHandle _ => Run.fail .badSyntax "UNEXPECTED TOKEN IN EXPRESSION"
  | .ident _ | .qualifier _ => return none

end StackScan

def stackScan (call : Call) (emit : Item → Run Unit) (s : StackScan) (tokens : List Token) :
    Run (List Item × List Token) :=
  match tokens with
  | [] => do return (← s.finish emit, [])
  | t :: ts => do
    let s ← s.beforeToken emit t
    if t.startsName then
      let home ← qualifiedModule t
      match h : Reference.split expectedName (t :: ts) with
      | .error f => throw f
      | .ok (ref, rest) =>
        have : rest.length < (t :: ts).length := (Reference.length_split h).1
        let v ← match ha : ref.args with
          | none => plainOperand call s.fnCall home ref.name
          | some inner => do
            have : inner.length < (t :: ts).length := (Reference.length_split h).2 inner ha
            let args ←
              if inner.isEmpty then pure []
              else do
                let (items, after) ← stackScan call ignore {} inner
                if !after.isEmpty then Run.syntaxError
                pure (Item.values items)
            appliedOperand call s.fnCall home ref.name args
        let s ← s.withValue v
        stackScan call emit { s with fnCall := false } rest
    else
      match ← s.step emit t with
      | some s => stackScan call emit s ts
      | none => do return (← s.finish emit, t :: ts)
termination_by tokens.length
decreasing_by all_goals (simp only [List.length_cons] at *; omega)

namespace Scan

def stacked (s : Scan) : StackScan :=
  { frame := s.frame.stacked, depth := s.depth, operandDone := s.operandDone, fnCall := s.fnCall
    items := s.items }

structure Counts (s : Scan) : Prop where
  parens : s.frame.parens = s.depth
  roomy : s.frame.Roomy

theorem counts_start : Counts {} := ⟨rfl, Nat.zero_le _⟩

section

variable {emit : Item → Run Unit} {s : Scan} (hs : s.Counts)

include hs

theorem stacked_separate (emit : Item → Run Unit) (mark : String) :
    s.stacked.separate emit mark = stacked <$> s.separate emit mark := by
  rw [StackScan.separate, separate, map_bind]
  change (liftM s.frame.stacked.flush >>= _) = _
  rw [Frame.stacked_flush hs.roomy]
  refine bind_congr fun items => ?_
  rw [map_bind]
  rfl

theorem stacked_beforeToken (emit : Item → Run Unit) (t : Token) :
    s.stacked.beforeToken emit t = stacked <$> s.beforeToken emit t := by
  rw [StackScan.beforeToken, beforeToken]
  change (if t.startsOperand && s.operandDone then if 0 < s.depth then _ else _ else _) = _
  split
  · split
    · rfl
    · exact stacked_separate hs emit ";"
  · rfl

theorem stacked_finish (emit : Item → Run Unit) : s.stacked.finish emit = s.finish emit := by
  rw [StackScan.finish, finish]
  change (if s.fnCall then _ else liftM s.frame.stacked.flush >>= _) = _
  rw [Frame.stacked_flush hs.roomy]
  rfl

omit hs in
theorem stacked_withValue (v : Value) :
    s.stacked.withValue v = (s.withValue v).map stacked := by
  change (s.frame.stacked.pushValue v >>= _) = _
  rw [Frame.stacked_pushValue, withValue]
  cases s.frame.pushValue v <;> rfl

theorem stacked_step (emit : Item → Run Unit) (t : Token) :
    s.stacked.step emit t = Option.map stacked <$> s.step emit t := by
  have valued (x : Except Fault Value) :
      (do return some (← s.stacked.withValue (← x)) : Run (Option StackScan)) =
        Option.map stacked <$> (do return some (← s.withValue (← x))) := by
    cases x with
    | error e => rfl
    | ok v =>
      simp only [liftM_ok, pure_bind_run, stacked_withValue]
      cases s.withValue v <;> rfl
  -- All other tokens push on the frame or take from it, alike on stacks and on lists.
  have framed {x : Except Fault StackFrame} {y : Except Fault Frame} (hxy : x = y.map Frame.stacked)
      (f : StackFrame → StackScan) (g : Frame → Scan) (hfg : ∀ a, f a.stacked = (g a).stacked) :
      (do return some (f (← x)) : Run (Option StackScan)) =
        Option.map stacked <$> (do return some (g (← y))) := by
    rw [hxy]
    cases y with
    | error e => rfl
    | ok a =>
      change (pure (some (f a.stacked)) : Run _) = _
      rw [hfg]
      rfl
  cases t with
  | number text => exact valued (numberValue text)
  | integer text => exact valued (integerValue text)
  | string text => exact valued (.ok (.text text))
  | literal v => exact valued (.ok v)
  | word w =>
    rw [StackScan.step, step]
    split <;> rfl
  | unary op =>
    exact framed (Frame.stacked_pushPending s.frame _) (fun frame => { s.stacked with frame })
      (fun frame => { s with frame }) fun _ => rfl
  | comma =>
    change (if s.depth = 0 then some <$> s.stacked.separate emit "," else _) = _
    rw [step]
    split
    · rw [stacked_separate hs, Functor.map_map, Functor.map_map]
      rfl
    · rfl
  | operator op =>
    change (if s.depth = 0 ∧ op = .semicolon then some <$> s.stacked.separate emit ";"
      else if s.operandDone then _ else _) = _
    rw [step]
    split
    · rw [stacked_separate hs, Functor.map_map, Functor.map_map]
      rfl
    · split
      · exact framed (Frame.stacked_pushOperator hs.roomy op)
          (fun frame => { s.stacked with frame, operandDone := false })
          (fun frame => { s with frame, operandDone := false }) fun _ => rfl
      · rfl
  | openParen =>
    exact framed (Frame.stacked_pushPending s.frame _)
      (fun frame => { s.stacked with frame, depth := s.depth + 1 })
      (fun frame => { s with frame, depth := s.depth + 1 }) fun _ => rfl
  | closeParen =>
    change (if s.depth = 0 then _ else if s.operandDone then _ else _) = _
    rw [step]
    split
    · rfl
    · rename_i hopen
      split
      · rw [← hs.parens] at hopen
        exact framed (Frame.stacked_closeParen hs.roomy hopen)
          (fun frame => { s.stacked with frame, depth := s.depth - 1 })
          (fun frame => { s with frame, depth := s.depth - 1 }) fun _ => rfl
      · rfl
  | command | fileHandle => rfl
  | ident | qualifier => rfl

omit hs in
theorem counts_separate (hdepth : s.depth = 0) (mark : String) (m : Machine) :
    YieldsAt m (s.separate emit mark) fun s' _ => s'.Counts := by
  refine .bind fun items m₁ _ => .bind fun _ m₂ _ => .pure ⟨?_, Nat.zero_le _⟩
  exact hdepth.symm

theorem counts_beforeToken (t : Token) (m : Machine) :
    YieldsAt m (s.beforeToken emit t) fun s' _ => s'.Counts := by
  rw [beforeToken]
  split
  · split
    · exact .throw
    · exact counts_separate (by omega) ";" m
  · exact .pure hs

theorem counts_withValue {s' : Scan} {v : Value} (h : s.withValue v = .ok s') : s'.Counts := by
  obtain ⟨f, hf, h⟩ := LineBasic.bind_eq_ok.1 h
  cases h
  exact ⟨(Frame.eq_of_pushValue hf) ▸ hs.parens, Frame.roomy_of_pushValue hf⟩

theorem counts_step (t : Token) (m : Machine) :
    YieldsAt m (s.step emit t) fun next _ => ∀ s', next = some s' → s'.Counts := by
  have lifted {α : Type} {m : Machine} {x : Except Fault α} {g : α → Scan}
      (h : ∀ a, x = .ok a → (g a).Counts) :
      YieldsAt m (do return some (g (← x)) : Run (Option Scan)) fun next _ =>
        ∀ s', next = some s' → s'.Counts := by
    rintro next m' hnext s' rfl
    obtain ⟨a, ha, hnext⟩ := liftM_bind_eq_ok.1 hnext
    cases hnext
    exact h a ha
  have valued (v : Value) {m : Machine} := lifted (m := m) (x := s.withValue v) (g := id)
    fun _ => counts_withValue hs
  have separated (hdepth : s.depth = 0) (mark : String) :
      YieldsAt m (some <$> s.separate emit mark) fun next _ =>
        ∀ s', next = some s' → s'.Counts := by
    rw [← bind_pure_comp]
    refine .bind fun s₁ m₁ h₁ => .pure ?_
    intro s' h
    cases h
    exact counts_separate hdepth mark m _ m₁ h₁
  cases t with
  | number | integer => exact .bind fun v m₁ _ => valued v
  | string | literal => exact valued _
  | word w =>
    refine .pure fun s' h => ?_
    split at h <;> cases h
    exact ⟨hs.parens, hs.roomy⟩
  | unary op =>
    refine lifted fun f hf => ?_
    obtain rfl := Frame.eq_of_pushPending hf
    exact ⟨hs.parens, hs.roomy⟩
  | comma =>
    rw [step]
    split
    · exact separated ‹_› ","
    · exact .throw
  | operator op =>
    rw [step]
    split
    · rename_i h
      exact separated h.1 ";"
    · split
      · refine lifted fun f hf => ⟨?_, Frame.roomy_of_pushOperator hs.roomy hf⟩
        exact (Frame.pushOperator_counts hf).1.trans hs.parens
      · exact .throw
  | openParen =>
    refine lifted fun f hf => ?_
    obtain rfl := Frame.eq_of_pushPending hf
    exact ⟨(List.countP_cons_of_pos rfl).trans (congrArg (· + 1) hs.parens), hs.roomy⟩
  | closeParen =>
    rw [step]
    split
    · refine .pure fun s' h => ?_
      cases h
    · split
      · refine lifted fun f hf => ⟨?_, Frame.roomy_of_closeParen hs.roomy hf⟩
        have hcount := (Frame.closeParen_counts hf).1
        have hparens := hs.parens
        change f.parens = s.depth - 1
        omega
      · exact .throw
  | command | fileHandle => exact .throw
  | ident | qualifier =>
    refine .pure fun s' h => ?_
    cases h

end

end Scan

section

variable {call : Call} {emit : Item → Run Unit} {s : StackScan} {t : Token} {ts rest : List Token}
  {ref : Reference}

theorem stackScan_name (ht : t.startsName = true)
    (h : Reference.split expectedName (t :: ts) = .ok (ref, rest)) :
    stackScan call emit s (t :: ts) = (do
      let s ← s.beforeToken emit t
      let home ← qualifiedModule t
      let v ← operandWith call (stackScan call ignore {}) s.fnCall home ref
      let s ← s.withValue v
      stackScan call emit { s with fnCall := false } rest) := by
  rw [stackScan]
  refine bind_congr fun s => ?_
  rw [if_pos ht]
  refine bind_congr fun home => ?_
  split <;> rename_i heq <;> cases h.symm.trans heq
  dsimp only
  split <;> rename_i ha
  · simp only [operandWith, ha]
  · rw [operandWith_bind call _ _ home ha]
    rfl

theorem stackScan_unnamed {f : Fault} (ht : t.startsName = true)
    (h : Reference.split expectedName (t :: ts) = .error f) :
    stackScan call emit s (t :: ts) = (do
      let _ ← s.beforeToken emit t
      let _ ← qualifiedModule t
      throw f) := by
  rw [stackScan]
  refine bind_congr fun s => ?_
  rw [if_pos ht]
  refine bind_congr fun home => ?_
  split <;> rename_i heq <;> cases h.symm.trans heq
  rfl

theorem stackScan_other (ht : t.startsName = false) :
    stackScan call emit s (t :: ts) = (do
      let s ← s.beforeToken emit t
      match ← s.step emit t with
      | some s => stackScan call emit s ts
      | none => do return (← s.finish emit, t :: ts)) := by
  rw [stackScan]
  refine bind_congr fun s => ?_
  rw [if_neg (by rw [ht]; decide)]

end

/-- What is evaluated of the arguments of a reference is all that the operand depends on. -/
theorem operandWith_congr_arguments (call : Call)
    {arguments arguments' : List Token → Run (List Item × List Token)}
    {ref : Reference} (h : ∀ inner, ref.args = some inner → arguments inner = arguments' inner)
    (fnCall : Bool) (home : ModuleId) :
    operandWith call arguments fnCall home ref = operandWith call arguments' fnCall home ref := by
  simp only [operandWith]
  split
  · rfl
  · rw [h _ ‹_›]

/-- A pass on stacks does what a pass on lists does. -/
theorem stackScan_eq_scan (call : Call) (emit : Item → Run Unit) (tokens : List Token) {s : Scan}
    (hs : s.Counts) : stackScan call emit s.stacked tokens = scan call emit s tokens := by
  induction tokens using pass_induction generalizing s emit with
  | nil => rw [stackScan, scan, s.stacked_finish hs]
  | other t ts ht ih =>
    rw [stackScan_other ht, scan_other ht, Scan.stacked_beforeToken hs, bind_map_left]
    funext m
    refine AgreeAt.bind (.refl m _) fun s₁ m₁ hbefore => ?_
    have hs₁ := Scan.counts_beforeToken hs t m s₁ m₁ hbefore
    rw [Scan.stacked_step hs₁, bind_map_left]
    refine AgreeAt.bind (.refl m₁ _) fun next m₂ hstep => ?_
    cases next with
    | none => rw [Option.map_none, Scan.stacked_finish hs₁]; rfl
    | some s₂ =>
      exact congrFun (ih emit (Scan.counts_step hs₁ t m₁ _ m₂ hstep s₂ rfl)) m₂
  | unnamed t ts f ht hsplit =>
    rw [stackScan_unnamed ht hsplit, scan_unnamed ht hsplit, Scan.stacked_beforeToken hs,
      bind_map_left]
  | name t ts ref rest ht hsplit hinner hrest =>
    rw [stackScan_name ht hsplit, scan_name ht hsplit, Scan.stacked_beforeToken hs, bind_map_left]
    have harguments (inner : List Token) (ha : ref.args = some inner) :
        stackScan call ignore {} inner = scan call ignore {} inner :=
      hinner inner ha ignore Scan.counts_start
    funext m
    refine AgreeAt.bind (.refl m _) fun s₁ m₁ hbefore => ?_
    have hs₁ := Scan.counts_beforeToken hs t m s₁ m₁ hbefore
    refine AgreeAt.bind (.refl m₁ _) fun home m₂ _ => ?_
    rw [operandWith_congr_arguments call harguments]
    refine AgreeAt.bind (.refl m₂ _) fun v m₃ _ => ?_
    rw [Scan.stacked_withValue]
    cases hv : s₁.withValue v with
    | error e => rfl
    | ok s₂ =>
      have hs₂ := Scan.counts_withValue hs₁ hv
      exact congrFun (hrest emit (s := { s₂ with fnCall := false }) ⟨hs₂.parens, hs₂.roomy⟩) m₃

/-! ### Whole evaluations -/

def stackEvaluateWith (call : Call) (emit : Item → Run Unit) (tokens : List Token) :
    Run (List Item × Nat) := do
  let (items, rest) ← stackScan call emit {} tokens
  return (items, tokens.length - rest.length)

def stackEvaluateSingleWith (call : Call) (tokens : List Token) : Run Value := do
  let (items, taken) ← stackEvaluateWith call ignore tokens
  if taken ≠ tokens.length then Run.syntaxError
  Item.single items

def stackCall (n : Nat) : Call := fun home key args => do
  match ((← get).moduleAt home).functions.get? key with
  | none => Run.fail .undefinedVariable "FUNCTION NOT DEFINED"
  | some f =>
    if f.params.length ≠ args.length then throw (.plain .argumentCount)
    match n with
    | 0 => Run.fail .formulaTooComplex "FN NESTED TOO DEEP"
    | k + 1 =>
      let body ← substitute (f.params.zip args) false f.body
      stackEvaluateSingleWith (stackCall k) body

def stackEvaluate (tokens : List Token) : Run (List Item × Nat) :=
  stackEvaluateWith (stackCall maxCallDepth) ignore tokens

def stackEvaluateSingle (tokens : List Token) : Run Value :=
  stackEvaluateSingleWith (stackCall maxCallDepth) tokens

theorem stackEvaluateWith_eq (call : Call) (emit : Item → Run Unit) :
    stackEvaluateWith call emit = evaluateWith call emit := by
  funext tokens
  rw [stackEvaluateWith, evaluateWith]
  change (stackScan call emit (Scan.stacked {}) tokens >>= _) = _
  rw [stackScan_eq_scan call emit tokens Scan.counts_start]

theorem stackEvaluateSingleWith_eq (call : Call) :
    stackEvaluateSingleWith call = evaluateSingleWith call := by
  funext tokens
  rw [stackEvaluateSingleWith, evaluateSingleWith, stackEvaluateWith_eq]

theorem stackCall_eq (n : Nat) : stackCall n = callDefined n := by
  induction n with
  | zero =>
    funext home key args
    unfold stackCall callDefined
    refine bind_congr fun m => ?_
    cases (m.moduleAt home).functions.get? key <;> rfl
  | succ n ih =>
    funext home key args
    unfold stackCall callDefined
    refine bind_congr fun m => ?_
    cases (m.moduleAt home).functions.get? key with
    | none => rfl
    | some f =>
      dsimp only
      split
      · rfl
      · refine bind_congr fun body => ?_
        rw [ih, stackEvaluateSingleWith_eq]

theorem stackEvaluate_eq : stackEvaluate = evaluate := by
  funext tokens
  rw [stackEvaluate, stackEvaluateWith_eq, stackCall_eq]
  rfl

theorem stackEvaluateSingle_eq : stackEvaluateSingle = evaluateSingle := by
  funext tokens
  rw [stackEvaluateSingle, stackEvaluateSingleWith_eq, stackCall_eq]
  rfl

/-! ### Faults -/

def Commandless (m m' : Machine) : Prop :=
  m' = { m with registry := { m.registry with commands := Table.empty } }

theorem unseen_commandless : Unseen Commandless where
  scopes h := by cases h; rfl
  registry h := by cases h; rfl
  memory h := by cases h; rfl
  column h := by cases h; rfl
  dice h := by cases h; rfl
  random h := by cases h; rfl
  named h _ := by cases h; rfl
  vars h _ := by cases h; rfl
  functions h _ := by cases h; rfl
  setVars h _ _ := by cases h; rfl
  setDice h _ := by cases h; rfl

def Registry.OnlyBuiltinFunctions (r : Registry) : Prop :=
  ∀ name f, r.functions.get? name = some f → ∃ b, f = .builtin b

/-- Commands take no part in an evaluation, so without added functions its faults are ordinary. -/
theorem ordinary_of_blind {α : Type} {x : Run α} (hblind : Blind Commandless x)
    (hobeys : Obeys .evaluation x) {m m' : Machine} {f : Fault}
    (hm : m.registry.OnlyBuiltinFunctions) (h : x m = .error f m') : f.Ordinary := by
  have halike := hblind m _ rfl
  rw [AlikeAt, h] at halike
  generalize hr : x { m with registry := { m.registry with commands := Table.empty } } = r at halike
  cases halike with
  | error _ _ =>
    refine ((hobeys _).raises f _ hr).isOrdinary ⟨fun hadded => ?_, fun {name run} hadded => ?_⟩
    · cases hadded
    · obtain ⟨b, hb⟩ := hm name _ hadded
      cases hb

theorem ok_or_error_of_ordinary {α : Type} {x : Run α} (hblind : Blind Commandless x)
    (hobeys : Obeys .evaluation x) {m : Machine} (hm : m.registry.OnlyBuiltinFunctions) :
    (∃ a m', x m = .ok a m') ∨ ∃ f m', x m = .error f m' ∧ f.kind ≠ .internal := by
  cases h : x m with
  | ok a m' => exact .inl ⟨a, m', rfl⟩
  | error f m' => exact .inr ⟨f, m', rfl, (ordinary_of_blind hblind hobeys hm h).2⟩

theorem Variables.exists_fetchElement {vars : Variables} {name : String} {index : List Nat}
    {offset : Nat} (h : vars.arrayOffset name index = .ok offset) :
    ∃ v, vars.fetchElement name offset = .ok v := by
  obtain ⟨a, ha, hlt⟩ := hasElement_of_arrayOffset h
  refine ⟨a.elements[offset], ?_⟩
  rw [fetchElement, array, ha, ok_bind, DimArray.get, Array.getElem?_eq_getElem hlt]

/-- Whatever its tokens are, an evaluation with built-in functions gives a value or a fault, and
never finds that the machine itself has failed. It does what it would do on stacks, where taking
from an empty stack and closing a parenthesis that is not there are such failures, and every element
that it reads is one of its array. -/
theorem evaluation_never_fails_internally {m : Machine} (hm : m.registry.OnlyBuiltinFunctions)
    (tokens : List Token) :
    (stackEvaluate tokens m = evaluate tokens m ∧
      stackEvaluateSingle tokens m = evaluateSingle tokens m) ∧
      ((∃ result m', evaluate tokens m = .ok result m') ∨
        ∃ f m', evaluate tokens m = .error f m' ∧ f.kind ≠ .internal) ∧
      ((∃ v m', evaluateSingle tokens m = .ok v m') ∨
        ∃ f m', evaluateSingle tokens m = .error f m' ∧ f.kind ≠ .internal) ∧
      ∀ (vars : Variables) (name : String) (index : List Nat) (offset : Nat),
        vars.arrayOffset name index = .ok offset → ∃ v, vars.fetchElement name offset = .ok v := by
  refine ⟨⟨by rw [stackEvaluate_eq], by rw [stackEvaluateSingle_eq]⟩, ?_, ?_,
    fun vars name index offset h => Variables.exists_fetchElement h⟩
  · exact ok_or_error_of_ordinary (unseen_commandless.blind_evaluate tokens)
      (obeys_evaluate tokens) hm
  · exact ok_or_error_of_ordinary (unseen_commandless.blind_evaluateSingle tokens)
      (obeys_evaluateSingle tokens) hm

/-- A machine with an array of three numbers. -/
def arrayHolder : Machine :=
  { modules := [{ name := "", vars := (Variables.dimension {} "A%" [2]).toOption.getD {} }] }

/-- `*((A%(2)+1))` and one parenthesis more, with `*` as a prefix. -/
def overclosed : List Token :=
  [.unary .times, .openParen, .openParen, .ident "A%", .openParen, .integer "2", .closeParen,
    .operator .plus, .integer "1", .closeParen, .closeParen, .closeParen]

theorem Registry.onlyBuiltinFunctions_default : OnlyBuiltinFunctions {} := by
  intro name f h
  obtain ⟨e, -, he⟩ := List.mem_map.1 (Table.mem_of_get?_ofList h)
  cases he
  exact ⟨_, rfl⟩

theorem evaluation_never_fails_internally_at_spare_parenthesis :
    (∃ m', stackEvaluate overclosed arrayHolder = .ok ([.value (.integer (-2))], 11) m') ∧
      ∃ f m', stackEvaluateSingle overclosed arrayHolder = .error f m' ∧ f.kind ≠ .internal := by
  have hm : arrayHolder.registry.OnlyBuiltinFunctions := Registry.onlyBuiltinFunctions_default
  have hends : ((evaluate overclosed).answer arrayHolder).toOption =
        some ([.value (.integer (-2))], 11) ∧
      ((evaluateSingle overclosed).answer arrayHolder).toOption = none := by
    decide +kernel
  obtain ⟨⟨hstack, hsingle⟩, -, hends', -⟩ := evaluation_never_fails_internally hm overclosed
  rw [hstack, hsingle]
  refine ⟨⟨_, eq_ok_of_answer (eq_ok_of_toOption hends.1)⟩, ?_⟩
  rcases hends' with ⟨v, m', hv⟩ | hfault
  · have hnone := hends.2
    rw [answer, hv] at hnone
    cases hnone
  · exact hfault

end LineBasic
