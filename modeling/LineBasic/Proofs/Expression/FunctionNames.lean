import LineBasic.Proofs.Change
import LineBasic.Proofs.Expression.Pass
import LineBasic.Proofs.Expression.Reference
import LineBasic.Statement.Assign

/-!
# The names behind `FN`

`FN` makes the next name that of a defined function. It waits for that name across operators,
separators and parentheses, but not beyond the end of its pass.
-/

set_option autoImplicit false

namespace LineBasic

open Run

/-- Whether behind every `FN` of a token list, and of the argument lists in it, stands a name; `fn`
says whether an `FN` waits already. -/
def fnNamed (fn : Bool) (tokens : List Token) : Bool :=
  match tokens with
  | [] => !fn
  | t :: ts =>
    if t.startsName then
      match h : Reference.split expectedName (t :: ts) with
      | .error _ => false
      | .ok (ref, rest) =>
        have : rest.length < (t :: ts).length := (Reference.length_split h).1
        (match ha : ref.args with
          | none => true
          | some inner =>
            have : inner.length < (t :: ts).length := (Reference.length_split h).2 inner ha
            fnNamed false inner) && fnNamed false rest
    else fnNamed (fn || t == .word .FN) ts
termination_by tokens.length
decreasing_by all_goals (simp only [List.length_cons] at *; omega)

/-- The keys under which the names of a token list are called: that of a defined function if an `FN`
stands between the name and the one before it. -/
def calledKeys (fn : Bool) (tokens : List Token) : List String :=
  match tokens with
  | [] => []
  | t :: ts =>
    if t.startsName then
      match h : Reference.split expectedName (t :: ts) with
      | .error _ => []
      | .ok (ref, rest) =>
        have : rest.length < (t :: ts).length := (Reference.length_split h).1
        functionKey fn ref.name ::
          (match ha : ref.args with
            | none => []
            | some inner =>
              have : inner.length < (t :: ts).length := (Reference.length_split h).2 inner ha
              calledKeys false inner) ++ calledKeys false rest
    else calledKeys (fn || t == .word .FN) ts
termination_by tokens.length
decreasing_by all_goals (simp only [List.length_cons] at *; omega)

section

variable {fn : Bool} {t : Token} {ts rest : List Token} {ref : Reference}

theorem fnNamed_name (ht : t.startsName = true)
    (h : Reference.split expectedName (t :: ts) = .ok (ref, rest)) :
    fnNamed fn (t :: ts) = (ref.args.all (fnNamed false) && fnNamed false rest) := by
  rw [fnNamed, if_pos ht]
  split <;> rename_i heq <;> cases h.symm.trans heq
  split <;> rename_i ha <;> simp [ha]

theorem fnNamed_other (ht : t.startsName = false) :
    fnNamed fn (t :: ts) = fnNamed (fn || t == .word .FN) ts := by
  rw [fnNamed, ht, if_neg (by simp)]

theorem calledKeys_name (ht : t.startsName = true)
    (h : Reference.split expectedName (t :: ts) = .ok (ref, rest)) :
    calledKeys fn (t :: ts) = functionKey fn ref.name ::
      (ref.args.elim [] (calledKeys false) ++ calledKeys false rest) := by
  rw [calledKeys, if_pos ht]
  split <;> rename_i heq <;> cases h.symm.trans heq
  split <;> rename_i ha <;> simp [ha]

theorem calledKeys_other (ht : t.startsName = false) :
    calledKeys fn (t :: ts) = calledKeys (fn || t == .word .FN) ts := by
  rw [calledKeys, ht, if_neg (by simp)]

end

theorem Run.map_of_ok {α β : Type} {x : Run α} {f : α → β} {m m' : Machine} {a : α}
    (h : x m = .ok a m') : (f <$> x) m = .ok (f a) m' := by
  rw [← bind_pure_comp, bind_apply, h]
  rfl

def Scan.withFn (fn : Bool) (s : Scan) : Scan := { s with fnCall := fn }

namespace Scan

variable (emit : Item → Run Unit) (s : Scan) (fn : Bool)

theorem separate_withFn (mark : String) :
    (s.withFn fn).separate emit mark = withFn fn <$> s.separate emit mark := by
  simp only [separate, withFn, map_bind, map_pure]

theorem beforeToken_withFn (t : Token) :
    (s.withFn fn).beforeToken emit t = withFn fn <$> s.beforeToken emit t := by
  change (if t.startsOperand && s.operandDone then
    if 0 < s.depth then throw missingOperator else (s.withFn fn).separate emit ";"
    else pure (s.withFn fn)) = _
  rw [beforeToken]
  split
  · split
    · rfl
    · exact s.separate_withFn emit fn ";"
  · rfl

theorem withValue_withFn (v : Value) :
    (s.withFn fn).withValue v = withFn fn <$> s.withValue v := by
  simp only [withValue, withFn, map_bind, map_pure]

/-- Whether an `FN` waits plays no part in what a token that is no name does. -/
theorem step_withFn {t : Token} (ht : t ≠ .word .FN) :
    (s.withFn fn).step emit t = Option.map (withFn fn) <$> s.step emit t := by
  have valued (x : Except Fault Value) :
      (do return some (← (s.withFn fn).withValue (← x)) : Run (Option Scan)) =
        Option.map (withFn fn) <$> (do return some (← s.withValue (← x))) := by
    cases x with
    | error f => rfl
    | ok v =>
      simp only [liftM_ok, pure_bind_run, withValue_withFn]
      cases s.withValue v <;> rfl
  have framed (x : Except Fault Frame) (f : Frame → Scan) :
      (do return some ((f (← x)).withFn fn) : Run (Option Scan)) =
        Option.map (withFn fn) <$> (do return some (f (← x))) := by
    cases x <;> rfl
  cases t with
  | word w =>
    have hw : w ≠ .FN := by
      rintro rfl
      exact ht rfl
    simp only [step, if_neg hw, map_pure, Option.map_none]
  | number text => exact valued (numberValue text)
  | integer text => exact valued (integerValue text)
  | string text => exact valued (.ok (.text text))
  | literal v => exact valued (.ok v)
  | unary op => exact framed _ fun frame => { s with frame }
  | openParen => exact framed _ fun frame => { s with frame, depth := s.depth + 1 }
  | comma =>
    rw [step, step, separate_withFn]
    change (if s.depth = 0 then _ else _) = _
    split
    · simp only [Functor.map_map, Option.map_some]
    · rfl
  | operator op =>
    rw [step, step, separate_withFn]
    change (if s.depth = 0 ∧ op = .semicolon then _ else if s.operandDone then _ else _) = _
    split
    · simp only [Functor.map_map, Option.map_some]
    · split
      · exact framed _ fun frame => { s with frame, operandDone := false }
      · rfl
  | closeParen =>
    rw [step, step]
    change (if s.depth = 0 then _ else if s.operandDone then _ else _) = _
    split
    · rfl
    · split
      · exact framed _ fun frame => { s with frame, depth := s.depth - 1 }
      · rfl
  | command | fileHandle | ident | qualifier => rfl

variable {emit s} {s' : Scan} {t : Token} {m m' : Machine}

theorem fnCall_separate {mark : String} (h : s.separate emit mark m = .ok s' m') :
    s'.fnCall = s.fnCall := by
  obtain ⟨items, m₁, -, h⟩ := Run.bind_eq_ok.1 h
  obtain ⟨-, m₂, -, h⟩ := Run.bind_eq_ok.1 h
  cases h
  rfl

theorem fnCall_beforeToken (h : s.beforeToken emit t m = .ok s' m') : s'.fnCall = s.fnCall := by
  rw [beforeToken] at h
  split at h
  · split at h
    · cases h
    · exact fnCall_separate h
  · cases h
    rfl

theorem fnCall_finish {items : List Item} (h : s.finish emit m = .ok items m') :
    s.fnCall = false := by
  cases hfn : s.fnCall with
  | false => rfl
  | true =>
    rw [finish, hfn] at h
    cases h

/-- Of the tokens that are no names, only `FN` makes the next name that of a function. -/
theorem fnCall_step (h : s.step emit t m = .ok (some s') m') :
    s'.fnCall = (s.fnCall || t == .word .FN) := by
  by_cases ht : t = .word .FN
  · subst ht
    cases h
    simp
  · have heq := congrFun (s.step_withFn emit s.fnCall ht) m
    change s.step emit t m = _ at heq
    rw [map_of_ok h, h] at heq
    simp only [Option.map_some, EStateM.Result.ok.injEq, Option.some.injEq, and_true] at heq
    rw [heq]
    simp [withFn, ht]

end Scan

/-- Arguments that there are have been evaluated to their end. -/
theorem of_operandWith {call : Call} {arguments : List Token → Run (List Item × List Token)}
    {fn : Bool} {home : ModuleId} {ref : Reference} {inner : List Token} {v : Value}
    {m m' : Machine} (h : operandWith call arguments fn home ref m = .ok v m')
    (hargs : ref.args = some inner) (hne : inner ≠ []) :
    ∃ items m₁, arguments inner m = .ok (items, []) m₁ := by
  have hempty : inner.isEmpty = false := List.isEmpty_eq_false_iff.2 hne
  rw [← bind_pure (operandWith call arguments fn home ref), operandWith_bind _ _ _ _ hargs, hempty,
    if_neg (by simp)] at h
  obtain ⟨⟨items, after⟩, m₁, harguments, h⟩ := Run.bind_eq_ok.1 h
  cases after with
  | nil => exact ⟨items, m₁, harguments⟩
  | cons t ts => cases h

/-- The names of what has been read are those of the whole list. -/
theorem fnNamed_front {t : Token} {ts read rest : List Token} {ref : Reference}
    (ht : t.startsName = true)
    (hsplit : Reference.split expectedName (t :: ts) = .ok (ref, read ++ rest))
    (hargs : ref.args.all (fnNamed false) = true) (hread : fnNamed false read = true) :
    ∃ front, ts = front ++ (read ++ rest) ∧ ∀ fn, fnNamed fn (t :: (front ++ read)) = true := by
  obtain ⟨front, hfront, hsame⟩ := Reference.of_split hsplit
  refine ⟨front, hfront, fun fn => ?_⟩
  have hhead : read = [] ∨ read.head? = (read ++ rest).head? := by
    cases read with
    | nil => exact .inl rfl
    | cons u us => exact .inr rfl
  rw [fnNamed_name ht (hsame read hhead), hargs, hread]
  rfl

/-- A pass that gives an answer has found a name behind every `FN` that it has read. -/
theorem fnNamed_of_scan {call : Call} {emit : Item → Run Unit} {s : Scan}
    {tokens rest : List Token} {items : List Item} {m m' : Machine}
    (h : scan call emit s tokens m = .ok (items, rest) m') :
    ∃ read, tokens = read ++ rest ∧ fnNamed s.fnCall read = true := by
  induction tokens using pass_induction generalizing emit s rest items m m' with
  | nil =>
    rw [scan] at h
    obtain ⟨items', m₁, hfinish, h⟩ := Run.bind_eq_ok.1 h
    cases h
    refine ⟨[], rfl, ?_⟩
    rw [Scan.fnCall_finish hfinish, fnNamed]
    rfl
  | other t ts ht ih =>
    rw [scan_other ht] at h
    obtain ⟨s₁, m₁, hbefore, h⟩ := Run.bind_eq_ok.1 h
    obtain ⟨next, m₂, hstep, h⟩ := Run.bind_eq_ok.1 h
    cases next with
    | none =>
      obtain ⟨items', m₃, hfinish, h⟩ := Run.bind_eq_ok.1 h
      cases h
      refine ⟨[], rfl, ?_⟩
      rw [← Scan.fnCall_beforeToken hbefore, Scan.fnCall_finish hfinish, fnNamed]
      rfl
    | some s₂ =>
      obtain ⟨read, rfl, hnamed⟩ := ih h
      refine ⟨t :: read, rfl, ?_⟩
      rwa [fnNamed_other ht, ← Scan.fnCall_beforeToken hbefore, ← Scan.fnCall_step hstep]
  | unnamed t ts f ht hsplit =>
    rw [scan_unnamed ht hsplit] at h
    obtain ⟨s₁, m₁, -, h⟩ := Run.bind_eq_ok.1 h
    obtain ⟨home, m₂, -, h⟩ := Run.bind_eq_ok.1 h
    cases h
  | name t ts ref behind ht hsplit ihargs ih =>
    rw [scan_name ht hsplit] at h
    obtain ⟨s₁, m₁, -, h⟩ := Run.bind_eq_ok.1 h
    obtain ⟨home, m₂, -, h⟩ := Run.bind_eq_ok.1 h
    obtain ⟨v, m₃, hoperand, h⟩ := Run.bind_eq_ok.1 h
    obtain ⟨s₂, -, h⟩ := liftM_bind_eq_ok.1 h
    obtain ⟨read, rfl, hnamed⟩ := ih h
    have hargs : ref.args.all (fnNamed false) = true := by
      cases ha : ref.args with
      | none => rfl
      | some inner =>
        by_cases hne : inner = []
        · rw [hne, Option.all_some, fnNamed]
          rfl
        · obtain ⟨items', m₄, hscan⟩ := of_operandWith hoperand ha hne
          obtain ⟨read', hread', hnamed'⟩ := ihargs inner ha hscan
          rw [List.append_nil] at hread'
          rw [hread', Option.all_some]
          exact hnamed'
    obtain ⟨front, rfl, hfront⟩ := fnNamed_front ht hsplit hargs hnamed
    exact ⟨t :: (front ++ read), by simp, hfront s.fnCall⟩

section

variable {call call' : Call} {fn : Bool} {home : ModuleId}

theorem plainOperand_congr {name : String}
    (h : ∀ args, call home (functionKey fn name) args = call' home (functionKey fn name) args) :
    plainOperand call fn home name = plainOperand call' fn home name := by
  simp only [plainOperand, h]

theorem appliedOperand_congr {name : String}
    (h : ∀ args, call home (functionKey fn name) args = call' home (functionKey fn name) args)
    (args : List Value) :
    appliedOperand call fn home name args = appliedOperand call' fn home name args := by
  simp only [appliedOperand, h]

theorem operandWith_congr {arguments arguments' : List Token → Run (List Item × List Token)}
    {ref : Reference}
    (h : ∀ args, call home (functionKey fn ref.name) args = call' home (functionKey fn ref.name) args)
    (hargs : ∀ inner, ref.args = some inner → ∀ m, AgreeAt m (arguments inner) (arguments' inner))
    (m : Machine) :
    AgreeAt m (operandWith call arguments fn home ref) (operandWith call' arguments' fn home ref) := by
  cases ha : ref.args with
  | none =>
    rw [operandWith, operandWith, ha]
    exact congrFun (plainOperand_congr h) m
  | some inner =>
    have heq : arguments inner = arguments' inner := funext fun m => hargs inner ha m
    rw [AgreeAt, operandWith, operandWith, ha]
    simp only [heq, appliedOperand_congr h]

end

/-- A pass calls functions only under the keys of the names in its tokens. -/
theorem scan_congr_of_calledKeys {call call' : Call} {emit : Item → Run Unit} {s : Scan}
    {tokens : List Token}
    (h : ∀ key ∈ calledKeys s.fnCall tokens, ∀ home args, call home key args = call' home key args)
    (m : Machine) : AgreeAt m (scan call emit s tokens) (scan call' emit s tokens) := by
  induction tokens using pass_induction generalizing emit s m with
  | nil =>
    rw [scan, scan]
    exact .refl _ _
  | other t ts ht ih =>
    rw [calledKeys_other ht] at h
    rw [scan_other ht, scan_other ht]
    refine .bind (.refl _ _) fun s₁ m₁ hbefore => .bind (.refl _ _) fun next m₂ hstep => ?_
    cases next with
    | none => exact .refl _ _
    | some s₂ =>
      refine ih (fun key hkey => h key ?_) m₂
      rwa [← Scan.fnCall_beforeToken hbefore, ← Scan.fnCall_step hstep]
  | unnamed t ts f ht hsplit =>
    rw [scan_unnamed ht hsplit, scan_unnamed ht hsplit]
    exact .refl _ _
  | name t ts ref behind ht hsplit ihargs ih =>
    rw [calledKeys_name ht hsplit] at h
    rw [scan_name ht hsplit, scan_name ht hsplit]
    refine .bind (.refl _ _) fun s₁ m₁ hbefore => .bind (.refl _ _) fun home m₂ _ => ?_
    rw [← Scan.fnCall_beforeToken hbefore] at h
    refine .bind ?_ fun v m₃ _ => .bind (.refl _ _) fun s₂ m₄ _ => ?_
    · refine operandWith_congr (h _ List.mem_cons_self home) (fun inner ha m => ?_) m₂
      refine ihargs inner ha (fun key hkey => h key ?_) m
      simp [ha, hkey]
    · refine ih (fun key hkey => h key ?_) m₄
      simp [hkey]

theorem Scan.operandDone_beforeToken {emit : Item → Run Unit} {s s' : Scan} {t : Token}
    {m m' : Machine} (ht : t.startsOperand = true) (h : s.beforeToken emit t m = .ok s' m') :
    s'.operandDone = false := by
  rw [beforeToken, ht, Bool.true_and] at h
  split at h
  · split at h
    · cases h
    · obtain ⟨items, m₁, -, h⟩ := Run.bind_eq_ok.1 h
      obtain ⟨-, m₂, -, h⟩ := Run.bind_eq_ok.1 h
      cases h
      rfl
  · rename_i hdone
    cases h
    exact Bool.not_eq_true _ ▸ hdone

theorem Token.startsOperand_of_startsName {t : Token} (ht : t.startsName = true) :
    t.startsOperand = true := by
  cases t with
  | ident | qualifier => rfl
  | _ => cases ht

/-- A name that starts a new value does so before anything else. -/
theorem scan_of_beforeToken {call : Call} {emit : Item → Run Unit} {s : Scan} {t : Token}
    {ts : List Token} (ht : t.startsName = true) (m : Machine) :
    scan call emit s (t :: ts) m =
      (s.beforeToken emit t >>= fun s₁ => scan call emit s₁ (t :: ts)) m := by
  have hpure {s₁ : Scan} {m m₁ : Machine} (h : s.beforeToken emit t m = .ok s₁ m₁) :
      s₁.beforeToken emit t = pure s₁ :=
    s₁.beforeToken_of_not_done emit
      (Scan.operandDone_beforeToken (Token.startsOperand_of_startsName ht) h) t
  cases hsplit : Reference.split expectedName (t :: ts) with
  | error f =>
    simp only [scan_unnamed ht hsplit]
    refine AgreeAt.bind (.refl _ _) fun s₁ m₁ hbefore => ?_
    rw [hpure hbefore]
    exact .refl _ _
  | ok parts =>
    obtain ⟨ref, rest⟩ := parts
    simp only [scan_name ht hsplit]
    refine AgreeAt.bind (.refl _ _) fun s₁ m₁ hbefore => ?_
    rw [hpure hbefore]
    exact .refl _ _

/-- An `FN` that waits for a name may as well stand right before it. -/
theorem scan_of_moved_fn {call : Call} {emit : Item → Run Unit} {between us : List Token}
    {u : Token} (hu : u.startsName = true)
    (hbetween : ∀ t ∈ between, t.startsName = false ∧ t ≠ .word .FN) {s : Scan} {m m' : Machine}
    {result : List Item × List Token}
    (h : scan call emit (s.withFn true) (between ++ u :: us) m = .ok result m') :
    scan call emit s (between ++ .word .FN :: u :: us) m = .ok result m' := by
  induction between generalizing s m with
  | nil =>
    rw [List.nil_append, scan_of_beforeToken hu, Scan.beforeToken_withFn, bind_map_left] at h
    rw [List.nil_append, scan_other rfl]
    have hsame : s.beforeToken emit (.word .FN) = s.beforeToken emit u := by
      rw [Scan.beforeToken, Scan.beforeToken, Token.startsOperand_of_startsName hu]
      rfl
    rw [hsame]
    exact h
  | cons t ts ih =>
    obtain ⟨ht, hfn⟩ := hbetween t List.mem_cons_self
    rw [List.cons_append, scan_other ht] at h ⊢
    rw [Scan.beforeToken_withFn, bind_map_left] at h
    obtain ⟨s₁, m₁, hbefore, h⟩ := Run.bind_eq_ok.1 h
    rw [Scan.step_withFn _ _ _ hfn, bind_map_left] at h
    obtain ⟨next, m₂, hstep, h⟩ := Run.bind_eq_ok.1 h
    refine Run.bind_eq_ok.2 ⟨s₁, m₁, hbefore, Run.bind_eq_ok.2 ⟨next, m₂, hstep, ?_⟩⟩
    cases next with
    | none => cases h
    | some s₂ => exact ih (fun v hv => hbetween v (List.mem_cons_of_mem t hv)) h

/-- `FN` applies to the next name, wherever that stands. An evaluation succeeds only if behind every
`FN` that it reads, in the argument lists too, comes a name before the list ends. A name is called as
a function defined with `FN` only if an `FN` stands between it and the name before it: functions
under all other keys could be any. And wherever an operand can begin, an `FN` that leads to an answer
leads to the same if it stands right before the name. -/
theorem fn_waits_for_next_name (tokens : List Token) :
    (∀ m items taken m', evaluate tokens m = .ok (items, taken) m' →
      fnNamed false (tokens.take taken) = true) ∧
    (∀ call : Call, (∀ key ∈ calledKeys false tokens, ∀ home args,
        call home key args = callDefined maxCallDepth home key args) →
      evaluateWith call ignore tokens = evaluate tokens) ∧
    ∀ call emit (s : Scan) between u us m result m', s.operandDone = false →
      (∀ t ∈ between, Token.startsName t = false ∧ t ≠ .word .FN) → Token.startsName u = true →
      scan call emit s (.word .FN :: (between ++ u :: us)) m = .ok result m' →
      scan call emit s (between ++ .word .FN :: u :: us) m = .ok result m' := by
  refine ⟨fun m items taken m' h => ?_, fun call h => funext fun m => ?_,
    fun call emit s between u us m result m' hs hbetween hu h => ?_⟩
  · obtain ⟨⟨items', rest⟩, m₁, hscan, h⟩ := Run.bind_eq_ok.1 h
    cases h
    obtain ⟨read, rfl, hnamed⟩ := fnNamed_of_scan hscan
    simpa using hnamed
  · exact AgreeAt.bind (scan_congr_of_calledKeys h m) fun _ m₁ _ => .refl m₁ _
  · rw [scan_other rfl, s.beforeToken_of_not_done emit hs] at h
    exact scan_of_moved_fn hu hbetween h

/-- `DEF FN A(X)=X*2` -/
def doubling : Machine :=
  (Statement.define [.word .FN, .ident "A", .openParen, .ident "X", .closeParen, .operator .equal,
    .ident "X", .operator .times, .integer "2"]).final {}

/-- `FN(A(3))` -/
def distantCall : List Token :=
  [.word .FN, .openParen, .ident "A", .openParen, .integer "3", .closeParen, .closeParen]

def only (name : String) : Call := fun home key args =>
  if key = name then callDefined maxCallDepth home key args else throw bareSyntax

set_option maxRecDepth 100000 in
theorem fn_waits_for_next_name_in_parentheses :
    (∃ items m', evaluate distantCall doubling = .ok (items, 7) m') ∧
      fnNamed false (distantCall.take 7) = true ∧
      evaluateWith (only "FNA") ignore distantCall = evaluate distantCall := by
  have hvalue : ((evaluate distantCall).answer doubling).toOption.map (·.2) = some 7 := by
    decide +kernel
  obtain ⟨items, m', h⟩ : ∃ items m', evaluate distantCall doubling = .ok (items, 7) m' := by
    rw [answer] at hvalue
    cases h : evaluate distantCall doubling with
    | ok result m' =>
      obtain ⟨items, taken⟩ := result
      rw [h] at hvalue
      cases hvalue
      exact ⟨items, m', rfl⟩
    | error f m' =>
      rw [h] at hvalue
      cases hvalue
  obtain ⟨hnamed, hkeys, -⟩ := fn_waits_for_next_name distantCall
  refine ⟨⟨items, m', h⟩, hnamed doubling items 7 m' h, hkeys (only "FNA") fun key hkey => ?_⟩
  have hall : calledKeys false distantCall = ["FNA"] := by decide +kernel
  rw [hall, List.mem_singleton] at hkey
  exact fun home args => if_pos hkey

set_option maxRecDepth 100000 in
/-- What stands right behind the `FN` is no name, and yet there is an answer. -/
theorem fn_passes_open_parenthesis :
    ((evaluate distantCall).answer doubling).toOption = some ([.value (.real 6)], 7) := by
  decide +kernel

end LineBasic
