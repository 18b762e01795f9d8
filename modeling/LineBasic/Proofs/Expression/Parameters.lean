import LineBasic.Proofs.Evaluation
import LineBasic.Proofs.Expression.Pass
import LineBasic.Proofs.Expression.Reference
import LineBasic.Proofs.Number.LineNumber
import LineBasic.Proofs.Session.Reachable
import Mathlib.Data.List.Chain

/-!
# Parameters of defined functions

A call of a defined function puts its arguments in place of the parameters. That is the same as a
pass over the body in which every parameter has a value of its own: lexical scope, with calls by
value. An argument that was written out is read back as what it was. A name that is no parameter
means what it means anywhere, and a function that the body calls gets values only, so it sees
nothing of the parameters of its caller.
-/

set_option autoImplicit false

namespace LineBasic

open Run

namespace Number

theorem toList_toString_of_neg {n : Int} (h : n < 0) :
    (toString n).toList = '-' :: (toString (-n)).toList := by
  obtain ⟨k, rfl⟩ := Int.eq_negSucc_of_lt_zero h
  change ("-" ++ toString (k + 1)).toList = '-' :: (toString (k + 1)).toList
  rw [String.toList_append]
  rfl

/-- Digits behind a sign, or without one, are a decimal to their end. -/
theorem scanDecimal_of_signOf {cs ds : List Char} {negative : Bool} {size : Nat}
    (hsign : signOf cs = (negative, size)) (hdrop : cs.drop size = ds) (hne : ds ≠ [])
    (hds : ∀ c ∈ ds, c.isDigit = true) :
    scanDecimal cs = (int64OfInt? (if negative then -(decimalValue ds : Int) else decimalValue ds)).map
      fun v => (v, size + ds.length) := by
  have hrun : digitRun (ds ++ []) = ds := digitRun_append hds (by simp)
  rw [List.append_nil] at hrun
  have hend : cs.drop (size + ds.length) = [] := by
    rw [← List.drop_drop, hdrop, List.drop_length]
  simp [scanDecimal, scanRealNumeral, hsign, hdrop, hrun, hne, hend, scanFraction, scanExponent]

theorem int64OfInt?_toInt (n : Int64) : int64OfInt? n.toInt = some n := by
  rw [int64OfInt?, if_pos ⟨n.minValue_le_toInt, n.toInt_le⟩, Int64.ofInt_toInt]

theorem scanInteger_of_head {cs : List Char} (h : cs.head? ≠ some '$') :
    scanInteger cs = scanDecimal cs := by
  rw [scanInteger.eq_def]
  split
  · exact absurd rfl h
  · rfl

theorem scanInteger_toString (n : Int64) :
    scanInteger (toString n.toInt).toList = some (n, (toString n.toInt).toList.length) := by
  by_cases hn : 0 ≤ n.toInt
  · have hne := toString_ne_nil hn
    have hds : ∀ c ∈ (toString n.toInt).toList, c.isDigit = true :=
      fun c hc => isDigit_of_mem_toString hn hc
    have hsign : signOf ((toString n.toInt).toList ++ []) = (false, 0) := signOf_digits hne hds
    rw [List.append_nil] at hsign
    have hhead : (toString n.toInt).toList.head? ≠ some '$' := fun h =>
      absurd (hds '$' (List.mem_of_mem_head? h)) (by decide)
    rw [scanInteger_of_head hhead, scanDecimal_of_signOf hsign List.drop_zero hne hds,
      if_neg (by decide), decimalValue_toString hn, int64OfInt?_toInt, Option.map_some, Nat.zero_add]
  · have hneg : 0 ≤ -n.toInt := by omega
    have hne := toString_ne_nil hneg
    have hds : ∀ c ∈ (toString (-n.toInt)).toList, c.isDigit = true :=
      fun c hc => isDigit_of_mem_toString hneg hc
    have hsign : signOf ('-' :: (toString (-n.toInt)).toList) = (true, 1) := rfl
    have hdrop : ('-' :: (toString (-n.toInt)).toList).drop 1 = (toString (-n.toInt)).toList := rfl
    rw [toList_toString_of_neg (by omega), scanInteger_of_head (by simp),
      scanDecimal_of_signOf hsign hdrop hne hds, if_pos rfl, decimalValue_toString hneg,
      Int.neg_neg, int64OfInt?_toInt, Option.map_some, List.length_cons, Nat.add_comm]

end Number

theorem integerValue_toString (n : Int64) :
    integerValue (toString n.toInt) = .ok (.integer n) := by
  rw [integerValue, Number.whole?, Number.scanInteger_toString]
  simp

abbrev Bindings := List (String × Value)

/-- The value of a name at the front that is a parameter. A name behind `FN` is that of a function,
and so may be a name before an argument list. -/
def Bindings.front? (env : Bindings) (behindFn : Bool) : List Token → Option Value
  | .ident name :: ts =>
    if behindFn || ts.head? == some .openParen then none else Table.find? name env
  | _ => none

/-- One pass over a token list as `scan` makes it, but with parameters, which are operands with a
value of their own. The arguments of calls are evaluated in the same scope. -/
def scanIn (call : Call) (env : Bindings) (emit : Item → Run Unit) (behindFn : Bool) (s : Scan)
    (tokens : List Token) : Run (List Item × List Token) :=
  match tokens with
  | [] => do return (← s.finish emit, [])
  | t :: ts => do
    let s ← s.beforeToken emit t
    match env.front? behindFn (t :: ts) with
    | some v => do
      let s ← s.withValue v
      scanIn call env emit false s ts
    | none =>
      match t with
      | .ident _ | .qualifier _ =>
        let home ← qualifiedModule t
        match h : Reference.split expectedName (t :: ts) with
        | .error f => throw f
        | .ok (ref, rest) =>
          have : rest.length < (t :: ts).length := (Reference.length_split h).1
          let v ← match ha : ref.args with
            | none => plainOperand call s.fnCall home ref.name
            | some inner => do
              have : inner.length < (t :: ts).length := (Reference.length_split h).2 inner ha
              let args ←
                if inner.isEmpty then pure []
                else do
                  let (items, after) ← scanIn call env ignore false {} inner
                  if !after.isEmpty then Run.syntaxError
                  pure (Item.values items)
              appliedOperand call s.fnCall home ref.name args
          let s ← s.withValue v
          scanIn call env emit false { s with fnCall := false } rest
      | _ =>
        match ← s.step emit t with
        | some s => scanIn call env emit (t == .word .FN) s ts
        | none => do return (← s.finish emit, t :: ts)
termination_by tokens.length
decreasing_by all_goals (simp only [List.length_cons] at *; omega)

def evaluateSingleIn (call : Call) (env : Bindings) (tokens : List Token) : Run Value := do
  let (items, rest) ← scanIn call env ignore false {} tokens
  if tokens.length - rest.length ≠ tokens.length then Run.syntaxError
  Item.single items

section

variable {call : Call} {env : Bindings} {emit : Item → Run Unit} {s : Scan} {behindFn : Bool}
  {t : Token} {ts rest : List Token} {ref : Reference}

theorem scanIn_front {v : Value} (h : env.front? behindFn (t :: ts) = some v) :
    scanIn call env emit behindFn s (t :: ts) = (do
      let s ← s.beforeToken emit t
      let s ← s.withValue v
      scanIn call env emit false s ts) := by
  rw [scanIn, h]

theorem scanIn_name (hfront : env.front? behindFn (t :: ts) = none) (ht : t.startsName = true)
    (h : Reference.split expectedName (t :: ts) = .ok (ref, rest)) :
    scanIn call env emit behindFn s (t :: ts) = (do
      let s ← s.beforeToken emit t
      let home ← qualifiedModule t
      let v ← operandWith call (scanIn call env ignore false {}) s.fnCall home ref
      let s ← s.withValue v
      scanIn call env emit false { s with fnCall := false } rest) := by
  rw [scanIn, hfront]
  refine bind_congr fun s => ?_
  cases t with
  | ident | qualifier =>
    refine bind_congr fun home => ?_
    split <;> rename_i heq <;> cases h.symm.trans heq
    dsimp only
    split <;> rename_i ha
    · simp only [operandWith, ha]
    · rw [operandWith_bind call _ _ home ha]
      rfl
  | _ => cases ht

theorem scanIn_unnamed {f : Fault} (hfront : env.front? behindFn (t :: ts) = none)
    (ht : t.startsName = true) (h : Reference.split expectedName (t :: ts) = .error f) :
    scanIn call env emit behindFn s (t :: ts) = (do
      let _ ← s.beforeToken emit t
      let _ ← qualifiedModule t
      throw f) := by
  rw [scanIn, hfront]
  refine bind_congr fun s => ?_
  cases t with
  | ident | qualifier =>
    refine bind_congr fun home => ?_
    split <;> rename_i heq <;> cases h.symm.trans heq
    rfl
  | _ => cases ht

theorem scanIn_other (ht : t.startsName = false) :
    scanIn call env emit behindFn s (t :: ts) = (do
      let s ← s.beforeToken emit t
      match ← s.step emit t with
      | some s => scanIn call env emit (t == .word .FN) s ts
      | none => do return (← s.finish emit, t :: ts)) := by
  rw [scanIn]
  cases t with
  | ident | qualifier => cases ht
  | _ => rfl

end

namespace Reference

def map (f : Token → Token) (ref : Reference) : Reference := ⟨ref.name, ref.args.map (List.map f)⟩

theorem withArguments_parts {name : String} {ts rest : List Token} {ref : Reference}
    (h : withArguments name ts = .ok (ref, rest)) :
    rest <:+ ts ∧ ∀ inner, ref.args = some inner → inner <:+: ts := by
  rw [withArguments.eq_def] at h
  split at h
  · split at h
    · rename_i inner after hclosing
      cases h
      rw [upToClosing_eq hclosing]
      refine ⟨⟨.openParen :: inner ++ [.closeParen], by simp⟩, ?_⟩
      rintro _ ⟨⟩
      exact ⟨[.openParen], .closeParen :: rest, by simp⟩
    · cases h
  · cases h
    refine ⟨List.suffix_rfl, fun inner hinner => ?_⟩
    cases hinner

/-- What is left behind a reference, and its arguments, are parts of the tokens. -/
theorem split_parts {missing : Fault} {ts rest : List Token} {ref : Reference}
    (h : split missing ts = .ok (ref, rest)) :
    rest <:+ ts ∧ ∀ inner, ref.args = some inner → inner <:+: ts := by
  rw [split.eq_def] at h
  split at h
  · obtain ⟨hrest, hinner⟩ := withArguments_parts h
    exact ⟨hrest.trans (List.suffix_cons _ _), fun inner hi =>
      (hinner inner hi).trans (List.suffix_cons _ _).isInfix⟩
  · obtain ⟨hrest, hinner⟩ := withArguments_parts h
    have hts {q : Token} {name : String} {ts : List Token} : ts <:+ q :: .ident name :: ts :=
      ⟨[q, .ident name], rfl⟩
    exact ⟨hrest.trans hts, fun inner hi => (hinner inner hi).trans hts.isInfix⟩
  · cases h

end Reference

def Bindings.put (env : Bindings) : Token → Token
  | .ident name =>
    match Table.find? name env with
    | some v => v.token
    | none => .ident name
  | t => t

namespace Bindings

variable {env : Bindings}

theorem put_of_find? {name : String} {v : Value} (h : Table.find? name env = some v) :
    env.put (.ident name) = v.token := by
  rw [put, h]

theorem put_of_none {name : String} (h : Table.find? name env = none) :
    env.put (.ident name) = .ident name := by
  rw [put, h]

theorem put_of_not_ident {t : Token} (h : ∀ name, t ≠ .ident name) : env.put t = t := by
  cases t with
  | ident name => exact absurd rfl (h name)
  | _ => rfl

/-- What stands in place of a parameter is neither a parenthesis nor a name. -/
theorem put_eq {t u : Token} (h : env.put t = u) (hu : u.isLiteral = false) : t = u := by
  cases t with
  | ident name =>
    cases hfound : Table.find? name env with
    | none => rw [← h, put_of_none hfound]
    | some v =>
      rw [put_of_find? hfound] at h
      subst h
      cases v <;> cases hu
  | _ => exact h

end Bindings

theorem upToClosing_put (env : Bindings) (depth : Nat) (ts : List Token) :
    upToClosing depth (ts.map env.put) =
      (upToClosing depth ts).map (Prod.map (List.map env.put) (List.map env.put)) := by
  induction ts generalizing depth with
  | nil => rfl
  | cons t ts ih =>
    by_cases hopen : t = .openParen
    · subst hopen
      rw [List.map_cons, Bindings.put_of_not_ident (by simp), upToClosing, upToClosing, ih,
        Option.map_map, Option.map_map]
      rfl
    · by_cases hclose : t = .closeParen
      · subst hclose
        rw [List.map_cons, Bindings.put_of_not_ident (by simp), upToClosing.eq_def,
          upToClosing.eq_def]
        cases depth with
        | zero => rfl
        | succ depth =>
          dsimp only
          rw [ih, Option.map_map, Option.map_map]
          rfl
      · rw [List.map_cons, upToClosing_other _ (fun h => hopen (Bindings.put_eq h rfl))
          (fun h => hclose (Bindings.put_eq h rfl)), upToClosing_other ts hopen hclose, ih,
          Option.map_map, Option.map_map]
        rfl

namespace Reference

/-- Arguments in place of parameters change neither where a reference ends nor its name. -/
theorem withArguments_put (env : Bindings) (name : String) (ts : List Token) :
    withArguments name (ts.map env.put) =
      (withArguments name ts).map (Prod.map (map env.put) (List.map env.put)) := by
  cases ts with
  | nil => rfl
  | cons t ts =>
    by_cases hopen : t = .openParen
    · subst hopen
      rw [List.map_cons, Bindings.put_of_not_ident (by simp), withArguments, withArguments,
        upToClosing_put]
      cases upToClosing 0 ts with
      | none => rfl
      | some parts => rfl
    · have hother {u : Token} {us : List Token} (hu : u ≠ .openParen) :
          withArguments name (u :: us) = .ok (⟨name, none⟩, u :: us) := by
        rw [withArguments.eq_def]
        split
        · rename_i heq
          cases heq
          exact absurd rfl hu
        · rfl
      rw [List.map_cons, hother fun h => hopen (Bindings.put_eq h rfl), hother hopen]
      rfl

theorem split_put_ident (env : Bindings) (missing : Fault) (name : String) (ts : List Token) :
    split missing (.ident name :: ts.map env.put) =
      (split missing (.ident name :: ts)).map (Prod.map (map env.put) (List.map env.put)) :=
  withArguments_put env name ts

theorem split_put_qualifier {env : Bindings} (missing : Fault) (module : String) {ts : List Token}
    (h : ∀ name, ts.head? = some (.ident name) → Table.find? name env = none) :
    split missing (.qualifier module :: ts.map env.put) =
      (split missing (.qualifier module :: ts)).map
        (Prod.map (map env.put) (List.map env.put)) := by
  have hother {us : List Token} (hus : ∀ name, us.head? ≠ some (.ident name)) :
      split missing (.qualifier module :: us) = .error missing := by
    rw [split.eq_def]
    split
    · rename_i heq
      cases heq
    · rename_i heq
      cases heq
      exact absurd rfl (hus _)
    · rfl
  cases ts with
  | nil => rfl
  | cons t ts =>
    by_cases hident : ∃ name, t = .ident name
    · obtain ⟨name, rfl⟩ := hident
      rw [List.map_cons, Bindings.put_of_none (h name rfl)]
      exact withArguments_put env name ts
    · have ht : ∀ name, (t :: ts).head? ≠ some (.ident name) := by
        rintro name ⟨⟩
        exact hident ⟨name, rfl⟩
      have hput : ∀ name, ((t :: ts).map env.put).head? ≠ some (.ident name) := by
        intro name heq
        exact hident ⟨name, Bindings.put_eq (Option.some.inj heq) rfl⟩
      rw [hother ht, hother hput]
      rfl

end Reference

/-- A reference stands for the same operand if its arguments come to the same. -/
theorem operandWith_map {call : Call}
    {arguments arguments' : List Token → Run (List Item × List Token)} {ref : Reference}
    (f : Token → Token) (h : ∀ inner, ref.args = some inner →
      arguments (inner.map f) = Prod.map id (List.map f) <$> arguments' inner)
    (fnCall : Bool) (home : ModuleId) :
    operandWith call arguments fnCall home (ref.map f) =
      operandWith call arguments' fnCall home ref := by
  cases ha : ref.args with
  | none => simp only [operandWith, Reference.map, ha, Option.map_none]
  | some inner =>
    simp only [operandWith, Reference.map, ha, Option.map_some, List.isEmpty_map, h inner ha,
      bind_map_left, Prod.map_fst, Prod.map_snd, id]

theorem Value.literalValue_token (v : Value) : v.token.literalValue = .ok v := by
  cases v with
  | integer n => exact integerValue_toString n
  | real x => rfl
  | text s => rfl

/-- What stands in place of a parameter is an operand with its value. -/
theorem scan_token (call : Call) (emit : Item → Run Unit) (s : Scan) (v : Value) (name : String)
    (ts : List Token) :
    scan call emit s (v.token :: ts) = (do
      let s ← s.beforeToken emit (.ident name)
      let s ← s.withValue v
      scan call emit s ts) := by
  have hliteral : v.token.isLiteral = true := by cases v <;> rfl
  have hbefore : s.beforeToken emit v.token = s.beforeToken emit (.ident name) := by
    cases v <;> rfl
  rw [scan_cons call emit s ts (Scan.isArithmetic_of_isLiteral hliteral), hbefore]
  refine bind_congr fun s => ?_
  rw [s.step_literal emit hliteral, v.literalValue_token, liftM_ok, pure_bind_run]
  cases s.withValue v <;> rfl

def Token.marksName : Token → Bool
  | word w => w == .FN
  | qualifier _ => true
  | _ => false

/-- Two tokens side by side, of which a parameter is neither said to be something else nor followed
by arguments. -/
def StandApart (params : List String) (t u : Token) : Prop :=
  ∀ name ∈ params, (u = .ident name → t.marksName = false) ∧ (t = .ident name → u ≠ .openParen)

instance (params : List String) : DecidableRel (StandApart params) :=
  fun _ _ => inferInstanceAs (Decidable (∀ name ∈ params, _))

namespace Bindings

def names (env : Bindings) : List String := env.map (·.1)

theorem mem_names_of_find? {env : Bindings} {name : String} {v : Value}
    (h : Table.find? name env = some v) : name ∈ env.names :=
  List.mem_map.2 ⟨(name, v), Table.mem_of_find?_eq_some h, rfl⟩

/-- A name behind a token that says what it is, is no parameter. -/
theorem find?_of_marksName {env : Bindings} {t : Token} {ts : List Token}
    (hapart : (t :: ts).IsChain (StandApart env.names)) (ht : t.marksName = true) (name : String)
    (hhead : ts.head? = some (.ident name)) : Table.find? name env = none := by
  obtain ⟨us, rfl⟩ : ∃ us, ts = .ident name :: us := List.head?_eq_some_iff.1 hhead
  cases hfound : Table.find? name env with
  | none => rfl
  | some v =>
    have hmarks := ((List.isChain_cons_cons.1 hapart).1 name (mem_names_of_find? hfound)).1 rfl
    rw [ht] at hmarks
    cases hmarks

theorem front?_ident {env : Bindings} {behindFn : Bool} {name : String} {ts : List Token}
    (hapart : (Token.ident name :: ts).IsChain (StandApart env.names))
    (hfn : behindFn = true →
      (Token.word .FN :: .ident name :: ts).IsChain (StandApart env.names)) :
    env.front? behindFn (.ident name :: ts) = Table.find? name env := by
  cases hfound : Table.find? name env with
  | none =>
    rw [front?, hfound]
    split <;> rfl
  | some v =>
    have hbehind : behindFn = false := by
      cases behindFn with
      | false => rfl
      | true => cases hfound.symm.trans (find?_of_marksName (hfn rfl) rfl name rfl)
    have hopen : (ts.head? == some .openParen) = false := by
      cases ts with
      | nil => rfl
      | cons u us =>
        simpa using
          ((List.isChain_cons_cons.1 hapart).1 name (mem_names_of_find? hfound)).2 rfl
    rw [front?, hbehind, hopen, hfound]
    rfl

end Bindings

section

variable (call : Call) (env : Bindings)

/-- A name that is no parameter, with what stands behind it. Shorter lists are its arguments and the
rest. -/
theorem scan_put_name {emit : Item → Run Unit} {s : Scan} {t : Token} {ts : List Token}
    {behindFn : Bool} (hapart : (t :: ts).IsChain (StandApart env.names))
    (ih : ∀ tokens, tokens.length < (t :: ts).length → ∀ (emit : Item → Run Unit) (s : Scan),
      tokens.IsChain (StandApart env.names) → scan call emit s (tokens.map env.put) =
        Prod.map id (List.map env.put) <$> scanIn call env emit false s tokens)
    (hput : env.put t = t) (hfront : env.front? behindFn (t :: ts) = none)
    (ht : t.startsName = true)
    (hsplit : Reference.split expectedName (t :: ts.map env.put) =
      (Reference.split expectedName (t :: ts)).map
        (Prod.map (Reference.map env.put) (List.map env.put))) :
    scan call emit s ((t :: ts).map env.put) =
      Prod.map id (List.map env.put) <$> scanIn call env emit behindFn s (t :: ts) := by
  cases h : Reference.split expectedName (t :: ts) with
  | error f =>
    rw [h] at hsplit
    rw [List.map_cons, hput, scan_unnamed ht hsplit, scanIn_unnamed hfront ht h, map_bind]
    refine bind_congr fun _ => ?_
    rw [map_bind]
    rfl
  | ok parts =>
    obtain ⟨ref, rest⟩ := parts
    obtain ⟨⟨front, hrest⟩, hinner⟩ := Reference.split_parts h
    obtain ⟨hrestLength, hinnerLength⟩ := Reference.length_split h
    have hoperand (fnCall : Bool) (home : ModuleId) :
        operandWith call (scan call ignore {}) fnCall home (ref.map env.put) =
          operandWith call (scanIn call env ignore false {}) fnCall home ref := by
      refine operandWith_map env.put (fun inner ha => ?_) fnCall home
      obtain ⟨front, back, hparts⟩ := hinner inner ha
      rw [← hparts] at hapart
      exact ih inner (hinnerLength inner ha) ignore {} hapart.left_of_append.right_of_append
    have hbehind : rest.IsChain (StandApart env.names) := by
      rw [← hrest] at hapart
      exact hapart.right_of_append
    rw [h] at hsplit
    rw [List.map_cons, hput, scan_name ht hsplit, scanIn_name hfront ht h, map_bind]
    refine bind_congr fun s => ?_
    rw [map_bind]
    refine bind_congr fun home => ?_
    rw [hoperand, map_bind]
    refine bind_congr fun v => ?_
    rw [map_bind]
    refine bind_congr fun s => ?_
    exact ih rest hrestLength emit { s with fnCall := false } hbehind

/-- A pass over a body with arguments in place of parameters is a pass over the body itself in which
the parameters have values. -/
theorem scan_put (emit : Item → Run Unit) (s : Scan) (tokens : List Token) (behindFn : Bool)
    (hapart : tokens.IsChain (StandApart env.names))
    (hfn : behindFn = true → (Token.word .FN :: tokens).IsChain (StandApart env.names)) :
    scan call emit s (tokens.map env.put) =
      Prod.map id (List.map env.put) <$> scanIn call env emit behindFn s tokens := by
  induction hn : tokens.length using Nat.strongRecOn generalizing emit s tokens behindFn
  rename_i n ih
  subst hn
  cases tokens with
  | nil =>
    rw [List.map_nil, scan, scanIn, map_bind]
    rfl
  | cons t ts =>
    have hts : ts.IsChain (StandApart env.names) := hapart.tail
    -- Nothing behind a name or among its arguments stands behind this `FN` any more.
    have hshort (us : List Token) (hus : us.length < (t :: ts).length) (emit : Item → Run Unit)
        (s : Scan) (hapart : us.IsChain (StandApart env.names)) :
        scan call emit s (us.map env.put) =
          Prod.map id (List.map env.put) <$> scanIn call env emit false s us :=
      ih _ hus emit s us false hapart (by simp) rfl
    cases t with
    | ident name =>
      have hfront := Bindings.front?_ident hapart hfn
      cases hfound : Table.find? name env with
      | none =>
        rw [hfound] at hfront
        exact scan_put_name call env hapart hshort (Bindings.put_of_none hfound) hfront rfl
          (Reference.split_put_ident env expectedName name ts)
      | some v =>
        rw [hfound] at hfront
        rw [List.map_cons, Bindings.put_of_find? hfound, scanIn_front hfront,
          scan_token call emit s v name, map_bind]
        refine bind_congr fun s => ?_
        rw [map_bind]
        refine bind_congr fun s => ?_
        exact hshort ts (Nat.lt_succ_self _) emit s hts
    | qualifier module =>
      exact scan_put_name call env hapart hshort rfl rfl rfl
        (Reference.split_put_qualifier expectedName module (Bindings.find?_of_marksName hapart rfl))
    | _ =>
      rw [List.map_cons, Bindings.put_of_not_ident (by simp), scan_other rfl, scanIn_other rfl,
        map_bind]
      refine bind_congr fun s => ?_
      rw [map_bind]
      refine bind_congr fun next => ?_
      cases next with
      | none =>
        dsimp only
        rw [map_bind]
        rfl
      | some s =>
        refine ih _ (Nat.lt_succ_self _) emit s ts _ hts (fun hfn => ?_) rfl
        rwa [eq_of_beq hfn] at hapart

theorem evaluateSingleWith_put {tokens : List Token}
    (hapart : tokens.IsChain (StandApart env.names)) :
    evaluateSingleWith call (tokens.map env.put) = evaluateSingleIn call env tokens := by
  rw [evaluateSingleWith, evaluateWith, evaluateSingleIn,
    scan_put call env ignore {} tokens false hapart (by simp)]
  simp only [bind_map_left, bind_assoc, pure_bind, Prod.map_fst, Prod.map_snd, id, List.length_map]

/-- What names no parameter means in their scope what it means anywhere. -/
theorem evaluateSingleIn_of_unnamed {tokens : List Token}
    (h : ∀ name ∈ env.names, .ident name ∉ tokens) :
    evaluateSingleIn call env tokens = evaluateSingleWith call tokens := by
  have hput : tokens.map env.put = tokens := by
    refine (List.map_congr_left fun t ht => ?_).trans (List.map_id tokens)
    cases t with
    | ident name =>
      cases hfound : Table.find? name env with
      | none => exact Bindings.put_of_none hfound
      | some v => exact absurd ht (h name (Bindings.mem_names_of_find? hfound))
    | _ => rfl
  have hapart : tokens.IsChain (StandApart env.names) := by
    refine List.Pairwise.isChain (List.pairwise_of_forall_mem_list fun t ht u hu name hname => ?_)
    exact ⟨fun heq => absurd (heq ▸ hu) (h name hname), fun heq => absurd (heq ▸ ht) (h name hname)⟩
  rw [← evaluateSingleWith_put call env hapart, hput]

end

section

variable {params : List String} {args values : List Value}

/-- Each parameter has the value of its argument as its name has it. -/
theorem find?_coerced
    (h : (params.zip args).mapM (fun p => Value.coerceFor p.1 p.2) = .ok values)
    (name : String) :
    Table.find? name (params.zip args) = none ∧ Table.find? name (params.zip values) = none ∨
      ∃ v w, Table.find? name (params.zip args) = some v ∧
        Table.find? name (params.zip values) = some w ∧ Value.coerceFor name v = .ok w := by
  induction params generalizing args values with
  | nil => exact .inl ⟨rfl, rfl⟩
  | cons p ps ih =>
    cases args with
    | nil =>
      cases h
      exact .inl ⟨rfl, rfl⟩
    | cons a as =>
      rw [List.zip_cons_cons, List.mapM_cons] at h
      obtain ⟨w, hw, h⟩ := LineBasic.bind_eq_ok.1 h
      obtain ⟨ws, hws, h⟩ := LineBasic.bind_eq_ok.1 h
      cases h
      rw [List.zip_cons_cons, List.zip_cons_cons, Table.find?, Table.find?]
      by_cases hname : name = p
      · subst hname
        exact .inr ⟨a, w, if_pos rfl, if_pos rfl, hw⟩
      · rw [if_neg hname, if_neg hname]
        exact ih hws

/-- Substitution puts in place of every parameter its value. -/
theorem substitute_eq
    (h : (params.zip args).mapM (fun p => Value.coerceFor p.1 p.2) = .ok values)
    {body : List Token} (hapart : body.IsChain (StandApart (Bindings.names (params.zip values))))
    {qualified : Bool} (hqualified : qualified = true → ∀ name, body.head? = some (.ident name) →
      Table.find? name (params.zip values) = none) :
    substitute (params.zip args) qualified body =
      .ok (body.map (Bindings.put (params.zip values))) := by
  induction body generalizing qualified with
  | nil => rfl
  | cons t ts ih =>
    have hts : substitute (params.zip args) false ts =
        .ok (ts.map (Bindings.put (params.zip values))) := ih hapart.tail (by simp)
    cases t with
    | ident name =>
      have hfound : (if qualified = true then none else Table.find? name (params.zip args)) =
          Table.find? name (params.zip args) := by
        cases qualified with
        | false => rfl
        | true =>
          obtain ⟨hnone, -⟩ | ⟨v, w, -, hw, -⟩ := find?_coerced h name
          · rw [hnone, ite_self]
          · cases hw.symm.trans (hqualified rfl name rfl)
      rw [substitute, hfound, hts]
      obtain ⟨hnone, hnone'⟩ | ⟨v, w, hv, hw, hcoerce⟩ := find?_coerced h name
      · rw [hnone, List.map_cons, Bindings.put_of_none hnone']
        rfl
      · rw [hv, List.map_cons, Bindings.put_of_find? hw]
        dsimp only
        rw [hcoerce]
        rfl
    | qualifier module =>
      rw [substitute, ih hapart.tail fun _ => Bindings.find?_of_marksName hapart rfl]
      rfl
    | _ =>
      rw [substitute, hts]
      · rfl
      all_goals simp

theorem mem_of_mem_names_zip {name : String}
    (h : name ∈ Bindings.names (params.zip values)) : name ∈ params := by
  obtain ⟨⟨p, v⟩, hmem, rfl⟩ := List.mem_map.1 h
  exact (List.of_mem_zip hmem).1

/-- A call of a defined function evaluates its body with its parameters in scope. -/
theorem callDefined_eq {k : Nat} {home : ModuleId} {key : String} {f : FunctionDef} {m : Machine}
    (hf : (m.moduleAt home).functions.get? key = some f) (hargs : f.params.length = args.length)
    (hvalues : (f.params.zip args).mapM (fun p => Value.coerceFor p.1 p.2) = .ok values)
    (hapart : f.body.IsChain (StandApart f.params)) :
    callDefined (k + 1) home key args m =
      evaluateSingleIn (callDefined k) (f.params.zip values) f.body m := by
  have hscope : f.body.IsChain (StandApart (Bindings.names (f.params.zip values))) :=
    hapart.imp fun t u h name hname => h name (mem_of_mem_names_zip hname)
  rw [callDefined.eq_def, get_bind, hf]
  dsimp only
  rw [if_neg (not_not_intro hargs), substitute_eq hvalues hscope (by simp),
    ← evaluateSingleWith_put (callDefined k) _ hscope]
  rfl

/-- A call of a defined function is a call by value with lexical scope. Its answer, its fault and
all that it does are those of its body with every parameter standing for its argument, which has the
kind that the parameter's name says. What names no parameter, a further function or a variable, means
there what it means outside: the parameters are seen in the text of the body only. No name and no
array, in any module, has another value afterwards. -/
theorem defined_call_is_lexically_scoped {k : Nat} {home : ModuleId} {key : String}
    {f : FunctionDef} {m : Machine} (hf : (m.moduleAt home).functions.get? key = some f)
    (hargs : f.params.length = args.length)
    (hvalues : (f.params.zip args).mapM (fun p => Value.coerceFor p.1 p.2) = .ok values)
    (hapart : f.body.IsChain (StandApart f.params)) :
    callDefined (k + 1) home key args m =
        evaluateSingleIn (callDefined k) (f.params.zip values) f.body m ∧
      (∀ tokens, (∀ name ∈ f.params, .ident name ∉ tokens) →
        evaluateSingleIn (callDefined k) (f.params.zip values) tokens =
          evaluateSingleWith (callDefined k) tokens) ∧
      let m' := (callDefined (k + 1) home key args).final m
      ∀ id, (∀ name, (m'.moduleAt id).vars.fetch name = (m.moduleAt id).vars.fetch name) ∧
        (m'.moduleAt id).vars.arrays = (m.moduleAt id).vars.arrays := by
  refine ⟨callDefined_eq hf hargs hvalues hapart, fun tokens hunnamed => ?_, fun id => ?_⟩
  · exact evaluateSingleIn_of_unnamed (callDefined k) _ fun name hname =>
      hunnamed name (mem_of_mem_names_zip hname)
  · have hevaluated : m.Evaluated _ := (obeys_callDefined (k + 1) home key args m).leads
    obtain ⟨-, htouched⟩ := hevaluated.modules id
    exact ⟨htouched.fetch, htouched.arrays⟩

end

/-- The least integer and a text with a quotation mark in it are arguments like any other, and the
function that is called from the body sees the variable `X`, which is 100, and not the parameter. -/
theorem defined_call_is_lexically_scoped_around_call :
    let m := Session.enterAll 9
      ["X=100", "DEF FNG(Y)=Y+X", "DEF FNF(X,N%,S$)=FNG(-X)-(N%<0)*LEN(S$)"] {}
    let args := [.integer 2, .integer (-9223372036854775808), .text "A \"B"]
    let body : List Token := [.ident "FNG", .openParen, .unary .minus, .ident "X", .closeParen,
      .operator .minus, .openParen, .ident "N%", .operator .less, .integer "0", .closeParen,
      .operator .times, .ident "LEN", .openParen, .ident "S$", .closeParen]
    let scope := [("X", .real 2), ("N%", .integer (-9223372036854775808)), ("S$", .text "A \"B")]
    (m.moduleAt 0).functions.get? "FNF" = some ⟨["X", "N%", "S$"], body⟩ ∧
      body.IsChain (StandApart ["X", "N%", "S$"]) ∧
      callDefined 64 0 "FNF" args m = evaluateSingleIn (callDefined 63) scope body m ∧
      Run.answer (callDefined 64 0 "FNF" args) m = .ok (.real 102) ∧
      ((Run.final (callDefined 64 0 "FNF" args) m).moduleAt 0).vars.fetch "X" = .real 100 := by
  intro m args body scope
  obtain ⟨hf, hanswer, hx⟩ : (m.moduleAt 0).functions.get? "FNF" = some ⟨["X", "N%", "S$"], body⟩ ∧
      (Run.answer (callDefined 64 0 "FNF" args) m).toOption = some (.real 102) ∧
      (m.moduleAt 0).vars.fetch "X" = .real 100 := by
    decide +kernel
  have hapart : body.IsChain (StandApart ["X", "N%", "S$"]) := by decide +kernel
  have hvalues : (["X", "N%", "S$"].zip args).mapM (fun p => Value.coerceFor p.1 p.2) =
      .ok [.real 2, .integer (-9223372036854775808), .text "A \"B"] :=
    eq_ok_of_toOption (by decide +kernel)
  obtain ⟨hcall, -, hkept⟩ := defined_call_is_lexically_scoped (k := 63) hf rfl hvalues hapart
  exact ⟨hf, hapart, hcall, eq_ok_of_toOption hanswer, ((hkept 0).1 "X").trans hx⟩

end LineBasic
