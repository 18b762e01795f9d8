import LineBasic.Proofs.Expression.CallDepth
import LineBasic.Proofs.Expression.FunctionNames
import LineBasic.Proofs.Expression.HandedOn
import Mathlib.Logic.Relation

/-!
# Functions that lead to themselves

A pass that takes all its tokens has called every function that is named in them, with a value each
time. So a function that leads to itself has no value: its calls go deeper until there is no level
left.
-/

set_option autoImplicit false

namespace LineBasic

open Run

def CallsByName (name : String) (tokens : List Token) : Prop :=
  ∃ before after, tokens = before ++ .word .FN :: .ident name :: after

theorem callsByName_cons {name : String} {t : Token} {ts : List Token} :
    CallsByName name (t :: ts) ↔
      (t = .word .FN ∧ ts.head? = some (.ident name)) ∨ CallsByName name ts := by
  constructor
  · rintro ⟨before, after, h⟩
    cases before with
    | nil =>
      cases h
      exact .inl ⟨rfl, rfl⟩
    | cons u before =>
      cases h
      exact .inr ⟨before, after, rfl⟩
  · rintro (⟨rfl, hhead⟩ | ⟨before, after, rfl⟩)
    · cases ts with
      | nil => cases hhead
      | cons u us =>
        cases hhead
        exact ⟨[], us, rfl⟩
    · exact ⟨t :: before, after, rfl⟩

/-- What stands between two lists may keep the `FN` and its name from being one in each. -/
theorem CallsByName.of_append {name : String} {x : Token} (hfn : x ≠ .word .FN)
    (hname : x ≠ .ident name) {xs ys : List Token} (h : CallsByName name (xs ++ x :: ys)) :
    CallsByName name xs ∨ CallsByName name ys := by
  induction xs with
  | nil =>
    rcases callsByName_cons.1 h with ⟨hx, -⟩ | h
    · exact absurd hx hfn
    · exact .inr h
  | cons u xs ih =>
    rcases callsByName_cons.1 h with ⟨rfl, hhead⟩ | h
    · cases xs with
      | nil =>
        cases hhead
        exact absurd rfl hname
      | cons v xs => exact .inl (callsByName_cons.2 (.inl ⟨rfl, hhead⟩))
    · exact (ih h).imp_left fun h => callsByName_cons.2 (.inr h)

/-- A call behind a reference stands among its arguments or further on. -/
theorem CallsByName.of_split {name : String} {t : Token} {ts rest : List Token} {ref : Reference}
    (ht : t.startsName = true) (h : CallsByName name (t :: ts))
    (hsplit : Reference.split expectedName (t :: ts) = .ok (ref, rest)) :
    (∃ inner, ref.args = some inner ∧ CallsByName name inner) ∨ CallsByName name rest := by
  have behind {called : String} {us : List Token} (hcalls : CallsByName name us)
      (hargs : Reference.withArguments called us = .ok (ref, rest)) :
      (∃ inner, ref.args = some inner ∧ CallsByName name inner) ∨ CallsByName name rest := by
    unfold Reference.withArguments at hargs
    split at hargs
    · rename_i us
      split at hargs
      · rename_i inner after hclosing
        cases hargs
        rw [upToClosing_eq hclosing] at hcalls
        rcases callsByName_cons.1 hcalls with ⟨hopen, -⟩ | hcalls
        · cases hopen
        · refine (hcalls.of_append ?_ ?_).imp_left fun h => ⟨inner, rfl, h⟩
          · rintro ⟨⟩
          · rintro ⟨⟩
      · cases hargs
    · cases hargs
      exact .inr hcalls
  rcases callsByName_cons.1 h with ⟨rfl, -⟩ | hcalls
  · cases ht
  · unfold Reference.split at hsplit
    split at hsplit
    · rename_i heq
      cases heq
      exact behind hcalls hsplit
    · rename_i heq
      cases heq
      rcases callsByName_cons.1 hcalls with ⟨hfn, -⟩ | hcalls
      · cases hfn
      · exact behind hcalls hsplit
    · cases hsplit

theorem Machine.Evaluated.scopes {m m' : Machine} (h : m.Evaluated m') : m'.scopes = m.scopes := by
  rw [h.rest]

theorem Machine.Evaluated.functions {m m' : Machine} (h : m.Evaluated m') (id : ModuleId) :
    (m'.moduleAt id).functions = (m.moduleAt id).functions := by
  rw [(h.modules id).1]

theorem Reference.name_of_split {name : String} {ts rest : List Token} {ref : Reference}
    (h : split expectedName (.ident name :: ts) = .ok (ref, rest)) : ref.name = name := by
  change withArguments name ts = _ at h
  unfold withArguments at h
  split at h
  · split at h <;> cases h
    rfl
  · cases h
    rfl

theorem Scan.evaluated_beforeToken {s s' : Scan} {t : Token} {m m' : Machine}
    (h : s.beforeToken ignore t m = .ok s' m') : m.Evaluated m' :=
  have hobeys : Obeys .evaluation (s.beforeToken ignore t) :=
    obeys_beforeToken (fun _ => obeys_pure _) s t
  hobeys.ok h

theorem Scan.evaluated_step {s : Scan} {next : Option Scan} {t : Token} {m m' : Machine}
    (h : s.step ignore t m = .ok next m') : m.Evaluated m' :=
  have hobeys : Obeys .evaluation (s.step ignore t) := obeys_step (fun _ => obeys_pure _) s t
  hobeys.ok h

theorem evaluated_qualifiedModule {t : Token} {home : ModuleId} {m m' : Machine}
    (h : qualifiedModule t m = .ok home m') : m.Evaluated m' :=
  have hobeys : Obeys .evaluation (qualifiedModule t) := obeys_qualifiedModule t
  hobeys.ok h

def Called (call : Call) (name : String) (m : Machine) : Prop :=
  ∃ args v m₁ m₂, m.Evaluated m₁ ∧
    call m.scopes.variableModule ("FN" ++ name) args m₁ = .ok v m₂

theorem Called.earlier {call : Call} {name : String} {m m₁ : Machine} (hm : m.Evaluated m₁)
    (h : Called call name m₁) : Called call name m := by
  obtain ⟨args, v, m₂, m₃, hm₂, hcalled⟩ := h
  rw [hm.scopes] at hcalled
  exact ⟨args, v, m₂, m₃, hm.trans hm₂, hcalled⟩

section

variable {call : Call} (hcall : ∀ home key args, Obeys .evaluation (call home key args))

/-- The operand behind an `FN` is what a call of the function gives. -/
theorem called_of_operandWith {arguments : List Token → Run (List Item × List Token)}
    (harguments : ∀ inner, Obeys .evaluation (arguments inner)) {home : ModuleId}
    {ref : Reference} {v : Value} {m m' : Machine}
    (h : operandWith call arguments true home ref m = .ok v m') :
    ∃ args m₁, m.Evaluated m₁ ∧ call home ("FN" ++ ref.name) args m₁ = .ok v m' := by
  have applied {args : List Value} {m : Machine}
      (h : appliedOperand call true home ref.name args m = .ok v m') :
      call home ("FN" ++ ref.name) args m = .ok v m' := by
    rw [appliedOperand, get_bind] at h
    simp only [Bool.not_true, Bool.false_and, Bool.false_eq_true, if_false, if_true] at h
    split at h
    · exact h
    · cases h
  cases hargs : ref.args with
  | none =>
    rw [operandWith, hargs] at h
    exact ⟨[], m, .refl m, h⟩
  | some inner =>
    rw [← bind_pure (operandWith call arguments true home ref), operandWith_bind _ _ _ _ hargs] at h
    simp only [bind_pure] at h
    split at h
    · exact ⟨[], m, .refl m, applied h⟩
    · obtain ⟨result, m₁, hresult, h⟩ := Run.bind_eq_ok.1 h
      split at h
      · cases h
      · exact ⟨_, m₁, (harguments inner).ok hresult, applied h⟩

include hcall

theorem obeys_scan_ignore (tokens : List Token) :
    Obeys .evaluation (scan call ignore {} tokens) :=
  obeys_scan hcall (fun _ _ h => h) (fun _ => obeys_pure _) {} tokens

theorem called_of_name {s : Scan} {name : String} {ts : List Token} {m m' : Machine}
    {result : List Item × List Token} (hfn : s.fnCall = true)
    (h : scan call ignore s (.ident name :: ts) m = .ok result m') : Called call name m := by
  cases hsplit : Reference.split expectedName (.ident name :: ts) with
  | error f =>
    rw [scan_unnamed rfl hsplit] at h
    obtain ⟨s₁, m₁, -, h⟩ := Run.bind_eq_ok.1 h
    obtain ⟨home, m₂, -, h⟩ := Run.bind_eq_ok.1 h
    cases h
  | ok parts =>
    obtain ⟨ref, rest⟩ := parts
    rw [scan_name rfl hsplit] at h
    obtain ⟨s₁, m₁, hbefore, h⟩ := Run.bind_eq_ok.1 h
    obtain ⟨home, m₂, hhome, h⟩ := Run.bind_eq_ok.1 h
    obtain ⟨v, m₃, hoperand, h⟩ := Run.bind_eq_ok.1 h
    cases hhome
    rw [Scan.fnCall_beforeToken hbefore, hfn] at hoperand
    obtain ⟨args, m₄, hargs, hcalled⟩ :=
      called_of_operandWith (obeys_scan_ignore hcall) hoperand
    have hbegun : m.Evaluated m₁ := Scan.evaluated_beforeToken hbefore
    rw [Reference.name_of_split hsplit, hbegun.scopes] at hcalled
    exact ⟨args, v, m₄, m₃, hbegun.trans hargs, hcalled⟩

/-- A pass that takes all its tokens has called every function whose name stands behind an `FN`. -/
theorem called_of_scan {name : String} {s : Scan} {tokens : List Token} {items : List Item}
    {m m' : Machine} (hname : CallsByName name tokens)
    (h : scan call ignore s tokens m = .ok (items, []) m') : Called call name m := by
  induction tokens using pass_induction generalizing s items m m' with
  | nil =>
    obtain ⟨before, after, hnil⟩ := hname
    cases before <;> cases hnil
  | other t ts ht ih =>
    rw [scan_other ht] at h
    obtain ⟨s₁, m₁, hbefore, h⟩ := Run.bind_eq_ok.1 h
    obtain ⟨next, m₂, hstep, h⟩ := Run.bind_eq_ok.1 h
    have hm₂ : m.Evaluated m₂ :=
      (Scan.evaluated_beforeToken hbefore).trans (Scan.evaluated_step hstep)
    cases next with
    | none =>
      obtain ⟨items', m₃, -, h⟩ := Run.bind_eq_ok.1 h
      cases h
    | some s₂ =>
      rcases callsByName_cons.1 hname with ⟨rfl, hhead⟩ | hname
      · cases ts with
        | nil => cases hhead
        | cons u us =>
          cases hhead
          have hfn : s₂.fnCall = true := by
            rw [Scan.fnCall_step hstep]
            exact Bool.or_true _
          exact .earlier hm₂ (called_of_name hcall hfn h)
      · exact .earlier hm₂ (ih hname h)
  | unnamed t ts f ht hsplit =>
    rw [scan_unnamed ht hsplit] at h
    obtain ⟨s₁, m₁, -, h⟩ := Run.bind_eq_ok.1 h
    obtain ⟨home, m₂, -, h⟩ := Run.bind_eq_ok.1 h
    cases h
  | name t ts ref rest ht hsplit hinner hrest =>
    rw [scan_name ht hsplit] at h
    obtain ⟨s₁, m₁, hbefore, h⟩ := Run.bind_eq_ok.1 h
    obtain ⟨home, m₂, hhome, h⟩ := Run.bind_eq_ok.1 h
    obtain ⟨v, m₃, hoperand, h⟩ := Run.bind_eq_ok.1 h
    obtain ⟨s₂, -, h⟩ := liftM_bind_eq_ok.1 h
    have hm₂ : m.Evaluated m₂ :=
      (Scan.evaluated_beforeToken hbefore).trans (evaluated_qualifiedModule hhome)
    rcases hname.of_split ht hsplit with ⟨inner, ha, hname⟩ | hname
    · have hne : inner ≠ [] := by
        rintro rfl
        obtain ⟨before, after, hnil⟩ := hname
        cases before <;> cases hnil
      obtain ⟨items', m₄, hscan⟩ := of_operandWith hoperand ha hne
      exact .earlier hm₂ (hinner inner ha hname hscan)
    · have hm₃ : m₂.Evaluated m₃ :=
        (obeys_operandWith hcall s₁.fnCall home ref).ok hoperand
      exact .earlier (hm₂.trans hm₃) (hrest hname h)

end

/-- What is called by its name is called so after arguments have been put in, unless the name is
that of a parameter. -/
theorem CallsByName.substitute {name : String} {args : List (String × Value)} {qualified : Bool}
    {body body' : List Token} (h : CallsByName name body) (hname : Table.find? name args = none)
    (hbody : LineBasic.substitute args qualified body = .ok body') : CallsByName name body' := by
  induction body generalizing qualified body' with
  | nil =>
    obtain ⟨before, after, hnil⟩ := h
    cases before <;> cases hnil
  | cons t ts ih =>
    have behind {u : Token} {again : Bool} (hts : CallsByName name ts)
        (hrest : (do return u :: (← LineBasic.substitute args again ts)) = .ok body') :
        CallsByName name body' := by
      obtain ⟨ts', hts', hrest⟩ := LineBasic.bind_eq_ok.1 hrest
      cases hrest
      exact callsByName_cons.2 (.inr (ih hts hts'))
    rcases callsByName_cons.1 h with ⟨rfl, hhead⟩ | hts
    · cases ts with
      | nil => cases hhead
      | cons u us =>
        cases hhead
        obtain ⟨ts', hts', hbody⟩ := LineBasic.bind_eq_ok.1 hbody
        cases hbody
        rw [LineBasic.substitute] at hts'
        simp only [Bool.false_eq_true, if_false, hname] at hts'
        obtain ⟨us', -, hts'⟩ := LineBasic.bind_eq_ok.1 hts'
        cases hts'
        exact callsByName_cons.2 (.inl ⟨rfl, rfl⟩)
    · rw [LineBasic.substitute.eq_def] at hbody
      cases t with
      | ident p =>
        dsimp only at hbody
        split at hbody
        · obtain ⟨v, -, hbody⟩ := LineBasic.bind_eq_ok.1 hbody
          exact behind hts hbody
        · exact behind hts hbody
      | _ => exact behind hts hbody

def LeadsTo (functions : Table String FunctionDef) (g h : String) : Prop :=
  ∃ f, functions.get? ("FN" ++ g) = some f ∧ CallsByName h f.body ∧ h ∉ f.params

def ReachesCycle (functions : Table String FunctionDef) (f : String) : Prop :=
  ∃ g, Relation.ReflTransGen (LeadsTo functions) f g ∧ Relation.TransGen (LeadsTo functions) g g

/-- There is always a next function, from which one comes to a cycle too. -/
theorem ReachesCycle.next {functions : Table String FunctionDef} {f : String}
    (h : ReachesCycle functions f) :
    ∃ g, LeadsTo functions f g ∧ ReachesCycle functions g := by
  obtain ⟨c, hreach, hcycle⟩ := h
  rcases hreach.cases_head with rfl | ⟨g, hstep, hreach⟩
  · obtain ⟨g, hstep, hback⟩ := Relation.TransGen.head'_iff.1 hcycle
    exact ⟨g, hstep, f, hback, hcycle⟩
  · exact ⟨g, hstep, c, hreach, hcycle⟩

theorem find?_zip_eq_none {name : String} {params : List String} (h : name ∉ params)
    (args : List Value) : Table.find? name (params.zip args) = none := by
  cases hfound : Table.find? name (params.zip args) with
  | none => rfl
  | some v => exact absurd (List.of_mem_zip (Table.mem_of_find?_eq_some hfound)).1 h

theorem CallsByName.ne_nil {name : String} {tokens : List Token} (h : CallsByName name tokens) :
    tokens ≠ [] := by
  obtain ⟨before, after, rfl⟩ := h
  exact List.append_ne_nil_of_right_ne_nil _ (List.cons_ne_nil _ _)

/-- Tokens that have all been taken, of which there are some, leave no rest. -/
theorem called_of_evaluateWith {call : Call}
    (hcall : ∀ home key args, Obeys .evaluation (call home key args)) {name : String}
    {tokens : List Token} {items : List Item} {m m' : Machine} (hname : CallsByName name tokens)
    (h : evaluateWith call ignore tokens m = .ok (items, tokens.length) m') :
    Called call name m := by
  obtain ⟨⟨items', rest⟩, m₁, hscan, h⟩ := Run.bind_eq_ok.1 h
  simp only [pure_apply, EStateM.Result.ok.injEq, Prod.mk.injEq] at h
  have hpos : 0 < tokens.length := List.length_pos_iff.2 hname.ne_nil
  obtain rfl : rest = [] := List.eq_nil_of_length_eq_zero (by omega)
  exact called_of_scan hcall hname hscan

theorem called_of_evaluateSingleWith {call : Call}
    (hcall : ∀ home key args, Obeys .evaluation (call home key args)) {name : String}
    {tokens : List Token} {v : Value} {m m' : Machine} (hname : CallsByName name tokens)
    (h : evaluateSingleWith call tokens m = .ok v m') : Called call name m := by
  obtain ⟨⟨items, taken⟩, m₁, hevaluate, h⟩ := Run.bind_eq_ok.1 h
  dsimp only at h
  split at h
  · cases h
  · rename_i htaken
    cases Decidable.not_not.1 htaken
    exact called_of_evaluateWith hcall hname hevaluate

/-- A function from which one comes to a cycle has no value, however many levels are left: its body
calls another such function, with one level fewer. -/
theorem callDefined_ne_ok_of_cycle {n : Nat} {f : String} {args : List Value} {v : Value}
    {m m' : Machine} (h : ReachesCycle (m.moduleAt m.scopes.variableModule).functions f) :
    callDefined n m.scopes.variableModule ("FN" ++ f) args m ≠ .ok v m' := by
  intro hvalue
  induction n generalizing f args v m m' with
  | zero =>
    obtain ⟨g, ⟨d, hd, -, -⟩, -⟩ := h.next
    rw [callDefined.eq_def, get_bind, hd] at hvalue
    dsimp only at hvalue
    split at hvalue <;> cases hvalue
  | succ n ih =>
    obtain ⟨g, ⟨d, hd, hcalls, hparam⟩, hg⟩ := h.next
    rw [callDefined.eq_def, get_bind, hd] at hvalue
    dsimp only at hvalue
    split at hvalue
    · cases hvalue
    · obtain ⟨body, hbody, hvalue⟩ := liftM_bind_eq_ok.1 hvalue
      have hcalls' := hcalls.substitute (find?_zip_eq_none hparam args) hbody
      obtain ⟨args', v', m₁, m₂, hm₁, hcalled⟩ :=
        called_of_evaluateSingleWith (obeys_callDefined n) hcalls' hvalue
      rw [← hm₁.scopes] at hcalled
      refine ih ?_ hcalled
      rw [hm₁.scopes, hm₁.functions]
      exact hg

theorem not_called_of_cycle {n : Nat} {f : String} {m : Machine}
    (h : ReachesCycle (m.moduleAt m.scopes.variableModule).functions f) :
    ¬ Called (callDefined n) f m := by
  rintro ⟨args, v, m₁, m₂, hm₁, hcalled⟩
  rw [← hm₁.scopes] at hcalled
  refine callDefined_ne_ok_of_cycle ?_ hcalled
  rw [hm₁.scopes, hm₁.functions]
  exact h

/-- Every evaluation ends, though nothing but the depth of its calls bounds it: the depth stays
within its limit and is in the end what it was. A call of a function from which one comes to a cycle
ends in a fault, at whatever depth, and so does all that has such a call in it. -/
theorem recursive_functions_end_in_fault (m : Machine) :
    (∀ tokens, Settles (fun n => countedEvaluate n tokens) m {} (evaluate tokens m) ∧
      Settles (fun n => countedEvaluateSingle n tokens) m {} (evaluateSingle tokens m)) ∧
      ∀ f, ReachesCycle (m.moduleAt m.scopes.variableModule).functions f →
        (∀ (args : List Value) (r : Meter), r.depth ≤ maxCallDepth → r.peak ≤ maxCallDepth →
          ∃ fault m',
            callDefined (maxCallDepth - r.depth) m.scopes.variableModule ("FN" ++ f) args m =
              .error fault m' ∧
            Settles (fun n => countedCall (countedValue (countedScan n ignore {}))
              m.scopes.variableModule ("FN" ++ f) args) m r (.error fault m')) ∧
        ∀ tokens, CallsByName f tokens →
          (∃ fault m', evaluateSingle tokens m = .error fault m') ∧
          ∀ items m', evaluate tokens m ≠ .ok (items, tokens.length) m' := by
  refine ⟨fun tokens => ⟨?_, ?_⟩, fun f hf => ⟨fun args r hdepth hpeak => ?_,
    fun tokens hcalls => ⟨?_, fun items m' h => ?_⟩⟩⟩
  · exact (countedEvaluate_comes tokens m).settles (Nat.zero_le _)
  · exact (countedEvaluateSingle_comes tokens m).settles (Nat.zero_le _)
  · have hsettles := (countedCall_returns (Nat.add_sub_cancel' hdepth)
      m.scopes.variableModule ("FN" ++ f) args m).settles hpeak
    cases h : callDefined (maxCallDepth - r.depth) m.scopes.variableModule ("FN" ++ f) args m with
    | ok v m' => exact absurd h (callDefined_ne_ok_of_cycle hf)
    | error fault m' =>
      rw [h] at hsettles
      exact ⟨fault, m', rfl, hsettles⟩
  · cases h : evaluateSingle tokens m with
    | ok v m' =>
      exact absurd (called_of_evaluateSingleWith (obeys_callDefined maxCallDepth) hcalls h)
        (not_called_of_cycle hf)
    | error fault m' => exact ⟨fault, m', rfl⟩
  · exact not_called_of_cycle hf
      (called_of_evaluateWith (obeys_callDefined maxCallDepth) hcalls h)

/-- `DEF FN A(X)=FN B(X)+1`, `DEF FN B(X)=X*(FN A(X-1))`, and `DEF FN C(B)=2-FN A(B)` -/
def entangled : Machine :=
  (do
    Statement.define [.word .FN, .ident "A", .openParen, .ident "X", .closeParen, .operator .equal,
      .word .FN, .ident "B", .openParen, .ident "X", .closeParen, .operator .plus, .integer "1"]
    Statement.define [.word .FN, .ident "B", .openParen, .ident "X", .closeParen, .operator .equal,
      .ident "X", .operator .times, .openParen, .word .FN, .ident "A", .openParen, .ident "X",
      .operator .minus, .integer "1", .closeParen, .closeParen]
    Statement.define [.word .FN, .ident "C", .openParen, .ident "B", .closeParen, .operator .equal,
      .integer "2", .operator .minus, .word .FN, .ident "A", .openParen, .ident "B",
      .closeParen] : Run Unit).final {}

theorem reachesCycle_entangled :
    ReachesCycle (entangled.moduleAt entangled.scopes.variableModule).functions "C" := by
  have hab : LeadsTo (entangled.moduleAt entangled.scopes.variableModule).functions "A" "B" :=
    ⟨_, rfl, ⟨[], _, rfl⟩, by decide⟩
  have hba : LeadsTo (entangled.moduleAt entangled.scopes.variableModule).functions "B" "A" :=
    ⟨_, rfl, ⟨[_, _, _], _, rfl⟩, by decide⟩
  have hca : LeadsTo (entangled.moduleAt entangled.scopes.variableModule).functions "C" "A" :=
    ⟨_, rfl, ⟨[_, _], _, rfl⟩, by decide⟩
  exact ⟨"A", .single hca, .tail (.single hab) hba⟩

/-- `3+FN C(1)` -/
def detour : List Token :=
  [.integer "3", .operator .plus, .word .FN, .ident "C", .openParen, .integer "1", .closeParen]

theorem recursive_functions_end_in_fault_behind_detour :
    (∃ fault m', evaluateSingle detour entangled = .error fault m') ∧
      ∃ fault m', Settles
        (fun n => countedCall (countedValue (countedScan n ignore {})) 0 "FNC" [.integer 1])
        entangled { depth := 5, peak := 7 } (.error fault m') := by
  obtain ⟨-, hcycle⟩ := recursive_functions_end_in_fault entangled
  obtain ⟨hcall, htokens⟩ := hcycle "C" reachesCycle_entangled
  obtain ⟨fault, m', -, hsettles⟩ :=
    hcall [.integer 1] { depth := 5, peak := 7 } (by decide) (by decide)
  exact ⟨(htokens detour ⟨[_, _], _, rfl⟩).1, fault, m', hsettles⟩

end LineBasic
