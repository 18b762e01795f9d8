import LineBasic.Proofs.Evaluation
import LineBasic.Proofs.Expression.Pass

/-!
# What an expression list hands on

A pass hands its items on one by one, and gives them all as its answer in the end. Whoever takes
them has got exactly those of the answer, in that order, with nothing but evaluation in between.
-/

set_option autoImplicit false

namespace LineBasic

open Run

structure Takes (emit : Item → Run Unit) (R : List Item → Machine → Machine → Prop) : Prop where
  evaluated : ∀ {m m'}, m.Evaluated m' → R [] m m'
  append : ∀ {xs ys m m₁ m₂}, R xs m m₁ → R ys m₁ m₂ → R (xs ++ ys) m m₂
  item : ∀ {x m m'}, emit x m = .ok () m' → R [x] m m'

theorem obeys_operandWith {call : Call}
    (hcall : ∀ home key args, Obeys .evaluation (call home key args)) (fnCall : Bool)
    (home : ModuleId) (ref : Reference) :
    Obeys .evaluation (operandWith call (scan call ignore {}) fnCall home ref) := by
  rw [operandWith]
  split
  · exact obeys_plainOperand hcall _ _ _
  · rename_i inner _
    have applied (args : List Value) := obeys_appliedOperand hcall fnCall home ref.name args
    dsimp only
    split
    · exact applied []
    · refine (obeys_scan hcall (fun _ _ h => h) (fun _ => obeys_pure _) {} inner).bind fun _ => ?_
      split
      · exact obeys_throw (by decide)
      · exact applied _

namespace Takes

variable {emit : Item → Run Unit} {R : List Item → Machine → Machine → Prop} (hR : Takes emit R)

include hR

theorem nothing (m : Machine) : R [] m m := hR.evaluated (.refl m)

theorem emitAll {items : List Item} {m m' : Machine} (h : emitAll emit items m = .ok () m') :
    R items m m' := by
  induction items generalizing m with
  | nil =>
    cases h
    exact hR.nothing _
  | cons item items ih =>
    obtain ⟨_, m₁, hitem, hitems⟩ := Run.bind_eq_ok.1 h
    exact hR.append (hR.item hitem) (ih hitems)

theorem separate {s s' : Scan} {mark : String} {m m' : Machine}
    (h : s.separate emit mark m = .ok s' m') :
    ∃ items, s'.items = s.items ++ items ∧ R items m m' := by
  obtain ⟨values, _, h⟩ := liftM_bind_eq_ok.1 h
  obtain ⟨_, m₁, hitems, h⟩ := Run.bind_eq_ok.1 h
  cases h
  exact ⟨_, rfl, hR.emitAll hitems⟩

theorem beforeToken {s s' : Scan} {t : Token} {m m' : Machine}
    (h : s.beforeToken emit t m = .ok s' m') :
    ∃ items, s'.items = s.items ++ items ∧ R items m m' := by
  rw [Scan.beforeToken] at h
  split at h
  · split at h
    · cases h
    · exact hR.separate h
  · cases h
    exact ⟨[], (List.append_nil _).symm, hR.nothing m⟩

theorem finish {s : Scan} {items : List Item} {m m' : Machine}
    (h : s.finish emit m = .ok items m') :
    ∃ last, items = s.items ++ last ∧ R last m m' := by
  rw [Scan.finish] at h
  split at h
  · cases h
  · obtain ⟨values, _, h⟩ := liftM_bind_eq_ok.1 h
    obtain ⟨_, m₁, hitems, h⟩ := Run.bind_eq_ok.1 h
    cases h
    exact ⟨_, rfl, hR.emitAll hitems⟩

/-- A token that is no name hands on what it completes. One that ends the pass completes nothing. -/
theorem step {s : Scan} {t : Token} {next : Option Scan} {m m' : Machine}
    (h : s.step emit t m = .ok next m') :
    ∃ items, (next.getD s).items = s.items ++ items ∧ R items m m' := by
  have same {next : Option Scan} (hitems : (next.getD s).items = s.items) :
      ∃ items, (next.getD s).items = s.items ++ items ∧ R items m m :=
    ⟨[], by rw [hitems, List.append_nil], hR.nothing m⟩
  have withValue {v : Value} {s' : Scan} (h : s.withValue v = .ok s') : s'.items = s.items := by
    obtain ⟨frame, _, h⟩ := LineBasic.bind_eq_ok.1 h
    cases h
    rfl
  have separated {mark : String} (h : (some <$> s.separate emit mark) m = .ok next m') :
      ∃ items, (next.getD s).items = s.items ++ items ∧ R items m m' := by
    rw [← bind_pure_comp] at h
    obtain ⟨s', m₁, hs, h⟩ := Run.bind_eq_ok.1 h
    cases h
    exact hR.separate hs
  cases t with
  | number | integer =>
    obtain ⟨v, _, h⟩ := liftM_bind_eq_ok.1 h
    obtain ⟨s', hs, h⟩ := liftM_bind_eq_ok.1 h
    cases h
    exact same (withValue hs)
  | string | literal =>
    obtain ⟨s', hs, h⟩ := liftM_bind_eq_ok.1 h
    cases h
    exact same (withValue hs)
  | unary | openParen =>
    obtain ⟨frame, _, h⟩ := liftM_bind_eq_ok.1 h
    cases h
    exact same rfl
  | word w =>
    cases h
    split
    · exact same rfl
    · exact same rfl
  | comma =>
    rw [Scan.step] at h
    split at h
    · exact separated h
    · cases h
  | operator op =>
    rw [Scan.step] at h
    split at h
    · exact separated h
    · split at h
      · obtain ⟨frame, _, h⟩ := liftM_bind_eq_ok.1 h
        cases h
        exact same rfl
      · cases h
  | closeParen =>
    rw [Scan.step] at h
    split at h
    · cases h
      exact same rfl
    · split at h
      · obtain ⟨frame, _, h⟩ := liftM_bind_eq_ok.1 h
        cases h
        exact same rfl
      · cases h
  | command | fileHandle => cases h
  | ident | qualifier =>
    cases h
    exact same rfl

/-- A pass hands on what it answers, beyond what it had handed on before. -/
theorem scan {call : Call} (hcall : ∀ home key args, Obeys .evaluation (call home key args))
    (tokens : List Token) (s : Scan) (m : Machine) :
    YieldsAt m (scan call emit s tokens) fun result m' =>
      ∃ more, result.1 = s.items ++ more ∧ R more m m' := by
  cases tokens with
  | nil =>
    intro result m' h
    rw [LineBasic.scan] at h
    obtain ⟨items, m₁, hfinish, h⟩ := Run.bind_eq_ok.1 h
    cases h
    exact hR.finish hfinish
  | cons t ts =>
    cases ht : t.startsName with
    | false =>
      rw [scan_other ht]
      refine .bind fun s₁ m₁ hbefore => .bind fun next m₂ hstep => ?_
      obtain ⟨before, hs₁, hR₁⟩ := hR.beforeToken hbefore
      obtain ⟨here, hnext, hR₂⟩ := hR.step hstep
      have joined {items more : List Item} {m' : Machine}
          (hmore : items = (next.getD s₁).items ++ more) (hR₃ : R more m₂ m') :
          ∃ more, items = s.items ++ more ∧ R more m m' := by
        refine ⟨before ++ (here ++ more), ?_, hR.append hR₁ (hR.append hR₂ hR₃)⟩
        rw [hmore, hnext, hs₁, List.append_assoc, List.append_assoc]
      cases next with
      | none =>
        refine .bind fun items m₃ hfinish => .pure ?_
        obtain ⟨last, hlast, hR₃⟩ := hR.finish hfinish
        exact joined hlast hR₃
      | some s₂ =>
        intro result m' h
        obtain ⟨more, hmore, hR₃⟩ := scan hcall ts s₂ m₂ result m' h
        exact joined hmore hR₃
    | true =>
      cases hsplit : Reference.split expectedName (t :: ts) with
      | error f =>
        rw [scan_unnamed ht hsplit]
        exact .bind fun _ _ _ => .bind fun _ _ _ => .throw
      | ok found =>
        obtain ⟨ref, behind⟩ := found
        have hbehind := (Reference.length_split hsplit).1
        rw [scan_name ht hsplit]
        refine .bind fun s₁ m₁ hbefore => .bind fun home m₂ hhome => .bind fun v m₃ hv => ?_
        intro result m' h
        obtain ⟨s₂, hs₂, h⟩ := liftM_bind_eq_ok.1 h
        obtain ⟨before, hs₁, hR₁⟩ := hR.beforeToken hbefore
        have hqualified : m₁.Evaluated m₂ := (obeys_qualifiedModule (F := .evaluation) t).ok hhome
        have hoperand : m₂.Evaluated m₃ := (obeys_operandWith hcall _ _ _).ok hv
        obtain ⟨more, hmore, hR₃⟩ := scan hcall behind _ m₃ result m' h
        obtain ⟨frame, _, hs₂⟩ := LineBasic.bind_eq_ok.1 hs₂
        cases hs₂
        have hR₂ := hR.append (hR.evaluated (hqualified.trans hoperand)) hR₃
        refine ⟨before ++ ([] ++ more), ?_, hR.append hR₁ hR₂⟩
        rw [hmore, List.nil_append, ← List.append_assoc, ← hs₁]
termination_by tokens.length
decreasing_by all_goals (simp only [List.length_cons] at *; omega)

theorem evaluateEmitting {tokens : List Token} {items : List Item} {taken : Nat} {m m' : Machine}
    (h : evaluateEmitting emit tokens m = .ok (items, taken) m') : R items m m' := by
  obtain ⟨⟨items', rest⟩, m₁, hscan, h⟩ := Run.bind_eq_ok.1 h
  cases h
  obtain ⟨more, hmore, hR⟩ := hR.scan (obeys_callDefined maxCallDepth) _ _ _ _ _ hscan
  cases hmore
  exact hR

end Takes

end LineBasic
