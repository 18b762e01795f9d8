import LineBasic.Proofs.Calm.Expression
import LineBasic.Statement

/-!
# Calm statements

Statements that assign, read, ask and print are calm, and so is what the others compute before they
act. Each lemma follows the statement that it is about.
-/

set_option autoImplicit false

namespace LineBasic

open Run

theorem Listing.nonneg_of_mem_range {l : Listing} {first last : LineNumber}
    {e : LineNumber × String} (h : e ∈ l.range first last) : 0 ≤ e.1 := by
  simp only [range, inRange, List.mem_filter, Bool.and_eq_true, decide_eq_true_eq] at h
  exact h.2.1.1

namespace Statement

theorem calm_assign (tokens : List Token) : Calm (assign tokens) := by
  intro m
  refine (calm_takeTarget tokens m).bind fun target m₁ htarget => ?_
  have h₁ := yieldsAt_takeTarget tokens m target m₁ htarget
  refine (calm_afterEqual target.2 m₁).bind fun behind m₂ hbehind => ?_
  have h₂ := h₁.run (calm_afterEqual _) hbehind
  refine (calm_evaluateAll behind m₂).bind fun items m₃ hitems => ?_
  have h₃ := h₂.run (calm_evaluateAll behind) hitems
  refine (obeys_liftM (by simp) m₃).bind fun v m₄ hv => ?_
  exact calmAt_store (h₃.run (obeys_liftM (by simp)) hv) v

theorem calm_defineAs (fnCall : Bool) (tokens : List Token) :
    Calm (defineAs fnCall tokens) := by
  rw [defineAs.eq_def]
  split
  · refine (obeys_liftM (by simp)).bind fun _ => (calm_afterEqual _).bind fun body => ?_
    dsimp only
    split
    · exact obeys_fail (by decide) _
    · exact calm_updateVariableModule fun _ => .of_eq rfl rfl rfl rfl
  · exact obeys_fail (by decide) _

theorem calm_define (tokens : List Token) : Calm (define tokens) := by
  rw [define.eq_def]
  split <;> exact calm_defineAs _ _

theorem calm_dump : Calm dump := obeys_get.bind fun _ => calm_print _

theorem calm_lineArgument (tokens : List Token) : Calm (lineArgument tokens) :=
  (calm_evaluateSingle tokens).bind fun _ => (obeys_liftM (by simp)).bind fun _ => obeys_pure _

theorem calm_list (tokens : List Token) : Calm (list tokens) :=
  (obeys_liftM (by simp)).bind fun _ => obeys_get.bind fun _ => calm_printLines _

/-- Reading goes on in the line where it is, or in one of the program. -/
theorem reading_moveData {m : Machine} {n : LineNumber} (index : Nat)
    (h : m.codeModule.data.line = some n ∨ 0 ≤ n) :
    ObeysAt (.calmBut True) m
      (updateCodeModule fun mod => { mod with data := ⟨some n, index⟩ }) := by
  refine obeysAt_modify (.moveData m ?_)
  rcases h with h | h
  · exact .inl h.symm
  · refine .inr ?_
    rintro _ ⟨⟩
    exact h

theorem reading_readFrom_cons {m : Machine} {line : LineNumber × String} {index : Nat}
    {more : List (LineNumber × String)} (h : m.codeModule.data.line = some line.1 ∨ 0 ≤ line.1)
    (hmore : Reading (readFrom 0 more)) :
    ObeysAt (.calmBut True) m (readFrom index (line :: more)) := by
  refine (reading_moveData index h).bind fun _ m₁ hmoved => obeysAt_of_get ?_
  refine (obeys_liftM (by simp) m₁).bind fun items m₂ hitems => ?_
  obtain ⟨-, rfl⟩ := outcome_eq_ok.1 (liftM_apply _ _ ▸ hitems)
  have hhere : m₂.codeModule.data.line = some line.1 ∨ 0 ≤ line.1 := by
    refine h.imp_left fun h => ?_
    cases hmoved
    change ((m.updateModule m.scopes.codeModule _).moduleAt m.scopes.codeModule).data.line = _
    rw [Machine.moduleAt_updateModule]
    split
    · rfl
    · exact h
  split
  · exact (reading_moveData _ hhere).bind fun _ m₃ _ => obeys_pure _ m₃
  · exact hmore m₂

theorem reading_readFrom {lines : List (LineNumber × String)} (h : ∀ e ∈ lines, 0 ≤ e.1)
    (index : Nat) : Reading (readFrom index lines) := by
  induction lines generalizing index with
  | nil => exact obeys_throw (by decide)
  | cons line more ih =>
    obtain ⟨hline, hmore⟩ := List.forall_mem_cons.1 h
    exact fun m => reading_readFrom_cons (.inr hline) (ih hmore 0)

theorem reading_readItem : Reading readItem := by
  refine obeys_of_get fun m => ?_
  dsimp only
  split
  · rename_i n hn
    exact reading_readFrom_cons (.inl hn)
      (reading_readFrom (fun _ => Listing.nonneg_of_mem_range) 0)
  · exact reading_readFrom (fun _ => Listing.nonneg_of_mem_range) 0 m

theorem reading_readInto (home : ModuleId) (ref : Reference) : Reading (readInto home ref) := by
  intro m
  refine ((calm_targetPlace home ref).reading m).bind fun place m₁ hplace => ?_
  have hfits := yieldsAt_targetPlace home ref m place m₁ hplace
  refine (reading_readItem m₁).bind fun v m₂ hv => ?_
  dsimp only
  split
  · exact obeys_fail (by decide) _ m₂
  · have hstill : place.FitsIn m₂ := hfits.calm (reading_readItem.ok hv)
    exact (calmAt_store hstill v).mono (Effect.calm_le_calmBut True)

theorem reading_read (tokens : List Token) : Reading (read tokens) := by
  rw [read]
  dsimp only
  split
  · exact obeys_fail (by decide) _
  · exact (obeys_visitNames (fun t => (calm_targetModule t).reading) (by decide) (by decide)
      reading_readInto tokens).bind fun _ => obeys_pure _

theorem reading_restore (tokens : List Token) : Reading (restore tokens) := by
  rw [restore]
  split
  · exact fun m => obeysAt_modify (.moveData m (.inr fun _ hn => by cases hn))
  · refine (calm_lineArgument tokens).reading.bind fun n => obeys_of_get fun m => ?_
    dsimp only
    split
    · exact obeys_throw (by decide) m
    · rename_i htarget
      simp only [Bool.not_eq_true', Bool.not_eq_false, isTarget, Bool.and_eq_true,
        decide_eq_true_eq] at htarget
      exact reading_moveData 0 (.inr htarget.1)

theorem calmAt_storeField {m : Machine} {place : Place} (h : place.FitsIn m) (field : String) :
    CalmAt m (storeField place field) := by
  rw [storeField]
  split
  · exact calmAt_store h _
  · refine (obeys_liftM (by simp) m).bind fun v m₁ hv => ?_
    exact calmAt_store (h.run (obeys_liftM (by simp)) hv) _

theorem calm_readFields : Calm readFields :=
  calm_readLine.bind fun _ => obeys_pure _

theorem calm_nextField (n : Nat) (left : List String) : Calm (nextField n left) := by
  induction n generalizing left with
  | zero =>
    cases left with
    | nil => exact (calm_print _).bind fun _ => obeys_throw (by decide)
    | cons field more => exact obeys_pure _
  | succ n ih =>
    cases left with
    | nil => exact (calm_print _).bind fun _ => calm_readFields.bind fun more => ih more
    | cons field more => exact obeys_pure _

theorem calm_waitingLines : Calm waitingLines := obeys_get.bind fun _ => obeys_pure _

def PlacesFit (m : Machine) (places : List Place) : Prop := ∀ p ∈ places, p.FitsIn m

theorem PlacesFit.calm {m m' : Machine} {places : List Place} (h : PlacesFit m places)
    (hcalm : m.Calm m') : PlacesFit m' places := fun p hp => (h p hp).calm hcalm

theorem PlacesFit.run {α : Type} {m m' : Machine} {places : List Place} {x : Run α} {a : α}
    (h : PlacesFit m places) (hx : CalmAt m x) (hrun : x m = .ok a m') : PlacesFit m' places :=
  h.calm (hx.ok hrun)

theorem calmAt_fillPlaces {m : Machine} (left : List String) {places : List Place}
    (h : PlacesFit m places) : CalmAt m (fillPlaces left places) := by
  induction places generalizing left m with
  | nil => exact obeys_pure _ m
  | cons place places ih =>
    refine (calm_waitingLines m).bind fun n m₁ hn => ?_
    have h₁ := h.run (calm_waitingLines m) hn
    refine (calm_nextField n left m₁).bind fun next m₂ hnext => ?_
    obtain ⟨hplace, hplaces⟩ := List.forall_mem_cons.1 (h₁.run (calm_nextField n left m₁) hnext)
    have hstore := calmAt_storeField hplace next.1
    exact hstore.bind fun _ m₃ hstored => ih next.2 (PlacesFit.run hplaces hstore hstored)

theorem calmAt_ask {m : Machine} (prompt : String) {places : List Place} (n : Nat)
    (h : PlacesFit m places) : CalmAt m (ask prompt places n) := by
  induction n generalizing m with
  | zero => exact (calm_print _).bind (fun _ => obeys_throw (by decide)) m
  | succ n ih =>
    refine (calm_print prompt m).bind fun _ m₁ hprint => ?_
    have h₁ := h.run (calm_print prompt m) hprint
    refine ObeysAt.tryCatch ?_ fun f m₂ hcalm hf => ?_
    · refine (calm_readFields m₁).bind fun line m₂ hline => ?_
      exact calmAt_fillPlaces line (h₁.run (calm_readFields m₁) hline)
    · dsimp only
      split
      · exact obeysAt_throw hf
      · have h₂ := h₁.calm hcalm
        exact (calm_print _ m₂).bind fun _ m₃ hagain => ih (h₂.run (calm_print _ m₂) hagain)

theorem calm_inputPlaces (tokens : List Token) : Calm (inputPlaces tokens) :=
  calm_visitNames (by decide) (by decide) calm_targetPlace tokens

theorem placesFit_of_inputPlaces {tokens : List Token} {m m' : Machine} {places : List Place}
    (h : inputPlaces tokens m = .ok places m') : PlacesFit m' places :=
  yieldsAt_visitNames (by decide) (by decide) tokens m places m' h

theorem calm_askFor (prompt : String) (tokens : List Token) :
    Calm (askFor prompt tokens) := by
  intro m
  refine (calm_inputPlaces tokens m).bind fun places m₁ hplaces => ?_
  have hfit := placesFit_of_inputPlaces hplaces
  refine (calm_waitingLines m₁).bind fun n m₂ hn => ?_
  exact calmAt_ask _ n (hfit.run (calm_waitingLines m₁) hn)

theorem calmAt_fillFromFile {m : Machine} (handle : Nat) (left : List String) {places : List Place}
    (h : PlacesFit m places) : CalmAt m (fillFromFile handle left places) := by
  induction places generalizing left m with
  | nil => exact obeys_pure _ m
  | cons place places ih =>
    have filled {m : Machine} (h : PlacesFit m (place :: places)) (field : String)
        (more : List String) : CalmAt m (do
          storeField place field
          fillFromFile handle more places) := by
      obtain ⟨hplace, hplaces⟩ := List.forall_mem_cons.1 h
      have hstore := calmAt_storeField hplace field
      exact hstore.bind fun _ m₁ hstored => ih more (PlacesFit.run hplaces hstore hstored)
    have moved (lines : List String) : CalmAt m (modify fun m =>
        { m with files := m.files.insert handle (.reading lines) }) := calm_world (by simp) m
    refine obeysAt_of_get ?_
    split
    · exact filled h _ _
    · split
      · exact (moved []).bind fun _ m₁ _ => obeys_fail (by decide) _ m₁
      · exact (moved _).bind fun _ m₁ hmoved => filled (h.run (moved _) hmoved) _ _
    · exact obeys_throw (by decide) m

theorem calm_input (tokens : List Token) : Calm (input tokens) := by
  rw [input.eq_def]
  split
  · refine (obeys_liftM (by simp)).bind fun handle m => ?_
    refine (calm_inputPlaces _ m).bind fun places m₁ hplaces => ?_
    exact calmAt_fillFromFile handle [] (placesFit_of_inputPlaces hplaces)
  · exact calm_askFor _ _
  · exact calm_askFor _ _
  · exact obeys_throw (by decide)
  · exact calm_askFor _ _

theorem calm_readKey : Calm readKey := by
  refine obeys_get.bind fun m => (calm_world (by simp)).bind fun _ => ?_
  exact obeys_liftM m.host.ordinary_readKey

theorem calm_getKey (wait : Bool) (tokens : List Token) : Calm (getKey wait tokens) := by
  intro m
  refine (calm_takeTarget tokens m).bind fun target m₁ htarget => ?_
  have hfits := yieldsAt_takeTarget tokens m target m₁ htarget
  rcases target with ⟨place, rest⟩
  dsimp only
  split
  · exact obeys_throw (by decide) m₁
  · refine obeysAt_of_get ?_
    split
    · exact (calm_readKey m₁).bind fun _ m₂ hkey => calmAt_store (hfits.run calm_readKey hkey) _
    · exact calmAt_store hfits _

theorem calm_loopVariable (tokens : List Token) : Calm (loopVariable tokens) := by
  cases tokens with
  | nil => exact obeys_throw (by decide)
  | cons t ts =>
    rw [loopVariable]
    dsimp only
    split
    · exact obeys_throw (by decide)
    · refine (obeys_qualifiedModule t).bind fun home => ?_
      refine (obeys_liftM (Reference.ordinary_split (by decide) _)).bind fun name => ?_
      split
      · exact (calm_touch home _).bind fun _ => obeys_pure _
      · refine (calm_evaluateSubscripts _).bind fun index => obeys_get.bind fun m => ?_
        split
        · exact (obeys_liftM (by simp)).bind fun _ => obeys_throw (by decide)
        · exact obeys_throw (by decide)

theorem calm_loopStart (tokens : List Token) : Calm (loopStart tokens) := by
  refine (calm_evaluate tokens).bind fun result => ?_
  rcases result with ⟨items, taken⟩
  dsimp only
  split
  · exact (obeys_liftM (by simp)).bind fun _ => obeys_pure _
  · exact obeys_fail (by decide) _

theorem calm_loopLimit (tokens : List Token) : Calm (loopLimit tokens) :=
  (calm_evaluate tokens).bind fun _ => (obeys_liftM (by simp)).bind fun _ =>
    (obeys_liftM (by simp)).bind fun _ => obeys_pure _

theorem calm_loopStep (tokens : List Token) : Calm (loopStep tokens) := by
  rw [loopStep.eq_def]
  split
  · exact obeys_pure _
  · refine (calm_evaluateAll _).bind fun _ => ?_
    exact (obeys_liftM (by simp)).bind fun _ => obeys_liftM (by simp)
  · exact obeys_throw (by decide)

theorem calm_nextTargets (tokens : List Token) : Calm (nextTargets tokens) := by
  fun_induction nextTargets tokens with
  | case1 => exact obeys_pure _
  | case2 => exact obeys_get.bind fun _ => obeys_pure _
  | case3 name ts ih => exact obeys_get.bind fun _ => ih.bind fun _ => obeys_pure _
  | case4 => exact (obeys_findModule _).bind fun _ => obeys_pure _
  | case5 q name ts ih =>
    exact (obeys_findModule q).bind fun _ => ih.bind fun _ => obeys_pure _
  | case6 => exact (obeys_findModule _).bind fun _ => obeys_throw (by decide)
  | case7 => exact obeys_throw (by decide)

theorem calm_printItem (item : Item) : Calm (printItem item) :=
  obeys_get.bind fun _ => calm_print _

theorem calm_printItems (tokens : List Token) : Calm (printItems tokens) := by
  refine (calm_evaluateEmitting calm_printItem tokens).bind fun result => ?_
  rcases result with ⟨items, taken⟩
  dsimp only
  split
  · exact obeys_throw (by decide)
  · split
    · exact calm_print _
    · exact obeys_pure _

theorem calm_printUsing (tokens : List Token) : Calm (printUsing tokens) := by
  refine (calm_evaluateAll tokens).bind fun items => ?_
  split
  · exact obeys_throw (by decide)
  · refine (obeys_liftM (by simp)).bind fun text => (calm_print text).bind fun _ => ?_
    split
    · exact calm_print _
    · exact obeys_pure _
  · exact obeys_fail (by decide) _

theorem calm_printList (tokens : List Token) : Calm (printList tokens) := by
  rw [printList.eq_def]
  split
  · exact calm_printUsing _
  · exact calm_printItems _

theorem calm_printingTo {α : Type} (file : Option Nat) {act : Run α} (h : Calm act) :
    Calm (printingTo file act) := by
  intro m
  have hstart : m.Calm { m with printFile := file } := .of_eq rfl rfl rfl rfl rfl
  have hact := h { m with printFile := file }
  have hcalm : m.Calm (act.final { m with printFile := file }) := hstart.trans hact.leads
  rw [final] at hcalm
  cases hm : act { m with printFile := file } with
  | ok a m₁ =>
    rw [hm] at hcalm
    have hrun : printingTo file act m = .ok a { m₁ with printFile := none } := by
      rw [printingTo, hm]
    exact obeysAt_of_ok hrun (hcalm.trans (.of_eq rfl rfl rfl rfl rfl))
  | error f m₁ =>
    rw [hm] at hcalm
    have hrun : printingTo file act m = .error f { m₁ with printFile := none } := by
      rw [printingTo, hm]
    exact obeysAt_of_error hrun (hcalm.trans (.of_eq rfl rfl rfl rfl rfl)) (hact.raises f m₁ hm)

theorem calm_print (tokens : List Token) : Calm (print tokens) := by
  rw [print.eq_def]
  split
  · refine (obeys_liftM (by simp)).bind fun handle => obeys_get.bind fun m => ?_
    split
    · exact calm_printingTo _ (calm_printList _)
    · exact obeys_throw (by decide)
  · exact calm_printingTo _ (calm_printList _)

theorem calm_clearScreen : Calm clearScreen := calm_world (by simp)

theorem calm_condition (tokens : List Token) : Calm (condition tokens) :=
  (calm_evaluate tokens).bind fun _ => (obeys_liftM (by simp)).bind fun _ =>
    (obeys_liftM (by simp)).bind fun _ => obeys_pure _

end Statement

end LineBasic
