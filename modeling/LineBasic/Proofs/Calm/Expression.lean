import LineBasic.Proofs.Calm

/-!
# Calm evaluation and places

Evaluation is calm. Places are found and filled by changes of variables, and modules that are
assigned to are made. A place that was found in an array stays there until the next `DIM`.
-/

set_option autoImplicit false

namespace LineBasic

open Run

theorem calm_evaluateEmitting {emit : Item → Run Unit} (hemit : ∀ item, Calm (emit item))
    (tokens : List Token) : Calm (evaluateEmitting emit tokens) :=
  obeys_evaluateEmitting Effect.evaluation_le_calm hemit tokens

theorem calm_evaluate (tokens : List Token) : Calm (evaluate tokens) :=
  (obeys_evaluate tokens).toCalm

theorem calm_evaluateAll (tokens : List Token) : Calm (evaluateAll tokens) :=
  (obeys_evaluateAll tokens).toCalm

theorem calm_evaluateSingle (tokens : List Token) : Calm (evaluateSingle tokens) :=
  (obeys_evaluateSingle tokens).toCalm

theorem calm_evaluateSubscripts (tokens : List Token) : Calm (evaluateSubscripts tokens) :=
  (obeys_evaluateSubscripts tokens).toCalm

theorem calm_touch (home : ModuleId) (name : String) :
    Calm (updateModule home fun mod => { mod with vars := mod.vars.touch name }) :=
  (obeys_touch home name).toCalm

def Place.FitsIn (m : Machine) (p : Place) : Prop := p.IsIn (m.moduleAt p.home).vars

theorem Place.FitsIn.calm {reads : Prop} {m m' : Machine} {p : Place} (h : p.FitsIn m)
    (hcalm : m.CalmBut reads m') : p.FitsIn m' :=
  h.keep (hcalm.arrays p.home)

theorem Place.FitsIn.run {α : Type} {m m' : Machine} {p : Place} {x : Run α} {a : α}
    (h : p.FitsIn m) (hx : Calm x) (hrun : x m = .ok a m') : p.FitsIn m' :=
  h.calm (hx.ok hrun)

theorem calmAt_store {m : Machine} {p : Place} (h : p.FitsIn m) (v : Value) :
    CalmAt m (p.store v) := by
  refine obeysAt_of_get ((obeys_liftM (p.ordinary_storeIn h v) m).bind fun vars m₁ hvars => ?_)
  obtain ⟨hstored, rfl⟩ := outcome_eq_ok.1 (liftM_apply _ _ ▸ hvars)
  exact calmAt_updateVars (fun hkinds => hkinds.storeIn hstored) (.storeIn hstored)

theorem calm_store_scalar (home : ModuleId) (name : String) (v : Value) :
    Calm ((Place.scalar home name).store v) := fun m =>
  calmAt_store (show (Place.scalar home name).FitsIn m from trivial) v

theorem calm_targetModule (t : Token) : Calm (targetModule t) := by
  cases t with
  | qualifier name => exact calm_ensureModule name
  | _ => exact obeys_get.bind fun _ => obeys_pure _

theorem calmAt_dimension {m : Machine} {home : ModuleId} {name : String} (bounds : List Nat)
    (hnone : (m.moduleAt home).vars.hasArray name = false) :
    CalmAt m (dimension home name bounds) := by
  refine obeysAt_of_get ((obeys_liftM (Variables.ordinary_dimension _ name bounds) m).bind
    fun vars m₁ hvars => ?_)
  obtain ⟨hmade, rfl⟩ := outcome_eq_ok.1 (liftM_apply _ _ ▸ hvars)
  exact calmAt_updateVars (fun hkinds => hkinds.dimension hmade) (.dimension hnone hmade)

theorem calm_targetPlace (home : ModuleId) (ref : Reference) :
    Calm (targetPlace home ref) := by
  rw [targetPlace]
  split
  · exact (calm_touch home ref.name).bind fun _ => obeys_pure _
  · refine (calm_evaluateSubscripts _).bind fun index => obeys_of_get fun m => ?_
    have located : Calm (do
        let offset ← ((← get).moduleAt home).vars.arrayOffset ref.name index
        return Place.element home ref.name offset) :=
      obeys_get.bind fun _ => (obeys_liftM (Variables.ordinary_arrayOffset _ _ _)).bind fun _ =>
        obeys_pure _
    dsimp only
    split
    · rename_i hnew
      exact (calmAt_dimension _ (by simpa using hnew)).bind fun _ m₁ _ => located m₁
    · exact located m

theorem yieldsAt_targetPlace (home : ModuleId) (ref : Reference) (m : Machine) :
    YieldsAt m (targetPlace home ref) fun place m' => place.FitsIn m' := by
  rw [targetPlace]
  split
  · exact .bind fun _ _ _ => .pure trivial
  · refine .bind fun index _ _ => .bind fun _ _ _ => ?_
    have located (m : Machine) : YieldsAt m (do
        let offset ← ((← get).moduleAt home).vars.arrayOffset ref.name index
        return Place.element home ref.name offset : Run Place) fun place m' => place.FitsIn m' := by
      refine .bind fun m₁ _ hm => .bind fun offset m' hoffset => ?_
      obtain ⟨hfound, rfl⟩ := outcome_eq_ok.1 (liftM_apply _ _ ▸ hoffset)
      cases hm
      exact .pure (Variables.hasElement_of_arrayOffset hfound)
    dsimp only
    split
    · exact .bind fun _ m₁ _ => located m₁
    · exact located _

theorem calm_takeTarget (tokens : List Token) : Calm (takeTarget tokens) := by
  cases tokens with
  | nil => exact obeys_throw (by decide)
  | cons t ts =>
    rw [takeTarget]
    dsimp only
    split
    · exact obeys_throw (by decide)
    · refine (calm_targetModule t).bind fun home => ?_
      refine (obeys_liftM (Reference.ordinary_split (by decide) _)).bind fun split => ?_
      exact (calm_targetPlace home split.1).bind fun _ => obeys_pure _

theorem yieldsAt_takeTarget (tokens : List Token) (m : Machine) :
    YieldsAt m (takeTarget tokens) fun target m' => target.1.FitsIn m' := by
  cases tokens with
  | nil => exact .throw
  | cons t ts =>
    rw [takeTarget]
    dsimp only
    split
    · exact .throw
    · refine .bind fun home _ _ => .bind fun split m₁ _ => .bind fun place m₂ hplace => ?_
      exact .pure (yieldsAt_targetPlace home split.1 m₁ place m₂ hplace)

theorem obeys_visitNames {α : Type} {F : Effect} (hmodule : ∀ t, Obeys F (targetModule t))
    {rule : NameList} (hname : rule.notName.Ordinary) (hmissing : rule.missing.Ordinary)
    {visit : ModuleId → Reference → Run α} (hvisit : ∀ home ref, Obeys F (visit home ref))
    (tokens : List Token) : Obeys F (visitNames rule visit tokens) :=
  visitNames_rule (Q := Obeys F) obeys_pure .bind (obeys_throw hname)
    (fun _ f hf => obeys_throw (Reference.ordinary_split hmissing _ f hf))
    (obeys_throw (by decide)) hmodule hvisit tokens

theorem calm_visitNames {α : Type} {rule : NameList} (hname : rule.notName.Ordinary)
    (hmissing : rule.missing.Ordinary) {visit : ModuleId → Reference → Run α}
    (hvisit : ∀ home ref, Calm (visit home ref)) (tokens : List Token) :
    Calm (visitNames rule visit tokens) :=
  obeys_visitNames calm_targetModule hname hmissing hvisit tokens

/-- What is so of an entry when it has been visited is so of all in the end, if later entries keep
it. -/
theorem yieldsAt_visitNames_rule {α : Type} {rule : NameList}
    {visit : ModuleId → Reference → Run α} {I : Machine → Prop} {P : α → Machine → Prop}
    (hvisit : ∀ {t ref home a m m₁ m₂}, I m → targetModule t m = .ok home m₁ →
      visit home ref m₁ = .ok a m₂ → I m₂ ∧ P a m₂)
    (hkeep : ∀ {tokens found a m m'}, visitNames rule visit tokens m = .ok found m' →
      P a m → P a m')
    (tokens : List Token) {m : Machine} (hm : I m) :
    YieldsAt m (visitNames rule visit tokens) fun found m' => ∀ a ∈ found, P a m' := by
  cases tokens with
  | nil =>
    rw [visitNames]
    split
    · exact .pure (List.forall_mem_nil _)
    · exact .throw
  | cons t ts =>
    rw [visitNames]
    dsimp only
    split
    · exact .throw
    · refine .bind fun home m₁ hhome => ?_
      split
      · exact .throw
      · rename_i ref rest h
        have hrest := (Reference.length_split h).1
        refine .bind fun a m₂ ha => ?_
        obtain ⟨hm₂, hfirst⟩ := hvisit hm hhome ha
        split
        · exact .pure (List.forall_mem_singleton.2 hfirst)
        · rename_i more
          have hmore : more.length < (t :: ts).length := by
            rw [List.length_cons] at hrest
            omega
          refine .bind fun found m₃ hfound => .pure (List.forall_mem_cons.2 ⟨?_, ?_⟩)
          · exact hkeep hfound hfirst
          · exact yieldsAt_visitNames_rule hvisit hkeep more hm₂ found m₃ hfound
        · exact .throw
termination_by tokens.length
decreasing_by all_goals (simp only [List.length_cons] at *; omega)

/-- Places that were found one after another are all there in the end. -/
theorem yieldsAt_visitNames {rule : NameList} (hname : rule.notName.Ordinary)
    (hmissing : rule.missing.Ordinary) (tokens : List Token) (m : Machine) :
    YieldsAt m (visitNames rule targetPlace tokens) fun places m' =>
      ∀ p ∈ places, p.FitsIn m' := by
  refine yieldsAt_visitNames_rule (I := fun _ => True) (fun _ _ hplace => ⟨trivial, ?_⟩)
    (fun hfound hp => ?_) tokens trivial
  · exact yieldsAt_targetPlace _ _ _ _ _ hplace
  · exact hp.calm ((calm_visitNames hname hmissing calm_targetPlace _).ok hfound)

theorem calm_afterEqual (tokens : List Token) : Calm (afterEqual tokens) := by
  rw [afterEqual.eq_def]
  split
  · exact obeys_pure _
  · exact obeys_fail (by decide) _

end LineBasic
