import LineBasic.Proofs.Change
import LineBasic.Proofs.Ordinary

/-!
# Effects

An effect says what a run may do to the machine it runs on. It allows for doing nothing and for one
thing after another, and it leaves the registry alone. A run obeys an effect if the machine it
leaves behind is one that the effect allows, whether the run ends in a fault or not, and if its
faults are ordinary or come from the registry. A run obeys an effect if all its parts do.
-/

set_option autoImplicit false

namespace LineBasic

structure Effect where
  /-- A machine may become another one. -/
  Leads : Machine → Machine → Prop
  refl : ∀ m, Leads m m
  trans : ∀ {m m₁ m₂}, Leads m m₁ → Leads m₁ m₂ → Leads m m₂
  registry : ∀ {m m₁}, Leads m m₁ → m₁.registry = m.registry

instance : LE Effect where
  le F G := ∀ m m', F.Leads m m' → G.Leads m m'

namespace Run

variable {α β : Type} {F G : Effect}

structure ObeysAt (F : Effect) (m : Machine) (x : Run α) : Prop where
  leads : F.Leads m (x.final m)
  raises : ∀ f m', x m = .error f m' → m.registry.Raises f

def Obeys (F : Effect) (x : Run α) : Prop := ∀ m, ObeysAt F m x

theorem ObeysAt.ok {m m₁ : Machine} {x : Run α} {a : α} (hx : ObeysAt F m x)
    (h : x m = .ok a m₁) : F.Leads m m₁ := by
  have hleads := hx.leads
  rwa [final, h] at hleads

theorem Obeys.ok {x : Run α} (hx : Obeys F x) {m m₁ : Machine} {a : α} (h : x m = .ok a m₁) :
    F.Leads m m₁ := (hx m).ok h

theorem ObeysAt.mono {m : Machine} {x : Run α} (hx : ObeysAt F m x) (h : F ≤ G) :
    ObeysAt G m x :=
  ⟨h _ _ hx.leads, hx.raises⟩

theorem Obeys.mono {x : Run α} (hx : Obeys F x) (h : F ≤ G) : Obeys G x :=
  fun m => (hx m).mono h

theorem obeysAt_of_ok {m m₁ : Machine} {x : Run α} {a : α} (hx : x m = .ok a m₁)
    (h : F.Leads m m₁) : ObeysAt F m x where
  leads := by rw [final, hx]; exact h
  raises f m' hf := by rw [hx] at hf; cases hf

theorem obeysAt_of_error {m m₁ : Machine} {x : Run α} {f : Fault} (hx : x m = .error f m₁)
    (h : F.Leads m m₁) (hf : m.registry.Raises f) : ObeysAt F m x where
  leads := by rw [final, hx]; exact h
  raises f' m' hf' := by
    rw [hx] at hf'
    cases hf'
    exact hf

theorem obeys_pure (a : α) : Obeys F (pure a : Run α) := fun m => obeysAt_of_ok rfl (F.refl m)

theorem obeys_get : Obeys F (get : Run Machine) := fun m => obeysAt_of_ok rfl (F.refl m)

theorem obeysAt_throw {m : Machine} {f : Fault} (hf : m.registry.Raises f) :
    ObeysAt F m (throw f : Run α) :=
  obeysAt_of_error rfl (F.refl m) hf

theorem obeys_throw {f : Fault} (hf : f.Ordinary) : Obeys F (throw f : Run α) :=
  fun _ => obeysAt_throw (.ordinary hf)

theorem obeys_fail {kind : FaultKind} (h : kind ≠ .internal) (detail : String) :
    Obeys F (fail kind detail : Run α) :=
  obeys_throw ⟨rfl, h⟩

theorem obeysAt_liftM {m : Machine} {x : Except Fault α}
    (h : ∀ f, x = .error f → m.registry.Raises f) : ObeysAt F m (liftM x : Run α) := by
  cases x with
  | ok a => exact obeys_pure a m
  | error f => exact obeysAt_throw (h f rfl)

theorem obeys_liftM {x : Except Fault α} (h : Ordinary x) : Obeys F (liftM x : Run α) :=
  fun _ => obeysAt_liftM fun f hf => .ordinary (h f hf)

theorem ObeysAt.bind {m : Machine} {x : Run α} {f : α → Run β} (hx : ObeysAt F m x)
    (hf : ∀ a m₁, x m = .ok a m₁ → ObeysAt F m₁ (f a)) : ObeysAt F m (x >>= f) := by
  have hm := hx.leads
  rw [final] at hm
  cases h : x m with
  | error e m₁ =>
    rw [h] at hm
    exact obeysAt_of_error (by rw [bind_apply, h]) hm (hx.raises e m₁ h)
  | ok a m₁ =>
    rw [h] at hm
    have hbind : (x >>= f) m = f a m₁ := by rw [bind_apply, h]
    have ha := hf a m₁ h
    refine ⟨by rw [final, hbind]; exact F.trans hm ha.leads, fun e m' he => ?_⟩
    rw [hbind] at he
    rw [← F.registry hm]
    exact ha.raises e m' he

theorem Obeys.bind {x : Run α} {f : α → Run β} (hx : Obeys F x) (hf : ∀ a, Obeys F (f a)) :
    Obeys F (x >>= f) :=
  fun m => (hx m).bind fun a m₁ _ => hf a m₁

theorem Obeys.map {x : Run α} (hx : Obeys F x) (f : α → β) : Obeys F (f <$> x) := by
  rw [← bind_pure_comp]
  exact hx.bind fun a => obeys_pure (f a)

theorem ObeysAt.tryCatch {m : Machine} {x : Run α} {f : Fault → Run α} (hx : ObeysAt F m x)
    (hf : ∀ e m₁, F.Leads m m₁ → m₁.registry.Raises e → ObeysAt F m₁ (f e)) :
    ObeysAt F m (tryCatch x f) := by
  have hm := hx.leads
  rw [final] at hm
  cases h : x m with
  | ok a m₁ =>
    rw [h] at hm
    exact obeysAt_of_ok (by rw [tryCatch_apply, h]) hm
  | error e m₁ =>
    rw [h] at hm
    have hrun : MonadExcept.tryCatch x f m = f e m₁ := by rw [tryCatch_apply, h]
    have he := hf e m₁ hm (F.registry hm ▸ hx.raises e m₁ h)
    refine ⟨by rw [final, hrun]; exact F.trans hm he.leads, fun e' m' he' => ?_⟩
    rw [hrun] at he'
    rw [← F.registry hm]
    exact he.raises e' m' he'

theorem obeysAt_of_get {m : Machine} {f : Machine → Run α} (hf : ObeysAt F m (f m)) :
    ObeysAt F m (get >>= f) := ⟨hf.leads, hf.raises⟩

theorem obeys_of_get {f : Machine → Run α} (hf : ∀ m, ObeysAt F m (f m)) : Obeys F (get >>= f) :=
  fun m => obeysAt_of_get (hf m)

theorem obeysAt_set {m m' : Machine} (h : F.Leads m m') : ObeysAt F m (set m' : Run PUnit) :=
  obeysAt_of_ok rfl h

theorem obeysAt_modify {m : Machine} {f : Machine → Machine} (h : F.Leads m (f m)) :
    ObeysAt F m (modify f : Run Unit) :=
  obeysAt_of_ok rfl h

theorem obeys_findModule (name : String) : Obeys F (findModule name) := by
  refine obeys_get.bind fun m => ?_
  split
  · exact obeys_pure _
  · exact obeys_throw (by decide)

def FollowsAt (F : Effect) (m : Machine) (x : Run α) : Prop := F.Leads m (x.final m)

def Follows (F : Effect) (x : Run α) : Prop := ∀ m, FollowsAt F m x

theorem Obeys.follows {x : Run α} (h : Obeys F x) : Follows F x := fun m => (h m).leads

theorem Follows.ok {x : Run α} (h : Follows F x) {m m' : Machine} {a : α}
    (hx : x m = .ok a m') : F.Leads m m' := by
  have hm := h m
  rwa [FollowsAt, final, hx] at hm

theorem Follows.error {x : Run α} (h : Follows F x) {m m' : Machine}
    {f : Fault} (hx : x m = .error f m') : F.Leads m m' := by
  have hm := h m
  rwa [FollowsAt, final, hx] at hm

theorem FollowsAt.mono {m : Machine} {x : Run α} (h : FollowsAt F m x) (hle : F ≤ G) :
    FollowsAt G m x :=
  hle _ _ h

theorem Follows.mono {x : Run α} (h : Follows F x) (hle : F ≤ G) : Follows G x :=
  fun m => (h m).mono hle

@[simp] theorem follows_pure (a : α) : Follows F (pure a : Run α) := F.refl

@[simp] theorem follows_throw (f : Fault) : Follows F (throw f : Run α) := F.refl

@[simp] theorem follows_fail (kind : FaultKind) (detail : String) :
    Follows F (fail kind detail : Run α) :=
  F.refl

@[simp] theorem follows_get : Follows F (get : Run Machine) := F.refl

@[simp] theorem follows_liftM (x : Except Fault α) : Follows F (liftM x : Run α) := by
  cases x with
  | ok a => exact follows_pure a
  | error f => exact follows_throw f

theorem FollowsAt.bind {m : Machine} {x : Run α} {f : α → Run β} (hx : FollowsAt F m x)
    (hf : ∀ a m₁, x m = .ok a m₁ → FollowsAt F m₁ (f a)) : FollowsAt F m (x >>= f) := by
  rw [FollowsAt, final] at hx ⊢
  rw [bind_apply]
  cases h : x m with
  | error e m₁ =>
    rw [h] at hx
    exact hx
  | ok a m₁ =>
    rw [h] at hx
    exact F.trans hx (hf a m₁ h)

@[simp] theorem Follows.bind {x : Run α} {f : α → Run β} (hx : Follows F x)
    (hf : ∀ a, Follows F (f a)) : Follows F (x >>= f) :=
  fun m => (hx m).bind fun a m₁ _ => hf a m₁

@[simp] theorem Follows.map {x : Run α} (hx : Follows F x) (f : α → β) : Follows F (f <$> x) := by
  rw [← bind_pure_comp]
  exact hx.bind fun a => follows_pure (f a)

@[simp] theorem Follows.ite {c : Prop} [Decidable c] {x y : Run α} (hx : Follows F x)
    (hy : Follows F y) : Follows F (if c then x else y) := by
  split
  · exact hx
  · exact hy

theorem followsAt_of_get {m : Machine} {f : Machine → Run α} (hf : FollowsAt F m (f m)) :
    FollowsAt F m (get >>= f) := hf

theorem Follows.tryCatch {x : Run α} {f : Fault → Run α} (hx : Follows F x)
    (hf : ∀ e, Follows F (f e)) : Follows F (tryCatch x f) := by
  intro m
  have hm := hx m
  rw [FollowsAt, final] at hm ⊢
  rw [tryCatch_apply]
  cases h : x m with
  | ok a m₁ =>
    rw [h] at hm
    exact hm
  | error e m₁ =>
    rw [h] at hm
    exact F.trans hm (hf e m₁)

end Run

end LineBasic
