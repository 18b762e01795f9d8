import LineBasic.Machine

/-!
# Runs

How the parts of a run fit together: a fault ends it, and what was computed without the machine
leaves the machine as it is.
-/

set_option autoImplicit false

namespace LineBasic

@[simp] theorem ok_bind {α β : Type} (a : α) (f : α → Except Fault β) :
    (Except.ok a >>= f) = f a := rfl

@[simp] theorem error_bind {α β : Type} (e : Fault) (f : α → Except Fault β) :
    (Except.error e >>= f) = .error e := rfl

theorem bind_eq_ok {α β : Type} {x : Except Fault α} {f : α → Except Fault β} {b : β} :
    (x >>= f) = .ok b ↔ ∃ a, x = .ok a ∧ f a = .ok b := by
  cases x <;> simp

theorem eq_ok_of_toOption {α : Type} {x : Except Fault α} {a : α} (h : x.toOption = some a) :
    x = .ok a := by
  cases x with
  | error f => cases h
  | ok b =>
    cases h
    rfl

def outcome {α : Type} (m : Machine) : Except Fault α → EStateM.Result Fault Machine α
  | .ok a => .ok a m
  | .error f => .error f m

theorem outcome_eq_ok {α : Type} {m m' : Machine} {x : Except Fault α} {a : α} :
    outcome m x = .ok a m' ↔ x = .ok a ∧ m' = m := by
  cases x with
  | ok b => simp [outcome, eq_comm]
  | error f => simp [outcome]

namespace Run

variable {α β : Type}

theorem bind_apply (x : Run α) (f : α → Run β) (m : Machine) :
    (x >>= f) m = match x m with
      | .ok a m => f a m
      | .error e m => .error e m := by
  change EStateM.bind x f m = _
  unfold EStateM.bind
  cases x m <;> rfl

theorem tryCatch_apply (x : Run α) (f : Fault → Run α) (m : Machine) :
    tryCatch x f m = match x m with
      | .ok a m => .ok a m
      | .error e m => f e m := by
  change EStateM.tryCatch x f m = _
  delta EStateM.tryCatch
  cases x m <;> rfl

theorem bind_eq_ok {x : Run α} {f : α → Run β} {m m' : Machine} {b : β} :
    (x >>= f) m = .ok b m' ↔ ∃ a m₁, x m = .ok a m₁ ∧ f a m₁ = .ok b m' := by
  rw [bind_apply]
  constructor
  · intro h
    cases hx : x m with
    | error e m₁ => rw [hx] at h; cases h
    | ok a m₁ => rw [hx] at h; exact ⟨a, m₁, rfl, h⟩
  · rintro ⟨a, m₁, hx, h⟩
    rw [hx]
    exact h

theorem bind_eq_error {x : Run α} {f : α → Run β} {m m' : Machine} {e : Fault} :
    (x >>= f) m = .error e m' ↔
      x m = .error e m' ∨ ∃ a m₁, x m = .ok a m₁ ∧ f a m₁ = .error e m' := by
  rw [bind_apply]
  cases x m with
  | error e₁ m₁ => simp
  | ok a m₁ => simp [and_assoc]

@[simp] theorem pure_apply (a : α) (m : Machine) : (pure a : Run α) m = .ok a m := rfl

@[simp] theorem throw_apply (e : Fault) (m : Machine) : (throw e : Run α) m = .error e m := rfl

@[simp] theorem pure_bind_run (a : α) (f : α → Run β) : (pure a >>= f) = f a := rfl

@[simp] theorem throw_bind (e : Fault) (f : α → Run β) : (throw e >>= f) = (throw e : Run β) := rfl

@[simp] theorem liftM_ok (a : α) : (liftM (Except.ok a : Except Fault α) : Run α) = pure a := rfl

@[simp] theorem liftM_error (e : Fault) :
    (liftM (Except.error e : Except Fault α) : Run α) = throw e := rfl

theorem liftM_bind (x : Except Fault α) (f : α → Except Fault β) :
    (liftM (x >>= f) : Run β) = liftM x >>= fun a => liftM (f a) := by
  cases x <;> rfl

theorem liftM_apply (x : Except Fault α) (m : Machine) : (liftM x : Run α) m = outcome m x := by
  cases x <;> rfl

theorem liftM_bind_eq_ok {x : Except Fault α} {f : α → Run β} {m m' : Machine} {b : β} :
    (liftM x >>= f) m = .ok b m' ↔ ∃ a, x = .ok a ∧ f a m = .ok b m' := by
  cases x <;> simp

@[simp] theorem get_bind (f : Machine → Run β) (m : Machine) :
    ((get : Run Machine) >>= f) m = f m m := rfl

theorem enterCode_bind (f : Bool → Run β) (m : Machine) :
    (enterCode >>= f) m = f m.enterCode.1 m.enterCode.2 := rfl

theorem updateCodeModule_bind (g : Module → Module) (f : Unit → Run β) (m : Machine) :
    (updateCodeModule g >>= f) m = f () (m.updateCodeModule g) := rfl

def YieldsAt (m : Machine) (x : Run α) (Q : α → Machine → Prop) : Prop :=
  ∀ a m', x m = .ok a m' → Q a m'

theorem YieldsAt.pure {m : Machine} {a : α} {Q : α → Machine → Prop} (h : Q a m) :
    YieldsAt m (pure a) Q := by
  rintro _ _ ⟨⟩
  exact h

theorem YieldsAt.throw {m : Machine} {f : Fault} {Q : α → Machine → Prop} :
    YieldsAt m (throw f) Q := by
  rintro _ _ ⟨⟩

theorem YieldsAt.bind {m : Machine} {x : Run α} {f : α → Run β} {Q : β → Machine → Prop}
    (h : ∀ a m₁, x m = .ok a m₁ → YieldsAt m₁ (f a) Q) : YieldsAt m (x >>= f) Q := by
  intro b m' hb
  obtain ⟨a, m₁, ha, hb⟩ := bind_eq_ok.1 hb
  exact h a m₁ ha b m' hb

def AgreeAt (m : Machine) (x y : Run α) : Prop := x m = y m

theorem AgreeAt.refl (m : Machine) (x : Run α) : AgreeAt m x x := rfl

theorem AgreeAt.bind {m : Machine} {x y : Run α} {f g : α → Run β} (hx : AgreeAt m x y)
    (hf : ∀ a m₁, y m = .ok a m₁ → AgreeAt m₁ (f a) (g a)) : AgreeAt m (x >>= f) (y >>= g) := by
  rw [AgreeAt, bind_apply, bind_apply, hx]
  cases hy : y m with
  | error e m₁ => rfl
  | ok a m₁ => exact hf a m₁ hy

theorem checkBreak_apply (m : Machine) :
    checkBreak m =
      if m.host.poll.1 then .error (.plain .interrupted) { m with host := m.host.poll.2 }
      else .ok () { m with host := m.host.poll.2 } := by
  rw [checkBreak, get_bind]
  rcases m.host.poll with ⟨pressed, host⟩
  cases pressed <;> rfl

end Run

end LineBasic
