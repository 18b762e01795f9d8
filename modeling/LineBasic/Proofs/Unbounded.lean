import LineBasic.Proofs.Run

/-!
# Runs that nothing bounds

A loop or a recursion that has no bound of its own is tried with a limit on its rounds, and gives up
when it reaches the limit. It ends if some limit is enough, and then a higher one makes no
difference. Beside the machine it can keep a record of how it went. To end as another run does is
built up part by part, as runs are.
-/

set_option autoImplicit false

namespace LineBasic

abbrev Limited (ρ : Type) := ExceptT Fault (StateT (Machine × ρ) Option)

abbrev Unbounded (ρ α : Type) := Nat → Limited ρ α

namespace Limited

variable {ρ α : Type}

def giveUp : Limited ρ α := fun _ => none

def ending (r : ρ) : EStateM.Result Fault Machine α → Except Fault α × Machine × ρ
  | .ok a m => (.ok a, m, r)
  | .error f m => (.error f, m, r)

def lift (x : Run α) : Limited ρ α := fun s => some (ending s.2 (x s.1))

def caught (x : Limited ρ α) : Limited ρ (Except Fault α) := fun s =>
  (x s).map fun e => (.ok e.1, e.2)

def recorded : Limited ρ ρ := fun s => some (.ok s.2, s)

def record (f : ρ → ρ) : Limited ρ Unit := fun s => some (.ok (), s.1, f s.2)

end Limited

namespace Unbounded

open Limited

variable {ρ α β : Type} {R : ρ → ρ → Prop} {s : Machine × ρ}

def EndsAs (R : ρ → ρ → Prop) (s : Machine × ρ) (x : Unbounded ρ α) (y : Run α) : Prop :=
  ∃ r, R s.2 r ∧ ∃ limit, ∀ n, limit ≤ n → x n s = some (ending r (y s.1))

theorem EndsAs.succ {x : Unbounded ρ α} {y : Run α} (h : EndsAs R s (fun n => x (n + 1)) y) :
    EndsAs R s x y := by
  obtain ⟨r, hr, limit, hx⟩ := h
  refine ⟨r, hr, limit + 1, fun n hn => ?_⟩
  obtain ⟨k, rfl⟩ : ∃ k, n = k + 1 := ⟨n - 1, by omega⟩
  exact hx k (by omega)

theorem EndsAs.congr {x : Unbounded ρ α} {y y' : Run α} (h : EndsAs R s x y)
    (hy : y' s.1 = y s.1) : EndsAs R s x y' := by
  rw [EndsAs, hy]
  exact h

theorem endsAs_lift (hR : ∀ r, R r r) (y : Run α) : EndsAs R s (fun _ => lift y) y :=
  ⟨s.2, hR _, 0, fun _ _ => rfl⟩

theorem endsAs_pure (hR : ∀ r, R r r) (a : α) : EndsAs R s (fun _ => pure a) (pure a) :=
  endsAs_lift hR (pure a)

theorem endsAs_throw (hR : ∀ r, R r r) (f : Fault) :
    EndsAs R s (fun _ => (throw f : Limited ρ α)) (throw f) :=
  endsAs_lift hR (throw f)

theorem EndsAs.bind {x : Unbounded ρ α} {y : Run α} {f : Nat → α → Limited ρ β} {g : α → Run β}
    (hR : ∀ {r₁ r₂ r₃}, R r₁ r₂ → R r₂ r₃ → R r₁ r₃) (hx : EndsAs R s x y)
    (hf : ∀ a m r, y s.1 = .ok a m → R s.2 r → EndsAs R (m, r) (fun n => f n a) (g a)) :
    EndsAs R s (fun n => x n >>= f n) (y >>= g) := by
  obtain ⟨r, hr, limit, hx⟩ := hx
  rw [EndsAs, Run.bind_apply]
  cases hy : y s.1 with
  | error e m =>
    rw [hy] at hx
    refine ⟨r, hr, limit, fun n hn => ?_⟩
    change x n s >>= _ = _
    rw [hx n hn]
    rfl
  | ok a m =>
    rw [hy] at hx
    obtain ⟨r', hr', limit', hf⟩ := hf a m r hy hr
    refine ⟨r', hR hr hr', max limit limit', fun n hn => ?_⟩
    change x n s >>= _ = _
    rw [hx n (by omega)]
    exact hf n (by omega)

/-- A fault that is caught is handled, and then the run ends as its handler does. -/
theorem EndsAs.tryCatch {x : Unbounded ρ α} {y : Run α}
    {f : Nat → Except Fault α → Limited ρ α} {g : Fault → Run α}
    (hR : ∀ {r₁ r₂ r₃}, R r₁ r₂ → R r₂ r₃ → R r₁ r₃) (hx : EndsAs R s x y)
    (hok : ∀ n a, f n (.ok a) = pure a)
    (hf : ∀ e m r, y s.1 = .error e m → R s.2 r →
      EndsAs R (m, r) (fun n => f n (.error e)) (g e)) :
    EndsAs R s (fun n => caught (x n) >>= f n) (tryCatch y g) := by
  obtain ⟨r, hr, limit, hx⟩ := hx
  rw [EndsAs, Run.tryCatch_apply]
  cases hy : y s.1 with
  | error e m =>
    rw [hy] at hx
    obtain ⟨r', hr', limit', hf⟩ := hf e m r hy hr
    refine ⟨r', hR hr hr', max limit limit', fun n hn => ?_⟩
    change (x n s).map _ >>= _ = _
    rw [hx n (by omega)]
    exact hf n (by omega)
  | ok a m =>
    rw [hy] at hx
    refine ⟨r, hr, limit, fun n hn => ?_⟩
    change (x n s).map _ >>= _ = _
    rw [hx n hn]
    exact congrFun (hok n a) (m, r)

end Unbounded

end LineBasic
