import LineBasic.Scopes

/-!
# The two stacks of scopes

Whatever is entered and left, the variable stack is the code stack, or the code stack with one
module on top of it, and the root module is at the bottom of both. That is more than a bound on
their heights: scopes that are in lockstep are the same, so leaving one leaves the other.
-/

set_option autoImplicit false

namespace LineBasic.Scopes

inductive Op where
  | enterVariables (id : ModuleId)
  | enterCode
  | leave
  | reset

def apply (s : Scopes) : Op → Scopes
  | .enterVariables id => s.enterVariables id
  | .enterCode => s.enterCode.2
  | .leave => s.leave.2
  | .reset => s.reset

def run (ops : List Op) : Scopes := ops.foldl apply {}

/-- The variable scope is at most one module ahead of the code, and both rest on the root. -/
structure Paired (s : Scopes) : Prop where
  follows : s.variableStack = s.codeStack ∨ ∃ id, s.variableStack = id :: s.codeStack
  variableRoot : s.variableStack.getLast? = some rootModule
  codeRoot : s.codeStack.getLast? = some rootModule

theorem popKeeping_cons {id : ModuleId} {ids : List ModuleId} (h : ids ≠ []) :
    popKeeping (id :: ids) = ids := by
  cases ids with
  | nil => exact absurd rfl h
  | cons x xs => rfl

theorem getLast?_popKeeping (ids : List ModuleId) : (popKeeping ids).getLast? = ids.getLast? := by
  match ids with
  | [] => rfl
  | [_] => rfl
  | _ :: y :: ys => exact (List.getLast?_cons_cons ..).symm

theorem length_popKeeping_le (ids : List ModuleId) : (popKeeping ids).length ≤ ids.length := by
  match ids with
  | [] => exact Nat.le_refl _
  | [_] => exact Nat.le_refl _
  | _ :: _ :: _ => exact Nat.le_succ _

theorem codeStack_enterVariables (s : Scopes) (id : ModuleId) :
    (s.enterVariables id).codeStack = s.codeStack := by
  rw [enterVariables]
  split <;> rfl

theorem codeStack_enterCode (s : Scopes) :
    s.enterCode.2.codeStack =
      if s.inLockstep then s.codeStack else s.variableModule :: s.codeStack := by
  rw [enterCode]
  split <;> rfl

theorem codeStack_leave (s : Scopes) :
    s.leave.2.codeStack = if s.inLockstep then popKeeping s.codeStack else s.codeStack := by
  rw [leave]
  split <;> rfl

/-- What is left of a stack when all but its lowest module are dropped. -/
theorem drop_of_getLast? {ids : List ModuleId} {id : ModuleId} (h : ids.getLast? = some id) :
    ids.drop (ids.length - 1) = [id] := by
  obtain ⟨front, rfl⟩ := List.getLast?_eq_some_iff.1 h
  simp

namespace Paired

variable {s : Scopes}

theorem codeStack_ne_nil (h : s.Paired) : s.codeStack ≠ [] := by
  intro hnil
  have hroot := h.codeRoot
  rw [hnil] at hroot
  cases hroot

/-- Scopes are level, or a module's variables are entered and its code is not. -/
theorem level_or_ahead (h : s.Paired) :
    (s.inLockstep = true ∧ s.variableStack = s.codeStack) ∨
      s.inLockstep = false ∧ ∃ id, s.variableStack = id :: s.codeStack := by
  rcases h.follows with hsame | ⟨id, hahead⟩
  · exact .inl ⟨by simp [inLockstep, hsame], hsame⟩
  · exact .inr ⟨by simp [inLockstep, hahead], id, hahead⟩

theorem variableStack_of_inLockstep (h : s.Paired) (hlevel : s.inLockstep = true) :
    s.variableStack = s.codeStack := by
  rcases h.level_or_ahead with ⟨-, hsame⟩ | ⟨hfalse, -⟩
  · exact hsame
  · rw [hlevel] at hfalse
    cases hfalse

theorem variableStack_of_ahead (h : s.Paired) (hahead : s.inLockstep = false) :
    s.variableStack = s.variableModule :: s.codeStack := by
  rcases h.level_or_ahead with ⟨htrue, -⟩ | ⟨-, id, hid⟩
  · rw [hahead] at htrue
    cases htrue
  · rw [variableModule, hid, List.headD_cons]

theorem codeModule_of_inLockstep (h : s.Paired) (hlevel : s.inLockstep = true) :
    s.codeModule = s.variableModule := by
  rw [codeModule, variableModule, h.variableStack_of_inLockstep hlevel]

/-- Every module whose code is entered has its variables entered. -/
theorem mem_variableStack (h : s.Paired) {id : ModuleId} (hid : id ∈ s.codeStack) :
    id ∈ s.variableStack := by
  rcases h.follows with hsame | ⟨other, hother⟩
  · rwa [hsame]
  · rw [hother]
    exact List.mem_cons_of_mem other hid

theorem variableModule_mem (h : s.Paired) : s.variableModule ∈ s.variableStack := by
  rw [variableModule]
  cases hs : s.variableStack with
  | nil =>
    have hroot := h.variableRoot
    rw [hs] at hroot
    cases hroot
  | cons id ids => exact List.mem_cons_self

theorem codeModule_mem (h : s.Paired) : s.codeModule ∈ s.codeStack := by
  rw [codeModule]
  cases hs : s.codeStack with
  | nil => exact absurd hs h.codeStack_ne_nil
  | cons id ids => exact List.mem_cons_self

theorem start : ({} : Scopes).Paired := ⟨.inl rfl, rfl, rfl⟩

theorem enterVariables (h : s.Paired) (id : ModuleId) : (s.enterVariables id).Paired := by
  have hne := h.codeStack_ne_nil
  rcases h.level_or_ahead with ⟨hlevel, hsame⟩ | ⟨hahead, other, hother⟩
  · refine ⟨.inr ⟨id, ?_⟩, ?_, ?_⟩
    · simp [Scopes.enterVariables, hlevel, hsame]
    · simp [Scopes.enterVariables, hlevel, hsame, List.getLast?_cons, h.codeRoot]
    · simpa [Scopes.enterVariables, hlevel] using h.codeRoot
  · refine ⟨.inr ⟨id, ?_⟩, ?_, ?_⟩
    · simp [Scopes.enterVariables, hahead, hother]
    · simp [Scopes.enterVariables, hahead, hother, List.getLast?_cons, h.codeRoot]
    · simpa [Scopes.enterVariables, hahead] using h.codeRoot

theorem enterCode (h : s.Paired) : s.enterCode.2.Paired := by
  rcases h.level_or_ahead with ⟨hlevel, -⟩ | ⟨hahead, id, hid⟩
  · simpa [Scopes.enterCode, hlevel] using h
  · have hcode := h.variableStack_of_ahead hahead
    refine ⟨.inl ?_, ?_, ?_⟩
    · simpa [Scopes.enterCode, hahead] using hcode
    · simpa [Scopes.enterCode, hahead] using h.variableRoot
    · simpa [Scopes.enterCode, hahead, ← hcode] using h.variableRoot

theorem inLockstep_enterCode (h : s.Paired) : s.enterCode.2.inLockstep = true := by
  cases hlevel : s.inLockstep with
  | true => simp [Scopes.enterCode, hlevel]
  | false =>
    have hstack := h.variableStack_of_ahead hlevel
    rw [Scopes.enterCode, hlevel, if_neg (by simp), inLockstep]
    exact beq_iff_eq.2 (congrArg List.length hstack)

/-- Leaving a level scope goes back to the module below. -/
theorem leave_of_inLockstep (h : s.Paired) (hlevel : s.inLockstep = true) {top caller : ModuleId}
    {rest : List ModuleId} (hstack : s.codeStack = top :: caller :: rest) :
    s.leave.2 = ⟨caller :: rest, caller :: rest⟩ := by
  have hsame := h.variableStack_of_inLockstep hlevel
  simp [Scopes.leave, hlevel, hsame, hstack, popKeeping]

/-- Leaving a variable scope that is ahead goes back to the module that runs. -/
theorem leave_of_ahead (h : s.Paired) (hahead : s.inLockstep = false) :
    s.leave.2 = ⟨s.codeStack, s.codeStack⟩ := by
  have hpop : popKeeping s.variableStack = s.codeStack := by
    rw [h.variableStack_of_ahead hahead, popKeeping_cons h.codeStack_ne_nil]
  simp [Scopes.leave, hahead, hpop]

theorem leave (h : s.Paired) : s.leave.2.Paired := by
  rcases h.level_or_ahead with ⟨hlevel, hsame⟩ | ⟨hahead, -⟩
  · refine ⟨.inl ?_, ?_, ?_⟩
    · simp [Scopes.leave, hlevel, hsame]
    · simpa [Scopes.leave, hlevel, getLast?_popKeeping] using h.variableRoot
    · simpa [Scopes.leave, hlevel, getLast?_popKeeping] using h.codeRoot
  · rw [h.leave_of_ahead hahead]
    exact ⟨.inl rfl, h.codeRoot, h.codeRoot⟩

theorem reset_eq (h : s.Paired) : s.reset = {} := by
  rw [Scopes.reset, drop_of_getLast? h.variableRoot, drop_of_getLast? h.codeRoot]

theorem apply (h : s.Paired) (op : Op) : (s.apply op).Paired := by
  cases op with
  | enterVariables id => exact h.enterVariables id
  | enterCode => exact h.enterCode
  | leave => exact h.leave
  | reset =>
    rw [Scopes.apply, h.reset_eq]
    exact start

end Paired

theorem mem_of_mem_popKeeping {id : ModuleId} {ids : List ModuleId} (h : id ∈ popKeeping ids) :
    id ∈ ids := by
  match ids with
  | [] => exact h
  | [_] => exact h
  | x :: _ :: _ => exact List.mem_cons_of_mem x h

/-- Only a module whose variables are entered comes new to the scopes. -/
theorem mem_variableStack_apply {s : Scopes} {op : Op} {id : ModuleId}
    (h : id ∈ (s.apply op).variableStack) : id ∈ s.variableStack ∨ op = .enterVariables id := by
  cases op with
  | enterVariables other =>
    rw [apply, Scopes.enterVariables] at h
    split at h
    · rcases List.mem_cons.1 h with rfl | h
      · exact .inr rfl
      · exact .inl h
    · rcases List.mem_cons.1 h with rfl | h
      · exact .inr rfl
      · exact .inl (List.mem_of_mem_tail h)
  | enterCode =>
    rw [apply, Scopes.enterCode] at h
    split at h <;> exact .inl h
  | leave =>
    rw [apply, Scopes.leave] at h
    split at h <;> exact .inl (mem_of_mem_popKeeping h)
  | reset => exact .inl (List.mem_of_mem_drop h)

theorem run_concat (ops : List Op) (op : Op) : run (ops ++ [op]) = (run ops).apply op := by
  rw [run, List.foldl_append]
  rfl

theorem paired_run (ops : List Op) : (run ops).Paired := by
  rw [run]
  suffices ∀ s : Scopes, s.Paired → (ops.foldl Scopes.apply s).Paired from this {} .start
  induction ops with
  | nil => exact fun _ h => h
  | cons op ops ih => exact fun s h => ih _ (h.apply op)

end LineBasic.Scopes
