import LineBasic.Proofs.Loop
import LineBasic.Proofs.Session.Scopes

/-!
# The kinds of stored values

At every point of a session a value has the kind of the name that it is stored under, and loops run
over numbers. So a `NEXT` that finds its loop can always step it.
-/

set_option autoImplicit false

namespace LineBasic

open Run

namespace Machine.Sound

variable {m : Machine}

theorem updateModule (h : m.Sound) (id : ModuleId) {f : Module → Module}
    (hf : ∀ mod : Module, mod.Sound → (f mod).Sound) : (m.updateModule id f).Sound := by
  intro j
  rw [moduleAt_updateModule]
  split
  · exact hf _ (h j)
  · exact h j

theorem start (host : Host) (registry : Registry) (options : LexOptions) :
    ({ host, registry, options } : Machine).Sound := by
  intro id
  cases id with
  | zero => exact Module.sound_new rfl rfl rfl
  | succ id => exact Module.sound_new rfl rfl rfl

theorem stored (h : m.Sound) (n : LineNumber) (text : String) : (Session.stored n text m).Sound :=
  h.updateModule _ fun _ hmod => hmod

theorem prepare (h : m.Sound) (line : String) :
    (Session.prepare line { m with exitCode := none }).Sound := by
  have hexit : ({ m with exitCode := none } : Machine).Sound := h
  exact ((changes_enterCode _).sound hexit).updateModule _ fun _ hmod => hmod.cut _

end Machine.Sound

namespace Session

theorem AtPrompt.sound {allowed : Machine → Nat → String → Prop} {m : Machine}
    (h : AtPrompt allowed m) : m.Sound := by
  induction h with
  | start host registry options => exact .start host registry options
  | outside m host registry column _ ih => exact ih
  | entered m fuel line _ _ ih =>
    rcases enter_cases fuel line m with hsame | ⟨n, text, -, hchanges⟩ | hchanges
    · rw [hsame]
      exact ih
    · exact hchanges.sound (ih.stored n text)
    · exact hchanges.sound (ih.prepare _)

theorem Underway.sound {m₀ m : Machine} {line : String} {k : Nat} (h : Underway m₀ line k m) :
    m.Sound :=
  h.changes.sound (h.waiting.sound.prepare _)

theorem Point.sound {m : Machine} (h : Point m) : m.Sound := by
  cases h with
  | waiting h => exact h.sound
  | underway h => exact h.sound
  | stepped h => exact (confined_step _).sound h.sound

end Session

namespace Statement

theorem mem_loops_of_find? {mod : Module} {p : ForLoop → Bool} {l : ForLoop}
    (h : (reachableLoops mod).reverse.find? p = some l) : l ∈ mod.loops.held := by
  rw [reverse_reachableLoops] at h
  exact List.mem_of_mem_take (List.mem_of_find?_eq_some h)

theorem fault_of_stepLoop {m m' : Machine} {p : ForLoop → Bool} {f : Fault} (hm : m.Sound)
    (h : stepLoop p m = .error f m') : f = .plain .nextWithoutFor := by
  cases hl : (reachableLoops m.codeModule).reverse.find? p with
  | none =>
    rw [stepLoop_of_find?_eq_none hl] at h
    cases h
    rfl
  | some l =>
    obtain ⟨i, hi⟩ := exists_findIdx? hl
    have hname := (hm m.scopes.codeModule).loops l (mem_loops_of_find? hl)
    have hcut : (m.updateCodeModule fun mod =>
        { mod with loops := mod.loops.truncate (mod.loops.size - i) }).Sound :=
      hm.updateModule _ fun _ hmod => hmod.cut _
    rw [stepLoop_of_find? hi hl, stepped] at h
    generalize m.updateCodeModule _ = m₁ at h hcut
    obtain ⟨w, hw, hkind⟩ :=
      ForLoop.advance_of_number hname ((hcut l.home).vars.fetch_kind hname)
    have hset := (m₁.calm_setScalar l.home hkind).changes.sound hcut
    obtain ⟨x, hx⟩ := Value.toReal_of_number ((hset l.home).vars.fetch_kind hname)
    simp only [Machine.scalar, hw, hx] at h
    split at h <;> cases h

theorem sound_of_stepLoop {m m' : Machine} {p : ForLoop → Bool} (hm : m.Sound)
    (h : stepLoop p m = .ok true m') : m'.Sound := by
  obtain ⟨m₁, hquiet, ⟨f, hf, -⟩ | hdone | ⟨l, -, hback⟩⟩ := quietUntil_stepLoop p m
  · rw [h] at hf
    cases hf
  · rw [h] at hdone
    cases hdone
    exact hquiet.changes.sound hm
  · rw [h] at hback
    cases hback

theorem fault_of_stepLoops {targets : List (ModuleId × String)} {m m' : Machine} {f : Fault}
    (hm : m.Sound) (h : stepLoops targets m = .error f m') : f = .plain .nextWithoutFor := by
  induction targets generalizing m with
  | nil => cases h
  | cons target targets ih =>
    rw [stepLoops, bind_apply] at h
    cases hstep : stepLoop (fun l => l.isOver target.1 target.2) m with
    | error f' m₁ =>
      rw [hstep] at h
      cases h
      exact fault_of_stepLoop hm hstep
    | ok done m₁ =>
      rw [hstep] at h
      cases done with
      | false => cases h
      | true => exact ih (sound_of_stepLoop hm hstep) h

theorem fault_of_findModule {name : String} {m m' : Machine} {f : Fault}
    (h : findModule name m = .error f m') : f = .plain .undefinedModule := by
  rw [findModule, get_bind] at h
  cases hid : m.moduleNamed? name with
  | some id =>
    simp only [hid] at h
    cases h
  | none =>
    simp only [hid] at h
    cases h
    rfl

theorem fault_of_nextTargets {tokens : List Token} {m m' : Machine} {f : Fault}
    (h : nextTargets tokens m = .error f m') :
    f = bareSyntax ∨ f = .plain .undefinedModule := by
  fun_induction nextTargets tokens generalizing m with
  | case1 => cases h
  | case2 => cases h
  | case3 name ts ih =>
    rw [get_bind] at h
    rcases bind_eq_error.1 h with h | ⟨more, m₁, -, h⟩
    · exact ih h
    · cases h
  | case4 q name =>
    rcases bind_eq_error.1 h with h | ⟨home, m₁, -, h⟩
    · exact .inr (fault_of_findModule h)
    · cases h
  | case5 q name ts ih =>
    rcases bind_eq_error.1 h with h | ⟨home, m₁, -, h⟩
    · exact .inr (fault_of_findModule h)
    · rcases bind_eq_error.1 h with h | ⟨more, m₂, -, h⟩
      · exact ih h
      · cases h
  | case6 q =>
    rcases bind_eq_error.1 h with h | ⟨home, m₁, -, h⟩
    · exact .inr (fault_of_findModule h)
    · cases h
      exact .inl rfl
  | case7 =>
    cases h
    exact .inl rfl

/-- A `NEXT` fails because of what it says, or because there is no such loop. -/
theorem fault_of_next {rest : List Token} {m m' : Machine} {f : Fault} (hm : m.Sound)
    (h : run (.word .NEXT :: rest) m = .error f m') :
    f = bareSyntax ∨ f = .plain .undefinedModule ∨ f = .plain .nextWithoutFor := by
  have hrun : run (.word .NEXT :: rest) m = endLoop rest m := by
    rw [run.eq_def]
  rw [hrun, endLoop] at h
  split at h
  · rcases bind_eq_error.1 h with h | ⟨done, m₁, -, h⟩
    · exact .inr (.inr (fault_of_stepLoop hm h))
    · cases h
  · rcases bind_eq_error.1 h with h | ⟨targets, m₁, htargets, h⟩
    · rcases fault_of_nextTargets h with h | h
      · exact .inl h
      · exact .inr (.inl h)
    · have hm₁ := (Machine.CalmBut.changes ((calm_nextTargets rest).ok htargets)).sound hm
      exact .inr (.inr (fault_of_stepLoops hm₁ h))

end Statement

namespace Session

/-- At every point of a session and in every module, a scalar has the kind that the end of its name
asks for, except for the time, which is a number; so has every element of an array; and no loop runs
over text. So the addition and the store of a `NEXT` work for every loop that is under way where the
`NEXT` is run, and it fails only if it names no variables, or a module that is not there, or if it
finds no loop. -/
theorem stored_values_have_kinds_of_names {m : Machine} (hm : Point m) :
    (∀ id name v, (m.moduleAt id).vars.scalars.get? name = some v → name ≠ "TI" →
        v.kind = Kind.ofName name) ∧
      (∀ id v, (m.moduleAt id).vars.scalars.get? "TI" = some v → v.kind ≠ .text) ∧
      (∀ id name a, (m.moduleAt id).vars.arrays.get? name = some a →
        ∀ v ∈ a.elements, v.kind = Kind.ofName name) ∧
      (∀ id, ∀ l ∈ (m.moduleAt id).loops.held, Kind.ofName l.name ≠ .text) ∧
      ∀ n text tokens next rest u, Lexed m n text tokens next →
        Statement.ComesTo tokens (begun n tokens next m) (.word .NEXT :: rest) u →
          (∀ id, ∀ l ∈ (u.moduleAt id).loops.held,
            ∃ w, l.advance (u.scalar l.home l.name) = .ok w) ∧
          ∀ f m', Statement.run (.word .NEXT :: rest) u = .error f m' →
            f = bareSyntax ∨ f = .plain .undefinedModule ∨ f = .plain .nextWithoutFor := by
  have hsound := hm.sound
  refine ⟨fun id name v => (hsound id).vars.scalars, fun id v => (hsound id).vars.time,
    fun id name a => (hsound id).vars.arrays, fun id => (hsound id).loops, ?_⟩
  intro n text tokens next rest u hlexed hcomes
  have hchanges : Changes m u := (changes_setPc m ⟨some n, next⟩).trans
    ((calm_begun hlexed.line tokens next).trans hcomes.calm).changes
  have hu := hchanges.sound hsound
  refine ⟨fun id l hl => ?_, fun f m' => Statement.fault_of_next hu⟩
  have hname := (hu id).loops l hl
  obtain ⟨w, hw, -⟩ := ForLoop.advance_of_number hname ((hu l.home).vars.fetch_kind hname)
  exact ⟨w, hw⟩

/-- A `NEXT` is about to be run behind an assignment that has made an array of texts. -/
theorem stored_values_have_kinds_of_names_in_loop :
    let line := "FOR I% = 1 TO 2: A$(1) = \"X\": NEXT I%"
    ∃ m a, Point m ∧ (m.moduleAt 0).vars.scalars.get? "I%" = some (.integer 1) ∧
      (Value.integer 1).kind = Kind.ofName "I%" ∧
      (m.moduleAt 0).vars.arrays.get? "A$" = some a ∧ (∀ v ∈ a.elements, v.kind = .text) ∧
      (m.moduleAt 0).loops.held.map (·.name) = ["I%"] ∧
      (∀ l ∈ (m.moduleAt 0).loops.held, Kind.ofName l.name ≠ .text) ∧
      Lexed m typedLine (normalLine line) [.word .NEXT, .ident "I%"] 37 ∧
      ∀ f m', Statement.run [.word .NEXT, .ident "I%"]
          (begun typedLine [.word .NEXT, .ident "I%"] 37 m) = .error f m' →
        f = bareSyntax ∨ f = .plain .undefinedModule ∨ f = .plain .nextWithoutFor := by
  intro line
  have hstart : Underway {} line 0 _ :=
    .prepared (.start {} {} {}) rfl (by decide +kernel) (by decide +kernel)
  obtain ⟨m, hm, hscalar, hsome, hloops, hlexed⟩ :
      ∃ m, ongoing 2 (prepare (normalLine line) {}) = some m ∧
        (m.moduleAt 0).vars.scalars.get? "I%" = some (.integer 1) ∧
        ((m.moduleAt 0).vars.arrays.get? "A$").isSome ∧
        (m.moduleAt 0).loops.held.map (·.name) = ["I%"] ∧
        Lexed m typedLine (normalLine line) [.word .NEXT, .ident "I%"] 37 := by
    decide +kernel
  obtain ⟨a, ha⟩ := Option.isSome_iff_exists.1 hsome
  have hpoint : Point m := .underway (hstart.ongoing hm)
  obtain ⟨hscalars, -, harrays, hnames, hnext⟩ := stored_values_have_kinds_of_names hpoint
  exact ⟨m, a, hpoint, hscalar, hscalars 0 "I%" _ hscalar (by decide), ha, harrays 0 "A$" a ha,
    hloops, hnames 0, hlexed, (hnext _ _ _ _ _ _ hlexed (.here _ _)).2⟩

end Session

end LineBasic
