import LineBasic.Proofs.Lexer.Positions
import LineBasic.Proofs.Session.Faults

/-!
# Places in lines

A run goes on at byte positions in lines. Where the line is gone the run ends, but a position that
its line does not have is a failure of the machine. Statements lead only to positions that their
lines have. A position gets lost when the line is replaced while a loop or a call is to resume
there, or when lines are renumbered, and in no other way.
-/

set_option autoImplicit false

namespace LineBasic

open Run

def Listing.Holds (l : Listing) (pc : ProgramCounter) : Prop :=
  ∀ n text, pc.line = some n → l.get? n = some text →
    (Text.dropBytes pc.offset text.toList).isSome = true

theorem Listing.Holds.mono {l l' : Listing} {pc : ProgramCounter} (h : l.Holds pc)
    (hl : ∀ n text, pc.line = some n → l'.get? n = some text → l.get? n = some text) :
    l'.Holds pc :=
  fun n text hline htext => h n text hline (hl n text hline htext)

theorem Listing.holds_iff {l : Listing} {pc : ProgramCounter} {n : LineNumber} {text : String}
    (hline : pc.line = some n) (htext : l.get? n = some text) :
    l.Holds pc ↔ (Text.dropBytes pc.offset text.toList).isSome = true := by
  constructor
  · intro h
    exact h n text hline htext
  · intro h n' text' hline' htext'
    obtain rfl : n = n' := Option.some.inj (hline.symm.trans hline')
    obtain rfl : text = text' := Option.some.inj (htext.symm.trans htext')
    exact h

theorem Listing.not_holds_iff {l : Listing} {pc : ProgramCounter} :
    ¬l.Holds pc ↔ ∃ n text, pc.line = some n ∧ l.get? n = some text ∧
      Text.dropBytes pc.offset text.toList = none := by
  simp [Listing.Holds]

structure Listing.Anchors (l : Listing) (pc : ProgramCounter) : Prop where
  line : pc.line ≠ some typedEnd
  holds : l.Holds pc

theorem Listing.anchors_atEnd (l : Listing) : l.Anchors .atEnd where
  line h := by cases h
  holds n text hline := by cases hline

theorem Listing.anchors_atLine (l : Listing) {n : LineNumber} (hn : n ≠ typedEnd) :
    l.Anchors (.atLine n) where
  line h := hn (Option.some.inj h)
  holds n' text _ _ := by
    change (Text.dropBytes 0 text.toList).isSome = true
    rw [Text.dropBytes]
    rfl

/-- Places stay in their lines, unless lines are renumbered. -/
theorem placeRule_anchors : PlaceRule (· ≠ .renumber) Listing.Anchors where
  ended l := l.anchors_atEnd
  line l n hn := by
    refine l.anchors_atLine ?_
    rintro rfl
    exact absurd hn (by decide)
  skipped l pc offset h hoffset := by
    refine ⟨h.line, fun n text hline htext => ?_⟩
    have hend := Text.dropBytes_byteLength text.toList []
    rw [List.append_nil] at hend
    rw [hoffset n text hline htext, hend]
    rfl
  revised l l' pc hrevised h := by
    refine ⟨h.line, h.holds.mono fun n text _ htext => ?_⟩
    cases hrevised with
    | kept => exact htext
    | erased first last =>
      rw [Listing.eraseRange, Listing.get?, Table.get?_filterKeys] at htext
      split at htext
      · exact htext
      · cases htext
    | renumbered _ _ _ hedits => exact absurd rfl hedits

theorem Listing.get?_enterLine (l : Listing) (n n' : LineNumber) (text : String) :
    (l.enterLine n text).get? n' =
      if n' = n then (if text.isEmpty then none else some text) else l.get? n' := by
  rw [Listing.enterLine]
  split
  · rw [Listing.erase, Listing.get?, Table.get?_erase]
    rfl
  · rw [Listing.insert, Listing.get?, Table.get?_insert]
    rfl

namespace Machine

def Anchored (m : Machine) : Prop := ∀ id, m.PlacesAt Listing.Anchors id

/-- The same of a machine that waits for a line. The module in the variable scope will start with
that line, so its program counter does not count. -/
def AnchoredAtPrompt (m : Machine) : Prop :=
  ∀ id, (m.moduleAt id).Places Listing.Anchors
    (id ∈ m.scopes.codeStack ∧ id ≠ m.scopes.variableModule)

theorem Anchored.atPrompt {m : Machine} (h : m.Anchored) : m.AnchoredAtPrompt :=
  fun id => ⟨fun hid => (h id).pc hid.1, (h id).loops, (h id).gosubs⟩

end Machine

namespace Session

/-- A statement that can be lexed starts at a place of its line, and so does what follows it. -/
theorem dropBytes_of_lexStatement {l : Lexicon} {o : LexOptions} {text : String}
    {offset next : Nat} {tokens : List Token}
    (h : lexStatement l o text offset = .ok (tokens, next)) :
    (Text.dropBytes offset text.toList).isSome = true ∧
      (Text.dropBytes next text.toList).isSome = true := by
  obtain ⟨_, _, _, hstart, -, -, hnext⟩ := lexStatement_eq_ok h
  rw [hstart, hnext]
  exact ⟨rfl, rfl⟩

theorem Advance.anchors {m : Machine} {pc : ProgramCounter} (h : Advance m pc)
    (hpc : m.codeModule.listing.Anchors m.codeModule.pc) : m.codeModule.listing.Anchors pc := by
  cases h with
  | ended => exact Listing.anchors_atEnd _
  | within n text tokens next hline htext hlex =>
    exact ⟨hline ▸ hpc.line, (Listing.holds_iff rfl htext).2 (dropBytes_of_lexStatement hlex).2⟩
  | onto n n' _ _ hend => exact Listing.anchors_atLine _ hend

def Displaces (m : Machine) : Prop :=
  Edits .renumber m ∧ ¬(step.final m).PlacesAt Listing.Anchors m.scopes.variableModule

/-- It is exactly by renumbering that a step can lose a place. -/
theorem anchored_step_iff {m : Machine} (hm : m.WellScoped) (h : m.Anchored) :
    (step.final m).Anchored ↔ ¬Displaces m := by
  constructor
  · rintro hnext ⟨-, hlost⟩
    exact hlost (hnext _)
  · intro hkept id
    have hadvance (hid : id = m.scopes.codeModule) (pc : ProgramCounter) (hpc : Advance m pc) :
        (m.moduleAt id).listing.Anchors pc := by
      subst hid
      exact hpc.anchors ((h _).codePc hm rfl)
    by_cases hid : id = m.scopes.variableModule ∧ Edits .renumber m
    · obtain ⟨rfl, hedits⟩ := hid
      exact Classical.byContradiction fun hlost => hkept ⟨hedits, hlost⟩
    · refine (h id).step hm placeRule_anchors (fun hid' e he => ?_) hadvance
      rintro rfl
      exact hid ⟨hid', he⟩

theorem anchored_prepare {m : Machine} (hm : m.WellScoped) (h : m.AnchoredAtPrompt)
    (line : String) : (prepare line m).Anchored := by
  intro id
  refine placesAt_prepare hm line (fun _ => ⟨Listing.anchors_atLine _ (by decide), ?_⟩) ?_
  · intro pc hmem htyped
    obtain ⟨hline, hholds⟩ := (Module.places_iff.1 (h id)).2 pc hmem
    refine ⟨hline, hholds.mono fun n text hn htext => ?_⟩
    have hend : n ≠ typedEnd := fun hn' => hline (hn' ▸ hn)
    have hold : n ≠ typedLine := by
      rintro rfl
      simp [ProgramCounter.isTyped, hn] at htyped
    rwa [get?_insert_typed, if_neg hend, if_neg hold] at htext
  · intro hid
    exact ⟨fun hentered => (h id).pc ⟨hentered, hid⟩, (h id).loops, (h id).gosubs⟩

/-- A text is stored over a line in which a loop or a call is to resume, and it does not have the
place where. -/
def CutsShort (n : LineNumber) (text : String) (m : Machine) : Prop :=
  text.isEmpty = false ∧ ∃ pc ∈ m.variableModule.resumes, pc.line = some n ∧
    Text.dropBytes pc.offset text.toList = none

instance (n : LineNumber) (text : String) (m : Machine) : Decidable (CutsShort n text m) :=
  inferInstanceAs (Decidable (_ ∧ _))

theorem listing_stored {m : Machine} (hm : m.WellScoped) (n : LineNumber) (text : String)
    (id : ModuleId) :
    ((stored n text m).moduleAt id).listing =
      if id = m.scopes.variableModule then (m.moduleAt id).listing.enterLine n text
      else (m.moduleAt id).listing := by
  rw [stored, Machine.updateVariableModule, Machine.moduleAt_updateModule]
  by_cases hid : id = m.scopes.variableModule
  · rw [if_pos hid, if_pos ⟨hid, hid ▸ hm.variableModule_lt⟩]
  · rw [if_neg hid, if_neg fun h => hid h.1]

theorem pc_stored (n : LineNumber) (text : String) (m : Machine) (id : ModuleId) :
    ((stored n text m).moduleAt id).pc = (m.moduleAt id).pc :=
  Machine.moduleAt_updateModule_of_keeps (fun mod => by rfl) _ _ id

theorem resumes_stored (n : LineNumber) (text : String) (m : Machine) (id : ModuleId) :
    ((stored n text m).moduleAt id).resumes = (m.moduleAt id).resumes :=
  Machine.moduleAt_updateModule_of_keeps (fun mod => by rfl) _ _ id

/-- It is exactly by cutting lines short that storing a line can lose a place. -/
theorem anchoredAtPrompt_stored_iff {m : Machine} (hm : m.WellScoped) (h : m.AnchoredAtPrompt)
    (n : LineNumber) (text : String) :
    (stored n text m).AnchoredAtPrompt ↔ ¬CutsShort n text m := by
  constructor
  · rintro hnext ⟨htext, pc, hmem, hline, hlost⟩
    have hanchors := (Module.places_iff.1 (hnext m.scopes.variableModule)).2 pc
      (resumes_stored n text m _ ▸ hmem)
    rw [listing_stored hm, if_pos rfl] at hanchors
    have hget : (m.variableModule.listing.enterLine n text).get? n = some text := by
      rw [Listing.get?_enterLine, if_pos rfl, htext]
      rfl
    have hheld := hanchors.holds n text hline hget
    rw [hlost] at hheld
    cases hheld
  · intro hkept id
    obtain ⟨hcounter, hframes⟩ := Module.places_iff.1 (h id)
    rw [Module.places_iff, pc_stored, resumes_stored, listing_stored hm]
    by_cases hid : id = m.scopes.variableModule
    · refine ⟨fun hlive => absurd hid hlive.2, fun pc hmem => ⟨(hframes pc hmem).line, ?_⟩⟩
      rw [if_pos hid]
      intro n' text' hline hget
      rw [Listing.get?_enterLine] at hget
      split at hget
      · rename_i hn
        split at hget
        · cases hget
        · rename_i htext
          cases hget
          rw [hid] at hmem
          refine Option.isSome_iff_ne_none.2 fun hlost => hkept ⟨by simpa using htext, pc, hmem, ?_⟩
          exact ⟨hn ▸ hline, hlost⟩
      · exact (hframes pc hmem).holds n' text' hline hget
    · rw [if_neg hid]
      exact ⟨hcounter, hframes⟩

/-- Sessions in which no place is lost. -/
abbrev Steady : Machine → Prop := AtPrompt fun m fuel line =>
  (∀ n text, numberedLine? (normalLine line) = some (n, text) → ¬CutsShort n text m) ∧
    ∀ k s, k < fuel → Underway m line k s → ¬Displaces s

/-- A line that is stored loses no place, unless it cuts a line short. -/
theorem Steady.stores {m : Machine} (h : Steady m) (fuel : Nat) {line : String} (n : LineNumber)
    (text : String) (hnumber : numberedLine? (normalLine line) = some (n, text))
    (hkept : ¬CutsShort n text m) : Steady (enter fuel line m).2 := by
  refine .entered m fuel line h ⟨fun n' text' hnumber' => ?_, fun k s _ hs => ?_⟩
  · cases hnumber.symm.trans hnumber'
    exact hkept
  · cases hs.number.symm.trans hnumber

/-- A run of statements that edit no lines loses no place. -/
theorem Steady.runs {m : Machine} (h : Steady m) (fuel : Nat) {line : String}
    (hkeeps : numberedLine? (normalLine line) = none ∧ ∀ k, k < fuel →
      ((ongoing k (prepare (normalLine line) { m with exitCode := none })).bind nextTokens?).all
        keepsLines = true) : Steady (enter fuel line m).2 := by
  refine .entered m fuel line h ⟨fun n text hnumber => ?_, fun k s hk hs hdisplaces => ?_⟩
  · cases hkeeps.1.symm.trans hnumber
  · exact hs.not_edits (hkeeps.2 k hk) _ hdisplaces.1

/-- A run keeps all places in their lines, unless one of its steps displaces them. -/
theorem anchored_underway {m₀ m : Machine} {line : String} {k : Nat} (h₀ : m₀.AnchoredAtPrompt)
    (hm : Underway m₀ line k m)
    (hsteps : ∀ j s, j < k → Underway m₀ line j s → ¬Displaces s) : m.Anchored := by
  induction hm with
  | prepared hm₀ => exact anchored_prepare hm₀.wellScoped.clearExit h₀ _
  | @stepped k m m' hm hstep ih =>
    have hanchored := ih fun j s hj => hsteps j s (Nat.lt_succ_of_lt hj)
    have hnext := (anchored_step_iff hm.wellScoped hanchored).2 (hsteps k m (Nat.lt_succ_self k) hm)
    rwa [final, hstep] at hnext

theorem anchoredAtPrompt_report {m : Machine} (hm : m.WellScoped) (h : m.AnchoredAtPrompt)
    (f : Fault) : (report f m).AnchoredAtPrompt := by
  cases hrunning : inRunningLine m f with
  | false =>
    intro id
    rw [scopes_report hrunning]
    exact h id
  | true =>
    have hscopes : (report f m).scopes = {} := by
      rw [report, hrunning, if_pos rfl]
      exact hm.paired.reset_eq
    intro id
    refine ⟨fun hid => ?_, (h id).loops, (h id).gosubs⟩
    rw [hscopes] at hid
    exact absurd (List.mem_singleton.1 hid.1) hid.2

theorem Steady.anchored {m : Machine} (h : Steady m) : m.AnchoredAtPrompt := by
  induction h with
  | start host registry options =>
    refine Machine.Anchored.atPrompt fun id => ?_
    cases id with
    | zero => exact .of_empty (fun _ => Listing.anchors_atEnd _) rfl rfl
    | succ id => exact .of_empty (fun _ => Listing.anchors_atEnd _) rfl rfl
  | outside m host registry column _ ih => exact ih
  | entered m fuel line h hline ih =>
    obtain ⟨hstored, hsteps⟩ := hline
    have hm := h.wellScoped
    refine (enter_rule (I := fun s => s.WellScoped ∧ s.AnchoredAtPrompt) h.waiting
      ?_ ?_ ?_ ?_ ?_ ⟨hm, ih⟩).2
    · intro n text hnumber
      have hkept := hstored n text hnumber
      exact ⟨hm.stored n text, (anchoredAtPrompt_stored_iff hm ih n text).2 hkept⟩
    · rintro f s ⟨hs, hanchored⟩
      exact ⟨hs.report f, anchoredAtPrompt_report hs hanchored f⟩
    · rintro s exitCode ⟨hs, hanchored⟩
      exact ⟨hs.of_eq rfl rfl, hanchored⟩
    · intro s hs
      have hnone : ∀ j t, j < 0 → Underway m line j t → ¬Displaces t := fun j _ hj =>
        absurd hj (Nat.not_lt_zero j)
      exact ⟨hs.wellScoped, (anchored_underway ih hs hnone).atPrompt⟩
    · intro k s hk hs _
      have hanchored := anchored_underway ih hs fun j t hj => hsteps j t (Nat.lt_trans hj hk)
      exact ⟨hs.wellScoped.step,
        ((anchored_step_iff hs.wellScoped hanchored).2 (hsteps k s hk hs)).atPrompt⟩

def reported? (fuel : Nat) (line : String) (m : Machine) : Option Fault :=
  let line := normalLine line
  if m.host.halted || Text.isBlankText line then none
  else match numberedLine? line with
    | some (n, text) => (failure? (storeLine n text m)).map (·.1)
    | none => (failure? (execute fuel (prepare line { m with exitCode := none }))).map (·.1)

/-- Entering a line fails if a fault is reported, and then that is reported. -/
theorem enter_of_reported? (fuel : Nat) (line : String) (m : Machine) :
    ((enter fuel line m).1 = .failed ↔ (reported? fuel line m).isSome) ∧
      ∀ f, reported? fuel line m = some f → ∃ m', enter fuel line m = (.failed, report f m') := by
  rw [enter, reported?]
  cases m.host.halted with
  | true => simp
  | false =>
    cases Text.isBlankText (normalLine line) with
    | true => simp
    | false =>
      rw [if_neg (by simp), if_neg (by simp), if_neg (by simp)]
      cases numberedLine? (normalLine line) with
      | some result =>
        dsimp only
        cases storeLine result.1 result.2 m with
        | ok => simp [failure?]
        | error f m' =>
          refine ⟨by simp [failure?], ?_⟩
          rintro _ ⟨⟩
          exact ⟨m', rfl⟩
      | none =>
        dsimp only
        cases execute fuel (prepare (normalLine line) { m with exitCode := none }) with
        | ok done m' =>
          refine ⟨?_, by simp [failure?]⟩
          cases done with
          | false => simp [failure?, settle]
          | true =>
            cases halted : m'.host.halted with
            | true => simp [failure?, settle, halted]
            | false => cases hexit : m'.exitCode <;> simp [failure?, settle, halted, hexit]
        | error f m' =>
          refine ⟨by simp [failure?, settle], ?_⟩
          rintro _ ⟨⟩
          exact ⟨m', rfl⟩

/-- A step that fails has lost its place, or its fault is no failure of the machine. -/
theorem fault_of_step {m m' : Machine} {f : Fault} (hm : m.WellScoped) (hr : m.registry.Ordinary)
    (h : step m = .error f m') :
    f.kind = .internal ↔ ¬m.codeModule.listing.Holds m.codeModule.pc := by
  have hstep := stepResult m
  rw [h] at hstep
  generalize hresult : EStateM.Result.error f m' = r at hstep
  cases hstep with
  | unread n text f' hline htext hlex =>
    cases hresult
    rw [(fault_of_lexStatement hlex).2, Listing.holds_iff hline htext]
    simp
  | statement n text tokens next hlexed =>
    have hholds := (Listing.holds_iff hlexed.line hlexed.listed).2
      (dropBytes_of_lexStatement hlexed.lexed).1
    refine iff_of_false ?_ (not_not_intro hholds)
    obtain ⟨m₁, hquiet, hend⟩ := Statement.acts_run tokens (begun n tokens next m)
    have hbegun := (calm_begun hlexed.line tokens next).quiet
    cases hrun : Statement.run tokens (begun n tokens next m) with
    | ok _ m₂ =>
      rw [hrun, afterStatement] at hresult
      split at hresult
      · cases hresult
      · split at hresult
        · cases hresult
          exact FaultKind.noConfusion
        · cases hresult
    | error f' m₂ =>
      rw [hrun] at hresult hend
      cases hresult
      rcases hend with ⟨_, hf, hraises⟩ | hact
      · cases hf
        rw [hbegun.registry] at hraises
        exact (hraises.isOrdinary hr).2
      · exact (hact.inPlace_or_entered ((hm.setPc _).quiet (hbegun.trans hquiet))).1.2
  | _ => cases hresult

theorem step_of_not_holds {m : Machine} (h : ¬m.codeModule.listing.Holds m.codeModule.pc) :
    ∃ f, step m = .error f m := by
  obtain ⟨n, text, hline, htext, hlost⟩ := Listing.not_holds_iff.1 h
  have hlex : lexStatement m.lexicon m.options text m.codeModule.pc.offset =
      .error (.because .internal "PROGRAM COUNTER OUT OF LINE") := by
    rw [lexStatement, hlost]
  exact ⟨_, step_of_unread hline htext hlex⟩

/-- A fault that ends a run was raised by one of its steps. -/
theorem Underway.exists_of_error {m₀ m m' : Machine} {line : String} {k fuel : Nat} {f : Fault}
    (hm : Underway m₀ line k m) (h : execute fuel m = .error f m') :
    ∃ j s, j < k + fuel ∧ Underway m₀ line j s ∧ step s = .error f m' := by
  induction fuel generalizing k m with
  | zero => cases h
  | succ fuel ih =>
    rw [execute_succ] at h
    cases hs : step m with
    | error f' m₁ =>
      rw [hs] at h
      cases h
      exact ⟨k, m, by omega, hm, hs⟩
    | ok done m₁ =>
      rw [hs] at h
      cases done with
      | true => cases h
      | false =>
        obtain ⟨j, s, hj, hunder, hfault⟩ := ih (hm.stepped hs) h
        exact ⟨j, s, by omega, hunder, hfault⟩

/-- A line that cannot be lexed is no failure of the machine. -/
theorem kind_of_storeLine {n : LineNumber} {text : String} {m m' : Machine} {f : Fault}
    (h : storeLine n text m = .error f m') : f.kind ≠ .internal := by
  have hordinary := (ordinary_lexAll m.lexicon m.options text.toList).map fun _ => ()
  rw [storeLine_apply, checkLine] at h
  cases hcheck : (lexAll m.lexicon m.options text.toList).map fun _ => () with
  | ok _ =>
    rw [hcheck] at h
    cases h
  | error g =>
    rw [hcheck] at h
    cases h
    exact (hordinary g hcheck).2

/-- The machine fails exactly if a run comes to a place that its line does not have. -/
theorem reported_internal_iff {m₀ : Machine} (hm₀ : Waiting m₀) (hr : m₀.registry.Ordinary)
    (fuel : Nat) (line : String) :
    (∃ f, reported? fuel line m₀ = some f ∧ f.kind = .internal) ↔
      ∃ k m, k < fuel ∧ Underway m₀ line k m ∧
        ¬m.codeModule.listing.Holds m.codeModule.pc := by
  constructor
  · rintro ⟨f, hf, hkind⟩
    rw [reported?] at hf
    split at hf
    · cases hf
    · rename_i hruns
      rw [Bool.not_eq_true, Bool.or_eq_false_iff] at hruns
      obtain ⟨halive, hblank⟩ := hruns
      cases hnumber : numberedLine? (normalLine line) with
      | some result =>
        simp only [hnumber] at hf
        obtain ⟨⟨_, m'⟩, hfailure, rfl⟩ := Option.map_eq_some_iff.1 hf
        exact absurd hkind (kind_of_storeLine (eq_error_of_failure? hfailure))
      | none =>
        simp only [hnumber] at hf
        obtain ⟨⟨_, m'⟩, hfailure, rfl⟩ := Option.map_eq_some_iff.1 hf
        have hrun := eq_error_of_failure? hfailure
        have hstart : Underway m₀ line 0 _ := .prepared hm₀ halive hblank hnumber
        obtain ⟨k, m, hk, hm, hstep⟩ := hstart.exists_of_error hrun
        exact ⟨k, m, by omega, hm, (fault_of_step hm.wellScoped (hm.registry ▸ hr) hstep).1 hkind⟩
  · rintro ⟨k, m, hk, hm, hlost⟩
    obtain ⟨f, hstep⟩ := step_of_not_holds hlost
    obtain ⟨j, rfl⟩ := Nat.exists_eq_add_of_lt hk
    refine ⟨f, ?_, (fault_of_step hm.wellScoped (hm.registry ▸ hr) hstep).2 hlost⟩
    rw [reported?, Nat.add_assoc]
    simp only [hm.started, hm.blank, hm.number, hm.execute_eq, execute_succ, hstep]
    rfl

/-- The machine itself fails exactly if a run comes to a place that its line does not have. In a
session where no place is lost there is none, so that no line makes the machine fail unless it
renumbers lines itself. From such a state it is exactly a shorter line in place of one that a loop
or a call is to resume in, and a `RENUMBER` that displaces a place, that lose one. -/
theorem machine_fails_only_at_lost_places {m₀ : Machine} (hm₀ : Waiting m₀)
    (hr : m₀.registry.Ordinary) (fuel : Nat) (line : String) :
    (((enter fuel line m₀).1 = .failed ↔ (reported? fuel line m₀).isSome) ∧
      ∀ f, reported? fuel line m₀ = some f → ∃ m, enter fuel line m₀ = (.failed, report f m)) ∧
    ((∃ f, reported? fuel line m₀ = some f ∧ f.kind = .internal) ↔
      ∃ k m, k < fuel ∧ Underway m₀ line k m ∧
        ¬m.codeModule.listing.Holds m.codeModule.pc) ∧
    (Steady m₀ →
      (∀ n text, (stored n text m₀).AnchoredAtPrompt ↔ ¬CutsShort n text m₀) ∧
      (∀ k m, Underway m₀ line k m →
        (∀ j s, j < k → Underway m₀ line j s → ¬Displaces s) →
          m.Anchored ∧ ((step.final m).Anchored ↔ ¬Displaces m)) ∧
      ((∀ k s, k < fuel → Underway m₀ line k s → ¬Displaces s) →
        ∀ f, reported? fuel line m₀ = some f → f.kind ≠ .internal)) := by
  have hinternal := reported_internal_iff hm₀ hr fuel line
  refine ⟨enter_of_reported? fuel line m₀, hinternal, fun hsteady => ⟨?_, ?_, ?_⟩⟩
  · exact anchoredAtPrompt_stored_iff hm₀.wellScoped hsteady.anchored
  · intro k m hm hsteps
    have hanchored := anchored_underway hsteady.anchored hm hsteps
    exact ⟨hanchored, anchored_step_iff hm.wellScoped hanchored⟩
  · intro hsteps f hf hkind
    obtain ⟨k, m, hk, hm, hlost⟩ := hinternal.1 ⟨f, hf, hkind⟩
    have hanchored := anchored_underway hsteady.anchored hm fun j s hj =>
      hsteps j s (Nat.lt_trans hj hk)
    exact hlost ((hanchored _).codePc hm.wellScoped rfl).holds

/-- A line that a loop is to resume in is replaced by another one that has the place, and the loop
goes on there. -/
theorem machine_fails_only_at_lost_places_after_edit :
    let m₀ := enterAll 9 ["10 FOR I=1 TO 3: RETURN", "RUN", "10 PRINT \"OVER\": RETURN"] {}
    ∃ m f, Steady m₀ ∧ Underway m₀ "NEXT" 1 m ∧ m.codeModule.pc = ⟨some 10, 13⟩ ∧ m.Anchored ∧
      reported? 9 "NEXT" m₀ = some f ∧ f.kind ≠ .internal := by
  intro m₀
  let m₁ := enterAll 9 ["10 FOR I=1 TO 3: RETURN"] {}
  have hsteady₁ : Steady m₁ := Steady.stores (.start {} {} {}) 9 10 "FOR I=1 TO 3: RETURN"
    (by decide +kernel) (by decide +kernel)
  have hsteady₂ : Steady (enter 9 "RUN" m₁).2 := by
    refine hsteady₁.runs 9 ?_
    decide +kernel
  have hsteady : Steady m₀ :=
    hsteady₂.stores 9 10 "PRINT \"OVER\": RETURN" (by decide +kernel) (by decide +kernel)
  let start := prepare (normalLine "NEXT") { m₀ with exitCode := none }
  obtain ⟨hkeeps, hreported, m, hm, hpc⟩ :
      (∀ k, k < 9 → ((ongoing k start).bind nextTokens?).all keepsLines = true) ∧
      (reported? 9 "NEXT" m₀).isSome = true ∧
      ∃ m, ongoing 1 start = some m ∧ m.codeModule.pc = ⟨some 10, 13⟩ := by
    decide +kernel
  have hsteps : ∀ k s, k < 9 → Underway m₀ "NEXT" k s → ¬Displaces s :=
    fun k s hk hs hdisplaces => hs.not_edits (hkeeps k hk) _ hdisplaces.1
  have hstart : Underway m₀ "NEXT" 0 _ :=
    .prepared hsteady.waiting (by decide +kernel) (by decide +kernel) (by decide +kernel)
  have hunder := hstart.ongoing hm
  have hordinary : m₀.registry.Ordinary := by
    rw [registry_enterAll]
    exact Registry.ordinary_default
  obtain ⟨-, -, hsafe⟩ := machine_fails_only_at_lost_places hsteady.waiting hordinary 9 "NEXT"
  obtain ⟨-, hanchored, hkind⟩ := hsafe hsteady
  obtain ⟨f, hf⟩ := Option.isSome_iff_exists.1 hreported
  refine ⟨m, f, hsteady, hunder, hpc, ?_, hf, hkind hsteps f hf⟩
  exact (hanchored _ m hunder fun k s hk => hsteps k s (by omega)).1

/-- A loop is left when a program is stopped, and its line is replaced by a shorter one. The `NEXT`
that resumes the loop makes the machine fail. The same happens when the line is renumbered so that
it gets shorter. -/
theorem resumed_loop_in_shorter_line_makes_machine_fail :
    let m₀ := enterAll 9 ["10 FOR I=1 TO 3: STOP", "RUN", "10 END"] {}
    let m₁ := enterAll 9
      ["10 GOSUB 1000000000: FOR I=1 TO 3: STOP", "1000000000 RETURN", "RUN", "RENUMBER"] {}
    (reported? 9 "NEXT" m₀).map (·.kind) = some .internal ∧
      (enterAll 9 ["NEXT"] m₀).host.printedSince 0 =
        "?BREAK IN 10\n?INTERNAL ERROR IN 10\n10  END\n" ∧
      (enterAll 9 ["NEXT"] m₁).host.printedSince 0 =
        "?BREAK IN 10\n?INTERNAL ERROR IN 10\n10  GOSUB 20: FOR I=1 TO 3: STOP\n" := by
  decide +kernel

end Session

end LineBasic
