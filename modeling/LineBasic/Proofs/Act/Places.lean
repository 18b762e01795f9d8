import LineBasic.Proofs.Act.Turn

/-!
# Where programs go on

A module goes on at its program counter, if its code is entered, and where its loops and its calls
resume. An act leaves these places alone, or it sends a module to the start of a line, behind the
line where it stands, or to the end of its program. What is said of places and of the lines that
they lie in holds after every act, if it is kept by these moves and by the edits that are made.
-/

set_option autoImplicit false

namespace LineBasic

inductive Listing.Revised (edits : Edit → Prop) (l : Listing) : Listing → Prop
  | kept : Revised edits l l
  | erased (first last : LineNumber) (h : edits .erase) :
      Revised edits l (l.eraseRange first last)
  | renumbered (r : RenumberRequest) (l' : Listing) (hok : l.renumber r = .ok l')
      (h : edits .renumber) : Revised edits l l'

structure PlaceRule (edits : Edit → Prop) (P : Listing → ProgramCounter → Prop) : Prop where
  ended : ∀ l, P l .atEnd
  line : ∀ l n, 0 ≤ n → P l (.atLine n)
  skipped : ∀ l pc offset, P l pc →
    (∀ n text, pc.line = some n → l.get? n = some text → offset = Text.byteLength text.toList) →
      P l { pc with offset }
  revised : ∀ l l' pc, l.Revised edits l' → P l pc → P l' pc

/-- What is said of places holds wherever a module goes on. Its program counter counts only if its
code is entered. -/
structure Module.Places (P : Listing → ProgramCounter → Prop) (mod : Module) (entered : Prop) :
    Prop where
  pc : entered → P mod.listing mod.pc
  loops : ∀ l ∈ mod.loops.held, P mod.listing l.resume
  gosubs : ∀ g ∈ mod.gosubs.held, P mod.listing g.resume

theorem Module.Places.of_empty {P : Listing → ProgramCounter → Prop} {mod : Module} {entered : Prop}
    (hpc : entered → P mod.listing mod.pc) (hloops : mod.loops.held = [])
    (hgosubs : mod.gosubs.held = []) : mod.Places P entered := by
  refine ⟨hpc, fun l hl => ?_, fun g hg => ?_⟩
  · rw [hloops] at hl
    cases hl
  · rw [hgosubs] at hg
    cases hg

def Module.resumes (mod : Module) : List ProgramCounter :=
  mod.loops.held.map (·.resume) ++ mod.gosubs.held.map (·.resume)

theorem Module.places_iff {P : Listing → ProgramCounter → Prop} {mod : Module} {entered : Prop} :
    mod.Places P entered ↔
      (entered → P mod.listing mod.pc) ∧ ∀ pc ∈ mod.resumes, P mod.listing pc := by
  simp only [Module.resumes, List.forall_mem_append, List.forall_mem_map]
  exact ⟨fun h => ⟨h.pc, h.loops, h.gosubs⟩, fun h => ⟨h.1, h.2.1, h.2.2⟩⟩

theorem Module.Places.relist {P : Listing → ProgramCounter → Prop} {edits : Edit → Prop}
    {mod : Module} {entered : Prop} (h : mod.Places P entered) (rule : PlaceRule edits P)
    {listing : Listing} (hl : mod.listing.Revised edits listing) :
    ({ mod with listing } : Module).Places P entered where
  pc hentered := rule.revised _ _ _ hl (h.pc hentered)
  loops l hmem := rule.revised _ _ _ hl (h.loops l hmem)
  gosubs g hmem := rule.revised _ _ _ hl (h.gosubs g hmem)

namespace Machine

abbrev PlacesAt (P : Listing → ProgramCounter → Prop) (m : Machine) (id : ModuleId) : Prop :=
  (m.moduleAt id).Places P (id ∈ m.scopes.codeStack)

namespace PlacesAt

variable {P : Listing → ProgramCounter → Prop} {m m' : Machine} {id : ModuleId}

theorem updateModule (h : m.PlacesAt P id) {j : ModuleId} {f : Module → Module}
    (hf : id = j → id < m.modules.length →
      (f (m.moduleAt id)).Places P (id ∈ m.scopes.codeStack)) :
    (m.updateModule j f).PlacesAt P id := by
  rw [PlacesAt, moduleAt_updateModule]
  split
  · rename_i hid
    exact hf hid.1 hid.2
  · exact h

theorem quiet {reads : Prop} (h : m.PlacesAt P id) (hquiet : m.QuietBut reads m') :
    m'.PlacesAt P id := by
  obtain ⟨k, -, hloops⟩ := hquiet.loops id
  constructor
  · rw [hquiet.listing, hquiet.pc, hquiet.scopes]
    exact h.pc
  · intro l hl
    rw [hquiet.listing]
    rw [hloops] at hl
    exact h.loops l ((Stack.sublist_truncate _ _).mem hl)
  · rw [hquiet.listing, hquiet.gosubs]
    exact h.gosubs

theorem setPc (h : m.PlacesAt P id) {pc : ProgramCounter}
    (hpc : id = m.scopes.codeModule → P (m.moduleAt id).listing pc) : (m.setPc pc).PlacesAt P id :=
  h.updateModule fun hid _ => ⟨fun _ => hpc hid, h.loops, h.gosubs⟩

theorem codePc (h : m.PlacesAt P id) (hm : m.WellScoped) (hid : id = m.scopes.codeModule) :
    P m.codeModule.listing m.codeModule.pc := by
  subst hid
  exact h.pc hm.paired.codeModule_mem

theorem enterCode (h : m.PlacesAt P id) (hm : m.WellScoped) (hend : ∀ l, P l .atEnd) :
    m.enterCode.2.PlacesAt P id := by
  constructor
  · intro hid
    rw [m.listing_enterCode, pc_enterCode]
    split
    · exact hend _
    · rename_i hpc
      apply h.pc
      rw [scopes_enterCode, Scopes.codeStack_enterCode] at hid
      cases hlevel : m.scopes.inLockstep with
      | true => rwa [hlevel, if_pos rfl] at hid
      | false =>
        rw [hlevel, if_neg (by simp), List.mem_cons] at hid
        rcases hid with rfl | hid
        · exact absurd ⟨hlevel, rfl, hm.variableModule_lt⟩ hpc
        · exact hid
  · rw [m.listing_enterCode, m.loops_enterCode]
    exact h.loops
  · rw [m.listing_enterCode, m.gosubs_enterCode]
    exact h.gosubs

theorem endModule (h : m.PlacesAt P id) (hend : ∀ l, P l .atEnd) : m.endModule.PlacesAt P id := by
  obtain ⟨hloops, n, hgosubs⟩ := m.moduleAt_endModule_calls id
  constructor
  · intro hid
    rw [m.listing_endModule, pc_endModule]
    split
    · exact hend _
    · apply h.pc
      rw [scopes_endModule, Scopes.codeStack_leave] at hid
      split at hid
      · exact Scopes.mem_of_mem_popKeeping hid
      · exact hid
  · rw [m.listing_endModule, hloops]
    exact h.loops
  · intro g hg
    rw [m.listing_endModule]
    rw [hgosubs] at hg
    exact h.gosubs g ((Stack.sublist_truncate _ _).mem hg)

theorem pushLoop (h : m.PlacesAt P id) {l : ForLoop}
    (hl : id = m.scopes.codeModule → P (m.moduleAt id).listing l.resume) :
    (m.pushLoop l).PlacesAt P id :=
  h.updateModule fun hid _ => ⟨h.pc, List.forall_mem_cons.2 ⟨hl hid, h.loops⟩, h.gosubs⟩

theorem pushGosub (h : m.PlacesAt P id) {g : Gosub}
    (hg : id = m.scopes.codeModule → P (m.moduleAt id).listing g.resume) :
    (m.pushGosub g).PlacesAt P id :=
  h.updateModule fun hid _ => ⟨h.pc, h.loops, List.forall_mem_cons.2 ⟨hg hid, h.gosubs⟩⟩

theorem popGosub (h : m.PlacesAt P id) {g : Gosub} (htop : m.codeModule.gosubs.top? = some g) :
    (m.popGosub g).PlacesAt P id := by
  apply h.updateModule
  intro hid _
  constructor
  · subst hid
    intro _
    exact h.gosubs g (List.mem_of_head? htop)
  · intro l hl
    exact h.loops l ((Stack.sublist_truncate _ _).mem hl)
  · intro g' hg'
    rw [Stack.pop_eq_truncate] at hg'
    exact h.gosubs g' ((Stack.sublist_truncate _ _).mem hg')

theorem restart (h : m.PlacesAt P id) : m.restart.PlacesAt P id :=
  h.updateModule fun _ _ => .of_empty h.pc rfl rfl

theorem landing {E : Prop} {c : Option Fault} (h : m.PlacesAt P id) (hm : m.WellScoped)
    (hend : ∀ l, P l .atEnd) (hland : Landing E m c m') : m'.PlacesAt P id := by
  have hentered := h.enterCode hm hend
  cases hland with
  | jump => exact hentered
  | start => exact hentered.restart
  | call =>
    apply hentered.pushGosub
    intro hid
    cases hlevel : m.scopes.inLockstep with
    | true =>
      rw [enterCode_of_inLockstep hlevel] at hid
      rw [callFrame, enterCode_of_inLockstep hlevel, if_neg (by simp), hid]
      exact h.codePc hm hid
    | false =>
      rw [callFrame, enterCode_of_ahead hlevel, if_pos rfl]
      exact hend _

theorem revise {F : Prop} {edits G : Edit → Prop} (h : m.PlacesAt P id)
    (rule : PlaceRule edits P) {j : ModuleId} {f : Module → Module}
    (hf : ∀ mod, m.modules[j]? = some mod → Revision F G mod (f mod))
    (hedits : id = j → ∀ e, G e → edits e) : (m.updateModule j f).PlacesAt P id := by
  apply h.updateModule
  intro hid hlt
  have hrevision := Revision.at hf hid hlt
  generalize f (m.moduleAt id) = mod' at hrevision
  cases hrevision with
  | forgotten =>
    refine ⟨h.pc, fun l hl => ?_, h.gosubs⟩
    cases hl
  | erased first last hG => exact h.relist rule (.erased first last (hedits hid _ hG))
  | renumbered r listing hok hG =>
    exact h.relist rule (.renumbered r listing hok (hedits hid _ hG))

/-- What an act lets a module go on at obeys the rule as before. -/
theorem act {E F : Prop} {edits G : Edit → Prop} {r : EStateM.Result Fault Machine Unit}
    (h : m.PlacesAt P id) (hm : m.WellScoped) (rule : PlaceRule edits P) (hact : Act E F G m r)
    (hedits : id = m.scopes.variableModule → ∀ e, G e → edits e) :
    (machineAfter r).PlacesAt P id := by
  cases hact with
  | none => exact h
  | named name =>
    have hensured := h.quiet (Calm.ensured m name).quiet
    have hstack := (m.ensureModule name).2.scopes.codeStack_enterVariables (m.ensureModule name).1
    rw [PlacesAt, ← hstack] at hensured
    exact hensured
  | left => exact h.endModule rule.ended
  | landed m₁ n hland hn => exact (h.landing hm rule.ended hland).setPc fun _ => rule.line _ n hn
  | missed m₁ f hland => exact h.landing hm rule.ended hland
  | ended hE => exact (h.landing hm rule.ended (.start hE)).endModule rule.ended
  | returned g htop => exact h.popGosub htop
  | returnedHome g htop => exact (h.popGosub htop).endModule rule.ended
  | skipped offset hoffset =>
    apply h.setPc
    intro hid
    subst hid
    exact rule.skipped _ _ offset (h.codePc hm rfl) hoffset
  | looped l _ hl =>
    apply h.pushLoop
    intro hid
    rw [hl, hid]
    exact h.codePc hm hid
  | loopRefused l f _ hl =>
    apply h.pushLoop
    intro hid
    rw [hl, hid]
    exact h.codePc hm hid
  | repeated l htop =>
    apply h.setPc
    intro hid
    subst hid
    exact h.loops l (List.mem_of_head? htop)
  | revised f hf => exact h.revise rule hf hedits
  | loaded hE _ text listing name =>
    exact h.updateModule fun _ _ => .of_empty (fun _ => rule.ended _) rfl rfl
  | renewed hE =>
    have hcleared : (m.updateVariableModule Module.cleared).PlacesAt P id :=
      h.updateModule fun _ _ => .of_empty (fun _ => rule.ended _) rfl rfl
    exact hcleared.setPc fun _ => rule.ended _
  | quit code => exact h

end PlacesAt

end Machine

end LineBasic
