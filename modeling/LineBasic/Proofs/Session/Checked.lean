import LineBasic.Proofs.Data
import LineBasic.Proofs.Session.Kinds

/-!
# Running checked lines

A run that starts with nothing under way comes only to places that were visited when its lines were
checked, or behind the end of a line, as long as no lines are edited. So if all lines have passed
the check, every statement that is reached can be lexed, and so can every line that `READ` looks
at.
-/

set_option autoImplicit false

namespace LineBasic

open Run

theorem Act.listing {E F : Prop} {G : Edit → Prop} {m : Machine}
    {r : EStateM.Result Fault Machine Unit} (h : Act E F G m r) (hG : ∀ e, ¬G e) (id : ModuleId) :
    ((machineAfter r).moduleAt id).listing = (m.moduleAt id).listing := by
  have ofCode {f : Module → Module} (hf : ∀ mod, (f mod).listing = mod.listing) :
      ((m.updateCodeModule f).moduleAt id).listing = (m.moduleAt id).listing :=
    Machine.moduleAt_updateModule_of_keeps hf m _ id
  cases h with
  | none => rfl
  | named name => exact (Machine.Calm.ensured m name).quiet.listing id
  | left => exact m.listing_endModule id
  | landed m₁ n hland => exact (m₁.listing_setPc _ id).trans (hland.listing id)
  | missed m₁ f hland => exact hland.listing id
  | ended hE => exact (Machine.listing_endModule _ id).trans ((Landing.start hE).listing id)
  | returned g => exact ofCode fun _ => by rfl
  | returnedHome g => exact (Machine.listing_endModule _ id).trans (ofCode fun _ => by rfl)
  | skipped offset => exact m.listing_setPc _ id
  | looped l => exact ofCode fun _ => by rfl
  | loopRefused l f => exact ofCode fun _ => by rfl
  | repeated l => exact m.listing_setPc _ id
  | revised f hf =>
    refine Revision.rule (P := fun mod => mod.listing = (m.moduleAt id).listing) hf ?_ rfl
    intro mod' hrevision
    cases hrevision with
    | forgotten => rfl
    | erased first last hedits => exact absurd hedits (hG _)
    | renumbered r listing hok hedits => exact absurd hedits (hG _)
  | loaded _ hedits => exact absurd hedits (hG _)
  | renewed _ hedits => exact absurd hedits (hG _)
  | quit code => rfl

namespace Session

theorem listing_step {m : Machine} (h : ∀ e, ¬Edits e m) (id : ModuleId) :
    ((step.final m).moduleAt id).listing = (m.moduleAt id).listing := by
  refine step_rule (I := fun m₁ => (m₁.moduleAt id).listing = (m.moduleAt id).listing)
    (J := fun m₁ => (m₁.moduleAt id).listing = (m.moduleAt id).listing) ?_ ?_ ?_ ?_ rfl
  · intro m₁ m₂ hquiet hm₁
    exact (hquiet.listing id).trans hm₁
  · intro m₁ pc hm₁
    exact (m₁.listing_setPc pc id).trans hm₁
  · intro m₁ r hact hm₁
    exact (hact.listing h id).trans hm₁
  · intro m₁ host hm₁
    exact hm₁

end Session

def CanRun (home id : ModuleId) (n : LineNumber) : Prop := 0 ≤ n ∨ n = typedLine ∧ id = home

def Listing.Checked (l : Lexicon) (o : LexOptions) (home id : ModuleId) (listing : Listing) :
    Prop :=
  ∀ n text, CanRun home id n → listing.get? n = some text → checkLine l o text = .ok ()

/-- If all lines that a module can run pass the check, a place lies in one of them, and the rest of
it can be lexed. -/
def ReadablePlace (l : Lexicon) (o : LexOptions) (home id : ModuleId) (listing : Listing)
    (pc : ProgramCounter) : Prop :=
  listing.Checked l o home id → ∀ n, pc.line = some n → CanRun home id n ∧
    ∀ text, listing.get? n = some text → Readable l o text pc.offset

section

variable {l : Lexicon} {o : LexOptions} {home id : ModuleId} {listing : Listing}

theorem readablePlace_atLine {n : LineNumber} (hn : CanRun home id n) :
    ReadablePlace l o home id listing (.atLine n) := by
  rintro hchecked _ ⟨⟩
  exact ⟨hn, fun text htext => readable_zero (hchecked n text hn htext)⟩

theorem readablePlace_atEnd : ReadablePlace l o home id listing .atEnd := by
  rintro _ _ ⟨⟩

theorem placeRule_readable : PlaceRule (fun _ => False) (ReadablePlace l o home id) where
  ended _ := readablePlace_atEnd
  line _ n hn := readablePlace_atLine (.inl hn)
  skipped listing pc offset h hoffset hchecked n hline := by
    refine ⟨(h hchecked n hline).1, fun text htext => ?_⟩
    rw [hoffset n text hline htext]
    exact readable_byteLength l o text
  revised listing listing' pc hrevised h := by
    cases hrevised with
    | kept => exact h
    | erased _ _ hedits => exact hedits.elim
    | renumbered _ _ _ hedits => exact hedits.elim

end

namespace Session

/-- Where a step goes on the rest of the line can be lexed, too. -/
theorem Advance.readablePlace {m : Machine} {home id : ModuleId} {pc : ProgramCounter}
    (h : Advance m pc)
    (hplace : ReadablePlace m.lexicon m.options home id m.codeModule.listing m.codeModule.pc) :
    ReadablePlace m.lexicon m.options home id m.codeModule.listing pc := by
  cases h with
  | ended => exact readablePlace_atEnd
  | within n text tokens next hline htext hlex htokens =>
    rintro hchecked _ ⟨⟩
    obtain ⟨hn, hreadable⟩ := hplace hchecked n hline
    refine ⟨hn, fun text' htext' => ?_⟩
    rw [htext] at htext'
    cases htext'
    exact (hreadable text htext).behind hlex htokens
  | onto n n' hline hn hend =>
    intro hchecked
    refine readablePlace_atLine ?_ hchecked
    left
    rcases (hplace hchecked n hline).1 with h | ⟨rfl, -⟩
    · exact Int.le_trans h (Int.le_of_lt hn)
    · -- between typed text and the program there is only the line behind typed text
      dsimp only [LineNumber, typedLine, typedEnd] at hn hend ⊢
      omega

/-- Nothing is under way: both scopes are at the root, and no loops and no calls are left. -/
structure AtRest (m : Machine) : Prop where
  scopes : m.scopes = {}
  loops : ∀ id, (m.moduleAt id).loops.held = []
  gosubs : ∀ id, (m.moduleAt id).gosubs.held = []

/-- A line that is given to a machine at rest is the only place to go on. -/
theorem AtRest.placesAt_prepare {m : Machine} (hrest : AtRest m) (hm : m.WellScoped)
    (line : String) {P : Listing → ProgramCounter → Prop} {id : ModuleId}
    (h : id = rootModule → ∀ l, P l (.atLine typedLine)) : (prepare line m).PlacesAt P id := by
  have hvariables : m.scopes.variableModule = rootModule := by rw [hrest.scopes]; rfl
  refine Session.placesAt_prepare hm line (fun hid => ?_) fun hid => ?_
  · refine ⟨h (hid.trans hvariables) _, fun pc hpc => ?_⟩
    rw [Module.resumes, hrest.loops, hrest.gosubs] at hpc
    cases hpc
  · refine .of_empty (fun hentered => absurd ?_ hid) (hrest.loops id) (hrest.gosubs id)
    rw [hrest.scopes] at hentered
    exact (List.mem_singleton.1 hentered).trans hvariables.symm

/-- In a run without edits every place lies in a checked line, and the rest of the line can be
lexed. -/
theorem Underway.checked {m₀ m : Machine} {line : String} {k : Nat} (hm : Underway m₀ line k m)
    (hrest : AtRest m₀)
    (hlines : ∀ id n text, 0 ≤ n → (m₀.moduleAt id).listing.get? n = some text →
      checkLine m₀.lexicon m₀.options text = .ok ())
    (hline : checkLine m₀.lexicon m₀.options (normalLine line) = .ok ())
    (hedits : ∀ j s, j < k → Underway m₀ line j s → ∀ e, ¬Edits e s) (id : ModuleId) :
    (m.moduleAt id).listing.Checked m₀.lexicon m₀.options rootModule id ∧
      m.PlacesAt (ReadablePlace m₀.lexicon m₀.options rootModule id) id := by
  induction hm with
  | prepared hm₀ =>
    have hscoped := hm₀.wellScoped.clearExit
    have hvariables : m₀.scopes.variableModule = rootModule := by rw [hrest.scopes]; rfl
    have hrest' : AtRest { m₀ with exitCode := none } := ⟨hrest.scopes, hrest.loops, hrest.gosubs⟩
    constructor
    · intro n text hn htext
      rw [listing_prepare hscoped] at htext
      -- In the module that the line is typed in, the line itself is the only new one to read.
      split at htext
      · have hend : n ≠ typedEnd := by
          rintro rfl
          rcases hn with h | ⟨h, -⟩ <;> exact absurd h (by decide)
        rw [get?_insert_typed, if_neg hend] at htext
        split at htext
        · rw [← Option.some.inj htext]
          exact hline
        · rename_i htyped
          rcases hn with h | ⟨h, -⟩
          · exact hlines id n text h htext
          · exact absurd h htyped
      · rename_i hid
        rcases hn with h | ⟨-, h⟩
        · exact hlines id n text h htext
        · exact absurd (h.trans hvariables.symm) hid
    · exact hrest'.placesAt_prepare hscoped _ fun hid _ => readablePlace_atLine (.inr ⟨rfl, hid⟩)
  | @stepped k m m' hm hstep ih =>
    obtain ⟨hchecked, hplaces⟩ := ih fun j s hj => hedits j s (Nat.lt_succ_of_lt hj)
    have hnone := hedits k m (Nat.lt_succ_self k) hm
    obtain ⟨hlexicon, hoptions⟩ := hm.lexicon
    have hlisting := listing_step hnone id
    have hnext := hplaces.step hm.wellScoped placeRule_readable (fun _ e he => hnone e he)
      fun hid pc hadvance => by
        subst hid
        rw [← hlexicon, ← hoptions]
        refine hadvance.readablePlace ?_
        rw [hlexicon, hoptions]
        exact hplaces.codePc hm.wellScoped rfl
    rw [final, hstep] at hlisting hnext
    exact ⟨by rw [hlisting]; exact hchecked, hnext⟩

/-- The lines where items are looked for can be lexed, if those of the program can. -/
theorem lexAll_of_mem_dataLines {l : Lexicon} {o : LexOptions} {home id : ModuleId} {mod : Module}
    (hmod : mod.Sound) (hchecked : mod.listing.Checked l o home id) {e : LineNumber × String}
    (he : e ∈ Statement.dataLines mod) : ∃ statements, lexAll l o e.2.toList = .ok statements := by
  obtain ⟨hn, hlisted | hgone⟩ := Statement.get?_of_mem_dataLines hmod he
  · exact lexAll_of_checkLine (hchecked e.1 e.2 (.inl hn) hlisted)
  · rw [hgone]
    exact ⟨[], lexAll_nil l o⟩

/-- A line that has passed the check is run from a machine with nothing under way, where all
numbered lines of all modules have passed it, too. As long as no statement edits lines, every
statement that the run comes to can be lexed where it stands, and so can all lines where a `READ`
looks for an item, so that their items are those of their statements. -/
theorem checked_lines_lex_when_run {m₀ m : Machine} {line : String} {k : Nat}
    (hm : Underway m₀ line k m) (hrest : AtRest m₀)
    (hlines : ∀ id n text, 0 ≤ n → (m₀.moduleAt id).listing.get? n = some text →
      checkLine m₀.lexicon m₀.options text = .ok ())
    (hline : checkLine m₀.lexicon m₀.options (normalLine line) = .ok ())
    (hedits : ∀ j s, j < k → Underway m₀ line j s → ∀ e, ¬Edits e s) :
    (∀ n text, m.codeModule.pc.line = some n → m.codeModule.listing.get? n = some text →
      ∃ found, lexStatement m.lexicon m.options text m.codeModule.pc.offset = .ok found) ∧
    ∀ n text tokens next rest u v, Lexed m n text tokens next →
      Statement.ComesTo tokens (begun n tokens next m) (.word .READ :: rest) u →
      Statement.TakesItem rest u v →
        ∃ index, Statement.readItem v =
            Statement.readFrom index (Statement.dataLines v.codeModule) v ∧
          ∀ e ∈ Statement.dataLines v.codeModule, ∃ statements,
            lexAll v.lexicon v.options e.2.toList = .ok statements ∧
            Statement.lineData v.lexicon v.options e.2.toList =
              (statements.mapM Statement.statementData).map List.flatten := by
  obtain ⟨hlexicon, hoptions⟩ := hm.lexicon
  obtain ⟨hchecked, hplaces⟩ :=
    hm.checked hrest hlines hline hedits m.scopes.codeModule
  constructor
  · intro n text hn htext
    rw [hlexicon, hoptions]
    exact ((hplaces.codePc hm.wellScoped rfl hchecked n hn).2 text htext).lexes
  · intro n text tokens next rest u v hlexed hcomes htakes
    obtain ⟨index, hindex⟩ := Statement.readItem_apply v
    refine ⟨index, hindex, fun e he => ?_⟩
    have hcalm := (calm_begun hlexed.line tokens next).trans (hcomes.calm.trans htakes.calm)
    have hchanges : Changes m v := (changes_setPc m _).trans hcalm.changes
    have hlisting : v.codeModule.listing = m.codeModule.listing := by
      rw [Machine.codeModule, hcalm.quiet.listing, hcalm.scopes, Machine.listing_setPc]
      rfl
    have hsame : v.lexicon = m₀.lexicon ∧ v.options = m₀.options := by
      rw [Machine.lexicon, hchanges.registry, hchanges.options]
      exact ⟨hlexicon, hoptions⟩
    have hv : v.codeModule.listing.Checked m₀.lexicon m₀.options rootModule
        m.scopes.codeModule := by
      rw [hlisting]
      exact hchecked
    rw [hsame.1, hsame.2]
    obtain ⟨statements, hall⟩ :=
      lexAll_of_mem_dataLines (hchanges.sound hm.sound v.scopes.codeModule) hv he
    exact ⟨statements, hall, Statement.lineData_of_lexAll hall⟩

/-- A loop comes back to a `READ` in the middle of its line, and the `READ` goes on behind the item
that it had found before. -/
theorem checked_lines_lex_when_run_in_loop :
    let line := "FOR I = 1 TO 2: READ A$: NEXT"
    let tokens := [Token.word .READ, .ident "A$"]
    let data := "DATA \"X\", Y Z"
    let m₀ := enterAll 9 ["10 " ++ data] {}
    ∃ m v, Underway m₀ line 3 m ∧ Lexed m typedLine line tokens 24 ∧
      Statement.TakesItem [.ident "A$"] (begun typedLine tokens 24 m) v ∧
      Statement.dataLines v.codeModule = [(10, data)] ∧
      ∃ statements, lexAll v.lexicon v.options data.toList = .ok statements := by
  intro line tokens data m₀
  have hstart : Underway m₀ line 0 _ :=
    .prepared (Waiting.enterAll 9 _) (by decide +kernel) (by decide +kernel) (by decide +kernel)
  obtain ⟨hscopes, hline, hmodules⟩ : m₀.scopes = {} ∧
      (checkLine m₀.lexicon m₀.options (normalLine line)).toOption = some () ∧
      ∀ mod ∈ m₀.modules, mod.loops.held = [] ∧ mod.gosubs.held = [] ∧
        ∀ e ∈ mod.listing.lines.entries,
          (checkLine m₀.lexicon m₀.options e.2).toOption = some () := by
    decide +kernel
  have hmodule := Machine.forall_moduleAt hmodules ⟨rfl, rfl, fun e he => by cases he⟩
  have hrest : AtRest m₀ := ⟨hscopes, fun id => (hmodule id).1, fun id => (hmodule id).2.1⟩
  have hlines : ∀ id n text, 0 ≤ n → (m₀.moduleAt id).listing.get? n = some text →
      checkLine m₀.lexicon m₀.options text = .ok () := fun id n text _ htext =>
    eq_ok_of_toOption ((hmodule id).2.2 (n, text) (Table.mem_entries_iff.2 htext))
  let start := prepare (normalLine line) { m₀ with exitCode := none }
  let taking (m : Machine) : Machine :=
    let m := begun typedLine tokens 24 m
    (targetPlace m.scopes.variableModule ⟨"A$", none⟩).final m
  obtain ⟨hkeeps, m, hm, hlexed, hdata⟩ :
      (∀ j, j < 3 → ((ongoing j start).bind nextTokens?).all keepsLines = true) ∧
      ∃ m, ongoing 3 start = some m ∧ Lexed m typedLine line tokens 24 ∧
        Statement.dataLines (taking m).codeModule = [(10, data)] := by
    decide +kernel
  have hedits : ∀ j s, j < 3 → Underway m₀ line j s → ∀ e, ¬Edits e s :=
    fun j s hj hs => hs.not_edits (hkeeps j hj)
  have hunder := hstart.ongoing hm
  have htakes : Statement.TakesItem [.ident "A$"] (begun typedLine tokens 24 m) (taking m) :=
    .here rfl rfl rfl rfl
  obtain ⟨-, hreads⟩ :=
    checked_lines_lex_when_run hunder hrest hlines (eq_ok_of_toOption hline) hedits
  obtain ⟨index, -, hlexes⟩ := hreads _ _ _ _ _ _ _ hlexed (.here _ _) htakes
  obtain ⟨statements, hall, -⟩ :=
    hlexes (10, data) (by rw [hdata]; exact List.mem_singleton_self _)
  exact ⟨m, taking m, hunder, hlexed, htakes, hdata, statements, hall⟩

end Session

end LineBasic
