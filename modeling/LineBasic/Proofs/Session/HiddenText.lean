import LineBasic.Proofs.Act.Course
import LineBasic.Proofs.Session.Anchored
import LineBasic.Proofs.Session.Kinds
import LineBasic.Proofs.Session.Move
import LineBasic.Proofs.Session.Returning
import LineBasic.Proofs.Session.TypedText
import LineBasic.Proofs.Untyped

/-!
# Typed text stays hidden

A module keeps typed text under two numbers below zero, or it keeps none. No session comes to the
second of them. What deals with the program does not see typed text and leaves it alone, and a run
goes over from typed text to the program, or back, only by a jump or out of a module that has
finished.
-/

set_option autoImplicit false

namespace LineBasic

open Run

namespace Listing

def TypedPair (l : Listing) : Prop :=
  (∀ n, n < 0 → l.get? n = none) ∨
    ∀ n, n < 0 → ((l.get? n).isSome ↔ n = typedLine ∨ n = typedEnd)

theorem TypedPair.of_same {l l' : Listing} (h : l.TypedPair)
    (hsame : ∀ n, n < 0 → l'.get? n = l.get? n) : l'.TypedPair := by
  rcases h with hnone | hpair
  · exact .inl fun n hn => (hsame n hn).trans (hnone n hn)
  · refine .inr fun n hn => ?_
    rw [hsame n hn]
    exact hpair n hn

theorem TypedPair.insert_typed {l : Listing} (h : l.TypedPair) (line : String) :
    ((l.insert typedLine line).insert typedEnd "").TypedPair := by
  refine .inr fun n hn => ?_
  rw [Session.get?_insert_typed]
  split
  · rename_i hend
    simp [hend]
  · rename_i hend
    split
    · rename_i htyped
      simp [htyped]
    · rename_i htyped
      refine iff_of_false (fun hsome => ?_) (by simp [hend, htyped])
      rcases h with hnone | hpair
      · rw [hnone n hn] at hsome
        cases hsome
      · exact ((hpair n hn).1 hsome).elim htyped hend

/-- No line stands between a line and the one after it. -/
theorem nextAfter?_le {l : Listing} {n n' k : LineNumber} {text : String}
    (h : l.nextAfter? n = some n') (hk : l.get? k = some text) (hlt : n < k) : n' ≤ k := by
  have hkeys : l.lines.keys.Pairwise (· < ·) := List.pairwise_map.2 l.lines.sorted
  have hmem : k ∈ l.lines.keys := List.mem_map.2 ⟨_, Table.mem_entries_iff.2 hk, rfl⟩
  obtain ⟨-, before, after, hsplit, hbefore⟩ := List.find?_eq_some_iff_append.1 h
  rw [hsplit] at hkeys hmem
  rcases List.mem_append.1 hmem with hmem | hmem
  · have := hbefore k hmem
    simp [hlt] at this
  · rcases List.mem_cons.1 hmem with rfl | hmem
    · exact Int.le_refl _
    · obtain ⟨-, hafter, -⟩ := List.pairwise_append.1 hkeys
      exact Int.le_of_lt ((List.pairwise_cons.1 hafter).1 k hmem)

/-- Behind typed text there is the line that ends it. -/
theorem TypedPair.nextAfter? {l : Listing} (h : l.TypedPair) {n n' : LineNumber} {text : String}
    (hn : n < 0) (hget : l.get? n = some text) (hend : n ≠ typedEnd)
    (hnext : l.nextAfter? n = some n') : n' = typedEnd := by
  rcases h with hnone | hpair
  · rw [hnone n hn] at hget
    cases hget
  · have hline : n = typedLine := ((hpair n hn).1 (by rw [hget]; rfl)).resolve_right hend
    obtain ⟨text', hget'⟩ := Option.isSome_iff_exists.1 ((hpair typedEnd (by decide)).2 (.inr rfl))
    have hlt := lt_of_nextAfter? hnext
    have hle := nextAfter?_le hnext hget' (by rw [hline]; decide)
    rw [hline] at hlt
    exact Int.le_antisymm hle hlt

end Listing

def Machine.TypedPairs (m : Machine) : Prop := ∀ id, (m.moduleAt id).listing.TypedPair

theorem ModuleChange.typedPair {mod mod' : Module} (h : ModuleChange mod mod')
    (hpair : mod.listing.TypedPair) : mod'.listing.TypedPair := by
  rcases h.typed_kept_or_dropped with hkept | hdropped
  · exact hpair.of_same hkept
  · exact .inl hdropped

theorem Change.typedPairs {m m' : Machine} (h : Change m m') (hpairs : m.TypedPairs) :
    m'.TypedPairs := by
  intro id
  cases h with
  | world => exact hpairs id
  | scopes => exact hpairs id
  | ensured name =>
    rcases m.moduleAt_ensureModule name id with h | ⟨-, h⟩
    · rw [h]
      exact hpairs id
    · rw [h]
      exact .inl fun _ _ => rfl
  | module id' f hf =>
    rw [Machine.moduleAt_updateModule]
    split
    · rename_i hid
      have hmod := List.getElem?_eq_getElem hid.2
      have hpair := hpairs id
      rw [Machine.moduleAt_of_getElem? hmod] at hpair ⊢
      exact (hf _ (hid.1 ▸ hmod)).typedPair hpair
    · exact hpairs id

theorem Changes.typedPairs {m m' : Machine} (h : Changes m m') (hpairs : m.TypedPairs) :
    m'.TypedPairs := by
  induction h with
  | refl => exact hpairs
  | tail _ hchange ih => exact hchange.typedPairs ih

def Machine.OffTypedEnd (m : Machine) : Prop :=
  ∀ id, m.PlacesAt (fun _ pc => pc.line ≠ some typedEnd) id

theorem placeRule_offTypedEnd :
    PlaceRule (fun _ => True) fun _ pc => pc.line ≠ some typedEnd where
  ended _ h := by cases h
  line _ n hn h := by
    cases h
    exact absurd hn (by decide)
  skipped _ _ _ h _ := h
  revised _ _ _ _ h := h

namespace Session

theorem typedPairs_stored {m : Machine} (hm : m.WellScoped) (h : m.TypedPairs) {n : LineNumber}
    (hn : 0 ≤ n) (text : String) : (stored n text m).TypedPairs := by
  intro id
  rw [listing_stored hm]
  split
  · refine (h id).of_same fun n' hn' => ?_
    have hne : n' ≠ n := Int.ne_of_lt (Int.lt_of_lt_of_le hn' hn)
    rw [Listing.get?_enterLine, if_neg hne]
  · exact h id

theorem typedPairs_prepare {m : Machine} (hm : m.WellScoped) (h : m.TypedPairs) (line : String) :
    (prepare line m).TypedPairs := by
  intro id
  rw [listing_prepare hm]
  split
  · exact (h id).insert_typed line
  · exact h id

theorem AtPrompt.typedPairs {allowed : Machine → Nat → String → Prop} {m : Machine}
    (h : AtPrompt allowed m) : m.TypedPairs := by
  induction h with
  | start host registry options =>
    intro id
    cases id with
    | zero => exact .inl fun _ _ => rfl
    | succ id => exact .inl fun _ _ => rfl
  | outside m host registry column _ ih => exact ih
  | entered m fuel line hm _ ih =>
    rcases enter_cases fuel line m with hsame | ⟨n, text, hnumber, hchanges⟩ | hchanges
    · rw [hsame]
      exact ih
    · obtain ⟨⟨hn, -⟩, -⟩ := numberedLine?_eq_some hnumber
      exact hchanges.typedPairs (typedPairs_stored hm.wellScoped ih hn text)
    · exact hchanges.typedPairs (typedPairs_prepare hm.wellScoped.clearExit ih _)

theorem Underway.typedPairs {m₀ m : Machine} {line : String} {k : Nat}
    (h : Underway m₀ line k m) : m.TypedPairs :=
  h.changes.typedPairs (typedPairs_prepare h.waiting.wellScoped.clearExit h.waiting.typedPairs _)

theorem offTypedEnd_step {m : Machine} (hm : m.WellScoped) (h : m.OffTypedEnd) :
    (step.final m).OffTypedEnd := by
  intro id
  refine (h id).step hm placeRule_offTypedEnd (fun _ _ _ => trivial) fun hid pc hadvance => ?_
  cases hadvance with
  | ended => exact placeRule_offTypedEnd.ended m.codeModule.listing
  | within n text tokens next hline =>
    have hpc := (h id).codePc hm hid
    rwa [hline] at hpc
  | onto n n' _ _ hend => exact fun hline => hend (Option.some.inj hline)

theorem offTypedEnd_prepare {m : Machine} (hm : m.WellScoped) (h : m.OffTypedEnd) (line : String) :
    (prepare line m).OffTypedEnd := by
  intro id
  refine placesAt_prepare hm line (fun _ => ⟨by decide, fun pc hmem _ => ?_⟩) fun _ => h id
  exact (Module.places_iff.1 (h id)).2 pc hmem

theorem offTypedEnd_stored {m : Machine} (h : m.OffTypedEnd) (n : LineNumber) (text : String) :
    (stored n text m).OffTypedEnd := by
  intro id
  rw [Machine.PlacesAt, Module.places_iff, pc_stored, resumes_stored]
  exact Module.places_iff.1 (h id)

theorem offTypedEnd_report {m : Machine} (hm : m.WellScoped) (h : m.OffTypedEnd) (f : Fault) :
    (report f m).OffTypedEnd := by
  refine fun id => ⟨fun hid => (h id).pc ?_, (h id).loops, (h id).gosubs⟩
  cases hrunning : inRunningLine m f with
  | false => rwa [scopes_report hrunning] at hid
  | true =>
    have hscopes : (report f m).scopes = {} := by
      rw [report, hrunning, if_pos rfl]
      exact hm.paired.reset_eq
    rw [hscopes] at hid
    cases List.mem_singleton.1 hid
    exact List.mem_of_getLast? hm.paired.codeRoot

theorem Underway.offTypedEnd {m₀ m : Machine} {line : String} {k : Nat} (h₀ : m₀.OffTypedEnd)
    (hm : Underway m₀ line k m) : m.OffTypedEnd := by
  induction hm with
  | prepared hm₀ => exact offTypedEnd_prepare hm₀.wellScoped.clearExit h₀ _
  | stepped hm hstep ih =>
    have hnext := offTypedEnd_step hm.wellScoped ih
    rwa [final, hstep] at hnext

theorem AtPrompt.offTypedEnd {allowed : Machine → Nat → String → Prop} {m : Machine}
    (h : AtPrompt allowed m) : m.OffTypedEnd := by
  induction h with
  | start host registry options =>
    intro id
    cases id with
    | zero => exact .of_empty (fun _ => placeRule_offTypedEnd.ended {}) rfl rfl
    | succ id => exact .of_empty (fun _ => placeRule_offTypedEnd.ended {}) rfl rfl
  | outside m host registry column _ ih => exact ih
  | entered m fuel line h _ ih =>
    refine (enter_rule (I := fun s => s.WellScoped ∧ s.OffTypedEnd) h.waiting ?_ ?_ ?_ ?_ ?_
      ⟨h.wellScoped, ih⟩).2
    · exact fun n text _ => ⟨h.wellScoped.stored n text, offTypedEnd_stored ih n text⟩
    · exact fun f s hs => ⟨hs.1.report f, offTypedEnd_report hs.1 hs.2 f⟩
    · exact fun s _ hs => ⟨hs.1.of_eq rfl rfl, hs.2⟩
    · exact fun s hs => ⟨hs.wellScoped, hs.offTypedEnd ih⟩
    · exact fun k s _ hs hold => ⟨hs.wellScoped.step, offTypedEnd_step hold.1 hold.2⟩

theorem Reached.typedPairs {s : State} (h : Reached s) : s.machine.TypedPairs := by
  cases h.regular with
  | waiting hm => exact hm.typedPairs
  | running hm => exact hm.typedPairs

theorem Reached.offTypedEnd {s : State} (h : Reached s) : s.machine.OffTypedEnd := by
  cases h.regular with
  | waiting hm => exact hm.offTypedEnd
  | running hm => exact hm.offTypedEnd hm.waiting.offTypedEnd

def Jumps (m : Machine) : Prop :=
  ∃ n text tokens next, Lexed m n text tokens next ∧ Statement.Jumps tokens (begun n tokens next m)

theorem exists_lexed_of_step {m m' : Machine} (h : step m = .ok false m') :
    ∃ n text tokens next, Lexed m n text tokens next := by
  cases hline : m.codeModule.pc.line with
  | none =>
    rw [step_of_stopped hline] at h
    cases h
  | some n =>
    cases hlisted : m.codeModule.listing.get? n with
    | none =>
      rw [step, get_bind] at h
      simp only [hline, hlisted] at h
      cases h
    | some text =>
      cases hlexed : lexStatement m.lexicon m.options text m.codeModule.pc.offset with
      | error f =>
        rw [step_of_unread hline hlisted hlexed] at h
        cases h
      | ok result =>
        refine ⟨n, text, result.1, result.2, hline, hlisted, hlexed, fun htokens => ?_⟩
        rw [step_of_tokens hline hlisted hlexed htokens] at h
        split at h
        · cases h
        · rename_i halive
          simpa using halive

/-- A statement that comes to no jump leaves the run in its line, or ends it. -/
theorem line_after_statement {m m' : Machine} {n n' : LineNumber} {text : String}
    {tokens : List Token} {next : Nat} (hm : m.WellScoped) (hlexed : Lexed m n text tokens next)
    (htokens : tokens ≠ []) (hjumps : ¬ Statement.Jumps tokens (begun n tokens next m))
    (hstep : step m = .ok false m') (hn' : m'.codeModule.pc.line = some n') : n' = n := by
  have hbegun := calm_begun hlexed.line tokens next
  have hstay := Statement.staying_run hjumps
  rw [step_of_statement hlexed htokens] at hstep
  obtain ⟨u, hrun, -, -, rfl⟩ := ok_of_afterStatement hstep
  rw [FollowsAt, final, hrun] at hstay
  obtain ⟨-, hstack, hlines⟩ := hstay
  have hcode : u.scopes.codeModule = m.scopes.codeModule := by
    rw [Scopes.codeModule, show u.scopes.codeStack = _ from hstack, hbegun.scopes]
    rfl
  have hline : ((begun n tokens next m).moduleAt m.scopes.codeModule).pc.line = some n := by
    rw [hbegun.pc, Machine.pc_setPc, if_pos ⟨rfl, hm.codeModule_lt⟩]
  change (u.moduleAt u.scopes.codeModule).pc.line = some n' at hn'
  rw [hcode] at hn'
  rcases hlines m.scopes.codeModule with hsame | hend
  · exact Option.some.inj (hn'.symm.trans ((show _ = _ from hsame).trans hline))
  · rw [show (u.moduleAt m.scopes.codeModule).pc.line = none from hend] at hn'
    cases hn'

/-- Where a line is left, the run goes on in the program if it was there, and the end of typed text
is the end of the run. -/
theorem line_after_line {m m' : Machine} {n n' : LineNumber} {text : String} {next : Nat}
    (hm : m.WellScoped) (hpairs : m.TypedPairs) (hoff : m.OffTypedEnd)
    (hlexed : Lexed m n text [] next) (hstep : step m = .ok false m')
    (hn' : m'.codeModule.pc.line = some n') : (0 ≤ n ∧ 0 ≤ n') ∨ Finishes m := by
  rw [step_of_end hlexed, leaveLine_apply] at hstep
  cases hnext : m.codeModule.listing.nextAfter? n with
  | none =>
    rw [hnext] at hstep
    by_cases hn : n < 0
    · simp [hn] at hstep
    · exact .inr (.pastLastLine n text next hlexed (Int.not_lt.1 hn) hnext)
  | some k =>
    have hlt := Listing.lt_of_nextAfter? hnext
    have htyped (hn : n < 0) : k = typedEnd := by
      refine (hpairs _).nextAfter? hn hlexed.listed (fun hend => ?_) hnext
      exact (hoff _).codePc hm rfl (by rw [hlexed.line, hend])
    rw [hnext] at hstep
    by_cases hn : n < 0
    · simp [htyped hn, hn] at hstep
    · have hk : k ≠ typedEnd := by
        rintro rfl
        exact hn (Int.lt_trans hlt (by decide))
      simp only [Option.some.injEq, hk, if_false] at hstep
      cases hstep
      rw [Machine.setPc, Machine.codeModule_updateCodeModule hm.codeModule_lt] at hn'
      cases hn'
      exact .inl ⟨Int.not_lt.1 hn, Int.le_of_lt (Int.lt_of_le_of_lt (Int.not_lt.1 hn) hlt)⟩

theorem line_after_step {m m' : Machine} {n n' : LineNumber} (hm : m.WellScoped)
    (hpairs : m.TypedPairs) (hoff : m.OffTypedEnd) (hstep : step m = .ok false m')
    (hn : m.codeModule.pc.line = some n) (hn' : m'.codeModule.pc.line = some n') :
    (n < 0 ↔ n' < 0) ∨ Jumps m ∨ Finishes m := by
  obtain ⟨k, text, tokens, next, hlexed⟩ := exists_lexed_of_step hstep
  obtain rfl : k = n := Option.some.inj (hlexed.line.symm.trans hn)
  by_cases htokens : tokens = []
  · subst htokens
    rcases line_after_line hm hpairs hoff hlexed hstep hn' with ⟨hn, hn'⟩ | hfinishes
    · exact .inl (iff_of_false (Int.not_lt.2 hn) (Int.not_lt.2 hn'))
    · exact .inr (.inr hfinishes)
  · by_cases hjumps : Statement.Jumps tokens (begun k tokens next m)
    · exact .inr (.inl ⟨k, text, tokens, next, hlexed, hjumps⟩)
    · rw [line_after_statement hm hlexed htokens hjumps hstep hn']
      exact .inl .rfl

/-- No data are read from typed text, wherever a session comes to a statement. -/
theorem Reached.untyped {s : State} (h : Reached s) {n : LineNumber} {text : String}
    {tokens tokens' : List Token} {next : Nat} {u : Machine}
    (hlexed : Lexed s.machine n text tokens next)
    (hcomes : Statement.ComesTo tokens (begun n tokens next s.machine) tokens' u) :
    Untyped u u.untyped := by
  have hcalm := (calm_begun hlexed.line tokens next).trans hcomes.calm
  have hchanges : Changes s.machine u :=
    (changes_setPc s.machine ⟨some n, next⟩).trans hcalm.quiet.changes
  exact ⟨rfl, fun id => (hchanges.sound h.point.sound id).data⟩

/-- In every state of a session a module has typed text with the line that ends it, or none, and no
module is to go on in that line. A statement that lists, finds, saves or dumps, that runs the
program or jumps to a line, or that reads data does what it would do if there were no typed text. A
jump to a line leads to a line of the program. Where lines are deleted or renumbered typed text
stays. A run goes over from typed text to the program or from the program to typed text only by a
jump or where a module has finished. -/
theorem typed_text_stays_hidden {s : State} (h : Reached s) :
    (∀ id, (s.machine.moduleAt id).listing.TypedPair) ∧
    (∀ id ∈ s.machine.scopes.codeStack, (s.machine.moduleAt id).pc.line ≠ some typedEnd) ∧
    (∀ n text tokens next tokens' u, Lexed s.machine n text tokens next →
      Statement.ComesTo tokens (begun n tokens next s.machine) tokens' u →
        (Statement.Surveys u tokens' →
          Alike Untyped (Statement.run tokens' u) (Statement.run tokens' u.untyped)) ∧
        (Statement.JumpsToLine u tokens' →
          Effect.landing.Leads u ((Statement.run tokens').final u)) ∧
        (Statement.Rearranges u tokens' →
          Effect.keepingTyped.Leads u ((Statement.run tokens').final u))) ∧
    ∀ m m' n n', s = .running m → step m = .ok false m' → m.codeModule.pc.line = some n →
      m'.codeModule.pc.line = some n' → (n < 0 ↔ n' < 0) ∨ Jumps m ∨ Finishes m := by
  refine ⟨h.typedPairs, fun id hid => (h.offTypedEnd id).pc hid, ?_, ?_⟩
  · intro n text tokens next tokens' u hlexed hcomes
    exact ⟨(h.untyped hlexed hcomes).alikeAt_run, Statement.landing_run,
      Statement.keepingTyped_run⟩
  · rintro m m' n n' rfl hstep hn hn'
    exact line_after_step h.point.wellScoped h.typedPairs h.offTypedEnd hstep hn hn'

set_option maxRecDepth 100000 in
/-- A typed line goes to a line of the program that lists. The jump sees no typed text, and it is by
the jump that the run goes over. -/
theorem typed_text_stays_hidden_behind_jump :
    let program := ["10 PRINT 1", "20 LIST"]
    let jump := [.word .GOTO, .integer "20"]
    ∃ m m', Reached (.running m) ∧ Lexed m typedLine "GOTO 20" jump 7 ∧ step m = .ok false m' ∧
      m'.codeModule.pc.line = some 20 ∧ m.codeModule.listing.TypedPair ∧
      (let u := begun typedLine jump 7 m
      Alike Untyped (Statement.run jump u) (Statement.run jump u.untyped)) ∧
      (Jumps m ∨ Finishes m) ∧
      (enterAll 9 (program ++ ["GOTO 20"]) {}).host.printedSince 0 =
        "10  PRINT 1\n20  LIST\n" := by
  intro program jump
  let m₀ := enterAll 9 program {}
  obtain ⟨hstatuses, hlisted, m, hm, hlexed, m', hm', hline⟩ :
      .running ∉ statuses 9 program {} ∧
      (enterAll 9 (program ++ ["GOTO 20"]) {}).host.printedSince 0 = "10  PRINT 1\n20  LIST\n" ∧
      ∃ m, ongoing 0 (prepare (normalLine "GOTO 20") { m₀ with exitCode := none }) = some m ∧
        Lexed m typedLine "GOTO 20" jump 7 ∧
        ∃ m', ongoing 1 m = some m' ∧ m'.codeModule.pc.line = some 20 := by
    decide +kernel
  have hstart : Underway m₀ "GOTO 20" 0 _ :=
    .prepared (Waiting.enterAll 9 _) (by decide +kernel) (by decide +kernel) (by decide +kernel)
  have hwaiting : Reached (.waiting m₀) :=
    Reached.moves (.start {} {} {} rfl) (moves_enterAll hstatuses)
  have hreached := hwaiting.underway (hstart.ongoing hm)
  obtain ⟨_, hstep, ⟨⟩⟩ := ongoing_succ.1 hm'
  obtain ⟨hpair, -, hstatement, hpasses⟩ := typed_text_stays_hidden hreached
  obtain ⟨hsurvey, -⟩ := hstatement _ _ _ _ _ _ hlexed (.here _ _)
  refine ⟨m, m', hreached, hlexed, hstep, hline, hpair _, hsurvey (.word _ (by decide)), ?_,
    hlisted⟩
  exact (hpasses m m' _ _ rfl hstep hlexed.line hline).resolve_left (by decide)

end Session

end LineBasic
