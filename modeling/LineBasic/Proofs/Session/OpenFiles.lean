import LineBasic.Proofs.Session.Move
import LineBasic.Proofs.World.FileText

/-!
# Open files

What is printed to a file is gathered under its handle and reaches the host when the file is closed.
Until then it is what the statements that printed to it have produced, one after another, and no
other statement adds to it or takes from it. A statement that fails has produced something too.
-/

set_option autoImplicit false

namespace LineBasic.Session

open Run

inductive PrintsTo (n : Nat) (m : Machine) : String → Prop
  | intro {line : LineNumber} {text : String} {tokens rest : List Token} {next : Nat}
      {digits : String} {u : Machine} (hlexed : Lexed m line text tokens next)
      (hcomes : Statement.ComesTo tokens (begun line tokens next m)
        (.word .PRINT :: .fileHandle digits :: rest) u)
      (hn : Statement.handleOf digits = .ok n) :
      PrintsTo n m (Statement.fileText n (Statement.afterHandle rest) u)

inductive Gathered (n : Nat) (name : String) : List String → State → Prop
  | opened {m : Machine} {text : String} (h : Reached (.running m)) (hopen : Permitted m .openFile)
      (hclosed : ∀ name text, m.files.get? n ≠ some (.writing name text))
      (hfile : (State.after (step m)).machine.files.get? n = some (.writing name text)) :
      Gathered n name [] (.after (step m))
  | printed {m : Machine} {outs : List String} {out : String}
      (h : Gathered n name outs (.running m)) (hprints : PrintsTo n m out) :
      Gathered n name (outs ++ [out]) (.after (step m))
  | passed {s s' : State} {outs : List String} (h : Gathered n name outs s) (hmove : Move s s')
      (hprint : ∀ m, s = .running m → ¬ Permitted m (.printTo n))
      (hclose : ∀ m, s = .running m → ¬ Permitted m (.closeFile n)) : Gathered n name outs s'

theorem Gathered.reached {n : Nat} {name : String} {outs : List String} {s : State}
    (h : Gathered n name outs s) : Reached s := by
  induction h with
  | opened h => exact h.moved (.stepped _)
  | printed _ _ ih => exact ih.moved (.stepped _)
  | passed _ hmove _ _ ih => exact ih.moved hmove

variable {n : Nat} {m : Machine} {name text : String}

theorem not_printTo_of_openFile (h : Permitted m .openFile) : ¬ Permitted m (.printTo n) := by
  intro hprint
  cases h.unique hprint (by simp) (by simp)

theorem exists_printsTo (h : Permitted m (.printTo n)) : ∃ out, PrintsTo n m out := by
  obtain ⟨line, text, tokens, next, hlexed, _, u, hcomes, hpermits⟩ := h.resolve_left (by simp)
  cases hpermits with
  | printTo hn => exact ⟨_, .intro hlexed hcomes hn⟩

theorem files_of_comesTo {tokens tokens' : List Token} {line : LineNumber} {next : Nat}
    {u : Machine} (hscreen : m.printFile = none)
    (hcomes : Statement.ComesTo tokens (begun line tokens next m) tokens' u) :
    u.files = m.files ∧ u.host.files = m.host.files := by
  obtain ⟨host, column, tokenCount, hbegun, -, -, hfiles⟩ := begun_eq hscreen line tokens next
  have hworld := hcomes.evaluated.sameWorld
  rw [hworld.files, hworld.host, hbegun]
  exact ⟨rfl, hfiles⟩

theorem PrintsTo.file {out : String} (h : PrintsTo n m out) (hscreen : m.printFile = none)
    (hfile : m.files.get? n = some (.writing name text)) :
    (State.after (step m)).machine.files.get? n = some (.writing name (text ++ out)) := by
  cases h with
  | @intro line _ tokens rest next digits u hlexed hcomes hn =>
    have hfile : u.files.get? n = some (.writing name text) := by
      rw [(files_of_comesTo hscreen hcomes).1, hfile]
    have htokens := hcomes.ne_nil
    have hrun : (Statement.run tokens).final (begun line tokens next m) =
        (Statement.print (.fileHandle digits :: rest)).final u := by
      rw [final, final, hcomes.run_eq, Statement.run]
    rw [(world_after_statement hlexed htokens).1, hrun, (Statement.filed_print rest hn hfile).1]
    exact Statement.file_of_printList hfile _

theorem Permitted.close (h : Permitted m (.closeFile n)) (hscreen : m.printFile = none)
    (hfile : m.files.get? n = some (.writing name text)) :
    (State.after (step m)).machine.host.files = m.host.files.insert name text ∧
      (State.after (step m)).machine.files = m.files.erase n := by
  obtain ⟨line, _, tokens, next, hlexed, _, u, hcomes, hpermits⟩ := h.resolve_left (by simp)
  obtain ⟨hfiles, hhost⟩ := files_of_comesTo hscreen hcomes
  cases hpermits with
  | @closeFile _ rest _ u' items _ hname hitems hn =>
    have hworld := ((obeys_evaluateAll rest).ok hitems).sameWorld
    have hfile : u'.files.get? n = some (.writing name text) := by
      rw [hworld.files, hfiles, hfile]
    have htokens := hcomes.ne_nil
    have hrun : (Statement.run tokens).final (begun line tokens next m) =
        { u' with files := u'.files.erase n, host := u'.host.writeFile name text } := by
      rw [final, hcomes.run_eq, Statement.run, Statement.runCommand_apply hname, bind_apply, hitems]
      change machineAfter (BuiltinCommand.close items u') = _
      rw [BuiltinCommand.close_apply hn hfile]
      rfl
    obtain ⟨hafter, hafter', -⟩ := world_after_statement hlexed htokens
    rw [hafter, hafter', hrun]
    change u'.host.files.insert name text = _ ∧ u'.files.erase n = _
    rw [hworld.host, hworld.files, hfiles, hhost]
    exact ⟨rfl, rfl⟩

theorem Move.files {s s' : State} (h : Move s s') (hscreen : s.machine.printFile = none)
    (hwaiting : ∀ m, s ≠ .running m) : s'.machine.files = s.machine.files := by
  cases h with
  | supplied => rfl
  | printed m text =>
    exact ((m.leads_print (p := fun _ => False) text).2 hscreen).files (fun _ h => h.elim)
  | entered m line => exact (deeds_entered (m := m) hscreen line).files (fun _ h => h.elim)
  | stepped m => exact absurd rfl (hwaiting m)

/-- A move that neither prints to a file nor closes it leaves it as it is. -/
theorem Move.file_kept {s s' : State} (h : Move s s') (hscreen : s.machine.printFile = none)
    (hprint : ∀ m, s = .running m → ¬ Permitted m (.printTo n))
    (hclose : ∀ m, s = .running m → ¬ Permitted m (.closeFile n))
    (hfile : s.machine.files.get? n = some (.writing name text)) :
    s'.machine.files.get? n = some (.writing name text) := by
  cases s with
  | waiting m => rw [h.files hscreen (by simp), hfile]
  | running m =>
    cases h
    have hkept := (deeds_after hscreen).file_kept (hprint m rfl)
      (fun hclosed => absurd hclosed (hclose m rfl)) hfile
    exact hkept.resolve_right fun hclosed => hclose m rfl hclosed.1

/-- The text under a handle is what was printed to it. -/
theorem Gathered.file {outs : List String} {s : State} (h : Gathered n name outs s) :
    s.machine.files.get? n = some (.writing name (String.join outs)) := by
  induction h with
  | opened h hopen hclosed hfile =>
    obtain ⟨-, rfl⟩ :=
      (deeds_after h.printFile).file_opened not_printTo_of_openFile hclosed hfile
    exact hfile
  | printed h hprints ih => simpa using hprints.file h.reached.printFile ih
  | passed h hmove hprint hclose ih => exact hmove.file_kept h.reached.printFile hprint hclose ih

theorem Gathered.move {outs : List String} {s s' : State} (h : Gathered n name outs s)
    (hmove : Move s s') (hclose : ∀ m, s = .running m → ¬ Permitted m (.closeFile n)) :
    ∃ outs, Gathered n name outs s' := by
  by_cases hprint : ∃ m, s = .running m ∧ Permitted m (.printTo n)
  · obtain ⟨m, rfl, hprint⟩ := hprint
    obtain ⟨out, hout⟩ := exists_printsTo hprint
    cases hmove
    exact ⟨_, h.printed hout⟩
  · exact ⟨outs, h.passed hmove (fun m hm hp => hprint ⟨m, hm, hp⟩) hclose⟩

/-- Every file that is written to has such a history. -/
theorem Reached.gathered {s : State} (h : Reached s)
    (hfile : s.machine.files.get? n = some (.writing name text)) :
    ∃ outs, Gathered n name outs s := by
  revert name text
  refine h.rule (P := fun s => ∀ {name text}, s.machine.files.get? n = some (.writing name text) →
    ∃ outs, Gathered n name outs s) (fun _ _ _ _ _ _ hfile => by cases hfile) ?_
  · intro s s' h hmove ih name text hfile
    by_cases hbefore : ∃ name text, s.machine.files.get? n = some (.writing name text)
    · obtain ⟨name', text', hbefore⟩ := hbefore
      obtain ⟨outs, hgathered⟩ := ih hbefore
      obtain ⟨outs', hgathered'⟩ := hgathered.move hmove (by
        rintro m rfl hclose
        cases hmove
        rw [(hclose.close h.printFile hbefore).2] at hfile
        simp at hfile)
      have hsame := hgathered'.file
      rw [hfile] at hsame
      cases hsame
      exact ⟨outs', hgathered'⟩
    · simp only [not_exists] at hbefore
      cases s with
      | waiting m =>
        rw [hmove.files h.printFile (by simp)] at hfile
        exact absurd hfile (hbefore name text)
      | running m =>
        cases hmove
        have hopened :=
          (deeds_after h.printFile).file_opened not_printTo_of_openFile hbefore hfile
        exact ⟨[], .opened h hopened.1 hbefore hfile⟩

/-- A file that is open for writing holds what was printed to it since it was opened, and that is
what closing it writes to the host. What is printed to a file goes nowhere else, what is printed to
the screen and what is reported goes to no file, and after a statement everything is printed to the
screen again. A list that can be evaluated produces the text of its items, or of their form. -/
theorem close_writes_what_was_printed {s : State} (h : Reached s) (n : Nat) :
    (∀ name text, s.machine.files.get? n = some (.writing name text) ↔
      ∃ outs, Gathered n name outs s ∧ text = String.join outs) ∧
    (∀ m name outs, s = .running m → Gathered n name outs s → Permitted m (.closeFile n) →
      let m' := (State.after (step m)).machine
      m'.host.files = m.host.files.insert name (String.join outs) ∧
        m'.files = m.files.erase n) ∧
    (∀ digits rest m, let m' := (Statement.print (.fileHandle digits :: rest)).final m
      m'.host = m.host ∧ m'.column = m.column ∧
        (Statement.handleOf digits ≠ .ok n → m'.files.get? n = m.files.get? n)) ∧
    (∀ tokens m, (∀ digits rest, tokens ≠ .fileHandle digits :: rest) → m.printFile = none →
      ((Statement.print tokens).final m).files = m.files) ∧
    (∀ f m, (report f m).files = m.files) ∧
    s.machine.printFile = none ∧
    (∀ m, s = .running m → (step.final m).printFile = none) ∧
    (∀ m fuel line, s = .waiting m → (enter fuel line m).2.printFile = none) ∧
    (∀ tokens m items m', (∀ more, tokens ≠ .word .USING :: more) →
      evaluateAll tokens m = .ok items m' →
      Statement.fileText n tokens m =
        Statement.itemsText items ++ if Statement.endsLine items then "\n" else "") ∧
    ∀ tokens m format items m' text,
      evaluateAll tokens m = .ok (.value (.text format) :: items) m' →
      Using.render format (Item.values items) = .ok text →
      Statement.fileText n (.word .USING :: tokens) m =
        text ++ if Statement.endsLine (.value (.text format) :: items) then "\n" else "" := by
  refine ⟨fun name text => ⟨fun hfile => ?_, ?_⟩, ?_, fun digits rest m => ?_,
    fun tokens m htokens hscreen => ?_, fun f m => rfl, h.printFile, ?_, ?_,
    fun tokens m items m' htokens hitems => Statement.fileText_of_items htokens hitems,
    fun tokens m format items m' text hitems htext => Statement.fileText_of_format hitems htext⟩
  · obtain ⟨outs, hgathered⟩ := h.gathered hfile
    have hsame := hgathered.file
    rw [hfile] at hsame
    cases hsame
    exact ⟨outs, hgathered, rfl⟩
  · rintro ⟨outs, hgathered, rfl⟩
    exact hgathered.file
  · rintro m name outs rfl hgathered hclose
    exact hclose.close h.printFile hgathered.file
  · obtain ⟨hhost, hcolumn, hfiles⟩ := Statement.print_file_spares digits rest m
    exact ⟨hhost, hcolumn, hfiles n⟩
  · have hdeeds := (Statement.does_print_screen (p := fun _ => False) htokens m).2 hscreen
    exact hdeeds.files fun _ h => h.elim
  · rintro m rfl
    exact (deeds_step h.printFile).keeps.1.trans h.printFile
  · rintro m fuel line rfl
    obtain ⟨s, hmoves, hs, -⟩ := moves_enter fuel line m
    rw [← hs]
    exact (h.moves hmoves).printFile

def twoFiles : List String :=
  ["OPEN 1,1,\"F\"", "OPEN 2,1,\"G\"", "PRINT #1,\"A\";", "PRINT \"SCREEN\"", "PRINT #2,\"OTHER\"",
    "PRINT #1,\"B\";-\"X\"", "PRINT #1,2"]

set_option maxRecDepth 100000 in
theorem close_writes_what_was_printed_before_fault :
    (∃ outs, Gathered 1 "F" outs (.waiting (enterAll 9 twoFiles {})) ∧
      "AB 2 \n" = String.join outs) ∧
      (enterAll 9 (twoFiles ++ ["CLOSE 1"]) {}).host.files.get? "F" = some "AB 2 \n" := by
  obtain ⟨hstatuses, hfile, hclosed⟩ : .running ∉ statuses 9 twoFiles {} ∧
      (enterAll 9 twoFiles {}).files.get? 1 = some (.writing "F" "AB 2 \n") ∧
      (enterAll 9 (twoFiles ++ ["CLOSE 1"]) {}).host.files.get? "F" = some "AB 2 \n" := by
    decide +kernel
  have hreached : Reached (.waiting (enterAll 9 twoFiles {})) :=
    Reached.moves (.start {} {} {} rfl) (moves_enterAll hstatuses)
  exact ⟨((close_writes_what_was_printed hreached 1).1 "F" "AB 2 \n").1 hfile, hclosed⟩

end LineBasic.Session
