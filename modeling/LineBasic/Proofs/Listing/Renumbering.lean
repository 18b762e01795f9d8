import LineBasic.Command
import LineBasic.Proofs.Run
import LineBasic.Proofs.Table

/-!
# Renumbering keeps the order

The new numbers go up with the old ones, at least a step apart, and start above every line that
keeps its number. So no two lines get the same number, and the renumbered program has the same lines
in the same order.
-/

set_option autoImplicit false

namespace LineBasic

namespace RenumberRequest

theorem le_numberFor (r : RenumberRequest) (next n : LineNumber) : next ≤ r.numberFor next n := by
  rw [numberFor]
  split <;> grind

section

variable {r : RenumberRequest} {kept : Option LineNumber} {next : LineNumber}
  {ns : List LineNumber} {changes : Renumbering}

/-- A line keeps its number, or gets one that is above the lines kept so far. -/
theorem changesFrom_cons_eq_ok {n : LineNumber}
    (h : r.changesFrom kept next (n :: ns) = .ok changes) :
    (n < r.first ∧ r.changesFrom (some n) next ns = .ok changes) ∨
    (r.first ≤ n ∧ (∀ k ∈ kept, k < r.numberFor next n) ∧
      r.numberFor next n + r.step ≤ maxLineNumber ∧
      ∃ more, r.changesFrom kept (r.numberFor next n + r.step) ns = .ok more ∧
        changes = (n, r.numberFor next n) :: more) := by
  rw [changesFrom] at h
  split at h
  · exact .inl ⟨‹_›, h⟩
  · rename_i hfirst
    dsimp only at h
    split at h
    · cases h
    · rename_i hkept
      split at h
      · cases h
      · rename_i hmax
        cases hm : r.changesFrom kept (r.numberFor next n + r.step) ns with
        | error f => rw [hm] at h; cases h
        | ok more =>
          rw [hm] at h
          cases h
          refine .inr ⟨Int.not_lt.1 hfirst, fun k hk => ?_, Int.not_lt.1 hmax, more, rfl, rfl⟩
          cases hk
          simpa using hkept

/-- The lines that change are those from the first one on. -/
theorem keys_changesFrom (h : r.changesFrom kept next ns = .ok changes) :
    changes.map (·.1) = ns.filter fun n => decide (r.first ≤ n) := by
  induction ns generalizing kept next changes with
  | nil =>
    cases h
    rfl
  | cons n ns ih =>
    rcases changesFrom_cons_eq_ok h with ⟨hn, hns⟩ | ⟨hn, _, _, more, hns, rfl⟩
    · rw [ih hns, List.filter_cons_of_neg (by simpa using hn)]
    · rw [List.map_cons, ih hns, List.filter_cons_of_pos (by simpa using hn)]

theorem bounds_changesFrom (hstep : 0 < r.step) (h : r.changesFrom kept next ns = .ok changes) :
    ∀ c ∈ changes, next ≤ c.2 ∧ c.2 ≤ maxLineNumber := by
  induction ns generalizing kept next changes with
  | nil =>
    cases h
    simp
  | cons n ns ih =>
    have hle := r.le_numberFor next n
    rcases changesFrom_cons_eq_ok h with ⟨_, hns⟩ | ⟨_, _, hmax, more, hns, rfl⟩
    · exact ih hns
    · intro c hc
      rcases List.mem_cons.1 hc with rfl | hc
      · exact ⟨hle, by grind⟩
      · have := ih hns c hc
        grind

theorem gaps_changesFrom (hstep : 0 < r.step) (h : r.changesFrom kept next ns = .ok changes) :
    changes.Pairwise fun a b => a.2 + r.step ≤ b.2 := by
  induction ns generalizing kept next changes with
  | nil =>
    cases h
    exact List.Pairwise.nil
  | cons n ns ih =>
    rcases changesFrom_cons_eq_ok h with ⟨_, hns⟩ | ⟨_, _, _, more, hns, rfl⟩
    · exact ih hns
    · refine List.pairwise_cons.2 ⟨fun c hc => ?_, ih hns⟩
      exact (bounds_changesFrom hstep hns c hc).1

/-- The overlap is checked against one line only, but later numbers are greater. -/
theorem kept_lt_changesFrom (hstep : 0 < r.step)
    (h : r.changesFrom kept next ns = .ok changes) {k : LineNumber} (hk : kept = some k)
    (hns : ∀ n ∈ ns, k < n) (hord : ns.Pairwise (· < ·)) : ∀ c ∈ changes, k < c.2 := by
  induction ns generalizing kept next changes k with
  | nil =>
    cases h
    simp
  | cons n ns ih =>
    obtain ⟨hall, hord⟩ := List.pairwise_cons.1 hord
    have hn := hns n List.mem_cons_self
    rcases changesFrom_cons_eq_ok h with ⟨_, hmore⟩ | ⟨_, hkept, _, more, hmore, rfl⟩
    · intro c hc
      exact Int.lt_trans hn (ih hmore rfl hall hord c hc)
    · intro c hc
      have hnew := hkept k hk
      rcases List.mem_cons.1 hc with rfl | hc
      · exact hnew
      · have := (bounds_changesFrom hstep hmore c hc).1
        grind

theorem lt_changesFrom (hstep : 0 < r.step) (h : r.changesFrom kept next ns = .ok changes)
    (hord : ns.Pairwise (· < ·)) {n : LineNumber} (hn : n ∈ ns) (hfirst : n < r.first) :
    ∀ c ∈ changes, n < c.2 := by
  induction ns generalizing kept next changes with
  | nil => cases hn
  | cons m ns ih =>
    obtain ⟨hall, hrest⟩ := List.pairwise_cons.1 hord
    rcases changesFrom_cons_eq_ok h with ⟨_, hmore⟩ | ⟨hm, _⟩
    · rcases List.mem_cons.1 hn with rfl | hn
      · exact kept_lt_changesFrom hstep hmore rfl hall hrest
      · exact ih hmore hrest hn
    · rcases List.mem_cons.1 hn with rfl | hn
      · exact absurd hfirst (Int.not_lt.2 hm)
      · exact absurd (Int.lt_trans (hall n hn) hfirst) (Int.not_lt.2 hm)

end

end RenumberRequest

def newNumber (changes : Renumbering) (n : LineNumber) : LineNumber :=
  (newNumber? changes n).getD n

namespace Listing

def numbers (l : Listing) : List LineNumber := l.program.map (·.1)

theorem mem_program {l : Listing} {e : LineNumber × String} :
    e ∈ l.program ↔ e ∈ l.lines.entries ∧ 0 ≤ e.1 ∧ e.1 ≤ maxLineNumber := by
  simp only [program, range, inRange, List.mem_filter, Bool.and_eq_true, decide_eq_true_eq,
    and_self]

theorem pairwise_numbers (l : Listing) : l.numbers.Pairwise (· < ·) :=
  List.pairwise_map.2 (List.Pairwise.filter _ l.lines.sorted)

theorem range_of_mem_numbers {l : Listing} {n : LineNumber} (hn : n ∈ l.numbers) :
    0 ≤ n ∧ n ≤ maxLineNumber := by
  obtain ⟨e, he, rfl⟩ := List.mem_map.1 hn
  exact (mem_program.1 he).2

end Listing

section

variable {r : RenumberRequest} {l : Listing} {changes : Renumbering}

theorem RenumberRequest.changes_eq_ok (h : r.changes l = .ok changes) :
    0 ≤ r.start ∧ 0 < r.step ∧ r.changesFrom none r.start l.numbers = .ok changes := by
  rw [RenumberRequest.changes] at h
  split at h
  · cases h
  · exact ⟨by grind, by grind, h⟩

theorem keys_changes (h : r.changes l = .ok changes) :
    changes.map (·.1) = l.numbers.filter fun n => decide (r.first ≤ n) :=
  RenumberRequest.keys_changesFrom (RenumberRequest.changes_eq_ok h).2.2

theorem sorted_changes (h : r.changes l = .ok changes) : Sorted changes := by
  have hkeys : (changes.map (·.1)).Pairwise (· < ·) := by
    rw [keys_changes h]
    exact List.Pairwise.filter _ l.pairwise_numbers
  exact List.pairwise_map.1 hkeys

theorem mem_changes (h : r.changes l = .ok changes) {n : LineNumber} (hn : n ∈ l.numbers)
    (hfirst : r.first ≤ n) : (n, newNumber changes n) ∈ changes := by
  have hkey : n ∈ changes.map (·.1) := by
    rw [keys_changes h, List.mem_filter]
    exact ⟨hn, by simpa using hfirst⟩
  obtain ⟨c, hc, rfl⟩ := List.mem_map.1 hkey
  have hfind : newNumber? changes c.1 = some c.2 :=
    Table.find?_eq_some_of_mem (sorted_changes h) hc
  rw [newNumber, hfind]
  exact hc

theorem newNumber_of_not_mem (h : r.changes l = .ok changes) {n : LineNumber}
    (hn : n ∈ l.numbers → n < r.first) : newNumber changes n = n := by
  have hfind : newNumber? changes n = none := by
    cases hf : newNumber? changes n with
    | none => rfl
    | some m =>
      have hkey : n ∈ changes.map (·.1) :=
        List.mem_map.2 ⟨(n, m), Table.mem_of_find?_eq_some hf, rfl⟩
      rw [keys_changes h, List.mem_filter] at hkey
      exact absurd (hn hkey.1) (Int.not_lt.2 (by simpa using hkey.2))
  rw [newNumber, hfind]
  rfl

/-- The changes are the new numbers of the lines from the first one on. -/
theorem changes_eq_map (h : r.changes l = .ok changes) :
    changes = (l.numbers.filter fun n => decide (r.first ≤ n)).map
      fun n => (n, newNumber changes n) := by
  rw [← keys_changes h, List.map_map]
  calc changes = changes.map id := (List.map_id changes).symm
    _ = changes.map ((fun n => (n, newNumber changes n)) ∘ (·.1)) := by
      refine List.map_congr_left fun c hc => ?_
      have hfind : newNumber? changes c.1 = some c.2 :=
        Table.find?_eq_some_of_mem (sorted_changes h) hc
      simp [newNumber, hfind]

theorem gap_of_mem {step : LineNumber} (hsorted : Sorted changes)
    (hgaps : changes.Pairwise fun a b => a.2 + step ≤ b.2) {a b : LineNumber × LineNumber}
    (ha : a ∈ changes) (hb : b ∈ changes) (hlt : a.1 < b.1) : a.2 + step ≤ b.2 := by
  induction changes with
  | nil => cases ha
  | cons c changes ih =>
    obtain ⟨hc, hsorted⟩ := List.pairwise_cons.1 hsorted
    obtain ⟨hg, hgaps⟩ := List.pairwise_cons.1 hgaps
    rcases List.mem_cons.1 ha with rfl | ha'
    · rcases List.mem_cons.1 hb with rfl | hb'
      · exact absurd hlt (Int.lt_irrefl _)
      · exact hg b hb'
    · rcases List.mem_cons.1 hb with rfl | hb'
      · exact absurd hlt (Int.lt_asymm (hc a ha'))
      · exact ih hsorted hgaps ha' hb'

theorem step_le_newNumber (h : r.changes l = .ok changes) {a b : LineNumber} (ha : a ∈ l.numbers)
    (hb : b ∈ l.numbers) (hfirst : r.first ≤ a) (hlt : a < b) :
    newNumber changes a + r.step ≤ newNumber changes b := by
  obtain ⟨_, hstep, hfrom⟩ := RenumberRequest.changes_eq_ok h
  exact gap_of_mem (sorted_changes h) (RenumberRequest.gaps_changesFrom hstep hfrom)
    (mem_changes h ha hfirst) (mem_changes h hb (Int.le_trans hfirst (Int.le_of_lt hlt))) hlt

theorem newNumber_lt (h : r.changes l = .ok changes) {a b : LineNumber} (ha : a ∈ l.numbers)
    (hb : b ∈ l.numbers) (hlt : a < b) : newNumber changes a < newNumber changes b := by
  obtain ⟨_, hstep, hfrom⟩ := RenumberRequest.changes_eq_ok h
  by_cases hfirst : r.first ≤ a
  · have := step_le_newNumber h ha hb hfirst hlt
    grind
  · have hkept : newNumber changes a = a := newNumber_of_not_mem h fun _ => Int.not_le.1 hfirst
    rw [hkept]
    by_cases hb' : r.first ≤ b
    · exact RenumberRequest.lt_changesFrom hstep hfrom l.pairwise_numbers ha
        (Int.not_le.1 hfirst) _ (mem_changes h hb hb')
    · rw [newNumber_of_not_mem h fun _ => Int.not_le.1 hb']
      exact hlt

theorem range_of_mem_changes (h : r.changes l = .ok changes) {c : LineNumber × LineNumber}
    (hc : c ∈ changes) : 0 ≤ c.2 ∧ c.2 ≤ maxLineNumber := by
  obtain ⟨hstart, hstep, hfrom⟩ := RenumberRequest.changes_eq_ok h
  obtain ⟨hle, hmax⟩ := RenumberRequest.bounds_changesFrom hstep hfrom c hc
  exact ⟨Int.le_trans hstart hle, hmax⟩

theorem range_newNumber (h : r.changes l = .ok changes) {n : LineNumber} (hn : n ∈ l.numbers) :
    0 ≤ newNumber changes n ∧ newNumber changes n ≤ maxLineNumber := by
  by_cases hfirst : r.first ≤ n
  · exact range_of_mem_changes h (mem_changes h hn hfirst)
  · rw [newNumber_of_not_mem h fun _ => Int.not_le.1 hfirst]
    exact Listing.range_of_mem_numbers hn

end

namespace Listing

variable {r : RenumberRequest} {l : Listing} {changes : Renumbering}

theorem renumberedEntry_of_neg {e : LineNumber × String} (he : e.1 < 0) :
    renumberedEntry changes e = e :=
  if_pos he

theorem renumberedEntry_of_nonneg {e : LineNumber × String} (he : 0 ≤ e.1) :
    renumberedEntry changes e = (newNumber changes e.1, rewriteReferences changes e.2) :=
  if_neg (Int.not_lt.2 he)

/-- Typed text and lines out of range keep their places; the program moves inside its range. -/
theorem renumberedEntry_cases (h : r.changes l = .ok changes) {e : LineNumber × String}
    (he : e ∈ l.lines.entries) :
    (e.1 < 0 ∧ (renumberedEntry changes e).1 = e.1) ∨
    (e.1 ∈ l.numbers ∧ (renumberedEntry changes e).1 = newNumber changes e.1) ∨
    (maxLineNumber < e.1 ∧ (renumberedEntry changes e).1 = e.1) := by
  by_cases h0 : 0 ≤ e.1
  · rw [renumberedEntry_of_nonneg h0]
    by_cases hmax : e.1 ≤ maxLineNumber
    · exact .inr (.inl ⟨List.mem_map.2 ⟨e, mem_program.2 ⟨he, h0, hmax⟩, rfl⟩, rfl⟩)
    · refine .inr (.inr ⟨Int.not_le.1 hmax, ?_⟩)
      exact newNumber_of_not_mem h fun hn => absurd (range_of_mem_numbers hn).2 hmax
  · rw [renumberedEntry_of_neg (Int.not_le.1 h0)]
    exact .inl ⟨Int.not_le.1 h0, rfl⟩

theorem inRange_renumberedEntry (h : r.changes l = .ok changes) {e : LineNumber × String}
    (he : e ∈ l.lines.entries) :
    inRange 0 maxLineNumber (renumberedEntry changes e).1 = inRange 0 maxLineNumber e.1 := by
  rcases renumberedEntry_cases h he with ⟨_, heq⟩ | ⟨hn, heq⟩ | ⟨_, heq⟩
  · rw [heq]
  · have hold := range_of_mem_numbers hn
    have hnew := range_newNumber h hn
    rw [heq]
    simp [inRange, hold, hnew]
  · rw [heq]

theorem renumberedEntry_lt (h : r.changes l = .ok changes) {a b : LineNumber × String}
    (ha : a ∈ l.lines.entries) (hb : b ∈ l.lines.entries) (hlt : a.1 < b.1) :
    (renumberedEntry changes a).1 < (renumberedEntry changes b).1 := by
  have hmax : (0 : LineNumber) < maxLineNumber := by decide
  rcases renumberedEntry_cases h ha with ⟨ha0, haq⟩ | ⟨han, haq⟩ | ⟨ham, haq⟩ <;>
    rcases renumberedEntry_cases h hb with ⟨hb0, hbq⟩ | ⟨hbn, hbq⟩ | ⟨hbm, hbq⟩ <;>
    rw [haq, hbq]
  · exact hlt
  · exact Int.lt_of_lt_of_le ha0 (range_newNumber h hbn).1
  · exact hlt
  · exact absurd (range_of_mem_numbers han).1 (by grind)
  · exact newNumber_lt h han hbn hlt
  · exact Int.lt_of_le_of_lt (range_newNumber h han).2 hbm
  · exact hlt
  · exact absurd (range_of_mem_numbers hbn).2 (by grind)
  · exact hlt

theorem renumber_eq_ok {l' : Listing} (h : l.renumber r = .ok l') :
    ∃ changes, r.changes l = .ok changes ∧
      l'.lines.entries = l.lines.entries.map (renumberedEntry changes) := by
  rw [renumber] at h
  cases hc : r.changes l with
  | error f => rw [hc] at h; cases h
  | ok changes =>
    rw [hc] at h
    cases h
    refine ⟨changes, rfl, Table.entries_ofList (List.pairwise_map.2 ?_)⟩
    exact l.lines.sorted.imp_of_mem fun ha hb hlt => renumberedEntry_lt hc ha hb hlt

theorem program_of_renumber {l' : Listing} (hc : r.changes l = .ok changes)
    (h : l'.lines.entries = l.lines.entries.map (renumberedEntry changes)) :
    l'.program = l.program.map fun e => (newNumber changes e.1, rewriteReferences changes e.2) := by
  have hfilter : l'.program = l.program.map (renumberedEntry changes) := by
    rw [program, range, h, List.filter_map]
    exact congrArg _ (List.filter_congr fun e he => inRange_renumberedEntry hc he)
  rw [hfilter]
  exact List.map_congr_left fun e he => renumberedEntry_of_nonneg (mem_program.1 he).2.1

theorem get?_of_renumber {l' : Listing} (hc : r.changes l = .ok changes)
    (h : l'.lines.entries = l.lines.entries.map (renumberedEntry changes)) {n : LineNumber}
    (hn : n < 0) : l'.get? n = l.get? n := by
  refine Option.ext fun text => ?_
  rw [get?, get?, ← Table.mem_entries_iff, ← Table.mem_entries_iff, h, List.mem_map]
  constructor
  · rintro ⟨e, he, heq⟩
    have hnew : (renumberedEntry changes e).1 = n := congrArg Prod.fst heq
    rcases renumberedEntry_cases hc he with ⟨h0, _⟩ | ⟨hm, heq'⟩ | ⟨hm, heq'⟩
    · rw [renumberedEntry_of_neg h0] at heq
      exact heq ▸ he
    · have := (range_newNumber hc hm).1
      exact absurd hn (by grind)
    · have hmax : (0 : LineNumber) < maxLineNumber := by decide
      exact absurd hn (by grind)
  · intro he
    exact ⟨_, he, renumberedEntry_of_neg hn⟩

end Listing

namespace BuiltinCommand

def renumberRequest (items : List Item) : Except Fault RenumberRequest := do
  let vs ← arguments 0 4 items
  return ⟨← integerAt vs 0 10, ← integerAt vs 1 10, ← integerAt vs 2 0, ← integerAt vs 3 0⟩

theorem renumber_eq (items : List Item) :
    renumber items = (do
      let r ← liftM (renumberRequest items)
      let m ← get
      let listing ← liftM (m.variableModule.listing.renumber r)
      Run.updateVariableModule fun mod => { mod with listing }) := by
  simp only [renumberRequest, Run.liftM_bind, bind_assoc]
  rfl

/-- The command puts the renumbered listing in place, or ends in a fault and changes nothing. -/
theorem renumber_cases (items : List Item) (m : Machine) :
    (∃ r l, m.variableModule.listing.renumber r = .ok l ∧ renumber items m =
      .ok () (m.updateVariableModule fun mod => { mod with listing := l })) ∨
    ∃ f, renumber items m = .error f m := by
  rw [renumber_eq]
  cases hr : renumberRequest items with
  | error f => exact .inr ⟨f, rfl⟩
  | ok r =>
    cases hl : m.variableModule.listing.renumber r with
    | error f =>
      refine .inr ⟨f, ?_⟩
      rw [Run.liftM_ok, Run.pure_bind_run, Run.get_bind, hl]
      rfl
    | ok l =>
      refine .inl ⟨r, l, hl, ?_⟩
      rw [Run.liftM_ok, Run.pure_bind_run, Run.get_bind, hl]
      rfl

end BuiltinCommand

/-- Renumbering moves the program lines in order, no closer than a step, and keeps those before the
first; each text has its references renumbered, and typed text stays. A renumbering that fails
leaves everything as it was. -/
theorem renumber_keeps_order :
    (∀ (l l' : Listing) (r : RenumberRequest), l.renumber r = .ok l' →
      ∃ φ : LineNumber → LineNumber,
        (∀ a ∈ l.numbers, ∀ b ∈ l.numbers, a < b → φ a < φ b) ∧
        (∀ n ∈ l.numbers, 0 ≤ φ n ∧ φ n ≤ maxLineNumber) ∧
        (∀ n < r.first, φ n = n) ∧
        (∀ a ∈ l.numbers, ∀ b ∈ l.numbers, r.first ≤ a → a < b → φ a + r.step ≤ φ b) ∧
        l'.program = l.program.map (fun e => (φ e.1, rewriteReferences
          ((l.numbers.filter fun n => decide (r.first ≤ n)).map fun n => (n, φ n)) e.2)) ∧
        ∀ n < 0, l'.get? n = l.get? n) ∧
    ∀ (items : List Item) (m : Machine),
      (∃ r l, m.variableModule.listing.renumber r = .ok l ∧ BuiltinCommand.renumber items m =
        .ok () (m.updateVariableModule fun mod => { mod with listing := l })) ∨
      ∃ f, BuiltinCommand.renumber items m = .error f m := by
  refine ⟨fun l l' r h => ?_, BuiltinCommand.renumber_cases⟩
  obtain ⟨changes, hc, hentries⟩ := Listing.renumber_eq_ok h
  refine ⟨newNumber changes, fun a ha b hb => newNumber_lt hc ha hb, fun n => range_newNumber hc,
    fun n hn => newNumber_of_not_mem hc fun _ => hn,
    fun a ha b hb => step_le_newNumber hc ha hb, ?_, fun n => Listing.get?_of_renumber hc hentries⟩
  rw [← changes_eq_map hc]
  exact Listing.program_of_renumber hc hentries

/-- The first line is kept, the last one stays at a milestone, and two lines move in between. -/
theorem renumber_keeps_order_at_milestone :
    let l : Listing := ⟨.ofList [(-2, "RENUMBER 20,5,2,50"), (1, "GOSUB 3:IF A THEN 2"),
      (2, "ON X GOTO 1, 3"), (3, "RETURN"), (100, "GOTO 100")]⟩
    let r : RenumberRequest := ⟨20, 5, 2, 50⟩
    ∃ l', l.renumber r = .ok l' ∧ ∃ φ : LineNumber → LineNumber,
      φ 1 = 1 ∧ φ 1 < φ 2 ∧ φ 2 + 5 ≤ φ 3 ∧ φ 3 + 5 ≤ φ 100 ∧
      l'.numbers = [φ 1, φ 2, φ 3, φ 100] ∧ l'.get? (-2) = l.get? (-2) := by
  intro l r
  have hok : (l.renumber r).isOk = true := by decide +kernel
  cases h : l.renumber r with
  | error f => rw [h] at hok; cases hok
  | ok l' =>
    obtain ⟨φ, hlt, _, hkept, hstep, hprogram, htyped⟩ := renumber_keeps_order.1 l l' r h
    have hnumbers : l.numbers = [1, 2, 3, 100] := by decide +kernel
    rw [hnumbers] at hlt hstep
    refine ⟨l', rfl, φ, hkept 1 (by decide), hlt 1 (by simp) 2 (by simp) (by decide),
      hstep 2 (by simp) 3 (by simp) (by decide) (by decide),
      hstep 3 (by simp) 100 (by simp) (by decide) (by decide), ?_, htyped (-2) (by decide)⟩
    have hmap : l'.numbers = l.numbers.map φ := by
      rw [Listing.numbers, hprogram, List.map_map, Listing.numbers, List.map_map]
      rfl
    rw [hmap, hnumbers]
    rfl

end LineBasic
