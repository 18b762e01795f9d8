import LineBasic.Proofs.Calm.Statement
import LineBasic.Proofs.Input
import LineBasic.Proofs.Unbounded

/-!
# Rounds of an input

An input goes on for round after round until all of its places are filled, or until no line waits.
Every round that fails has used up at least one line, so the input ends though nothing bounds it.
-/

set_option autoImplicit false

namespace LineBasic

open Run Limited Unbounded

namespace Statement

/-- Either all fields fit, or there is a first one that does not. -/
theorem fit_or_first_unfit (places : List Place) (given : List String) :
    (∀ p ∈ places.zip given, Fits p.1 p.2) ∨
      ∃ before place after field, places = before ++ place :: after ∧
        given[before.length]? = some field ∧ (∀ p ∈ before.zip given, Fits p.1 p.2) ∧
        ¬ Fits place field := by
  induction places generalizing given with
  | nil => exact .inl (List.forall_mem_nil _)
  | cons place places ih =>
    cases given with
    | nil => exact .inl (List.forall_mem_nil _)
    | cons field given =>
      by_cases hfits : Fits place field
      · rcases ih given with hall | ⟨before, unfit, after, other, rfl, hother, hbefore, hunfit⟩
        · exact .inl (List.forall_mem_cons.2 ⟨hfits, hall⟩)
        · exact .inr ⟨place :: before, unfit, after, other, rfl, hother,
            List.forall_mem_cons.2 ⟨hfits, hbefore⟩, hunfit⟩
      · exact .inr ⟨[], place, places, field, rfl, rfl, List.forall_mem_nil _, hfits⟩

theorem Refused.ne_nil {places : List Place} {lines : List String} (h : Refused places lines) :
    lines ≠ [] := by
  obtain ⟨hlines, -, -, -, -⟩ := h
  obtain ⟨line, more, rfl, -⟩ := hlines.exists_cons
  exact List.cons_ne_nil _ _

theorem fits_of_append {places : List Place} {lines rest : List String}
    (h : ∀ p ∈ places.zip (linesFields (lines ++ rest)), Fits p.1 p.2) :
    ∀ p ∈ places.zip (linesFields lines), Fits p.1 p.2 := by
  intro p hp
  obtain ⟨i, hi⟩ := List.mem_iff_getElem?.1 hp
  obtain ⟨hplace, hgiven⟩ := List.getElem?_zip_eq_some.1 hi
  refine h p (List.mem_of_getElem? (List.getElem?_zip_eq_some.2 ⟨hplace, ?_⟩))
  rw [linesFields_append, List.getElem?_append_left (List.getElem?_eq_some_iff.1 hgiven).1, hgiven]

/-- The lines that wait start with the lines of an attempt, unless they do not reach for one. -/
theorem filled_or_refused_or_starved {places : List Place} (hne : places ≠ [])
    (queue : List String) :
    (∃ lines rest, queue = lines ++ rest ∧ Filled places lines) ∨
      (∃ lines rest, queue = lines ++ rest ∧ Refused places lines) ∨ Starved places queue := by
  rcases fit_or_first_unfit places (linesFields queue) with
    hall | ⟨before, place, after, field, rfl, hfield, hbefore, hunfit⟩
  · by_cases hfew : (linesFields queue).length < places.length
    · exact .inr (.inr ⟨hfew, hall⟩)
    · have hpos : 0 < places.length := List.length_pos_iff.2 hne
      have hlast : places.length - 1 < ([] ++ linesFields queue).length := by
        rw [List.nil_append]
        omega
      obtain ⟨lines, rest, rfl, hlines⟩ := exists_justEnough hlast
      exact .inl ⟨lines, rest, rfl, hlines, fits_of_append hall⟩
  · have hreached : before.length < ([] ++ linesFields queue).length :=
      (List.getElem?_eq_some_iff.1 hfield).1
    obtain ⟨lines, rest, rfl, hlines⟩ := exists_justEnough hreached
    have henough : before.length < (linesFields lines).length := hlines.enough
    rw [linesFields_append, List.getElem?_append_left henough] at hfield
    exact .inr (.inl
      ⟨lines, rest, rfl, .intro hlines (fits_of_append hbefore) hfield hunfit after⟩)

inductive Rounds (places : List Place) : List String → List String → Prop
  | none (queue : List String) : Rounds places queue queue
  | again {lines rest queue : List String} (hlines : Refused places lines)
      (hrest : Rounds places rest queue) : Rounds places (lines ++ rest) queue

/-- Each round that fails takes lines away, so there is a last one. -/
theorem exists_rounds {places : List Place} (hne : places ≠ []) (queue : List String) :
    ∃ left, Rounds places queue left ∧
      ((∃ lines rest, left = lines ++ rest ∧ Filled places lines) ∨ Starved places left) := by
  rcases filled_or_refused_or_starved hne queue with hfilled | ⟨lines, rest, hqueue, hlines⟩ | hfew
  · exact ⟨queue, .none queue, .inl hfilled⟩
  · have hshorter : rest.length < queue.length := by
      rw [hqueue, List.length_append]
      exact Nat.lt_add_of_pos_left (List.length_pos_iff.2 hlines.ne_nil)
    obtain ⟨left, hrounds, hleft⟩ := exists_rounds hne rest
    rw [hqueue]
    exact ⟨left, .again hlines hrounds, hleft⟩
  · exact ⟨queue, .none queue, .inr hfew⟩
termination_by queue.length

/-- As long as the bound allows for the lines that wait, it does not show. -/
theorem ask_eq_round {n : Nat} {m : Machine} (hn : m.host.input.length ≤ n) (prompt : String)
    (places : List Place) :
    ask prompt places n m = (Run.print prompt >>= fun _ => tryCatch (attempt places) fun f =>
      if f.isBreak then throw f
      else Run.print "?REDO FROM START\n" >>= fun _ => ask prompt places (n - 1)) m := by
  change _ = tryCatch (attempt places) _ (m.print prompt)
  cases n with
  | zero =>
    have hnone := List.eq_nil_of_length_eq_zero (Nat.le_zero.1 hn)
    rw [tryCatch_apply, attempt, bind_apply, readFields_of_nil ((print_keeps m _).2.trans hnone)]
    rfl
  | succ n =>
    change tryCatch (attempt places) _ (m.print prompt) = _
    rw [tryCatch_apply, tryCatch_apply]
    cases attempt places (m.print prompt) with
    | ok _ m' => rfl
    | error f m' =>
      dsimp only
      split <;> rfl

section

variable {prompt : String} {places : List Place} {m m' : Machine} {n : Nat}

theorem ask_of_attempt_ok (hn : m.host.input.length ≤ n)
    (h : attempt places (m.print prompt) = .ok () m') : ask prompt places n m = .ok () m' := by
  rw [ask_eq_round hn]
  change tryCatch (attempt places) _ (m.print prompt) = _
  rw [tryCatch_apply, h]

theorem ask_of_attempt_error {f : Fault} (hn : m.host.input.length ≤ n)
    (h : attempt places (m.print prompt) = .error f m') :
    ask prompt places n m = if f.isBreak then .error f m'
      else ask prompt places (n - 1) (m'.print "?REDO FROM START\n") := by
  rw [ask_eq_round hn]
  change tryCatch (attempt places) _ (m.print prompt) = _
  rw [tryCatch_apply, h]
  dsimp only
  split <;> rfl

theorem ask_of_filled {lines rest : List String} (hne : places ≠ [])
    (hplaces : ∀ p ∈ places, m.HasPlace p) (hinput : m.host.input = lines ++ rest)
    (hlines : Filled places lines) (hn : m.host.input.length ≤ n) :
    ∃ m', ask prompt places n m = .ok () m' ∧ m'.host.input = rest ∧
      GivenTo places (linesFields lines) m m' := by
  obtain ⟨hmodules, hprinted⟩ := print_keeps m prompt
  obtain ⟨m', hattempt, hrest, hgiven⟩ := attempt_of_filled hne (hprinted.trans hinput) hlines
    fun p hp => (hplaces p hp).congr hmodules
  exact ⟨m', ask_of_attempt_ok hn hattempt, hrest, hgiven.of_modules hmodules⟩

/-- A round that fails is followed by the next one, which starts with a new line. -/
theorem ask_of_refused {lines rest : List String} (prompt : String)
    (hplaces : ∀ p ∈ places, m.HasPlace p) (hinput : m.host.input = lines ++ rest)
    (hlines : Refused places lines) (hn : m.host.input.length ≤ n) :
    ∃ k m', ask prompt places n m = ask prompt places k m' ∧ m'.host.input = rest ∧
      rest.length ≤ k ∧ ∀ q, m.HasPlace q → m'.HasPlace q := by
  obtain ⟨hmodules, hprinted⟩ := print_keeps m prompt
  obtain ⟨f, m₁, hattempt, hbreak, hrest, hkept⟩ := attempt_of_refused (hprinted.trans hinput)
    hlines fun p hp => (hplaces p hp).congr hmodules
  obtain ⟨hmodules₁, hprinted₁⟩ := print_keeps m₁ "?REDO FROM START\n"
  refine ⟨n - 1, m₁.print "?REDO FROM START\n", ?_, hprinted₁.trans hrest, ?_,
    fun q hq => (hkept q (hq.congr hmodules)).congr hmodules₁⟩
  · rw [ask_of_attempt_error hn hattempt, hbreak]
    rfl
  · have hpos : 0 < lines.length := List.length_pos_iff.2 hlines.ne_nil
    rw [hinput, List.length_append] at hn
    omega

theorem ask_of_starved (hplaces : ∀ p ∈ places, m.HasPlace p)
    (hfew : Starved places m.host.input) (hn : m.host.input.length ≤ n) :
    ∃ m', ask prompt places n m = .error Host.noMoreInput m' := by
  obtain ⟨hmodules, hprinted⟩ := print_keeps m prompt
  rw [← hprinted] at hfew
  obtain ⟨m', hattempt⟩ := attempt_of_starved hfew fun p hp => (hplaces p hp).congr hmodules
  exact ⟨m', (ask_of_attempt_error hn hattempt).trans (if_pos rfl)⟩

theorem ask_of_rounds {queue left : List String} (prompt : String)
    (h : Rounds places queue left) (hplaces : ∀ p ∈ places, m.HasPlace p)
    (hinput : m.host.input = queue) (hn : m.host.input.length ≤ n) :
    ∃ k m', ask prompt places n m = ask prompt places k m' ∧ m'.host.input = left ∧
      left.length ≤ k ∧ ∀ q, m.HasPlace q → m'.HasPlace q := by
  induction h generalizing m n with
  | none queue => exact ⟨n, m, rfl, hinput, hinput ▸ hn, fun q hq => hq⟩
  | again hlines _ ih =>
    obtain ⟨k, m₁, hask, hrest, hk, hkept⟩ :=
      ask_of_refused prompt hplaces hinput hlines hn
    obtain ⟨k', m', hask', hleft, hk', hkept'⟩ :=
      ih (fun p hp => hkept p (hplaces p hp)) hrest (hrest ▸ hk)
    exact ⟨k', m', hask.trans hask', hleft, hk', fun q hq => hkept' q (hkept q hq)⟩

end

/-! ### The loops of an input -/

def nextFieldLoop : Nat → List String → Limited Unit (String × List String)
  | 0, _ => giveUp
  | _ + 1, field :: more => return (field, more)
  | n + 1, [] => do
    lift (Run.print "?? ")
    nextFieldLoop n (← lift readFields)

def fillPlacesLoop (n : Nat) (left : List String) : List Place → Limited Unit Unit
  | [] => return
  | place :: places => do
    let (field, left) ← nextFieldLoop n left
    lift (storeField place field)
    fillPlacesLoop n left places

def askLoop (prompt : String) (places : List Place) : Unbounded Unit Unit
  | 0 => giveUp
  | n + 1 => do
    lift (Run.print prompt)
    match ← caught (do fillPlacesLoop n (← lift readFields) places) with
    | .ok _ => return
    | .error f =>
      if f.isBreak then throw f
      lift (Run.print "?REDO FROM START\n")
      askLoop prompt places n

abbrev EndsLike {α : Type} (m : Machine) (x : Unbounded Unit α) (y : Run α) : Prop :=
  EndsAs (fun _ _ => True) (m, ()) x y

theorem EndsLike.lift_bind {α β : Type} {m : Machine} {y : Run α} {f : Nat → α → Limited Unit β}
    {g : α → Run β} (hf : ∀ a m₁, y m = .ok a m₁ → EndsLike m₁ (fun n => f n a) (g a)) :
    EndsLike m (fun n => lift y >>= f n) (y >>= g) :=
  (endsAs_lift (fun _ => trivial) y).bind (fun _ _ => trivial) fun a m₁ _ ha _ => hf a m₁ ha

theorem readFields_takes_line {m m' : Machine} {given : List String}
    (h : readFields m = .ok given m') : m'.host.input.length < m.host.input.length := by
  cases hinput : m.host.input with
  | nil =>
    rw [readFields_of_nil hinput] at h
    cases h
  | cons line lines =>
    obtain ⟨m₁, hread, -, hrest⟩ := readFields_of_cons hinput
    cases hread.symm.trans h
    rw [hrest]
    exact Nat.lt_succ_self _

theorem nextFieldLoop_ends {n : Nat} {m : Machine} (hn : m.host.input.length ≤ n)
    (left : List String) : EndsLike m (nextFieldLoop · left) (nextField n left) := by
  refine EndsAs.succ ?_
  cases left with
  | cons field more => exact (endsAs_pure (fun _ => trivial) _).congr (by cases n <;> rfl)
  | nil =>
    have hnext : nextField n [] m =
        (Run.print "?? " >>= fun _ => readFields >>= fun more => nextField (n - 1) more) m := by
      cases n with
      | succ n => rfl
      | zero =>
        have hnone := List.eq_nil_of_length_eq_zero (Nat.le_zero.1 hn)
        change _ = (readFields >>= fun more => nextField 0 more) (m.print "?? ")
        rw [bind_apply, readFields_of_nil ((print_keeps m _).2.trans hnone)]
        rfl
    refine EndsAs.congr ?_ hnext
    refine EndsLike.lift_bind fun _ m₁ hprint => ?_
    refine EndsLike.lift_bind fun more m₂ hread => ?_
    have hshorter : m₂.host.input.length < m.host.input.length := by
      have htakes := readFields_takes_line hread
      cases hprint
      rwa [(print_keeps m "?? ").2] at htakes
    exact nextFieldLoop_ends (by omega) more
termination_by m.host.input.length

theorem fillPlacesLoop_ends (m : Machine) (left : List String) (places : List Place) :
    EndsLike m (fillPlacesLoop · left places) (fillPlaces left places) := by
  induction places generalizing left m with
  | nil => exact endsAs_pure (fun _ => trivial) _
  | cons place places ih =>
    have hfill : fillPlaces left (place :: places) m = (nextField m.host.input.length left >>=
        fun next => storeField place next.1 >>= fun _ => fillPlaces next.2 places) m := rfl
    refine EndsAs.congr ?_ hfill
    refine (nextFieldLoop_ends (Nat.le_refl _) left).bind (fun _ _ => trivial)
      fun next m₁ _ _ _ => ?_
    refine EndsLike.lift_bind fun _ m₂ _ => ?_
    exact ih m₂ next.2

/-- A round that fails leaves the places there, and fewer lines. -/
theorem of_attempt_eq_error {places : List Place} {m m' : Machine} {f : Fault}
    (hne : places ≠ []) (hplaces : ∀ p ∈ places, m.HasPlace p)
    (h : attempt places m = .error f m') (hbreak : f.isBreak = false) :
    m'.host.input.length < m.host.input.length ∧ ∀ q, m.HasPlace q → m'.HasPlace q := by
  rcases filled_or_refused_or_starved hne m.host.input with
    ⟨lines, rest, hinput, hlines⟩ | ⟨lines, rest, hinput, hlines⟩ | hfew
  · obtain ⟨m₁, hattempt, -⟩ := attempt_of_filled hne hinput hlines hplaces
    cases hattempt.symm.trans h
  · obtain ⟨f₁, m₁, hattempt, -, hrest, hkept⟩ := attempt_of_refused hinput hlines hplaces
    cases hattempt.symm.trans h
    refine ⟨?_, hkept⟩
    rw [hinput, hrest, List.length_append]
    exact Nat.lt_add_of_pos_left (List.length_pos_iff.2 hlines.ne_nil)
  · obtain ⟨m₁, hattempt⟩ := attempt_of_starved hfew hplaces
    cases hattempt.symm.trans h
    cases hbreak

theorem askLoop_ends {n : Nat} {m : Machine} {places : List Place} (prompt : String)
    (hne : places ≠ []) (hplaces : ∀ p ∈ places, m.HasPlace p) (hn : m.host.input.length ≤ n) :
    EndsLike m (askLoop prompt places) (ask prompt places n) := by
  refine EndsAs.succ (EndsAs.congr ?_ (ask_eq_round hn prompt places))
  refine EndsLike.lift_bind fun _ m₁ hprint => ?_
  cases hprint
  refine EndsAs.tryCatch (fun _ _ => trivial) ?_ (fun _ _ => rfl) fun f m₂ _ hattempt _ => ?_
  · refine EndsLike.lift_bind fun given m₃ _ => ?_
    exact fillPlacesLoop_ends m₃ given places
  · dsimp only
    split
    · exact endsAs_throw (fun _ => trivial) f
    · rename_i hbreak
      obtain ⟨hmodules, hprinted⟩ := print_keeps m prompt
      obtain ⟨hshorter, hkept⟩ := of_attempt_eq_error hne
        (fun p hp => (hplaces p hp).congr hmodules) hattempt (by simpa using hbreak)
      have hfewer : m₂.host.input.length < m.host.input.length := hprinted ▸ hshorter
      refine EndsLike.lift_bind fun _ m₄ hprint => ?_
      cases hprint
      obtain ⟨hmodules₁, hprinted₁⟩ := print_keeps m₂ "?REDO FROM START\n"
      refine askLoop_ends prompt hne
        (fun p hp => (hkept p ((hplaces p hp).congr hmodules)).congr hmodules₁) ?_
      rw [hprinted₁]
      omega
termination_by m.host.input.length
decreasing_by
  rw [hprinted₁]
  exact hfewer

/-! ### Places that an input resolves -/

theorem hasPlace_of_targetPlace {m m' : Machine} {home : ModuleId} {ref : Reference}
    {place : Place} (hhome : home < m.modules.length)
    (h : targetPlace home ref m = .ok place m') : m'.HasPlace place := by
  obtain ⟨c, -, hlocates⟩ := locates_targetPlace hhome h
  have hplace : place.home = c.home := by
    have hat := hlocates.isAt
    cases c with
    | scalar home name => rw [show place = .scalar home name from hat]; rfl
    | element home name index =>
      obtain ⟨a, n, -, -, rfl⟩ := hat
      rfl
  exact ⟨hplace ▸ hlocates.home, yieldsAt_targetPlace home ref m place m' h⟩

theorem hasPlaces_of_visitNames {rule : NameList} (hname : rule.notName.Ordinary)
    (hmissing : rule.missing.Ordinary) (tokens : List Token) {m : Machine}
    (hm : m.scopes.variableModule < m.modules.length) :
    YieldsAt m (visitNames rule targetPlace tokens) fun places m' =>
      ∀ p ∈ places, m'.HasPlace p := by
  refine yieldsAt_visitNames_rule (I := fun m => m.scopes.variableModule < m.modules.length)
    (fun {t ref home place m m₁ m₂} hm hhome hplace => ?_) (fun hfound hp => ?_) tokens hm
  · have hcalm : m.Calm m₂ :=
      ((calm_targetModule t).ok hhome).trans ((calm_targetPlace home ref).ok hplace)
    rw [targetModule_apply] at hhome
    cases hhome
    refine ⟨?_, hasPlace_of_targetPlace (targetHome_lt hm t) hplace⟩
    rw [hcalm.scopes]
    exact Nat.lt_of_lt_of_le hm hcalm.changes.length_le
  · exact hp.calm ((calm_visitNames hname hmissing calm_targetPlace _).ok hfound)

theorem visitNames_ne_nil {α : Type} {rule : NameList} (hrule : rule.openEnded = false)
    (visit : ModuleId → Reference → Run α) (tokens : List Token) (m : Machine) :
    YieldsAt m (visitNames rule visit tokens) fun found _ => found ≠ [] := by
  cases tokens with
  | nil =>
    rw [visitNames, hrule]
    exact .throw
  | cons t ts =>
    rw [visitNames]
    dsimp only
    split
    · exact .throw
    · refine .bind fun home m₁ _ => ?_
      split
      · exact .throw
      · refine .bind fun first m₂ _ => ?_
        split
        · exact .pure (List.cons_ne_nil _ _)
        · exact .bind fun more m₃ _ => .pure (List.cons_ne_nil _ _)
        · exact .throw

def asked (prompt : String) (places : List Place) : Run Unit := do
  ask prompt places (← waitingLines)

/-- An input resolves all of its places, and then the rounds begin. -/
theorem askFor_of_inputPlaces {tokens : List Token} {places : List Place} {m m' : Machine}
    (hm : m.scopes.variableModule < m.modules.length)
    (h : inputPlaces tokens m = .ok places m') :
    places ≠ [] ∧ (∀ p ∈ places, m'.HasPlace p) ∧
      ∀ text, askFor text tokens m = asked (text ++ "? ") places m' := by
  refine ⟨visitNames_ne_nil rfl _ tokens m places m' h,
    hasPlaces_of_visitNames (by decide) (by decide) tokens hm places m' h, fun text => ?_⟩
  rw [askFor, bind_apply, h]
  rfl

theorem asked_of_starved {places : List Place} {m : Machine} {left : List String}
    (prompt : String) (hplaces : ∀ p ∈ places, m.HasPlace p)
    (hrounds : Rounds places m.host.input left) (hfew : Starved places left) :
    ∃ m', asked prompt places m = .error Host.noMoreInput m' := by
  obtain ⟨k, m₁, hask, rfl, hk, hkept⟩ :=
    ask_of_rounds prompt hrounds hplaces rfl (Nat.le_refl _)
  change ∃ m', ask prompt places m.host.input.length m = _
  rw [hask]
  exact ask_of_starved (fun p hp => hkept p (hplaces p hp)) hfew hk

theorem asked_of_filled {places : List Place} {m : Machine} {lines rest : List String}
    (prompt : String) (hne : places ≠ []) (hplaces : ∀ p ∈ places, m.HasPlace p)
    (hrounds : Rounds places m.host.input (lines ++ rest)) (hlines : Filled places lines) :
    ∃ m', asked prompt places m = .ok () m' ∧ m'.host.input = rest ∧
      (places.Nodup → ∀ p ∈ places.zip (linesFields lines),
        ∃ v, fieldValue p.1 p.2 = .ok v ∧ m'.contents p.1 = .ok v) := by
  obtain ⟨k, m₁, hask, hinput, hk, hkept⟩ :=
    ask_of_rounds prompt hrounds hplaces rfl (Nat.le_refl _)
  obtain ⟨m', hfilled, hrest, hgiven⟩ :=
    ask_of_filled hne (fun p hp => hkept p (hplaces p hp)) hinput hlines (hinput ▸ hk)
  exact ⟨m', hask.trans hfilled, hrest, hgiven.values⟩

/-- The places that an input resolves are there, and an input of places that are there ends, though
its loops have no bound. It is filled or broken off, and it is broken off exactly if, after rounds
that fail, the lines left do not reach for one more. If it is filled, then from the lines of the
last round, which are no more than it needs: each place holds the value of its field, unless a place
is named twice. -/
theorem input_fills_all_places_or_breaks (prompt : String) {places : List Place} {m : Machine}
    (hne : places ≠ []) (hplaces : ∀ p ∈ places, m.HasPlace p) :
    (∀ (tokens : List Token) (found : List Place) (m₀ m₁ : Machine),
        m₀.scopes.variableModule < m₀.modules.length → inputPlaces tokens m₀ = .ok found m₁ →
        found ≠ [] ∧ (∀ p ∈ found, m₁.HasPlace p) ∧
          ∀ text, askFor text tokens m₀ = asked (text ++ "? ") found m₁) ∧
      (∃ limit, ∀ n, limit ≤ n →
        askLoop prompt places n (m, ()) = some (ending () (asked prompt places m))) ∧
      ((∃ m', asked prompt places m = .ok () m') ∨
        ∃ f m', asked prompt places m = .error f m' ∧ f.isBreak = true) ∧
      ((∃ f m', asked prompt places m = .error f m') ↔
        ∃ left, Rounds places m.host.input left ∧ Starved places left) ∧
      ∀ m', asked prompt places m = .ok () m' →
        ∃ lines, Rounds places m.host.input (lines ++ m'.host.input) ∧ Filled places lines ∧
          (places.Nodup → ∀ (i : Nat) (place : Place), places[i]? = some place →
            ∃ field v, (linesFields lines)[i]? = some field ∧ fieldValue place field = .ok v ∧
              m'.contents place = .ok v) := by
  obtain ⟨_, -, hloop⟩ := askLoop_ends prompt hne hplaces (Nat.le_refl _)
  refine ⟨fun tokens found m₀ m₁ hm hfound => askFor_of_inputPlaces hm hfound, hloop, ?_⟩
  obtain ⟨left, hrounds, ⟨lines, rest, rfl, hlines⟩ | hfew⟩ := exists_rounds hne m.host.input
  · obtain ⟨m', hasked, rfl, hvalues⟩ := asked_of_filled prompt hne hplaces hrounds hlines
    refine ⟨.inl ⟨m', hasked⟩, ⟨?_, ?_⟩, fun m₁ hm₁ => ?_⟩
    · rintro ⟨f, m₁, herror⟩
      cases hasked.symm.trans herror
    · rintro ⟨left, hrounds, hfew⟩
      obtain ⟨m₁, herror⟩ := asked_of_starved prompt hplaces hrounds hfew
      cases hasked.symm.trans herror
    · cases hasked.symm.trans hm₁
      refine ⟨lines, hrounds, hlines, fun hdistinct i place hplace => ?_⟩
      have hlt : i < (linesFields lines).length := by
        have henough : places.length - 1 < (linesFields lines).length := hlines.enough.enough
        have hi := (List.getElem?_eq_some_iff.1 hplace).1
        omega
      have hfield := List.getElem?_eq_getElem hlt
      obtain ⟨v, hv, hcontents⟩ := hvalues hdistinct (place, (linesFields lines)[i])
        (List.mem_of_getElem? (List.getElem?_zip_eq_some.2 ⟨hplace, hfield⟩))
      exact ⟨_, v, hfield, hv, hcontents⟩
  · obtain ⟨m', hasked⟩ := asked_of_starved prompt hplaces hrounds hfew
    refine ⟨.inr ⟨_, m', hasked, rfl⟩, ⟨fun _ => ⟨left, hrounds, hfew⟩, fun _ => ⟨_, m', hasked⟩⟩,
      fun m₁ hm₁ => ?_⟩
    cases hasked.symm.trans hm₁

/-- A number is asked for and then a text. The first line holds no number, so it is dropped; the
last one holds a field too many. -/
def typist : Machine :=
  { host := { input := ["X,1", "", "5", " ", "HELLO,THERE", "LEFT"] } }

def numberAndText : List Place := [.scalar 0 "A", .scalar 0 "B$"]

theorem input_fills_all_places_or_breaks_at_second_round :
    ∃ m' lines, asked "? " numberAndText typist = .ok () m' ∧ m'.host.input = ["LEFT"] ∧
      Rounds numberAndText typist.host.input (lines ++ ["LEFT"]) ∧ Filled numberAndText lines ∧
      m'.contents (.scalar 0 "B$") = .ok (.text "HELLO") := by
  have hplaces : ∀ p ∈ numberAndText, typist.HasPlace p := by
    refine List.forall_mem_cons.2 ⟨⟨by decide, trivial⟩, List.forall_mem_singleton.2 ⟨?_, trivial⟩⟩
    decide
  have hends : ((asked "? " numberAndText).answer typist).toOption = some () ∧
      ((asked "? " numberAndText).final typist).host.input = ["LEFT"] ∧
      (((asked "? " numberAndText).final typist).contents (.scalar 0 "B$")).toOption =
        some (.text "HELLO") := by
    decide +kernel
  obtain ⟨hok, hrest, htext⟩ := hends
  have hasked := eq_ok_of_answer (eq_ok_of_toOption hok)
  obtain ⟨-, -, -, -, hfilled⟩ :=
    input_fills_all_places_or_breaks "? " (List.cons_ne_nil _ _) hplaces
  obtain ⟨lines, hrounds, hlines, -⟩ := hfilled _ hasked
  rw [hrest] at hrounds
  exact ⟨_, lines, hasked, hrest, hrounds, hlines, eq_ok_of_toOption htext⟩

end Statement

end LineBasic
