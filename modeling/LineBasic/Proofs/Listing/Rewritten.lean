import LineBasic.Proofs.Listing.Places

/-!
# Renumbering replaces references and nothing else

The search for references goes through a text once and looks ahead. At each character it knows what
the text in front waits for. So it finds exactly the references, and it replaces those whose line
has a new number. Main statement: `rewritten_rewriteFrom`.
-/

set_option autoImplicit false

namespace LineBasic

def newDigits? (changes : Renumbering) (digits : List Char) : Option (List Char) :=
  ((Number.lineNumberOf? digits).bind (newNumber? changes)).map fun n => (toString n).toList

theorem renumberedDigits_eq (changes : Renumbering) (digits : List Char) :
    renumberedDigits changes digits = (newDigits? changes digits).getD digits := by
  rw [renumberedDigits, newDigits?]
  cases (Number.lineNumberOf? digits).bind (newNumber? changes) <;> rfl

/-- The rest of a text behind `before` and its new form. A reference to a line with a new number
gets the digits of that number. Every other character stays. -/
inductive Rewritten (changes : Renumbering) : List Char → List Char → List Char → Prop
  | nil (before : List Char) : Rewritten changes before [] []
  | keep {before : List Char} {c : Char} {cs ds : List Char}
      (hc : ∀ digits after, c :: cs = digits ++ after → IsReference before digits after →
        newDigits? changes digits = none)
      (h : Rewritten changes (before ++ [c]) cs ds) : Rewritten changes before (c :: cs) (c :: ds)
  | replace {before digits after new ds : List Char} (href : IsReference before digits after)
      (hnew : newDigits? changes digits = some new)
      (h : Rewritten changes (before ++ digits) after ds) :
      Rewritten changes before (digits ++ after) (new ++ ds)

variable {changes : Renumbering}

namespace Rewritten

variable {before run cs ds : List Char} {c : Char}

/-- A character that is no digit stays, and so does one that no jump word waits for. -/
theorem char (hc : c.isDigit = true → ∀ list, ¬Awaits (.number list) before)
    (h : Rewritten changes (before ++ [c]) cs ds) :
    Rewritten changes before (c :: cs) (c :: ds) := by
  refine .keep (fun digits after htext href => ?_) h
  obtain ⟨d, digits, rfl⟩ := List.exists_cons_of_ne_nil href.ne_nil
  obtain ⟨rfl, -⟩ := List.cons.inj htext
  obtain ⟨list, hlist⟩ := href.awaits
  exact absurd hlist (hc (href.isDigit c List.mem_cons_self) list)

theorem copy
    (hrun : ∀ front c more, run = front ++ c :: more → c.isDigit = true →
      ∀ list, ¬Awaits (.number list) (before ++ front))
    (h : Rewritten changes (before ++ run) cs ds) :
    Rewritten changes before (run ++ cs) (run ++ ds) := by
  induction run generalizing before with
  | nil => rwa [List.append_nil] at h
  | cons c run ih =>
    refine .char (fun hc list => ?_) (ih (fun front d more heq hd list => ?_) ?_)
    · simpa using hrun [] c run rfl hc list
    · simpa using hrun (c :: front) d more (by rw [heq]; rfl) hd list
    · simpa using h

theorem quoted {q : Char} (hq : Text.quoteAfter none before = some q) (hrun : q ∉ run)
    (h : Rewritten changes (before ++ run) cs ds) :
    Rewritten changes before (run ++ cs) (run ++ ds) := by
  refine .copy (fun front c more heq _ list hlist => ?_) h
  have hfront : q ∉ front := fun hmem => hrun (heq ▸ List.mem_append_left _ hmem)
  have hopen := hlist.quoteAfter
  rw [Text.quoteAfter_append, hq, Text.quoteAfter_body hfront] at hopen
  cases hopen

/-- The digits of a number stay if nothing takes their place. -/
theorem number (hne : run ≠ []) (hrun : ∀ c ∈ run, c.isDigit = true)
    (hcs : ∀ c ∈ cs.head?, c.isDigit = false) (hnew : newDigits? changes run = none)
    (h : Rewritten changes (before ++ run) cs ds) :
    Rewritten changes before (run ++ cs) (run ++ ds) := by
  obtain ⟨d, run, rfl⟩ := List.exists_cons_of_ne_nil hne
  refine .keep (fun digits after htext href => ?_)
    (.copy (fun front c more heq _ list hlist => ?_) ?_)
  · obtain ⟨rfl, -⟩ := href.eq hrun hcs htext
    exact hnew
  · -- Behind the first digit there is a digit in front, and so no reference starts.
    have hlast : ∃ body e, before ++ [d] ++ front = body ++ [e] ∧ e.isDigit = true := by
      rcases List.eq_nil_or_concat front with rfl | ⟨body, e, rfl⟩
      · exact ⟨before, d, by simp, hrun d List.mem_cons_self⟩
      · exact ⟨before ++ [d] ++ body, e, by simp, hrun e (by simp [heq])⟩
    obtain ⟨body, e, hbody, he⟩ := hlast
    rw [hbody] at hlist
    rw [hlist.not_isDigit] at he
    cases he
  · simpa using h

end Rewritten

namespace Seeking

def sought? : Seeking → Option Sought
  | word _ => none
  | target list _ => some (.number list)
  | comma _ => some .comma

/-- A search is in the right state between two parts of a text. It looks for what the first part
waits for, and neither a jump word nor a number of a list lies across the cut. -/
structure Tracks (s : Seeking) (before cs : List Char) : Prop where
  quote : Text.quoteAfter none before = none
  last : before.getLast? = s.before
  awaits : ∀ x, Awaits x before ↔ s.sought? = some x
  word : ∀ front w more list, before = front ++ w → WordStart front → w ≠ [] → more ≠ [] →
    (w ++ more, list) ∈ jumpWords → ¬more <+: cs
  number : before.getLast?.any Char.isDigit = true → ∀ c ∈ cs.head?, c.isDigit = true →
    ¬Awaits .comma before

theorem getLast_append {back : List Char} (hne : back ≠ []) (front : List Char) (b : Char) :
    (front ++ back).getLast? = some (back.getLastD b) := by
  rcases List.eq_nil_or_concat back with rfl | ⟨body, c, rfl⟩
  · exact absurd rfl hne
  · simp

namespace Tracks

variable {s s' : Seeking} {before cs : List Char} {c : Char}

theorem start (cs : List Char) : (Seeking.word none).Tracks [] cs where
  quote := rfl
  last := rfl
  awaits := fun x => iff_of_false (fun h => h.ne_nil rfl) (by simp [sought?])
  word := fun front w more list heq _ hw => absurd (List.append_eq_nil_iff.1 heq.symm).2 hw
  number := fun h => by cases h

/-- Behind a closing quote the search starts afresh. -/
theorem of_quote (hc : Text.isQuote c = true) (h : Text.quoteAfter none (before ++ [c]) = none)
    (cs : List Char) : (Seeking.word (some c)).Tracks (before ++ [c]) cs := by
  have halpha : c.isAlphanum = false := by
    rcases Text.isQuote_iff.1 hc with rfl | rfl <;> rfl
  refine ⟨h, List.getLast?_concat, fun x => iff_of_false (fun h => ?_) (by simp [sought?]), ?_, ?_⟩
  · rcases h.of_not_isAlphanum halpha with ⟨rfl, -⟩ | ⟨rfl, -⟩ <;> cases hc
  · intro front w more list heq _ hw _ hmem
    obtain ⟨body, rfl, -⟩ := exists_concat heq hw
    rw [Text.isAlphanum_of_isAlpha (isAlpha_of_mem_jumpWords hmem (by simp))] at halpha
    cases halpha
  · intro hdigit
    rw [List.getLast?_concat] at hdigit
    rw [Text.isAlphanum_of_isDigit hdigit] at halpha
    cases halpha

/-- One character is read. It is no quote, and no jump word starts with it. -/
theorem read (h : s.Tracks before (c :: cs)) (hc : Text.isQuote c = false)
    (hword : ∀ w list, (c :: w, list) ∈ jumpWords → w <+: cs → ¬WordStart before)
    (hlast : s'.before = some c)
    (hawaits : ∀ x, Awaits x (before ++ [c]) ↔ s'.sought? = some x)
    (hnumber : c.isDigit = true → s'.sought? ≠ some .comma) : s'.Tracks (before ++ [c]) cs where
  quote := by
    rw [Text.quoteAfter_append, h.quote]
    exact Text.quoteAfter_of_not_isQuote (by simpa using hc)
  last := by rw [List.getLast?_concat, hlast]
  awaits := hawaits
  word := by
    intro front w more list heq hstart hw _ hmem hmore
    obtain ⟨body, rfl, rfl⟩ := exists_concat heq hw
    rw [List.append_assoc, List.singleton_append] at hmem
    by_cases hbody : body = []
    · subst hbody
      rw [List.append_nil] at hword
      exact hword more list hmem hmore hstart
    · exact h.word front body (c :: more) list rfl hstart hbody (List.cons_ne_nil c more) hmem
        (List.cons_prefix_cons.2 ⟨rfl, hmore⟩)
  number := by
    intro hdigit _ _ _
    rw [List.getLast?_concat] at hdigit
    rw [hawaits]
    exact hnumber hdigit

/-- No jump word starts with a character that is no letter. -/
theorem not_start (hc : c.isAlpha = false) {w : List Char} {list : Bool}
    (h : (c :: w, list) ∈ jumpWords) : False := by
  rw [isAlpha_of_mem_jumpWords h List.mem_cons_self] at hc
  cases hc

theorem space (h : s.Tracks before (' ' :: cs)) : (s.pass ' ').Tracks (before ++ [' ']) cs := by
  refine h.read rfl (fun w list hw => (not_start rfl hw).elim) ?_ (fun x => ?_)
    (fun hc => by cases hc)
  · cases s <;> rfl
  · rw [Awaits.space_iff, h.awaits]
    cases s <;> rfl

theorem comma {b : Char} (h : (Seeking.comma b).Tracks before (',' :: cs)) :
    (Seeking.target true ',').Tracks (before ++ [',']) cs := by
  refine h.read rfl (fun w list hw => (not_start rfl hw).elim) rfl (fun x => ?_)
    (fun hc => by cases hc)
  have hcomma : Awaits .comma before := (h.awaits .comma).2 rfl
  rw [Awaits.comma_iff]
  simp [hcomma, sought?, eq_comm]

theorem comma_other (h : s.Tracks before (',' :: cs)) (hs : s.sought? ≠ some .comma) :
    (Seeking.word (some ',')).Tracks (before ++ [',']) cs := by
  refine h.read rfl (fun w list hw => (not_start rfl hw).elim) rfl (fun x => ?_)
    (fun hc => by cases hc)
  rw [Awaits.comma_iff, h.awaits]
  exact iff_of_false (fun hx => hs hx.2) (by simp [sought?])

/-- A character that ends nothing and starts no jump word is passed. -/
theorem copy (h : s.Tracks before (c :: cs)) (hquote : Text.isQuote c = false) (hspace : c ≠ ' ')
    (hcomma : c ≠ ',') (hdigit : s.isTarget = true → c.isDigit = false)
    (hword : s.before.any Char.isAlphanum = true ∨ jumpWord? (c :: cs) = none) :
    (Seeking.word (some c)).Tracks (before ++ [c]) cs := by
  have hno : ∀ w list, (c :: w, list) ∈ jumpWords → w <+: cs → ¬WordStart before := by
    intro w list hw hpre hstart
    rcases hword with hb | hnone
    · rw [← h.last, hstart.2] at hb
      cases hb
    · have := List.find?_eq_none.1 hnone _ hw
      exact this (List.isPrefixOf_iff_prefix.2 (List.cons_prefix_cons.2 ⟨rfl, hpre⟩))
  refine h.read hquote hno rfl (fun x => iff_of_false (fun hx => ?_) (by simp [sought?]))
    (fun _ => by simp [sought?])
  rcases hx.cases_concat with ⟨hc, -⟩ | ⟨hc, -⟩ | ⟨hc, -, hnumber⟩ |
    ⟨front, w, list, rfl, -, hstart, hw⟩
  · exact hspace hc
  · exact hcomma hc
  · rcases hnumber with hnumber | ⟨hlast, hnumber⟩
    · have htarget : s.isTarget = true := by
        have := (h.awaits _).1 hnumber
        cases s <;> cases this
        rfl
      rw [hdigit htarget] at hc
      cases hc
    · exact h.number hlast c rfl hc hnumber
  · by_cases hne : w = []
    · subst hne
      rw [List.append_nil] at hno
      exact hno [] list hw List.nil_prefix hstart
    · exact h.word front w [c] list rfl hstart hne (List.cons_ne_nil c []) hw
        (List.cons_prefix_cons.2 ⟨rfl, List.nil_prefix⟩)

/-- No jump word starts in front of another one and ends behind it. -/
theorem not_across {w front v more : List Char} {list list' : Bool} (h : s.Tracks before (w ++ cs))
    (hw : (w, list) ∈ jumpWords) (heq : before ++ w = front ++ v) (hfront : WordStart front)
    (hv : v ≠ []) (hmore : more ≠ []) (hmem : (v ++ more, list') ∈ jumpWords) : ¬more <+: cs := by
  intro hpre
  have hne : v ≠ w := by
    rintro rfl
    have := eq_of_jumpWord_start hw hmem (List.prefix_append v more)
    exact hmore (List.self_eq_append_right.1 this)
  rcases List.append_eq_append_iff.1 heq with ⟨mid, rfl, rfl⟩ | ⟨mid, rfl, rfl⟩
  · -- It starts inside the other word, but then it stands behind a letter.
    rcases List.eq_nil_or_concat mid with rfl | ⟨mid, c, rfl⟩
    · exact hne rfl
    · have hc := Text.isAlphanum_of_isAlpha (isAlpha_of_mem_jumpWords hw (c := c) (by simp))
      have hlast := hfront.2
      rw [List.concat_eq_append, ← List.append_assoc, List.getLast?_concat, Option.any_some,
        hc] at hlast
      cases hlast
  · have hmid : mid ≠ [] := by
      rintro rfl
      exact hne rfl
    rw [List.append_assoc] at hmem
    exact h.word front mid (w ++ more) list' rfl hfront hmid (by simp [hmore]) hmem
      ((List.prefix_append_right_inj w).2 hpre)

theorem jump {w : List Char} {list : Bool} (h : s.Tracks before (w ++ cs))
    (hstart : WordStart before) (hw : (w, list) ∈ jumpWords) (b : Char) :
    (Seeking.target list (w.getLastD b)).Tracks (before ++ w) cs where
  quote := (Awaits.jump hstart hw).quoteAfter
  last := getLast_append (ne_nil_of_mem_jumpWords hw) before b
  awaits := fun x => by
    rw [Awaits.jump_iff hstart hw]
    simp [sought?, eq_comm]
  word := fun front v more list' heq hfront hv hmore hmem =>
    h.not_across hw heq hfront hv hmore hmem
  number := fun _ _ _ _ hcomma => by
    cases (Awaits.jump_iff hstart hw).1 hcomma

/-- Behind a line number the search goes on with the comma of a list, or afresh. -/
theorem digits {digits : List Char} {list : Bool} {b : Char}
    (h : (Seeking.target list b).Tracks before (digits ++ cs)) (hne : digits ≠ [])
    (hdigits : ∀ c ∈ digits, c.isDigit = true) (hcs : ∀ c ∈ cs.head?, c.isDigit = false) :
    (if list then Seeking.comma (digits.getLastD b)
      else Seeking.word (some (digits.getLastD b))).Tracks (before ++ digits) cs := by
  have hbefore : before.getLast?.any Char.isDigit = false :=
    ((h.awaits (.number list)).2 rfl).getLast_not_isDigit
  refine ⟨?_, ?_, fun x => ?_, ?_, ?_⟩
  · rw [Text.quoteAfter_append, h.quote]
    exact Text.quoteAfter_of_not_isQuote fun c hc => Text.not_isQuote_of_isDigit (hdigits c hc)
  · rw [getLast_append hne before b]
    cases list <;> rfl
  · rw [Awaits.digits_iff hne hdigits hbefore, h.awaits]
    cases list <;> simp [sought?, eq_comm]
  · intro front w more list' heq _ hw _ hmem
    rcases List.eq_nil_or_concat digits with rfl | ⟨ds, d, rfl⟩
    · exact absurd rfl hne
    · rw [List.concat_eq_append, ← List.append_assoc] at heq
      obtain ⟨body, rfl, -⟩ := exists_concat heq hw
      have hd := Text.not_isDigit_of_isAlpha (isAlpha_of_mem_jumpWords hmem (c := d) (by simp))
      rw [hdigits d (by simp)] at hd
      cases hd
  · intro _ c hc hdigit
    rw [hcs c hc] at hdigit
    cases hdigit

end Tracks

/-- The rest of a text behind a quote that is not closed stays. -/
theorem rewriteFrom_unclosed {q : Char} {cs : List Char} (h : q ∉ cs) (b : Option Char) :
    rewriteFrom changes (some q) b cs = cs := by
  induction cs generalizing b with
  | nil => rw [rewriteFrom]
  | cons c cs ih =>
    have hc : c ≠ q := fun heq => h (heq ▸ List.mem_cons_self)
    rw [rewriteFrom, if_neg hc, ih fun hmem => h (List.mem_cons_of_mem c hmem)]

theorem Tracks.not_awaits {s : Seeking} {before cs : List Char} (h : s.Tracks before cs)
    (hs : s.isTarget = false) (list : Bool) : ¬Awaits (.number list) before := by
  rw [h.awaits]
  cases s with
  | word b => simp [sought?]
  | target list b => cases hs
  | comma b => simp [sought?]

section

variable {s : Seeking} {before cs : List Char} {c : Char}

/-- The line number that is looked for is replaced if its line has a new number. -/
theorem rewritten_number {list : Bool} {b : Char} {digits : List Char}
    (h : (target list b).Tracks before (digits ++ cs)) (hne : digits ≠ [])
    (hdigits : ∀ c ∈ digits, c.isDigit = true) (hcs : ∀ c ∈ cs.head?, c.isDigit = false)
    (hrest : ∀ s : Seeking, s.Tracks (before ++ digits) cs →
      Rewritten changes (before ++ digits) cs (s.rewrite changes cs)) :
    Rewritten changes before (digits ++ cs) ((target list b).rewrite changes (digits ++ cs)) := by
  have hlist : Awaits (.number list) before := (h.awaits _).2 rfl
  have hrest := hrest _ (h.digits hne hdigits hcs)
  rw [rewrite_target_digits list b hne hdigits hcs, renumberedDigits_eq]
  cases hnew : newDigits? changes digits with
  | none => exact .number hne hdigits hcs hnew hrest
  | some new => exact .replace ⟨⟨list, hlist⟩, hne, hdigits, hcs⟩ hnew hrest

/-- Text in quotes stays, and so does all of the text behind a quote that is not closed. -/
theorem rewritten_quote (h : s.Tracks before (c :: cs)) (hc : Text.isQuote c = true)
    (hrest : ∀ front more, more.length < cs.length → (word (some c)).Tracks front more →
      Rewritten changes front more ((word (some c)).rewrite changes more)) :
    Rewritten changes before (c :: cs) ((word s.before).rewrite changes (c :: cs)) := by
  have hdigit : ¬c.isDigit = true := fun hd => by
    rw [Text.not_isQuote_of_isDigit hd] at hc
    cases hc
  have hopen : Text.quoteAfter none (before ++ [c]) = some c := by
    rw [Text.quoteAfter_append, h.quote]
    simp [Text.quoteAfter, Text.quoteStep, hc]
  by_cases hmem : c ∈ cs
  · obtain ⟨body, more, rfl, hbody⟩ := List.eq_append_cons_of_mem hmem
    have hclosed : Text.quoteAfter none (before ++ [c] ++ body ++ [c]) = none := by
      rw [Text.quoteAfter_append, Text.quoteAfter_append, hopen, Text.quoteAfter_body hbody]
      simp [Text.quoteAfter, Text.quoteStep]
    rw [rewrite_word, ← List.cons_append, rewriteFrom_string hc hbody]
    refine .char (fun hd => (hdigit hd).elim) (.quoted hopen hbody
      (.char (fun hd => (hdigit hd).elim) ?_))
    exact hrest _ _ (by simp; omega) (.of_quote hc hclosed more)
  · have hrewrite : rewriteFrom changes none s.before (c :: cs) = c :: (cs ++ []) := by
      rw [rewriteFrom]
      dsimp only
      rw [if_pos (Text.isQuote_iff.1 hc), rewriteFrom_unclosed hmem, List.append_nil]
    rw [rewrite_word, hrewrite]
    refine .char (fun hd => (hdigit hd).elim) ?_
    have hall : Rewritten changes (before ++ [c]) (cs ++ []) (cs ++ []) :=
      .quoted hopen hmem (.nil _)
    rwa [List.append_nil] at hall ⊢

/-- Behind a jump word a line number is looked for; every other character is passed. -/
theorem rewritten_word (h : s.Tracks before (c :: cs)) (hquote : Text.isQuote c = false)
    (hspace : c ≠ ' ') (hcomma : c ≠ ',') (hdigit : s.isTarget = true → c.isDigit = false)
    (hrest : ∀ (s : Seeking) front more, more.length ≤ cs.length → s.Tracks front more →
      Rewritten changes front more (s.rewrite changes more)) :
    Rewritten changes before (c :: cs) ((word s.before).rewrite changes (c :: cs)) := by
  by_cases hword : s.before.any Char.isAlphanum = true ∨ jumpWord? (c :: cs) = none
  · rw [rewrite_word, rewriteFrom_copy hquote hword]
    refine .char (fun hc => h.not_awaits ?_) (hrest _ _ _ (Nat.le_refl _)
      (h.copy hquote hspace hcomma hdigit hword))
    refine Bool.eq_false_iff.2 fun hs => ?_
    rw [hdigit hs] at hc
    cases hc
  · obtain ⟨hbefore, hsome⟩ := not_or.1 hword
    have hbefore : s.before.any Char.isAlphanum = false := Bool.eq_false_iff.2 hbefore
    obtain ⟨⟨w, list⟩, hw⟩ := Option.ne_none_iff_exists'.1 hsome
    obtain ⟨w, rfl, hcs⟩ := jumpWord?_cons_eq_some hw
    have hmem : (c :: w, list) ∈ jumpWords := List.mem_of_find?_eq_some hw
    generalize cs.drop w.length = more at hcs
    subst hcs
    have hstart : WordStart before := ⟨h.quote, by rw [h.last, hbefore]⟩
    rw [← List.cons_append] at hw h ⊢
    rw [rewrite_word, rewriteFrom_jump hbefore hw]
    refine .copy (fun front d rest heq hd list => ?_) (hrest (target list _) _ _ (by simp)
      (h.jump hstart hmem c))
    rw [Text.not_isDigit_of_isAlpha (isAlpha_of_mem_jumpWords hmem (by simp [heq]))] at hd
    cases hd

end

/-- A search in the right state replaces references and nothing else. -/
theorem rewritten_rewrite (s : Seeking) {before cs : List Char} (h : s.Tracks before cs) :
    Rewritten changes before cs (s.rewrite changes cs) := by
  match cs with
  | [] =>
    rw [rewrite_nil]
    exact .nil before
  | c :: cs =>
    by_cases hspace : c = ' '
    · subst hspace
      rw [rewrite_spacing s rfl]
      exact .char (fun hc => absurd hc (by decide)) (rewritten_rewrite _ h.space)
    by_cases hcomma : c = ','
    · subst hcomma
      have hplain (b : Option Char) : (word b).rewrite changes (',' :: cs) =
          ',' :: (word (some ',')).rewrite changes cs := rewrite_word_plain (by decide) b cs
      have hsign : ','.isDigit = true → ∀ list, ¬Awaits (.number list) before :=
        fun hc => absurd hc (by decide)
      cases s with
      | word b =>
        rw [hplain]
        exact .char hsign (rewritten_rewrite _ (h.comma_other (by simp [sought?])))
      | target list b =>
        rw [rewrite_target_other list b (by simp), hplain]
        exact .char hsign (rewritten_rewrite _ (h.comma_other (by simp [sought?])))
      | comma b =>
        rw [rewrite_comma_comma]
        exact .char hsign (rewritten_rewrite _ h.comma)
    by_cases hdigit : s.isTarget = true ∧ c.isDigit = true
    · obtain ⟨hs, hc⟩ := hdigit
      obtain ⟨run, rest, hcs, hrun, hrest⟩ := Text.exists_run Char.isDigit cs
      have hlt : rest.length < (c :: cs).length := by
        rw [hcs, List.length_cons, List.length_append]
        omega
      have htext : c :: cs = c :: run ++ rest := by rw [hcs, List.cons_append]
      rw [htext] at h ⊢
      cases s with
      | word b => cases hs
      | target list b =>
        exact rewritten_number h (List.cons_ne_nil c run) (List.forall_mem_cons.2 ⟨hc, hrun⟩) hrest
          fun s htracks => rewritten_rewrite s htracks
      | comma b => cases hs
    · have hother : s.isTarget = true → c.isDigit = false := fun hs =>
        Bool.eq_false_iff.2 fun hc => hdigit ⟨hs, hc⟩
      rw [rewrite_eq_word s cs hspace hcomma hother]
      by_cases hquote : Text.isQuote c = true
      · exact rewritten_quote h hquote fun front more hlt htracks => rewritten_rewrite _ htracks
      · exact rewritten_word h (Bool.eq_false_iff.2 hquote) hspace hcomma hother
          fun s front more hle htracks => rewritten_rewrite s htracks
termination_by cs.length
decreasing_by all_goals (simp only [List.length_cons] at *; omega)

end Seeking

/-- In the text of a line renumbering replaces the references whose line has a new number, and it
keeps every other character. -/
theorem rewritten_rewriteFrom (changes : Renumbering) (text : List Char) :
    Rewritten changes [] text (rewriteFrom changes none none text) :=
  Seeking.rewritten_rewrite _ (.start text)

end LineBasic
