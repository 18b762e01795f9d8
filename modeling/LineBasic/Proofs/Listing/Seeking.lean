import LineBasic.Proofs.Listing.Rewriting

/-!
# The search for references

Renumbering goes through a text and looks for a jump word, for the line number after one, or for
the comma after which the next number of a list stands. The equations here say what becomes of each
kind of character in each of these states.
-/

set_option autoImplicit false

namespace LineBasic

variable {changes : Renumbering}

theorem rewriteTargets_eq (list : Bool) (b : Char) (cs : List Char) :
    rewriteTargets changes list b cs =
      let spaces := spaceRun cs
      let rest := cs.drop spaces.length
      let digits := Number.digitRun rest
      let after := rest.drop digits.length
      if digits = [] then (spaces, spaces.getLastD b, rest)
      else match list, after.drop (spaceRun after).length with
        | true, ',' :: more =>
          let found := rewriteTargets changes true ',' more
          (spaces ++ renumberedDigits changes digits ++ spaceRun after ++ ',' :: found.1, found.2)
        | _, _ => (spaces ++ renumberedDigits changes digits, digits.getLastD b, after) := by
  fun_cases rewriteTargets changes list b cs with
  | case1 spaces rest digits h => exact (if_pos h).symm
  | case2 spaces rest digits h after new gap more hr hlist hlt text last left heq =>
    subst hlist
    refine .trans ?_ (if_neg h).symm
    rw [hr]
    simp only [heq]
    rfl
  | case3 spaces rest digits h after new gap more hr hlist =>
    refine .trans ?_ (if_neg h).symm
    cases list with
    | true => contradiction
    | false => rfl
  | case4 spaces rest digits h after new gap hr =>
    refine .trans ?_ (if_neg h).symm
    split
    · rename_i more heq
      exact absurd heq (hr more)
    · rfl

theorem rewriteTargets_space (list : Bool) (b : Char) (cs : List Char) :
    rewriteTargets changes list b (' ' :: cs) =
      (' ' :: (rewriteTargets changes list ' ' cs).1, (rewriteTargets changes list ' ' cs).2) := by
  have hspaces : spaceRun (' ' :: cs) = ' ' :: spaceRun cs := rfl
  have hrest : (' ' :: cs).drop (' ' :: spaceRun cs).length = cs.drop (spaceRun cs).length := rfl
  rw [rewriteTargets_eq, rewriteTargets_eq list ' ' cs]
  simp only [hspaces, hrest]
  generalize cs.drop (spaceRun cs).length = rest
  cases hd : Number.digitRun rest with
  | nil => simp only [if_true, List.getLastD_cons]
  | cons d ds =>
    simp only [reduceCtorEq, if_false, List.getLastD_cons]
    split <;> rfl

def isPlain (c : Char) : Bool := !Text.isQuote c && c != 'G' && c != 'T'

theorem isPlain_iff {c : Char} :
    isPlain c = true ↔ Text.isQuote c = false ∧ c ≠ 'G' ∧ c ≠ 'T' := by
  simp [isPlain, and_assoc]

theorem jumpWord?_eq_none {c : Char} (hG : c ≠ 'G') (hT : c ≠ 'T') (cs : List Char) :
    jumpWord? (c :: cs) = none := by
  simp [jumpWord?, jumpWords, List.isPrefixOf, hG.symm, hT.symm]

theorem rewriteFrom_copy {c : Char} (hq : Text.isQuote c = false) {b : Option Char}
    {cs : List Char} (h : b.any Char.isAlphanum = true ∨ jumpWord? (c :: cs) = none) :
    rewriteFrom changes none b (c :: cs) = c :: rewriteFrom changes none (some c) cs := by
  have hc : ¬(c = '"' ∨ c = '\'') := by simpa [Text.isQuote] using hq
  rw [rewriteFrom]
  dsimp only
  rw [if_neg hc]
  split
  · rfl
  · rename_i hb
    rw [h.resolve_left hb]

def rewriteAfterJump (changes : Renumbering) (list : Bool) (before : Char) (cs : List Char) :
    List Char :=
  let found := rewriteTargets changes list before cs
  found.1 ++ rewriteFrom changes none (some found.2.1) found.2.2

theorem rewriteFrom_jump {b : Option Char} (hb : b.any Char.isAlphanum = false) {c : Char}
    {w cs : List Char} {list : Bool} (hw : jumpWord? (c :: w ++ cs) = some (c :: w, list)) :
    rewriteFrom changes none b (c :: w ++ cs) =
      c :: w ++ rewriteAfterJump changes list ((c :: w).getLastD c) cs := by
  have hc : ¬(c = '"' ∨ c = '\'') := by
    have hmem : (c :: w, list) ∈ jumpWords := List.mem_of_find?_eq_some hw
    simp [jumpWords] at hmem
    rcases hmem with ⟨⟨rfl, _⟩, _⟩ | ⟨⟨rfl, _⟩, _⟩ | ⟨⟨rfl, _⟩, _⟩ <;> decide
  rw [List.cons_append] at hw ⊢
  rw [rewriteFrom]
  dsimp only
  rw [if_neg hc, if_neg (by simp [hb]), hw]
  simp [rewriteAfterJump]

theorem rewriteFrom_quoted {q : Char} {body : List Char} (hbody : q ∉ body) (b : Option Char)
    (cs : List Char) :
    rewriteFrom changes (some q) b (body ++ q :: cs) =
      body ++ q :: rewriteFrom changes none (some q) cs := by
  induction body generalizing b with
  | nil =>
    rw [List.nil_append, rewriteFrom]
    simp
  | cons c body ih =>
    have hc : c ≠ q := fun h => hbody (h ▸ List.mem_cons_self)
    rw [List.cons_append, rewriteFrom]
    simp [hc, ih fun h => hbody (List.mem_cons_of_mem c h)]

theorem rewriteFrom_string {q : Char} (hq : Text.isQuote q = true) {body : List Char}
    (hbody : q ∉ body) (b : Option Char) (cs : List Char) :
    rewriteFrom changes none b (q :: body ++ q :: cs) =
      q :: body ++ q :: rewriteFrom changes none (some q) cs := by
  rw [List.cons_append, rewriteFrom]
  dsimp only
  rw [if_pos (Text.isQuote_iff.1 hq), rewriteFrom_quoted hbody]
  rfl

inductive Seeking where
  | word (before : Option Char)
  | target (list : Bool) (before : Char)
  | comma (before : Char)

namespace Seeking

def before : Seeking → Option Char
  | word b => b
  | target _ b | comma b => some b

def isTarget : Seeking → Bool
  | target _ _ => true
  | _ => false

def rewrite (changes : Renumbering) (cs : List Char) : Seeking → List Char
  | word b => rewriteFrom changes none b cs
  | target list b => rewriteAfterJump changes list b cs
  | comma b =>
    match cs.drop (spaceRun cs).length with
    | ',' :: more => spaceRun cs ++ ',' :: rewriteAfterJump changes true ',' more
    | _ => rewriteFrom changes none (some b) cs

theorem rewrite_word (b : Option Char) (cs : List Char) :
    (word b).rewrite changes cs = rewriteFrom changes none b cs := rfl

theorem rewrite_target_space (list : Bool) (b : Char) (cs : List Char) :
    (target list b).rewrite changes (' ' :: cs) = ' ' :: (target list ' ').rewrite changes cs := by
  simp only [rewrite, rewriteAfterJump, rewriteTargets_space, List.cons_append]

theorem rewrite_target_other (list : Bool) (b : Char) {cs : List Char}
    (h : ∀ c ∈ cs.head?, c ≠ ' ' ∧ c.isDigit = false) :
    (target list b).rewrite changes cs = (word (some b)).rewrite changes cs := by
  have hspaces : spaceRun cs = [] := by
    cases cs with
    | nil => rfl
    | cons c cs => simp [spaceRun, (h c rfl).1]
  have hdigits : Number.digitRun cs = [] := by
    cases cs with
    | nil => rfl
    | cons c cs => simp [Number.digitRun, (h c rfl).2]
  have htargets : rewriteTargets changes list b cs = ([], b, cs) := by
    rw [rewriteTargets_eq]
    simp [hspaces, hdigits]
  simp only [rewrite, rewriteAfterJump, htargets, List.nil_append]

theorem rewrite_comma_space (b : Char) (cs : List Char) :
    (comma b).rewrite changes (' ' :: cs) = ' ' :: (comma ' ').rewrite changes cs := by
  have hrest : (' ' :: cs).drop (spaceRun (' ' :: cs)).length = cs.drop (spaceRun cs).length := rfl
  have hcopy : rewriteFrom changes none (some b) (' ' :: cs) = _ :=
    rewriteFrom_copy rfl (.inr (jumpWord?_eq_none (by decide) (by decide) cs))
  simp only [rewrite, hrest]
  split
  · rfl
  · exact hcopy

theorem rewrite_comma_comma (b : Char) (cs : List Char) :
    (comma b).rewrite changes (',' :: cs) = ',' :: (target true ',').rewrite changes cs := rfl

theorem rewrite_comma_other (b : Char) {cs : List Char}
    (h : ∀ c ∈ cs.head?, c ≠ ' ' ∧ c ≠ ',') :
    (comma b).rewrite changes cs = (word (some b)).rewrite changes cs := by
  cases cs with
  | nil => rfl
  | cons c cs =>
    have hspaces : spaceRun (c :: cs) = [] := by simp [spaceRun, (h c rfl).1]
    simp only [rewrite, hspaces, List.length_nil, List.drop_zero]
    split
    · rename_i more heq
      cases heq
      exact absurd rfl (h ',' rfl).2
    · rfl

theorem rewrite_target_digits (list : Bool) (b : Char) {digits rest : List Char}
    (hne : digits ≠ []) (hd : ∀ c ∈ digits, c.isDigit = true)
    (hrest : ∀ c ∈ rest.head?, c.isDigit = false) :
    (target list b).rewrite changes (digits ++ rest) =
      renumberedDigits changes digits ++
        (if list then comma (digits.getLastD b) else word (some (digits.getLastD b))).rewrite
          changes rest := by
  obtain ⟨d, ds, rfl⟩ := List.exists_cons_of_ne_nil hne
  have hspaces : spaceRun (d :: ds ++ rest) = [] := by
    have hne : d ≠ ' ' := by
      rintro rfl
      exact absurd (hd ' ' List.mem_cons_self) (by decide)
    simp [spaceRun, hne]
  have hdigits : Number.digitRun (d :: ds ++ rest) = d :: ds := Number.digitRun_append hd hrest
  simp only [rewrite, rewriteAfterJump]
  rw [rewriteTargets_eq]
  simp only [hspaces, List.length_nil, List.drop_zero, hdigits, List.drop_left, reduceCtorEq,
    if_false, List.nil_append]
  cases list with
  | false => rfl
  | true =>
    split
    · rename_i more heq
      simp [heq]
    · rename_i hmore
      simp only [if_true]
      split
      · rename_i more heq
        exact absurd heq (hmore more rfl)
      · rfl

@[simp] theorem rewrite_nil (s : Seeking) : s.rewrite changes [] = [] := by
  cases s with
  | word b => rw [rewrite_word, rewriteFrom]
  | target list b =>
    rw [rewrite_target_other list b (by simp), rewrite_word, rewriteFrom]
  | comma b => rw [rewrite_comma_other b (by simp), rewrite_word, rewriteFrom]

/-- Only blanks, digits and commas matter to a search that is not for a word. -/
theorem rewrite_eq_word (s : Seeking) {c : Char} (cs : List Char) (hs : c ≠ ' ') (hc : c ≠ ',')
    (hd : s.isTarget = true → c.isDigit = false) :
    s.rewrite changes (c :: cs) = (word s.before).rewrite changes (c :: cs) := by
  cases s with
  | word b => rfl
  | target list b => exact rewrite_target_other list b (by simpa [hs] using hd rfl)
  | comma b => exact rewrite_comma_other b (by simp [hs, hc])

theorem rewrite_word_plain {c : Char} (hc : isPlain c = true) (b : Option Char)
    (cs : List Char) :
    (word b).rewrite changes (c :: cs) = c :: (word (some c)).rewrite changes cs := by
  obtain ⟨hq, hG, hT⟩ := isPlain_iff.1 hc
  exact rewriteFrom_copy hq (.inr (jumpWord?_eq_none hG hT cs))

theorem rewrite_word_copy {front : List Char} (hfront : ∀ c ∈ front, isPlain c = true)
    (b : Option Char) (cs : List Char) :
    (word b).rewrite changes (front ++ cs) =
      front ++ (word (front.getLast?.or b)).rewrite changes cs := by
  induction front generalizing b with
  | nil => rfl
  | cons c front ih =>
    rw [List.cons_append, rewrite_word_plain (hfront c List.mem_cons_self),
      ih fun x hx => hfront x (List.mem_cons_of_mem c hx), List.getLast?_cons]
    cases front.getLast? <;> rfl

theorem head_rewrite_word (b : Option Char) (cs : List Char) :
    ((word b).rewrite changes cs).head? = cs.head? := head_rewriteFrom none b cs

/-- Every search leaves a first character that is no digit. -/
theorem head_rewrite (s : Seeking) {cs : List Char} (h : ∀ c ∈ cs.head?, c.isDigit = false) :
    (s.rewrite changes cs).head? = cs.head? := by
  cases cs with
  | nil => rw [rewrite_nil]
  | cons c cs =>
    by_cases hs : c = ' '
    · subst hs
      cases s with
      | word b => exact head_rewrite_word b _
      | target list b => rw [rewrite_target_space]; rfl
      | comma b => rw [rewrite_comma_space]; rfl
    · by_cases hc : c = ','
      · subst hc
        cases s with
        | word b => exact head_rewrite_word b _
        | target list b =>
          rw [rewrite_target_other list b (by simp)]
          exact head_rewrite_word (some b) _
        | comma b => rw [rewrite_comma_comma]; rfl
      · rw [rewrite_eq_word s cs hs hc fun _ => h c rfl]
        exact head_rewrite_word s.before _

def pass (c : Char) : Seeking → Seeking
  | word _ => word (some c)
  | target list _ => if c = ' ' then target list c else word (some c)
  | comma _ => if c = ' ' then comma c else word (some c)

def skip (gap : List Char) (s : Seeking) : Seeking := gap.foldl (fun s c => s.pass c) s

theorem isPlain_of_isSpacing {c : Char} (h : Text.isSpacing c = true) : isPlain c = true := by
  simp only [Text.isSpacing, Bool.or_eq_true, beq_iff_eq] at h
  rcases h with ((rfl | rfl) | rfl) | rfl <;> rfl

theorem rewrite_spacing (s : Seeking) {c : Char} (hc : Text.isSpacing c = true) (cs : List Char) :
    s.rewrite changes (c :: cs) = c :: (s.pass c).rewrite changes cs := by
  by_cases hs : c = ' '
  · subst hs
    cases s with
    | word b => exact rewrite_word_plain rfl b cs
    | target list b => exact rewrite_target_space list b cs
    | comma b => exact rewrite_comma_space b cs
  · have hcomma : c ≠ ',' := by
      rintro rfl
      contradiction
    have hdigit : c.isDigit = false := by
      refine Bool.eq_false_iff.2 fun hd => ?_
      rw [Number.not_isSpacing_of_isDigit hd] at hc
      contradiction
    have hpass : s.pass c = word (some c) := by cases s <;> simp [pass, hs]
    rw [rewrite_eq_word s cs hs hcomma fun _ => hdigit, hpass]
    exact rewrite_word_plain (isPlain_of_isSpacing hc) s.before cs

theorem rewrite_skip {gap : List Char} (hgap : ∀ c ∈ gap, Text.isSpacing c = true) (s : Seeking)
    (cs : List Char) :
    s.rewrite changes (gap ++ cs) = gap ++ (s.skip gap).rewrite changes cs := by
  induction gap generalizing s with
  | nil => rfl
  | cons c gap ih =>
    rw [List.cons_append, rewrite_spacing s (hgap c List.mem_cons_self),
      ih fun x hx => hgap x (List.mem_cons_of_mem c hx)]
    rfl

theorem before_skip (gap : List Char) (s : Seeking) :
    (s.skip gap).before = gap.getLast?.or s.before := by
  induction gap generalizing s with
  | nil => rfl
  | cons c gap ih =>
    have hpass : (s.pass c).before = some c := by
      cases s <;> simp only [pass] <;> try split
      all_goals rfl
    rw [skip, List.foldl_cons, ← skip, ih, hpass, List.getLast?_cons]
    cases gap.getLast? <;> rfl

theorem isTarget_skip (gap : List Char) (s : Seeking) :
    (s.skip gap).isTarget = (s.isTarget && gap.all (· == ' ')) := by
  induction gap generalizing s with
  | nil => simp [skip]
  | cons c gap ih =>
    have hpass : (s.pass c).isTarget = (s.isTarget && c == ' ') := by
      by_cases hc : c = ' ' <;> cases s <;> simp [pass, hc, isTarget]
    rw [skip, List.foldl_cons, ← skip, ih, hpass, List.all_cons, Bool.and_assoc]

end Seeking

end LineBasic
