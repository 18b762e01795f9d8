import LineBasic.Proofs.Expression.Formula
import Mathlib.Logic.ExistsUnique

/-!
# The grammar of expressions

The token lists that are arithmetic expressions: operands with binary operators between them, where
an operand is a literal or a parenthesis with any number of prefix operators in front. Each of
these lists is spelled by one ordered formula and each ordered formula spells one of them.
-/

set_option autoImplicit false

namespace LineBasic

inductive Phrase where
  | expression
  | operand
  | primary
  deriving DecidableEq

inductive Derives : Phrase → List Token → Prop
  | literal {t : Token} (ht : t.isLiteral = true) : Derives .primary [t]
  | group {ts : List Token} (h : Derives .expression ts) :
      Derives .primary (.openParen :: (ts ++ [.closeParen]))
  | primary {ts : List Token} (h : Derives .primary ts) : Derives .operand ts
  | prefixed {op : Operator} {ts : List Token} (hop : op.isUnary = true)
      (h : Derives .operand ts) : Derives .operand (.unary op :: ts)
  | operand {ts : List Token} (h : Derives .operand ts) : Derives .expression ts
  | binary {op : Operator} {ts us : List Token} (hl : Derives .expression ts)
      (hop : op.isBinary = true) (hr : Derives .operand us) :
      Derives .expression (ts ++ .operator op :: us)

namespace Derives

theorem prefixed_expression {op : Operator} {ts : List Token} (hop : op.isUnary = true)
    (h : Derives .expression ts) : Derives .expression (.unary op :: ts) := by
  generalize hp : Phrase.expression = p at h
  induction h with
  | operand h => exact .operand (.prefixed hop h)
  | binary hl hb hr ih => exact .binary (ih hp) hb hr
  | _ => cases hp

theorem binary_expression {op : Operator} {ts us : List Token} (hl : Derives .expression ts)
    (hop : op.isBinary = true) (hr : Derives .expression us) :
    Derives .expression (ts ++ .operator op :: us) := by
  generalize hp : Phrase.expression = p at hr
  induction hr with
  | operand h => exact .binary hl hop h
  | binary hl' hb hr' ih =>
    have := Derives.binary (ih hp) hb hr'
    simpa using this
  | _ => cases hp

end Derives

def Level (done : Bool) (ts : List Token) : Prop :=
  if done then Derives .expression ts
  else ∀ us, Derives .operand us → Derives .expression (ts ++ us)

def Reads : Nat → Bool → List Token → Prop
  | 0, done, ts => Level done ts
  | depth + 1, done, ts => ∃ outer inner,
    ts = outer ++ .openParen :: inner ∧ Reads depth false outer ∧ Level done inner

namespace Reads

/-- What happens at the innermost level happens to the whole. -/
theorem append {depth : Nat} {done done' : Bool} {ts us : List Token}
    (h : Reads depth done ts) (step : ∀ xs, Level done xs → Level done' (xs ++ us)) :
    Reads depth done' (ts ++ us) := by
  cases depth with
  | zero => exact step ts h
  | succ depth =>
    obtain ⟨outer, inner, rfl, ho, hi⟩ := h
    exact ⟨outer, inner ++ us, by simp, ho, step inner hi⟩

theorem operand {depth : Nat} {ts us : List Token} (h : Reads depth false ts)
    (hu : Derives .operand us) : Reads depth true (ts ++ us) :=
  h.append fun _ hx => hx us hu

theorem unary {depth : Nat} {ts : List Token} (h : Reads depth false ts) {op : Operator}
    (hop : op.isUnary = true) : Reads depth false (ts ++ [.unary op]) := by
  refine h.append fun xs hx us hu => ?_
  rw [List.append_assoc]
  exact hx _ (.prefixed hop hu)

theorem operator {depth : Nat} {ts : List Token} (h : Reads depth true ts) {op : Operator}
    (hop : op.isBinary = true) : Reads depth false (ts ++ [.operator op]) := by
  refine h.append fun xs hx us hu => ?_
  rw [List.append_assoc]
  exact .binary hx hop hu

theorem openParen {depth : Nat} {ts : List Token} (h : Reads depth false ts) :
    Reads (depth + 1) false (ts ++ [.openParen]) :=
  ⟨ts, [], rfl, h, fun _ hu => .operand hu⟩

theorem closeParen {depth : Nat} {ts : List Token} (h : Reads (depth + 1) true ts) :
    Reads depth true (ts ++ [.closeParen]) := by
  obtain ⟨outer, inner, rfl, ho, hi⟩ := h
  rw [List.append_assoc]
  exact ho.operand (.primary (.group hi))

end Reads

def shift : Nat × Bool → Token → Option (Nat × Bool)
  | (depth, true), .operator op => if op.isBinary then some (depth, false) else none
  | (depth + 1, true), .closeParen => some (depth, true)
  | (_, true), _ => none
  | (depth, false), .unary op => if op.isUnary then some (depth, false) else none
  | (depth, false), .openParen => some (depth + 1, false)
  | (depth, false), t => if t.isLiteral then some (depth, true) else none

def shifts (state : Nat × Bool) (ts : List Token) : Option (Nat × Bool) := ts.foldlM shift state

@[simp]
theorem shifts_nil (state : Nat × Bool) : shifts state [] = some state := rfl

@[simp]
theorem shifts_cons (state : Nat × Bool) (t : Token) (ts : List Token) :
    shifts state (t :: ts) = (shift state t).bind fun s => shifts s ts := rfl

@[simp]
theorem shifts_append (state : Nat × Bool) (ts us : List Token) :
    shifts state (ts ++ us) = (shifts state ts).bind fun s => shifts s us :=
  List.foldlM_append

theorem shift_literal (depth : Nat) {t : Token} (ht : t.isLiteral = true) :
    shift (depth, false) t = some (depth, true) := by
  cases t with
  | number | integer | string | literal => rfl
  | _ => cases ht

theorem Derives.shifts_eq {p : Phrase} {ts : List Token} (h : Derives p ts) (depth : Nat) :
    shifts (depth, false) ts = some (depth, true) := by
  induction h generalizing depth with
  | literal ht => simp [shift_literal depth ht]
  | group h ih => simp [shift, ih]
  | primary h ih => exact ih depth
  | prefixed hop h ih => simp [shift, hop, ih]
  | operand h ih => exact ih depth
  | binary hl hop hr ihl ihr => simp [shift, hop, ihl, ihr]

namespace Reads

theorem shift {state state' : Nat × Bool} {t : Token} {ts : List Token}
    (h : Reads state.1 state.2 ts) (hs : LineBasic.shift state t = some state') :
    Reads state'.1 state'.2 (ts ++ [t]) := by
  unfold LineBasic.shift at hs
  split at hs
  · split at hs <;> cases hs
    exact h.operator ‹_›
  · cases hs
    exact h.closeParen
  · cases hs
  · split at hs <;> cases hs
    exact h.unary ‹_›
  · cases hs
    exact h.openParen
  · split at hs <;> cases hs
    exact h.operand (.primary (.literal ‹_›))

theorem shifts {state state' : Nat × Bool} {ts us : List Token} (h : Reads state.1 state.2 ts)
    (hs : LineBasic.shifts state us = some state') : Reads state'.1 state'.2 (ts ++ us) := by
  induction us generalizing state ts with
  | nil =>
    cases hs
    rwa [List.append_nil]
  | cons u us ih =>
    obtain ⟨next, hu, hs⟩ := Option.bind_eq_some_iff.1 hs
    have := ih (h.shift hu) hs
    rwa [List.append_assoc] at this

end Reads

theorem Reads.nil : Reads 0 false [] := fun _ hu => .operand hu

/-- What stands between an expression and the end of a longer one is an operator and again an
expression. -/
theorem Derives.eq_of_append {ts : List Token} {t : Token} {us : List Token}
    (h : Derives .expression ts) (hl : Derives .expression (ts ++ t :: us)) :
    (∃ op : Operator, t = .operator op ∧ op.isBinary = true) ∧ Derives .expression us := by
  have hs := hl.shifts_eq 0
  simp only [shifts_append, h.shifts_eq 0, shifts_cons, Option.bind_some] at hs
  obtain ⟨next, ht, hus⟩ := Option.bind_eq_some_iff.1 hs
  cases t with
  | operator op =>
    rw [shift] at ht
    split at ht <;> cases ht
    exact ⟨⟨op, rfl, ‹_›⟩, @Reads.shifts (0, false) _ [] us Reads.nil hus⟩
  | _ => cases ht

namespace Formula

theorem derives_tokens {e : Formula} (he : e.Ordered) : Derives .expression e.tokens := by
  induction e with
  | leaf t => exact .operand (.primary (.literal he))
  | group e ih => exact .operand (.primary (.group (ih he)))
  | prefixed op e ih => exact .prefixed_expression he.1 (ih he.2.1)
  | binary op l r ihl ihr => exact .binary_expression (ihl he.2.1) he.1 (ihr he.2.2.1)

/-- Puts an operator with its right operand behind a formula. It goes as far down the right edge as
there is something that does not yield to it. -/
def graft (op : Operator) (o : Formula) : Formula → Formula
  | prefixed u e =>
    if (prefixed u e).YieldsTo op then binary op (prefixed u e) o else prefixed u (graft op o e)
  | binary b l r =>
    if (binary b l r).YieldsTo op then binary op (binary b l r) o else binary b l (graft op o r)
  | e => binary op e o

theorem tokens_graft (op : Operator) (o e : Formula) :
    (graft op o e).tokens = e.tokens ++ .operator op :: o.tokens := by
  induction e with
  | leaf t => rfl
  | group e ih => rfl
  | prefixed u e ih =>
    rw [graft]
    split
    · rfl
    · simp [tokens, ih]
  | binary b l r ihl ihr =>
    rw [graft]
    split
    · rfl
    · simp [tokens, ihr]

/-- The new operator gets to the top only if no prefix operator takes it in. -/
theorem mem_spine_graft {op b : Operator} {o e : Formula} (ho : o.spine = [])
    (hb : b ∈ (graft op o e).spine) :
    b ∈ e.spine ∨ b = op ∧ ∀ u ∈ e.openPrefixes, op.precedence ≤ u.precedence := by
  induction e with
  | leaf t => simp_all [graft, spine, openPrefixes]
  | group e ih => simp_all [graft, spine, openPrefixes]
  | prefixed u e ih =>
    rw [graft] at hb
    split at hb
    · rename_i hy
      have hop : b = op := by simpa [spine, ho] using hb
      exact .inr ⟨hop, hy.2⟩
    · simp [spine] at hb
  | binary c l r ihl ihr =>
    rw [graft] at hb
    split at hb
    · rename_i hy
      rw [spine, ho] at hb
      rcases List.mem_append.1 hb with hb | hb
      · exact .inl hb
      · exact .inr ⟨List.mem_singleton.1 hb, hy.2⟩
    · simp only [spine, List.mem_append, List.mem_cons] at hb ⊢
      rcases hb with hb | hb | hb
      · exact .inl (.inl hb)
      · exact .inl (.inr (.inl hb))
      · rcases ihr hb with hb | hb
        · exact .inl (.inr (.inr hb))
        · exact .inr hb

theorem ordered_graft {op : Operator} {o e : Formula} (hop : op.isBinary = true)
    (ho : o.Ordered) (hs : o.spine = []) (he : e.Ordered) : (graft op o e).Ordered := by
  have habove : o.Above op := by simp [Above, hs]
  induction e with
  | leaf t => exact ⟨hop, he, ho, by simp [YieldsTo, spine, openPrefixes], habove⟩
  | group e ih => exact ⟨hop, he, ho, by simp [YieldsTo, spine, openPrefixes], habove⟩
  | prefixed u e ih =>
    rw [graft]
    split
    · rename_i hy
      exact ⟨hop, he, ho, hy, habove⟩
    · rename_i hy
      refine ⟨he.1, ih he.2.1, fun b hb => ?_⟩
      rcases mem_spine_graft hs hb with hb | ⟨rfl, hopen⟩
      · exact he.2.2 b hb
      · -- what does not yield can only be the prefix operator itself
        simp only [YieldsTo, spine, openPrefixes, List.not_mem_nil, List.mem_cons] at hy
        grind
  | binary c l r ihl ihr =>
    rw [graft]
    split
    · rename_i hy
      exact ⟨hop, he, ho, hy, habove⟩
    · rename_i hy
      obtain ⟨hc, hl, hr, hyl, har⟩ := he
      refine ⟨hc, hl, ihr hr, hyl, fun b hb => ?_⟩
      rcases mem_spine_graft hs hb with hb | ⟨rfl, hopen⟩
      · exact har b hb
      · -- a binary operator at the top does not yield, and the root is the loosest of them
        simp only [YieldsTo, spine, openPrefixes, List.mem_append, List.mem_cons] at hy
        grind [Above, YieldsTo]

end Formula

/-- Every derivable list is spelled by an ordered formula; an operand by one without a binary
operator at its top. -/
theorem Derives.exists_formula {p : Phrase} {ts : List Token} (h : Derives p ts) :
    ∃ e : Formula, e.Ordered ∧ e.tokens = ts ∧ (p ≠ .expression → e.spine = []) := by
  induction h with
  | @literal t ht => exact ⟨.leaf t, ht, rfl, fun _ => rfl⟩
  | group h ih =>
    obtain ⟨e, he, rfl, _⟩ := ih
    exact ⟨.group e, he, rfl, fun _ => rfl⟩
  | primary h ih =>
    obtain ⟨e, he, ht, hs⟩ := ih
    exact ⟨e, he, ht, fun _ => hs (by decide)⟩
  | @prefixed op ts hop h ih =>
    obtain ⟨e, he, rfl, hs⟩ := ih
    exact ⟨.prefixed op e, ⟨hop, he, by simp [Formula.Above, hs (by decide)]⟩, rfl, fun _ => rfl⟩
  | operand h ih =>
    obtain ⟨e, he, ht, _⟩ := ih
    exact ⟨e, he, ht, fun hp => absurd rfl hp⟩
  | @binary op ts us hl hop hr ihl ihr =>
    obtain ⟨e, he, rfl, _⟩ := ihl
    obtain ⟨o, ho, rfl, hs⟩ := ihr
    exact ⟨.graft op o e, Formula.ordered_graft hop ho (hs (by decide)) he,
      Formula.tokens_graft op o e, fun hp => absurd rfl hp⟩

theorem derives_expression_iff (ts : List Token) :
    Derives .expression ts ↔ ∃! e : Formula, e.Ordered ∧ e.tokens = ts := by
  constructor
  · intro h
    obtain ⟨e, he, ht, _⟩ := h.exists_formula
    refine ⟨e, ⟨he, ht⟩, fun e' ⟨he', ht'⟩ => ?_⟩
    exact Formula.eq_of_tokens_eq he' he (ht'.trans ht.symm)
  · rintro ⟨e, ⟨he, rfl⟩, _⟩
    exact Formula.derives_tokens he

namespace Formula

/-- Each prefix operator has the longest operand there is for it in the tokens behind it, when
`rest` follows the formula. -/
def TakesLongest : Formula → List Token → Prop
  | leaf _, _ => True
  | group e, rest => e.TakesLongest (.closeParen :: rest)
  | prefixed u e, rest =>
    e.TakesLongest rest ∧ e.Above u ∧
      ∀ e' : Formula, e'.Ordered → e'.Above u → e'.tokens <+: e.tokens ++ rest →
        e'.tokens.length ≤ e.tokens.length
  | binary op l r, rest =>
    l.TakesLongest (.operator op :: (r.tokens ++ rest)) ∧ r.TakesLongest rest

theorem exists_binary_graft (op : Operator) (o : Formula) (b : Operator) (l r : Formula) :
    ∃ b' l' r', graft op o (binary b l r) = binary b' l' r' := by
  rw [graft]
  split
  · exact ⟨op, _, o, rfl⟩
  · exact ⟨b, l, _, rfl⟩

/-- A formula that yields to the operator behind it is a left operand, whatever follows. -/
theorem exists_binary_of_yieldsTo {e : Formula} {op : Operator} {ts : List Token}
    (he : e.Ordered) (hy : e.YieldsTo op) (hop : op.isBinary = true)
    (hts : Derives .expression ts) :
    ∃ b l r, (binary b l r).Ordered ∧ (binary b l r).tokens = e.tokens ++ .operator op :: ts := by
  generalize hp : Phrase.expression = p at hts
  induction hts with
  | operand h =>
    obtain ⟨o, ho, rfl, hs⟩ := h.exists_formula
    exact ⟨op, e, o, ⟨hop, he, ho, hy, by simp [Above, hs (by decide)]⟩, rfl⟩
  | @binary c ts us hl hc hr ih =>
    obtain ⟨b, l, r, hord, ht⟩ := ih hp
    obtain ⟨o, ho, rfl, hs⟩ := hr.exists_formula
    obtain ⟨b', l', r', hg⟩ := exists_binary_graft c o b l r
    refine ⟨b', l', r', hg ▸ ordered_graft hc ho (hs (by decide)) hord, ?_⟩
    rw [← hg, tokens_graft, ht, List.append_assoc]
    rfl
  | _ => cases hp

theorem length_le_of_yieldsTo {u : Operator} {e e' : Formula} {rest : List Token}
    (he : (prefixed u e).Ordered)
    (hrest : ∀ op, rest.head? = some (.operator op) → (prefixed u e).YieldsTo op)
    (he' : e'.Ordered) (ha : e'.Above u) (hpre : e'.tokens <+: e.tokens ++ rest) :
    e'.tokens.length ≤ e.tokens.length := by
  refine Nat.le_of_not_lt fun hlt => ?_
  obtain ⟨more, hmore⟩ :=
    List.prefix_of_prefix_length_le (List.prefix_append e.tokens rest) hpre (Nat.le_of_lt hlt)
  cases more with
  | nil => simp [← hmore] at hlt
  | cons t more =>
    have hd := derives_tokens he'
    rw [← hmore] at hd
    obtain ⟨⟨op, rfl, hop⟩, hmore'⟩ := (derives_tokens he.2.1).eq_of_append hd
    have hhead : rest.head? = some (.operator op) := by
      rw [← hmore, List.prefix_append_right_inj] at hpre
      obtain ⟨tail, rfl⟩ := hpre
      rfl
    obtain ⟨b, l, r, hord, ht⟩ := exists_binary_of_yieldsTo he (hrest op hhead) hop hmore'
    have hlong : (prefixed u e').Ordered := ⟨he.1, he', ha⟩
    have heq : (prefixed u e').tokens = (binary b l r).tokens := by
      rw [ht, tokens, ← hmore]
      rfl
    cases eq_of_tokens_eq hlong hord heq

theorem takesLongest {e : Formula} {rest : List Token} (he : e.Ordered)
    (hrest : ∀ op, rest.head? = some (.operator op) → e.YieldsTo op) : e.TakesLongest rest := by
  induction e generalizing rest with
  | leaf t => trivial
  | group e ih => exact ih he (fun op h => by cases h)
  | prefixed u e ih =>
    refine ⟨ih he.2.1 fun op h => ?_, he.2.2, fun e' => length_le_of_yieldsTo he hrest⟩
    exact (hrest op h).of_prefixed he
  | binary op l r ihl ihr =>
    obtain ⟨_, hl, hr, hyield, _⟩ := he
    refine ⟨ihl hl fun c h => ?_, ihr hr fun c h => (hrest c h).right⟩
    cases h
    exact hyield

end Formula

end LineBasic
