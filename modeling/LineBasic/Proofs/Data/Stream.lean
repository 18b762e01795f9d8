import LineBasic.Proofs.Data
import LineBasic.Proofs.Loop

/-!
# The data as a stream

The data of some lines are the items of one line after another. A place in the data of a program
has items ahead: the rest of those of its line, and those of all later lines. What is read is the
first item ahead, and the place behind it has the others ahead. So the answers of a `READ` are the
items ahead in order, and when these are used up, that there is none.
-/

set_option autoImplicit false

namespace LineBasic

open Run

theorem Listing.range_eq_filter_program (l : Listing) (first : LineNumber) :
    l.range first maxLineNumber = l.program.filter fun e => first ≤ e.1 := by
  rw [program, range, range, List.filter_filter]
  refine List.filter_congr fun e _ => ?_
  rw [inRange, inRange, Bool.and_self, ← Bool.and_assoc, Bool.and_comm (decide (0 ≤ e.1))]

theorem Listing.sorted_program (l : Listing) : Sorted l.program := l.lines.sorted.filter _

theorem Listing.get?_of_mem_program {l : Listing} {e : LineNumber × String} (h : e ∈ l.program) :
    l.get? e.1 = some e.2 :=
  Table.mem_entries_iff.1 (List.mem_filter.1 h).1

/-- The lines before a number and those from it on make up the program. -/
theorem Listing.filter_append_filter_program (l : Listing) (n : LineNumber) :
    (l.program.filter fun e => e.1 < n) ++ (l.program.filter fun e => n ≤ e.1) = l.program := by
  have hsorted := l.sorted_program
  generalize l.program = es at hsorted
  induction es with
  | nil => rfl
  | cons e es ih =>
    obtain ⟨hall, hes⟩ := List.pairwise_cons.1 hsorted
    by_cases he : e.1 < n
    · rw [List.filter_cons_of_pos (by simpa using he), List.filter_cons_of_neg (by simpa using he),
        List.cons_append, ih hes]
    · have hfrom : ∀ x ∈ e :: es, n ≤ x.1 := by
        refine List.forall_mem_cons.2 ⟨Int.not_lt.1 he, fun x hx => ?_⟩
        exact Int.le_trans (Int.not_lt.1 he) (Int.le_of_lt (hall x hx))
      have hnone : ((e :: es).filter fun x => x.1 < n) = [] :=
        List.filter_eq_nil_iff.2 fun x hx => by simpa using hfrom x hx
      rw [hnone, List.filter_eq_self.2 fun x hx => decide_eq_true (hfrom x hx), List.nil_append]

theorem Listing.filter_program_of_mem {l : Listing} {e : LineNumber × String} (h : e ∈ l.program) :
    ∃ more, (l.program.filter fun x => e.1 ≤ x.1) = e :: more := by
  have hmem : e ∈ l.program.filter fun x => e.1 ≤ x.1 := List.mem_filter.2 ⟨h, by simp⟩
  have hsorted : Sorted (l.program.filter fun x => e.1 ≤ x.1) := l.sorted_program.filter _
  cases hlines : l.program.filter fun x => e.1 ≤ x.1 with
  | nil =>
    rw [hlines] at hmem
    cases hmem
  | cons x more =>
    have hx : x ∈ l.program.filter fun x => e.1 ≤ x.1 := by
      rw [hlines]
      exact List.mem_cons_self
    have hle : e.1 ≤ x.1 := by simpa using (List.mem_filter.1 hx).2
    rw [hlines] at hmem hsorted
    rcases List.mem_cons.1 hmem with rfl | hmore
    · exact ⟨more, rfl⟩
    · exact absurd ((List.pairwise_cons.1 hsorted).1 e hmore) (Int.not_lt.2 hle)

namespace Statement

variable {l : Lexicon} {o : LexOptions}

/-- From a line of the program on there are that line and those behind it. -/
theorem linesFrom_of_program {listing : Listing} {front more : List (LineNumber × String)}
    {e : LineNumber × String} (h : listing.program = front ++ e :: more) :
    linesFrom listing e.1 = e :: more := by
  have he : e ∈ listing.program := by rw [h]; simp
  have hget := Listing.get?_of_mem_program he
  have hsorted := listing.sorted_program
  rw [h] at hsorted
  obtain ⟨-, hback, hfront⟩ := List.pairwise_append.1 hsorted
  have hbehind := (List.pairwise_cons.1 hback).1
  have hfilter : listing.range (e.1 + 1) maxLineNumber = more := by
    rw [Listing.range_eq_filter_program, h, List.filter_append, List.filter_cons,
      if_neg (mt of_decide_eq_true (Int.not_le.2 (Int.lt_succ e.1)))]
    have hnone : front.filter (fun x => e.1 + 1 ≤ x.1) = [] := by
      refine List.filter_eq_nil_iff.2 fun x hx => ?_
      have hlt : x.1 < e.1 := hfront x hx e List.mem_cons_self
      simpa using Int.lt_add_one_of_le (Int.le_of_lt hlt)
    have hall : more.filter (fun x => e.1 + 1 ≤ x.1) = more :=
      List.filter_eq_self.2 fun x hx => decide_eq_true (hbehind x hx)
    rw [hnone, hall, List.nil_append]
  rw [linesFrom, hget, hfilter]
  rfl

def linesData (l : Lexicon) (o : LexOptions) (lines : List (LineNumber × String)) :
    Except Fault (List Value) :=
  (lines.mapM fun e => lineData l o e.2.toList).map List.flatten

theorem linesData_cons (e : LineNumber × String) (more : List (LineNumber × String)) :
    linesData l o (e :: more) = (do
      let items ← lineData l o e.2.toList
      let later ← linesData l o more
      return items ++ later) := by
  rw [linesData, linesData, List.mapM_cons]
  cases lineData l o e.2.toList with
  | error f => rfl
  | ok items => cases more.mapM fun e => lineData l o e.2.toList <;> rfl

theorem linesData_cons_eq_ok {e : LineNumber × String} {more : List (LineNumber × String)}
    {all : List Value} (h : linesData l o (e :: more) = .ok all) :
    ∃ items later, lineData l o e.2.toList = .ok items ∧ linesData l o more = .ok later ∧
      all = items ++ later := by
  rw [linesData_cons] at h
  obtain ⟨items, hitems, h⟩ := bind_eq_ok.1 h
  obtain ⟨later, hlater, h⟩ := bind_eq_ok.1 h
  cases h
  exact ⟨items, later, hitems, hlater, rfl⟩

theorem linesData_append_eq_ok {front back : List (LineNumber × String)} {all : List Value}
    (h : linesData l o (front ++ back) = .ok all) :
    ∃ before after, linesData l o front = .ok before ∧ linesData l o back = .ok after ∧
      all = before ++ after := by
  induction front generalizing all with
  | nil => exact ⟨[], all, rfl, h, rfl⟩
  | cons e more ih =>
    obtain ⟨items, later, hitems, hlater, rfl⟩ := linesData_cons_eq_ok h
    obtain ⟨before, after, hbefore, hafter, rfl⟩ := ih hlater
    refine ⟨items ++ before, after, ?_, hafter, (List.append_assoc _ _ _).symm⟩
    rw [linesData_cons, hitems, hbefore]
    rfl

def answerAt (items : List Value) (k : Nat) : Except Fault Value :=
  match items[k]? with
  | some v => .ok v
  | none => .error outOfData

theorem answerAt_drop (items : List Value) (j k : Nat) :
    answerAt (items.drop j) k = answerAt items (j + k) := by
  rw [answerAt, answerAt, List.getElem?_drop]

def answers (items : List Value) (n : Nat) : List (Except Fault Value) :=
  (List.range n).map (answerAt items)

theorem answers_add (items : List Value) (j k : Nat) :
    answers items (j + k) = answers items j ++ answers (items.drop j) k := by
  rw [answers, List.range_add, List.map_append, List.map_map]
  congr 1
  refine List.map_congr_left fun i _ => ?_
  rw [answerAt_drop]
  rfl

inductive Ahead (l : Lexicon) (o : LexOptions) (program : List (LineNumber × String)) :
    DataCursor → List Value → Prop
  | start {index : Nat} {items : List Value} (h : linesData l o program = .ok items) :
      Ahead l o program ⟨none, index⟩ items
  | within {front more : List (LineNumber × String)} {e : LineNumber × String} {index : Nat}
      {items later : List Value} (hprogram : program = front ++ e :: more)
      (hitems : lineData l o e.2.toList = .ok items) (hlater : linesData l o more = .ok later) :
      Ahead l o program ⟨some e.1, index⟩ (items.drop index ++ later)

/-- At the start of a line all items are ahead that are not before it. -/
theorem ahead_line {listing : Listing} {n : LineNumber} {items : List Value}
    (hmax : n ≤ maxLineNumber) (hlisted : 0 ≤ n ∧ listing.contains n = true)
    (hitems : linesData l o (listing.program.filter fun e => n ≤ e.1) = .ok items) :
    Ahead l o listing.program ⟨some n, 0⟩ items := by
  obtain ⟨text, htext⟩ := Option.isSome_iff_exists.1 hlisted.2
  have hmem : (n, text) ∈ listing.program := by
    refine List.mem_filter.2 ⟨Table.mem_entries_iff.2 htext, ?_⟩
    simp [Listing.inRange, hlisted.1, hmax]
  obtain ⟨more, hmore⟩ := Listing.filter_program_of_mem hmem
  have hprogram := listing.filter_append_filter_program n
  rw [hmore] at hitems hprogram
  obtain ⟨first, later, hfirst, hlater, rfl⟩ := linesData_cons_eq_ok hitems
  exact .within hprogram.symm hfirst hlater

end Statement

namespace Machine

def setData (m : Machine) (data : DataCursor) : Machine :=
  m.updateCodeModule fun mod => { mod with data }

theorem setData_setData (m : Machine) (data data' : DataCursor) :
    (m.setData data).setData data' = m.setData data' := by
  simp only [setData, updateCodeModule, updateModule, List.modify_modify_eq]
  rfl

theorem setData_self (m : Machine) : m.setData m.codeModule.data = m := updateModule_of_eq rfl

end Machine

namespace Statement

/-- What is found from a line on is the first item ahead. Lines without items are passed. -/
theorem readFrom_cons_eq {m : Machine} {program front more : List (LineNumber × String)}
    {e : LineNumber × String} {items later : List Value} (index : Nat)
    (hprogram : program = front ++ e :: more)
    (hitems : lineData m.lexicon m.options e.2.toList = .ok items)
    (hlater : linesData m.lexicon m.options more = .ok later) :
    ∃ data, readFrom index (e :: more) m =
        outcome (m.setData data) (answerAt (items.drop index ++ later) 0) ∧
      Ahead m.lexicon m.options program data ((items.drop index ++ later).drop 1) := by
  obtain ⟨n, text⟩ := e
  have hread : readFrom index ((n, text) :: more) m =
      match items[index]? with
      | some v => .ok v (m.setData ⟨some n, index + 1⟩)
      | none => readFrom 0 more (m.setData ⟨some n, index⟩) := by
    rw [readFrom, updateCodeModule_bind, get_bind]
    change (liftM (lineData m.lexicon m.options text.toList) >>= _ : Run Value) _ = _
    rw [hitems, liftM_ok, pure_bind_run]
    cases items[index]? with
    | none => rfl
    | some v =>
      rw [← m.setData_setData ⟨some n, index⟩]
      rfl
  cases hfound : items[index]? with
  | some v =>
    obtain ⟨hlt, hv⟩ := List.getElem?_eq_some_iff.1 hfound
    have hdrop : items.drop index = v :: items.drop (index + 1) := by
      rw [List.drop_eq_getElem_cons hlt, hv]
    refine ⟨⟨some n, index + 1⟩, ?_, ?_⟩
    · rw [hread, hfound, hdrop]
      rfl
    · rw [hdrop]
      exact .within hprogram hitems hlater
  | none =>
    have hdrop : items.drop index = [] := List.drop_eq_nil_of_le (List.getElem?_eq_none_iff.1 hfound)
    rw [hread, hfound, hdrop, List.nil_append]
    cases more with
    | nil =>
      cases hlater
      refine ⟨⟨some n, index⟩, rfl, ?_⟩
      have hahead : Ahead m.lexicon m.options program ⟨some n, index⟩ (items.drop index ++ []) :=
        .within hprogram hitems rfl
      rwa [hdrop] at hahead
    | cons e' more =>
      obtain ⟨items', later', hitems', hlater', rfl⟩ := linesData_cons_eq_ok hlater
      have hprogram' : program = (front ++ [(n, text)]) ++ e' :: more := by
        rw [hprogram, List.append_assoc]
        rfl
      obtain ⟨data, hdata, hahead⟩ := readFrom_cons_eq (m := m.setData ⟨some n, index⟩) 0
        hprogram' hitems' hlater'
      rw [List.drop_zero] at hdata hahead
      exact ⟨data, by rw [hdata, Machine.setData_setData], hahead⟩

end Statement

namespace Machine

def DataAhead (m : Machine) (id : ModuleId) (items : List Value) : Prop :=
  Statement.Ahead m.lexicon m.options (m.moduleAt id).listing.program (m.moduleAt id).data items

theorem CalmBut.codeModule_lt {reads : Prop} {m m' : Machine} (h : m.CalmBut reads m')
    (hlt : m.scopes.codeModule < m.modules.length) :
    m'.scopes.codeModule < m'.modules.length := by
  rw [h.scopes]
  exact Nat.lt_of_lt_of_le hlt h.changes.length_le

theorem DataAhead.of_eq {m m' : Machine} {id : ModuleId} {items : List Value}
    (h : m.DataAhead id items) (hlexicon : m'.lexicon = m.lexicon)
    (hoptions : m'.options = m.options)
    (hprogram : (m'.moduleAt id).listing.program = (m.moduleAt id).listing.program)
    (hdata : (m'.moduleAt id).data = (m.moduleAt id).data) : m'.DataAhead id items := by
  rw [DataAhead, hlexicon, hoptions, hprogram, hdata]
  exact h

theorem DataAhead.calm {m m' : Machine} {id : ModuleId} {items : List Value}
    (h : m.DataAhead id items) (hcalm : m.Calm m') : m'.DataAhead id items :=
  h.of_eq (congrArg Registry.lexicon hcalm.registry) hcalm.changes.options
    (congrArg (fun c => c.listing.program) (hcalm.course id)) (hcalm.data id False.elim)

theorem DataAhead.of_setData {m : Machine} {data : DataCursor} {items : List Value}
    (hlt : m.scopes.codeModule < m.modules.length)
    (h : Statement.Ahead m.lexicon m.options m.codeModule.listing.program data items) :
    (m.setData data).DataAhead m.scopes.codeModule items := by
  rw [DataAhead, setData, updateCodeModule, moduleAt_updateModule_self hlt]
  exact h

end Machine

namespace Statement

theorem readItem_of_start {m : Machine} (h : m.codeModule.data.line = none) :
    readItem m = readFrom 0 m.codeModule.listing.program m := by
  rw [readItem, get_bind, h]

theorem readItem_of_line {m : Machine} {n : LineNumber} (h : m.codeModule.data.line = some n) :
    readItem m = readFrom m.codeModule.data.index (linesFrom m.codeModule.listing n) m := by
  rw [readItem, get_bind, h]

/-- An item that is asked for is the first one ahead. -/
theorem readItem_eq {m : Machine} {items : List Value}
    (hlt : m.scopes.codeModule < m.modules.length)
    (h : m.DataAhead m.scopes.codeModule items) :
    ∃ data, readItem m = outcome (m.setData data) (answerAt items 0) ∧
      (m.setData data).DataAhead m.scopes.codeModule (items.drop 1) := by
  rw [Machine.DataAhead, ← Machine.codeModule] at h
  generalize hdata : m.codeModule.data = data at h
  cases h with
  | start h =>
    rw [readItem_of_start (by rw [hdata])]
    cases hprogram : m.codeModule.listing.program with
    | nil =>
      rw [hprogram] at h
      cases h
      refine ⟨m.codeModule.data, by rw [Machine.setData_self]; rfl, .of_setData hlt ?_⟩
      rw [hdata, hprogram]
      exact .start rfl
    | cons e more =>
      rw [hprogram] at h
      obtain ⟨first, later, hfirst, hlater, rfl⟩ := linesData_cons_eq_ok h
      have hlines : m.codeModule.listing.program = [] ++ e :: more := hprogram
      obtain ⟨data, hdata, hahead⟩ := readFrom_cons_eq 0 hlines hfirst hlater
      exact ⟨data, hdata, .of_setData hlt hahead⟩
  | within hprogram hitems hlater =>
    rw [readItem_of_line (by rw [hdata]), hdata, linesFrom_of_program hprogram]
    obtain ⟨data, hdata, hahead⟩ := readFrom_cons_eq _ hprogram hitems hlater
    exact ⟨data, hdata, .of_setData hlt hahead⟩

def behindComma : List Token → List Token
  | .comma :: more => more
  | _ => []

theorem length_behindComma_le (tokens : List Token) :
    (behindComma tokens).length ≤ tokens.length := by
  rw [behindComma.eq_def]
  split
  · exact Nat.le_succ _
  · exact Nat.zero_le _

theorem behindComma_eq_nil {tokens : List Token} (h : ∀ more, tokens = .comma :: more → False) :
    behindComma tokens = [] := by
  rw [behindComma.eq_def]
  split
  · rename_i more
    exact (h more rfl).elim
  · rfl

def itemCalls (tokens : List Token) (m : Machine) : List Machine :=
  match tokens with
  | [] => []
  | t :: ts =>
    if !t.startsName then []
    else match targetModule t m with
      | .error _ _ => []
      | .ok home m₁ =>
        match h : Reference.split expectedName (t :: ts) with
        | .error _ => []
        | .ok (ref, rest) =>
          match targetPlace home ref m₁ with
          | .error _ _ => []
          | .ok _ m₂ =>
            have := (Reference.length_split h).1
            have := length_behindComma_le rest
            m₂ :: match readInto home ref m₁ with
              | .error _ _ => []
              | .ok _ m₃ => itemCalls (behindComma rest) m₃
termination_by tokens.length
decreasing_by (simp only [List.length_cons] at *; omega)

section

variable {t : Token} {ts rest : List Token} {ref : Reference} {home : ModuleId} {m m₁ : Machine}

theorem itemCalls_of_not_name (h : t.startsName = false) : itemCalls (t :: ts) m = [] := by
  rw [itemCalls, if_pos (by simp [h])]

theorem itemCalls_of_no_module {f : Fault} (h : targetModule t m = .error f m₁) :
    itemCalls (t :: ts) m = [] := by
  rw [itemCalls, h]
  split <;> rfl

theorem itemCalls_of_error {f : Fault} (h : Reference.split expectedName (t :: ts) = .error f) :
    itemCalls (t :: ts) m = [] := by
  rw [itemCalls]
  split
  · rfl
  · cases targetModule t m with
    | error => rfl
    | ok home m₁ =>
      dsimp only
      split <;> rename_i heq <;> cases h.symm.trans heq
      rfl

theorem itemCalls_of_split (hname : t.startsName = true) (hhome : targetModule t m = .ok home m₁)
    (h : Reference.split expectedName (t :: ts) = .ok (ref, rest)) :
    itemCalls (t :: ts) m =
      match targetPlace home ref m₁ with
      | .error _ _ => []
      | .ok _ m₂ =>
        m₂ :: match readInto home ref m₁ with
          | .error _ _ => []
          | .ok _ m₃ => itemCalls (behindComma rest) m₃ := by
  rw [itemCalls, if_neg (by simp [hname]), hhome]
  dsimp only
  split <;> rename_i heq <;> cases h.symm.trans heq
  rfl

end

end Statement

namespace Run

variable {α β : Type} {id : ModuleId} {m m₁ : Machine} {calls calls' : List Machine}

/-- A run whose questions for items are answered by those that a module has ahead, in order. -/
def DrawsAt (id : ModuleId) (m : Machine) (x : Run α) (calls : List Machine) : Prop :=
  ∀ items, m.DataAhead id items →
    calls.map (answer Statement.readItem) = Statement.answers items calls.length ∧
      (x.final m).DataAhead id (items.drop calls.length)

theorem DrawsAt.of_calm {x : Run α} (h : CalmAt m x) : DrawsAt id m x [] :=
  fun _ hitems => ⟨rfl, hitems.calm h.calm⟩

theorem DrawsAt.bind {x : Run α} {f : α → Run β} {a : α} (h : x m = .ok a m₁)
    (hx : DrawsAt id m x calls) (hf : DrawsAt id m₁ (f a) calls') :
    DrawsAt id m (x >>= f) (calls ++ calls') := by
  intro items hitems
  obtain ⟨hcalls, hahead⟩ := hx items hitems
  rw [final, h] at hahead
  obtain ⟨hcalls', hahead'⟩ := hf _ hahead
  have hfinal : (x >>= f).final m = (f a).final m₁ := by rw [final, final, bind_apply, h]
  rw [List.map_append, hcalls, hcalls', List.length_append, Statement.answers_add, hfinal,
    ← List.drop_drop]
  exact ⟨rfl, hahead'⟩

theorem DrawsAt.cons {x : Run α} {f : α → Run β} {a : α} {call : Machine} (h : x m = .ok a m₁)
    (hx : DrawsAt id m x [call]) (hf : DrawsAt id m₁ (f a) calls) :
    DrawsAt id m (x >>= f) (call :: calls) :=
  .bind h hx hf

theorem DrawsAt.bind_calm {x : Run α} {f : α → Run β} {a : α} (h : x m = .ok a m₁)
    (hx : CalmAt m x) (hf : DrawsAt id m₁ (f a) calls) : DrawsAt id m (x >>= f) calls :=
  .bind h (.of_calm hx) hf

theorem DrawsAt.calm_after {x : Run α} {f : α → Run β} {a : α} (h : x m = .ok a m₁)
    (hx : DrawsAt id m x calls) (hf : CalmAt m₁ (f a)) : DrawsAt id m (x >>= f) calls := by
  rw [← List.append_nil calls]
  exact .bind h hx (.of_calm hf)

theorem DrawsAt.bind_pure {x : Run α} (hx : DrawsAt id m x calls) (g : α → β) :
    DrawsAt id m (x >>= fun a => pure (g a)) calls := by
  have hfinal : (x >>= fun a => pure (g a)).final m = x.final m := by
    rw [final, final, bind_apply]
    cases x m <;> rfl
  intro items hitems
  rw [hfinal]
  exact hx items hitems

theorem DrawsAt.bind_error {x : Run α} {f : α → Run β} {e : Fault} (h : x m = .error e m₁)
    (hx : DrawsAt id m x calls) : DrawsAt id m (x >>= f) calls := by
  have hfinal : (x >>= f).final m = x.final m := by rw [final, final, bind_apply, h]
  intro items hitems
  rw [hfinal]
  exact hx items hitems

theorem drawsAt_readItem (hlt : m.scopes.codeModule < m.modules.length) :
    DrawsAt m.scopes.codeModule m Statement.readItem [m] := by
  intro items hitems
  obtain ⟨data, hread, hahead⟩ := Statement.readItem_eq hlt hitems
  obtain ⟨hanswer, hfinal⟩ := answer_of_outcome hread
  rw [List.map_singleton, hanswer, hfinal]
  exact ⟨rfl, hahead⟩

end Run

namespace Statement

theorem drawsAt_readInto {home : ModuleId} {ref : Reference} {place : Place} {m m₁ : Machine}
    (h : targetPlace home ref m = .ok place m₁) (hlt : m.scopes.codeModule < m.modules.length) :
    DrawsAt m.scopes.codeModule m (readInto home ref) [m₁] := by
  have hcalm : m.Calm m₁ := (calm_targetPlace home ref).ok h
  have hfits := yieldsAt_targetPlace home ref m place m₁ h
  have hitem : DrawsAt m₁.scopes.codeModule m₁ readItem [m₁] :=
    drawsAt_readItem (hcalm.codeModule_lt hlt)
  rw [hcalm.scopes] at hitem
  refine .bind_calm h (calm_targetPlace home ref m) ?_
  cases hread : readItem m₁ with
  | error f m₂ => exact .bind_error hread hitem
  | ok v m₂ =>
    refine .calm_after hread hitem ?_
    dsimp only
    split
    · exact obeys_fail (by decide) _ m₂
    · exact calmAt_store (hfits.calm (reading_readItem.ok hread)) v

/-- The items that a `READ` asks for are those ahead, in order. -/
theorem drawsAt_visitNames (tokens : List Token) {m : Machine}
    (hlt : m.scopes.codeModule < m.modules.length) :
    DrawsAt m.scopes.codeModule m (visitNames {} readInto tokens) (itemCalls tokens m) := by
  cases tokens with
  | nil =>
    rw [visitNames, itemCalls]
    exact .of_calm (obeys_pure _ m)
  | cons t ts =>
    rw [visitNames]
    dsimp only
    split
    · rename_i hname
      rw [itemCalls_of_not_name (by simpa using hname)]
      exact .of_calm (obeys_throw (by decide) m)
    · rename_i hname
      have hname : t.startsName = true := by simpa using hname
      have hhome := calm_targetModule t m
      cases htarget : targetModule t m with
      | error f m₁ =>
        rw [itemCalls_of_no_module htarget]
        exact .bind_error htarget (.of_calm hhome)
      | ok home m₁ =>
        have hm₁ : m.Calm m₁ := hhome.ok htarget
        have hlt₁ : m₁.scopes.codeModule < m₁.modules.length := hm₁.codeModule_lt hlt
        refine .bind_calm htarget hhome ?_
        rw [← hm₁.scopes]
        split
        · rename_i f hf
          rw [itemCalls_of_error hf]
          exact .of_calm (obeys_throw (Reference.ordinary_split (by decide) _ f hf) m₁)
        · rename_i ref rest hsplit
          have hrest := (Reference.length_split hsplit).1
          -- An entry asks for its item once its place has been found, and not without it.
          rw [itemCalls_of_split hname htarget hsplit]
          cases hplace : targetPlace home ref m₁ with
          | error f m₂ =>
            have hinto : readInto home ref m₁ = .error f m₂ := by rw [readInto, bind_apply, hplace]
            exact .bind_error hinto (.bind_error hplace (.of_calm (calm_targetPlace home ref m₁)))
          | ok place m₂ =>
            have hinto := drawsAt_readInto hplace hlt₁
            cases hread : readInto home ref m₁ with
            | error f m₃ => exact .bind_error hread hinto
            | ok _ m₃ =>
              dsimp only
              split
              · rw [behindComma_eq_nil (by simp), itemCalls]
                exact .calm_after hread hinto (obeys_pure _ m₃)
              · rename_i more
                have hmore : more.length < (t :: ts).length := by
                  rw [List.length_cons] at hrest
                  omega
                have hm₃ := (reading_readInto home ref).ok hread
                have hlater := drawsAt_visitNames more (hm₃.codeModule_lt hlt₁)
                rw [hm₃.scopes] at hlater
                exact .cons hread hinto (hlater.bind_pure _)
              · rename_i hcomma
                rw [behindComma_eq_nil hcomma, itemCalls]
                exact .calm_after hread hinto (obeys_throw (by decide) m₃)
termination_by tokens.length
decreasing_by all_goals (simp only [List.length_cons] at *; omega)

theorem drawsAt_read (tokens : List Token) {m : Machine}
    (hlt : m.scopes.codeModule < m.modules.length) :
    DrawsAt m.scopes.codeModule m (read tokens) (itemCalls tokens m) := by
  rw [read]
  cases tokens with
  | nil =>
    rw [itemCalls]
    exact .of_calm (obeys_fail (by decide) _ m)
  | cons t ts => exact (drawsAt_visitNames (t :: ts) hlt).bind_pure _

theorem le_maxLineNumber_of_lineArgument {tokens : List Token} {m m₁ : Machine} {n : LineNumber}
    (h : lineArgument tokens m = .ok n m₁) : n ≤ maxLineNumber := by
  obtain ⟨v, m₂, -, h⟩ := Run.bind_eq_ok.1 h
  obtain ⟨x, -, h⟩ := liftM_bind_eq_ok.1 h
  cases h
  exact x.toInt_le

theorem restore_eq {tokens : List Token} {m m₁ : Machine} {n : LineNumber} (htokens : tokens ≠ [])
    (hline : lineArgument tokens m = .ok n m₁) (hlisted : isTarget m₁.codeModule n = true) :
    restore tokens m = .ok () (m₁.setData ⟨some n, 0⟩) := by
  rw [restore, if_neg (by simpa using htokens), bind_apply, hline]
  dsimp only
  rw [get_bind, hlisted]
  rfl

end Statement

end LineBasic
