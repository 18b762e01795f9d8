import LineBasic.Proofs.Assignment
import LineBasic.Proofs.Calm.Expression

/-!
# Attempts at an input

`INPUT` makes attempts until one of them has filled all places. An attempt reads a line, and another
one each time that it is short of fields. It fails at the first field that does not fit its place,
and the next attempt starts with a new line. So the lines that wait are cut into the lines of
attempts that failed, and then those of the attempt that succeeds, or a rest that is too short.
-/

set_option autoImplicit false

namespace LineBasic

open Run

namespace Variables

def contents (vars : Variables) : Place → Except Fault Value
  | .scalar _ name => .ok (vars.fetch name)
  | .element _ name offset => vars.fetchElement name offset

theorem contents_storeIn {vars vars' : Variables} {p : Place} {v : Value}
    (h : p.storeIn vars v = .ok vars') :
    (∃ w, Value.coerceFor p.name v = .ok w ∧ vars'.contents p = .ok w) ∧
      ∀ q : Place, q.home = p.home → q ≠ p → vars'.contents q = vars.contents q := by
  cases p with
  | scalar home name =>
    change (Value.coerceFor name v).map (vars.storeRaw name) = .ok vars' at h
    cases hw : Value.coerceFor name v with
    | error f =>
      rw [hw] at h
      cases h
    | ok w =>
      rw [hw] at h
      cases h
      refine ⟨⟨w, hw, by rw [contents, fetch_storeRaw, if_pos rfl]⟩, fun q hhome hne => ?_⟩
      cases q with
      | scalar home' other =>
        have hother : other ≠ name := by
          rintro rfl
          cases hhome
          exact hne rfl
        rw [contents, contents, fetch_storeRaw, if_neg hother]
      | element home' other offset => rfl
  | element home name offset =>
    obtain ⟨w, hw, h⟩ := LineBasic.bind_eq_ok.1 h
    obtain ⟨a, ha, h⟩ := LineBasic.bind_eq_ok.1 h
    obtain ⟨b, hb, h⟩ := LineBasic.bind_eq_ok.1 h
    cases h
    have hget := DimArray.get_of_set hb
    refine ⟨⟨w, hw, ?_⟩, fun q hhome hne => ?_⟩
    · simp only [contents, fetchElement, array, Table.get?_insert, if_pos, ok_bind, hget]
    · cases q with
      | scalar home' other => rfl
      | element home' other k =>
        simp only [contents, fetchElement]
        by_cases hother : other = name
        · subst hother
          have hk : k ≠ offset := by
            rintro rfl
            cases hhome
            exact hne rfl
          simp only [array, Table.get?_insert, if_pos, ok_bind, hget, if_neg hk]
          rw [get?_of_array ha]
          rfl
        · simp only [array, Table.get?_insert, if_neg hother]

end Variables

namespace Machine

def contents (m : Machine) (p : Place) : Except Fault Value := (m.moduleAt p.home).vars.contents p

structure HasPlace (m : Machine) (p : Place) : Prop where
  home : p.home < m.modules.length
  fits : p.FitsIn m

theorem moduleAt_congr {m m' : Machine} (h : m'.modules = m.modules) (id : ModuleId) :
    m'.moduleAt id = m.moduleAt id := by rw [moduleAt, moduleAt, h]

theorem contents_congr {m m' : Machine} (h : m'.modules = m.modules) (p : Place) :
    m'.contents p = m.contents p := by rw [contents, contents, moduleAt_congr h]

theorem HasPlace.congr {m m' : Machine} (h : m'.modules = m.modules) {p : Place}
    (hp : m.HasPlace p) : m'.HasPlace p where
  home := by rw [h]; exact hp.home
  fits := by
    rw [Place.FitsIn, moduleAt_congr h]
    exact hp.fits

theorem HasPlace.calm {m m' : Machine} {p : Place} (h : m.HasPlace p) (hcalm : m.Calm m') :
    m'.HasPlace p :=
  ⟨Nat.lt_of_lt_of_le h.home hcalm.changes.length_le, h.fits.calm hcalm⟩

end Machine

namespace Place

theorem exists_storeIn {vars : Variables} {p : Place} {v w : Value} (hp : p.IsIn vars)
    (hw : Value.coerceFor p.name v = .ok w) : ∃ vars', p.storeIn vars v = .ok vars' := by
  cases p with
  | scalar home name =>
    refine ⟨vars.storeRaw name w, ?_⟩
    change (Value.coerceFor name v).map _ = _
    rw [show Value.coerceFor name v = .ok w from hw]
    rfl
  | element home name offset =>
    obtain ⟨a, ha, hlt⟩ := hp
    obtain ⟨b, hb, -⟩ := DimArray.set_of_lt hlt w
    refine ⟨{ vars with arrays := vars.arrays.insert name b }, LineBasic.bind_eq_ok.2 ⟨w, hw, ?_⟩⟩
    rw [Variables.array_of_get? ha, ok_bind, hb]
    rfl

/-- A value that can be converted is put in a place that is there, and all other places stay. -/
theorem store_of_coerce {m : Machine} {p : Place} {v w : Value} (hp : m.HasPlace p)
    (hw : Value.coerceFor p.name v = .ok w) :
    ∃ m', p.store v m = .ok () m' ∧ m'.host = m.host ∧ m'.contents p = .ok w ∧
      (∀ q, q ≠ p → m'.contents q = m.contents q) ∧ ∀ q, m.HasPlace q → m'.HasPlace q := by
  obtain ⟨vars, hvars⟩ := exists_storeIn hp.fits hw
  obtain ⟨⟨w', hw', hself⟩, hother⟩ := Variables.contents_storeIn hvars
  cases hw.symm.trans hw'
  have hmodule (id : ModuleId) := m.moduleAt_updateModule p.home id fun mod => { mod with vars }
  refine ⟨m.updateModule p.home fun mod => { mod with vars }, ?_, rfl, ?_, fun q hne => ?_,
    fun q hq => ⟨?_, ?_⟩⟩
  · rw [store, get_bind, hvars]
    rfl
  · rw [Machine.contents, hmodule, if_pos ⟨rfl, hp.home⟩]
    exact hself
  · rw [Machine.contents, Machine.contents, hmodule]
    split
    · rename_i hhome
      rw [hhome.1]
      exact hother q hhome.1 hne
    · rfl
  · rw [Machine.length_updateModule]
    exact hq.home
  · rw [FitsIn, hmodule]
    split
    · rename_i hhome
      refine hq.fits.keep ?_
      rw [hhome.1]
      exact .storeIn hvars
    · exact hq.fits

end Place

namespace Statement

def fieldValue (place : Place) (field : String) : Except Fault Value := do
  Value.coerceFor place.name
    (← if place.isText then pure (.text field) else .real <$> (Value.text field).toReal)

def Fits (place : Place) (field : String) : Prop := ∃ v, fieldValue place field = .ok v

theorem storeField_of_value {m : Machine} {place : Place} {field : String} {v : Value}
    (hplace : m.HasPlace place) (hv : fieldValue place field = .ok v) :
    ∃ m', storeField place field m = .ok () m' ∧ m'.host = m.host ∧ m'.contents place = .ok v ∧
      (∀ q, q ≠ place → m'.contents q = m.contents q) ∧ ∀ q, m.HasPlace q → m'.HasPlace q := by
  rw [fieldValue] at hv
  rw [storeField]
  split at hv
  · rw [if_pos ‹_›]
    exact Place.store_of_coerce hplace hv
  · rw [if_neg ‹_›]
    cases hreal : (Value.text field).toReal with
    | error f =>
      rw [hreal] at hv
      cases hv
    | ok x =>
      rw [hreal] at hv
      exact Place.store_of_coerce hplace hv

/-- Only a number can be unfit, and that is no break. -/
theorem storeField_of_unfit {place : Place} {field : String} (h : ¬ Fits place field)
    (m : Machine) : ∃ f, storeField place field m = .error f m ∧ f.isBreak = false := by
  rw [Fits, fieldValue] at h
  rw [storeField]
  split at h
  · rename_i htext
    have hkind : Kind.ofName place.name = .text := by simpa [Place.isText] using htext
    refine absurd ⟨.text field, ?_⟩ h
    change Value.coerce (Kind.ofName place.name) (.text field) = _
    rw [hkind]
    rfl
  · rw [if_neg ‹_›]
    cases hreal : (Value.text field).toReal with
    | error f =>
      refine ⟨f, rfl, ?_⟩
      rw [Value.toReal] at hreal
      split at hreal
      · cases hreal
      · split at hreal <;> cases hreal
        rfl
    | ok x =>
      rw [hreal] at h
      refine absurd ?_ h
      change ∃ v, Value.coerce (Kind.ofName place.name) (.real x) = .ok v
      cases hkind : Kind.ofName place.name with
      | text =>
        rename_i htext
        simp [Place.isText, hkind] at htext
      | integer => exact ⟨_, rfl⟩
      | real => exact ⟨_, rfl⟩

def linesFields (lines : List String) : List String :=
  lines.flatMap fun line => if Text.isBlankText line then [] else fields line

@[simp] theorem linesFields_nil : linesFields [] = [] := rfl

theorem linesFields_cons (line : String) (lines : List String) :
    linesFields (line :: lines) = linesFields [line] ++ linesFields lines := by
  simp [linesFields]

theorem readFields_of_nil {m : Machine} (h : m.host.input = []) :
    readFields m = .error Host.noMoreInput m := by
  rw [readFields, readLine, bind_assoc, get_bind, Host.readLine, h]
  rfl

theorem readFields_of_cons {m : Machine} {line : String} {lines : List String}
    (h : m.host.input = line :: lines) :
    ∃ m', readFields m = .ok (linesFields [line]) m' ∧ m'.modules = m.modules ∧
      m'.host.input = lines := by
  rw [readFields, readLine, bind_assoc, get_bind, Host.readLine, h]
  refine ⟨{ m with host := { m.host with input := lines }.log (.lineRead line), column := 0 }, ?_,
    rfl, rfl⟩
  rw [linesFields, List.flatMap_singleton]
  rfl

theorem print_keeps (m : Machine) (text : String) :
    (m.print text).modules = m.modules ∧ (m.print text).host.input = m.host.input := by
  rw [Machine.print]
  split
  · split <;> exact ⟨rfl, rfl⟩
  · exact ⟨rfl, rfl⟩

theorem linesFields_append (lines more : List String) :
    linesFields (lines ++ more) = linesFields lines ++ linesFields more :=
  List.flatMap_append

/-- Lines are read for the field at a position if it is in the last of them. There may be fields
left over from an earlier line; then perhaps none has to be read. -/
structure JustEnough (left lines : List String) (i : Nat) : Prop where
  enough : i < (left ++ linesFields lines).length
  needed : lines ≠ [] → (left ++ linesFields lines.dropLast).length ≤ i

theorem justEnough_nil {left : List String} {i : Nat} :
    JustEnough left [] i ↔ i < left.length := by
  refine ⟨fun h => ?_, fun h => ⟨?_, fun hne => absurd rfl hne⟩⟩
  · simpa using h.enough
  · simpa using h

/-- A line is read if the fields from before do not reach, and then it adds its own. -/
theorem justEnough_cons {left lines : List String} {line : String} {i : Nat} :
    JustEnough left (line :: lines) i ↔
      left.length ≤ i ∧ JustEnough (left ++ linesFields [line]) lines i := by
  have hassoc (more : List String) : left ++ linesFields (line :: more) =
      left ++ linesFields [line] ++ linesFields more := by
    rw [linesFields_cons, List.append_assoc]
  constructor
  · rintro ⟨henough, hneeded⟩
    have hlength := hneeded (List.cons_ne_nil _ _)
    rw [List.length_append] at hlength
    refine ⟨by omega, by rwa [← hassoc], fun hne => ?_⟩
    have hdrop := hneeded (List.cons_ne_nil _ _)
    rwa [List.dropLast_cons_of_ne_nil hne, hassoc] at hdrop
  · rintro ⟨hleft, henough, hneeded⟩
    refine ⟨by rwa [hassoc], fun _ => ?_⟩
    cases lines with
    | nil => simpa using hleft
    | cons next more =>
      rw [List.dropLast_cons_of_ne_nil (List.cons_ne_nil _ _), hassoc]
      exact hneeded (List.cons_ne_nil _ _)

theorem justEnough_succ {left lines : List String} {field : String} {i : Nat} :
    JustEnough (field :: left) lines (i + 1) ↔ JustEnough left lines i := by
  constructor
  · rintro ⟨henough, hneeded⟩
    exact ⟨by simpa using henough, fun hne => by simpa using hneeded hne⟩
  · rintro ⟨henough, hneeded⟩
    exact ⟨by simpa using henough, fun hne => by simpa using hneeded hne⟩

theorem JustEnough.behind {left lines more : List String} {i : Nat}
    (h : JustEnough left (lines ++ more) i) :
    JustEnough (left ++ linesFields lines) more i := by
  induction lines generalizing left with
  | nil => simpa using h
  | cons line lines ih =>
    rw [linesFields_cons, ← List.append_assoc]
    exact ih (justEnough_cons.1 h).2

theorem exists_justEnough {left queue : List String} {i : Nat}
    (h : i < (left ++ linesFields queue).length) :
    ∃ lines rest, queue = lines ++ rest ∧ JustEnough left lines i := by
  by_cases hleft : i < left.length
  · exact ⟨[], queue, rfl, justEnough_nil.2 hleft⟩
  · induction queue generalizing left with
    | nil =>
      rw [linesFields_nil, List.append_nil] at h
      exact absurd h hleft
    | cons line queue ih =>
      rw [linesFields_cons, ← List.append_assoc] at h
      by_cases hline : i < (left ++ linesFields [line]).length
      · refine ⟨[line], queue, rfl, justEnough_cons.2 ⟨Nat.le_of_not_lt hleft, ?_⟩⟩
        exact justEnough_nil.2 hline
      · obtain ⟨lines, rest, rfl, hlines⟩ := ih h hline
        exact ⟨line :: lines, rest, rfl, justEnough_cons.2 ⟨Nat.le_of_not_lt hleft, hlines⟩⟩

theorem nextField_of_line {n : Nat} {m : Machine} {line : String} {lines : List String}
    (hinput : m.host.input = line :: lines) (hn : m.host.input.length ≤ n) :
    ∃ m₁ n₁, nextField n [] m = nextField n₁ (linesFields [line]) m₁ ∧ m₁.modules = m.modules ∧
      m₁.host.input = lines ∧ lines.length ≤ n₁ := by
  rw [hinput, List.length_cons] at hn
  obtain ⟨n, rfl⟩ : ∃ k, n = k + 1 := ⟨n - 1, by omega⟩
  obtain ⟨hmodules, hprinted⟩ := print_keeps m "?? "
  obtain ⟨m₁, hread, hmodules₁, hinput₁⟩ := readFields_of_cons (hprinted.trans hinput)
  refine ⟨m₁, n, ?_, hmodules₁.trans hmodules, hinput₁, by omega⟩
  change (readFields >>= fun more => nextField n more) (m.print "?? ") = _
  rw [bind_apply, hread]

/-- The next field is found in the lines that are read for it. -/
theorem nextField_of_justEnough {n : Nat} {m : Machine} {left lines rest more : List String}
    {field : String} (hinput : m.host.input = lines ++ rest) (hn : m.host.input.length ≤ n)
    (hlines : JustEnough left lines 0) (hfield : left ++ linesFields lines = field :: more) :
    ∃ m', nextField n left m = .ok (field, more) m' ∧ m'.modules = m.modules ∧
      m'.host.input = rest := by
  induction lines generalizing left n m with
  | nil =>
    rw [linesFields_nil, List.append_nil] at hfield
    subst hfield
    exact ⟨m, by cases n <;> rfl, rfl, hinput⟩
  | cons line lines ih =>
    obtain ⟨hleft, hlines⟩ := justEnough_cons.1 hlines
    obtain rfl := List.eq_nil_of_length_eq_zero (Nat.le_zero.1 hleft)
    rw [linesFields_cons, List.nil_append] at hfield
    obtain ⟨m₁, n₁, hnext, hmodules, hinput₁, hn₁⟩ := nextField_of_line hinput hn
    obtain ⟨m', hfound, hmodules', hinput'⟩ := ih hinput₁ (hinput₁ ▸ hn₁) hlines hfield
    exact ⟨m', hnext.trans hfound, hmodules'.trans hmodules, hinput'⟩

/-- Without any field in the lines that wait, they are read to the end. -/
theorem nextField_of_none {n : Nat} {m : Machine} (hn : m.host.input.length ≤ n)
    (hnone : linesFields m.host.input = []) :
    ∃ m', nextField n [] m = .error Host.noMoreInput m' := by
  induction hinput : m.host.input generalizing n m with
  | nil =>
    cases n with
    | zero => exact ⟨m.print "?? ", rfl⟩
    | succ n =>
      refine ⟨m.print "?? ", ?_⟩
      change (readFields >>= fun more => nextField n more) (m.print "?? ") = _
      rw [bind_apply, readFields_of_nil ((print_keeps m _).2.trans hinput)]
  | cons line lines ih =>
    obtain ⟨m₁, n₁, hnext, -, hinput₁, hn₁⟩ := nextField_of_line hinput hn
    rw [hinput, linesFields_cons] at hnone
    obtain ⟨hline, hlines⟩ := List.append_eq_nil_iff.1 hnone
    rw [hline] at hnext
    rw [hnext]
    exact ih (hinput₁ ▸ hn₁) (hinput₁ ▸ hlines) hinput₁

structure GivenTo (places : List Place) (given : List String) (m m' : Machine) : Prop where
  kept : ∀ q, m.HasPlace q → m'.HasPlace q
  others : ∀ q, q ∉ places → m'.contents q = m.contents q
  values : places.Nodup → ∀ p ∈ places.zip given,
    ∃ v, fieldValue p.1 p.2 = .ok v ∧ m'.contents p.1 = .ok v

theorem GivenTo.nil {given : List String} {m m' : Machine} (h : m'.modules = m.modules) :
    GivenTo [] given m m' where
  kept _ hq := hq.congr h
  others q _ := Machine.contents_congr h q
  values _ p hp := by cases hp

theorem GivenTo.of_modules {places : List Place} {given : List String} {m m₁ m' : Machine}
    (hmodules : m₁.modules = m.modules) (h : GivenTo places given m₁ m') :
    GivenTo places given m m' where
  kept q hq := h.kept q (hq.congr hmodules)
  others q hq := (h.others q hq).trans (Machine.contents_congr hmodules q)
  values := h.values

/-- A field that fits is stored, and then those behind it. -/
theorem GivenTo.cons {place : Place} {places : List Place} {field : String}
    {given : List String} {v : Value} {m m₁ m' : Machine} (hv : fieldValue place field = .ok v)
    (hplace : m₁.contents place = .ok v) (hkept : ∀ q, m.HasPlace q → m₁.HasPlace q)
    (hothers : ∀ q, q ≠ place → m₁.contents q = m.contents q) (h : GivenTo places given m₁ m') :
    GivenTo (place :: places) (field :: given) m m' where
  kept q hq := h.kept q (hkept q hq)
  others q hq := by
    rw [h.others q (List.not_mem_of_not_mem_cons hq), hothers q (List.ne_of_not_mem_cons hq)]
  values hdistinct p hp := by
    obtain ⟨hnew, hdistinct⟩ := List.nodup_cons.1 hdistinct
    rw [List.zip_cons_cons, List.mem_cons] at hp
    rcases hp with rfl | hp
    · exact ⟨v, hv, (h.others place hnew).trans hplace⟩
    · exact h.values hdistinct p hp

theorem GivenTo.concat {place : Place} {places : List Place} {field : String}
    {given : List String} {v : Value} {m m₁ m' : Machine} (h : GivenTo places given m m₁)
    (hfield : given[places.length]? = some field) (hv : fieldValue place field = .ok v)
    (hplace : m'.contents place = .ok v) (hkept : ∀ q, m₁.HasPlace q → m'.HasPlace q)
    (hothers : ∀ q, q ≠ place → m'.contents q = m₁.contents q) :
    GivenTo (places ++ [place]) given m m' where
  kept q hq := hkept q (h.kept q hq)
  others q hq := by
    rw [List.mem_append, not_or, List.mem_singleton] at hq
    rw [hothers q hq.2, h.others q hq.1]
  values hdistinct p hp := by
    obtain ⟨hdistinct, -, hnew⟩ := List.nodup_append.1 hdistinct
    obtain ⟨i, hi⟩ := List.mem_iff_getElem?.1 hp
    obtain ⟨hplaces, hgiven⟩ := List.getElem?_zip_eq_some.1 hi
    by_cases hlt : i < places.length
    · rw [List.getElem?_append_left hlt] at hplaces
      obtain ⟨w, hw, hcontents⟩ := h.values hdistinct p
        (List.mem_of_getElem? (List.getElem?_zip_eq_some.2 ⟨hplaces, hgiven⟩))
      have hne : p.1 ≠ place := hnew _ (List.mem_of_getElem? hplaces) _ (List.mem_singleton_self _)
      exact ⟨w, hw, (hothers _ hne).trans hcontents⟩
    · have hi : i = places.length := by
        have hlength := (List.getElem?_eq_some_iff.1 hplaces).1
        rw [List.length_append, List.length_singleton] at hlength
        omega
      subst hi
      rw [List.getElem?_concat_length] at hplaces
      cases hplaces
      cases hfield.symm.trans hgiven
      exact ⟨v, hv, hplace⟩

theorem fillPlaces_cons {m : Machine} {left lines rest more : List String} {field : String}
    (hinput : m.host.input = lines ++ rest) (hlines : JustEnough left lines 0)
    (hfield : left ++ linesFields lines = field :: more) (place : Place) (places : List Place) :
    ∃ m₁, fillPlaces left (place :: places) m =
        (storeField place field >>= fun _ => fillPlaces more places) m₁ ∧
      m₁.modules = m.modules ∧ m₁.host.input = rest := by
  obtain ⟨m₁, hnext, hmodules, hrest⟩ :=
    nextField_of_justEnough hinput (Nat.le_refl _) hlines hfield
  refine ⟨m₁, ?_, hmodules, hrest⟩
  change (nextField m.host.input.length left >>= fun next => storeField place next.1 >>= fun _ =>
    fillPlaces next.2 places) m = _
  rw [bind_apply, hnext]

/-- A place that gets a field which fits it is filled, and the places behind it come next. -/
theorem fillPlaces_cons_of_fits {m : Machine} {left lines rest more : List String}
    {field : String} {place : Place} (hinput : m.host.input = lines ++ rest)
    (hlines : JustEnough left lines 0) (hfield : left ++ linesFields lines = field :: more)
    (hplace : m.HasPlace place) (hfits : Fits place field) (places : List Place) :
    ∃ v m₁, fillPlaces left (place :: places) m = fillPlaces more places m₁ ∧
      m₁.host.input = rest ∧ fieldValue place field = .ok v ∧ m₁.contents place = .ok v ∧
      (∀ q, m.HasPlace q → m₁.HasPlace q) ∧ ∀ q, q ≠ place → m₁.contents q = m.contents q := by
  obtain ⟨m₁, hfill, hmodules, hrest⟩ := fillPlaces_cons hinput hlines hfield place places
  obtain ⟨v, hv⟩ := hfits
  obtain ⟨m₂, hstore, hhost, hcontents, hothers, hkept⟩ :=
    storeField_of_value (hplace.congr hmodules) hv
  refine ⟨v, m₂, ?_, by rw [hhost, hrest], hv, hcontents, fun q hq => hkept q (hq.congr hmodules),
    fun q hne => (hothers q hne).trans (Machine.contents_congr hmodules q)⟩
  rw [hfill, bind_apply, hstore]

/-- As long as the fields fit, places are filled up to the one that is looked at. -/
theorem fillPlaces_front {before after : List Place} {place : Place} {m : Machine}
    {left lines rest : List String} {field : String} (hinput : m.host.input = lines ++ rest)
    (hlines : JustEnough left lines before.length)
    (hfits : ∀ p ∈ before.zip (left ++ linesFields lines), Fits p.1 p.2)
    (hfield : (left ++ linesFields lines)[before.length]? = some field)
    (hplaces : ∀ p ∈ before, m.HasPlace p) :
    ∃ more m', fillPlaces left (before ++ place :: after) m =
        (storeField place field >>= fun _ => fillPlaces more after) m' ∧
      m'.host.input = rest ∧ GivenTo before (left ++ linesFields lines) m m' := by
  induction before generalizing left lines m with
  | nil =>
    cases hall : left ++ linesFields lines with
    | nil =>
      rw [hall] at hfield
      cases hfield
    | cons first more =>
      rw [hall] at hfield
      cases hfield
      obtain ⟨m₁, hfill, hmodules, hrest⟩ := fillPlaces_cons hinput hlines hall place after
      exact ⟨more, m₁, hfill, hrest, .nil hmodules⟩
  | cons first before ih =>
    obtain ⟨lines, further, rfl, hfirst⟩ :=
      exists_justEnough (Nat.lt_of_le_of_lt (Nat.zero_le _) hlines.enough)
    have hbehind := hlines.behind
    rw [linesFields_append, ← List.append_assoc] at hfits hfield ⊢
    cases hall : left ++ linesFields lines with
    | nil =>
      have henough := hfirst.enough
      rw [hall] at henough
      cases henough
    | cons taken more =>
      rw [hall] at hfits hfield hbehind
      rw [List.cons_append, List.zip_cons_cons, List.forall_mem_cons] at hfits
      rw [List.append_assoc] at hinput
      obtain ⟨hplace, hplaces⟩ := List.forall_mem_cons.1 hplaces
      obtain ⟨v, m₁, hfill, hinput₁, hv, hcontents, hkept, hothers⟩ :=
        fillPlaces_cons_of_fits hinput hfirst hall hplace hfits.1 (before ++ place :: after)
      obtain ⟨left, m', hfront, hrest, hgiven⟩ := ih hinput₁ (justEnough_succ.1 hbehind) hfits.2
        (by simpa using hfield) fun p hp => hkept p (hplaces p hp)
      exact ⟨left, m', hfill.trans hfront, hrest, hgiven.cons hv hcontents hkept hothers⟩

/-- Fields that are too few, but fit, are all used up. -/
theorem fillPlaces_of_too_few {places : List Place} {m : Machine} {left : List String}
    (hfew : (left ++ linesFields m.host.input).length < places.length)
    (hfits : ∀ p ∈ places.zip (left ++ linesFields m.host.input), Fits p.1 p.2)
    (hplaces : ∀ p ∈ places, m.HasPlace p) :
    ∃ m', fillPlaces left places m = .error Host.noMoreInput m' := by
  induction places generalizing left m with
  | nil => cases hfew
  | cons place places ih =>
    cases hall : left ++ linesFields m.host.input with
    | nil =>
      obtain ⟨rfl, hnone⟩ := List.append_eq_nil_iff.1 hall
      obtain ⟨m', hstops⟩ := nextField_of_none (Nat.le_refl _) hnone
      refine ⟨m', ?_⟩
      change (nextField m.host.input.length [] >>= fun next => storeField place next.1 >>= fun _ =>
        fillPlaces next.2 places) m = _
      rw [bind_apply, hstops]
    | cons first more =>
      have hsome : 0 < (left ++ linesFields m.host.input).length := by
        rw [hall]
        exact Nat.zero_lt_succ _
      obtain ⟨lines, rest, hinput, hlines⟩ := exists_justEnough hsome
      rw [hinput, linesFields_append, ← List.append_assoc] at hfew hfits
      cases hread : left ++ linesFields lines with
      | nil =>
        have henough := hlines.enough
        rw [hread] at henough
        cases henough
      | cons field more =>
        rw [hread, List.cons_append, List.zip_cons_cons, List.forall_mem_cons] at hfits
        obtain ⟨hplace, hplaces⟩ := List.forall_mem_cons.1 hplaces
        obtain ⟨v, m₁, hfill, hinput₁, -, -, hkept, -⟩ :=
          fillPlaces_cons_of_fits hinput hlines hread hplace hfits.1 places
        rw [hfill]
        refine ih ?_ ?_ fun p hp => hkept p (hplaces p hp)
        · rw [hread] at hfew
          rw [hinput₁]
          simpa using hfew
        · rw [hinput₁]
          exact hfits.2

def attempt (places : List Place) : Run Unit := do fillPlaces (← readFields) places

/-- Lines that an attempt fills the places with: their fields fit the places, and it is the last of
the lines that has the field of the last place. -/
structure Filled (places : List Place) (lines : List String) : Prop where
  enough : JustEnough [] lines (places.length - 1)
  fits : ∀ p ∈ places.zip (linesFields lines), Fits p.1 p.2

/-- Lines that an attempt fails with: a field of the last of them does not fit its place, after
fields that did. -/
inductive Refused : List Place → List String → Prop
  | intro {before : List Place} {place : Place} {lines : List String} {field : String}
      (hlines : JustEnough [] lines before.length)
      (hfits : ∀ p ∈ before.zip (linesFields lines), Fits p.1 p.2)
      (hfield : (linesFields lines)[before.length]? = some field) (hunfit : ¬ Fits place field)
      (after : List Place) : Refused (before ++ place :: after) lines

structure Starved (places : List Place) (lines : List String) : Prop where
  few : (linesFields lines).length < places.length
  fits : ∀ p ∈ places.zip (linesFields lines), Fits p.1 p.2

theorem JustEnough.exists_cons {lines : List String} {i : Nat} (h : JustEnough [] lines i) :
    ∃ line more, lines = line :: more ∧ JustEnough (linesFields [line]) more i := by
  cases lines with
  | nil => cases justEnough_nil.1 h
  | cons line more => exact ⟨line, more, rfl, (justEnough_cons.1 h).2⟩

theorem attempt_of_cons {m : Machine} {line : String} {rest : List String}
    (hinput : m.host.input = line :: rest) (places : List Place) :
    ∃ m₁, attempt places m = fillPlaces (linesFields [line]) places m₁ ∧ m₁.modules = m.modules ∧
      m₁.host.input = rest := by
  obtain ⟨m₁, hread, hkept⟩ := readFields_of_cons hinput
  refine ⟨m₁, ?_, hkept⟩
  rw [attempt, bind_apply, hread]

/-- The first fields of an attempt go to the first places. -/
theorem attempt_front {before : List Place} {m : Machine} {lines rest : List String}
    {field : String} (hinput : m.host.input = lines ++ rest)
    (hlines : JustEnough [] lines before.length)
    (hfits : ∀ p ∈ before.zip (linesFields lines), Fits p.1 p.2)
    (hfield : (linesFields lines)[before.length]? = some field)
    (hplaces : ∀ p ∈ before, m.HasPlace p) (place : Place) (after : List Place) :
    ∃ more m', attempt (before ++ place :: after) m =
        (storeField place field >>= fun _ => fillPlaces more after) m' ∧
      m'.host.input = rest ∧ GivenTo before (linesFields lines) m m' := by
  obtain ⟨line, lines, rfl, hmore⟩ := hlines.exists_cons
  obtain ⟨m₁, hattempt, hmodules, hinput₁⟩ := attempt_of_cons hinput (before ++ place :: after)
  rw [linesFields_cons] at hfits hfield ⊢
  obtain ⟨more, m', hfront, hrest, hgiven⟩ :=
    fillPlaces_front hinput₁ hmore hfits hfield fun p hp => (hplaces p hp).congr hmodules
  exact ⟨more, m', hattempt.trans hfront, hrest, hgiven.of_modules hmodules⟩

theorem attempt_of_filled {places : List Place} {m : Machine} {lines rest : List String}
    (hne : places ≠ []) (hinput : m.host.input = lines ++ rest) (h : Filled places lines)
    (hplaces : ∀ p ∈ places, m.HasPlace p) :
    ∃ m', attempt places m = .ok () m' ∧ m'.host.input = rest ∧
      GivenTo places (linesFields lines) m m' := by
  obtain ⟨hlines, hfits⟩ := h
  obtain ⟨before, place, rfl⟩ : ∃ before place, places = before ++ [place] :=
    ⟨_, _, (List.dropLast_concat_getLast hne).symm⟩
  rw [List.length_append, List.length_singleton, Nat.add_sub_cancel] at hlines
  obtain ⟨field, hfield⟩ : ∃ field, (linesFields lines)[before.length]? = some field :=
    ⟨_, List.getElem?_eq_getElem hlines.enough⟩
  have hpair {i : Nat} {p : Place × String} (hplace : (before ++ [place])[i]? = some p.1)
      (hgiven : (linesFields lines)[i]? = some p.2) : Fits p.1 p.2 :=
    hfits p (List.mem_of_getElem? (List.getElem?_zip_eq_some.2 ⟨hplace, hgiven⟩))
  have hbefore : ∀ p ∈ before.zip (linesFields lines), Fits p.1 p.2 := by
    intro p hp
    obtain ⟨i, hi⟩ := List.mem_iff_getElem?.1 hp
    obtain ⟨hplace, hgiven⟩ := List.getElem?_zip_eq_some.1 hi
    refine hpair ?_ hgiven
    rw [List.getElem?_append_left (List.getElem?_eq_some_iff.1 hplace).1, hplace]
  obtain ⟨v, hv⟩ : Fits place field := hpair (p := (place, field)) (by simp) hfield
  obtain ⟨more, m₁, hfront, hrest, hgiven⟩ := attempt_front hinput hlines hbefore hfield
    (fun p hp => hplaces p (List.mem_append_left _ hp)) place []
  obtain ⟨m', hstore, hhost, hcontents, hothers, hkept⟩ :=
    storeField_of_value (hgiven.kept place (hplaces place (by simp))) hv
  refine ⟨m', ?_, by rw [hhost, hrest], hgiven.concat hfield hv hcontents hkept hothers⟩
  rw [hfront, bind_apply, hstore]
  rfl

theorem attempt_of_refused {places : List Place} {m : Machine} {lines rest : List String}
    (hinput : m.host.input = lines ++ rest) (h : Refused places lines)
    (hplaces : ∀ p ∈ places, m.HasPlace p) :
    ∃ f m', attempt places m = .error f m' ∧ f.isBreak = false ∧ m'.host.input = rest ∧
      ∀ q, m.HasPlace q → m'.HasPlace q := by
  obtain ⟨hlines, hfits, hfield, hunfit, after⟩ := h
  obtain ⟨more, m', hfront, hrest, hgiven⟩ := attempt_front hinput hlines hfits hfield
    (fun p hp => hplaces p (List.mem_append_left _ hp)) _ after
  obtain ⟨f, hstore, hbreak⟩ := storeField_of_unfit hunfit m'
  refine ⟨f, m', ?_, hbreak, hrest, hgiven.kept⟩
  rw [hfront, bind_apply, hstore]

theorem attempt_of_starved {places : List Place} {m : Machine}
    (h : Starved places m.host.input) (hplaces : ∀ p ∈ places, m.HasPlace p) :
    ∃ m', attempt places m = .error Host.noMoreInput m' := by
  obtain ⟨hfew, hfits⟩ := h
  cases hinput : m.host.input with
  | nil => exact ⟨m, by rw [attempt, bind_apply, readFields_of_nil hinput]⟩
  | cons line rest =>
    obtain ⟨m₁, hattempt, hmodules, rfl⟩ := attempt_of_cons hinput places
    rw [hinput, linesFields_cons] at hfew hfits
    rw [hattempt]
    exact fillPlaces_of_too_few hfew hfits fun p hp => (hplaces p hp).congr hmodules

end Statement

end LineBasic
