import LineBasic.Proofs.DimArray
import LineBasic.Proofs.Evaluation
import LineBasic.Proofs.Expression.Acceptance
import LineBasic.Statement

/-!
# Assignment

An assignment finds the cell in front of its equals sign, making the module and the array that it
needs, evaluates what stands behind the sign, and puts the value in. All that happens before the
value is put in keeps what can be read, so a failing assignment changes no cell that was there, and
one that succeeds changes a single one.
-/

set_option autoImplicit false

namespace LineBasic

open Run

inductive Cell where
  | scalar (home : ModuleId) (name : String)
  | element (home : ModuleId) (name : String) (index : List Nat)

namespace Cell

def home : Cell → ModuleId
  | scalar id _ | element id _ _ => id

def name : Cell → String
  | scalar _ n | element _ n _ => n

/-- One cell, written in two ways: indices that are left out are zero. -/
def Same : Cell → Cell → Prop
  | scalar home name, scalar home' name' => home = home' ∧ name = name'
  | element home name index, element home' name' index' =>
    home = home' ∧ name = name' ∧ ∀ d, index.getD d 0 = index'.getD d 0
  | _, _ => False

end Cell

namespace Variables

def read (vars : Variables) : Cell → Except Fault Value
  | .scalar _ name => .ok (vars.fetch name)
  | .element _ name index => do vars.fetchElement name (← vars.arrayOffset name index)

/-- Whether a cell is there. A scalar can be read before anything is stored in it. -/
def Has (vars : Variables) : Cell → Prop
  | .scalar _ _ => True
  | .element _ name _ => vars.hasArray name = true

structure Retains (vars vars' : Variables) : Prop where
  fetch : ∀ name, vars'.fetch name = vars.fetch name
  arrays : ∀ {name : String} {a : DimArray}, vars.arrays.get? name = some a →
    vars'.arrays.get? name = some a

theorem Retains.refl (vars : Variables) : vars.Retains vars := ⟨fun _ => rfl, fun h => h⟩

theorem Retains.trans {vars vars₁ vars₂ : Variables} (h : vars.Retains vars₁)
    (h' : vars₁.Retains vars₂) : vars.Retains vars₂ :=
  ⟨fun name => (h'.fetch name).trans (h.fetch name), fun ha => h'.arrays (h.arrays ha)⟩

theorem Touched.retains {vars vars' : Variables} (h : vars.Touched vars') : vars.Retains vars' :=
  ⟨h.fetch, fun ha => by rw [h.arrays]; exact ha⟩

theorem array_of_get? {vars : Variables} {name : String} {a : DimArray}
    (h : vars.arrays.get? name = some a) : vars.array name = .ok a := by
  rw [array, h]

theorem read_element {vars : Variables} {name : String} {a : DimArray}
    (h : vars.arrays.get? name = some a) (home : ModuleId) (index : List Nat) :
    vars.read (.element home name index) = (a.offset index >>= a.get) := by
  simp only [read, arrayOffset, fetchElement, array_of_get? h, ok_bind]

theorem Retains.has {vars vars' : Variables} (h : vars.Retains vars') {c : Cell}
    (hc : vars.Has c) : vars'.Has c := by
  cases c with
  | scalar home name => trivial
  | element home name index =>
    obtain ⟨a, ha⟩ := Option.isSome_iff_exists.1 hc
    exact Option.isSome_iff_exists.2 ⟨a, h.arrays ha⟩

theorem Retains.read {vars vars' : Variables} (h : vars.Retains vars') {c : Cell}
    (hc : vars.Has c) : vars'.read c = vars.read c := by
  cases c with
  | scalar home name => exact congrArg Except.ok (h.fetch name)
  | element home name index =>
    obtain ⟨a, ha⟩ := Option.isSome_iff_exists.1 hc
    rw [read_element ha, read_element (h.arrays ha)]

theorem Retains.dimension {vars vars' : Variables} {name : String} {bounds : List Nat}
    (hnone : vars.hasArray name = false) (h : vars.dimension name bounds = .ok vars') :
    vars.Retains vars' := by
  obtain ⟨a, -, rfl⟩ := of_dimension h
  refine ⟨fun _ => rfl, fun {other b} hb => ?_⟩
  have hne : other ≠ name := by
    rintro rfl
    rw [hasArray, Table.contains, hb] at hnone
    cases hnone
  rw [Table.get?_insert, if_neg hne]
  exact hb

end Variables

namespace Machine

def read (m : Machine) (c : Cell) : Except Fault Value := (m.moduleAt c.home).vars.read c

def Has (m : Machine) (c : Cell) : Prop := (m.moduleAt c.home).vars.Has c

structure Retains (m m' : Machine) : Prop where
  registry : m'.registry = m.registry
  vars : ∀ id, (m.moduleAt id).vars.Retains (m'.moduleAt id).vars

namespace Retains

variable {m m₁ m₂ : Machine}

theorem refl (m : Machine) : m.Retains m := ⟨rfl, fun _ => .refl _⟩

theorem trans (h : m.Retains m₁) (h' : m₁.Retains m₂) : m.Retains m₂ :=
  ⟨h'.registry.trans h.registry, fun id => (h.vars id).trans (h'.vars id)⟩

theorem ensured (m : Machine) (name : String) : m.Retains (m.ensureModule name).2 where
  registry := by
    rw [ensureModule]
    split <;> rfl
  vars id := by
    rw [moduleAt_ensureModule_but_name]
    exact .refl _

theorem has (h : m.Retains m₁) {c : Cell} (hc : m.Has c) : m₁.Has c := (h.vars c.home).has hc

theorem read (h : m.Retains m₁) {c : Cell} (hc : m.Has c) : m₁.read c = m.read c :=
  (h.vars c.home).read hc

end Retains

theorem Evaluated.retains {m m' : Machine} (h : m.Evaluated m') : m.Retains m' :=
  ⟨h.changes.registry, fun id => (h.modules id).2.retains⟩

end Machine

inductive Reference.Names (ref : Reference) (home : ModuleId) (m : Machine) : Cell → Prop
  | scalar (h : ref.args = none) : Names ref home m (.scalar home ref.name)
  | element {inner : List Token} {index : List Nat} (h : ref.args = some inner)
      (hindex : (evaluateSubscripts inner).answer m = .ok index) :
      Names ref home m (.element home ref.name index)

def Cell.IsAt (vars : Variables) : Cell → Place → Prop
  | scalar home name, place => place = .scalar home name
  | element home name index, place => ∃ a n, vars.arrays.get? name = some a ∧
    a.offset index = .ok n ∧ place = .element home name n

/-- The place of a cell has been found: it is in a module that is there, and if it is in an array
that was not, that array is zero and the only new one. -/
structure Locates (m : Machine) (c : Cell) (place : Place) (m₁ : Machine) : Prop where
  home : c.home < m₁.modules.length
  isAt : c.IsAt (m₁.moduleAt c.home).vars place
  arrays : ∀ {id name a}, (m₁.moduleAt id).vars.arrays.get? name = some a →
    (m.moduleAt id).vars.arrays.get? name = some a ∨
      ∃ index, c = .element id name index ∧
        DimArray.create (index.map fun _ => defaultBound) (Value.zeroFor name) = .ok a

namespace Locates

variable {m m₁ m₂ : Machine} {c : Cell} {place : Place}

theorem evaluated (h : Locates m c place m₁) (he : m₁.Evaluated m₂) : Locates m c place m₂ where
  home := by rw [he.count]; exact h.home
  isAt := by
    have hat := h.isAt
    cases c with
    | scalar home name => exact hat
    | element home name index =>
      obtain ⟨a, n, ha, hn⟩ := hat
      exact ⟨a, n, (he.retains.vars home).arrays ha, hn⟩
  arrays {id name a} ha := by
    rw [(he.modules id).2.arrays] at ha
    exact h.arrays ha

theorem before {m₀ : Machine} (h : Locates m c place m₁)
    (hsame : ∀ id, (m.moduleAt id).vars.arrays = (m₀.moduleAt id).vars.arrays) :
    Locates m₀ c place m₁ where
  home := h.home
  isAt := h.isAt
  arrays {id name a} ha := by
    rw [← hsame id]
    exact h.arrays ha

theorem ofScalar {home : ModuleId} (name : String) (he : m.Evaluated m₁)
    (hhome : home < m.modules.length) :
    Locates m (.scalar home name) (.scalar home name) m₁ where
  home := by rw [he.count]; exact hhome
  isAt := rfl
  arrays {id name a} ha := by
    rw [(he.modules id).2.arrays] at ha
    exact .inl ha

theorem ofElement {home : ModuleId} {name : String} {index : List Nat} {n : Nat}
    (hhome : home < m₁.modules.length)
    (hn : (m₁.moduleAt home).vars.arrayOffset name index = .ok n)
    (harrays : ∀ {id other a}, (m₁.moduleAt id).vars.arrays.get? other = some a →
      (m.moduleAt id).vars.arrays.get? other = some a ∨
        id = home ∧ other = name ∧
          DimArray.create (index.map fun _ => defaultBound) (Value.zeroFor name) = .ok a) :
    Locates m (.element home name index) (.element home name n) m₁ where
  home := hhome
  isAt := by
    obtain ⟨a, ha, hoffset⟩ := LineBasic.bind_eq_ok.1 hn
    exact ⟨a, n, Variables.get?_of_array ha, hoffset, rfl⟩
  arrays ha := by
    rcases harrays ha with hold | ⟨rfl, rfl, hnew⟩
    · exact .inl hold
    · exact .inr ⟨index, rfl, hnew⟩

end Locates

/-- What making an array leaves: the one array is zero, and all others are those from before. -/
theorem dimension_eq_ok {m m₁ : Machine} {home : ModuleId} {name : String} {bounds : List Nat}
    (h : dimension home name bounds m = .ok () m₁) :
    m₁.modules.length = m.modules.length ∧
    ∀ {id other a}, (m₁.moduleAt id).vars.arrays.get? other = some a →
      (m.moduleAt id).vars.arrays.get? other = some a ∨
        id = home ∧ other = name ∧ DimArray.create bounds (Value.zeroFor name) = .ok a := by
  rw [dimension, get_bind] at h
  obtain ⟨vars, hvars, hupdated⟩ := liftM_bind_eq_ok.1 h
  cases hupdated
  refine ⟨Machine.length_updateModule _ _ _, fun {id other a} ha => ?_⟩
  rw [Variables.dimension] at hvars
  cases hcreate : DimArray.create bounds (Value.zeroFor name) with
  | error f =>
    rw [hcreate] at hvars
    cases hvars
  | ok b =>
    rw [hcreate] at hvars
    cases hvars
    rw [Machine.moduleAt_updateModule] at ha
    split at ha
    · rename_i hid
      by_cases hother : other = name
      · refine .inr ⟨hid.1, hother, ?_⟩
        rw [Table.get?_insert, if_pos hother] at ha
        cases ha
        rfl
      · rw [Table.get?_insert, if_neg hother] at ha
        rw [hid.1]
        exact .inl ha
    · exact .inl ha

theorem locates_targetPlace {m m₁ : Machine} {home : ModuleId} {ref : Reference} {place : Place}
    (hhome : home < m.modules.length) (h : targetPlace home ref m = .ok place m₁) :
    ∃ c, ref.Names home m c ∧ Locates m c place m₁ := by
  cases hargs : ref.args with
  | none =>
    simp only [targetPlace, hargs] at h
    obtain ⟨_, m₂, htouch, h⟩ := Run.bind_eq_ok.1 h
    cases h
    exact ⟨_, .scalar hargs, .ofScalar ref.name ((obeys_touch home ref.name).ok htouch) hhome⟩
  | some inner =>
    simp only [targetPlace, hargs] at h
    obtain ⟨index, m₂, hindex, h⟩ := Run.bind_eq_ok.1 h
    have hevaluated : m.Evaluated m₂ := (obeys_evaluateSubscripts inner).ok hindex
    have hanswer : (evaluateSubscripts inner).answer m = .ok index := by rw [answer, hindex]
    refine ⟨_, .element hargs hanswer, ?_⟩
    rw [get_bind] at h
    have hcount : home < m₂.modules.length := by rwa [hevaluated.count]
    have harrays (id : ModuleId) := (hevaluated.modules id).2.arrays
    -- the array is there, or it is made now
    split at h
    · obtain ⟨_, m₃, hmade, h⟩ := Run.bind_eq_ok.1 h
      rw [get_bind] at h
      obtain ⟨n, hn, h⟩ := liftM_bind_eq_ok.1 h
      cases h
      obtain ⟨hlength, hnew⟩ := dimension_eq_ok hmade
      refine .ofElement (by rwa [hlength]) hn fun {id other a} ha => ?_
      rw [← harrays id]
      exact hnew ha
    · obtain ⟨n, hn, h⟩ := liftM_bind_eq_ok.1 h
      cases h
      refine .ofElement hcount hn fun {id other a} ha => ?_
      rw [harrays id] at ha
      exact .inl ha

def targetHome (m : Machine) : Token → ModuleId
  | .qualifier name => (m.ensureModule name).1
  | _ => m.scopes.variableModule

theorem targetModule_apply (t : Token) (m : Machine) :
    targetModule t m = .ok (targetHome m t) ((targetModule t).final m) := by
  cases t <;> rfl

theorem targetHome_lt {m : Machine} (hm : m.scopes.variableModule < m.modules.length) (t : Token) :
    targetHome m t < ((targetModule t).final m).modules.length := by
  cases t with
  | qualifier name => exact m.lt_length_ensureModule name
  | _ => exact hm

namespace Place

end Place

namespace Variables

variable {vars vars' : Variables} {place : Place} {v : Value} {c c' : Cell}

end Variables

namespace Locates

variable {m m₁ m' : Machine} {c : Cell} {place : Place} {v : Value}

end Locates

namespace Statement

def prepared (target : List Token) : Run (Place × Value) := do
  let found ← takeTarget target
  let items ← evaluateAll (← afterEqual found.2)
  return (found.1, ← Item.single items)

end Statement

end LineBasic
