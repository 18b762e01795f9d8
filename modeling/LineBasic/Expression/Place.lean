import LineBasic.Expression.Evaluate

/-!
# Places

Where a statement puts a value: a scalar, or an element of an array. The module of a name that is
assigned to is made at its first mention, and so is its array, with bounds of ten.
-/

set_option autoImplicit false

namespace LineBasic

inductive Place where
  | scalar (home : ModuleId) (name : String)
  | element (home : ModuleId) (name : String) (offset : Nat)
  deriving DecidableEq, Repr

namespace Place

def home : Place → ModuleId
  | scalar id _ | element id _ _ => id

def name : Place → String
  | scalar _ n | element _ n _ => n

def isText (p : Place) : Bool := Kind.ofName p.name == .text

def storeIn (vars : Variables) (v : Value) : Place → Except Fault Variables
  | scalar _ name => vars.store name v
  | element _ name offset => vars.storeElement name offset v

def store (p : Place) (v : Value) : Run Unit := do
  let vars ← p.storeIn ((← get).moduleAt p.home).vars v
  Run.updateModule p.home fun mod => { mod with vars }

end Place

def defaultBound : Nat := 10

def bareSyntax : Fault := .plain .badSyntax

def targetModule : Token → Run ModuleId
  | .qualifier name => Run.ensureModule name
  | _ => return (← get).scopes.variableModule

def dimension (home : ModuleId) (name : String) (bounds : List Nat) : Run Unit := do
  let vars ← ((← get).moduleAt home).vars.dimension name bounds
  Run.updateModule home fun mod => { mod with vars }

def targetPlace (home : ModuleId) (ref : Reference) : Run Place := do
  match ref.args with
  | none =>
    Run.updateModule home fun mod => { mod with vars := mod.vars.touch ref.name }
    return .scalar home ref.name
  | some inner =>
    let index ← evaluateSubscripts inner
    if !((← get).moduleAt home).vars.hasArray ref.name then
      dimension home ref.name (index.map fun _ => defaultBound)
    return .element home ref.name (← ((← get).moduleAt home).vars.arrayOffset ref.name index)

def Token.startsName : Token → Bool
  | ident _ | qualifier _ => true
  | _ => false

def takeTarget : List Token → Run (Place × List Token)
  | [] => throw bareSyntax
  | t :: ts => do
    if !t.startsName then throw bareSyntax
    let home ← targetModule t
    let (ref, rest) ← Reference.split expectedName (t :: ts)
    return (← targetPlace home ref, rest)

structure NameList where
  /-- The fault of an entry that is no name. -/
  notName : Fault := bareSyntax
  /-- The fault of a module without a name after it. -/
  missing : Fault := expectedName
  /-- Whether a comma may end the list. -/
  openEnded : Bool := true

def visitNames {α : Type} (rule : NameList) (visit : ModuleId → Reference → Run α)
    (tokens : List Token) : Run (List α) :=
  match tokens with
  | [] => if rule.openEnded then pure [] else throw rule.notName
  | t :: ts => do
    if !t.startsName then throw rule.notName
    let home ← targetModule t
    match h : Reference.split rule.missing (t :: ts) with
    | .error f => throw f
    | .ok (ref, rest) =>
      let visited ← visit home ref
      match hr : rest with
      | [] => return [visited]
      | .comma :: more =>
        have : more.length < (t :: ts).length := by
          have := (Reference.length_split h).1
          simp only [hr, List.length_cons] at this ⊢
          omega
        return visited :: (← visitNames rule visit more)
      | _ => throw bareSyntax
termination_by tokens.length
decreasing_by (simp only [List.length_cons] at *; omega)

/-- What is so of answers and faults, and passes from two runs on to one after the other, is so of a
list of names if it is of each entry. -/
theorem visitNames_rule {α : Type} {Q : {β : Type} → Run β → Prop}
    (hpure : ∀ {β : Type} (b : β), Q (pure b))
    (hbind : ∀ {β γ : Type} {x : Run β} {f : β → Run γ}, Q x → (∀ b, Q (f b)) → Q (x >>= f))
    {rule : NameList} (hname : Q (throw rule.notName : Run (List α)))
    (hmissing : ∀ tokens f, Reference.split rule.missing tokens = .error f →
      Q (throw f : Run (List α)))
    (hbare : Q (throw bareSyntax : Run (List α))) (hmodule : ∀ t, Q (targetModule t))
    {visit : ModuleId → Reference → Run α} (hvisit : ∀ home ref, Q (visit home ref))
    (tokens : List Token) : Q (visitNames rule visit tokens) := by
  cases tokens with
  | nil =>
    rw [visitNames]
    split
    · exact hpure _
    · exact hname
  | cons t ts =>
    rw [visitNames]
    dsimp only
    split
    · exact hname
    · refine hbind (hmodule t) fun home => ?_
      split
      · rename_i f hf
        exact hmissing _ f hf
      · rename_i ref rest h
        have hrest := (Reference.length_split h).1
        refine hbind (hvisit home ref) fun visited => ?_
        split
        · exact hpure _
        · rename_i more
          have hmore : more.length < (t :: ts).length := by
            rw [List.length_cons] at hrest
            omega
          refine hbind ?_ fun _ => hpure _
          exact visitNames_rule hpure hbind hname hmissing hbare hmodule hvisit more
        · exact hbare
termination_by tokens.length
decreasing_by all_goals (simp only [List.length_cons] at *; omega)

def afterEqual : List Token → Run (List Token)
  | .operator .equal :: rest => pure rest
  | _ => Run.fail .badSyntax "EXPECTED ="

end LineBasic
