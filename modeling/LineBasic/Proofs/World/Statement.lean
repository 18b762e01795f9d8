import LineBasic.Proofs.Act.Statement
import LineBasic.Proofs.World

/-!
# What statements do to the world

Most statements need no permit for what they do. Each lemma follows the statement that it is about.
-/

set_option autoImplicit false

namespace LineBasic

open Run

variable {α : Type} {p : Permit → Prop}

@[simp] theorem does_evaluate (tokens : List Token) : Does p (evaluate tokens) :=
  (obeys_evaluate tokens).does

@[simp] theorem does_evaluateAll (tokens : List Token) : Does p (evaluateAll tokens) :=
  (obeys_evaluateAll tokens).does

@[simp] theorem does_evaluateSingle (tokens : List Token) : Does p (evaluateSingle tokens) :=
  (obeys_evaluateSingle tokens).does

@[simp] theorem does_evaluateSubscripts (tokens : List Token) :
    Does p (evaluateSubscripts tokens) :=
  (obeys_evaluateSubscripts tokens).does

@[simp] theorem does_qualifiedModule (t : Token) : Does p (qualifiedModule t) :=
  (obeys_qualifiedModule t).follows

@[simp] theorem does_store (place : Place) (v : Value) : Does p (place.store v) := by
  simp [Place.store]

@[simp] theorem does_targetModule (t : Token) : Does p (targetModule t) := by
  cases t <;> simp [targetModule]

@[simp] theorem does_dimension (home : ModuleId) (name : String) (bounds : List Nat) :
    Does p (dimension home name bounds) := by
  simp [dimension]

@[simp] theorem does_targetPlace (home : ModuleId) (ref : Reference) :
    Does p (targetPlace home ref) := by
  have located (index : List Nat) : Does p (do
      let offset ← ((← get).moduleAt home).vars.arrayOffset ref.name index
      return Place.element home ref.name offset) := by
    simp
  rw [targetPlace]
  split
  · simp
  · refine (does_evaluateSubscripts _).bind fun index => follows_get.bind fun m => ?_
    dsimp only
    split
    · exact (does_dimension _ _ _).bind fun _ => located index
    · exact located index

@[simp] theorem does_takeTarget (tokens : List Token) : Does p (takeTarget tokens) := by
  cases tokens with
  | nil => exact follows_throw _
  | cons t ts =>
    refine .ite (follows_throw _) ((does_targetModule t).bind fun home => ?_)
    simp

theorem does_visitNames (rule : NameList) {visit : ModuleId → Reference → Run α}
    (hvisit : ∀ home ref, Does p (visit home ref)) (tokens : List Token) :
    Does p (visitNames rule visit tokens) :=
  visitNames_rule (Q := Does p) follows_pure .bind (follows_throw _) (fun _ f _ => follows_throw f)
    (follows_throw _) does_targetModule hvisit tokens

@[simp] theorem does_afterEqual (tokens : List Token) : Does p (afterEqual tokens) := by
  rw [afterEqual.eq_def]
  split <;> simp

namespace Statement

theorem does_assign (tokens : List Token) : Does p (assign tokens) := by
  refine (does_takeTarget tokens).bind fun _ => (does_afterEqual _).bind fun _ => ?_
  refine (does_evaluateAll _).bind fun items => ?_
  simp

theorem does_dim (tokens : List Token) : Does p (dim tokens) := by
  refine (does_visitNames _ (fun home ref => ?_) tokens).bind fun _ => follows_pure _
  rw [dimEntry]
  split <;> simp

theorem does_define (tokens : List Token) : Does p (define tokens) := by
  have defined (fnCall : Bool) (tokens : List Token) : Does p (defineAs fnCall tokens) := by
    rw [defineAs.eq_def]
    split
    · refine (follows_liftM _).bind fun _ => (does_afterEqual _).bind fun _ => ?_
      simp
    · simp
  rw [define.eq_def]
  split <;> exact defined _ _

@[simp] theorem does_lineArgument (tokens : List Token) : Does p (lineArgument tokens) := by
  simp [lineArgument]

theorem does_readFrom (index : Nat) (lines : List (LineNumber × String)) :
    Does p (readFrom index lines) := by
  induction lines generalizing index with
  | nil => exact follows_throw _
  | cons line lines ih =>
    refine (does_updateCodeModule _).bind fun _ => follows_get.bind fun m => ?_
    refine (follows_liftM _).bind fun items => ?_
    split
    · simp
    · exact ih 0

theorem does_read (tokens : List Token) : Does p (read tokens) := by
  refine .ite (follows_fail _ _) (.bind (does_visitNames _ (fun home ref => ?_) tokens) fun _ =>
    follows_pure _)
  refine (does_targetPlace home ref).bind fun place => .bind ?_ fun v => ?_
  · refine follows_get.bind fun m => ?_
    dsimp only
    split
    · exact does_readFrom _ _
    · exact does_readFrom _ _
  · simp

theorem does_restore (tokens : List Token) : Does p (restore tokens) := by
  refine .ite (does_updateCodeModule _) ((does_lineArgument tokens).bind fun n => ?_)
  simp

@[simp] theorem does_storeField (place : Place) (field : String) :
    Does p (storeField place field) := by
  simp [storeField]

@[simp] theorem does_readFields : Does p readFields := by simp [readFields]

@[simp] theorem does_nextField (n : Nat) (left : List String) : Does p (nextField n left) := by
  induction n generalizing left with
  | zero => cases left <;> simp [nextField]
  | succ n ih =>
    cases left with
    | nil => exact (does_print _).bind fun _ => does_readFields.bind fun fields => ih fields
    | cons field more => exact follows_pure _

@[simp] theorem does_waitingLines : Does p waitingLines := by simp [waitingLines]

@[simp] theorem does_fillPlaces (left : List String) (places : List Place) :
    Does p (fillPlaces left places) := by
  induction places generalizing left with
  | nil => exact follows_pure _
  | cons place places ih =>
    refine does_waitingLines.bind fun n => (does_nextField n left).bind fun found => ?_
    exact (does_storeField place found.1).bind fun _ => ih found.2

theorem does_ask (prompt : String) (places : List Place) (n : Nat) :
    Does p (ask prompt places n) := by
  induction n with
  | zero => simp [ask]
  | succ n ih =>
    refine (does_print prompt).bind fun _ => .tryCatch ?_ fun f => ?_
    · exact does_readFields.bind fun fields => does_fillPlaces fields places
    · exact .ite (follows_throw f) ((does_print _).bind fun _ => ih)

@[simp] theorem does_inputPlaces (tokens : List Token) : Does p (inputPlaces tokens) :=
  does_visitNames _ does_targetPlace tokens

theorem does_askFor (prompt : String) (tokens : List Token) : Does p (askFor prompt tokens) :=
  (does_inputPlaces tokens).bind fun places => does_waitingLines.bind fun n => does_ask _ places n

theorem does_fillFromFile {handle : Nat} (h : p (.readFrom handle)) (left : List String)
    (places : List Place) : Does p (fillFromFile handle left places) := by
  induction places generalizing left with
  | nil => exact follows_pure _
  | cons place places ih =>
    refine fun m => followsAt_of_get ?_
    split
    · rename_i field more
      exact (does_storeField place field).bind (fun _ => ih more) m
    · rename_i lines hfile
      have taken (left : List String) :
          FollowsAt (.deeds p) m
            (modify fun m => { m with files := m.files.insert handle (.reading left) }) :=
        (Machine.Deed.taken handle lines left hfile h).leads
      split
      · exact (taken []).bind fun _ m₁ _ => follows_fail _ _ m₁
      · rename_i field more lines hnext
        refine (taken lines).bind fun _ m₁ _ => ?_
        exact (does_storeField place field).bind (fun _ => ih more) m₁
    · exact follows_throw _ m

theorem does_input_file {digits : String} (h : ∀ n, handleOf digits = .ok n → p (.readFrom n))
    (rest : List Token) : Does p (input (.fileHandle digits :: rest)) := by
  rw [input]
  cases hn : handleOf digits with
  | error f => exact follows_throw f
  | ok n =>
    exact (does_inputPlaces _).bind fun places => does_fillFromFile (h n hn) [] places

theorem does_input_typed {tokens : List Token}
    (h : ∀ digits rest, tokens ≠ .fileHandle digits :: rest) : Does p (input tokens) := by
  rw [input.eq_def]
  split
  · exact absurd rfl (h _ _)
  · exact does_askFor _ _
  · exact does_askFor _ _
  · simp
  · exact does_askFor _ _

@[simp] theorem does_readKey : Does p readKey := by
  intro m
  rw [FollowsAt, final, readKey, get_bind, Host.readKey]
  cases m.host.keys with
  | nil => exact (Effect.deeds p).refl m
  | cons key more =>
    exact (Machine.Deed.sensed more m.host.interrupt m.host.countdown).leads

theorem does_getKey (wait : Bool) (tokens : List Token) : Does p (getKey wait tokens) := by
  refine (does_takeTarget tokens).bind fun target => .ite (follows_throw _) ?_
  refine follows_get.bind fun m => .ite ?_ (does_store _ _)
  simp

theorem does_jumpTo (n : LineNumber) : Does p (jumpTo n) := by
  refine does_enterCode.bind fun _ => ?_
  simp

theorem does_callLine (n : LineNumber) : Does p (callLine n) := by
  refine follows_get.bind fun m => does_enterCode.bind fun entered => follows_get.bind fun m₁ => ?_
  refine .ite (follows_throw _) ((does_updateCodeModule _).bind fun _ => ?_)
  split <;> simp

theorem does_returnFromCall : Does p returnFromCall := by
  refine follows_get.bind fun m => ?_
  split <;> simp

theorem does_onSelector (tokens : List Token) : Does p (onSelector tokens) := by
  have chosen (isCall : Bool) (selector : Int64) (tokens : List Token) :
      Does p (jumpList isCall selector tokens) := by
    refine (does_evaluateAll tokens).bind fun items => .ite (follows_pure _) ?_
    split
    · simp
    · exact (follows_liftM _).bind fun n => .ite (does_callLine _) (does_jumpTo _)
  refine (does_evaluate tokens).bind fun _ => (follows_liftM _).bind fun _ => ?_
  refine (follows_liftM _).bind fun selector => ?_
  split
  · exact chosen _ _ _
  · exact chosen _ _ _
  · simp

theorem does_startProgram (start : Option LineNumber) : Does p (startProgram start) := by
  refine (does_updateVariableModule _).bind fun _ => does_enterCode.bind fun _ => ?_
  refine (does_updateCodeModule _).bind fun _ => follows_get.bind fun m => ?_
  split <;> simp

theorem does_runProgram (tokens : List Token) : Does p (runProgram tokens) :=
  .ite (does_startProgram _) ((does_lineArgument tokens).bind fun _ => does_startProgram _)

theorem does_skipLine : Does p skipLine := does_updateCodeModule _

theorem does_list (tokens : List Token) : Does p (list tokens) :=
  (follows_liftM _).bind fun _ => follows_get.bind fun _ => does_printLines _

theorem does_delete (tokens : List Token) : Does p (delete tokens) := by
  refine .ite (follows_fail _ _) ?_
  simp

theorem does_new : Does p new := by simp [new]

@[simp] theorem does_loopVariable (tokens : List Token) : Does p (loopVariable tokens) := by
  cases tokens with
  | nil => exact follows_throw _
  | cons t ts =>
    refine .ite (follows_throw _) ((does_qualifiedModule t).bind fun home => ?_)
    refine (follows_liftM _).bind fun found => ?_
    dsimp only
    split
    · simp
    · refine (does_evaluateSubscripts _).bind fun index => follows_get.bind fun m => ?_
      simp

@[simp] theorem does_loopStart (tokens : List Token) : Does p (loopStart tokens) := by
  refine (does_evaluate tokens).bind fun _ => ?_
  dsimp only
  split <;> simp

@[simp] theorem does_loopLimit (tokens : List Token) : Does p (loopLimit tokens) :=
  (does_evaluate tokens).bind fun _ => (follows_liftM _).bind fun _ =>
    (follows_liftM _).bind fun _ => follows_pure _

@[simp] theorem does_loopStep (tokens : List Token) : Does p (loopStep tokens) := by
  rw [loopStep.eq_def]
  split <;> simp

theorem does_beginLoop (tokens : List Token) : Does p (beginLoop tokens) := by
  refine (does_loopVariable tokens).bind fun target => ?_
  refine .ite (follows_fail _ _) ((does_afterEqual _).bind fun _ => ?_)
  refine (does_loopStart _).bind fun start => (does_loopLimit _).bind fun limit => ?_
  refine (does_loopStep _).bind fun step => (does_store _ _).bind fun _ => ?_
  refine (does_updateCodeModule _).bind fun _ => follows_get.bind fun m => ?_
  refine (does_updateCodeModule _).bind fun _ => ?_
  split <;> simp

theorem does_stepLoop (q : ForLoop → Bool) : Does p (stepLoop q) := by
  refine follows_get.bind fun m => ?_
  dsimp only
  split
  · refine (does_updateCodeModule _).bind fun _ => follows_get.bind fun m₁ => ?_
    refine (follows_liftM _).bind fun v => (does_store _ v).bind fun _ => ?_
    refine follows_get.bind fun m₂ => (follows_liftM _).bind fun x => ?_
    simp
  · simp

theorem does_endLoop (tokens : List Token) : Does p (endLoop tokens) := by
  have stepped (targets : List (ModuleId × String)) : Does p (stepLoops targets) := by
    induction targets with
    | nil => exact follows_pure _
    | cons target targets ih => exact (does_stepLoop _).bind fun _ => .ite ih (follows_pure _)
  refine .ite ((does_stepLoop _).bind fun _ => follows_pure _) (.bind ?_ stepped)
  fun_induction nextTargets tokens <;> simp [*]

end Statement

end LineBasic
