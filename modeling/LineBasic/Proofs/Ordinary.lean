import LineBasic.Command
import LineBasic.Proofs.Run
import LineBasic.Proofs.Table
import LineBasic.Proofs.Variables
import LineBasic.Statement

/-!
# Ordinary faults

What is computed does not know in which line it stands, so its faults name none, and it never finds
that the machine itself has failed. A fault gets its line when it is reported. The machine can fail
in two ways only: a statement that starts at a place its line does not have, and an element that its
array does not have. What was added to the registry may raise any fault.
-/

set_option autoImplicit false

namespace LineBasic

def Fault.Ordinary (f : Fault) : Prop := f.line = none ∧ f.kind ≠ .internal

instance (f : Fault) : Decidable f.Ordinary := inferInstanceAs (Decidable (_ ∧ _))

def Ordinary {α : Type} (x : Except Fault α) : Prop := ∀ f, x = .error f → f.Ordinary

@[simp] theorem ordinary_ok {α : Type} (a : α) : Ordinary (.ok a : Except Fault α) :=
  fun _ h => by cases h

theorem ordinary_error {α : Type} {f : Fault} (h : f.Ordinary) :
    Ordinary (.error f : Except Fault α) := by
  rintro _ ⟨⟩
  exact h

@[simp] theorem ordinary_plain {α : Type} {k : FaultKind} :
    Ordinary (.error (.plain k) : Except Fault α) ↔ k ≠ .internal :=
  ⟨fun h => (h _ rfl).2, fun h => ordinary_error ⟨rfl, h⟩⟩

@[simp] theorem ordinary_because {α : Type} {k : FaultKind} {detail : String} :
    Ordinary (.error (.because k detail) : Except Fault α) ↔ k ≠ .internal :=
  ⟨fun h => (h _ rfl).2, fun h => ordinary_error ⟨rfl, h⟩⟩

@[simp] theorem ordinary_pure {α : Type} (a : α) : Ordinary (pure a : Except Fault α) :=
  ordinary_ok a

theorem Ordinary.bind {α β : Type} {x : Except Fault α} {g : α → Except Fault β}
    (hx : Ordinary x) (hg : ∀ a, Ordinary (g a)) : Ordinary (x >>= g) := by
  cases x with
  | ok a => exact hg a
  | error f => exact ordinary_error (hx f rfl)

theorem Ordinary.map {α β : Type} {x : Except Fault α} (hx : Ordinary x) (g : α → β) :
    Ordinary (x.map g) := by
  cases x with
  | ok a => exact ordinary_ok (g a)
  | error f => exact ordinary_error (hx f rfl)

theorem Ordinary.ite {α : Type} {c : Prop} [Decidable c] {x y : Except Fault α}
    (hx : Ordinary x) (hy : Ordinary y) : Ordinary (if c then x else y) := by
  split
  · exact hx
  · exact hy

theorem ordinary_mapM {α β : Type} {g : α → Except Fault β} (hg : ∀ a, Ordinary (g a))
    (xs : List α) : Ordinary (xs.mapM g) := by
  induction xs with
  | nil => exact ordinary_ok []
  | cons x xs ih =>
    rw [List.mapM_cons]
    exact (hg x).bind fun _ => ih.bind fun _ => ordinary_ok _

namespace Value

@[simp] theorem ordinary_toInt (v : Value) : Ordinary v.toInt := by
  cases v with
  | integer | real => exact ordinary_ok _
  | text s =>
    rw [toInt]
    split <;> simp

@[simp] theorem ordinary_toReal (v : Value) : Ordinary v.toReal := by
  cases v with
  | integer | real => exact ordinary_ok _
  | text s =>
    rw [toReal]
    split
    · simp
    · split <;> simp

@[simp] theorem ordinary_coerceFor (name : String) (v : Value) :
    Ordinary (coerceFor name v) := by
  rw [coerceFor]
  cases Kind.ofName name with
  | text => cases v <;> simp [coerce]
  | integer => exact (ordinary_toInt v).map _
  | real => exact (ordinary_toReal v).map _

theorem ordinary_applyReals (op : Operator) (l r : Float) : Ordinary (applyReals op l r) := by
  cases op <;> simp [applyReals]

theorem ordinary_inRangeOr (n : Int) {x : Except Fault Value} (h : Ordinary x) :
    Ordinary (inRangeOr n x) := by
  rw [inRangeOr]
  split
  · simp
  · exact h

theorem ordinary_applyIntegers (op : Operator) (l r : Int64) :
    Ordinary (applyIntegers op l r) := by
  cases op with
  | plus | minus | times => exact ordinary_inRangeOr _ (ordinary_applyReals _ _ _)
  | divide => exact ordinary_applyReals .divide _ _
  | _ => simp [applyIntegers]

theorem ordinary_applyTexts (op : Operator) (l r : String) : Ordinary (applyTexts op l r) := by
  cases op <;> simp [applyTexts]

@[simp] theorem ordinary_apply (op : Operator) (v w : Value) : Ordinary (apply op v w) := by
  cases v with
  | text s => exact ordinary_applyTexts op s _
  | integer n =>
    cases w with
    | integer k => exact ordinary_applyIntegers op n k
    | real y => exact ordinary_applyReals op _ y
    | text s => exact ordinary_applyTexts op _ s
  | real x =>
    cases w with
    | integer k => exact ordinary_applyReals op x _
    | real y => exact ordinary_applyReals op x y
    | text s => exact ordinary_applyTexts op _ s

theorem ordinary_applyPrefix (op : Operator) (v : Value) : Ordinary (applyPrefix op v) := by
  cases op with
  | minus => exact ordinary_apply _ _ _
  | plus => exact ordinary_ok v
  | _ => exact (ordinary_toInt v).map _

end Value

@[simp] theorem Item.ordinary_single (items : List Item) : Ordinary (single items) := by
  rw [single.eq_def]
  split <;> simp

namespace Pending

@[simp] theorem ordinary_apply (p : Pending) (vals : List Value) : Ordinary (p.apply vals) := by
  rw [apply.eq_def]
  split
  · exact (Value.ordinary_apply _ _ _).map _
  · exact (Value.ordinary_applyPrefix _ _).map _
  · exact ordinary_error (by decide)
  · exact ordinary_error (by decide)

theorem ordinary_mark (p : Pending) : Ordinary p.mark := by
  cases p with
  | paren => exact ordinary_error (by decide)
  | _ => exact ordinary_ok _

end Pending

namespace Frame

@[simp] theorem ordinary_pushValue (f : Frame) (v : Value) : Ordinary (f.pushValue v) := by
  rw [pushValue]
  split
  · exact ordinary_ok _
  · exact ordinary_error (by decide)

@[simp] theorem ordinary_pushPending (f : Frame) (p : Pending) :
    Ordinary (f.pushPending p) := by
  rw [pushPending]
  split
  · exact ordinary_ok _
  · exact ordinary_error (by decide)

theorem ordinary_reduceWhile (p : Pending → Bool) (vals : List Value) (ops : List Pending) :
    Ordinary (reduceWhile p vals ops) := by
  induction ops generalizing vals with
  | nil => exact ordinary_ok _
  | cons op ops ih =>
    rw [reduceWhile]
    split
    · split
      · exact ih _
      · rename_i f h
        exact ordinary_error (op.ordinary_apply vals f h)
    · exact ordinary_ok _

@[simp] theorem ordinary_pushOperator (f : Frame) (op : Operator) :
    Ordinary (f.pushOperator op) :=
  (ordinary_reduceWhile _ _ _).bind fun f => f.ordinary_pushPending _

@[simp] theorem ordinary_closeParen (f : Frame) : Ordinary f.closeParen := by
  refine (ordinary_reduceWhile _ _ _).bind fun f => ?_
  split <;> simp

@[simp] theorem ordinary_flush (f : Frame) : Ordinary f.flush := by
  rw [flush]
  split
  · exact ordinary_mapM Pending.ordinary_mark _
  · refine (ordinary_reduceWhile _ _ _).bind fun f => ?_
    split
    · exact ordinary_ok _
    · exact ordinary_error (by decide)

end Frame

@[simp] theorem ordinary_numberValue (text : String) : Ordinary (numberValue text) := by
  rw [numberValue]
  split
  · exact ordinary_ok _
  · split
    · exact ordinary_ok _
    · exact ordinary_error (by decide)

@[simp] theorem ordinary_integerValue (text : String) : Ordinary (integerValue text) := by
  rw [integerValue]
  split
  · exact ordinary_ok _
  · exact ordinary_numberValue text

@[simp] theorem Scan.ordinary_withValue (s : Scan) (v : Value) : Ordinary (s.withValue v) :=
  (s.frame.ordinary_pushValue v).bind fun _ => ordinary_ok _

namespace Reference

theorem ordinary_withArguments (name : String) (ts : List Token) :
    Ordinary (withArguments name ts) := by
  rw [withArguments.eq_def]
  split
  · split
    · exact ordinary_ok _
    · exact ordinary_error (by decide)
  · exact ordinary_ok _

theorem ordinary_split {missing : Fault} (h : missing.Ordinary) (ts : List Token) :
    Ordinary (split missing ts) := by
  rw [split.eq_def]
  split
  · exact ordinary_withArguments _ _
  · exact ordinary_withArguments _ _
  · exact ordinary_error h

end Reference

@[simp] theorem ordinary_subscripts (vs : List Value) : Ordinary (subscripts vs) := by
  induction vs with
  | nil => exact ordinary_ok _
  | cons v vs ih =>
    refine v.ordinary_toInt.bind fun n => ?_
    split
    · simp
    · exact ih.bind fun _ => ordinary_ok _

@[simp] theorem ordinary_substitute (args : List (String × Value)) (qualified : Bool)
    (ts : List Token) : Ordinary (substitute args qualified ts) := by
  induction ts generalizing qualified with
  | nil => exact ordinary_ok _
  | cons t ts ih =>
    rw [substitute.eq_def]
    cases t with
    | ident name =>
      dsimp only
      split
      · refine (Value.ordinary_coerceFor _ _).bind fun _ => ?_
        exact (ih false).bind fun _ => ordinary_ok _
      · exact (ih false).bind fun _ => ordinary_ok _
    | qualifier name => exact (ih true).bind fun _ => ordinary_ok _
    | _ => exact (ih false).bind fun _ => ordinary_ok _

theorem DimArray.ordinary_create (bounds : List Nat) (zero : Value) :
    Ordinary (create bounds zero) := by
  rw [create]
  split
  · simp
  · split <;> simp

theorem DimArray.ordinary_offset (a : DimArray) (index : List Nat) :
    Ordinary (a.offset index) := by
  rw [offset]
  split
  · simp
  · split <;> simp

namespace Variables

theorem ordinary_array (vars : Variables) (name : String) : Ordinary (vars.array name) := by
  rw [array]
  split <;> simp

@[simp] theorem ordinary_arrayOffset (vars : Variables) (name : String) (index : List Nat) :
    Ordinary (vars.arrayOffset name index) :=
  (vars.ordinary_array name).bind fun a => a.ordinary_offset index

/-- An index list that fits an array leads to one of its elements. -/
theorem ordinary_fetchElement {vars : Variables} {name : String} {index : List Nat} {offset : Nat}
    (h : vars.arrayOffset name index = .ok offset) : Ordinary (vars.fetchElement name offset) := by
  obtain ⟨a, ha, hlt⟩ := hasElement_of_arrayOffset h
  rw [fetchElement, array, ha, ok_bind, DimArray.get, Array.getElem?_eq_getElem hlt]
  exact ordinary_ok _

@[simp] theorem ordinary_dimension (vars : Variables) (name : String) (bounds : List Nat) :
    Ordinary (vars.dimension name bounds) :=
  (DimArray.ordinary_create bounds _).map _

theorem ordinary_storeElement {vars : Variables} {name : String} {offset : Nat}
    (h : vars.HasElement name offset) (v : Value) :
    Ordinary (vars.storeElement name offset v) := by
  obtain ⟨a, ha, hlt⟩ := h
  refine (Value.ordinary_coerceFor name v).bind fun v => ?_
  rw [array, ha, ok_bind, DimArray.set, if_pos hlt]
  exact ordinary_ok _

end Variables

theorem Place.ordinary_storeIn {vars : Variables} {p : Place} (h : p.IsIn vars) (v : Value) :
    Ordinary (p.storeIn vars v) := by
  cases p with
  | scalar home name => exact (Value.ordinary_coerceFor name v).map _
  | element home name offset => exact Variables.ordinary_storeElement h v

namespace Arguments

theorem ordinary_one (args : List Value) : Ordinary (one args) := by
  rw [one.eq_def]
  split
  · exact ordinary_ok _
  · exact ordinary_error (by decide)

theorem ordinary_two (args : List Value) : Ordinary (two args) := by
  rw [two.eq_def]
  split
  · exact ordinary_ok _
  · exact ordinary_error (by decide)

theorem ordinary_twoOrThree (args : List Value) : Ordinary (twoOrThree args) := by
  rw [twoOrThree.eq_def]
  split
  · exact ordinary_ok _
  · exact ordinary_ok _
  · exact ordinary_error (by decide)

theorem ordinary_number (v : Value) : Ordinary (number v) := by
  cases v <;> simp [number]

theorem ordinary_integer (v : Value) : Ordinary (integer v) := by
  cases v <;> simp [integer]

theorem ordinary_text (v : Value) : Ordinary (text v) := by
  cases v <;> simp [text]

theorem ordinary_count (v : Value) : Ordinary (count v) := by
  refine (ordinary_integer v).bind fun n => ?_
  split <;> simp

theorem ordinary_position (v : Value) : Ordinary (position v) := by
  refine (ordinary_integer v).bind fun n => ?_
  split <;> simp

end Arguments

open Arguments

theorem ordinary_realFunction (f : Float → Float) (args : List Value) :
    Ordinary (realFunction f args) :=
  (ordinary_one args).bind fun v => (ordinary_number v).bind fun _ => ordinary_ok _

theorem ordinary_extreme (beats : Float → Float → Bool) (args : List Value) :
    Ordinary (extreme beats args) := by
  have from_best (best : Value) (x : Float) (vs : List Value) :
      Ordinary (extremeFrom beats best x vs) := by
    induction vs generalizing best x with
    | nil => exact ordinary_ok _
    | cons v vs ih =>
      refine (ordinary_number v).bind fun n => ?_
      split
      · exact ih v n
      · exact ih best x
  cases args with
  | nil => exact ordinary_error (by decide)
  | cons v vs => exact (ordinary_number v).bind fun n => from_best v n vs

theorem ordinary_spacesValue (n : Nat) : Ordinary (spacesValue n) := by
  rw [spacesValue]
  split <;> simp

theorem ordinary_drawn (m : Machine) (args : List Value) : Ordinary (drawn m args) :=
  (ordinary_one args).bind fun v => (ordinary_number v).bind fun _ => ordinary_ok _

@[simp] theorem BuiltinFunction.ordinary_value (f : BuiltinFunction) (m : Machine)
    (args : List Value) : Ordinary (f.value m args) := by
  have on_text {α : Type} {g : List Char → Except Fault α} (hg : ∀ cs, Ordinary (g cs)) :
      Ordinary (do g (← text (← one args))) :=
    (ordinary_one args).bind fun v => (ordinary_text v).bind hg
  have on_integer {α : Type} {g : Int64 → Except Fault α} (hg : ∀ n, Ordinary (g n)) :
      Ordinary (do g (← integer (← one args))) :=
    (ordinary_one args).bind fun v => (ordinary_integer v).bind hg
  have on_number {α : Type} {g : Float → Except Fault α} (hg : ∀ x, Ordinary (g x)) :
      Ordinary (do g (← number (← one args))) :=
    (ordinary_one args).bind fun v => (ordinary_number v).bind hg
  cases f with
  | ABS | ATN | COS | EXP | LOG | SIN | SQR | TAN => exact ordinary_realFunction _ args
  | MAX | MIN => exact ordinary_extreme _ args
  | ASC | LCASE | UCASE | LEN | VAL => exact on_text fun _ => ordinary_ok _
  | HEX => exact on_integer fun _ => ordinary_ok _
  | INT | SGN => exact on_number fun _ => ordinary_ok _
  | STR => exact (ordinary_one args).bind fun _ => ordinary_ok _
  | RND => exact (ordinary_drawn m args).map _
  | CHR =>
    refine on_integer fun n => ?_
    split <;> simp
  | DEC =>
    refine on_text fun cs => ?_
    split <;> simp
  | PEEK =>
    refine on_integer fun n => ?_
    split <;> simp
  | POS =>
    simp only [value, cursorColumn]
    split
    · exact ordinary_ok _
    · exact ordinary_error (by decide)
  | TAB =>
    refine (ordinary_one args).bind fun v => (ordinary_count v).bind fun n => ?_
    split
    · simp
    · exact ordinary_spacesValue _
  | SPC =>
    exact (ordinary_one args).bind fun v => (ordinary_count v).bind ordinary_spacesValue
  | LEFT | RIGHT =>
    refine (ordinary_two args).bind fun pair => (ordinary_text pair.1).bind fun cs => ?_
    exact (ordinary_count pair.2).bind fun _ => ordinary_ok _
  | MOD =>
    refine (ordinary_two args).bind fun pair => (ordinary_integer pair.1).bind fun a => ?_
    refine (ordinary_integer pair.2).bind fun b => ?_
    split <;> simp
  | XOR =>
    refine (ordinary_two args).bind fun pair => (ordinary_integer pair.1).bind fun a => ?_
    exact (ordinary_integer pair.2).bind fun _ => ordinary_ok _
  | INSTR =>
    refine (ordinary_twoOrThree args).bind fun triple => ?_
    obtain ⟨s, n, start⟩ := triple
    refine (ordinary_text s).bind fun cs => (ordinary_text n).bind fun needle => ?_
    cases start with
    | some v => exact (ordinary_position v).bind fun _ => ordinary_ok _
    | none => exact ordinary_ok _
  | MID =>
    refine (ordinary_twoOrThree args).bind fun triple => ?_
    obtain ⟨s, start, n⟩ := triple
    refine (ordinary_text s).bind fun cs => (ordinary_position start).bind fun k => ?_
    cases n with
    | some v => exact ((ordinary_count v).map some).bind fun _ => ordinary_ok _
    | none => exact ordinary_ok _

namespace Lexer

theorem ordinary_lexeme (l : Lexicon) (packed dotAsZero : Bool) (c : Char) (cs : List Char) :
    Ordinary (lexeme l packed dotAsZero c cs) := by
  have quoted_text : Ordinary (quoted c cs) := by
    rw [quoted]
    split <;> simp
  have file : Ordinary (handle cs) := by
    rw [handle]
    split <;> simp
  have mark : Ordinary (punctuation l packed c cs) := by
    refine .ite (ordinary_ok _) (.ite (ordinary_ok _) (.ite (ordinary_ok _) ?_))
    exact .ite file (.ite (ordinary_ok _) (ordinary_because.2 (by decide)))
  rw [lexeme.eq_def]
  split
  · simp
  · split
    · exact quoted_text
    · split
      · simp
      · split
        · simp
        · exact mark

theorem ordinary_prepend (tokens : List Token) {x : Except Fault (List Token × List Char)}
    (hx : Ordinary x) : Ordinary (prepend tokens x) := by
  cases x with
  | ok more => exact ordinary_ok _
  | error f => exact ordinary_error (hx f rfl)

theorem ordinary_statement (l : Lexicon) (packed dotAsZero : Bool) (text : List Char) :
    Ordinary (statement l packed dotAsZero text) := by
  fun_induction statement l packed dotAsZero text with
  | case1 | case2 | case3 => exact ordinary_ok _
  | case4 packed text c cs _ _ _ w size _ _ ih => exact ordinary_prepend _ ih
  | case5 packed text c cs _ _ _ _ f h =>
    exact ordinary_error (ordinary_lexeme l packed dotAsZero c cs f h)
  | case6 packed text c cs _ _ _ _ found _ ih => exact ordinary_prepend _ ih

end Lexer

/-- A statement that cannot be lexed at a place of its line is no failure of the machine. -/
theorem fault_of_lexStatement {l : Lexicon} {o : LexOptions} {line : String} {offset : Nat}
    {f : Fault} (h : lexStatement l o line offset = .error f) :
    f.line = none ∧ (f.kind = .internal ↔ Text.dropBytes offset line.toList = none) := by
  rw [lexStatement] at h
  cases hdrop : Text.dropBytes offset line.toList with
  | none =>
    rw [hdrop] at h
    cases h
    exact ⟨rfl, iff_of_true rfl rfl⟩
  | some text =>
    have hstatement := Lexer.ordinary_statement l o.packed o.dotAsZero text
    rw [hdrop] at h
    dsimp only at h
    split at h
    · rename_i f' hf'
      cases h
      obtain ⟨hline, hkind⟩ := hstatement f hf'
      exact ⟨hline, iff_of_false hkind (by simp)⟩
    · cases h

theorem ordinary_lexAll (l : Lexicon) (o : LexOptions) (text : List Char) :
    Ordinary (lexAll l o text) := by
  fun_induction lexAll l o text with
  | case1 text f h => exact ordinary_error (Lexer.ordinary_statement _ _ _ _ f h)
  | case2 => exact ordinary_ok _
  | case3 text t ts rest h hlt ih => exact ih.map _

namespace Statement

theorem ordinary_dataValue (tokens : List Token) : Ordinary (dataValue tokens) := by
  rw [dataValue.eq_def]
  split
  · exact ordinary_ok _
  · exact ordinary_ok _
  · exact ordinary_integerValue _
  · exact ordinary_numberValue _
  · exact (ordinary_integerValue _).bind fun v => Value.ordinary_apply _ _ v
  · exact (ordinary_numberValue _).bind fun v => Value.ordinary_apply _ _ v
  · exact ordinary_integerValue _
  · exact ordinary_numberValue _
  · exact ordinary_ok _

theorem ordinary_statementData (tokens : List Token) : Ordinary (statementData tokens) := by
  rw [statementData.eq_def]
  split
  · exact ordinary_mapM ordinary_dataValue _
  · exact ordinary_ok _

@[simp] theorem ordinary_lineData (l : Lexicon) (o : LexOptions) (text : List Char) :
    Ordinary (lineData l o text) := by
  fun_induction lineData l o text with
  | case1 text f h => exact ordinary_error (Lexer.ordinary_statement _ _ _ _ f h)
  | case2 => exact ordinary_ok _
  | case3 text t ts rest h hlt f hdata => exact ordinary_error (ordinary_statementData _ f hdata)
  | case4 text t ts rest h hlt items hdata ih => exact ih.map _

@[simp] theorem ordinary_takeParameters (tokens : List Token) :
    Ordinary (takeParameters tokens) := by
  rw [takeParameters.eq_def]
  split
  · split
    · exact ordinary_error (by decide)
    · split <;> simp
  · exact ordinary_ok _

@[simp] theorem ordinary_lineRange (tokens : List Token) : Ordinary (lineRange tokens) := by
  have number (text : String) : Ordinary (lineNumber text) := by
    rw [lineNumber]
    split <;> simp
  rw [lineRange.eq_def]
  split
  · exact ordinary_ok _
  · exact (number _).bind fun _ => ordinary_ok _
  · exact (number _).bind fun _ => ordinary_ok _
  · exact (number _).bind fun _ => ordinary_ok _
  · exact (number _).bind fun _ => (number _).bind fun _ => ordinary_ok _
  · simp

@[simp] theorem ordinary_handleOf (digits : String) : Ordinary (handleOf digits) := by
  rw [handleOf]
  split <;> simp

end Statement

namespace Using

@[simp] theorem ordinary_render (format : String) (vs : List Value) :
    Ordinary (render format vs) := by
  have field (f : Field) (v : Value) : Ordinary (renderField f v) := by
    cases f with
    | number => exact v.ordinary_toReal.map _
    | _ => exact ordinary_ok _
  have pass (fields : List Field) (vs : List Value) : Ordinary (renderPass fields vs) := by
    fun_induction renderPass fields vs with
    | case1 | case3 => exact ordinary_ok _
    | case2 cs fields vs ih => exact ih.map _
    | case4 f fields v vs _ e h => exact ordinary_error (field f v e h)
    | case5 f fields v vs _ cs _ ih => exact ih.map _
  have passes (fields : List Field) (n : Nat) (vs : List Value) :
      Ordinary (renderPasses fields n vs) := by
    fun_induction renderPasses fields n vs with
    | case1 => exact ordinary_ok _
    | case2 n vs e h => exact ordinary_error (pass fields vs e h)
    | case3 n vs text v rest _ ih => exact ih.map _
    | case4 => exact ordinary_ok _
  rw [render]
  split
  · simp
  · exact (passes _ _ _).map _

end Using

namespace Listing

@[simp] theorem ordinary_ofText (s : String) : Ordinary (ofText s) := by
  have lines (l : Listing) (raw : List String) : Ordinary (loadLines l raw) := by
    induction raw generalizing l with
    | nil => exact ordinary_ok _
    | cons line more ih =>
      rw [loadLines.eq_def]
      dsimp only
      split
      · exact ih l
      · split
        · exact ih _
        · simp
  exact lines _ _

@[simp] theorem ordinary_renumber (l : Listing) (r : RenumberRequest) :
    Ordinary (l.renumber r) := by
  have numbers (kept : Option LineNumber) (next : LineNumber) (ns : List LineNumber) :
      Ordinary (r.changesFrom kept next ns) := by
    induction ns generalizing kept next with
    | nil => exact ordinary_ok _
    | cons n ns ih =>
      rw [RenumberRequest.changesFrom]
      dsimp only
      split
      · exact ih _ _
      · split
        · simp
        · split
          · simp
          · exact (ih _ _).map _
  refine Ordinary.map ?_ _
  rw [RenumberRequest.changes]
  split
  · simp
  · exact numbers _ _ _

end Listing

namespace BuiltinCommand

@[simp] theorem ordinary_arguments (least most : Nat) (items : List Item) :
    Ordinary (arguments least most items) := by
  rw [arguments]
  split <;> simp

@[simp] theorem ordinary_noArguments (items : List Item) : Ordinary (noArguments items) :=
  (ordinary_arguments 0 0 items).map _

@[simp] theorem ordinary_oneArgument (items : List Item) : Ordinary (oneArgument items) :=
  ordinary_one _

@[simp] theorem ordinary_integerAt (vs : List Value) (i : Nat) (default : Int) :
    Ordinary (integerAt vs i default) := by
  rw [integerAt]
  split
  · exact (Value.ordinary_toInt _).map _
  · exact ordinary_ok _

@[simp] theorem ordinary_fileName (v : Value) : Ordinary (fileName v) := by
  cases v with
  | text s =>
    rw [fileName]
    split <;> simp
  | _ => simp [fileName]

@[simp] theorem ordinary_handle (v : Value) : Ordinary (handle v) := by
  refine v.ordinary_toInt.bind fun n => ?_
  dsimp only
  split <;> simp

end BuiltinCommand

namespace Host

theorem ordinary_readLine (h : Host) : Ordinary h.readLine.1 := by
  rw [readLine]
  split
  · exact ordinary_error (by decide)
  · exact ordinary_ok _

theorem ordinary_readKey (h : Host) : Ordinary h.readKey.1 := by
  rw [readKey]
  split
  · exact ordinary_error (by decide)
  · exact ordinary_ok _

@[simp] theorem ordinary_readFile (h : Host) (name : String) : Ordinary (h.readFile name) := by
  rw [readFile]
  split <;> simp

end Host

def Unlocated {α : Type} (x : Except Fault α) : Prop := ∀ f, x = .error f → f.line = none

namespace Registry

/-- What was added to a registry names no lines in its faults. The built-in commands and functions
never do. -/
structure Unlocated (r : Registry) : Prop where
  commands : ∀ {name : String} {run : List Item → Except Fault String},
    r.commands.get? name = some (.added run) → ∀ items, LineBasic.Unlocated (run items)
  functions : ∀ {name : String} {run : List Value → Except Fault Value},
    r.functions.get? name = some (.added run) → ∀ args, LineBasic.Unlocated (run args)

structure Ordinary (r : Registry) : Prop where
  commands : ∀ {name : String} {run : List Item → Except Fault String},
    r.commands.get? name = some (.added run) → ∀ items, LineBasic.Ordinary (run items)
  functions : ∀ {name : String} {run : List Value → Except Fault Value},
    r.functions.get? name = some (.added run) → ∀ args, LineBasic.Ordinary (run args)

theorem ordinary_default : Ordinary {} where
  commands h := by
    obtain ⟨e, -, he⟩ := List.mem_map.1 (Table.mem_of_get?_ofList h)
    cases he
  functions h := by
    obtain ⟨e, -, he⟩ := List.mem_map.1 (Table.mem_of_get?_ofList h)
    cases he

inductive Raises (r : Registry) (f : Fault) : Prop
  | ordinary (h : f.Ordinary)
  | command (name : String) (run : List Item → Except Fault String) (items : List Item)
      (hadded : r.commands.get? name = some (.added run)) (h : run items = .error f)
  | function (name : String) (run : List Value → Except Fault Value) (args : List Value)
      (hadded : r.functions.get? name = some (.added run)) (h : run args = .error f)

namespace Raises

variable {r : Registry} {f : Fault}

theorem unlocated (h : r.Raises f) (hr : r.Unlocated) : f.line = none := by
  cases h with
  | ordinary h => exact h.1
  | command name run items hadded h => exact hr.commands hadded items f h
  | function name run args hadded h => exact hr.functions hadded args f h

theorem isOrdinary (h : r.Raises f) (hr : r.Ordinary) : f.Ordinary := by
  cases h with
  | ordinary h => exact h
  | command name run items hadded h => exact hr.commands hadded items f h
  | function name run args hadded h => exact hr.functions hadded args f h

end Raises

end Registry

end LineBasic
