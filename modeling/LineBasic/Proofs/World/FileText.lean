import LineBasic.Proofs.Blind
import LineBasic.Proofs.Expression.HandedOn
import LineBasic.Proofs.World.Permit

/-!
# What is printed to a file

A list that is printed to a file adds a text to it, which does not depend on what is in the file. If
the list can be evaluated that is the text of its items, or of the form that they are put in. If
not, it is what had been printed when the fault occurred.
-/

set_option autoImplicit false

namespace LineBasic.Statement

open Run

def fileText (n : Nat) (tokens : List Token) (m : Machine) : String :=
  match ((printList tokens).final
      { m with printFile := some n, files := m.files.insert n (.writing "" "") }).files.get? n with
  | some (.writing _ text) => text
  | _ => ""

section

variable {n : Nat} {name text : String}

/-- Two machines that print to a file under one handle and have printed the same. For one of them
the file was empty. -/
inductive SamePrint (n : Nat) (name text : String) (m : Machine) : Machine → Prop
  | intro (files : Table Nat OpenFile) (more : String) (hprint : m.printFile = some n)
      (hfile : m.files.get? n = some (.writing name (text ++ more)))
      (hempty : files.get? n = some (.writing "" more)) : SamePrint n name text m { m with files }

theorem unseen_samePrint : Unseen (SamePrint n name text) where
  scopes h := by cases h; rfl
  registry h := by cases h; rfl
  memory h := by cases h; rfl
  column h := by cases h; rfl
  dice h := by cases h; rfl
  random h := by cases h; rfl
  named h _ := by cases h; rfl
  vars h _ := by cases h; rfl
  functions h _ := by cases h; rfl
  setVars h _ _ := by
    cases h with
    | intro files more hprint hfile hempty => exact .intro files more hprint hfile hempty
  setDice h _ := by
    cases h with
    | intro files more hprint hfile hempty => exact .intro files more hprint hfile hempty

theorem blind_print (s : String) : Blind (SamePrint n name text) (Run.print s) := by
  intro m _ h
  cases h with
  | intro files more hprint hfile hempty =>
    have hprinted' : ({ m with files } : Machine).print s =
        { m with files := files.insert n (.writing "" (more ++ s)) } :=
      Machine.print_of_file (m := { m with files }) hprint hempty s
    refine .of_modify ?_
    rw [Machine.print_of_file hprint hfile, hprinted']
    exact .intro (files.insert n (.writing "" (more ++ s))) (more ++ s) hprint
      (by simp [String.append_assoc]) (by simp)

theorem blind_printItem (item : Item) : Blind (SamePrint n name text) (printItem item) := by
  intro m _ h
  cases h with
  | intro files more hprint hfile hempty =>
    exact .of_get (blind_print _ _ _ (.intro files more hprint hfile hempty))

theorem blind_printList (tokens : List Token) :
    Blind (SamePrint n name text) (printList tokens) := by
  have lineEnd (items : List Item) : Blind (SamePrint n name text)
      (if endsLine items then Run.print "\n" else pure ()) :=
    .ite (blind_print _) (blind_pure _)
  rw [printList.eq_def]
  split
  · refine (unseen_samePrint.blind_evaluateAll _).bind fun items => ?_
    split
    · exact blind_throw _
    · exact (blind_liftM _).bind fun s => (blind_print s).bind fun _ => lineEnd _
    · exact blind_fail _ _
  · refine (unseen_samePrint.twins_evaluateEmitting blind_printItem _).bind fun _ => ?_
    exact .ite (blind_throw _) (lineEnd _)

/-- A list adds its text to a file, whatever the file holds. -/
theorem file_of_printList {m : Machine} (hfile : m.files.get? n = some (.writing name text))
    (tokens : List Token) :
    ((printList tokens).final { m with printFile := some n }).files.get? n =
      some (.writing name (text ++ fileText n tokens m)) := by
  have hsame : SamePrint n name text { m with printFile := some n }
      { m with printFile := some n, files := m.files.insert n (.writing "" "") } :=
    .intro (m.files.insert n (.writing "" "")) "" rfl (by simp [hfile]) (by simp)
  have halike := blind_printList tokens _ _ hsame
  rw [fileText, final, final]
  rw [AlikeAt] at halike
  generalize printList tokens { m with printFile := some n } = r at halike
  generalize printList tokens _ = r' at halike
  cases halike with
  | ok _ h | error _ h =>
    cases h with
    | intro files more _ hfile' hempty => simp only [hfile', hempty]

end

section

variable {n : Nat}

def itemsText (items : List Item) : String := String.join (items.map (printedItem true 0))

theorem printedItem_file (column : Nat) (item : Item) :
    printedItem true column item = printedItem true 0 item := by
  cases item with
  | value => rfl
  | separator mark =>
    rw [printedItem, printedItem]
    rfl

def Prints (n : Nat) (items : List Item) (m m' : Machine) : Prop :=
  ∀ name text, m.printFile = some n → m.files.get? n = some (.writing name text) →
    m'.printFile = some n ∧ m'.files.get? n = some (.writing name (text ++ itemsText items))

theorem takes_prints : Takes printItem (Prints n) where
  evaluated h := by
    intro name text hprint hfile
    rw [h.sameWorld.files, h.sameWorld.printFile, hfile]
    exact ⟨hprint, by simp [itemsText]⟩
  append h h' := by
    intro name text hprint hfile
    obtain ⟨hprint₁, hfile₁⟩ := h name text hprint hfile
    obtain ⟨hprint₂, hfile₂⟩ := h' name _ hprint₁ hfile₁
    rw [hfile₂, String.append_assoc]
    exact ⟨hprint₂, by simp [itemsText]⟩
  item {x m m'} h := by
    intro name text hprint hfile
    cases h
    change (m.print (printedItem m.printFile.isSome m.column x)).printFile = some n ∧
      (m.print (printedItem m.printFile.isSome m.column x)).files.get? n = _
    rw [Machine.print_of_file hprint hfile, hprint, Option.isSome_some, printedItem_file]
    exact ⟨rfl, by simp [itemsText]⟩

inductive PrintsAside (n : Nat) (m : Machine) : Machine → Prop
  | intro (files : Table Nat OpenFile) (printFile : Option Nat) (name text : String)
      (hprint : m.printFile = some n) (hfile : m.files.get? n = some (.writing name text)) :
      PrintsAside n m { m with files, printFile }

theorem unseen_printsAside : Unseen (PrintsAside n) where
  scopes h := by cases h; rfl
  registry h := by cases h; rfl
  memory h := by cases h; rfl
  column h := by cases h; rfl
  dice h := by cases h; rfl
  random h := by cases h; rfl
  named h _ := by cases h; rfl
  vars h _ := by cases h; rfl
  functions h _ := by cases h; rfl
  setVars h _ _ := by
    cases h with
    | intro files printFile name text hprint hfile =>
      exact .intro files printFile name text hprint hfile
  setDice h _ := by
    cases h with
    | intro files printFile name text hprint hfile =>
      exact .intro files printFile name text hprint hfile

/-- Evaluation does not notice what is printed to a file. -/
theorem twins_printItem (item : Item) : Twins (PrintsAside n) (printItem item) (ignore item) := by
  intro m _ h
  cases h with
  | intro files printFile name text hprint hfile =>
    change Alike _ (.ok () (m.print (printedItem m.printFile.isSome m.column item)))
      (.ok () { m with files, printFile })
    generalize printedItem m.printFile.isSome m.column item = s
    rw [Machine.print_of_file hprint hfile]
    exact .ok () (.intro files printFile name (text ++ s) hprint (by simp))

/-- A run that succeeds on a machine does so, with the same answer, where a file is printed to. -/
theorem ok_of_twins {α : Type} {x y : Run α} (h : Twins (PrintsAside n) x y) {m m' : Machine}
    {a : α} (hy : y m = .ok a m') :
    ∃ u, x { m with printFile := some n, files := m.files.insert n (.writing "" "") } =
      .ok a u := by
  have haside : PrintsAside n
      { m with printFile := some n, files := m.files.insert n (.writing "" "") } m :=
    .intro m.files m.printFile "" "" rfl (by simp)
  have halike := h _ _ haside
  rw [AlikeAt, hy] at halike
  generalize x _ = r at halike
  cases halike with
  | ok a h => exact ⟨_, rfl⟩

/-- What is in a file when a line was printed to it. -/
theorem file_of_line {m : Machine} {name text : String} (hprint : m.printFile = some n)
    (hfile : m.files.get? n = some (.writing name text)) (items : List Item) :
    ((if endsLine items then Run.print "\n" else pure () : Run Unit).final m).files.get? n =
      some (.writing name (text ++ if endsLine items then "\n" else "")) := by
  split
  · change (m.print "\n").files.get? n = _
    rw [Machine.print_of_file hprint hfile]
    simp
  · rw [String.append_empty]
    exact hfile

/-- A list that can be evaluated puts the text of its items into a file, and a line feed unless a
separator ends it. -/
theorem fileText_of_items {tokens : List Token} {m m' : Machine} {items : List Item}
    (htokens : ∀ more, tokens ≠ .word .USING :: more) (h : evaluateAll tokens m = .ok items m') :
    fileText n tokens m = itemsText items ++ if endsLine items then "\n" else "" := by
  obtain ⟨⟨items', taken⟩, m₁, hevaluate, h⟩ := Run.bind_eq_ok.1 h
  dsimp only at h
  split at h
  · cases h
  · rename_i htaken
    cases h
    obtain ⟨u, hu⟩ :=
      ok_of_twins (unseen_printsAside.twins_evaluateEmitting twins_printItem tokens) hevaluate
    obtain ⟨hprint, hfile⟩ := takes_prints.evaluateEmitting hu "" "" rfl (by simp)
    have hlist : printList tokens = printItems tokens := by
      rw [printList.eq_def]
      split
      · exact absurd rfl (htokens _)
      · rfl
    have hfinal := file_of_line hprint hfile items
    rw [fileText, final, hlist, printItems, bind_apply, hu]
    dsimp only
    rw [if_neg htaken]
    rw [final] at hfinal
    simp only [hfinal, String.empty_append]

/-- A list with a format puts its values into a file in that form. -/
theorem fileText_of_format {tokens : List Token} {m m' : Machine} {items : List Item}
    {format text : String}
    (h : evaluateAll tokens m = .ok (.value (.text format) :: items) m')
    (htext : Using.render format (Item.values items) = .ok text) :
    fileText n (.word .USING :: tokens) m =
      text ++ if endsLine (.value (.text format) :: items) then "\n" else "" := by
  obtain ⟨u, hu⟩ := ok_of_twins (n := n) (unseen_printsAside.blind_evaluateAll tokens) h
  have hworld := ((obeys_evaluateAll tokens).ok hu).sameWorld
  have hprint : u.printFile = some n := hworld.printFile
  have hfile : u.files.get? n = some (.writing "" "") := by
    rw [hworld.files]
    simp
  obtain ⟨hprinted, hfiled⟩ : (u.print text).printFile = some n ∧
      (u.print text).files.get? n = some (.writing "" text) := by
    rw [Machine.print_of_file hprint hfile]
    exact ⟨hprint, by simp⟩
  have hfinal := file_of_line hprinted hfiled (.value (.text format) :: items)
  have hlist : printList (.word .USING :: tokens) = printUsing tokens := rfl
  have hline : (Run.print text >>= fun _ =>
      if endsLine (.value (.text format) :: items) then Run.print "\n" else pure ()) u =
      (if endsLine (.value (.text format) :: items) then Run.print "\n" else pure () : Run Unit)
        (u.print text) := rfl
  rw [fileText, final, hlist, printUsing, bind_apply, hu]
  dsimp only
  rw [htext, liftM_ok, pure_bind_run, hline]
  rw [final] at hfinal
  simp only [hfinal]

end

end LineBasic.Statement
