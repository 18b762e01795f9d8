import LineBasic.Proofs.Session.Move

/-!
# The cursor

The machine keeps a column beside its screen. The screen itself has seen texts, typed lines and
clearings, and where they leave the cursor can be told character by character. The two agree, not
only between lines but after each thing that is done to the screen.
-/

set_option autoImplicit false

namespace LineBasic

def Text.advance (column : Nat) (c : Char) : Nat := if c = '\n' then 0 else column + 1

def Event.cursor (column : Nat) : Event → Nat
  | printed text => text.toList.foldl Text.advance column
  | lineRead _ | cleared => 0

def Host.cursor (h : Host) : Nat := h.transcript.foldr (fun e column => e.cursor column) 0

/-- Characters behind the last line feed, from the end of a text. -/
theorem Text.foldr_advance (start : Nat) (cs : List Char) :
    cs.foldr (fun c column => advance column c) start =
      if cs.contains '\n' then (cs.takeWhile (· != '\n')).length else start + cs.length := by
  induction cs with
  | nil => rfl
  | cons c cs ih =>
    rw [List.foldr_cons, ih, advance]
    by_cases hc : c = '\n'
    · simp [hc]
    · have hne : ('\n' == c) = false := by simpa using Ne.symm hc
      simp only [hc, if_false, List.contains_cons, hne, Bool.false_or, List.takeWhile_cons, bne,
        beq_eq_false_iff_ne.2 hc, Bool.not_false, if_true, List.length_cons]
      split
      · rfl
      · rw [Nat.add_assoc]

theorem Text.columnAfter_eq (start : Nat) (s : String) :
    columnAfter start s = s.toList.foldl advance start := by
  have hreverse := foldr_advance start s.toList.reverse
  rw [List.foldr_reverse] at hreverse
  rw [hreverse, columnAfter]
  simp [String.length_toList]

namespace Machine

def ColumnRight (m : Machine) : Prop := m.column = m.host.cursor

theorem ColumnRight.print {m : Machine} (h : m.ColumnRight) (text : String) :
    ({ m with column := Text.columnAfter m.column text, host := m.host.print text } :
      Machine).ColumnRight := by
  change Text.columnAfter m.column text = text.toList.foldl Text.advance m.host.cursor
  rw [Text.columnAfter_eq, h]

/-- Each deed moves the cursor and the column alike. -/
theorem ColumnRight.deed {p : Permit → Prop} {m m' : Machine} (h : m.ColumnRight)
    (hdeed : Deed p m m') : m'.ColumnRight := by
  cases hdeed with
  | inward hworld => rw [ColumnRight, hworld.column, hworld.host, h]
  | printed text => exact h.print text
  | lineRead => exact rfl
  | cleared => exact rfl
  | _ => exact h

def RightDeeds : Machine → Machine → Prop :=
  Relation.ReflTransGen fun m m' => Deed (fun _ => True) m m' ∧ m'.ColumnRight

theorem ColumnRight.deeds {p : Permit → Prop} {m m' : Machine} (h : m.ColumnRight)
    (hdeeds : Deeds p m m') : m.RightDeeds m' ∧ m'.ColumnRight := by
  induction hdeeds with
  | refl => exact ⟨.refl, h⟩
  | tail _ hdeed ih =>
    have hright := ih.2.deed hdeed
    exact ⟨ih.1.tail ⟨hdeed.mono fun _ _ => trivial, hright⟩, hright⟩

end Machine

namespace Session

theorem Reached.columnRight {s : State} (h : Reached s) : s.machine.ColumnRight := by
  refine h.rule (P := fun s => s.machine.ColumnRight) (fun host registry options htranscript => ?_)
    fun s s' hs hmove ih => ?_
  · change 0 = host.transcript.foldr (fun e column => e.cursor column) 0
    rw [htranscript]
    rfl
  · have hscreen := hs.printFile
    cases hmove with
    | supplied m host registry htranscript =>
      change m.column = host.transcript.foldr (fun e column => e.cursor column) 0
      rw [htranscript]
      exact ih
    | printed m text => exact (ih.deeds ((m.leads_print (p := fun _ => False) text).2 hscreen)).2
    | entered m line => exact (ih.deeds (deeds_entered hscreen line)).2
    | stepped m => exact (ih.deeds (deeds_after hscreen)).2

/-- The column of a session is that of its cursor: between two moves, after everything that a step
does to the screen, and so after every line that is entered and every text that is printed from
outside. What a statement prints to a file moves neither. -/
theorem column_follows_cursor {s : State} (h : Reached s) :
    s.machine.column = s.machine.host.cursor ∧
      (∀ m, s = .running m → m.RightDeeds (State.after (step m)).machine) ∧
      (∀ m fuel line, s = .waiting m →
        (enter fuel line m).2.column = (enter fuel line m).2.host.cursor) ∧
      (∀ m text, s = .waiting m → (m.print text).column = (m.print text).host.cursor) ∧
      ∀ digits rest, let m' := (Statement.print (.fileHandle digits :: rest)).final s.machine
        m'.column = s.machine.column ∧ m'.host = s.machine.host := by
  refine ⟨h.columnRight, ?_, ?_, ?_, fun digits rest => ?_⟩
  · rintro m rfl
    exact (h.columnRight.deeds (deeds_after h.printFile)).1
  · rintro m fuel line rfl
    obtain ⟨s, hmoves, hs, -⟩ := moves_enter fuel line m
    rw [← hs]
    exact (h.moves hmoves).columnRight
  · rintro m text rfl
    exact (h.columnRight.deeds ((m.leads_print (p := fun _ => False) text).2 h.printFile)).2
  · obtain ⟨hhost, hcolumn, -⟩ := Statement.print_file_spares digits rest s.machine
    exact ⟨hcolumn, hhost⟩

def openLine : List String :=
  ["PRINT \"ABC\";", "GOTO 7", "OPEN 1,0,\"F\"", "PRINT \"ABC\";", "PRINT #1,\"LONG TEXT\";",
    "PRINT \"DE\";POS(0);"]

set_option maxRecDepth 100000 in
/-- Eight characters stand in the open line, and `POS` has counted the first five. -/
theorem column_follows_cursor_in_open_line :
    (enterAll 9 openLine {}).column = (enterAll 9 openLine {}).host.cursor ∧
      (enterAll 9 openLine {}).host.printedSince 0 = "ABC\n?UNDEF'D STATEMENT ERROR\nABCDE 5 " ∧
      (enterAll 9 openLine {}).host.cursor = 8 := by
  obtain ⟨hstatuses, hprinted, hcursor⟩ : .running ∉ statuses 9 openLine {} ∧
      (enterAll 9 openLine {}).host.printedSince 0 = "ABC\n?UNDEF'D STATEMENT ERROR\nABCDE 5 " ∧
      (enterAll 9 openLine {}).host.cursor = 8 := by
    decide +kernel
  have hreached : Reached (.waiting (enterAll 9 openLine {})) :=
    Reached.moves (.start {} {} {} rfl) (moves_enterAll hstatuses)
  exact ⟨(column_follows_cursor hreached).1, hprinted, hcursor⟩

end Session

end LineBasic
