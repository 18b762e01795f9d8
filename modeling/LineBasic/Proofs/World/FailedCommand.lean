import LineBasic.Proofs.Session.Move

/-!
# Commands that fail

A command checks what it is given, looks at the host, and asks whoever sits at the machine before it
changes anything. Once it has begun to change something it cannot fail any more. So a command that
fails has printed, read typed lines and asked for the break key, and no more.
-/

set_option autoImplicit false

namespace LineBasic

open Run

namespace Machine

/-- What goes on between a machine and whoever sits at it: something is printed, typed lines are
read, and the break key is asked for. What is printed reaches an open file only while a statement
prints to one. -/
structure Talked (m m' : Machine) : Prop where
  rest : m' = { m with
    host := { m.host with
      transcript := m'.host.transcript
      input := m'.host.input
      interrupt := m'.host.interrupt
      countdown := m'.host.countdown }
    column := m'.column
    files := m'.files }
  files : m.printFile = none → m'.files = m.files

namespace Talked

variable {m m₁ m₂ : Machine}

theorem refl (m : Machine) : m.Talked m := ⟨rfl, fun _ => rfl⟩

theorem printFile (h : m.Talked m₁) : m₁.printFile = m.printFile := by rw [h.rest]

theorem trans (h : m.Talked m₁) (h' : m₁.Talked m₂) : m.Talked m₂ where
  rest := by rw [h'.rest, h.rest]
  files hscreen := (h'.files (h.printFile.trans hscreen)).trans (h.files hscreen)

theorem print (m : Machine) (text : String) : m.Talked (m.print text) := by
  rw [Machine.print]
  split
  · rename_i n hn
    split
    · refine ⟨rfl, fun hscreen => ?_⟩
      rw [hn] at hscreen
      cases hscreen
    · exact .refl m
  · exact ⟨rfl, fun _ => rfl⟩

theorem poll (m : Machine) : m.Talked { m with host := m.host.poll.2 } := ⟨rfl, fun _ => rfl⟩

theorem readLine (m : Machine) (column : Nat) :
    m.Talked { m with host := m.host.readLine.2, column } := by
  rw [Host.readLine]
  split <;> exact ⟨rfl, fun _ => rfl⟩

end Talked

end Machine

def Effect.talk : Effect where
  Leads := Machine.Talked
  refl := .refl
  trans := .trans
  registry h := by rw [h.rest]

namespace Run

variable {α β : Type} {F : Effect}

@[simp] theorem talks_print (text : String) : Follows .talk (print text) :=
  fun m => Machine.Talked.print m text

@[simp] theorem talks_checkBreak : Follows .talk checkBreak := by
  intro m
  rw [FollowsAt, final, checkBreak_apply]
  cases m.host.poll.1 <;> exact .poll m

@[simp] theorem talks_printLines (lines : List String) : Follows .talk (printLines lines) := by
  induction lines with
  | nil => exact follows_pure ()
  | cons line lines ih => exact talks_checkBreak.bind fun _ => (talks_print _).bind fun _ => ih

@[simp] theorem talks_readLine : Follows .talk readLine := by
  intro m
  have hfailed := Machine.Talked.readLine m m.column
  have hread := Machine.Talked.readLine m 0
  rw [FollowsAt, final, readLine, get_bind]
  cases h : m.host.readLine with
  | mk answer host =>
    rw [h] at hfailed hread
    cases answer with
    | error f => exact hfailed
    | ok line => exact hread

theorem exists_error_of_answer {x : Run α} {m : Machine} (h : (x.answer m).toOption = none) :
    ∃ f m', x m = .error f m' := by
  rw [answer] at h
  cases hx : x m with
  | ok a m₁ =>
    rw [hx] at h
    cases h
  | error f m₁ => exact ⟨f, m₁, rfl⟩

def FailsLike (F : Effect) (x : Run α) : Prop := ∀ m f m', x m = .error f m' → F.Leads m m'

def Sure (x : Run α) : Prop := ∀ m f m', x m ≠ .error f m'

theorem Follows.failsLike {x : Run α} (h : Follows F x) : FailsLike F x :=
  fun _ _ _ hx => h.error hx

theorem Sure.failsLike {x : Run α} (h : Sure x) : FailsLike F x :=
  fun m f m' hx => absurd hx (h m f m')

/-- A run may fail like its last part if the parts before follow the effect. -/
theorem FailsLike.bind {x : Run α} {g : α → Run β} (hx : Follows F x)
    (hg : ∀ a, FailsLike F (g a)) : FailsLike F (x >>= g) := by
  intro m f m' h
  rcases bind_eq_error.1 h with h | ⟨a, m₁, ha, h⟩
  · exact hx.error h
  · exact F.trans (hx.ok ha) (hg a m₁ f m' h)

theorem FailsLike.ite {c : Prop} [Decidable c] {x y : Run α} (hx : FailsLike F x)
    (hy : FailsLike F y) : FailsLike F (if c then x else y) := by
  split
  · exact hx
  · exact hy

theorem sure_pure (a : α) : Sure (pure a : Run α) := by
  rintro m f m' ⟨⟩

theorem sure_get : Sure (get : Run Machine) := by
  rintro m f m' ⟨⟩

theorem sure_modify (g : Machine → Machine) : Sure (modify g : Run Unit) := by
  rintro m f m' ⟨⟩

theorem Sure.bind {x : Run α} {g : α → Run β} (hx : Sure x) (hg : ∀ a, Sure (g a)) :
    Sure (x >>= g) := by
  intro m f m' h
  rcases bind_eq_error.1 h with h | ⟨a, m₁, -, h⟩
  · exact hx m f m' h
  · exact hg a m₁ f m' h

theorem failsLike_throw (f : Fault) : FailsLike F (throw f : Run α) :=
  (follows_throw f).failsLike

theorem failsLike_modify (g : Machine → Machine) : FailsLike F (modify g : Run Unit) :=
  (sure_modify g).failsLike

end Run

namespace BuiltinCommand

theorem failsLike_auto (items : List Item) : FailsLike .talk (auto items) := by
  refine .bind (follows_liftM _) fun vs => .bind (follows_liftM _) fun step => ?_
  exact .ite (failsLike_throw _) (failsLike_modify _)

theorem failsLike_close (items : List Item) : FailsLike .talk (close items) := by
  refine .bind (follows_liftM _) fun v => .bind (follows_liftM _) fun n => ?_
  refine .bind follows_get fun m => ?_
  split
  · exact (follows_fail _ _).failsLike
  · refine (Sure.bind (sure_modify _) fun _ => ?_).failsLike
    split
    · exact sure_pure ()
    · exact sure_modify _

theorem failsLike_find (items : List Item) : FailsLike .talk (find items) := by
  refine .bind (follows_liftM _) fun v => ?_
  split
  · exact .bind follows_get fun m => (talks_printLines _).failsLike
  · exact failsLike_throw _

theorem failsLike_load (items : List Item) : FailsLike .talk (load items) := by
  refine .bind (follows_liftM _) fun v => .bind (follows_liftM _) fun name => ?_
  refine .bind follows_get fun m => .bind (follows_liftM _) fun text => ?_
  exact .bind (follows_liftM _) fun listing => failsLike_modify _

theorem failsLike_openFile (items : List Item) : FailsLike .talk (openFile items) := by
  rw [openFile]
  split
  · refine .bind (follows_liftM _) fun n => .bind follows_get fun m => ?_
    refine .ite (follows_fail _ _).failsLike (.bind (follows_liftM _) fun target => ?_)
    have opened (file : OpenFile) :
        FailsLike .talk (modify fun m => { m with files := m.files.insert n file }) :=
      failsLike_modify _
    dsimp only
    split
    · exact .bind follows_get fun m => .bind (follows_liftM _) fun text => opened _
    · split
      · exact opened _
      · exact (follows_fail _ _).failsLike
  · exact failsLike_throw _

theorem failsLike_poke (items : List Item) : FailsLike .talk (poke items) := by
  rw [poke]
  split
  · refine .bind (follows_liftM _) fun address => .bind (follows_liftM _) fun byte => ?_
    exact .ite (failsLike_throw _) (failsLike_modify _)
  · exact failsLike_throw _

theorem failsLike_saveAgain (items : List Item) : FailsLike .talk (saveAgain items) := by
  refine .bind (follows_liftM _) fun _ => .bind follows_get fun m => ?_
  dsimp only
  split
  · exact failsLike_modify _
  · exact (follows_fail _ _).failsLike

theorem failsLike_renumber (items : List Item) : FailsLike .talk (renumber items) := by
  refine .bind (follows_liftM _) fun vs => .bind (follows_liftM _) fun first => ?_
  refine .bind (follows_liftM _) fun step => .bind (follows_liftM _) fun old => ?_
  refine .bind (follows_liftM _) fun milestone => .bind follows_get fun m => ?_
  exact .bind (follows_liftM _) fun listing => failsLike_modify _

/-- Whoever is asked may break in, but by then nothing has changed. -/
theorem talks_confirmed (name : String) : Follows .talk (confirmed name) := by
  refine follows_get.bind fun m => .ite (follows_pure _) ?_
  exact (talks_print _).bind fun _ => talks_readLine.bind fun _ => follows_pure _

theorem failsLike_save (items : List Item) : FailsLike .talk (save items) := by
  refine .bind (follows_liftM _) fun v => .bind (follows_liftM _) fun name => ?_
  refine .bind (talks_confirmed name) fun yes => .ite ?_ (sure_pure _).failsLike
  exact (Sure.bind (sure_modify _) fun _ => sure_get.bind fun m => sure_modify _).failsLike

theorem failsLike_sleep (items : List Item) : FailsLike .talk (sleep items) := by
  refine .bind (follows_liftM _) fun v => .bind (follows_liftM _) fun seconds => ?_
  exact .ite (failsLike_throw _) (failsLike_modify _)

theorem failsLike_run (c : BuiltinCommand) (items : List Item) :
    FailsLike .talk (c.run items) := by
  cases c with
  | AUTO => exact failsLike_auto items
  | CLOSE => exact failsLike_close items
  | FAST | SLOW | TROFF | TRON => exact .bind (follows_liftM _) fun _ => failsLike_modify _
  | FIND => exact failsLike_find items
  | LOAD => exact failsLike_load items
  | OPEN => exact failsLike_openFile items
  | POKE => exact failsLike_poke items
  | QSAVE => exact failsLike_saveAgain items
  | QUIT =>
    exact .bind (follows_liftM _) fun vs => .bind (follows_liftM _) fun code => failsLike_modify _
  | RENUMBER => exact failsLike_renumber items
  | SAVE => exact failsLike_save items
  | SLEEP => exact failsLike_sleep items
  | STOP => exact .bind (follows_liftM _) fun _ => failsLike_throw _

def Unloadable (m : Machine) (name : String) : Prop :=
  ∀ text, m.host.files.get? (Text.trim name) = some text → ∃ f, Listing.ofText text = .error f

theorem load_of_unloadable {items : List Item} {m : Machine} {name : String}
    (hitems : Item.values items = [.text name]) (h : Unloadable m name) :
    ∃ f, load items m = .error f m := by
  have hname : oneArgument items = .ok (.text name) := by rw [oneArgument, hitems, Arguments.one]
  rw [load, hname, liftM_ok, pure_bind_run, fileName]
  split
  · exact ⟨_, rfl⟩
  · rw [liftM_ok, pure_bind_run, get_bind, Host.readFile]
    cases hfile : m.host.files.get? (Text.trim name) with
    | none => exact ⟨_, rfl⟩
    | some text =>
      obtain ⟨f, hf⟩ := h text hfile
      simp only [liftM_ok, pure_bind_run, hf]
      exact ⟨f, rfl⟩

/-- A command that fails leaves all modules, the scopes, the memory, the exit code and the files of
the host as they were, and the open files too, unless printing goes to one of them. Between the
statements of a session it never does. In particular a `LOAD` of a file that is missing or malformed
fails, and leaves the machine as it is. -/
theorem failing_command_changes_nothing (c : BuiltinCommand) (items : List Item) (m : Machine) :
    (∀ f m', c.run items m = .error f m' →
      m'.modules = m.modules ∧ m'.scopes = m.scopes ∧ m'.memory = m.memory ∧
        m'.exitCode = m.exitCode ∧ m'.host.files = m.host.files ∧
        (m.printFile = none → m'.files = m.files)) ∧
      (∀ s, Session.Reached s → s.machine.printFile = none) ∧
      ∀ name, Item.values items = [.text name] → Unloadable m name →
        ∃ f, LOAD.run items m = .error f m := by
  refine ⟨fun f m' h => ?_, fun s hs => hs.printFile, fun name => load_of_unloadable⟩
  have htalked : m.Talked m' := failsLike_run c items m f m' h
  refine ⟨?_, ?_, ?_, ?_, ?_, htalked.files⟩ <;> rw [htalked.rest]

def unattended : Machine :=
  { host := { files := Table.empty.insert "GAME" "PRINT" }
    modules := [{ name := "", listing := Listing.insert {} 10 "PRINT 1" }] }

def gameName : List Item := [.value (.text " GAME ")]

theorem failing_command_changes_nothing_at_question :
    (∃ f m', SAVE.run gameName unattended = .error f m' ∧ m'.modules = unattended.modules ∧
      m'.files = unattended.files ∧ m'.host.files = unattended.host.files) ∧
      ∃ f, LOAD.run gameName unattended = .error f unattended := by
  have hfault : ((SAVE.run gameName).answer unattended).toOption = none := by decide +kernel
  have hmalformed : (Listing.ofText "PRINT").toOption = none := by decide +kernel
  obtain ⟨hsave, -, hload⟩ := failing_command_changes_nothing SAVE gameName unattended
  obtain ⟨f, m', hfails⟩ := exists_error_of_answer hfault
  obtain ⟨hmodules, -, -, -, hhost, hfiles⟩ := hsave f m' hfails
  refine ⟨⟨f, m', hfails, hmodules, hfiles rfl, hhost⟩, hload " GAME " rfl fun text htext => ?_⟩
  have hfile : unattended.host.files.get? (Text.trim " GAME ") = some "PRINT" := by decide +kernel
  cases htext.symm.trans hfile
  cases h : Listing.ofText "PRINT" with
  | error f => exact ⟨f, rfl⟩
  | ok listing =>
    rw [h] at hmalformed
    cases hmalformed

end BuiltinCommand

end LineBasic
