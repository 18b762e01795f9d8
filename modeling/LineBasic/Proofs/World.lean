import Mathlib.Logic.Relation
import LineBasic.Proofs.Evaluation

/-!
# The world around the modules

Around its modules a machine has a screen with a cursor, a clock, typed lines and keys, the files of
its host and files of its own that are open. What a run does to them it does one deed at a time.
Most deeds are open to every statement. To wait, to open and close files and to read from one or
print to one a statement needs a permit, and those are not given to many.
-/

set_option autoImplicit false

namespace LineBasic

open Run

inductive Permit where
  | wait
  | openFile
  | closeFile (n : Nat)
  | readFrom (n : Nat)
  | printTo (n : Nat)

namespace Machine

structure SameWorld (m m' : Machine) : Prop where
  host : m'.host = m.host
  files : m'.files = m.files
  printFile : m'.printFile = m.printFile
  column : m'.column = m.column
  registry : m'.registry = m.registry

inductive Deed (permitted : Permit → Prop) (m : Machine) : Machine → Prop
  | inward {m' : Machine} (h : m.SameWorld m') : Deed permitted m m'
  | printed (text : String) :
      Deed permitted m
        { m with column := Text.columnAfter m.column text, host := m.host.print text }
  | lineRead (line : String) (more : List String) (h : m.host.input = line :: more) :
      Deed permitted m
        { m with host := { m.host with input := more }.log (.lineRead line), column := 0 }
  | cleared : Deed permitted m { m with host := m.host.clearScreen, column := 0 }
  /-- Keys are taken, or the break key is asked for. -/
  | sensed (keys : List Char) (interrupt : Bool) (countdown : Nat) :
      Deed permitted m { m with host := { m.host with keys, interrupt, countdown } }
  | saved (name text : String) : Deed permitted m { m with host := m.host.writeFile name text }
  | slept (ms : UInt64) (h : permitted .wait) :
      Deed permitted m { m with host := m.host.sleep ms }
  | opened (n : Nat) (file : OpenFile) (hnew : m.files.get? n = none)
      (hempty : ∀ name text, file = .writing name text → text = "") (h : permitted .openFile) :
      Deed permitted m { m with files := m.files.insert n file }
  | closed (n : Nat) (h : permitted (.closeFile n)) :
      Deed permitted m { m with files := m.files.erase n }
  /-- Lines are taken from a file. -/
  | taken (n : Nat) (lines left : List String) (hfile : m.files.get? n = some (.reading lines))
      (h : permitted (.readFrom n)) :
      Deed permitted m { m with files := m.files.insert n (.reading left) }
  | filed (n : Nat) (name text more : String)
      (hfile : m.files.get? n = some (.writing name text)) (h : permitted (.printTo n)) :
      Deed permitted m { m with files := m.files.insert n (.writing name (text ++ more)) }

abbrev Deeds (permitted : Permit → Prop) : Machine → Machine → Prop :=
  Relation.ReflTransGen (Deed permitted)

variable {permitted permitted' : Permit → Prop} {m m₁ m₂ : Machine}

theorem SameWorld.deeds (h : m.SameWorld m₁) : Deeds permitted m m₁ := .single (.inward h)

theorem Deed.mono (h : Deed permitted m m₁) (hmono : ∀ l, permitted l → permitted' l) :
    Deed permitted' m m₁ := by
  cases h with
  | inward h => exact .inward h
  | printed text => exact .printed text
  | lineRead line more h => exact .lineRead line more h
  | cleared => exact .cleared
  | sensed keys interrupt countdown => exact .sensed keys interrupt countdown
  | saved name text => exact .saved name text
  | slept ms h => exact .slept ms (hmono _ h)
  | opened n file hnew hempty h => exact .opened n file hnew hempty (hmono _ h)
  | closed n h => exact .closed n (hmono _ h)
  | taken n lines left hfile h => exact .taken n lines left hfile (hmono _ h)
  | filed n name text more hfile h => exact .filed n name text more hfile (hmono _ h)

theorem Deeds.mono (h : Deeds permitted m m₁) (hmono : ∀ l, permitted l → permitted' l) :
    Deeds permitted' m m₁ :=
  Relation.ReflTransGen.mono (fun _ _ hdeed => Deed.mono hdeed hmono) _ _ h

/-- No deed sends what is printed elsewhere or registers anything. -/
theorem Deed.keeps (h : Deed permitted m m₁) :
    m₁.printFile = m.printFile ∧ m₁.registry = m.registry := by
  cases h with
  | inward h => exact ⟨h.printFile, h.registry⟩
  | _ => exact ⟨rfl, rfl⟩

theorem Deeds.keeps (h : Deeds permitted m m₁) :
    m₁.printFile = m.printFile ∧ m₁.registry = m.registry := by
  induction h with
  | refl => exact ⟨rfl, rfl⟩
  | tail _ hdeed ih => exact ⟨hdeed.keeps.1.trans ih.1, hdeed.keeps.2.trans ih.2⟩

/-- Without a permit for any of them the open files stay as they are. -/
theorem Deeds.files (h : Deeds permitted m m₁) (hnone : ∀ l, permitted l → l = .wait) :
    m₁.files = m.files := by
  induction h with
  | refl => rfl
  | tail _ hdeed ih =>
    cases hdeed with
    | inward h => rw [h.files, ih]
    | opened _ _ _ _ h | closed _ h | taken _ _ _ _ h | filed _ _ _ _ _ h => cases hnone _ h
    | _ => exact ih

/-- A file that nobody prints to stays as it is, or is closed for good. -/
theorem Deeds.file_kept (h : Deeds permitted m m₁) {n : Nat} {name text : String}
    (hprint : ¬ permitted (.printTo n)) (hswap : permitted (.closeFile n) → ¬ permitted .openFile)
    (hfile : m.files.get? n = some (.writing name text)) :
    m₁.files.get? n = some (.writing name text) ∨
      permitted (.closeFile n) ∧ m₁.files.get? n = none := by
  induction h with
  | refl => exact .inl hfile
  | tail _ hdeed ih =>
    cases hdeed with
    | inward h => rwa [h.files]
    | opened k file hnew _ h =>
      rcases ih with ih | ih
      · refine .inl ?_
        rw [Table.get?_insert, if_neg, ih]
        rintro rfl
        rw [ih] at hnew
        cases hnew
      · exact absurd h (hswap ih.1)
    | closed k h =>
      by_cases hk : n = k
      · exact .inr ⟨hk ▸ h, by rw [Table.get?_erase, if_pos hk]⟩
      · rwa [Table.get?_erase, if_neg hk]
    | taken k lines left hlines =>
      rw [Table.get?_insert, if_neg]
      · exact ih
      · rintro rfl
        simp [hlines] at ih
    | filed k name text more _ h =>
      rw [Table.get?_insert, if_neg]
      · exact ih
      · rintro rfl
        exact hprint h
    | _ => exact ih

/-- A file that is not written to stays so, unless files may be opened. Then it starts empty. -/
theorem Deeds.file_opened (h : Deeds permitted m m₁) {n : Nat}
    (hprint : permitted .openFile → ¬ permitted (.printTo n))
    (hclosed : ∀ name text, m.files.get? n ≠ some (.writing name text)) {name text : String}
    (hfile : m₁.files.get? n = some (.writing name text)) : permitted .openFile ∧ text = "" := by
  have hfresh : ∀ name text, m₁.files.get? n = some (.writing name text) →
      permitted .openFile ∧ text = "" := by
    clear hfile
    induction h with
    | refl => exact fun name text hfile => absurd hfile (hclosed name text)
    | tail _ hdeed ih =>
      intro name text hfile
      cases hdeed with
      | inward h => exact ih name text (h.files ▸ hfile)
      | opened k file _ hempty h =>
        rw [Table.get?_insert] at hfile
        split at hfile
        · cases hfile
          exact ⟨h, hempty name text rfl⟩
        · exact ih name text hfile
      | closed k h =>
        rw [Table.get?_erase] at hfile
        split at hfile
        · cases hfile
        · exact ih name text hfile
      | taken k lines left hlines =>
        rw [Table.get?_insert] at hfile
        split at hfile
        · cases hfile
        · exact ih name text hfile
      | filed k name' text' more hold h =>
        rw [Table.get?_insert] at hfile
        split at hfile
        · rename_i hk
          subst hk
          exact absurd h (hprint (ih name' text' hold).1)
        · exact ih name text hfile
      | _ => exact ih name text hfile
  exact hfresh name text hfile

/-- The clock stands still where nobody may wait, and the process is not ended there. -/
theorem Deeds.clock (h : Deeds permitted m m₁) (hwait : ¬ permitted .wait) :
    m₁.host.clock = m.host.clock ∧ m₁.host.halted = m.host.halted := by
  induction h with
  | refl => exact ⟨rfl, rfl⟩
  | tail _ hdeed ih =>
    cases hdeed with
    | inward h =>
      rw [h.host]
      exact ih
    | slept ms h => exact absurd h hwait
    | _ => exact ih

end Machine

def Effect.deeds (permitted : Permit → Prop) : Effect where
  Leads m m' := m'.registry = m.registry ∧ (m.printFile = none → m.Deeds permitted m')
  refl _ := ⟨rfl, fun _ => .refl⟩
  trans h h' := ⟨h'.1.trans h.1, fun hm => (h.2 hm).trans (h'.2 ((h.2 hm).keeps.1.trans hm))⟩
  registry h := h.1

section

variable {α : Type} {p : Permit → Prop}

namespace Machine

theorem sameWorld_enterCode (m : Machine) : m.SameWorld m.enterCode.2 := by
  cases h : m.scopes.inLockstep with
  | true =>
    rw [enterCode_of_inLockstep h]
    exact ⟨rfl, rfl, rfl, rfl, rfl⟩
  | false =>
    rw [enterCode_of_ahead h]
    exact ⟨rfl, rfl, rfl, rfl, rfl⟩

theorem sameWorld_endModule (m : Machine) : m.SameWorld m.endModule := by
  cases h : m.scopes.inLockstep with
  | true =>
    rw [endModule_of_inLockstep h]
    exact ⟨rfl, rfl, rfl, rfl, rfl⟩
  | false =>
    rw [endModule_of_ahead h]
    exact ⟨rfl, rfl, rfl, rfl, rfl⟩

theorem sameWorld_ensureModule (m : Machine) (name : String) :
    m.SameWorld (m.ensureModule name).2 := by
  rw [ensureModule]
  split <;> exact ⟨rfl, rfl, rfl, rfl, rfl⟩

theorem Evaluated.sameWorld {m m' : Machine} (h : m.Evaluated m') : m.SameWorld m' := by
  rw [h.rest]
  exact ⟨rfl, rfl, rfl, rfl, rfl⟩

theorem SameWorld.leads {m m' : Machine} (h : m.SameWorld m') : (Effect.deeds p).Leads m m' :=
  ⟨h.registry, fun _ => h.deeds⟩

theorem Deed.leads {m m' : Machine} (h : Deed p m m') : (Effect.deeds p).Leads m m' :=
  ⟨h.keeps.2, fun _ => .single h⟩

theorem print_of_file {m : Machine} {n : Nat} {name text : String} (hprint : m.printFile = some n)
    (hfile : m.files.get? n = some (.writing name text)) (s : String) :
    m.print s = { m with files := m.files.insert n (.writing name (text ++ s)) } := by
  simp only [print, hprint, hfile]

theorem print_of_screen {m : Machine} (hscreen : m.printFile = none) (s : String) :
    m.print s = { m with column := Text.columnAfter m.column s, host := m.host.print s } := by
  simp only [print, hscreen]

theorem registry_print (m : Machine) (s : String) : (m.print s).registry = m.registry := by
  rw [print]
  split
  · split <;> rfl
  · rfl

theorem leads_print (m : Machine) (s : String) : (Effect.deeds p).Leads m (m.print s) := by
  refine ⟨m.registry_print s, fun hscreen => ?_⟩
  rw [print_of_screen hscreen]
  exact .single (.printed s)

end Machine

theorem Effect.evaluation_le_deeds : Effect.evaluation ≤ .deeds p :=
  fun _ _ h => h.sameWorld.leads

theorem Effect.deeds_mono {q : Permit → Prop} (h : ∀ l, p l → q l) :
    Effect.deeds p ≤ .deeds q :=
  fun _ _ hleads => ⟨hleads.1, fun hscreen => (hleads.2 hscreen).mono h⟩

abbrev Run.Does (permitted : Permit → Prop) (x : Run α) : Prop := Follows (.deeds permitted) x

namespace Run

theorem does_inward {f : Machine → Machine} (h : ∀ m : Machine, m.SameWorld (f m)) :
    Does p (modify f) :=
  fun m => (h m).leads

theorem Obeys.does {x : Run α} (h : Obeys .evaluation x) : Does p x :=
  (h.mono Effect.evaluation_le_deeds).follows

@[simp] theorem does_updateModule (id : ModuleId) (f : Module → Module) :
    Does p (updateModule id f) :=
  does_inward fun _ => ⟨rfl, rfl, rfl, rfl, rfl⟩

@[simp] theorem does_updateVariableModule (f : Module → Module) : Does p (updateVariableModule f) :=
  does_inward fun _ => ⟨rfl, rfl, rfl, rfl, rfl⟩

@[simp] theorem does_updateCodeModule (f : Module → Module) : Does p (updateCodeModule f) :=
  does_inward fun _ => ⟨rfl, rfl, rfl, rfl, rfl⟩

@[simp] theorem does_ensureModule (name : String) : Does p (ensureModule name) :=
  fun m => (m.sameWorld_ensureModule name).leads

@[simp] theorem does_findModule (name : String) : Does p (findModule name) :=
  (obeys_findModule name).follows

@[simp] theorem does_enterCode : Does p enterCode := fun m => m.sameWorld_enterCode.leads

@[simp] theorem does_endModule : Does p endModule := fun m => m.sameWorld_endModule.leads

@[simp] theorem does_print (text : String) : Does p (print text) := fun m => m.leads_print text

@[simp] theorem does_readLine : Does p readLine := by
  intro m
  have hread : readLine.final m = m ∨ ∃ line more, m.host.input = line :: more ∧
      readLine.final m =
        { m with host := { m.host with input := more }.log (.lineRead line), column := 0 } := by
    rw [final, readLine, get_bind, Host.readLine]
    cases m.host.input with
    | nil => exact .inl rfl
    | cons line more => exact .inr ⟨line, more, rfl, rfl⟩
  rw [FollowsAt]
  rcases hread with h | ⟨line, more, hinput, h⟩
  · rw [h]
    exact (Effect.deeds p).refl m
  · rw [h]
    exact (Machine.Deed.lineRead line more hinput).leads

@[simp] theorem does_checkBreak : Does p checkBreak := by
  intro m
  have hpolled : (Effect.deeds p).Leads m { m with host := m.host.poll.2 } :=
    (Machine.Deed.sensed m.host.keys false (m.host.countdown - 1)).leads
  rw [FollowsAt, final, checkBreak_apply]
  split
  · rename_i h
    split at h
    · cases h
    · cases h
      exact hpolled
  · rename_i h
    split at h
    · cases h
      exact hpolled
    · cases h

@[simp] theorem does_printLines (lines : List String) : Does p (printLines lines) := by
  induction lines with
  | nil => exact follows_pure ()
  | cons line lines ih => exact does_checkBreak.bind fun _ => (does_print _).bind fun _ => ih

end Run

end

end LineBasic
