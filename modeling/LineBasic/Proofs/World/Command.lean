import LineBasic.Command
import LineBasic.Proofs.World

/-!
# What commands do to the world

`SLEEP` waits, and `OPEN` and `CLOSE` open and close files. The other commands need no permit.
-/

set_option autoImplicit false

namespace LineBasic

open Run

variable {p : Permit → Prop}

namespace BuiltinCommand

theorem does_auto (items : List Item) : Does p (auto items) := by
  refine (follows_liftM _).bind fun _ => (follows_liftM _).bind fun _ => ?_
  simp

@[simp] theorem does_writeFile (name text : String) : Does p (writeFile name text) :=
  fun _ => (Machine.Deed.saved name text).leads

def closedHandle (items : List Item) : Except Fault Nat := do handle (← oneArgument items)

theorem close_apply {items : List Item} {n : Nat} {m : Machine} {name text : String}
    (hn : closedHandle items = .ok n) (hfile : m.files.get? n = some (.writing name text)) :
    close items m =
      .ok () { m with files := m.files.erase n, host := m.host.writeFile name text } := by
  obtain ⟨v, hv, hn⟩ := LineBasic.bind_eq_ok.1 hn
  rw [close, hv, liftM_ok, pure_bind_run, hn, liftM_ok, pure_bind_run, get_bind, hfile]
  rfl

theorem does_close {items : List Item} (h : ∀ n, closedHandle items = .ok n → p (.closeFile n)) :
    Does p (close items) := by
  intro m
  refine (follows_liftM _ m).bind fun v m₁ hv => (follows_liftM _ m₁).bind fun n m₂ hn => ?_
  obtain ⟨hv, -⟩ := outcome_eq_ok.1 (liftM_apply _ _ ▸ hv)
  obtain ⟨hn, -⟩ := outcome_eq_ok.1 (liftM_apply _ _ ▸ hn)
  have hclosed : closedHandle items = .ok n := LineBasic.bind_eq_ok.2 ⟨v, hv, hn⟩
  have closed : Does p (modify fun m => { m with files := m.files.erase n }) :=
    fun _ => (Machine.Deed.closed n (h n hclosed)).leads
  refine follows_get.bind (fun m => ?_) m₂
  split
  · simp
  · refine closed.bind fun _ => ?_
    split <;> simp

theorem does_find (items : List Item) : Does p (find items) := by
  refine (follows_liftM _).bind fun _ => ?_
  split <;> simp

theorem does_load (items : List Item) : Does p (load items) := by
  refine (follows_liftM _).bind fun _ => (follows_liftM _).bind fun name => ?_
  refine follows_get.bind fun m => (follows_liftM _).bind fun text => ?_
  simp

theorem does_openFile (h : p .openFile) (items : List Item) : Does p (openFile items) := by
  rw [openFile]
  split
  · rename_i device _ target _
    refine (follows_liftM _).bind fun n m => followsAt_of_get ?_
    split
    · exact follows_fail _ _ m
    · rename_i hnew
      have opened (file : OpenFile)
          (hempty : ∀ name text, file = .writing name text → text = "") :
          FollowsAt (.deeds p) m
            (modify fun m => { m with files := m.files.insert n file }) := by
        refine (Machine.Deed.opened n file ?_ hempty h).leads
        simpa [Table.contains] using hnew
      refine (follows_liftM _ m).bind fun target m₁ htarget => ?_
      obtain ⟨-, rfl⟩ := outcome_eq_ok.1 (liftM_apply _ _ ▸ htarget)
      dsimp only
      split
      · refine FollowsAt.bind (follows_get _) fun m₂ m₃ hm => ?_
        cases hm
        refine (follows_liftM _ _).bind fun text m₂ htext => ?_
        obtain ⟨-, rfl⟩ := outcome_eq_ok.1 (liftM_apply _ _ ▸ htext)
        refine opened _ fun name text hfile => ?_
        cases hfile
      · split
        · refine opened _ fun name text hfile => ?_
          cases hfile
          rfl
        · exact follows_fail _ _ _
  · exact follows_throw _

theorem does_poke (items : List Item) : Does p (poke items) := by
  rw [poke]
  split
  · refine (follows_liftM _).bind fun _ => (follows_liftM _).bind fun _ => ?_
    exact .ite (follows_throw _) (does_inward fun _ => ⟨rfl, rfl, rfl, rfl, rfl⟩)
  · simp

theorem does_saveAgain (items : List Item) : Does p (saveAgain items) := by
  refine (follows_liftM _).bind fun _ => follows_get.bind fun m => ?_
  dsimp only
  split <;> simp

theorem does_quit (items : List Item) : Does p (quit items) :=
  (follows_liftM _).bind fun _ => (follows_liftM _).bind fun _ =>
    does_inward fun _ => ⟨rfl, rfl, rfl, rfl, rfl⟩

theorem does_renumber (items : List Item) : Does p (renumber items) := by
  refine (follows_liftM _).bind fun vs => (follows_liftM _).bind fun _ => ?_
  refine (follows_liftM _).bind fun _ => (follows_liftM _).bind fun _ => ?_
  refine (follows_liftM _).bind fun _ => follows_get.bind fun m => ?_
  simp

theorem does_save (items : List Item) : Does p (save items) := by
  refine (follows_liftM _).bind fun _ => (follows_liftM _).bind fun name => .bind ?_ fun yes => ?_
  · refine follows_get.bind fun m => .ite (follows_pure _) ((does_print _).bind fun _ => ?_)
    simp
  · refine .ite ((does_updateVariableModule _).bind fun _ => ?_) (follows_pure _)
    simp

theorem does_sleep (h : p .wait) (items : List Item) : Does p (sleep items) := by
  refine (follows_liftM _).bind fun _ => (follows_liftM _).bind fun _ => ?_
  exact .ite (follows_throw _) fun _ => (Machine.Deed.slept _ h).leads

theorem does_run (c : BuiltinCommand) (items : List Item) (hwait : c = .SLEEP → p .wait)
    (hopen : c = .OPEN → p .openFile)
    (hclose : c = .CLOSE → ∀ n, closedHandle items = .ok n → p (.closeFile n)) :
    Does p (c.run items) := by
  cases c with
  | AUTO => exact does_auto items
  | CLOSE => exact does_close (hclose rfl)
  | FAST | SLOW | TROFF | TRON => exact (follows_liftM _).bind fun _ => does_updateCodeModule _
  | FIND => exact does_find items
  | LOAD => exact does_load items
  | OPEN => exact does_openFile (hopen rfl) items
  | POKE => exact does_poke items
  | QSAVE => exact does_saveAgain items
  | QUIT => exact does_quit items
  | RENUMBER => exact does_renumber items
  | SAVE => exact does_save items
  | SLEEP => exact does_sleep (hwait rfl) items
  | STOP => exact (follows_liftM _).bind fun _ => follows_throw _

end BuiltinCommand

end LineBasic
