import LineBasic.Command
import LineBasic.Proofs.Calm

/-!
# Calm commands

Of the commands only `LOAD` and `RENUMBER` change a listing, and `QUIT` ends the session. All others
are calm.
-/

set_option autoImplicit false

namespace LineBasic

open Run

namespace BuiltinCommand

theorem calm_auto (items : List Item) : Calm (auto items) := by
  refine (obeys_liftM (by simp)).bind fun _ => (obeys_liftM (by simp)).bind fun step => ?_
  dsimp only
  split
  · exact obeys_throw (by decide)
  · exact calm_updateVariableModule fun _ => .of_eq rfl rfl rfl rfl

theorem calm_writeFile (name text : String) : Calm (writeFile name text) :=
  calm_world (by simp)

theorem calm_close (items : List Item) : Calm (close items) := by
  refine (obeys_liftM (by simp)).bind fun _ => (obeys_liftM (by simp)).bind fun n => ?_
  refine obeys_get.bind fun m => ?_
  split
  · exact obeys_fail (by decide) _
  · refine (calm_world (by simp)).bind fun _ => ?_
    split
    · exact obeys_pure _
    · exact calm_writeFile _ _

theorem calm_switchFast (on : Bool) (items : List Item) : Calm (switchFast on items) :=
  (obeys_liftM (by simp)).bind fun _ =>
    calm_updateCodeModule fun _ => .of_eq rfl rfl rfl rfl

theorem calm_switchTrace (on : Bool) (items : List Item) : Calm (switchTrace on items) :=
  (obeys_liftM (by simp)).bind fun _ =>
    calm_updateCodeModule fun _ => .of_eq rfl rfl rfl rfl

theorem calm_find (items : List Item) : Calm (find items) := by
  refine (obeys_liftM (by simp)).bind fun v => ?_
  split
  · exact obeys_get.bind fun _ => calm_printLines _
  · exact obeys_throw (by decide)

theorem calm_openFile (items : List Item) : Calm (openFile items) := by
  rw [openFile]
  split
  · refine (obeys_liftM (by simp)).bind fun n => obeys_get.bind fun m => ?_
    dsimp only
    split
    · exact obeys_fail (by decide) _
    · refine (obeys_liftM (by simp)).bind fun target => ?_
      have opened (file : OpenFile) : Calm (modify fun m =>
          { m with files := m.files.insert n file } : Run Unit) := calm_world (by simp)
      split
      · refine obeys_get.bind fun m => (obeys_liftM (by simp)).bind fun text => opened _
      · split
        · exact opened _
        · exact obeys_fail (by decide) _
  · exact obeys_throw (by decide)

theorem calm_poke (items : List Item) : Calm (poke items) := by
  rw [poke]
  split
  · refine (obeys_liftM (by simp)).bind fun _ => (obeys_liftM (by simp)).bind fun _ => ?_
    dsimp only
    split
    · exact obeys_throw (by decide)
    · exact calm_world (by simp)
  · exact obeys_throw (by decide)

theorem calm_saveAgain (items : List Item) : Calm (saveAgain items) := by
  refine (obeys_liftM (by simp)).bind fun _ => obeys_get.bind fun m => ?_
  dsimp only
  split
  · exact calm_writeFile _ _
  · exact obeys_fail (by decide) _

theorem calm_confirmed (name : String) : Calm (confirmed name) := by
  refine obeys_get.bind fun m => ?_
  dsimp only
  split
  · exact obeys_pure _
  · exact (calm_print _).bind fun _ => calm_readLine.bind fun _ => obeys_pure _

theorem calm_save (items : List Item) : Calm (save items) := by
  refine (obeys_liftM (by simp)).bind fun _ => (obeys_liftM (by simp)).bind fun name => ?_
  refine (calm_confirmed name).bind fun yes => ?_
  split
  · have hnamed : Calm (updateVariableModule fun mod => { mod with fileName := some name }) :=
      calm_updateVariableModule fun _ => .of_eq rfl rfl rfl rfl
    exact hnamed.bind fun _ => obeys_get.bind fun _ => calm_writeFile _ _
  · exact obeys_pure _

theorem calm_sleep (items : List Item) : Calm (sleep items) := by
  refine (obeys_liftM (by simp)).bind fun _ => (obeys_liftM (by simp)).bind fun _ => ?_
  dsimp only
  split
  · exact obeys_throw (by decide)
  · exact calm_world (by simp)

theorem calm_stop (items : List Item) : Calm (stop items) :=
  (obeys_liftM (by simp)).bind fun _ => obeys_throw (by decide)

end BuiltinCommand

end LineBasic
