import LineBasic.Proofs.Machine

/-!
# Modules out of scope

A statement works on two modules: the one whose lines are running and the one that unqualified
names belong to. A change spares the others if it leaves each of them all but its variables, which
names with a module in front may fill from anywhere.
-/

set_option autoImplicit false

namespace LineBasic.Machine

structure Spares (a b : ModuleId) (m m' : Machine) : Prop where
  length_le : m.modules.length ≤ m'.modules.length
  same : ∀ id, id < m.modules.length → id ≠ a → id ≠ b →
    m'.moduleAt id = { m.moduleAt id with vars := (m'.moduleAt id).vars }

namespace Spares

variable {a b : ModuleId} {m m₁ m₂ : Machine}

theorem of_eq (h : m₁.modules = m.modules) : m.Spares a b m₁ where
  length_le := Nat.le_of_eq (by rw [h])
  same id _ _ _ := by rw [moduleAt, moduleAt, h]

theorem refl (a b : ModuleId) (m : Machine) : m.Spares a b m := .of_eq rfl

theorem trans (h : m.Spares a b m₁) (h' : m₁.Spares a b m₂) : m.Spares a b m₂ where
  length_le := Nat.le_trans h.length_le h'.length_le
  same id hid ha hb := by
    rw [h'.same id (Nat.lt_of_lt_of_le hid h.length_le) ha hb, h.same id hid ha hb]

theorem vars (m : Machine) (id : ModuleId) {f : Module → Module}
    (hf : f (m.moduleAt id) = { m.moduleAt id with vars := (f (m.moduleAt id)).vars }) :
    m.Spares a b (m.updateModule id f) where
  length_le := Nat.le_of_eq (length_updateModule m id f).symm
  same j _ _ _ := by
    rw [moduleAt_updateModule]
    split
    · rename_i hj
      rw [hj.1]
      exact hf
    · rfl

theorem module (m : Machine) {id : ModuleId} (hid : id = a ∨ id = b) (f : Module → Module) :
    m.Spares a b (m.updateModule id f) where
  length_le := Nat.le_of_eq (length_updateModule m id f).symm
  same j _ ha hb := by
    have hj : j ≠ id := by
      rintro rfl
      exact hid.elim ha hb
    rw [moduleAt_updateModule_of_ne hj]

theorem ensured (m : Machine) (name : String) : m.Spares a b (m.ensureModule name).2 where
  length_le := length_le_ensureModule m name
  same id hid _ _ := by
    rw [ensureModule]
    split
    · rfl
    · have hold : ({ m with modules := m.modules ++ [.named name] } : Machine).moduleAt id =
          m.moduleAt id := by
        rw [moduleAt, moduleAt, List.getD_eq_getElem?_getD, List.getD_eq_getElem?_getD,
          List.getElem?_append_left hid]
      rw [hold]

end Spares

end LineBasic.Machine
