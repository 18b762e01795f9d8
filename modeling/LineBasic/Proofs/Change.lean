import LineBasic.Listing.File
import LineBasic.Listing.Renumber
import LineBasic.Proofs.Machine
import LineBasic.Proofs.Run
import LineBasic.Proofs.Variables
import Mathlib.Logic.Relation

/-!
# What a run can change

A run changes the machine one thing at a time: something of one module, the list of modules, the
scopes, or the world around the modules. A listing is cleared, loses a range of lines, is renumbered
or is loaded. The rest of a module changes so that its values keep the kinds of their names, its
loops run over numbers, and its data are read from the program. What each single change keeps is
kept by every run that is made of such changes.
-/

set_option autoImplicit false

namespace LineBasic

/-- Values have the kinds of their names, loops run over numbers, and `READ` goes on in a line of
the program. -/
structure SoundState (vars : Variables) (loops : Stack ForLoop) (data : DataCursor) : Prop where
  vars : vars.WellKinded
  loops : ∀ l ∈ loops.held, Kind.ofName l.name ≠ .text
  data : ∀ n, data.line = some n → 0 ≤ n

abbrev Module.Sound (mod : Module) : Prop := SoundState mod.vars mod.loops mod.data

theorem Module.sound_new {mod : Module} (hvars : mod.vars = {}) (hloops : mod.loops.held = [])
    (hdata : mod.data = {}) : mod.Sound where
  vars := by rw [hvars]; exact .empty
  loops l hl := by rw [hloops] at hl; cases hl
  data n hn := by rw [hdata] at hn; cases hn

theorem SoundState.cut {vars : Variables} {loops : Stack ForLoop} {data : DataCursor}
    (h : SoundState vars loops data) (n : Nat) : SoundState vars (loops.truncate n) data :=
  ⟨h.vars, fun l hl => h.loops l ((Stack.sublist_truncate _ _).mem hl), h.data⟩

inductive ModuleChange : Module → Module → Prop
  | state {mod mod' : Module} (hname : mod'.name = mod.name)
      (hlisting : mod'.listing = mod.listing) (hsound : mod.Sound → mod'.Sound) :
      ModuleChange mod mod'
  | cleared (mod : Module) : ModuleChange mod mod.cleared
  | erased (mod : Module) (first last : LineNumber) :
      ModuleChange mod { mod with listing := mod.listing.eraseRange first last }
  | renumbered (mod : Module) (r : RenumberRequest) (listing : Listing)
      (h : mod.listing.renumber r = .ok listing) : ModuleChange mod { mod with listing }
  | loaded (mod : Module) (text : String) (listing : Listing) (name : String)
      (h : Listing.ofText text = .ok listing) :
      ModuleChange mod { mod.cleared with listing, fileName := some name }

inductive Change : Machine → Machine → Prop
  | world (m : Machine) (host : Host) (files : Table Nat OpenFile) (printFile : Option Nat)
      (column : Nat) (memory : Table Nat UInt8) (dice : Dice) (exitCode : Option Int32)
      (tokenCount : Nat) :
      Change m { m with host, files, printFile, column, memory, dice, exitCode, tokenCount }
  | scopes (m : Machine) (scopes : Scopes) : Change m { m with scopes }
  | ensured (m : Machine) (name : String) : Change m (m.ensureModule name).2
  | module (m : Machine) (id : ModuleId) (f : Module → Module)
      (h : ∀ mod, m.modules[id]? = some mod → ModuleChange mod (f mod)) :
      Change m (m.updateModule id f)

theorem Change.of_eq {m m' : Machine} (hmodules : m'.modules = m.modules)
    (hscopes : m'.scopes = m.scopes) (hregistry : m'.registry = m.registry)
    (hoptions : m'.options = m.options) : Change m m' := by
  cases m'
  cases hmodules
  cases hscopes
  cases hregistry
  cases hoptions
  exact .world m _ _ _ _ _ _ _ _

abbrev Changes : Machine → Machine → Prop := Relation.ReflTransGen Change

theorem Change.registry {m m' : Machine} (h : Change m m') : m'.registry = m.registry := by
  cases h with
  | ensured name =>
    rw [Machine.ensureModule]
    split <;> rfl
  | _ => rfl

theorem Changes.registry {m m' : Machine} (h : Changes m m') : m'.registry = m.registry := by
  induction h with
  | refl => rfl
  | tail _ hstep ih => exact hstep.registry.trans ih

theorem Change.options {m m' : Machine} (h : Change m m') : m'.options = m.options := by
  cases h with
  | ensured name =>
    rw [Machine.ensureModule]
    split <;> rfl
  | _ => rfl

theorem Changes.options {m m' : Machine} (h : Changes m m') : m'.options = m.options := by
  induction h with
  | refl => rfl
  | tail _ hstep ih => exact hstep.options.trans ih

theorem Change.length_le {m m' : Machine} (h : Change m m') :
    m.modules.length ≤ m'.modules.length := by
  cases h with
  | world => exact Nat.le_refl _
  | scopes => exact Nat.le_refl _
  | ensured name => exact m.length_le_ensureModule name
  | module id f => exact Nat.le_of_eq (m.length_updateModule id f).symm

theorem Changes.length_le {m m' : Machine} (h : Changes m m') :
    m.modules.length ≤ m'.modules.length := by
  induction h with
  | refl => exact Nat.le_refl _
  | tail _ hstep ih => exact Nat.le_trans ih hstep.length_le

theorem ModuleChange.name {mod mod' : Module} (h : ModuleChange mod mod') :
    mod'.name = mod.name := by
  cases h with
  | state hname => exact hname
  | _ => rfl

theorem Change.nodup_names {m m' : Machine} (h : Change m m')
    (hm : (m.modules.map (·.name)).Nodup) : (m'.modules.map (·.name)).Nodup := by
  cases h with
  | world => exact hm
  | scopes => exact hm
  | ensured name =>
    rw [Machine.ensureModule]
    split
    · exact hm
    · rename_i hnone
      have hnew : name ∉ m.modules.map (·.name) := by
        intro hmem
        obtain ⟨mod, hmod, hname⟩ := List.mem_map.1 hmem
        exact Machine.name_ne_of_moduleNamed? hnone mod hmod hname
      rw [List.map_append]
      exact List.nodup_append.2 ⟨hm, by simp, by
        intro a ha b hb hab
        rw [List.map_singleton, List.mem_singleton] at hb
        exact hnew (by rw [hab, hb] at ha; exact ha)⟩
  | module id f hf =>
    rw [Machine.names_updateModule fun mod hmod => (hf mod hmod).name]
    exact hm

theorem Changes.nodup_names {m m' : Machine} (h : Changes m m')
    (hm : (m.modules.map (·.name)).Nodup) : (m'.modules.map (·.name)).Nodup := by
  induction h with
  | refl => exact hm
  | tail _ hstep ih => exact hstep.nodup_names ih

theorem ModuleChange.sound {mod mod' : Module} (h : ModuleChange mod mod') (hmod : mod.Sound) :
    mod'.Sound := by
  cases h with
  | state _ _ hsound => exact hsound hmod
  | cleared => exact Module.sound_new rfl rfl rfl
  | erased => exact hmod
  | renumbered => exact hmod
  | loaded => exact Module.sound_new rfl rfl rfl

def Machine.Sound (m : Machine) : Prop := ∀ id, (m.moduleAt id).Sound

theorem Change.sound {m m' : Machine} (h : Change m m') (hm : m.Sound) : m'.Sound := by
  intro id
  cases h with
  | world => exact hm id
  | scopes => exact hm id
  | ensured name =>
    rcases m.moduleAt_ensureModule name id with h | ⟨-, h⟩
    · rw [h]
      exact hm id
    · rw [h]
      exact Module.sound_new rfl rfl rfl
  | module j f hf =>
    rw [Machine.moduleAt_updateModule]
    split
    · rename_i hid
      have hmod := List.getElem?_eq_getElem hid.2
      have hold := hm id
      rw [Machine.moduleAt_of_getElem? hmod] at hold ⊢
      exact (hf _ (hid.1 ▸ hmod)).sound hold
    · exact hm id

theorem Changes.sound {m m' : Machine} (h : Changes m m') (hm : m.Sound) : m'.Sound := by
  induction h with
  | refl => exact hm
  | tail _ hstep ih => exact hstep.sound ih

namespace Run

variable {α β : Type}

def final (x : Run α) (m : Machine) : Machine :=
  match x m with
  | .ok _ m => m
  | .error _ m => m

def answer (x : Run α) (m : Machine) : Except Fault α :=
  match x m with
  | .ok a _ => .ok a
  | .error f _ => .error f

theorem answer_of_outcome {x : Run α} {e : Except Fault α} {m m₁ : Machine}
    (h : x m = outcome m₁ e) : x.answer m = e ∧ x.final m = m₁ := by
  rw [answer, final, h]
  cases e <;> exact ⟨rfl, rfl⟩

theorem eq_ok_of_answer {x : Run α} {a : α} {m : Machine} (h : x.answer m = .ok a) :
    x m = .ok a (x.final m) := by
  rw [answer] at h
  rw [final]
  cases hx : x m with
  | ok b m₁ =>
    rw [hx] at h
    cases h
    rfl
  | error f m₁ =>
    rw [hx] at h
    cases h

def Confined (x : Run α) : Prop := ∀ m, Changes m (x.final m)

theorem confined_pure (a : α) : Confined (pure a : Run α) := fun _ => .refl

theorem Confined.bind {x : Run α} {f : α → Run β} (hx : Confined x) (hf : ∀ a, Confined (f a)) :
    Confined (x >>= f) := by
  intro m
  have hm := hx m
  rw [final, bind_apply]
  rw [final] at hm
  cases h : x m with
  | error e m₁ => rwa [h] at hm
  | ok a m₁ =>
    rw [h] at hm
    exact hm.trans (hf a m₁)

theorem changes_enterCode (m : Machine) : Changes m m.enterCode.2 := by
  rw [Machine.enterCode]
  split
  · rename_i id scopes _
    refine .tail (.single (.scopes m scopes)) (.module _ id _ fun _ _ => ?_)
    exact .state rfl rfl fun h => h
  · exact .single (.scopes m _)

theorem changes_endModule (m : Machine) : Changes m m.endModule := by
  rw [Machine.endModule]
  split
  · rename_i id scopes _
    refine .tail (.single (.scopes m scopes)) (.module _ id _ fun _ _ => ?_)
    exact .state rfl rfl fun h => h
  · exact .single (.scopes m _)

end Run

end LineBasic
