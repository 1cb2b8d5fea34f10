import Mathlib.Logic.Function.Basic

/-!
# SynCord.Shadow

Shadow variables of the livepatch API: records that are attached to kernel objects from the outside
and found again by the object's address and a number. There is at most one record for an object and
a number, and a new one comes zeroed.
-/

namespace SynCord

/-- A store of shadow records `ρ` for objects `κ`. -/
def Shadow (κ ρ : Type) : Type := κ → Nat → Option ρ

namespace Shadow

variable {κ ρ : Type}

def empty : Shadow κ ρ := fun _ _ => none

/-- `klp_shadow_get`, with `none` for NULL. -/
def get (s : Shadow κ ρ) (obj : κ) (id : Nat) : Option ρ := s obj id

/-- A write through the pointer that `get` or `alloc` returned. -/
def set [DecidableEq κ] (s : Shadow κ ρ) (obj : κ) (id : Nat) (r : ρ) : Shadow κ ρ :=
  fun x i => if x = obj ∧ i = id then some r else s x i

/-- `klp_shadow_alloc` where there is no record yet: a new one, zeroed. -/
def alloc [DecidableEq κ] (s : Shadow κ ρ) (obj : κ) (id : Nat) (zero : ρ) : Shadow κ ρ × ρ :=
  (s.set obj id zero, zero)

/-- `klp_shadow_get_or_alloc` -/
def getOrAlloc [DecidableEq κ] (s : Shadow κ ρ) (obj : κ) (id : Nat) (zero : ρ) :
    Shadow κ ρ × ρ :=
  match s.get obj id with
  | some r => (s, r)
  | none => s.alloc obj id zero

/-- `klp_shadow_free_all` -/
def freeAll (s : Shadow κ ρ) (id : Nat) : Shadow κ ρ :=
  fun obj i => if i = id then none else s obj i

@[simp] theorem get_empty (obj : κ) (id : Nat) : (empty : Shadow κ ρ).get obj id = none := rfl

variable [DecidableEq κ]

theorem get_set (s : Shadow κ ρ) (obj x : κ) (id : Nat) (r : ρ) :
    (s.set obj id r).get x id = if x = obj then some r else s.get x id := by
  simp [get, set]

theorem getOrAlloc_snd (s : Shadow κ ρ) (obj : κ) (id : Nat) (zero : ρ) :
    (s.getOrAlloc obj id zero).2 = (s.get obj id).getD zero := by
  unfold getOrAlloc
  cases h : s.get obj id <;> rfl

/-- Whether a record is new does not show in what is read from it. -/
theorem getD_getOrAlloc (s : Shadow κ ρ) (obj x : κ) (id : Nat) (zero : ρ) :
    ((s.getOrAlloc obj id zero).1.get x id).getD zero = (s.get x id).getD zero := by
  unfold getOrAlloc
  cases h : s.get obj id with
  | some r => rfl
  | none =>
    simp only [alloc, get_set]
    split
    · rename_i hx; rw [hx, h]; rfl
    · rfl

end Shadow

end SynCord
