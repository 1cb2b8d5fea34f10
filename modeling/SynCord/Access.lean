import Mathlib.Data.Set.Basic
import Mathlib.Logic.Function.Basic

/-!
# SynCord.Access

Code that makes one access to shared memory at a time, so that others can come in between.

* `exec` — a run without others, `access` — the next access.
* `Uses S` — all accesses are to cells of `S`; `exec_congr` and `exec_frame` say that such code
  depends on these cells only, and changes no other.
-/

namespace SynCord

inductive Code (α β : Type) where
  | ret
  | load (a : α) (k : β → Code α β)
  | store (a : α) (v : β) (k : Code α β)

namespace Code

variable {α β : Type}

/-- First `k`, then `l`. -/
def seq (k l : Code α β) : Code α β :=
  match k with
  | ret => l
  | load a k => load a fun v => (k v).seq l
  | store a v k => store a v (k.seq l)

/-- All accesses are to cells of `S`. -/
def Uses (S : Set α) : Code α β → Prop
  | ret => True
  | load a k => a ∈ S ∧ ∀ v, (k v).Uses S
  | store a _ k => a ∈ S ∧ k.Uses S

theorem Uses.seq {S : Set α} {k l : Code α β} (hk : k.Uses S) (hl : l.Uses S) :
    (k.seq l).Uses S := by
  induction k with
  | ret => exact hl
  | load a k ih => exact ⟨hk.1, fun v => ih v (hk.2 v)⟩
  | store a v k ih => exact ⟨hk.1, ih hk.2⟩

theorem Uses.ite {S : Set α} {k l : Code α β} {p : Prop} [Decidable p] (hk : k.Uses S)
    (hl : l.Uses S) : (if p then k else l).Uses S := by
  split
  · exact hk
  · exact hl

variable [DecidableEq α]

def exec : Code α β → (α → β) → α → β
  | ret, m => m
  | load a k, m => (k (m a)).exec m
  | store a v k, m => k.exec (Function.update m a v)

/-- The next access: what is left of the code, and the memory after it. -/
def access : Code α β → (α → β) → Option (Code α β × (α → β))
  | ret, _ => none
  | load a k, m => some (k (m a), m)
  | store a v k, m => some (k, Function.update m a v)

variable {S : Set α} {k k' : Code α β} {m m' : α → β}

@[simp] theorem exec_seq (k l : Code α β) (m : α → β) :
    (k.seq l).exec m = l.exec (k.exec m) := by
  induction k generalizing m with
  | ret => rfl
  | load a k ih => exact ih (m a) m
  | store a v k ih => exact ih (Function.update m a v)

theorem exec_access (h : k.access m = some (k', m')) : k'.exec m' = k.exec m := by
  cases k with
  | ret => cases h
  | load a k => cases h; rfl
  | store a v k => cases h; rfl

theorem Uses.access (hk : k.Uses S) (h : k.access m = some (k', m')) : k'.Uses S := by
  cases k with
  | ret => cases h
  | load a k => cases h; exact hk.2 _
  | store a v k => cases h; exact hk.2

theorem access_frame (hk : k.Uses S) (h : k.access m = some (k', m')) {a : α} (ha : a ∉ S) :
    m' a = m a := by
  cases k with
  | ret => cases h
  | load b k => cases h; rfl
  | store b v k =>
    cases h
    have hab : a ≠ b := fun hab => ha (hab ▸ hk.1)
    exact Function.update_of_ne hab _ _

theorem exec_frame (hk : k.Uses S) {a : α} (ha : a ∉ S) (m : α → β) : k.exec m a = m a := by
  induction k generalizing m with
  | ret => rfl
  | load b k ih => exact ih (m b) (hk.2 _) m
  | store b v k ih =>
    have hab : a ≠ b := fun hab => ha (hab ▸ hk.1)
    rw [exec, ih hk.2, Function.update_of_ne hab]

theorem exec_congr (hk : k.Uses S) (h : ∀ a ∈ S, m a = m' a) :
    ∀ a ∈ S, k.exec m a = k.exec m' a := by
  induction k generalizing m m' with
  | ret => exact h
  | load b k ih =>
    rw [exec, exec, h b hk.1]
    exact ih _ (hk.2 _) h
  | store b v k ih =>
    refine ih hk.2 fun a ha => ?_
    by_cases hab : a = b
    · rw [hab, Function.update_self, Function.update_self]
    · rw [Function.update_of_ne hab, Function.update_of_ne hab, h a ha]

end Code
end SynCord
