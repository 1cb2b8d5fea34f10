import Mathlib.Data.List.Nodup
import Mathlib.Logic.Function.Basic

/-!
# SynCord.Ledger

Bookkeeping of tokens that are handed out and given back by threads. A token is `live` from the
moment it is created until it is destroyed. In between it is either `held` by the outside world or
in the hands of exactly one thread, the one that is handing it out or taking it back (`busy`).

The five operations below are all that can happen to a token; each keeps `Ledger`.
-/

namespace SynCord

variable {ρ τ : Type}

structure Ledger (live held : List ρ) (busy : τ → Option ρ) : Prop where
  nodup : live.Nodup
  held_nodup : held.Nodup
  held_live : ∀ r ∈ held, r ∈ live
  busy_live : ∀ t r, busy t = some r → r ∈ live
  busy_held : ∀ t r, busy t = some r → r ∉ held
  busy_inj : ∀ t u r, busy t = some r → busy u = some r → t = u
  cover : ∀ r ∈ live, r ∈ held ∨ ∃ t, busy t = some r

namespace Ledger

theorem empty : Ledger ([] : List ρ) [] (fun _ : τ => none) := by
  constructor <;> simp

variable {live held : List ρ} {busy : τ → Option ρ} {r : ρ} {t : τ}

/-- A new token goes straight to the outside. -/
theorem grant (h : Ledger live held busy) (hr : r ∉ live) :
    Ledger (r :: live) (r :: held) busy where
  nodup := List.nodup_cons.2 ⟨hr, h.nodup⟩
  held_nodup := List.nodup_cons.2 ⟨fun hm => hr (h.held_live r hm), h.held_nodup⟩
  held_live := by
    intro q hq
    rcases List.mem_cons.1 hq with rfl | hq
    · exact List.mem_cons_self
    · exact List.mem_cons_of_mem _ (h.held_live q hq)
  busy_live := fun u q hu => List.mem_cons_of_mem _ (h.busy_live u q hu)
  busy_held := by
    intro u q hu hq
    rcases List.mem_cons.1 hq with rfl | hq
    · exact hr (h.busy_live u q hu)
    · exact h.busy_held u q hu hq
  busy_inj := h.busy_inj
  cover := by
    intro q hq
    rcases List.mem_cons.1 hq with rfl | hq
    · exact .inl List.mem_cons_self
    · exact (h.cover q hq).imp_left (List.mem_cons_of_mem _)

variable [DecidableEq τ]

theorem update_eq_some {o : Option ρ} {u : τ} {q : ρ} :
    Function.update busy t o u = some q ↔ u = t ∧ o = some q ∨ u ≠ t ∧ busy u = some q := by
  by_cases h : u = t <;> simp [h]

/-- A thread makes a new token and keeps it for now. -/
theorem make (h : Ledger live held busy) (hr : r ∉ live) (ht : busy t = none) :
    Ledger (r :: live) held (Function.update busy t (some r)) where
  nodup := List.nodup_cons.2 ⟨hr, h.nodup⟩
  held_nodup := h.held_nodup
  held_live := fun q hq => List.mem_cons_of_mem _ (h.held_live q hq)
  busy_live := by
    intro u q hu
    rcases update_eq_some.1 hu with ⟨rfl, hq⟩ | ⟨_, hu⟩
    · cases hq; exact List.mem_cons_self
    · exact List.mem_cons_of_mem _ (h.busy_live u q hu)
  busy_held := by
    intro u q hu hm
    rcases update_eq_some.1 hu with ⟨rfl, hq⟩ | ⟨_, hu⟩
    · cases hq; exact hr (h.held_live _ hm)
    · exact h.busy_held u q hu hm
  busy_inj := by
    intro u v q hu hv
    rcases update_eq_some.1 hu with ⟨rfl, hq⟩ | ⟨_, hu'⟩ <;>
      rcases update_eq_some.1 hv with ⟨rfl, hq⟩ | ⟨_, hv'⟩
    · rfl
    · cases hq; exact absurd (h.busy_live v _ hv') hr
    · cases hq; exact absurd (h.busy_live u _ hu') hr
    · exact h.busy_inj u v q hu' hv'
  cover := by
    intro q hq
    rcases List.mem_cons.1 hq with rfl | hq
    · exact .inr ⟨t, by simp⟩
    · refine (h.cover q hq).imp_right ?_
      rintro ⟨u, hu⟩
      have hut : u ≠ t := by rintro rfl; rw [ht] at hu; cases hu
      exact ⟨u, update_eq_some.2 (.inr ⟨hut, hu⟩)⟩

/-- A thread lets go of its token to the outside. -/
theorem settle (h : Ledger live held busy) (ht : busy t = some r) :
    Ledger live (r :: held) (Function.update busy t none) where
  nodup := h.nodup
  held_nodup := List.nodup_cons.2 ⟨h.busy_held t r ht, h.held_nodup⟩
  held_live := by
    intro q hq
    rcases List.mem_cons.1 hq with rfl | hq
    · exact h.busy_live t _ ht
    · exact h.held_live q hq
  busy_live := by
    intro u q hu
    rcases update_eq_some.1 hu with ⟨_, hq⟩ | ⟨_, hu⟩
    · cases hq
    · exact h.busy_live u q hu
  busy_held := by
    intro u q hu hm
    rcases update_eq_some.1 hu with ⟨_, hq⟩ | ⟨hut, hu⟩
    · cases hq
    · rcases List.mem_cons.1 hm with rfl | hm
      · exact hut (h.busy_inj u t _ hu ht)
      · exact h.busy_held u q hu hm
  busy_inj := by
    intro u v q hu hv
    rcases update_eq_some.1 hu with ⟨_, hq⟩ | ⟨_, hu⟩
    · cases hq
    rcases update_eq_some.1 hv with ⟨_, hq⟩ | ⟨_, hv⟩
    · cases hq
    exact h.busy_inj u v q hu hv
  cover := by
    intro q hq
    by_cases hqr : q = r
    · subst hqr; exact .inl List.mem_cons_self
    · rcases h.cover q hq with hh | ⟨u, hu⟩
      · exact .inl (List.mem_cons_of_mem _ hh)
      · have hut : u ≠ t := by rintro rfl; rw [ht] at hu; cases hu; exact hqr rfl
        exact .inr ⟨u, update_eq_some.2 (.inr ⟨hut, hu⟩)⟩

variable [DecidableEq ρ]

/-- A thread takes a token back from the outside. -/
theorem reclaim (h : Ledger live held busy) (hr : r ∈ held) (ht : busy t = none) :
    Ledger live (held.erase r) (Function.update busy t (some r)) where
  nodup := h.nodup
  held_nodup := h.held_nodup.erase r
  held_live := fun q hq => h.held_live q (List.mem_of_mem_erase hq)
  busy_live := by
    intro u q hu
    rcases update_eq_some.1 hu with ⟨rfl, hq⟩ | ⟨_, hu⟩
    · cases hq; exact h.held_live _ hr
    · exact h.busy_live u q hu
  busy_held := by
    intro u q hu hm
    rcases update_eq_some.1 hu with ⟨rfl, hq⟩ | ⟨_, hu⟩
    · cases hq; exact h.held_nodup.not_mem_erase hm
    · exact h.busy_held u q hu (List.mem_of_mem_erase hm)
  busy_inj := by
    intro u v q hu hv
    rcases update_eq_some.1 hu with ⟨rfl, hq⟩ | ⟨_, hu'⟩ <;>
      rcases update_eq_some.1 hv with ⟨rfl, hq⟩ | ⟨_, hv'⟩
    · rfl
    · cases hq; exact absurd hr (h.busy_held v _ hv')
    · cases hq; exact absurd hr (h.busy_held u _ hu')
    · exact h.busy_inj u v q hu' hv'
  cover := by
    intro q hq
    by_cases hqr : q = r
    · subst hqr; exact .inr ⟨t, by simp⟩
    · rcases h.cover q hq with hh | ⟨u, hu⟩
      · exact .inl ((List.mem_erase_of_ne hqr).2 hh)
      · have hut : u ≠ t := by rintro rfl; rw [ht] at hu; cases hu
        exact .inr ⟨u, update_eq_some.2 (.inr ⟨hut, hu⟩)⟩

/-- A thread destroys its token. -/
theorem close (h : Ledger live held busy) (ht : busy t = some r) :
    Ledger (live.erase r) held (Function.update busy t none) where
  nodup := h.nodup.erase r
  held_nodup := h.held_nodup
  held_live := by
    intro q hq
    have hqr : q ≠ r := by rintro rfl; exact h.busy_held t _ ht hq
    exact (List.mem_erase_of_ne hqr).2 (h.held_live q hq)
  busy_live := by
    intro u q hu
    rcases update_eq_some.1 hu with ⟨_, hq⟩ | ⟨hut, hu⟩
    · cases hq
    · have hqr : q ≠ r := by rintro rfl; exact hut (h.busy_inj u t _ hu ht)
      exact (List.mem_erase_of_ne hqr).2 (h.busy_live u q hu)
  busy_held := by
    intro u q hu
    rcases update_eq_some.1 hu with ⟨_, hq⟩ | ⟨_, hu⟩
    · cases hq
    · exact h.busy_held u q hu
  busy_inj := by
    intro u v q hu hv
    rcases update_eq_some.1 hu with ⟨_, hq⟩ | ⟨_, hu⟩
    · cases hq
    rcases update_eq_some.1 hv with ⟨_, hq⟩ | ⟨_, hv⟩
    · cases hq
    exact h.busy_inj u v q hu hv
  cover := by
    intro q hq
    have hqr : q ≠ r := by rintro rfl; exact h.nodup.not_mem_erase hq
    rcases h.cover q (List.mem_of_mem_erase hq) with hh | ⟨u, hu⟩
    · exact .inl hh
    · have hut : u ≠ t := by rintro rfl; rw [ht] at hu; cases hu; exact hqr rfl
      exact .inr ⟨u, update_eq_some.2 (.inr ⟨hut, hu⟩)⟩

end Ledger

end SynCord
