import Mathlib.Data.Fintype.Card
import Mathlib.Algebra.BigOperators.Group.Finset.Piecewise

/-!
# SynCord.Writes

A finite table under writes, and how many of its entries have a property before and after.

* `card_filter_update` — after one write.
* `card_filter_writes` — after a list of writes to different places.
-/

namespace SynCord

variable {α β : Type} [DecidableEq α]

/-- The table after the writes, the first of the list first. -/
def writes : (α → β) → List (α × β) → α → β
  | f, [] => f
  | f, w :: ws => writes (Function.update f w.1 w.2) ws

variable [Fintype α] (P : β → Prop) [DecidablePred P]

theorem card_filter_update (f : α → β) (a : α) (v : β) :
    (Finset.univ.filter fun x => P (Function.update f a v x)).card + (if P (f a) then 1 else 0) =
      (Finset.univ.filter fun x => P (f x)).card + if P v then 1 else 0 := by
  have split (g : α → β) : (Finset.univ.filter fun x => P (g x)).card =
      (if P (g a) then 1 else 0) + ∑ x ∈ Finset.univ.erase a, if P (g x) then 1 else 0 := by
    rw [Finset.card_filter]
    exact (Finset.add_sum_erase _ (fun x => if P (g x) then 1 else 0) (Finset.mem_univ a)).symm
  have rest : (∑ x ∈ Finset.univ.erase a, if P (Function.update f a v x) then 1 else 0) =
      ∑ x ∈ Finset.univ.erase a, if P (f x) then 1 else 0 := by
    refine Finset.sum_congr rfl fun x hx => ?_
    rw [Function.update_of_ne (Finset.ne_of_mem_erase hx)]
  rw [split, split f, rest, Function.update_self]
  omega

/-- What was overwritten has to be added on the other side. -/
theorem card_filter_writes {ws : List (α × β)} (hn : (ws.map Prod.fst).Nodup) (f : α → β) :
    (Finset.univ.filter fun x => P (writes f ws x)).card + ws.countP (fun w => P (f w.1)) =
      (Finset.univ.filter fun x => P (f x)).card + ws.countP (fun w => P w.2) := by
  induction ws generalizing f with
  | nil => rfl
  | cons w ws ih =>
    rw [List.map_cons, List.nodup_cons] at hn
    have hrest := ih hn.2 (Function.update f w.1 w.2)
    -- the later writes go to other places
    have hsame : ws.countP (fun x => P (Function.update f w.1 w.2 x.1)) =
        ws.countP fun x => P (f x.1) := by
      refine List.countP_congr fun x hx => ?_
      have hne : x.1 ≠ w.1 := fun e => hn.1 (e ▸ List.mem_map_of_mem hx)
      rw [Function.update_of_ne hne]
    have hone := card_filter_update P f w.1 w.2
    rw [hsame] at hrest
    change (Finset.univ.filter fun x => P (writes (Function.update f w.1 w.2) ws x)).card + _ = _
    simp only [List.countP_cons, decide_eq_true_eq]
    omega

end SynCord
