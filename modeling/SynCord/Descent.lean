import Mathlib.Data.List.Basic
import Mathlib.Data.Set.Finite.Basic
import Mathlib.Data.Fintype.EquivFin
import Mathlib.Order.WellFounded
import Mathlib.Logic.Relation
import Mathlib.Tactic.Common

/-!
# SynCord.Descent

Recursion over a graph: a call for `a` calls itself for every element of `next a`. It ends for
every depth that is enough, and it ends at all if no cycle can be reached.

* `exists_within_iff_acc` — some depth is enough exactly if `a` is accessible.
* `acc_iff_no_cycle` — in a graph with finitely many inner nodes that is: no node that is reached
  from `a` reaches itself.
-/

namespace SynCord

variable {α : Type} (next : α → List α)

/-- The recursion from here takes at most this many calls, one below the other. -/
def Within : Nat → α → Prop
  | 0, _ => False
  | n + 1, a => ∀ b ∈ next a, Within n b

/-- Calls, from the caller to the called. -/
def Edge (a b : α) : Prop := b ∈ next a

variable {next} {a b : α}

theorem Within.succ {n : Nat} (h : Within next n a) : Within next (n + 1) a := by
  induction n generalizing a with
  | zero => cases h
  | succ n ih => exact fun b hb => ih (h b hb)

theorem Within.mono {m n : Nat} (hmn : m ≤ n) (h : Within next m a) : Within next n a := by
  induction hmn with
  | refl => exact h
  | step _ ih => exact ih.succ

/-- A list of nodes has one depth that is enough for all. -/
theorem exists_within_forall {l : List α} (h : ∀ b ∈ l, ∃ n, Within next n b) :
    ∃ n, ∀ b ∈ l, Within next n b := by
  induction l with
  | nil => exact ⟨0, by simp⟩
  | cons x l ih =>
    obtain ⟨m, hm⟩ := h x (by simp)
    obtain ⟨n, hn⟩ := ih fun b hb => h b (List.mem_cons_of_mem _ hb)
    refine ⟨max m n, fun b hb => ?_⟩
    rcases List.mem_cons.1 hb with rfl | hb
    · exact hm.mono (Nat.le_max_left _ _)
    · exact (hn b hb).mono (Nat.le_max_right _ _)

theorem Within.acc {n : Nat} (h : Within next n a) : Acc (flip (Edge next)) a := by
  induction n generalizing a with
  | zero => cases h
  | succ n ih => exact ⟨a, fun b hb => ih (h b hb)⟩

theorem exists_within_iff_acc : (∃ n, Within next n a) ↔ Acc (flip (Edge next)) a := by
  constructor
  · rintro ⟨n, h⟩
    exact h.acc
  · intro h
    induction h with
    | intro a _ ih =>
      obtain ⟨n, hn⟩ := exists_within_forall ih
      exact ⟨n + 1, hn⟩

theorem not_self_of_acc {r : α → α → Prop} (h : Acc r a) : ¬ r a a := by
  induction h with
  | intro a _ ih => exact fun ha => ih a ha ha

/-- What is reached from an accessible node is accessible. -/
theorem acc_of_reached (h : Acc (flip (Edge next)) a)
    (hr : Relation.ReflTransGen (Edge next) a b) : Acc (flip (Edge next)) b := by
  induction hr with
  | refl => exact h
  | tail _ hstep ih => exact ih.inv hstep

theorem acc_iff_no_cycle (hfin : {a | next a ≠ []}.Finite) :
    Acc (flip (Edge next)) a ↔ ∀ b, Relation.ReflTransGen (Edge next) a b →
      ¬ Relation.TransGen (Edge next) b b := by
  constructor
  · intro h b hr hcyc
    have hb := (acc_of_reached h hr).transGen
    exact not_self_of_acc hb (Relation.transGen_swap.2 hcyc)
  · intro hno
    -- The inner nodes that are reached: finitely many, and no one is after itself.
    let Inner := {b // Relation.ReflTransGen (Edge next) a b ∧ next b ≠ []}
    let After (c b : Inner) : Prop := Relation.TransGen (Edge next) b.1 c.1
    have : Finite Inner := (hfin.subset fun b hb => hb.2).to_subtype
    have : IsTrans Inner After := ⟨fun _ _ _ hcb hba => hba.trans hcb⟩
    have : Std.Irrefl After := ⟨fun b => hno b.1 b.2.1⟩
    have hwf : WellFounded After := Finite.wellFounded_of_trans_of_irrefl After
    have hleaf : ∀ b, next b = [] → Acc (flip (Edge next)) b := fun b hb =>
      ⟨b, fun c hc => by
        have hc : c ∈ next b := hc
        rw [hb] at hc
        cases hc⟩
    have hinner : ∀ b : Inner, Acc (flip (Edge next)) b.1 := by
      intro b
      induction b using hwf.induction with
      | _ b ih =>
        refine ⟨b.1, fun c hc => ?_⟩
        by_cases hl : next c = []
        · exact hleaf c hl
        · exact ih ⟨c, b.2.1.tail hc, hl⟩ (.single hc)
    by_cases hl : next a = []
    · exact hleaf a hl
    · exact hinner ⟨a, .refl, hl⟩

end SynCord
