import SynCord.Reach
import Mathlib.Algebra.BigOperators.Group.Finset.Basic

/-!
# SynCord.Trace

Runs together with what is seen of them, and two ways to argue about a run as a whole.

* `Trace step ok obs s₀ l s` — a run from `s₀` to `s` of which `l` is seen.
* `exec_trace` — a list of actions that can be run, with what is seen of it.
* `Trace.simulates` — if every step is seen as a step of another machine, or not seen at all, what
  is seen of a run is a run of that machine.
* `drains` — if every step uses up some of a measure, and a state where nothing can be done is as it
  should be, then all runs come to such a state. A measure that is a sum over threads changes by
  what the one that steps does (`sum_frame`).
-/

namespace SynCord

variable {σ τ α β : Type}

/-- Runs from `s₀` by actions that meet `ok`. A step may be seen, as `obs` tells. -/
inductive Trace (step : σ → α → Option σ) (ok : σ → α → Prop) (obs : σ → α → Option β) (s₀ : σ) :
    List β → σ → Prop where
  | start : Trace step ok obs s₀ [] s₀
  | next {l : List β} {s s' : σ} {a : α} : Trace step ok obs s₀ l s → ok s a →
      step s a = some s' → Trace step ok obs s₀ (l ++ (obs s a).toList) s'

/-- What a step is seen as: nothing happens, or the operation is done. -/
def Seen (op : τ → β → Option τ) (x : τ) : Option β → τ → Prop
  | none, y => y = x
  | some b, y => op x b = some y

theorem exec_append {op : τ → β → Option τ} (l m : List β) (x : τ) :
    exec op anyStep x (l ++ m) = (exec op anyStep x l).bind (exec op anyStep · m) := by
  induction l generalizing x with
  | nil => rfl
  | cons b l ih =>
    simp only [List.cons_append, exec]
    cases op x b with
    | none => simp
    | some y => simpa [anyStep] using ih y

theorem Seen.exec {op : τ → β → Option τ} {x y : τ} {o : Option β} (h : Seen op x o y) :
    exec op anyStep x o.toList = some y := by
  cases o with
  | none =>
    have h : y = x := h
    simp [SynCord.exec, h]
  | some b =>
    have h : op x b = some y := h
    simp [SynCord.exec, h, anyStep]

namespace Trace

variable {step : σ → α → Option σ} {ok : σ → α → Prop} {obs : σ → α → Option β} {s₀ s : σ}
  {l : List β}

theorem reach (h : Trace step ok obs s₀ l s) : Reach step ok s₀ s := by
  induction h with
  | start => exact .start
  | next _ ha hs ih => exact ih.next ha hs

theorem trans {s' : σ} {m : List β} (h₁ : Trace step ok obs s₀ l s)
    (h₂ : Trace step ok obs s m s') : Trace step ok obs s₀ (l ++ m) s' := by
  induction h₂ with
  | start => rwa [List.append_nil]
  | next _ ha hs ih =>
    rw [← List.append_assoc]
    exact ih.next ha hs

theorem strengthen {P : σ → Prop} {ok' : σ → α → Prop} (h₀ : P s₀)
    (hstep : ∀ s a s', P s → ok s a → step s a = some s' → P s')
    (hok : ∀ s a, P s → ok s a → ok' s a) (h : Trace step ok obs s₀ l s) :
    Trace step ok' obs s₀ l s := by
  induction h with
  | start => exact .start
  | next ht ha hs ih => exact ih.next (hok _ _ (ht.reach.invariant h₀ hstep) ha) hs

theorem simulates {I : σ → Prop} {op : τ → β → Option τ} (view : σ → τ) (h₀ : I s₀)
    (hI : ∀ s a s', I s → ok s a → step s a = some s' → I s')
    (hop : ∀ s a s', I s → ok s a → step s a = some s' → Seen op (view s) (obs s a) (view s'))
    (h : Trace step ok obs s₀ l s) : exec op anyStep (view s₀) l = some (view s) := by
  induction h with
  | start => rfl
  | @next l s s' a ht ha hs ih =>
    rw [exec_append, ih]
    exact (hop s a s' (ht.reach.invariant h₀ hI) ha hs).exec

end Trace

/-- What is seen of a list of actions, up to one that cannot be taken. -/
def observed (step : σ → α → Option σ) (obs : σ → α → Option β) : σ → List α → List β
  | _, [] => []
  | s, a :: as =>
    match step s a with
    | none => []
    | some s' => (obs s a).toList ++ observed step obs s' as

theorem exec_trace {step : σ → α → Option σ} {ok : σ → α → Prop} [∀ s a, Decidable (ok s a)]
    (obs : σ → α → Option β) : ∀ {as : List α} {s s' : σ}, exec step ok s as = some s' →
      Trace step ok obs s (observed step obs s as) s' := by
  intro as
  induction as with
  | nil =>
    intro s s' h
    cases h
    exact .start
  | cons a as ih =>
    intro s s' h
    simp only [exec] at h
    split at h
    · rename_i ha
      cases hs : step s a with
      | none => rw [hs] at h; cases h
      | some s₁ =>
        rw [hs] at h
        have hfirst : Trace step ok obs s ([] ++ (obs s a).toList) s₁ := Trace.start.next ha hs
        simp only [observed, hs]
        exact hfirst.trans (ih h)
    · cases h

/-- All runs of `step` under `ok` from `s` are bounded, and where one cannot go on `Done` holds. -/
def Drains (step : σ → α → Option σ) (ok : σ → α → Prop) (Done : σ → Prop) (s : σ) : Prop :=
  ∃ bound, ∀ l s', Trace step ok (fun _ a => some a) s l s' →
    l.length ≤ bound ∧ ((∀ a, ok s' a → step s' a = none) → Done s')

/-- A measure goes down with every step. -/
theorem drains {step : σ → α → Option σ} {ok : σ → α → Prop} {Done I : σ → Prop} {s : σ}
    (μ : σ → Nat) (h₀ : I s)
    (hstep : ∀ s a s', I s → ok s a → step s a = some s' → I s' ∧ μ s' < μ s)
    (hdone : ∀ s, I s → (∀ a, ok s a → step s a = none) → Done s) : Drains step ok Done s := by
  have hI := fun s a s' hi ha hst => (hstep s a s' hi ha hst).1
  refine ⟨μ s, fun l s' ht => ⟨?_, hdone s' (ht.reach.invariant h₀ hI)⟩⟩
  have hle : l.length + μ s' ≤ μ s := by
    induction ht with
    | start => simp
    | @next l s s' a ht ha hs ih =>
      have hlt := (hstep s a s' (ht.reach.invariant h₀ hI) ha hs).2
      simp only [Option.toList_some, List.length_append, List.length_singleton]
      omega
  omega

/-- A sum of which one term changes. -/
theorem sum_frame {ι : Type} [DecidableEq ι] {F : Finset ι} {i : ι} (hi : i ∈ F) {f g : ι → Nat}
    (h : ∀ j, j ≠ i → g j = f j) : ∑ j ∈ F, g j + f i = ∑ j ∈ F, f j + g i := by
  have hrest : ∑ j ∈ F.erase i, g j = ∑ j ∈ F.erase i, f j :=
    Finset.sum_congr rfl fun j hj => h j (Finset.ne_of_mem_erase hj)
  have hg := Finset.add_sum_erase F g hi
  have hf := Finset.add_sum_erase F f hi
  omega

end SynCord
