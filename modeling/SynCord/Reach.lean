import Mathlib.Logic.Function.Basic

/-!
# SynCord.Reach

Runs of a machine given by a partial step function `step : σ → α → Option σ`, where
`step s a = none` means that action `a` cannot be taken in `s`. A run may be restricted by a
condition `ok s a` on the state an action is taken in.

* `Reach step ok s₀ s` — `s` is reached from `s₀` by actions that all meet `ok`.
* `exec` — runs a list of actions, checking `ok` on the way; proved sound against `Reach`.
* `Reach.invariant` — the induction every safety proof goes through.
-/

namespace SynCord

variable {σ α : Type}

/-- States reached from `s₀` by actions that meet `ok` where they are taken. -/
inductive Reach (step : σ → α → Option σ) (ok : σ → α → Prop) (s₀ : σ) : σ → Prop where
  | start : Reach step ok s₀ s₀
  | next {s s' : σ} {a : α} :
      Reach step ok s₀ s → ok s a → step s a = some s' → Reach step ok s₀ s'

/-- No condition on the actions of a run. -/
def anyStep (_ : σ) (_ : α) : Prop := True

instance (s : σ) (a : α) : Decidable (anyStep s a) := inferInstanceAs (Decidable True)

namespace Reach

variable {step : σ → α → Option σ} {ok : σ → α → Prop} {s₀ s s' : σ}

theorem trans (h₁ : Reach step ok s₀ s) (h₂ : Reach step ok s s') : Reach step ok s₀ s' := by
  induction h₂ with
  | start => exact h₁
  | next _ ha hs ih => exact .next ih ha hs

/-- A property of the start that every allowed step preserves holds wherever a run gets to. -/
theorem invariant {P : σ → Prop} (h₀ : P s₀)
    (hstep : ∀ s a s', P s → ok s a → step s a = some s' → P s')
    (h : Reach step ok s₀ s) : P s := by
  induction h with
  | start => exact h₀
  | next _ ha hs ih => exact hstep _ _ _ ih ha hs

/-- A condition that follows from another one, with an invariant of the run. -/
theorem strengthen {P : σ → Prop} {ok' : σ → α → Prop} (h₀ : P s₀)
    (hstep : ∀ s a s', P s → ok s a → step s a = some s' → P s')
    (hok : ∀ s a, P s → ok s a → ok' s a) (h : Reach step ok s₀ s) : Reach step ok' s₀ s := by
  induction h with
  | start => exact .start
  | next hr ha hs ih => exact ih.next (hok _ _ (hr.invariant h₀ hstep) ha) hs

end Reach

/-- Run a list of actions; `none` when one of them breaks `ok` or cannot be taken. -/
def exec (step : σ → α → Option σ) (ok : σ → α → Prop) [∀ s a, Decidable (ok s a)] :
    σ → List α → Option σ
  | s, [] => some s
  | s, a :: as => if ok s a then (step s a).bind (exec step ok · as) else none

theorem exec_reach {step : σ → α → Option σ} {ok : σ → α → Prop} [∀ s a, Decidable (ok s a)] :
    ∀ {as : List α} {s s' : σ}, exec step ok s as = some s' → Reach step ok s s' := by
  intro as
  induction as with
  | nil => intro s s' h; simp only [exec, Option.some.injEq] at h; subst h; exact .start
  | cons a as ih =>
    intro s s' h
    simp only [exec] at h
    split at h
    · rename_i ha
      cases hs : step s a with
      | none => rw [hs] at h; cases h
      | some s₁ => rw [hs] at h; exact (Reach.next .start ha hs).trans (ih h)
    · cases h

end SynCord
