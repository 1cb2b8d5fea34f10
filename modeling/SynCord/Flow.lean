import Mathlib.Data.List.Basic
import Mathlib.Tactic.Common

/-!
# SynCord.Flow

Routines as graphs of blocks. A path is the list of the choices that are made: which way a branch
goes, and what code that is not known does and where it goes on. `walk` follows a path through the
blocks; what happens on the way is told by the blocks that are visited.

* `walk_fits` — a state that is known at every block, and that every block and every piece of
  unknown code leads on as it should, is known after every path.
* `flatMap_eq_iff` — two versions do the same on a walk exactly if they do on every visit, where
  the one never does less than the other.
-/

namespace SynCord
namespace Flow

variable {ρ ο ε σ : Type}

/-- Where unknown code goes on: at a block, or back to the caller. -/
inductive Exit where
  | block (k : Nat)
  | leave
  deriving DecidableEq

/-- The end of a block. -/
inductive Control (ρ : Type) where
  | jump (k : Nat)
  | branch (yes no : Nat)
  /-- Call `g` and go on at `k`. -/
  | call (g : ρ) (k : Nat)
  | ret
  /-- Code that is not known. It goes on at one of the exits. -/
  | hidden (exits : List Exit)
  deriving DecidableEq

/-- What is chosen at the end of a block. -/
inductive Choice (ο : Type) where
  | go
  | branch (yes : Bool)
  | hidden (ops : List ο) (exit : Exit)

/-- The routines that are active, the innermost one first, each with the block where it goes on. -/
abbrev Frames (ρ : Type) := List (ρ × Nat)

inductive Visit (ρ ο : Type) where
  | block (r : ρ) (k : Nat)
  | hidden (r : ρ) (k : Nat) (ops : List ο) (exit : Exit)

def Exit.frames (r : ρ) (rest : Frames ρ) : Exit → Frames ρ
  | .block k => (r, k) :: rest
  | .leave => rest

/-- The end of block `k` of `r`. There is no result for a choice that is not one of this block. -/
def follow (r : ρ) (k : Nat) (rest : Frames ρ) :
    Control ρ → Choice ο → Option (List (Visit ρ ο) × Frames ρ)
  | .jump k', .go => some ([], (r, k') :: rest)
  | .branch yes no, .branch b => some ([], (r, if b then yes else no) :: rest)
  | .call g k', .go => some ([], (g, 0) :: (r, k') :: rest)
  | .ret, .go => some ([], rest)
  | .hidden exits, .hidden ops exit =>
    if exit ∈ exits then some ([.hidden r k ops exit], exit.frames r rest) else none
  | _, _ => none

/-- The visits along a path and the routines that are active at its end. -/
def walk (shape : ρ → List (Control ρ)) :
    Frames ρ → List (Choice ο) → List (Visit ρ ο) × Frames ρ
  | frames, [] => ([], frames)
  | [], _ :: _ => ([], [])
  | (r, k) :: rest, c :: path =>
    match (shape r)[k]?.bind (follow r k rest · c) with
    | none => ([], (r, k) :: rest)
    | some (visits, frames) =>
      (.block r k :: visits ++ (walk shape frames path).1, (walk shape frames path).2)

/-! ## A state that is known at every block -/

section Fits

variable (here : ρ → Nat → σ) (exit : ρ → σ)

/-- The state is the one of the innermost block, and every routine ends in the state in which its
caller goes on. -/
def Fits (final : σ) : σ → Frames ρ → Prop
  | s, [] => s = final
  | s, (r, k) :: rest => s = here r k ∧ Fits final (exit r) rest

/-- The state where unknown code goes on. -/
def exitState (r : ρ) : Exit → σ
  | .block k => here r k
  | .leave => exit r

/-- The end of a block is right for the state `s`. Unknown code is free. -/
def Leads (r : ρ) (s : σ) : Control ρ → Prop
  | .jump k => s = here r k
  | .branch yes no => s = here r yes ∧ s = here r no
  | .call g k => s = here g 0 ∧ exit g = here r k
  | .ret => s = exit r
  | .hidden _ => True

instance [DecidableEq σ] (r : ρ) (s : σ) : DecidablePred (Leads here exit r s)
  | .jump _ => inferInstanceAs (Decidable (_ = _))
  | .branch _ _ => inferInstanceAs (Decidable (_ ∧ _))
  | .call _ _ => inferInstanceAs (Decidable (_ ∧ _))
  | .ret => inferInstanceAs (Decidable (_ = _))
  | .hidden _ => inferInstanceAs (Decidable True)

variable {here exit} (run : σ → ε → Option σ) (emit : Visit ρ ο → List ε)

/-- The state after a block. -/
def Runs (s : σ) (v : Visit ρ ο) (s' : σ) : Prop := (emit v).foldlM run s = some s'

variable (here exit) (after : ρ → Nat → σ)

/-- Unknown code brings about the state that is expected where it goes on. -/
def Tidy : Visit ρ ο → Prop
  | .block _ _ => True
  | .hidden r k ops e => Runs run emit (after r k) (.hidden r k ops e) (exitState here exit r e)

variable {here exit after run emit} {shape : ρ → List (Control ρ)}

theorem foldlM_visits {s s' : σ} {v : Visit ρ ο} {visits : List (Visit ρ ο)}
    (h : Runs run emit s v s') :
    ((v :: visits).flatMap emit).foldlM run s = (visits.flatMap emit).foldlM run s' := by
  rw [List.flatMap_cons, List.foldlM_append, show (emit v).foldlM run s = some s' from h]
  rfl

theorem follow_fits {r : ρ} {k : Nat} {rest frames : Frames ρ} {final : σ} {ctl : Control ρ}
    {c : Choice ο} {visits : List (Visit ρ ο)} (h : follow r k rest ctl c = some (visits, frames))
    (hlead : Leads here exit r (after r k) ctl) (hrest : Fits here exit final (exit r) rest)
    (htidy : ∀ v ∈ visits, Tidy here exit run emit after v) :
    ∃ s, (visits.flatMap emit).foldlM run (after r k) = some s ∧ Fits here exit final s frames := by
  match ctl, c with
  | .jump k', .go =>
    cases h
    exact ⟨_, rfl, hlead, hrest⟩
  | .branch yes no, .branch true =>
    cases h
    exact ⟨_, rfl, hlead.1, hrest⟩
  | .branch yes no, .branch false =>
    cases h
    exact ⟨_, rfl, hlead.2, hrest⟩
  | .call g k', .go =>
    cases h
    exact ⟨_, rfl, hlead.1, hlead.2, hrest⟩
  | .ret, .go =>
    cases h
    have hlead : after r k = exit r := hlead
    exact ⟨_, rfl, hlead ▸ hrest⟩
  | .hidden exits, .hidden ops e =>
    rw [follow] at h
    split at h
    · cases h
      have hrun : Runs run emit (after r k) (.hidden r k ops e) (exitState here exit r e) :=
        htidy _ (List.mem_singleton.2 rfl)
      refine ⟨_, (foldlM_visits hrun).trans rfl, ?_⟩
      cases e with
      | block k' => exact ⟨rfl, hrest⟩
      | leave => exact hrest
    · cases h

/-- The induction is on the path, one choice for every block. -/
theorem walk_fits (hrun : ∀ r k, k < (shape r).length →
      Runs run emit (here r k) (Visit.block r k : Visit ρ ο) (after r k))
    (hlead : ∀ r k (hk : k < (shape r).length), Leads here exit r (after r k) (shape r)[k])
    {final s : σ} {frames : Frames ρ} (path : List (Choice ο)) (h : Fits here exit final s frames)
    (htidy : ∀ v ∈ (walk shape frames path).1, Tidy here exit run emit after v) :
    ∃ s', ((walk shape frames path).1.flatMap emit).foldlM run s = some s' ∧
      Fits here exit final s' (walk shape frames path).2 := by
  induction path generalizing s frames with
  | nil =>
    rw [walk.eq_1]
    exact ⟨s, rfl, h⟩
  | cons c path ih =>
    match frames with
    | [] => exact ⟨s, rfl, h⟩
    | (r, k) :: rest =>
      obtain ⟨rfl, hrest⟩ := h
      rw [walk] at htidy ⊢
      cases hf : (shape r)[k]?.bind (follow r k rest · c) with
      | none => exact ⟨_, rfl, rfl, hrest⟩
      | some next =>
        obtain ⟨visits, frames⟩ := next
        obtain ⟨ctl, hctl, hfollow⟩ := Option.bind_eq_some_iff.1 hf
        rw [hf] at htidy
        obtain ⟨hk, rfl⟩ := List.getElem?_eq_some_iff.1 hctl
        obtain ⟨s₁, hs₁, hfits⟩ := follow_fits hfollow (hlead r k hk) hrest fun v hv =>
          htidy v (List.mem_append_left _ (List.mem_cons_of_mem _ hv))
        obtain ⟨s₂, hs₂, hfits₂⟩ := ih hfits fun v hv => htidy v (List.mem_append_right _ hv)
        refine ⟨s₂, ?_, hfits₂⟩
        dsimp only
        rw [List.cons_append, foldlM_visits (hrun r k hk), List.flatMap_append,
          List.foldlM_append, hs₁]
        exact hs₂

end Fits

/-! ## Two versions -/

theorem flatMap_eq_iff {α : Type} {f g : α → List ε}
    (hlen : ∀ a, f a = g a ∨ (g a).length < (f a).length) {l : List α} :
    l.flatMap f = l.flatMap g ↔ ∀ a ∈ l, f a = g a := by
  have hle : ∀ l : List α, (l.flatMap g).length ≤ (l.flatMap f).length := by
    intro l
    induction l with
    | nil => exact Nat.le_refl _
    | cons a l ih =>
      rw [List.flatMap_cons, List.flatMap_cons, List.length_append, List.length_append]
      rcases hlen a with h | h
      · rw [h]
        omega
      · omega
  constructor
  · intro h
    induction l with
    | nil => simp
    | cons a l ih =>
      rw [List.flatMap_cons, List.flatMap_cons] at h
      have ha : f a = g a := by
        refine (hlen a).resolve_right fun hlt => ?_
        have := congrArg List.length h
        rw [List.length_append, List.length_append] at this
        have := hle l
        omega
      rw [ha] at h
      exact List.forall_mem_cons.2 ⟨ha, ih (List.append_cancel_left h)⟩
  · intro h
    exact List.flatMap_congr h

end Flow
end SynCord
