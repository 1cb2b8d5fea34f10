import Mathlib.Tactic.Common

/-!
# SynCord.Loop

Loops over a list that may stop early: `List.foldlM` in `Except`.

* `foldlM_total` — a loop with an invariant that every step keeps, and no step that stops, runs to
  its end.
* `foldlM_runs` — what every step that does not stop keeps holds of a loop that has run to its end.
* `foldlM_step` — in a loop that has run to its end no step has stopped.
* `bind_eq_ok` — the same of two computations one after the other.
* `mapM_eq_ok`, `mapM_ok` — the same of a computation for each element.
* `foldlM_ends` — what every step keeps holds at the end, and what a step that stops gives is the
  result.
* `forM_eq_ok_iff`, `forM_eq_error` — the same of a loop without a state.
-/

namespace SynCord

variable {α β ε : Type} {f : β → α → Except ε β}

theorem bind_eq_ok {x : Except ε α} {k : α → Except ε β} {r : β} (h : x >>= k = .ok r) :
    ∃ a, x = .ok a ∧ k a = .ok r := by
  cases x with
  | error e => cases h
  | ok a => exact ⟨a, rfl, h⟩

/-- The invariant speaks of the elements that are done. -/
theorem foldlM_total (I : List α → β → Prop) {l : List α}
    (hstep : ∀ done a b, done ++ [a] <+: l → I done b → ∃ b', f b a = .ok b' ∧ I (done ++ [a]) b')
    {b : β} (h : I [] b) : ∃ r, l.foldlM f b = .ok r ∧ I l r := by
  have key : ∀ rest done b, done ++ rest = l → I done b →
      ∃ r, rest.foldlM f b = .ok r ∧ I l r := by
    intro rest
    induction rest with
    | nil =>
      intro done b hl hI
      rw [List.append_nil] at hl
      exact ⟨b, rfl, hl ▸ hI⟩
    | cons a rest ih =>
      intro done b hl hI
      have hl' : (done ++ [a]) ++ rest = l := by rw [List.append_assoc]; exact hl
      obtain ⟨b', hb', hI'⟩ := hstep done a b ⟨rest, hl'⟩ hI
      obtain ⟨r, hr, hIr⟩ := ih (done ++ [a]) b' hl' hI'
      exact ⟨r, by rw [List.foldlM_cons, hb']; exact hr, hIr⟩
  exact key l [] b rfl h

theorem foldlM_runs (I : List α → β → Prop) {l : List α}
    (hstep : ∀ done a b b', done ++ [a] <+: l → I done b → f b a = .ok b' → I (done ++ [a]) b')
    {b r : β} (h₀ : I [] b) (h : l.foldlM f b = .ok r) : I l r := by
  have key : ∀ rest done b, done ++ rest = l → I done b → rest.foldlM f b = .ok r → I l r := by
    intro rest
    induction rest with
    | nil =>
      intro done b hl hI hr
      rw [List.append_nil] at hl
      cases hr
      exact hl ▸ hI
    | cons a rest ih =>
      intro done b hl hI hr
      have hl' : (done ++ [a]) ++ rest = l := by rw [List.append_assoc]; exact hl
      rw [List.foldlM_cons] at hr
      obtain ⟨b', hb', hr⟩ := bind_eq_ok hr
      exact ih (done ++ [a]) b' hl' (hstep done a b b' ⟨rest, hl'⟩ hI hb') hr
  exact key l [] b rfl h₀ h

theorem foldlM_step {l : List α} {b r : β} (h : l.foldlM f b = .ok r) {a : α} (ha : a ∈ l) :
    ∃ b₁ b₂, f b₁ a = .ok b₂ := by
  induction l generalizing b with
  | nil => cases ha
  | cons x l ih =>
    rw [List.foldlM_cons] at h
    obtain ⟨b', hx, h⟩ := bind_eq_ok h
    rcases List.mem_cons.1 ha with rfl | ha
    · exact ⟨b, b', hx⟩
    · exact ih h ha

theorem mapM_eq_ok {f : α → Except ε β} {l : List α} {r : List β} (h : l.mapM f = .ok r) :
    List.Forall₂ (fun a b => f a = .ok b) l r := by
  induction l generalizing r with
  | nil =>
    cases h
    exact .nil
  | cons a l ih =>
    rw [List.mapM_cons] at h
    obtain ⟨b, hb, h⟩ := bind_eq_ok h
    obtain ⟨bs, hbs, h⟩ := bind_eq_ok h
    cases h
    exact .cons hb (ih hbs)

theorem mapM_ok {f : α → Except ε β} {g : α → β} {l : List α} (h : ∀ a ∈ l, f a = .ok (g a)) :
    l.mapM f = .ok (l.map g) := by
  induction l with
  | nil => rfl
  | cons a l ih =>
    rw [List.forall_mem_cons] at h
    rw [List.mapM_cons, h.1, ih h.2]
    rfl

/-- A postcondition for either way to end. -/
def Ends (I : β → Prop) (E : ε → Prop) : Except ε β → Prop
  | .ok b => I b
  | .error e => E e

theorem foldlM_ends {I : β → Prop} {E : ε → Prop} {l : List α}
    (hstep : ∀ a ∈ l, ∀ b, I b → Ends I E (f b a)) {b : β} (h : I b) :
    Ends I E (l.foldlM f b) := by
  induction l generalizing b with
  | nil => exact h
  | cons a l ih =>
    rw [List.foldlM_cons]
    have ha := hstep a (List.mem_cons_self ..) b h
    cases hf : f b a with
    | error e =>
      rw [hf] at ha
      exact ha
    | ok b' =>
      rw [hf] at ha
      exact ih (fun x hx => hstep x (List.mem_cons_of_mem _ hx)) ha

theorem forM_eq_ok_iff {l : List α} {f : α → Except ε Unit} :
    l.forM f = .ok () ↔ ∀ a ∈ l, f a = .ok () := by
  induction l with
  | nil => exact ⟨fun _ => by simp, fun _ => rfl⟩
  | cons x l ih =>
    rw [List.forall_mem_cons, ← ih]
    constructor
    · intro h
      obtain ⟨⟨⟩, hx, hl⟩ := bind_eq_ok h
      exact ⟨hx, hl⟩
    · rintro ⟨hx, hl⟩
      show f x >>= (fun _ => l.forM f) = .ok ()
      rw [hx]
      exact hl

/-- A loop stops with an error of one of its steps. -/
theorem forM_eq_error {l : List α} {f : α → Except ε Unit} {e : ε} (h : l.forM f = .error e) :
    ∃ a ∈ l, f a = .error e := by
  induction l with
  | nil => cases h
  | cons x l ih =>
    have h : f x >>= (fun _ => l.forM f) = .error e := h
    cases hx : f x with
    | error e' =>
      rw [hx] at h
      cases h
      exact ⟨x, by simp, hx⟩
    | ok =>
      rw [hx] at h
      obtain ⟨a, ha, hfa⟩ := ih h
      exact ⟨a, List.mem_cons_of_mem _ ha, hfa⟩

end SynCord
