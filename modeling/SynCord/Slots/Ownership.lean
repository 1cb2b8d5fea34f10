import SynCord.Slots.System
import Mathlib.Data.List.Pairwise

/-!
# SynCord.Slots.Ownership

Who owns a slot when patches come and go in any order. Nothing records it: every callback works on
slot `num_policy` of the moment.

* `slot_ownership` — when a callback stays in the arrays, leaves alone what other patches have
  registered and clears exactly what its own patch has. Uninstalling a patch that is not the last
  one clears the slot of the last one (`slot_ownership_scl_uninstalled`).
-/

namespace SynCord
namespace Slots

theorem Kernel.load_congr {k k' : Kernel} {h : Hook} {n : Int}
    (hp : ∀ j : Fin MAX_POLICY, n = j.val → k'.prog h j = k.prog h j) :
    k'.load h n = k.load h n := by
  unfold Kernel.load
  cases hs : slot n with
  | none => rfl
  | some j => rw [Option.map_some, Option.map_some, hp j (slot_eq_some.1 hs)]

/-! ## Ownership -/

/-- What an event does to the slots of the installed patches. -/
structure OwnedStep (s : Sys) (a : Event) (s' : Sys) : Prop where
  /-- no entry changes that another patch has registered -/
  others : ∀ (n : Nat) e, s.installed[n]? = some e → a ≠ .uninstall n →
    ∀ h ∈ e.patch.hooks, s'.kernel.load h e.slot = s.kernel.load h e.slot
  /-- an uninstall clears exactly the entries that its patch has registered -/
  own : ∀ (n : Nat) e, s.installed[n]? = some e → a = .uninstall n →
    ∀ h (j : Fin MAX_POLICY), s'.kernel.prog h j =
      if e.slot = j.val ∧ h ∈ e.patch.hooks then NULL else s.kernel.prog h j

/-- The callback stays in the arrays. An install writes no hook that an installed patch has in the
same slot. An uninstall is of a patch whose slot is `num_policy`, and what it clears beyond its own
hooks is empty. -/
def OwnSlot (s : Sys) (a : Event) : Prop :=
  Inside s a ∧ match a with
  | .install p _ => ∀ i, p.target s.kernel.numPolicy = some i → ∀ e ∈ s.installed,
      e.slot = i.val → p.hooks.Disjoint e.patch.hooks
  | .uninstall n => ∀ e, s.installed[n]? = some e → e.slot = s.kernel.numPolicy ∧
      ∀ h ∈ e.patch.cleared, h ∉ e.patch.hooks → s.kernel.load h s.kernel.numPolicy = some NULL

/-- Two patches do not share an entry. -/
def Entry.Apart (e e' : Entry) : Prop := e.slot = e'.slot → e.patch.hooks.Disjoint e'.patch.hooks

theorem Entry.Apart.symm {e e' : Entry} (h : e.Apart e') : e'.Apart e :=
  fun hs _ hm hm' => h hs.symm hm' hm

theorem apart_tr {s s' : Sys} {a : Event} (hp : s.installed.Pairwise Entry.Apart)
    (ha : OwnSlot s a) (h : Tr s a s') : s'.installed.Pairwise Entry.Apart := by
  cases h with
  | refused | failed => exact hp
  | installed ht => exact List.pairwise_cons.2 ⟨fun e he hs => ha.2 _ ht e he hs.symm, hp⟩
  | uninstalled => exact hp.sublist (List.eraseIdx_sublist _ _)

theorem apart_of_ne {es : List Entry} (hp : es.Pairwise Entry.Apart) {m n : Nat} {e e' : Entry}
    (hm : es[m]? = some e) (hn : es[n]? = some e') (hne : m ≠ n) : e.Apart e' := by
  obtain ⟨hml, rfl⟩ := List.getElem?_eq_some_iff.1 hm
  obtain ⟨hnl, rfl⟩ := List.getElem?_eq_some_iff.1 hn
  rcases Nat.lt_or_gt_of_ne hne with hlt | hlt
  · exact List.pairwise_iff_getElem.1 hp m n hml hnl hlt
  · exact (List.pairwise_iff_getElem.1 hp n m hnl hml hlt).symm

theorem Registered.load_disjoint {p : Patch} {fs : Fs} {i : Fin MAX_POLICY} {k k' : Kernel}
    {ret : Int} (hr : Registered fs p.registrations i k k' ret) {h : Hook} {n : Int}
    (hd : n = i.val → h ∉ p.hooks) : k'.load h n = k.load h n := by
  refine Kernel.load_congr fun j hj => hr.other h j ?_
  by_cases hji : j = i
  · exact .inr (hd (by rw [hj, hji]))
  · exact .inl hji

theorem ownedStep_tr {s s' : Sys} {a : Event} (hp : s.installed.Pairwise Entry.Apart)
    (ha : OwnSlot s a) (h : Tr s a s') : OwnedStep s a s' := by
  cases h with
  | refused => exact ⟨fun _ _ _ _ _ _ => rfl, fun _ _ _ he => by cases he⟩
  | installed ht hr | failed ht hr _ =>
    refine ⟨?_, fun _ _ _ he => by cases he⟩
    intro n e he _ h hh
    exact hr.load_disjoint fun hs hm =>
      ha.2 _ ht e (List.mem_of_getElem? he) hs hm hh
  | @uninstalled n e i he hi =>
    obtain ⟨hslot, hnull⟩ := ha.2 e he
    have hnp := slot_eq_some.1 hi
    have hempty : ∀ h ∈ e.patch.cleared, h ∉ e.patch.hooks → s.kernel.prog h i = NULL := by
      intro h hc hh
      have := hnull h hc hh
      rw [Kernel.load_slot hnp] at this
      exact Option.some.inj this
    constructor
    · intro m e' he' hne h hh
      refine Kernel.load_congr fun j hj => ?_
      simp only [Kernel.cleared]
      split
      · rename_i hc
        -- the slot is shared, so the hook is not one of the patch that goes
        have hsame : e'.slot = e.slot := by rw [hj, hc.1, hslot, hnp]
        have hmn : m ≠ n := by rintro rfl; exact hne rfl
        have hnot : h ∉ e.patch.hooks := fun hm =>
          apart_of_ne hp he' he hmn hsame hh hm
        rw [hc.1, hempty h hc.2 hnot]
      · rfl
    · intro m e' he' hm h j
      cases hm
      rw [he] at he'
      cases he'
      simp only [Kernel.cleared, hslot, hnp]
      by_cases hj : j = i
      · subst hj
        by_cases hh : h ∈ e.patch.hooks
        · simp [hh, e.patch.hooks_subset_cleared hh]
        · by_cases hc : h ∈ e.patch.cleared
          · simp [hc, hh, hempty h hc hh]
          · simp [hc, hh]
      · have hv : (i.val : Int) ≠ j.val := fun hv => hj (Fin.ext (by omega))
        simp [hj, hv]

/-- In every run whose events all meet `OwnSlot`, no callback leaves the arrays or touches what
another patch has registered, and a patch that is uninstalled takes exactly its own entries with
it. -/
theorem slot_ownership {s : Sys} {a : Event} (h : Reach step OwnSlot .boot s) (ha : OwnSlot s a)
    (he : Enabled s a) : ∃ s', step s a = some s' ∧ OwnedStep s a s' := by
  have hp : s.installed.Pairwise Entry.Apart :=
    h.invariant (P := fun s => s.installed.Pairwise Entry.Apart) .nil
      fun _ _ _ hp ha hs => apart_tr hp ha (step_tr hs)
  obtain ⟨s', hs⟩ := step_inside_iff.2 ⟨he, ha.1⟩
  exact ⟨s', hs, ownedStep_tr hp ha (step_tr hs)⟩

/-- `scl`, installed after `bravo`, is uninstalled. -/
theorem slot_ownership_scl : ∃ s s' : Sys, s.installed.map (·.patch) = [.scl, .bravo] ∧
    step s (.uninstall 0) = some s' ∧ OwnedStep s (.uninstall 0) s' := by
  have hbravo : OwnSlot .boot (.install .bravo fun _ => .found somewhere) :=
    ⟨by decide, fun _ _ _ he => absurd he List.not_mem_nil⟩
  have hscl (k : Kernel) (hk : k.numPolicy = 1) (fs : Fs) :
      OwnSlot ⟨k, [⟨.bravo, 1, fs⟩]⟩ (.install .scl fun _ => .found somewhere) := by
    refine ⟨by simp [Inside, Patch.Inside, Patch.counts, hk], fun i hi e he hs h ha hb => ?_⟩
    rw [List.mem_singleton.1 he] at hb
    have hno : ∀ h ∈ Patch.scl.hooks, h ∉ Patch.bravo.hooks := by decide
    exact hno h ha hb
  have hrun : Reach step OwnSlot .boot _ :=
    (Reach.start.next hbravo rfl).next (hscl _ rfl _) rfl
  obtain ⟨s', hs, ho⟩ := slot_ownership hrun (a := .uninstall 0) ⟨by decide, fun e he => by
    cases he
    exact ⟨rfl, fun h hc hh => absurd hc (by revert hh; cases h <;> decide)⟩⟩ (by decide)
  exact ⟨_, s', rfl, hs, ho⟩

/-- `scl` is uninstalled while `lockstat`, installed after it, stays. The entries of `lockstat` go
and those of `scl` remain. -/
theorem slot_ownership_scl_uninstalled : ∃ s s' : Sys, Reach step anyStep .boot s ∧
    s.installed.map (·.patch) = [.lockstat, .scl] ∧ step s (.uninstall 1) = some s' ∧
    s.kernel.load .lockAcquired 2 = some somewhere.1 ∧ s'.kernel.load .lockAcquired 2 = some NULL ∧
    ¬ OwnedStep s (.uninstall 1) s' := by
  have hrun : Reach step anyStep .boot _ :=
    (Reach.start.next (a := .install .scl fun _ => .found somewhere) trivial rfl).next
      (a := .install .lockstat fun _ => .found somewhere) trivial rfl
  refine ⟨_, _, hrun, rfl, rfl, rfl, rfl, fun h => ?_⟩
  have := h.others 0 _ rfl (by simp) .lockAcquired (by decide)
  exact absurd (Option.some.inj this) (by decide)

end Slots
end SynCord
