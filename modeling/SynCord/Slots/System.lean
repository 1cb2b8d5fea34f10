import SynCord.Reach
import SynCord.Slots.Install

/-!
# SynCord.Slots.System

Livepatches come and go: a system of installed patches, each with the slot and the programs it has
registered, where an event is one install attempt or one uninstall. A `post_unpatch_callback` runs
only for a patch whose `pre_patch_callback` returned 0, and nothing runs for an install that
failed. Patches are not replaced by later ones, so any of them can be uninstalled.

* `Tr`, `step_tr` — what an event can do.
* `slot_index_in_bounds` — when `num_policy` stays within the arrays. Uninstalling `amp`, which
  gives back a number it never took, gets it to -1 (`slot_index_amp_uninstalled`).
-/

namespace SynCord
namespace Slots

/-- An installed patch. -/
structure Entry where
  patch : Patch
  /-- `num_policy` when it was installed. -/
  slot : Int
  /-- Where its programs were looked up. -/
  fs : Fs

/-- The program that the patch has registered for a hook. -/
def Entry.program (e : Entry) (h : Hook) : Option Ptr :=
  (e.patch.registrations.lookup h).map fun path => (e.fs path).raw

theorem Entry.program_eq_none {e : Entry} {h : Hook} (hh : h ∉ e.patch.hooks) :
    e.program h = none := by
  rw [Entry.program, Option.map_eq_none_iff, List.lookup_eq_none_iff]
  intro r hr
  have hne : h ≠ r.1 := by rintro rfl; exact hh (List.mem_map_of_mem hr)
  simpa using hne

/-- A registered hook has its program, which is the one found at the path of the registration. -/
theorem Entry.exists_program {e : Entry} {h : Hook} (hh : h ∈ e.patch.hooks) :
    ∃ r ∈ e.patch.registrations, r.1 = h ∧ e.program h = some (e.fs r.2).raw := by
  cases hl : e.patch.registrations.lookup h with
  | none =>
    obtain ⟨r, hr, rfl⟩ := List.mem_map.1 hh
    have := List.lookup_eq_none_iff.1 hl r hr
    simp at this
  | some path =>
    obtain ⟨l₁, l₂, heq, _⟩ := List.lookup_eq_some_iff.1 hl
    exact ⟨(h, path), by rw [heq]; simp, rfl, by rw [Entry.program, hl]; rfl⟩

structure Sys where
  kernel : Kernel
  /-- The last installed first. -/
  installed : List Entry

def Sys.boot : Sys := ⟨.boot, []⟩

inductive Event where
  | install (p : Patch) (fs : Fs)
  /-- Uninstall the patch at position `n` of the list. -/
  | uninstall (n : Nat)

/-- `none` when the callback faults, or there is no such patch. -/
def step (s : Sys) : Event → Option Sys
  | .install p fs =>
    (p.prePatchCallback fs s.kernel).map fun (k, ret) =>
      if ret = 0 then ⟨k, ⟨p, k.numPolicy, fs⟩ :: s.installed⟩ else ⟨k, s.installed⟩
  | .uninstall n =>
    s.installed[n]?.bind fun e =>
      (e.patch.postUnpatchCallback s.kernel).map fun k => ⟨k, s.installed.eraseIdx n⟩

/-- Any patch may be installed, and an installed one uninstalled. -/
def Enabled (s : Sys) : Event → Prop
  | .install _ _ => True
  | .uninstall n => n < s.installed.length

/-- The callback of the event stays in the arrays. -/
def Inside (s : Sys) : Event → Prop
  | .install p _ => p.Inside s.kernel.numPolicy
  | .uninstall _ => 0 ≤ s.kernel.numPolicy ∧ s.kernel.numPolicy ≤ 4

instance (s : Sys) : (a : Event) → Decidable (Enabled s a)
  | .install _ _ => inferInstanceAs (Decidable True)
  | .uninstall _ => inferInstanceAs (Decidable (_ < _))

instance (s : Sys) : (a : Event) → Decidable (Inside s a)
  | .install p _ => inferInstanceAs (Decidable (p.Inside _))
  | .uninstall _ => inferInstanceAs (Decidable (_ ∧ _))

/-- An event that can happen has no result exactly when its callback leaves the arrays. -/
theorem step_inside_iff {s : Sys} {a : Event} :
    (∃ s', step s a = some s') ↔ Enabled s a ∧ Inside s a := by
  cases a with
  | install p fs =>
    have hpre : (∃ k ret, p.prePatchCallback fs s.kernel = some (k, ret)) ↔ _ :=
      Patch.pre_inside_iff
    simp only [Enabled, Inside, true_and, ← hpre, step, Option.map_eq_some_iff, Prod.exists]
    exact ⟨fun ⟨_, k, ret, hk, _⟩ => ⟨k, ret, hk⟩, fun ⟨k, ret, hk⟩ => ⟨_, k, ret, hk, rfl⟩⟩
  | uninstall n =>
    simp only [Enabled, Inside, step, Option.bind_eq_some_iff, Option.map_eq_some_iff]
    constructor
    · rintro ⟨_, e, he, k, hk, _⟩
      exact ⟨(List.getElem?_eq_some_iff.1 he).1, Patch.post_inside_iff.1 ⟨k, hk⟩⟩
    · rintro ⟨hn, hin⟩
      obtain ⟨k, hk⟩ := (Patch.post_inside_iff (p := s.installed[n].patch)).2 hin
      exact ⟨_, s.installed[n], List.getElem?_eq_getElem hn, k, hk, rfl⟩

/-- The index that the call sites of a patch look its programs up at. -/
def Patch.callIndex (p : Patch) (numPolicy : Int) : Int :=
  match p with
  -- a literal in `down_read` and `up_read`
  | .bravo => 1
  | _ => numPolicy

/-- The outcomes of an event. -/
inductive Tr (s : Sys) : Event → Sys → Prop where
  | refused {p fs} : p.counts = true → 4 ≤ s.kernel.numPolicy → Tr s (.install p fs) s
  | installed {p fs i k} : p.target s.kernel.numPolicy = some i →
      Registered fs p.registrations i s.kernel k 0 →
      Tr s (.install p fs) ⟨k, ⟨p, i.val, fs⟩ :: s.installed⟩
  | failed {p fs i k ret} : p.target s.kernel.numPolicy = some i →
      Registered fs p.registrations i s.kernel k ret → ret ≠ 0 →
      Tr s (.install p fs) ⟨k, s.installed⟩
  | uninstalled {n e i} : s.installed[n]? = some e → slot s.kernel.numPolicy = some i →
      Tr s (.uninstall n) ⟨s.kernel.cleared e.patch.cleared i, s.installed.eraseIdx n⟩

theorem step_tr {s s' : Sys} {a : Event} (h : step s a = some s') : Tr s a s' := by
  cases a with
  | install p fs =>
    obtain ⟨⟨k, ret⟩, hk, hs⟩ := Option.map_eq_some_iff.1 h
    dsimp only at hs
    rcases Patch.pre_cases hk with ⟨hc, h4, rfl, rfl⟩ | ⟨i, ht, hr⟩
    · subst hs
      exact .refused hc h4
    · split at hs
      · rename_i h0
        subst hs h0
        rw [hr.numPolicy]
        exact .installed ht hr
      · rename_i h0
        subst hs
        exact .failed ht hr h0
  | uninstall n =>
    obtain ⟨e, he, h⟩ := Option.bind_eq_some_iff.1 h
    obtain ⟨k, hk, rfl⟩ := Option.map_eq_some_iff.1 h
    cases hi : slot s.kernel.numPolicy with
    | none => rw [Patch.post_fault hi] at hk; cases hk
    | some i =>
      rw [Patch.post_eq hi] at hk
      cases hk
      exact .uninstalled he hi

/-! ## Bounds -/

/-- No callback and no call site leaves the arrays, whatever happens next. -/
structure InBounds (s : Sys) : Prop where
  numPolicy : 0 ≤ s.kernel.numPolicy ∧ s.kernel.numPolicy ≤ 4
  pre : ∀ (p : Patch) fs, (p.prePatchCallback fs s.kernel).isSome
  post : ∀ p : Patch, (p.postUnpatchCallback s.kernel).isSome
  call : ∀ (p : Patch) h, (s.kernel.load h (p.callIndex s.kernel.numPolicy)).isSome

/-- The number of installed patches that have moved `num_policy`. -/
def Sys.counted (s : Sys) : Nat := s.installed.countP (·.patch.counts)

/-- `amp` and `amp-mwrl` are uninstalled only when there is a number to give back that no installed
patch has taken. -/
def KeepsCount (s : Sys) : Event → Prop
  | .install _ _ => True
  | .uninstall n => ∀ e, s.installed[n]? = some e → e.patch.counts = false →
      s.counted < s.kernel.numPolicy

theorem inBounds_of_range {s : Sys} (h0 : 0 ≤ s.kernel.numPolicy) (h4 : s.kernel.numPolicy ≤ 4) :
    InBounds s where
  numPolicy := ⟨h0, h4⟩
  pre := by
    intro p fs
    cases ht : p.target s.kernel.numPolicy with
    | some i =>
      obtain ⟨k, ret, hk, _⟩ := Patch.pre_target fs ht
      rw [hk]; rfl
    | none =>
      -- the only way to no slot is the check for a full table
      have hc : p.counts = true ∧ 4 ≤ s.kernel.numPolicy := by
        by_contra hn
        rw [Patch.target, if_neg hn, slot_eq_none, Patch.bump] at ht
        split at ht
        · rename_i hc
          exact hn ⟨hc, by omega⟩
        · omega
      rw [Patch.pre_refused hc.1 hc.2]; rfl
  post := by
    intro p
    obtain ⟨i, hi⟩ := slot_of_range h0 h4
    rw [Patch.post_eq hi]
    rfl
  call := by
    intro p h
    have hs : slot (p.callIndex s.kernel.numPolicy) ≠ none := by
      rw [Ne, slot_eq_none]
      cases p <;> simp only [Patch.callIndex] <;> omega
    rw [Kernel.load, Option.isSome_map, Option.isSome_iff_ne_none]
    exact hs

theorem countP_eraseIdx {es : List Entry} {n : Nat} {e : Entry} (h : es[n]? = some e) :
    es.countP (·.patch.counts) =
      (es.eraseIdx n).countP (·.patch.counts) + if e.patch.counts then 1 else 0 := by
  induction es generalizing n with
  | nil => cases h
  | cons x es ih =>
    cases n with
    | zero =>
      cases h
      rw [List.countP_cons, List.eraseIdx_cons_zero]
    | succ n =>
      rw [List.countP_cons, List.eraseIdx_cons_succ, List.countP_cons, ih h]
      omega

theorem counted_tr {s s' : Sys} {a : Event} (hc : (s.counted : Int) ≤ s.kernel.numPolicy)
    (h4 : s.kernel.numPolicy ≤ 4) (hk : KeepsCount s a) (h : Tr s a s') :
    (s'.counted : Int) ≤ s'.kernel.numPolicy ∧ s'.kernel.numPolicy ≤ 4 := by
  cases h with
  | refused => exact ⟨hc, h4⟩
  | @installed p fs i k ht hr =>
    have hb := Patch.bump_of_target ht
    have hi : i.val < 5 := i.isLt
    simp only [Sys.counted, List.countP_cons, hr.numPolicy] at hc ⊢
    cases hp : p.counts with
    | true => rw [Patch.bump_counts hp] at hb; simp only [if_true]; omega
    | false => rw [Patch.bump_uncounted hp] at hb; simp only [Bool.false_eq_true, if_false]; omega
  | @failed p fs i k ret ht hr =>
    have hb := Patch.bump_of_target ht
    have hi : i.val < 5 := i.isLt
    simp only [Sys.counted, hr.numPolicy] at hc ⊢
    cases hp : p.counts with
    | true => rw [Patch.bump_counts hp] at hb; omega
    | false => rw [Patch.bump_uncounted hp] at hb; omega
  | @uninstalled n e i he hi =>
    have hcount := countP_eraseIdx he
    simp only [Sys.counted, Kernel.cleared] at hc ⊢
    cases hec : e.patch.counts with
    | true => simp only [hec, if_true] at hcount; omega
    | false =>
      have := hk e he hec
      simp only [Sys.counted] at this
      omega

/-- In every run that uninstalls `amp` and `amp-mwrl` only where `num_policy` has a number to spare,
no access leaves the arrays. -/
theorem slot_index_in_bounds {s : Sys} (h : Reach step KeepsCount .boot s) : InBounds s := by
  have hinv : (s.counted : Int) ≤ s.kernel.numPolicy ∧ s.kernel.numPolicy ≤ 4 := by
    refine h.invariant (P := fun s => (s.counted : Int) ≤ s.kernel.numPolicy ∧
      s.kernel.numPolicy ≤ 4) ⟨by decide, by decide⟩ ?_
    intro s a s' ⟨hc, h4⟩ hk hs
    exact counted_tr hc h4 hk (step_tr hs)
  exact inBounds_of_range (by omega) hinv.2

theorem slot_index_in_bounds_scl :
    ∃ s : Sys, s.kernel.numPolicy = 1 ∧ s.installed.length = 2 ∧ InBounds s := by
  have hrun : Reach step KeepsCount .boot _ :=
    (Reach.start.next (a := .install .amp fun _ => .found somewhere) trivial rfl).next
      (a := .install .scl fun _ => .found somewhere) trivial rfl
  exact ⟨_, rfl, rfl, slot_index_in_bounds hrun⟩

/-- `amp` is installed and uninstalled. The next install of it stores in front of the array. -/
theorem slot_index_amp_uninstalled :
    ∃ s : Sys, Reach step anyStep .boot s ∧ s.kernel.numPolicy = -1 ∧
      Patch.amp.prePatchCallback (fun _ => .found somewhere) s.kernel = none ∧ ¬ InBounds s := by
  have hrun : Reach step anyStep .boot _ :=
    (Reach.start.next (a := .install .amp fun _ => .found somewhere) trivial rfl).next
      (a := .uninstall 0) trivial rfl
  refine ⟨_, hrun, rfl, rfl, fun h => ?_⟩
  exact absurd h.numPolicy.1 (by decide)

end Slots
end SynCord
