import SynCord.Slots.System
import SynCord.Writes
import Mathlib.Data.Fintype.Prod

/-!
# SynCord.Slots.References

The references that the callbacks hold on pinned programs. `bpf_any_get` takes one for every lookup
that succeeds, and no callback gives one back: neither for a program whose entry is overwritten or
cleared, nor for those that an install had found before it failed.

* `step_balance` — what an event does to the entries that point to a program.
* `references_leaked` — installing and uninstalling `scl` leaves four references and no entry.
* `references_conserved` — as long as no entry that points to a program is stored to, every
  reference has its entry.
-/

namespace SynCord
namespace Slots

instance : DecidableEq Prog := inferInstanceAs (DecidableEq (Subtype _))

instance : Fintype Hook where
  elems := {.lockToEnterSlowpath, .lockAcquired, .lockToRelease, .shouldReorder,
    .lockBypassAcquireRead, .lockAcquiredRead, .lockBypassReleaseRead}
  complete := fun h => by cases h <;> decide

namespace References

/-! ## References taken -/

/-- The program on which the lookup takes a reference. -/
def taken (l : Lookup) : Option Prog :=
  if l.kernPath.1 ≠ 0 then none
  else if l.inodePermission.1 ≠ 0 then none
  else match l.bpfAnyGet with
    | .ok p => some p
    | .error _ => none

/-- The references that `register` takes, up to the first lookup that fails. -/
def registerTaken (fs : Fs) : List (Hook × String) → List Prog
  | [] => []
  | (_, pathname) :: regs =>
    (taken (fs pathname)).toList ++
      if isErr (getPinnedBpfObj fs pathname) then [] else registerTaken fs regs

structure Sys where
  base : Slots.Sys
  /-- A program is in the list once for every reference on it. -/
  refs : List Prog

def Sys.boot : Sys := ⟨.boot, []⟩

def eventTaken (s : Slots.Sys) : Event → List Prog
  | .install p fs =>
    if p.counts = true ∧ 4 ≤ s.kernel.numPolicy then [] else registerTaken fs p.registrations
  | .uninstall _ => []

def step (s : Sys) (e : Event) : Option Sys :=
  (Slots.step s.base e).map fun b => ⟨b, s.refs ++ eventTaken s.base e⟩

/-! ## Entries -/

abbrev Place := Hook × Fin MAX_POLICY

def flat (prog : Table) (x : Place) : Ptr := prog x.1 x.2

/-- The number of entries that point to the program. -/
def entries (prog : Table) (q : Prog) : Nat :=
  (Finset.univ.filter fun x => flat prog x = q.1).card

/-- What `register` stores, up to the first lookup that fails. -/
def registerStores (fs : Fs) (i : Fin MAX_POLICY) : List (Hook × String) → List (Place × Ptr)
  | [] => []
  | (h, pathname) :: regs =>
    ((h, i), getPinnedBpfObj fs pathname) ::
      if isErr (getPinnedBpfObj fs pathname) then [] else registerStores fs i regs

def eventStores (s : Slots.Sys) : Event → List (Place × Ptr)
  | .install p fs =>
    match p.target s.kernel.numPolicy with
    | some i => registerStores fs i p.registrations
    | none => []
  | .uninstall n =>
    match s.installed[n]?, slot s.kernel.numPolicy with
    | some e, some i => e.patch.cleared.map fun h => ((h, i), NULL)
    | _, _ => []

/-- The entry points to a program. -/
def Live (p : Ptr) : Prop := p ≠ NULL ∧ isErr p = false

/-- The callback stays in the arrays, and nothing is stored to an entry that points to a program.
When an event leaves no patch installed there is no such entry, and it has found no program. -/
def Retained (s : Sys) (e : Event) : Prop :=
  Inside s.base e ∧ (∀ w ∈ eventStores s.base e, ¬ Live (flat s.base.kernel.prog w.1)) ∧
  match e with
  | .install p fs => s.base.installed = [] →
      (∃ r ∈ p.registrations, (fs r.2).Failed) → registerTaken fs p.registrations = []
  | .uninstall _ => s.base.installed.length = 1 → ∀ x, ¬ Live (flat s.base.kernel.prog x)

/-! ## What the callbacks store -/

theorem flat_store (prog : Table) (h : Hook) (i : Fin MAX_POLICY) (p : Ptr) :
    flat (Function.update prog h (Function.update (prog h) i p)) =
      Function.update (flat prog) (h, i) p := by
  funext ⟨h', j⟩
  by_cases hh : h' = h
  · subst hh
    by_cases hj : j = i
    · simp [flat, hj]
    · simp [flat, hj]
  · simp [flat, hh]

theorem register_stores {fs : Fs} {i : Fin MAX_POLICY} {regs : List (Hook × String)}
    {k k' : Kernel} {ret : Int} (hi : slot k.numPolicy = some i)
    (h : register fs regs k = some (k', ret)) :
    flat k'.prog = writes (flat k.prog) (registerStores fs i regs) := by
  induction regs generalizing k with
  | nil =>
    cases h
    rfl
  | cons r regs ih =>
    obtain ⟨hook, path⟩ := r
    rw [register_cons hi] at h
    dsimp only at h
    rw [registerStores]
    split at h
    · rename_i herr
      cases h
      rw [if_pos herr]
      exact flat_store _ _ _ _
    · rename_i herr
      rw [if_neg herr, writes, ← flat_store]
      exact ih (by exact hi) h

theorem clear_stores {hs : List Hook} {i : Fin MAX_POLICY} {k : Kernel}
    (hi : slot k.numPolicy = some i) {k' : Kernel} (h : clear hs k = some k') :
    flat k'.prog = writes (flat k.prog) (hs.map fun h => ((h, i), NULL)) := by
  induction hs generalizing k with
  | nil =>
    cases h
    rfl
  | cons hook hs ih =>
    rw [clear, Kernel.store_eq hi, Option.bind_some] at h
    rw [List.map_cons, writes, ← flat_store]
    exact ih (by exact hi) h

theorem pre_stores {p : Patch} {fs : Fs} {k k' : Kernel} {ret : Int} {i : Fin MAX_POLICY}
    (ht : p.target k.numPolicy = some i) (h : p.prePatchCallback fs k = some (k', ret)) :
    flat k'.prog = writes (flat k.prog) (registerStores fs i p.registrations) := by
  have hi := slot_eq_some.2 (Patch.bump_of_target ht)
  cases hc : p.counts with
  | true =>
    rw [Patch.prePatchCallback_counts hc, countedPre] at h
    simp only [Patch.bump, hc, if_true] at hi
    split at h
    · exact register_stores (k := { k with numPolicy := k.numPolicy + 1 }) hi h
    · rename_i h4
      rw [Patch.target, if_pos ⟨hc, Int.not_lt.1 h4⟩] at ht
      cases ht
  | false =>
    rw [Patch.prePatchCallback_uncounted hc] at h
    simp only [Patch.bump, hc] at hi
    exact register_stores hi h

theorem step_stores {s s' : Slots.Sys} {e : Event} (h : Slots.step s e = some s') :
    flat s'.kernel.prog = writes (flat s.kernel.prog) (eventStores s e) := by
  cases e with
  | install p fs =>
    obtain ⟨⟨k, ret⟩, hk, hs⟩ := Option.map_eq_some_iff.1 h
    have hprog : s'.kernel = k := by
      dsimp only at hs
      split at hs <;> rw [← hs]
    rw [hprog, eventStores]
    rcases Patch.pre_cases hk with ⟨hc, h4, rfl, -⟩ | ⟨i, ht, -⟩
    · rw [Patch.target, if_pos ⟨hc, h4⟩]
      rfl
    · rw [ht]
      exact pre_stores ht hk
  | uninstall n =>
    obtain ⟨en, he, h⟩ := Option.bind_eq_some_iff.1 h
    obtain ⟨k, hk, rfl⟩ := Option.map_eq_some_iff.1 h
    cases hi : slot s.kernel.numPolicy with
    | none => rw [Patch.post_fault hi] at hk; cases hk
    | some i =>
      rw [Patch.postUnpatchCallback_eq, post] at hk
      obtain ⟨k₁, hk₁, rfl⟩ := Option.map_eq_some_iff.1 hk
      have hst := clear_stores hi hk₁
      rw [eventStores, he, hi]
      exact hst

/-! ## Balance -/

theorem getPinnedBpfObj_eq_prog {fs : Fs} {path : String} {q : Prog} :
    getPinnedBpfObj fs path = q.1 ↔ taken (fs path) = some q := by
  by_cases hf : (fs path).Failed
  · have herr := isErr_getPinnedBpfObj.2 hf
    have hnone : taken (fs path) = none := by
      unfold taken
      rcases hf with h | h
      · rw [if_pos h]
      · rw [if_pos h, ite_self]
    rw [hnone]
    refine ⟨fun h => ?_, fun h => by cases h⟩
    rw [h, q.2.2] at herr
    cases herr
  · have h0 : (fs path).kernPath.1 = 0 ∧ (fs path).inodePermission.1 = 0 := by
      simpa [Lookup.Failed] using hf
    cases hp : (fs path).bpfAnyGet with
    | ok p =>
      have htaken : taken (fs path) = some p := by simp [taken, h0, hp]
      rw [getPinnedBpfObj_ok hf hp, htaken, Option.some.injEq]
      exact ⟨Subtype.ext, congrArg Subtype.val⟩
    | error e =>
      have htaken : taken (fs path) = none := by simp [taken, h0, hp]
      rw [getPinnedBpfObj_dangling ⟨hf, e, hp⟩, htaken]
      exact ⟨fun h => absurd h.symm q.2.1, fun h => by cases h⟩

/-- Every reference that is taken is stored once. -/
theorem countP_registerStores (fs : Fs) (i : Fin MAX_POLICY) (regs : List (Hook × String))
    (q : Prog) : (registerStores fs i regs).countP (fun w => w.2 = q.1) =
      (registerTaken fs regs).count q := by
  induction regs with
  | nil => rfl
  | cons r regs ih =>
    obtain ⟨h, path⟩ := r
    have hhead : (taken (fs path)).toList.count q =
        if getPinnedBpfObj fs path = q.1 then 1 else 0 := by
      by_cases ht : taken (fs path) = some q
      · rw [if_pos (getPinnedBpfObj_eq_prog.2 ht), ht]
        exact List.count_singleton_self
      · rw [if_neg (mt getPinnedBpfObj_eq_prog.1 ht), List.count_eq_zero, Option.mem_toList]
        exact ht
    rw [registerStores, registerTaken, List.countP_cons, List.count_append, hhead]
    split
    · simp
    · simp [ih, Nat.add_comm]

theorem registerStores_sublist (fs : Fs) (i : Fin MAX_POLICY) (regs : List (Hook × String)) :
    ((registerStores fs i regs).map Prod.fst).Sublist (regs.map fun r => (r.1, i)) := by
  induction regs with
  | nil => exact .slnil
  | cons r regs ih =>
    rw [registerStores, List.map_cons, List.map_cons]
    refine .cons_cons _ ?_
    split
    · exact List.nil_sublist _
    · exact ih

theorem cleared_nodup (p : Patch) : p.cleared.Nodup := by
  cases p <;> decide

theorem eventStores_nodup (s : Slots.Sys) (e : Event) :
    ((eventStores s e).map Prod.fst).Nodup := by
  have hinj (i : Fin MAX_POLICY) : Function.Injective fun h : Hook => (h, i) :=
    fun _ _ h => (Prod.mk.inj h).1
  cases e with
  | install p fs =>
    rw [eventStores]
    split
    · rename_i i _
      refine (registerStores_sublist fs i p.registrations).nodup ?_
      have := p.hooks_nodup.map (hinj i)
      rwa [Patch.hooks, List.map_map] at this
    · exact .nil
  | uninstall n =>
    rw [eventStores]
    split
    · rename_i en i _ _
      rw [List.map_map]
      exact (cleared_nodup en.patch).map (hinj i)
    · exact .nil

theorem countP_eventStores {s s' : Slots.Sys} {e : Event} (h : Slots.step s e = some s')
    (q : Prog) : (eventStores s e).countP (fun w => w.2 = q.1) = (eventTaken s e).count q := by
  cases e with
  | install p fs =>
    obtain ⟨⟨k, ret⟩, hk, -⟩ := Option.map_eq_some_iff.1 h
    rw [eventStores, eventTaken]
    rcases Patch.pre_cases hk with ⟨hc, h4, -, -⟩ | ⟨i, ht, -⟩
    · rw [Patch.target, if_pos ⟨hc, h4⟩, if_pos ⟨hc, h4⟩]
      rfl
    · have hn : ¬ (p.counts = true ∧ 4 ≤ s.kernel.numPolicy) := fun hn => by
        rw [Patch.target, if_pos hn] at ht
        cases ht
      rw [ht, if_neg hn]
      exact countP_registerStores fs i p.registrations q
  | uninstall n =>
    have hq : NULL ≠ q.1 := q.2.1.symm
    rw [eventStores, eventTaken]
    split
    · simp [hq]
    · rfl

/-- The entries of a program before and after an event. -/
theorem step_balance {s s' : Slots.Sys} {e : Event} (h : Slots.step s e = some s') (q : Prog) :
    entries s'.kernel.prog q +
        (eventStores s e).countP (fun w => flat s.kernel.prog w.1 = q.1) =
      entries s.kernel.prog q + (eventTaken s e).count q := by
  rw [← countP_eventStores h q, entries, step_stores h]
  exact card_filter_writes (· = q.1) (eventStores_nodup s e) (flat s.kernel.prog)

/-! ## Runs -/

/-- Every reference has its entry, and none is left when no patch is installed. -/
structure Conserved (s : Sys) : Prop where
  refs : ∀ q, s.refs.count q = entries s.base.kernel.prog q
  none_left : s.base.installed = [] → s.refs = []

theorem refs_eq_nil {s : Sys} (hc : ∀ q, s.refs.count q = entries s.base.kernel.prog q)
    (h : ∀ q, entries s.base.kernel.prog q = 0) : s.refs = [] :=
  List.eq_nil_iff_forall_not_mem.2 fun q => List.count_eq_zero.1 ((hc q).trans (h q))

theorem entries_eq_zero {prog : Table} (h : ∀ x, ¬ Live (flat prog x)) (q : Prog) :
    entries prog q = 0 := by
  rw [entries, Finset.card_eq_zero, Finset.filter_eq_empty_iff]
  intro x _ hx
  exact h x (hx ▸ q.2)

/-- An event that leaves no patch installed takes no reference, and there was none before. -/
theorem Retained.none_left {s : Sys} (hc : Conserved s) {e : Event} (hok : Retained s e)
    {b : Slots.Sys} (hb : Slots.step s.base e = some b) (hnil : b.installed = []) :
    s.refs = [] ∧ eventTaken s.base e = [] := by
  cases Slots.step_tr hb with
  | refused hcount h4 => exact ⟨hc.none_left hnil, if_pos ⟨hcount, h4⟩⟩
  | installed => cases hnil
  | failed ht hr h0 =>
    refine ⟨hc.none_left hnil, ?_⟩
    obtain ⟨-, r, hr, herr, -⟩ := hr.result.resolve_left fun h => h0 h.1
    rw [eventTaken, hok.2.2 hnil ⟨r, hr, isErr_getPinnedBpfObj.1 herr⟩, ite_self]
  | @uninstalled n en i he hi =>
    refine ⟨refs_eq_nil hc.refs (entries_eq_zero (hok.2.2 ?_)), rfl⟩
    have hlt : n < s.base.installed.length := (List.getElem?_eq_some_iff.1 he).1
    have hlen := List.length_eraseIdx_of_lt hlt
    rw [show s.base.installed.eraseIdx n = [] from hnil, List.length_nil] at hlen
    omega

theorem Conserved.step {s s' : Sys} (hc : Conserved s) {e : Event} (hok : Retained s e)
    (h : step s e = some s') : Conserved s' := by
  obtain ⟨b, hb, rfl⟩ := Option.map_eq_some_iff.1 h
  refine ⟨fun q => ?_, fun hnil => ?_⟩
  · have hdrop : (eventStores s.base e).countP
        (fun w => flat s.base.kernel.prog w.1 = q.1) = 0 := by
      rw [List.countP_eq_zero]
      intro w hw hq
      exact hok.2.1 w hw (of_decide_eq_true hq ▸ q.2)
    have hbal := step_balance hb q
    rw [hdrop] at hbal
    dsimp only
    rw [List.count_append, hc.refs q]
    omega
  · obtain ⟨hrefs, htaken⟩ := hok.none_left hc hb hnil
    dsimp only
    rw [hrefs, htaken]
    rfl

theorem conserved_boot : Conserved .boot where
  refs := fun q => (entries_eq_zero (fun _ h => h.1 rfl) q).symm
  none_left := fun _ => rfl

/-- In every run whose events are `Retained`, the references on a program are the entries that point
to it, none is left when no patch is installed, and no callback leaves the arrays. -/
theorem references_conserved {s : Sys} (h : Reach References.step Retained .boot s) :
    (∀ q, s.refs.count q = entries s.base.kernel.prog q) ∧
      (s.base.installed = [] → s.refs = []) ∧
      ∀ e, Retained s e → Enabled s.base e → ∃ s', References.step s e = some s' := by
  have hc : Conserved s := h.invariant conserved_boot fun _ _ _ hc hok hs => hc.step hok hs
  refine ⟨hc.refs, hc.none_left, fun e hok hen => ?_⟩
  obtain ⟨b, hb⟩ := step_inside_iff.2 ⟨hen, hok.1⟩
  exact ⟨_, by rw [References.step, hb]; rfl⟩

/-- `scl` is installed. -/
theorem references_conserved_scl : ∃ s : Sys, Reach References.step Retained .boot s ∧
    s.refs = [somewhere, somewhere, somewhere, somewhere] ∧
    ∀ q, s.refs.count q = entries s.base.kernel.prog q := by
  have h : Reach References.step Retained .boot _ :=
    Reach.start.next (a := .install .scl fun _ => .found somewhere)
      ⟨by decide,
        fun _ _ h => h.1 rfl,
        fun _ ⟨_, _, hf⟩ => absurd hf (Lookup.found_succeeds somewhere).1⟩ rfl
  exact ⟨_, h, rfl, (references_conserved h).1⟩

/-- `scl` is installed and uninstalled. -/
theorem references_leaked : ∃ s : Sys, Reach References.step anyStep .boot s ∧
    s.base.installed = [] ∧ s.refs.count somewhere = 4 ∧
      entries s.base.kernel.prog somewhere = 0 := by
  have h : Reach References.step anyStep .boot _ :=
    (Reach.start.next (a := .install .scl fun _ => .found somewhere) trivial rfl).next
      (a := .uninstall 0) trivial rfl
  exact ⟨_, h, rfl, rfl, rfl⟩

end References
end Slots
end SynCord
