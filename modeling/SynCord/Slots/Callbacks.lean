import SynCord.Shadow
import Mathlib.Data.List.Nodup
import Mathlib.Tactic.Common

/-!
# SynCord.Slots.Callbacks

The `pre_patch_callback` and `post_unpatch_callback` of the shipped patches, over the kernel's
`num_policy` and its `bpf_prog_*[MAX_POLICY]` arrays.

* `getPinnedBpfObj` — the lookup of a pinned program, with all its error exits.
* `register`, `clear` — the stores the callbacks are made of, in the order of the source.
* `countedPre`, `post` — what most callbacks have in common. Every patch has its own pair below,
  with its own hooks and paths. `amp` and `amp-mwrl` neither check nor move `num_policy` when they
  are installed.

The source stores outside an array as it does inside. What such a store hits is not known, so a
callback that leaves the arrays has no result here (`pre_inside_iff`, `post_inside_iff`), and every
property of the callbacks counts it as a violation.
-/

namespace SynCord
namespace Slots

abbrev Ptr := BitVec 64

def NULL : Ptr := 0

/-- `ERR_PTR` -/
def errPtr (e : Int) : Ptr := BitVec.ofInt 64 e

/-- `IS_ERR`: the last `MAX_ERRNO` = 4095 addresses. -/
def isErr (p : Ptr) : Bool := decide (BitVec.ofInt 64 (-4095) ≤ p)

/-- 0 or a negative error number. -/
def Status := { v : Int // -4095 ≤ v ∧ v ≤ 0 }

/-- A negative error number. -/
def Errno := { v : Int // -4095 ≤ v ∧ v ≤ -1 }

/-- A pointer to a program. -/
def Prog := { p : Ptr // p ≠ NULL ∧ isErr p = false }

/-- What the kernel answers about one path. -/
structure Lookup where
  kernPath : Status
  inodePermission : Status
  bpfAnyGet : Except Errno Prog

namespace Lookup

/-- What `bpf_any_get` returns. -/
def raw (l : Lookup) : Ptr :=
  match l.bpfAnyGet with
  | .ok p => p.1
  | .error e => errPtr e.1

end Lookup

/-- The file system at the time of a callback. -/
abbrev Fs := String → Lookup

def getPinnedBpfObj (fs : Fs) (pathname : String) : Ptr :=
  let l := fs pathname
  if l.kernPath.1 ≠ 0 then errPtr l.kernPath.1
  else if l.inodePermission.1 ≠ 0 then errPtr l.inodePermission.1
  else if isErr l.raw = false then l.raw
  -- `ret` still is what `inode_permission` returned
  else errPtr l.inodePermission.1

/-- The arrays of programs. -/
inductive Hook where
  | lockToEnterSlowpath
  | lockAcquired
  | lockToRelease
  | shouldReorder
  | lockBypassAcquireRead
  | lockAcquiredRead
  | lockBypassReleaseRead
  deriving DecidableEq

abbrev MAX_POLICY : Nat := 5

/-- The `bpf_prog_*` arrays. -/
abbrev Table := Hook → Fin MAX_POLICY → Ptr

structure Kernel where
  numPolicy : Int
  prog : Table
  /-- Shadow records, as the bytes they were allocated with. -/
  shadow : Shadow Ptr (List (BitVec 8))

/-- The index `i` of an array, when there is such an element. -/
def slot (i : Int) : Option (Fin MAX_POLICY) :=
  if h : 0 ≤ i ∧ i < MAX_POLICY then some ⟨i.toNat, by omega⟩ else none

namespace Kernel

/-- No policy has been installed yet. -/
def boot : Kernel where
  numPolicy := 0
  prog := fun _ _ => NULL
  shadow := .empty

/-- `bpf_prog_h[i]` -/
def load (k : Kernel) (h : Hook) (i : Int) : Option Ptr := (slot i).map (k.prog h)

/-- `bpf_prog_h[num_policy] = p` -/
def store (k : Kernel) (h : Hook) (p : Ptr) : Option Kernel :=
  (slot k.numPolicy).map fun i =>
    { k with prog := Function.update k.prog h (Function.update (k.prog h) i p) }

end Kernel

/-- Look the programs up and store them, up to the first that `IS_ERR`. -/
def register (fs : Fs) : List (Hook × String) → Kernel → Option (Kernel × Int)
  | [], k => some (k, 0)
  | (h, pathname) :: regs, k =>
    (k.store h (getPinnedBpfObj fs pathname)).bind fun k =>
      (k.load h k.numPolicy).bind fun p =>
        if isErr p then some (k, -1) else register fs regs k

def countedPre (regs : List (Hook × String)) (fs : Fs) (k : Kernel) : Option (Kernel × Int) :=
  if k.numPolicy < 4 then register fs regs { k with numPolicy := k.numPolicy + 1 }
  else some (k, -1)

def clear : List Hook → Kernel → Option Kernel
  | [], k => some k
  | h :: hs, k => (k.store h NULL).bind (clear hs)

def post (hs : List Hook) (k : Kernel) : Option Kernel :=
  (clear hs k).map fun k =>
    { k with numPolicy := k.numPolicy - 1, shadow := k.shadow.freeAll 0 }

/-! ## The patches -/

namespace Scl

def registrations : List (Hook × String) :=
  [(.lockToEnterSlowpath, "/sys/fs/bpf/scl_cont_lock"),
    (.lockAcquired, "/sys/fs/bpf/scl_acqed_lock"),
    (.lockToRelease, "/sys/fs/bpf/scl_release_lock"),
    (.shouldReorder, "/sys/fs/bpf/scl_cmp")]

def cleared : List Hook := [.lockAcquired, .lockToEnterSlowpath, .lockToRelease, .shouldReorder]

def prePatchCallback : Fs → Kernel → Option (Kernel × Int) := countedPre registrations

def postUnpatchCallback : Kernel → Option Kernel := post cleared

end Scl

namespace NumaScl

def registrations : List (Hook × String) :=
  [(.lockToEnterSlowpath, "/sys/fs/bpf/scl_cont_lock"),
    (.lockAcquired, "/sys/fs/bpf/scl_acqed_lock"),
    (.lockToRelease, "/sys/fs/bpf/scl_release_lock"),
    (.shouldReorder, "/sys/fs/bpf/scl_cmp")]

def cleared : List Hook := [.lockAcquired, .lockToEnterSlowpath, .lockToRelease, .shouldReorder]

def prePatchCallback : Fs → Kernel → Option (Kernel × Int) := countedPre registrations

def postUnpatchCallback : Kernel → Option Kernel := post cleared

end NumaScl

namespace Lockstat

def registrations : List (Hook × String) :=
  [(.lockAcquired, "/sys/fs/bpf/lockstat_lock_acquired"),
    (.lockToRelease, "/sys/fs/bpf/lockstat_lock_to_release"),
    (.lockToEnterSlowpath, "/sys/fs/bpf/lockstat_to_enter_slow_path")]

def cleared : List Hook := [.lockToEnterSlowpath, .lockAcquired, .lockToRelease]

def prePatchCallback : Fs → Kernel → Option (Kernel × Int) := countedPre registrations

def postUnpatchCallback : Kernel → Option Kernel := post cleared

end Lockstat

namespace Bravo

def registrations : List (Hook × String) :=
  [(.lockBypassAcquireRead, "/sys/fs/bpf/bravo_bypass_acq_lock"),
    (.lockAcquiredRead, "/sys/fs/bpf/bravo_acqed_lock"),
    (.lockBypassReleaseRead, "/sys/fs/bpf/bravo_bypass_release_lock")]

def cleared : List Hook := [.lockBypassAcquireRead, .lockBypassReleaseRead, .lockAcquiredRead]

def prePatchCallback : Fs → Kernel → Option (Kernel × Int) := countedPre registrations

def postUnpatchCallback : Kernel → Option Kernel := post cleared

end Bravo

namespace NumaGrouping

def registrations : List (Hook × String) := [(.shouldReorder, "/sys/fs/bpf/numa-grouping")]

def cleared : List Hook := [.shouldReorder]

def prePatchCallback : Fs → Kernel → Option (Kernel × Int) := countedPre registrations

def postUnpatchCallback : Kernel → Option Kernel := post cleared

end NumaGrouping

namespace NumaGroupingCna

def registrations : List (Hook × String) := [(.shouldReorder, "/sys/fs/bpf/numa-grouping-cna")]

def cleared : List Hook := [.shouldReorder]

def prePatchCallback : Fs → Kernel → Option (Kernel × Int) := countedPre registrations

def postUnpatchCallback : Kernel → Option Kernel := post cleared

end NumaGroupingCna

namespace Lock1

def registrations : List (Hook × String) := [(.shouldReorder, "/sys/fs/bpf/numa-grouping")]

def cleared : List Hook := [.shouldReorder]

def prePatchCallback : Fs → Kernel → Option (Kernel × Int) := countedPre registrations

def postUnpatchCallback : Kernel → Option Kernel := post cleared

end Lock1

namespace Amp

def registrations : List (Hook × String) := [(.lockToEnterSlowpath, "/sys/fs/bpf/amp_cont_lock")]

def cleared : List Hook := [.lockToEnterSlowpath, .lockAcquired]

-- no check of `num_policy` and no increment, so the store goes to the slot in use
def prePatchCallback : Fs → Kernel → Option (Kernel × Int) :=
  fun fs => register fs registrations

def postUnpatchCallback : Kernel → Option Kernel := post cleared

end Amp

namespace AmpMwrl

def registrations : List (Hook × String) := [(.lockToEnterSlowpath, "/sys/fs/bpf/amp_cont_lock")]

def cleared : List Hook := [.lockToEnterSlowpath, .lockAcquired]

def prePatchCallback : Fs → Kernel → Option (Kernel × Int) :=
  fun fs => register fs registrations

def postUnpatchCallback : Kernel → Option Kernel := post cleared

end AmpMwrl

inductive Patch where
  | scl
  | numaScl
  | lockstat
  | bravo
  | numaGrouping
  | numaGroupingCna
  | amp
  | ampMwrl
  | lock1
  deriving DecidableEq

namespace Patch

def prePatchCallback : Patch → Fs → Kernel → Option (Kernel × Int)
  | scl => Scl.prePatchCallback
  | numaScl => NumaScl.prePatchCallback
  | lockstat => Lockstat.prePatchCallback
  | bravo => Bravo.prePatchCallback
  | numaGrouping => NumaGrouping.prePatchCallback
  | numaGroupingCna => NumaGroupingCna.prePatchCallback
  | amp => Amp.prePatchCallback
  | ampMwrl => AmpMwrl.prePatchCallback
  | lock1 => Lock1.prePatchCallback

def postUnpatchCallback : Patch → Kernel → Option Kernel
  | scl => Scl.postUnpatchCallback
  | numaScl => NumaScl.postUnpatchCallback
  | lockstat => Lockstat.postUnpatchCallback
  | bravo => Bravo.postUnpatchCallback
  | numaGrouping => NumaGrouping.postUnpatchCallback
  | numaGroupingCna => NumaGroupingCna.postUnpatchCallback
  | amp => Amp.postUnpatchCallback
  | ampMwrl => AmpMwrl.postUnpatchCallback
  | lock1 => Lock1.postUnpatchCallback

def registrations : Patch → List (Hook × String)
  | scl => Scl.registrations
  | numaScl => NumaScl.registrations
  | lockstat => Lockstat.registrations
  | bravo => Bravo.registrations
  | numaGrouping => NumaGrouping.registrations
  | numaGroupingCna => NumaGroupingCna.registrations
  | amp => Amp.registrations
  | ampMwrl => AmpMwrl.registrations
  | lock1 => Lock1.registrations

def cleared : Patch → List Hook
  | scl => Scl.cleared
  | numaScl => NumaScl.cleared
  | lockstat => Lockstat.cleared
  | bravo => Bravo.cleared
  | numaGrouping => NumaGrouping.cleared
  | numaGroupingCna => NumaGroupingCna.cleared
  | amp => Amp.cleared
  | ampMwrl => AmpMwrl.cleared
  | lock1 => Lock1.cleared

/-- Whether installing the patch checks and moves `num_policy`. -/
def counts : Patch → Bool
  | scl | numaScl | lockstat | bravo | numaGrouping | numaGroupingCna | lock1 => true
  | amp | ampMwrl => false

/-- The hooks the patch registers a program for. -/
def hooks (p : Patch) : List Hook := p.registrations.map Prod.fst

/-- `num_policy` once the patch has stored something. -/
def bump (p : Patch) (n : Int) : Int := if p.counts then n + 1 else n

/-- The slot the patch stores its programs in, if it gets to store any. -/
def target (p : Patch) (n : Int) : Option (Fin MAX_POLICY) :=
  if p.counts = true ∧ 4 ≤ n then none else slot (p.bump n)

theorem prePatchCallback_counts {p : Patch} (h : p.counts = true) :
    p.prePatchCallback = countedPre p.registrations := by
  cases p <;> first | rfl | cases h

theorem prePatchCallback_uncounted {p : Patch} (h : p.counts = false) (fs : Fs) :
    p.prePatchCallback fs = register fs p.registrations := by
  cases p <;> first | rfl | cases h

theorem postUnpatchCallback_eq (p : Patch) : p.postUnpatchCallback = post p.cleared := by
  cases p <;> rfl

theorem hooks_nodup (p : Patch) : p.hooks.Nodup := by
  cases p <;> decide

theorem registrations_ne_nil (p : Patch) : p.registrations ≠ [] := by
  cases p <;> exact List.cons_ne_nil _ _

theorem cleared_ne_nil (p : Patch) : p.cleared ≠ [] := by
  cases p <;> exact List.cons_ne_nil _ _

/-- A patch clears every hook it has registered. -/
theorem hooks_subset_cleared (p : Patch) : p.hooks ⊆ p.cleared := by
  cases p <;> decide

end Patch

/-! ## What the callbacks do -/

theorem slot_eq_some {n : Int} {i : Fin MAX_POLICY} : slot n = some i ↔ n = i.val := by
  unfold slot
  split
  · simp only [Option.some.injEq, Fin.ext_iff]
    omega
  · simp only [reduceCtorEq, false_iff]
    have := i.isLt
    omega

theorem slot_eq_none {n : Int} : slot n = none ↔ n < 0 ∨ 4 < n := by
  have hm : (MAX_POLICY : Int) = 5 := rfl
  unfold slot
  split <;> simp only [reduceCtorEq, true_iff, false_iff] <;> omega

theorem slot_of_range {n : Int} (h0 : 0 ≤ n) (h4 : n ≤ 4) : ∃ i, slot n = some i := by
  rw [← Option.ne_none_iff_exists', Ne, slot_eq_none]
  omega

namespace Kernel

variable {k : Kernel} {h : Hook} {p : Ptr} {i : Fin MAX_POLICY}

theorem store_eq (hi : slot k.numPolicy = some i) :
    k.store h p =
      some { k with prog := Function.update k.prog h (Function.update (k.prog h) i p) } := by
  rw [store, hi]
  rfl

theorem load_slot {n : Int} (hi : n = i.val) (h : Hook) : k.load h n = some (k.prog h i) := by
  rw [load, slot_eq_some.2 hi]
  rfl

theorem store_none (hi : slot k.numPolicy = none) : k.store h p = none := by
  rw [store, hi]
  rfl

end Kernel

/-- What `register` leaves behind in slot `i`: all the programs, or the ones up to an error. -/
structure Registered (fs : Fs) (regs : List (Hook × String)) (i : Fin MAX_POLICY) (k k' : Kernel)
    (ret : Int) : Prop where
  numPolicy : k'.numPolicy = i.val
  shadow : k'.shadow = k.shadow
  other : ∀ h j, j ≠ i ∨ h ∉ regs.map Prod.fst → k'.prog h j = k.prog h j
  result :
    (ret = 0 ∧ ∀ r ∈ regs,
      isErr (getPinnedBpfObj fs r.2) = false ∧ k'.prog r.1 i = getPinnedBpfObj fs r.2) ∨
    (ret = -1 ∧ ∃ r ∈ regs,
      isErr (getPinnedBpfObj fs r.2) = true ∧ k'.prog r.1 i = getPinnedBpfObj fs r.2)

theorem register_cons {fs : Fs} {h : Hook} {path : String} {regs : List (Hook × String)}
    {k : Kernel} {i : Fin MAX_POLICY} (hi : slot k.numPolicy = some i) :
    register fs ((h, path) :: regs) k =
      let p := getPinnedBpfObj fs path
      let k' := { k with prog := Function.update k.prog h (Function.update (k.prog h) i p) }
      if isErr p then some (k', -1) else register fs regs k' := by
  simp [register, Kernel.store_eq hi, Kernel.load, hi]

theorem register_spec (fs : Fs) {regs : List (Hook × String)} {k : Kernel} {i : Fin MAX_POLICY}
    (hi : slot k.numPolicy = some i) (hn : (regs.map Prod.fst).Nodup) :
    ∃ k' ret, register fs regs k = some (k', ret) ∧ Registered fs regs i k k' ret := by
  induction regs generalizing k with
  | nil =>
    refine ⟨k, 0, rfl, slot_eq_some.1 hi, rfl, fun _ _ _ => rfl, .inl ⟨rfl, by simp⟩⟩
  | cons r regs ih =>
    obtain ⟨h, path⟩ := r
    simp only [List.map_cons, List.nodup_cons] at hn
    rw [register_cons hi]
    dsimp only
    set p := getPinnedBpfObj fs path with hp
    split
    · rename_i herr
      refine ⟨_, -1, rfl, slot_eq_some.1 hi, rfl, ?_, .inr ⟨rfl, (h, path), by simp, herr, ?_⟩⟩
      · rintro h' j (hj | hh)
        · by_cases hhh : h' = h
          · subst hhh; simp [hj]
          · simp [hhh]
        · have hhh : h' ≠ h := by rintro rfl; exact hh (by simp)
          simp [hhh]
      · simp [hp]
    · rename_i herr
      obtain ⟨k', ret, hk', hr⟩ := ih (k := { k with
        prog := Function.update k.prog h (Function.update (k.prog h) i p) }) hi hn.2
      -- the later stores go to other arrays
      have hhead : k'.prog h i = p := by rw [hr.other h i (.inr hn.1)]; simp
      refine ⟨k', ret, hk', hr.numPolicy, hr.shadow, ?_, ?_⟩
      · rintro h' j (hj | hh)
        · rw [hr.other h' j (.inl hj)]
          by_cases hhh : h' = h
          · subst hhh; simp [hj]
          · simp [hhh]
        · simp only [List.map_cons, List.mem_cons, not_or] at hh
          rw [hr.other h' j (.inr hh.2)]
          simp [hh.1]
      · refine hr.result.imp ?_ ?_
        · rintro ⟨h0, hall⟩
          refine ⟨h0, fun r hr' => ?_⟩
          rcases List.mem_cons.1 hr' with rfl | hr'
          · exact ⟨by simpa using herr, hhead⟩
          · exact hall r hr'
        · rintro ⟨h0, r, hr', hre⟩
          exact ⟨h0, r, List.mem_cons_of_mem _ hr', hre⟩

theorem register_fault {fs : Fs} {regs : List (Hook × String)} {k : Kernel}
    (hi : slot k.numPolicy = none) (hr : regs ≠ []) : register fs regs k = none := by
  cases regs with
  | nil => exact absurd rfl hr
  | cons r regs =>
    obtain ⟨h, path⟩ := r
    rw [register, Kernel.store_none hi]
    rfl

theorem clear_eq {hs : List Hook} {k : Kernel} {i : Fin MAX_POLICY}
    (hi : slot k.numPolicy = some i) :
    clear hs k =
      some { k with prog := fun h j => if j = i ∧ h ∈ hs then NULL else k.prog h j } := by
  induction hs generalizing k with
  | nil => simp [clear]
  | cons h hs ih =>
    rw [clear, Kernel.store_eq hi, Option.bind_some, ih (by exact hi)]
    congr 2
    funext h' j
    by_cases hj : j = i <;> by_cases hh : h' = h <;> simp_all

/-- The kernel after a `post_unpatch_callback` that clears the hooks `hs` of slot `i`. -/
def Kernel.cleared (k : Kernel) (hs : List Hook) (i : Fin MAX_POLICY) : Kernel where
  numPolicy := k.numPolicy - 1
  prog := fun h j => if j = i ∧ h ∈ hs then NULL else k.prog h j
  shadow := k.shadow.freeAll 0

/-! ## The callbacks of a patch -/

namespace Patch

variable {p : Patch} {fs : Fs} {k : Kernel} {i : Fin MAX_POLICY}

theorem bump_of_target {n : Int} (h : p.target n = some i) : p.bump n = i.val := by
  unfold target at h
  split at h
  · cases h
  · exact slot_eq_some.1 h

/-- A callback that gets to its stores. -/
theorem pre_target (fs : Fs) (h : p.target k.numPolicy = some i) :
    ∃ k' ret, p.prePatchCallback fs k = some (k', ret) ∧
      Registered fs p.registrations i k k' ret := by
  have hb := slot_eq_some.2 (bump_of_target h)
  cases hc : p.counts with
  | true =>
    have hlt : k.numPolicy < 4 := by
      unfold target at h
      split at h
      · cases h
      · rename_i hn; exact Int.not_le.1 fun h4 => hn ⟨hc, h4⟩
    rw [prePatchCallback_counts hc, countedPre, if_pos hlt]
    simp only [bump, hc, if_true] at hb
    obtain ⟨k', ret, hk, hr⟩ := register_spec fs
      (k := { k with numPolicy := k.numPolicy + 1 }) hb p.hooks_nodup
    exact ⟨k', ret, hk, hr.numPolicy, hr.shadow, hr.other, hr.result⟩
  | false =>
    rw [prePatchCallback_uncounted hc]
    simp only [bump, hc] at hb
    exact register_spec fs hb p.hooks_nodup

/-- The table is full. -/
theorem pre_refused (hc : p.counts = true) (h4 : 4 ≤ k.numPolicy) :
    p.prePatchCallback fs k = some (k, -1) := by
  rw [prePatchCallback_counts hc, countedPre, if_neg (Int.not_lt.2 h4)]

theorem pre_fault (h : p.target k.numPolicy = none) (h4 : p.counts = true → k.numPolicy < 4) :
    p.prePatchCallback fs k = none := by
  have hs : slot (p.bump k.numPolicy) = none := by
    unfold target at h
    rwa [if_neg fun hn => absurd (h4 hn.1) (Int.not_lt.2 hn.2)] at h
  cases hc : p.counts with
  | true =>
    rw [prePatchCallback_counts hc, countedPre, if_pos (h4 hc)]
    simp only [bump, hc, if_true] at hs
    exact register_fault hs p.registrations_ne_nil
  | false =>
    rw [prePatchCallback_uncounted hc]
    simp only [bump, hc] at hs
    exact register_fault hs p.registrations_ne_nil

/-- The values of `num_policy` at which the `pre_patch_callback` stays in the arrays. -/
def Inside (p : Patch) (n : Int) : Prop := if p.counts then -1 ≤ n else 0 ≤ n ∧ n ≤ 4

instance (p : Patch) (n : Int) : Decidable (p.Inside n) :=
  inferInstanceAs (Decidable (if p.counts then -1 ≤ n else 0 ≤ n ∧ n ≤ 4))

theorem inside_iff {n : Int} :
    p.Inside n ↔ (p.counts = true ∧ 4 ≤ n) ∨ ∃ i, p.target n = some i := by
  have hslot (m : Int) : (∃ i, slot m = some i) ↔ 0 ≤ m ∧ m ≤ 4 := by
    rw [← Option.ne_none_iff_exists', Ne, slot_eq_none]
    omega
  unfold Inside target bump
  cases hc : p.counts with
  | true =>
    by_cases h4 : 4 ≤ n
    · simp only [h4, if_true, true_and, true_or, iff_true]
      omega
    · simp only [h4, if_true, if_false, and_false, false_or, hslot]
      omega
  | false => simp only [Bool.false_eq_true, if_false, false_and, false_or, hslot]

theorem pre_inside_iff :
    (∃ k' ret, p.prePatchCallback fs k = some (k', ret)) ↔ p.Inside k.numPolicy := by
  rw [inside_iff]
  constructor
  · rintro ⟨k', ret, h⟩
    cases ht : p.target k.numPolicy with
    | some i => exact .inr ⟨i, rfl⟩
    | none =>
      by_contra hn
      rw [not_or] at hn
      rw [pre_fault ht fun hc => Int.not_le.1 fun h4 => hn.1 ⟨hc, h4⟩] at h
      cases h
  · rintro (⟨hc, h4⟩ | ⟨i, ht⟩)
    · exact ⟨k, -1, pre_refused hc h4⟩
    · obtain ⟨k', ret, h, _⟩ := pre_target fs ht
      exact ⟨k', ret, h⟩

/-- What a call that returns has done: nothing, because the table was full, or its stores. -/
theorem pre_cases {k' : Kernel} {ret : Int} (h : p.prePatchCallback fs k = some (k', ret)) :
    (p.counts = true ∧ 4 ≤ k.numPolicy ∧ k' = k ∧ ret = -1) ∨
      ∃ i, p.target k.numPolicy = some i ∧ Registered fs p.registrations i k k' ret := by
  cases ht : p.target k.numPolicy with
  | none =>
    by_cases h4 : p.counts = true ∧ 4 ≤ k.numPolicy
    · rw [pre_refused h4.1 h4.2] at h
      cases h
      exact .inl ⟨h4.1, h4.2, rfl, rfl⟩
    · rw [pre_fault ht fun hc => Int.not_le.1 fun h => h4 ⟨hc, h⟩] at h
      cases h
  | some i =>
    obtain ⟨k₁, ret₁, hk₁, hr⟩ := pre_target fs ht
    rw [hk₁] at h
    cases h
    exact .inr ⟨i, rfl, hr⟩

theorem post_eq (h : slot k.numPolicy = some i) :
    p.postUnpatchCallback k = some (k.cleared p.cleared i) := by
  rw [postUnpatchCallback_eq, post, clear_eq h]
  rfl

theorem post_fault (h : slot k.numPolicy = none) : p.postUnpatchCallback k = none := by
  rw [postUnpatchCallback_eq, post]
  cases hc : p.cleared with
  | nil => exact absurd hc p.cleared_ne_nil
  | cons h' hs => rw [clear, Kernel.store_none h]; rfl

theorem post_inside_iff :
    (∃ k', p.postUnpatchCallback k = some k') ↔ 0 ≤ k.numPolicy ∧ k.numPolicy ≤ 4 := by
  cases hi : slot k.numPolicy with
  | none =>
    rw [post_fault hi]
    rw [slot_eq_none] at hi
    simp only [reduceCtorEq, exists_false, false_iff]
    omega
  | some i =>
    have hb : i.val < 5 := i.isLt
    rw [slot_eq_some] at hi
    refine iff_of_true ⟨_, post_eq (slot_eq_some.2 hi)⟩ ?_
    omega

end Patch

end Slots
end SynCord
