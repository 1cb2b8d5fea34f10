import SynCord.Slots.System

/-!
# SynCord.Slots.Records

The shadow records that hooks leave on locks and threads, while patches come and go. Each patch has
its own `struct per_lock_data`, and all of them attach it with the number 0: whoever comes first
decides how large the record of a lock is. The hook code that runs is the one of the last installed
patch that replaces the function.

* `uninstall_keeps_records_iff` — every `post_unpatch_callback` frees all records with the number 0,
  so the others' records survive exactly if there are none.
* `record_layout` — records are read as they were allocated, if a patch that hooks spinlocks is
  installed only while there is no other patch's record on a spinlock.
-/

namespace SynCord
namespace Slots

/-! ## Layouts -/

/-- What lives at an address. -/
inductive Kind where
  | qspinlock
  | rwSemaphore
  | task
  deriving DecidableEq

/-- `sizeof(struct __aligned_u64_field)` -/
abbrev alignedField : Nat := 64

/-- `per_cpu_data[cpu]` -/
def perCpuData (cpu : Nat) : Nat := alignedField * cpu

namespace Scl

def totLockHold : Nat := 0
def numThreads : Nat := 8
def sizeofPerLockData : Nat := 16

def startTs : Nat := 0
def lockHold : Nat := 8
def sizeofPerThreadData : Nat := 16

end Scl

namespace Lockstat

def holdStart (NCPU : Nat) : Nat := alignedField * NCPU

-- the last word is padded to the alignment of the slots
def sizeofPerLockData (NCPU : Nat) : Nat := alignedField * NCPU + alignedField

end Lockstat

namespace Bravo

def RBias (NCPU : Nat) : Nat := alignedField * NCPU

def sizeofPerLockData (NCPU : Nat) : Nat := alignedField * NCPU + alignedField

end Bravo

/-! ## Hook code -/

/-- The functions with hook code. -/
inductive HookFn where
  | syncordLockAcquired
  | syncordLockToRelease
  | syncordToEnterSlowpath
  | syncordShouldReorder
  | customLockBypassAcquire
  | customLockAcquired
  | customLockAcquiredWriter
  | customLockBypassRelease
  deriving DecidableEq

/-- What the function gets as its lock. -/
def HookFn.lockKind : HookFn → Kind
  | syncordLockAcquired | syncordLockToRelease | syncordToEnterSlowpath | syncordShouldReorder =>
    .qspinlock
  | customLockBypassAcquire | customLockAcquired | customLockAcquiredWriter
  | customLockBypassRelease => .rwSemaphore

/-- One record that a hook obtains. -/
structure Use where
  obj : Ptr
  /-- The size for `klp_shadow_get_or_alloc`; `klp_shadow_get` makes no record. -/
  size : Option Nat
  /-- The words that the hook reads or writes, or hands to its program. -/
  offsets : List Nat

namespace Scl

def uses (f : HookFn) (lock current : Ptr) : List Use :=
  match f with
  | .syncordLockAcquired =>
    [⟨lock, some sizeofPerLockData, [numThreads]⟩,
      -- `klp_shadow_get`, and `klp_shadow_alloc` where that finds nothing
      ⟨current, some sizeofPerThreadData, [startTs]⟩]
  | .syncordLockToRelease =>
    [⟨current, none, [lockHold, startTs]⟩, ⟨lock, some sizeofPerLockData, [totLockHold]⟩]
  | .syncordToEnterSlowpath =>
    [⟨lock, some sizeofPerLockData, [totLockHold, numThreads]⟩, ⟨current, none, [lockHold]⟩]
  | _ => []

end Scl

namespace Lockstat

def uses (NCPU : Nat) (f : HookFn) (lock : Ptr) (cpu : Nat) : List Use :=
  match f with
  | .syncordLockAcquired | .syncordLockToRelease | .syncordToEnterSlowpath =>
    [⟨lock, some (sizeofPerLockData NCPU), [holdStart NCPU, perCpuData cpu]⟩]
  | _ => []

end Lockstat

namespace Bravo

def uses (NCPU : Nat) (f : HookFn) (lock : Ptr) (cpu : Nat) : List Use :=
  match f with
  | .customLockBypassAcquire | .customLockBypassRelease =>
    [⟨lock, none, [perCpuData cpu, RBias NCPU]⟩]
  | .customLockAcquired =>
    [⟨lock, some (sizeofPerLockData NCPU), [perCpuData cpu, RBias NCPU]⟩]
  | .customLockAcquiredWriter =>
    [⟨lock, some (sizeofPerLockData NCPU), RBias NCPU :: (List.range NCPU).map perCpuData⟩]
  | _ => []

end Bravo

namespace Patch

def replaces : Patch → HookFn → Bool
  | scl, f | numaScl, f => f = .syncordLockAcquired || f = .syncordLockToRelease ||
      f = .syncordToEnterSlowpath || f = .syncordShouldReorder
  | lockstat, f => f = .syncordLockAcquired || f = .syncordLockToRelease ||
      f = .syncordToEnterSlowpath
  | bravo, f => f = .customLockBypassAcquire || f = .customLockAcquired ||
      f = .customLockAcquiredWriter || f = .customLockBypassRelease
  | numaGrouping, f | numaGroupingCna, f => f = .syncordShouldReorder
  | amp, f | ampMwrl, f => f = .syncordToEnterSlowpath
  | lock1, _ => false

/-- The records that the code of the patch for a function obtains. -/
def uses (NCPU : Nat) (p : Patch) (f : HookFn) (lock current : Ptr) (cpu : Nat) : List Use :=
  match p with
  | scl | numaScl => Scl.uses f lock current
  | lockstat => Lockstat.uses NCPU f lock cpu
  | bravo => Bravo.uses NCPU f lock cpu
  | numaGrouping | numaGroupingCna | amp | ampMwrl | lock1 => []

/-- The size of the records that a patch makes for objects of a kind. -/
def recordSize (NCPU : Nat) : Patch → Kind → Option Nat
  | scl, .qspinlock | numaScl, .qspinlock => some Scl.sizeofPerLockData
  | scl, .task | numaScl, .task => some Scl.sizeofPerThreadData
  | lockstat, .qspinlock => some (Lockstat.sizeofPerLockData NCPU)
  | bravo, .rwSemaphore => some (Bravo.sizeofPerLockData NCPU)
  | _, _ => none

/-- Whether hooks of the patch make records. -/
def makesRecords : Patch → Bool
  | scl | numaScl | lockstat | bravo => true
  | numaGrouping | numaGroupingCna | amp | ampMwrl | lock1 => false

end Patch

/-- The patch whose code runs for a function, the last installed first. -/
def inEffect (es : List Entry) (f : HookFn) : Option Patch :=
  (es.find? fun e => e.patch.replaces f).map Entry.patch

/-! ## Uses lie in the records -/

/-- The use asks for a record of `n` bytes, and its words lie in such a record. -/
structure Use.Fits (u : Use) (n : Nat) : Prop where
  size : ∀ m, u.size = some m → m = n
  offsets : ∀ o ∈ u.offsets, o + 8 ≤ n

section Layout

variable {NCPU : Nat} {f : HookFn} {lock current : Ptr} {cpu : Nat} {u : Use}

theorem Scl.uses_fit (h : u ∈ Scl.uses f lock current) :
    f.lockKind = .qspinlock ∧ (u.obj = lock ∨ u.obj = current) ∧ u.Fits 16 := by
  cases f <;> simp only [Scl.uses, List.mem_cons, List.not_mem_nil, or_false] at h
  all_goals
    refine ⟨rfl, ?_⟩
    rcases h with rfl | rfl
    · exact ⟨by simp, by simp [sizeofPerLockData],
        by simp [numThreads, totLockHold, lockHold, startTs]⟩
    · exact ⟨by simp, by simp [sizeofPerLockData, sizeofPerThreadData],
        by simp [totLockHold, lockHold, startTs]⟩

theorem eight_le_alignedField : 8 ≤ alignedField := by decide

theorem perCpuData_fits {n : Nat} (h : n < NCPU) :
    perCpuData n + 8 ≤ alignedField * NCPU + alignedField := by
  unfold perCpuData alignedField
  omega

theorem Lockstat.uses_fit (hcpu : cpu < NCPU) (h : u ∈ Lockstat.uses NCPU f lock cpu) :
    f.lockKind = .qspinlock ∧ u.obj = lock ∧ u.Fits (Lockstat.sizeofPerLockData NCPU) := by
  have hc := perCpuData_fits hcpu
  have h8 := eight_le_alignedField
  cases f <;> simp only [Lockstat.uses, List.mem_cons, List.not_mem_nil, or_false] at h
  all_goals
    subst h
    refine ⟨rfl, rfl, by simp, fun o ho => ?_⟩
    simp only [List.mem_cons, List.not_mem_nil, or_false, holdStart] at ho
    unfold sizeofPerLockData
    omega

theorem Bravo.uses_fit (hcpu : cpu < NCPU) (h : u ∈ Bravo.uses NCPU f lock cpu) :
    f.lockKind = .rwSemaphore ∧ u.obj = lock ∧ u.Fits (Bravo.sizeofPerLockData NCPU) := by
  have hc := perCpuData_fits hcpu
  have h8 := eight_le_alignedField
  cases f <;> simp only [Bravo.uses, List.mem_cons, List.not_mem_nil, or_false] at h
  case customLockAcquiredWriter =>
    subst h
    refine ⟨rfl, rfl, by simp, fun o ho => ?_⟩
    rcases List.mem_cons.1 ho with rfl | ho
    · unfold RBias sizeofPerLockData
      omega
    · obtain ⟨n, hn, rfl⟩ := List.mem_map.1 ho
      exact perCpuData_fits (List.mem_range.1 hn)
  all_goals
    subst h
    refine ⟨rfl, rfl, by simp, fun o ho => ?_⟩
    simp only [List.mem_cons, List.not_mem_nil, or_false, RBias] at ho
    unfold sizeofPerLockData
    omega

variable {p : Patch}

theorem Patch.makesRecords_of_recordSize {kd : Kind} {n : Nat}
    (h : p.recordSize NCPU kd = some n) : p.makesRecords = true := by
  cases p <;> cases kd <;> first | rfl | cases h

theorem Patch.uses_fit {kind : Ptr → Kind} (hcpu : cpu < NCPU) (hl : kind lock = f.lockKind)
    (ht : kind current = .task) (h : u ∈ p.uses NCPU f lock current cpu) :
    ∃ n, p.recordSize NCPU (kind u.obj) = some n ∧ u.Fits n := by
  have hscl : u ∈ Scl.uses f lock current →
      (kind u.obj = .qspinlock ∨ kind u.obj = .task) ∧ u.Fits 16 := by
    intro h
    obtain ⟨hf, ho, hfit⟩ := Scl.uses_fit h
    exact ⟨ho.imp (fun ho => by rw [ho, hl, hf]) fun ho => by rw [ho, ht], hfit⟩
  cases p with
  | scl | numaScl =>
    obtain ⟨ho | ho, hfit⟩ := hscl h <;> exact ⟨16, by rw [ho]; rfl, hfit⟩
  | lockstat =>
    obtain ⟨hf, ho, hfit⟩ := Lockstat.uses_fit hcpu h
    exact ⟨_, by rw [ho, hl, hf]; rfl, hfit⟩
  | bravo =>
    obtain ⟨hf, ho, hfit⟩ := Bravo.uses_fit hcpu h
    exact ⟨_, by rw [ho, hl, hf]; rfl, hfit⟩
  | numaGrouping | numaGroupingCna | amp | ampMwrl | lock1 => cases h

end Layout

/-! ## Runs -/

/-- Eight bytes at an offset, the low one first. What lies behind the record is not part of it. -/
def putWord (r : List (BitVec 8)) (offset : Nat) (w : BitVec 64) : List (BitVec 8) :=
  (List.range 8).foldl (fun r i => r.set (offset + i) (w.extractLsb' (8 * i) 8)) r

theorem length_foldl {α β : Type} {g : List β → α → List β}
    (hg : ∀ r a, (g r a).length = r.length) (as : List α) (r : List β) :
    (as.foldl g r).length = r.length := by
  induction as generalizing r with
  | nil => rfl
  | cons a as ih => rw [List.foldl_cons, ih, hg]

/-- Every word of the use gets the value that the hook leaves there. -/
def Use.write (u : Use) (vals : Ptr → Nat → BitVec 64) (r : List (BitVec 8)) : List (BitVec 8) :=
  u.offsets.foldl (fun r o => putWord r o (vals u.obj o)) r

theorem Use.length_write (u : Use) (vals : Ptr → Nat → BitVec 64) (r : List (BitVec 8)) :
    (u.write vals r).length = r.length :=
  length_foldl (fun r _ => length_foldl (fun _ _ => List.length_set) _ r) _ r

namespace Records

structure Sys where
  base : Slots.Sys
  /-- The patch whose hook has allocated the record of an object. -/
  owner : Ptr → Option Patch

def Sys.boot : Sys := ⟨.boot, fun _ => none⟩

/-- The record of an object with the number 0. -/
def Sys.record (s : Sys) (obj : Ptr) : Option (List (BitVec 8)) := s.base.kernel.shadow.get obj 0

def Sys.put (s : Sys) (obj : Ptr) (r : List (BitVec 8)) : Sys :=
  ⟨⟨{ s.base.kernel with shadow := s.base.kernel.shadow.set obj 0 r }, s.base.installed⟩, s.owner⟩

def Sys.claim (s : Sys) (obj : Ptr) (p : Patch) : Sys :=
  { s with owner := Function.update s.owner obj (some p) }

/-- A hook of `p` obtains a record and works on it. -/
def useRecord (p : Patch) (vals : Ptr → Nat → BitVec 64) (s : Sys) (u : Use) : Sys :=
  match s.record u.obj, u.size with
  | some r, _ => s.put u.obj (u.write vals r)
  | none, some n => (s.put u.obj (u.write vals (List.replicate n 0))).claim u.obj p
  | none, none => s

inductive Event where
  | patch (e : Slots.Event)
  /-- A call of `f` for a lock by a thread on a CPU, with the values it leaves in the records. -/
  | hook (f : HookFn) (lock current : Ptr) (cpu : Nat) (vals : Ptr → Nat → BitVec 64)

/-- The machine, with what lives where and the number of CPUs. -/
def step (kind : Ptr → Kind) (NCPU : Nat) (s : Sys) : Event → Option Sys
  | .patch e => (Slots.step s.base e).map fun b =>
      ⟨b, fun obj => if (b.kernel.shadow.get obj 0).isSome then s.owner obj else none⟩
  | .hook f lock current cpu vals =>
    if kind lock = f.lockKind ∧ kind current = .task ∧ cpu < NCPU then
      match inEffect s.base.installed f with
      | some p => some ((p.uses NCPU f lock current cpu).foldl (useRecord p vals) s)
      | none => some s
    else none

section Store

variable {s : Sys} {obj x : Ptr} {r : List (BitVec 8)} {p : Patch}

theorem record_put : (s.put obj r).record x = if x = obj then some r else s.record x :=
  Shadow.get_set _ _ _ _ _

@[simp] theorem owner_put : (s.put obj r).owner = s.owner := rfl

@[simp] theorem record_claim : (s.claim obj p).record x = s.record x := rfl

theorem owner_claim : (s.claim obj p).owner x = if x = obj then some p else s.owner x :=
  Function.update_apply _ _ _ _

/-- What a hook can do to a record: write to it, make it, or find none. -/
theorem useRecord_cases (p : Patch) (vals : Ptr → Nat → BitVec 64) (s : Sys) (u : Use) :
    (∃ r r', s.record u.obj = some r ∧ r'.length = r.length ∧
      useRecord p vals s u = s.put u.obj r') ∨
    (∃ n r', s.record u.obj = none ∧ u.size = some n ∧ r'.length = n ∧
      useRecord p vals s u = (s.put u.obj r').claim u.obj p) ∨
    (s.record u.obj = none ∧ useRecord p vals s u = s) := by
  unfold useRecord
  cases hr : s.record u.obj with
  | some r => exact .inl ⟨r, _, rfl, u.length_write vals r, rfl⟩
  | none =>
    cases hn : u.size with
    | some n =>
      refine .inr (.inl ⟨n, _, rfl, rfl, ?_, rfl⟩)
      rw [u.length_write, List.length_replicate]
    | none => exact .inr (.inr ⟨rfl, rfl⟩)

end Store

/-! ## Who owns what -/

section Run

variable {kind : Ptr → Kind} {NCPU : Nat} {s s' : Sys}

/-- A record has the size that its owner gives to records of that kind. -/
structure Owned (kind : Ptr → Kind) (NCPU : Nat) (s : Sys) : Prop where
  owner : ∀ obj, s.record obj = none ↔ s.owner obj = none
  size : ∀ obj r q, s.record obj = some r → s.owner obj = some q →
    q.recordSize NCPU (kind obj) = some r.length

theorem owned_boot : Owned kind NCPU .boot where
  owner := fun _ => ⟨fun _ => rfl, fun _ => rfl⟩
  size := fun _ _ _ h => by cases h

theorem Owned.exists_record (h : Owned kind NCPU s) {obj : Ptr} {q : Patch}
    (ho : s.owner obj = some q) : ∃ r, s.record obj = some r := by
  cases hr : s.record obj with
  | none => rw [(h.owner obj).1 hr] at ho; cases ho
  | some r => exact ⟨r, rfl⟩

theorem Owned.useRecord (h : Owned kind NCPU s) (p : Patch) (vals : Ptr → Nat → BitVec 64) {u : Use}
    {n : Nat} (hn : p.recordSize NCPU (kind u.obj) = some n) (hfit : u.Fits n) :
    Owned kind NCPU (useRecord p vals s u) := by
  rcases useRecord_cases p vals s u with ⟨r, r', hr, hl, he⟩ | ⟨m, r', hr, hm, hl, he⟩ | ⟨-, he⟩
  · rw [he]
    refine ⟨fun obj => ?_, fun obj x q hx hq => ?_⟩
    · rw [record_put, owner_put]
      by_cases ho : obj = u.obj
      · rw [if_pos ho, ← h.owner, ho, hr]
        simp
      · rw [if_neg ho, h.owner]
    · rw [record_put] at hx
      by_cases ho : obj = u.obj
      · rw [if_pos ho] at hx
        cases hx
        rw [hl]
        subst ho
        exact h.size _ r q hr hq
      · rw [if_neg ho] at hx
        exact h.size obj x q hx hq
  · rw [he]
    refine ⟨fun obj => ?_, fun obj x q hx hq => ?_⟩
    · rw [record_claim, record_put, owner_claim, owner_put]
      by_cases ho : obj = u.obj
      · simp [ho]
      · rw [if_neg ho, if_neg ho, h.owner]
    · rw [record_claim, record_put] at hx
      rw [owner_claim, owner_put] at hq
      by_cases ho : obj = u.obj
      · rw [if_pos ho] at hx hq
        cases hx
        cases hq
        rw [ho, hn, hl, hfit.size m hm]
      · rw [if_neg ho] at hx hq
        exact h.size obj x q hx hq
  · rwa [he]

/-- A property of the store that every use keeps is kept by the hook. -/
theorem foldl_useRecord {P : Sys → Prop} {p : Patch} {vals : Ptr → Nat → BitVec 64} {us : List Use}
    (hs : P s) (hstep : ∀ s u, u ∈ us → P s → P (useRecord p vals s u)) :
    P (us.foldl (useRecord p vals) s) := by
  induction us generalizing s with
  | nil => exact hs
  | cons u us ih =>
    rw [List.foldl_cons]
    exact ih (hstep s u (by simp) hs) fun s u hu => hstep s u (List.mem_cons_of_mem _ hu)

/-- An install leaves the records alone, an uninstall none of them. -/
theorem record_patch {b b' : Slots.Sys} {e : Slots.Event} (h : Slots.Tr b e b') (obj : Ptr) :
    b'.kernel.shadow.get obj 0 =
      match e with
      | .install _ _ => b.kernel.shadow.get obj 0
      | .uninstall _ => none := by
  cases h with
  | refused => rfl
  | installed ht hr => rw [hr.shadow]
  | failed ht hr => rw [hr.shadow]
  | uninstalled he hi => rfl

theorem Owned.patch (h : Owned kind NCPU s) {b : Slots.Sys} {e : Slots.Event}
    (hb : Slots.step s.base e = some b) : Owned kind NCPU
      ⟨b, fun obj => if (b.kernel.shadow.get obj 0).isSome then s.owner obj else none⟩ := by
  have hrec := record_patch (step_tr hb)
  cases e with
  | install p fs =>
    refine ⟨fun obj => ?_, fun obj r q hr hq => ?_⟩
    · simp only [Sys.record, hrec]
      have := h.owner obj
      rw [Sys.record] at this
      cases hr : s.base.kernel.shadow.get obj 0 with
      | none => simp
      | some r => rw [hr] at this; simpa using this
    · simp only [Sys.record, hrec] at hr hq
      rw [hr] at hq
      exact h.size obj r q hr (by simpa using hq)
  | uninstall n =>
    refine ⟨fun obj => ?_, fun obj r q hr => ?_⟩
    · simp [Sys.record, hrec]
    · simp [Sys.record, hrec] at hr

theorem owned {ok : Sys → Event → Prop} (h : Reach (step kind NCPU) ok .boot s) :
    Owned kind NCPU s := by
  refine h.invariant owned_boot ?_
  intro s e s' ih _ hs
  cases e with
  | patch e =>
    obtain ⟨b, hb, rfl⟩ := Option.map_eq_some_iff.1 hs
    exact ih.patch hb
  | hook f lock current cpu vals =>
    simp only [step] at hs
    split at hs
    · rename_i hok
      split at hs
      · rename_i p _
        cases hs
        refine foldl_useRecord ih fun s u hu ih => ?_
        obtain ⟨n, hn, hfit⟩ := Patch.uses_fit hok.2.2 hok.1 hok.2.1 hu
        exact ih.useRecord p vals hn hfit
      · cases hs
        exact ih
    · cases hs

/-! ## Uninstalling -/

/-- The patch is still installed when the one at position `n` is gone. -/
def Stays (s : Sys) (n : Nat) (q : Patch) : Prop :=
  ∃ e ∈ s.base.installed.eraseIdx n, e.patch = q

/-- The records that hooks of the other installed patches have allocated stay as they are. -/
def KeepsOthers (s : Sys) (n : Nat) (s' : Sys) : Prop :=
  ∀ obj q, s.owner obj = some q → Stays s n q → s'.record obj = s.record obj

theorem record_uninstalled {n : Nat}
    (hs : step kind NCPU s (.patch (.uninstall n)) = some s') (obj : Ptr) :
    s'.record obj = none := by
  obtain ⟨b, hb, rfl⟩ := Option.map_eq_some_iff.1 hs
  exact record_patch (step_tr hb) obj

/-- An uninstall keeps the others' records exactly if they have none, which is so if no other
installed patch is one that makes records. -/
theorem uninstall_keeps_records_iff (h : Reach (step kind NCPU) anyStep .boot s) {n : Nat}
    (hs : step kind NCPU s (.patch (.uninstall n)) = some s') :
    (KeepsOthers s n s' ↔ ∀ obj q, s.owner obj = some q → ¬ Stays s n q) ∧
      ((∀ e ∈ s.base.installed.eraseIdx n, e.patch.makesRecords = false) →
        KeepsOthers s n s') := by
  have ho := owned h
  refine ⟨⟨fun hk obj q hq hst => ?_, fun hno obj q hq hst => absurd hst (hno obj q hq)⟩,
    fun hno obj q hq hst => ?_⟩
  · obtain ⟨r, hr⟩ := ho.exists_record hq
    have := hk obj q hq hst
    rw [record_uninstalled hs, hr] at this
    cases this
  · obtain ⟨r, hr⟩ := ho.exists_record hq
    obtain ⟨e, he, rfl⟩ := hst
    have hm := Patch.makesRecords_of_recordSize (ho.size obj r _ hr hq)
    rw [hno e he] at hm
    cases hm

/-! ## Reading records -/

/-- The record that the use obtains was allocated by the same patch, and its words lie in it. -/
structure InLayout (s : Sys) (p : Patch) (u : Use) : Prop where
  found : ∀ r, s.record u.obj = some r →
    s.owner u.obj = some p ∧ ∀ o ∈ u.offsets, o + 8 ≤ r.length
  made : ∀ n, s.record u.obj = none → u.size = some n → ∀ o ∈ u.offsets, o + 8 ≤ n

/-- A patch that hooks the acquisition of spinlocks is installed only while no spinlock has a
record of another patch. -/
def FreshLocks (kind : Ptr → Kind) (s : Sys) : Event → Prop
  | .patch (.install p _) => p.replaces .syncordLockAcquired = true →
      ∀ obj q, kind obj = .qspinlock → s.owner obj = some q → q = p
  | _ => True

theorem inEffect_cons (e : Entry) (es : List Entry) (f : HookFn) :
    inEffect (e :: es) f = if e.patch.replaces f then some e.patch else inEffect es f := by
  unfold inEffect
  rw [List.find?_cons]
  cases e.patch.replaces f <;> rfl

/-- Code that uses the record of a spinlock comes with a hook for its acquisition, and such a hook
comes with code for the function. -/
theorem spin_of_mem_uses {p : Patch} {f : HookFn} {lock current : Ptr} {cpu n : Nat} {u : Use}
    (h : u ∈ p.uses NCPU f lock current cpu) (hn : p.recordSize NCPU .qspinlock = some n) :
    p.replaces .syncordLockAcquired = true ∧
      ∀ q : Patch, q.replaces .syncordLockAcquired = true → q.replaces f = true := by
  cases p <;> try cases hn
  all_goals
    refine ⟨rfl, fun q hq => ?_⟩
    cases f <;> try cases h
    all_goals cases q <;> first | rfl | cases hq

theorem inEffect_acquired {es : List Entry} {p : Patch} {f : HookFn}
    (hp : p.replaces .syncordLockAcquired = true)
    (hall : ∀ q : Patch, q.replaces .syncordLockAcquired = true → q.replaces f = true)
    (h : inEffect es f = some p) : inEffect es .syncordLockAcquired = some p := by
  induction es with
  | nil => cases h
  | cons e es ih =>
    rw [inEffect_cons] at h ⊢
    by_cases he : e.patch.replaces f = true
    · rw [if_pos he] at h
      cases h
      rw [if_pos hp]
    · rw [if_neg he] at h
      rw [if_neg fun ha => he (hall _ ha)]
      exact ih h

/-- The records of spinlocks are those of the patch whose hook runs. -/
def Current (kind : Ptr → Kind) (s : Sys) : Prop :=
  ∀ obj q, kind obj = .qspinlock → s.owner obj = some q →
    inEffect s.base.installed .syncordLockAcquired = some q

theorem installed_useRecord (p : Patch) (vals : Ptr → Nat → BitVec 64) (s : Sys) (u : Use) :
    (useRecord p vals s u).base.installed = s.base.installed := by
  rcases useRecord_cases p vals s u with ⟨_, _, -, -, he⟩ | ⟨_, _, -, -, -, he⟩ | ⟨-, he⟩ <;>
    rw [he] <;> rfl

theorem owner_useRecord {p q : Patch} {vals : Ptr → Nat → BitVec 64} {u : Use} {obj : Ptr}
    (h : (useRecord p vals s u).owner obj = some q) :
    s.owner obj = some q ∨ obj = u.obj ∧ q = p := by
  rcases useRecord_cases p vals s u with ⟨_, _, -, -, he⟩ | ⟨_, _, -, -, -, he⟩ | ⟨-, he⟩
  · rw [he] at h
    exact .inl h
  · rw [he, owner_claim] at h
    by_cases ho : obj = u.obj
    · rw [if_pos ho] at h
      cases h
      exact .inr ⟨ho, rfl⟩
    · rw [if_neg ho] at h
      exact .inl h
  · rw [he] at h
    exact .inl h

theorem current_step {e : Event} (hc : Current kind s) (hok : FreshLocks kind s e)
    (hs : step kind NCPU s e = some s') : Current kind s' := by
  cases e with
  | patch e =>
    obtain ⟨b, hb, rfl⟩ := Option.map_eq_some_iff.1 hs
    have htr := step_tr hb
    have hrec := record_patch htr
    intro obj q hk hq
    obtain ⟨hsome, hown⟩ : (b.kernel.shadow.get obj 0).isSome = true ∧ s.owner obj = some q := by
      dsimp only at hq
      split at hq
      · exact ⟨‹_›, hq⟩
      · cases hq
    cases htr with
    | refused | failed => exact hc obj q hk hown
    | @installed p fs i k ht hr =>
      rw [inEffect_cons]
      by_cases hp : p.replaces .syncordLockAcquired = true
      · rw [if_pos hp, hok hp obj q hk hown]
      · rw [if_neg hp]
        exact hc obj q hk hown
    | uninstalled =>
      rw [hrec] at hsome
      cases hsome
  | hook f lock current cpu vals =>
    simp only [step] at hs
    split at hs
    · rename_i hk
      split at hs
      · rename_i p hp
        cases hs
        have hinv : ((p.uses NCPU f lock current cpu).foldl (useRecord p vals) s).base.installed =
            s.base.installed ∧ Current kind
              ((p.uses NCPU f lock current cpu).foldl (useRecord p vals) s) := by
          refine foldl_useRecord (P := fun x => x.base.installed = s.base.installed ∧
            Current kind x) ⟨rfl, hc⟩ fun x u hu ⟨hi, hx⟩ => ?_
          refine ⟨(installed_useRecord p vals x u).trans hi, fun obj q hkd hq => ?_⟩
          rw [installed_useRecord]
          rcases owner_useRecord hq with hq | ⟨ho, rfl⟩
          · exact hx obj q hkd hq
          · obtain ⟨n, hn, -⟩ := Patch.uses_fit hk.2.2 hk.1 hk.2.1 hu
            rw [← ho, hkd] at hn
            obtain ⟨hpa, hall⟩ := spin_of_mem_uses hu hn
            rw [hi]
            exact inEffect_acquired hpa hall hp
        exact hinv.2
      · cases hs
        exact hc
    · cases hs

theorem bravo_of_recordSize {p : Patch} {n : Nat}
    (h : p.recordSize NCPU .rwSemaphore = some n) : p = .bravo := by
  cases p <;> first | rfl | cases h

/-- In a run that meets `FreshLocks`, every hook reads the record of its lock as the patch it
belongs to has allocated it. -/
theorem record_layout (h : Reach (step kind NCPU) (FreshLocks kind) .boot s) {f : HookFn}
    {lock current : Ptr} {cpu : Nat} (hl : kind lock = f.lockKind) (ht : kind current = .task)
    (hcpu : cpu < NCPU) {p : Patch} (hp : inEffect s.base.installed f = some p) {u : Use}
    (hu : u ∈ p.uses NCPU f lock current cpu) (hlock : u.obj = lock) : InLayout s p u := by
  have ho := owned h
  have hc : Current kind s := by
    refine h.invariant (P := Current kind) (fun obj q _ hq => by cases hq) ?_
    exact fun s e s' => current_step
  obtain ⟨n, hn, hfit⟩ := Patch.uses_fit hcpu hl ht hu
  refine ⟨fun r hr => ?_, fun m _ hm o hmem => ?_⟩
  · obtain ⟨q, hq⟩ : ∃ q, s.owner u.obj = some q := by
      rw [← Option.ne_none_iff_exists', Ne, ← ho.owner, hr]
      simp
    have hsize := ho.size _ r q hr hq
    have hqp : q = p := by
      cases hk : kind u.obj with
      | qspinlock =>
        rw [hk] at hn
        obtain ⟨hpa, hall⟩ := spin_of_mem_uses hu hn
        have := inEffect_acquired hpa hall hp
        rw [hc _ q hk hq] at this
        exact Option.some.inj this
      | rwSemaphore =>
        rw [hk] at hn hsize
        rw [bravo_of_recordSize hn, bravo_of_recordSize hsize]
      | task =>
        rw [hlock, hl] at hk
        cases f <;> cases hk
    subst hqp
    refine ⟨hq, fun o hmem => ?_⟩
    rw [hn] at hsize
    cases hsize
    exact hfit.offsets o hmem
  · rw [hfit.size m hm]
    exact hfit.offsets o hmem

end Run

/-! ## Two runs -/

/-- A semaphore at 8, a thread at 16, and spinlocks elsewhere. -/
def places (a : Ptr) : Kind := if a = 8 then .rwSemaphore else if a = 16 then .task else .qspinlock

/-- An install that finds its programs. -/
def found (p : Patch) : Event := .patch (.install p fun _ => .found somewhere)

/-- A call for the lock at `a` that leaves ones everywhere. -/
def call (f : HookFn) (a : Ptr) : Event := .hook f a 16 0 fun _ _ => 1

theorem uninstall_keeps_records_amp : ∃ s s' : Sys,
    Reach (step places 2) anyStep .boot s ∧ s.owner 8 = some .bravo ∧
      step places 2 s (.patch (.uninstall 0)) = some s' ∧ KeepsOthers s 0 s' := by
  have h : Reach (step places 2) anyStep .boot _ :=
    ((Reach.start.next (a := found .amp) trivial rfl).next (a := found .bravo) trivial rfl).next
      (a := call .customLockAcquired 8) trivial rfl
  refine ⟨_, _, h, rfl, rfl, (uninstall_keeps_records_iff h rfl).2 fun e he => ?_⟩
  obtain rfl := List.mem_singleton.1 he
  rfl

/-- `bravo` has a record with `RBias` set when `amp`, which has none, is uninstalled. -/
theorem uninstall_frees_others : ∃ (s s' : Sys) (r : List (BitVec 8)),
    Reach (step places 2) anyStep .boot s ∧
      step places 2 s (.patch (.uninstall 0)) = some s' ∧ Stays s 0 .bravo ∧
      s.owner 8 = some .bravo ∧ s.record 8 = some r ∧ r[Bravo.RBias 2]? = some 1 ∧
      s'.record 8 = none ∧ ¬ KeepsOthers s 0 s' := by
  have h : Reach (step places 2) anyStep .boot _ :=
    ((Reach.start.next (a := found .bravo) trivial rfl).next
      (a := call .customLockAcquired 8) trivial rfl).next (a := found .amp) trivial rfl
  refine ⟨_, _, _, h, rfl, ?_, rfl, rfl, ?_, rfl, fun hk => ?_⟩
  · exact ⟨_, List.mem_singleton.2 rfl, rfl⟩
  · decide
  · cases hk 8 .bravo rfl ⟨_, List.mem_singleton.2 rfl, rfl⟩

theorem record_layout_lockstat : ∃ s : Sys, Reach (step places 2) (FreshLocks places) .boot s ∧
    inEffect s.base.installed .syncordLockAcquired = some .lockstat ∧
      ∀ u ∈ Patch.lockstat.uses 2 .syncordLockAcquired 24 16 1, InLayout s .lockstat u := by
  have h : Reach (step places 2) (FreshLocks places) .boot _ :=
    (Reach.start.next (a := found .lockstat) (fun _ _ _ _ hq => by cases hq) rfl).next
      (a := call .syncordLockAcquired 24) trivial rfl
  refine ⟨_, h, rfl, fun u hu => ?_⟩
  exact record_layout h rfl rfl (by decide) rfl hu (by obtain rfl := List.mem_singleton.1 hu; rfl)

/-- `scl` makes the record of a spinlock, then `lockstat` is installed. Its hook finds 16 bytes and
looks for `hold_start` at 128. -/
theorem record_layout_scl_lockstat : ∃ (s : Sys) (r : List (BitVec 8)) (u : Use),
    Reach (step places 2) anyStep .boot s ∧
      inEffect s.base.installed .syncordLockAcquired = some .lockstat ∧
      u ∈ Patch.lockstat.uses 2 .syncordLockAcquired 24 16 0 ∧
      s.record 24 = some r ∧ r.length = 16 ∧ s.owner 24 = some .scl ∧
      Lockstat.holdStart 2 = 128 ∧ ¬ InLayout s .lockstat u := by
  have h : Reach (step places 2) anyStep .boot _ :=
    ((Reach.start.next (a := found .scl) trivial rfl).next
      (a := call .syncordLockAcquired 24) trivial rfl).next (a := found .lockstat) trivial rfl
  refine ⟨_, _, _, h, rfl, List.mem_singleton.2 rfl, rfl, rfl, rfl, rfl, fun hin => ?_⟩
  cases (hin.found _ rfl).1

end Records

end Slots
end SynCord
