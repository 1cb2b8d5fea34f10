import SynCord.Reach
import SynCord.Shadow
import Mathlib.Data.List.Basic
import Mathlib.Tactic.Common

/-!
# SynCord.Scl.Machine

The hooks of `scl.patch` with the programs of `policy/scl`, over the shadow records of locks and of
threads. `numa-scl` has the same three.

* `syncordLockAcquired` runs `customLockAcquired`, which notes the time.
* `syncordLockToRelease` runs `customLockRelease`, which adds up the time held.
* `syncordToEnterSlowpath` runs `customLockContended`, which asks a thread that has held the lock
  for more than its share to wait.

Each hook has a lemma that says what it does to the records, read with zero where there is none.
The machine below runs hooks one at a time. A lock has one holder at a time, and a thread may hold
several locks. Beside the records it keeps what really happened: who has acquired which lock, and
which critical sections are over.
-/

namespace SynCord
namespace Scl

abbrev Word := BitVec 64

/-- A `qspinlock`, by its address. -/
structure Lock where
  addr : Word
  deriving DecidableEq

/-- A `task_struct`, by its address. -/
structure Task where
  addr : Word
  ne_null : addr ≠ 0
  deriving DecidableEq

structure PerLockData where
  totLockHold : Word
  numThreads : Word
  deriving DecidableEq

structure PerThreadData where
  startTs : Word
  lockHold : Word
  deriving DecidableEq

def PerLockData.zero : PerLockData := ⟨0, 0⟩

def PerThreadData.zero : PerThreadData := ⟨0, 0⟩

/-- The shadow records with number 0. Locks and tasks are different objects. -/
structure Store where
  locks : Shadow Lock PerLockData
  threads : Shadow Task PerThreadData

namespace Store

/-- What a hook on the lock reads. -/
def pld (st : Store) (L : Lock) : PerLockData := (st.locks.get L 0).getD .zero

/-- The record of a thread. -/
def ptd (st : Store) (t : Task) : Option PerThreadData := st.threads.get t 0

/-- The `lock_hold` that is passed to a program: that of the record, or the address of a zero. -/
def lockHold (st : Store) (t : Task) : Word :=
  match st.ptd t with
  | some d => d.lockHold
  | none => 0

end Store

/-! ## Programs -/

def customLockAcquired (now : Word) (ptd : PerThreadData) : PerThreadData :=
  { ptd with startTs := now }

def customLockRelease (now : Word) (ptd : PerThreadData) (pld : PerLockData) :
    PerThreadData × PerLockData :=
  let csLen := now - ptd.startTs
  ({ ptd with lockHold := ptd.lockHold + csLen },
    { pld with totLockHold := pld.totLockHold + csLen })

/-- What the contended program writes to the queue node, and what it asks `bpf_back_off` for. -/
structure Contended where
  lockHoldCapture : Option Word
  backOff : Option Word

def customLockContended (numThreads lockHold totLockHold : Word) : Contended :=
  if numThreads = 0 then ⟨none, none⟩
  else ⟨some lockHold,
    if lockHold * numThreads > totLockHold then some (lockHold * numThreads - totLockHold)
    else none⟩

/-! ## Hooks -/

def syncordLockAcquired (st : Store) (lock : Lock) (current : Task) (now : Word) : Store :=
  let (locks, pld) := st.locks.getOrAlloc lock 0 .zero
  match st.threads.get current 0 with
  | some ptd => ⟨locks, st.threads.set current 0 (customLockAcquired now ptd)⟩
  | none =>
    let (threads, ptd) := st.threads.alloc current 0 .zero
    ⟨locks.set lock 0 { pld with numThreads := pld.numThreads + 1 },
      threads.set current 0 (customLockAcquired now ptd)⟩

/-- Without a record `args.start_ts` is the address of a field of NULL, and the program faults. -/
def syncordLockToRelease (st : Store) (lock : Lock) (current : Task) (now : Word) : Option Store :=
  let (locks, pld) := st.locks.getOrAlloc lock 0 .zero
  match st.threads.get current 0 with
  | some ptd =>
    let (ptd, pld) := customLockRelease now ptd pld
    some ⟨locks.set lock 0 pld, st.threads.set current 0 ptd⟩
  | none => none

def syncordToEnterSlowpath (st : Store) (lock : Lock) (current : Task) : Store × Contended :=
  let (locks, pld) := st.locks.getOrAlloc lock 0 .zero
  (⟨locks, st.threads⟩,
    customLockContended pld.numThreads (st.lockHold current) pld.totLockHold)

section Spec

variable {st : Store} {lock L : Lock} {current t : Task} {now : Word}

/-- A thread that is new to the policy is counted by the lock it acquires. -/
theorem pld_acquired : (syncordLockAcquired st lock current now).pld L =
    if L = lock ∧ st.ptd current = none
    then { st.pld lock with numThreads := (st.pld lock).numThreads + 1 } else st.pld L := by
  unfold syncordLockAcquired
  cases h : st.threads.get current 0 with
  | some d => simp [Store.pld, Store.ptd, h, Shadow.getD_getOrAlloc]
  | none =>
    simp only [Store.pld, Store.ptd, h, and_true, Shadow.get_set, Shadow.getOrAlloc_snd]
    split
    · rfl
    · rw [Shadow.getD_getOrAlloc]

theorem ptd_acquired : (syncordLockAcquired st lock current now).ptd t =
    if t = current then some ⟨now, st.lockHold current⟩ else st.ptd t := by
  unfold syncordLockAcquired
  cases h : st.threads.get current 0 with
  | some d => simp [Store.ptd, Store.lockHold, h, Shadow.get_set, customLockAcquired]
  | none =>
    simp only [Store.ptd, Store.lockHold, h, Shadow.alloc, Shadow.get_set, customLockAcquired]
    split <;> rfl

theorem lockHold_acquired :
    (syncordLockAcquired st lock current now).lockHold t = st.lockHold t := by
  rw [Store.lockHold, ptd_acquired]
  by_cases h : t = current
  · rw [h, if_pos rfl]
  · rw [if_neg h, Store.lockHold]

/-- A thread with a record can release, and both sums grow by the time since `start_ts`. -/
theorem release_spec (lock : Lock) (now : Word) {d : PerThreadData}
    (h : st.ptd current = some d) :
    ∃ st', syncordLockToRelease st lock current now = some st' ∧
      (∀ L, st'.pld L = if L = lock
        then { st.pld lock with totLockHold := (st.pld lock).totLockHold + (now - d.startTs) }
        else st.pld L) ∧
      ∀ t, st'.ptd t = if t = current
        then some { d with lockHold := d.lockHold + (now - d.startTs) } else st.ptd t := by
  have h' : st.threads.get current 0 = some d := h
  refine ⟨_, by rw [syncordLockToRelease, h'], ?_, ?_⟩
  · intro L
    simp only [Store.pld, customLockRelease, Shadow.get_set, Shadow.getOrAlloc_snd]
    split
    · rfl
    · rw [Shadow.getD_getOrAlloc]
  · intro t
    simp only [Store.ptd, customLockRelease, Shadow.get_set]

/-- The time held, from what a release does to the records. -/
theorem lockHold_release {st' : Store} {d : PerThreadData} (h : st.ptd current = some d)
    (hptd : ∀ t, st'.ptd t = if t = current
      then some { d with lockHold := d.lockHold + (now - d.startTs) } else st.ptd t) :
    st'.lockHold t =
      if t = current then st.lockHold current + (now - d.startTs) else st.lockHold t := by
  by_cases ht : t = current
  · subst ht
    simp [Store.lockHold, hptd, h]
  · simp [Store.lockHold, hptd, ht]

theorem pld_contended : (syncordToEnterSlowpath st lock current).1.pld L = st.pld L := by
  simp [syncordToEnterSlowpath, Store.pld, Shadow.getD_getOrAlloc]

theorem contended_eq : (syncordToEnterSlowpath st lock current).2 =
    customLockContended (st.pld lock).numThreads (st.lockHold current)
      (st.pld lock).totLockHold := by
  simp [syncordToEnterSlowpath, Store.pld, Shadow.getOrAlloc_snd]

end Spec

/-! ## Runs -/

/-- A critical section that is over. -/
structure Section where
  lock : Lock
  task : Task
  acquired : Word
  released : Word

def Section.length (c : Section) : Word := c.released - c.acquired

structure Sys where
  store : Store
  /-- Who is between its acquired hook and its release hook, and since when. -/
  holder : Lock → Option (Task × Word)
  /-- The threads that have run the acquired hook on a lock, each once. -/
  users : Lock → List Task
  done : List Section
  /-- The last time that a hook has read. -/
  clock : Word

def Sys.init : Sys where
  store := ⟨.empty, .empty⟩
  holder := fun _ => none
  users := fun _ => []
  done := []
  clock := 0

inductive Event where
  | acquired (L : Lock) (t : Task) (now : Word)
  | release (L : Lock) (t : Task) (now : Word)
  | contended (L : Lock) (t : Task)

def step (s : Sys) : Event → Option Sys
  | .acquired L t now =>
    if s.holder L = none then
      some { s with
        store := syncordLockAcquired s.store L t now
        holder := Function.update s.holder L (some (t, now))
        users := Function.update s.users L ((s.users L).insert t)
        clock := now }
    else none
  | .release L t now =>
    match s.holder L with
    | some (u, ts) =>
      if u = t then
        (syncordLockToRelease s.store L t now).map fun st => { s with
          store := st
          holder := Function.update s.holder L none
          done := ⟨L, t, ts, now⟩ :: s.done
          clock := now }
      else none
    | none => none
  | .contended L t => some { s with store := (syncordToEnterSlowpath s.store L t).1 }

/-- The outcomes of a step. -/
inductive Tr (s : Sys) : Event → Sys → Prop where
  | acquired {L t now} : s.holder L = none →
      Tr s (.acquired L t now) { s with
        store := syncordLockAcquired s.store L t now
        holder := Function.update s.holder L (some (t, now))
        users := Function.update s.users L ((s.users L).insert t)
        clock := now }
  | release {L t now ts st} : s.holder L = some (t, ts) →
      syncordLockToRelease s.store L t now = some st →
      Tr s (.release L t now) { s with
        store := st
        holder := Function.update s.holder L none
        done := ⟨L, t, ts, now⟩ :: s.done
        clock := now }
  | contended {L t} :
      Tr s (.contended L t) { s with store := (syncordToEnterSlowpath s.store L t).1 }

theorem step_tr {s s' : Sys} {a : Event} (h : step s a = some s') : Tr s a s' := by
  cases a with
  | acquired L t now =>
    simp only [step] at h
    split at h
    · cases h; exact .acquired ‹_›
    · cases h
  | release L t now =>
    simp only [step] at h
    split at h
    · rename_i u ts hh
      split at h
      · rename_i hu
        obtain ⟨st, hst, rfl⟩ := Option.map_eq_some_iff.1 h
        subst hu
        exact .release hh hst
      · cases h
    · cases h
  | contended L t => cases h; exact .contended

end Scl
end SynCord
