import SynCord.Reach
import Mathlib.Data.List.Basic
import Mathlib.Tactic.Common

/-!
# SynCord.Bravo.Machine

One `rw_semaphore` under `bravo.patch`, as a machine that takes one load, store or lock operation
per step. The policy programs are the ones of `policy/bravo`:

* `custom_lock_bypass_acquire` — `acqBias`, `acqSlot`, `acqStore`, `acqRecheck`, `acqUndo`
* `custom_lock_acquired` — `acqedLoad`, `acqedStore`, with the underlying read lock held
* `custom_lock_bypass_release` — `relSlot`, `relStore`
* `custom_lock_acquired_writer` — `wrTest`, `wrClear`, `wrScan`, with the underlying write lock held

`down_read` and its variants (`killable`, `trylock`, `nested`, `non_owner`) run the first program
and, when it answers 0, take the underlying lock and run the second one; `up_read` and
`up_read_non_owner` run the third and fall back to `__up_read`. The programs work on the slot of
the CPU that `smp_processor_id()` named when they were called, so a program counter carries that
CPU and not the one the thread has moved to since.

The underlying `rwsem` is a reader count and an optional writer: `__down_read` waits until there is
no writer, `__down_write` until there is neither.

Two lists record the reads of a run. `reads` has every read from the step that decides its path to
the step that gives it back, `held` those of them whose `down_read` has returned and whose
`up_read` has not been called.
-/

namespace SynCord
namespace Bravo

abbrev Word := BitVec 64

/-- A thread, named by the 32-bit id that `bpf_get_current_pid_tgid()` leaves in `u32 pid`. The
idle thread, with id 0, takes no sleeping lock. -/
structure Tid where
  pid : BitVec 32
  ne_zero : pid ≠ 0
  deriving DecidableEq

theorem Tid.one_ne_zero : (1 : BitVec 32) ≠ 0 := by decide

theorem Tid.two_ne_zero : (2 : BitVec 32) ≠ 0 := by decide

/-- The id as it is stored in, and compared with, a 64-bit slot. -/
def Tid.word (t : Tid) : Word := t.pid.setWidth 64

theorem Tid.toNat_word (t : Tid) : t.word.toNat = t.pid.toNat := by
  rw [Tid.word, BitVec.toNat_setWidth]
  exact Nat.mod_eq_of_lt (Nat.lt_trans t.pid.isLt (by decide))

theorem Tid.word_ne_zero (t : Tid) : t.word ≠ 0 := by
  intro h
  apply t.ne_zero
  apply BitVec.eq_of_toNat_eq
  rw [← t.toNat_word, h]
  rfl

theorem Tid.word_inj {t u : Tid} (h : t.word = u.word) : t = u := by
  have e : t.pid = u.pid := by
    apply BitVec.eq_of_toNat_eq
    rw [← t.toNat_word, ← u.toNat_word, h]
  cases t; cases u
  cases e
  rfl

/-- How a read got in: past the lock through a CPU's slot, or through `__down_read`. -/
inductive Path where
  | bypass (cpu : Nat)
  | slow
  deriving DecidableEq

/-- One read, from the step that decides its path to the step that gives it back. -/
structure Read where
  id : Nat
  owner : Tid
  path : Path
  deriving DecidableEq

/-- Where a thread stands in the lock functions. -/
inductive Pc where
  | idle
  -- custom_lock_bypass_acquire
  | acqBias (cpu : Nat)
  | acqSlot (cpu : Nat)
  | acqStore (cpu : Nat)
  | acqRecheck (cpu : Nat)
  | acqUndo (cpu : Nat)
  -- __down_read, then custom_lock_acquired
  | downSlow
  | acqedLoad (r : Read)
  | acqedStore (r : Read)
  -- custom_lock_bypass_release, then __up_read
  | relSlot (r : Read) (cpu : Nat)
  | relStore (r : Read) (cpu : Nat)
  | upSlow (r : Read)
  -- __down_write, then custom_lock_acquired_writer
  | writeLock
  | wrTest
  | wrClear
  | wrScan (i : Nat)
  | writing
  deriving DecidableEq

structure Sys where
  /-- Whether the shadow record of the semaphore exists. -/
  allocated : Bool
  rBias : Word
  perCpuData : Nat → Word
  /-- The underlying `rwsem`. -/
  readers : Int
  writer : Option Tid
  cpu : Tid → Nat
  pc : Tid → Pc
  nextId : Nat
  reads : List Read
  held : List Read

namespace Sys

/-- The patch has just been installed: no shadow record, nobody in the lock functions. -/
def init (cpu : Tid → Nat) : Sys where
  allocated := false
  rBias := 0
  perCpuData := fun _ => 0
  readers := 0
  writer := none
  cpu := cpu
  pc := fun _ => .idle
  nextId := 0
  reads := []
  held := []

@[simp] def setPc (s : Sys) (t : Tid) (p : Pc) : Sys := { s with pc := Function.update s.pc t p }

@[simp] def setSlot (s : Sys) (c : Nat) (w : Word) : Sys :=
  { s with perCpuData := Function.update s.perCpuData c w }

/-- `klp_shadow_get_or_alloc`: a new record comes zeroed. -/
def getOrAlloc (s : Sys) : Sys :=
  if s.allocated then s else { s with allocated := true, rBias := 0, perCpuData := fun _ => 0 }

@[simp] def newRead (s : Sys) (t : Tid) (p : Path) : Read := ⟨s.nextId, t, p⟩

@[simp] def openRead (s : Sys) (r : Read) : Sys :=
  { s with reads := r :: s.reads, nextId := s.nextId + 1 }

/-- `down_read` returns to its caller with the read `r`. -/
@[simp] def returnHeld (s : Sys) (t : Tid) (r : Read) : Sys :=
  { s with held := r :: s.held }.setPc t .idle

/-- `up_read` returns to its caller, the read `r` given back. -/
@[simp] def closeRead (s : Sys) (t : Tid) (r : Read) : Sys :=
  { s with reads := s.reads.erase r }.setPc t .idle

end Sys

/-- The next load, store or lock operation of thread `t`. -/
def next (NCPU : Nat) (s : Sys) (t : Tid) : Option Sys :=
  match s.pc t with
  | .idle => none
  | .acqBias c => some (s.setPc t (if s.rBias = 1 then .acqSlot c else .downSlow))
  | .acqSlot c => some (s.setPc t (if s.perCpuData c = 0 then .acqStore c else .downSlow))
  | .acqStore c => some ((s.setSlot c t.word).setPc t (.acqRecheck c))
  | .acqRecheck c =>
    if s.rBias = 1 then
      let r := s.newRead t (.bypass c)
      some ((s.openRead r).returnHeld t r)
    else some (s.setPc t (.acqUndo c))
  | .acqUndo c => some ((s.setSlot c 0).setPc t .downSlow)
  | .downSlow =>
    if s.writer = none then
      let r := s.newRead t .slow
      some ({ s.openRead r with readers := s.readers + 1 }.setPc t (.acqedLoad r))
    else none
  | .acqedLoad r =>
    let s := s.getOrAlloc
    some (if s.rBias = 0 then s.setPc t (.acqedStore r) else s.returnHeld t r)
  | .acqedStore r => some ({ s with rBias := 1 }.returnHeld t r)
  | .relSlot r c => some (s.setPc t (if s.perCpuData c = t.word then .relStore r c else .upSlow r))
  | .relStore r c => some ((s.setSlot c 0).closeRead t r)
  | .upSlow r => some ({ s with readers := s.readers - 1 }.closeRead t r)
  | .writeLock =>
    if s.writer = none ∧ s.readers = 0 then some ({ s with writer := some t }.setPc t .wrTest)
    else none
  | .wrTest =>
    let s := s.getOrAlloc
    some (s.setPc t (if s.rBias = 1 then .wrClear else .writing))
  | .wrClear => some ({ s with rBias := 0 }.setPc t (.wrScan 0))
  | .wrScan i =>
    -- the inner loop spins on slot `i` until it reads 0
    if i < NCPU then some (if s.perCpuData i = 0 then s.setPc t (.wrScan (i + 1)) else s)
    else some (s.setPc t .writing)
  | .writing => none

inductive Act where
  /-- `down_read`, `down_read_killable`, `down_read_trylock`, `down_read_nested`,
  `down_read_non_owner` -/
  | downRead (t : Tid)
  /-- `up_read`, `up_read_non_owner`: `t` ends the read `r` -/
  | upRead (t : Tid) (r : Read)
  | downWrite (t : Tid)
  | upWrite (t : Tid)
  /-- the `killable` and `trylock` variants return without the lock -/
  | giveUp (t : Tid)
  | next (t : Tid)
  | migrate (t : Tid) (cpu : Nat)
  deriving DecidableEq

def step (NCPU : Nat) (s : Sys) : Act → Option Sys
  | .downRead t =>
    if s.pc t = .idle then
      some (s.setPc t (if s.allocated then .acqBias (s.cpu t) else .downSlow))
    else none
  | .upRead t r =>
    if s.pc t = .idle ∧ r ∈ s.held then
      some ({ s with held := s.held.erase r }.setPc t
        (if s.allocated then .relSlot r (s.cpu t) else .upSlow r))
    else none
  | .downWrite t => if s.pc t = .idle then some (s.setPc t .writeLock) else none
  | .upWrite t =>
    if s.pc t = .writing then some ({ s with writer := none }.setPc t .idle) else none
  | .giveUp t =>
    if s.pc t = .downSlow ∨ s.pc t = .writeLock then some (s.setPc t .idle) else none
  | .next t => next NCPU s t
  | .migrate t c => some { s with cpu := Function.update s.cpu t c }

end Bravo
end SynCord
