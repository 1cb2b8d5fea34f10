import SynCord.Reach
import SynCord.Shadow
import SynCord.BoundedMap
import Mathlib.Data.List.Basic
import Mathlib.Tactic.Common

/-!
# SynCord.Lockstat.Machine

The hooks of `lockstat.patch` with the programs of `policy/lockstat`. The statistics of a lock are
an entry of the hash map, under the address of the lock; the time since when a CPU waits for it and
the time of the last acquisition are in the shadow record of the lock.

* `syncordLockAcquired` runs `customLockAcquired`, which makes the entry where there is none.
* `syncordLockToRelease` runs `customLockToRelease`, which adds the hold time.
* `syncordToEnterSlowpath` runs `customToEnterSlowPath`, which counts the contention and notes the
  time in the slot of the CPU.

Both of the last two do nothing where there is no entry. The machine runs hooks one at a time, on
any locks and CPUs, and keeps a log of them beside the data. `acquired_cases`, `release_cases` and
`slowpath_cases` say what a hook does to the map and to the record of every lock.
-/

namespace SynCord
namespace Lockstat

abbrev Word := BitVec 64

/-! ## Data -/

structure TimeStat where
  min : Word
  max : Word
  total : Word
  deriving DecidableEq

/-- `data_t` -/
structure Data where
  prevCpu : Word
  contentions : Word
  conBounces : Word
  waittime : TimeStat
  acquisitions : Word
  acqBounces : Word
  holdtime : TimeStat
  deriving DecidableEq

/-- `max_entries` of `hash_map` -/
def maxEntries : Nat := 10000

/-- `hash_map`, by the address of the lock. -/
abbrev HashMap := BoundedMap Word Data maxEntries

/-- `per_lock_data`, with a slot for each CPU. -/
structure PerLockData (NCPU : Nat) where
  perCpuData : Fin NCPU → Word
  holdStart : Word

def TimeStat.zero : TimeStat := ⟨0, 0, 0⟩

def Data.zero : Data := ⟨0, 0, 0, .zero, 0, 0, .zero⟩

def PerLockData.zero {NCPU : Nat} : PerLockData NCPU := ⟨fun _ => 0, 0⟩

def TimeStat.add (st : TimeStat) (t : Word) : TimeStat where
  total := st.total + t
  min := if st.min = 0 ∨ st.min > t then t else st.min
  max := if st.max < t then t else st.max

/-! ## Programs -/

/-- What the acquired program does to `*data_ptr`, with the mark of the CPU and the CPU. -/
def Data.acquired (d : Data) (mark now cpu : Word) : Data :=
  let d := { d with acquisitions := d.acquisitions + 1 }
  let d := if mark ≠ 0 then { d with waittime := d.waittime.add (now - mark) } else d
  let d :=
    if d.prevCpu ≠ cpu then
      let d := { d with acqBounces := d.acqBounces + 1 }
      if mark ≠ 0 then { d with conBounces := d.conBounces + 1 } else d
    else d
  { d with prevCpu := cpu }

theorem Data.acquired_eq (d : Data) (mark now cpu : Word) : d.acquired mark now cpu =
    { d with
      acquisitions := d.acquisitions + 1
      waittime := if mark ≠ 0 then d.waittime.add (now - mark) else d.waittime
      acqBounces := if d.prevCpu ≠ cpu then d.acqBounces + 1 else d.acqBounces
      conBounces := if d.prevCpu ≠ cpu ∧ mark ≠ 0 then d.conBounces + 1 else d.conBounces
      prevCpu := cpu } := by
  by_cases hm : mark ≠ 0
  · by_cases hc : d.prevCpu ≠ cpu
    · simp only [Data.acquired, if_pos hm, if_pos hc, if_pos (And.intro hc hm)]
    · simp only [Data.acquired, if_pos hm, if_neg hc, if_neg fun h : _ ∧ _ => hc h.1]
  · by_cases hc : d.prevCpu ≠ cpu
    · simp only [Data.acquired, if_neg hm, if_pos hc, if_neg fun h : _ ∧ _ => hm h.2]
    · simp only [Data.acquired, if_neg hm, if_neg hc, if_neg fun h : _ ∧ _ => hc h.1]

/-- The map after the acquired program. A new lock gets an entry of zeros, and `data_ptr` is then
the address of the program's own `data`: what follows is written there and lost. -/
def customLockAcquired (m : HashMap) (key mark now cpu : Word) : HashMap :=
  match m.lookup key with
  | some d => m.set key (d.acquired mark now cpu)
  | none => (m.update key .zero).getD m

def customLockToRelease (m : HashMap) (key holdStart now : Word) : HashMap :=
  match m.lookup key with
  | some d => m.set key { d with holdtime := d.holdtime.add (now - holdStart) }
  | none => m

/-- The map and the mark of the CPU after the contended program. -/
def customToEnterSlowPath (m : HashMap) (key mark now : Word) : HashMap × Word :=
  match m.lookup key with
  | some d => (m.set key { d with contentions := d.contentions + 1 }, now)
  | none => (m, mark)

/-! ## Hooks -/

/-- The map that the programs share and the shadow records of the locks. -/
structure Store (NCPU : Nat) where
  map : HashMap
  locks : Shadow Word (PerLockData NCPU)

section Hooks

variable {NCPU : Nat}

namespace Store

/-- What a hook on the lock reads. -/
def pld (st : Store NCPU) (L : Word) : PerLockData NCPU := (st.locks.get L 0).getD .zero

/-- Since when the CPU waits for the lock; 0 if it does not. -/
def mark (st : Store NCPU) (L : Word) (c : Fin NCPU) : Word := (st.pld L).perCpuData c

end Store

/-- `bpf_get_smp_processor_id()` as an `unsigned long`. -/
def cpuWord (c : Fin NCPU) : Word := BitVec.ofNat 64 c.val

/-- The clock is read twice, at `now` for the wait time and at `now'` for `hold_start`. -/
def syncordLockAcquired (st : Store NCPU) (lock : Word) (cpu : Fin NCPU) (now now' : Word) :
    Store NCPU :=
  let (locks, pld) := st.locks.getOrAlloc lock 0 .zero
  { map := customLockAcquired st.map lock (pld.perCpuData cpu) now (cpuWord cpu)
    locks := locks.set lock 0 ⟨Function.update pld.perCpuData cpu 0, now'⟩ }

def syncordLockToRelease (st : Store NCPU) (lock : Word) (now : Word) : Store NCPU :=
  let (locks, pld) := st.locks.getOrAlloc lock 0 .zero
  { map := customLockToRelease st.map lock pld.holdStart now, locks := locks }

def syncordToEnterSlowpath (st : Store NCPU) (lock : Word) (cpu : Fin NCPU) (now : Word) :
    Store NCPU :=
  let (locks, pld) := st.locks.getOrAlloc lock 0 .zero
  let (map, mark) := customToEnterSlowPath st.map lock (pld.perCpuData cpu) now
  { map := map
    locks := locks.set lock 0 { pld with
      perCpuData := Function.update pld.perCpuData cpu mark } }

section Spec

variable {st : Store NCPU} {lock L : Word} {cpu c : Fin NCPU} {now now' : Word}

theorem mark_acquired : (syncordLockAcquired st lock cpu now now').mark L c =
    if L = lock ∧ c = cpu then 0 else st.mark L c := by
  simp only [syncordLockAcquired, Store.mark, Store.pld, Shadow.get_set, Shadow.getOrAlloc_snd]
  by_cases hL : L = lock
  · subst hL
    simp only [true_and, if_true, Option.getD_some, Function.update_apply]
  · rw [if_neg hL, Shadow.getD_getOrAlloc, if_neg fun h => hL h.1]

theorem mark_release : (syncordLockToRelease st lock now).mark L c = st.mark L c := by
  simp only [syncordLockToRelease, Store.mark, Store.pld, Shadow.getD_getOrAlloc]

theorem mark_slowpath : (syncordToEnterSlowpath st lock cpu now).mark L c =
    if L = lock ∧ c = cpu ∧ st.map.lookup lock ≠ none then now else st.mark L c := by
  simp only [syncordToEnterSlowpath, customToEnterSlowPath, Store.mark, Store.pld,
    Shadow.getOrAlloc_snd]
  by_cases hL : L = lock
  · subst hL
    cases h : st.map.lookup L with
    | none => simp [Shadow.get_set]
    | some d => simp [Shadow.get_set, Function.update_apply]
  · cases h : st.map.lookup lock <;>
      simp [Shadow.get_set, hL, Shadow.getD_getOrAlloc]

/-- The acquired hook counts, or makes an entry of zeros, or is refused one. -/
theorem acquired_cases (st : Store NCPU) (lock : Word) (cpu : Fin NCPU) (now now' : Word) :
    (∃ d, st.map.lookup lock = some d ∧
      (syncordLockAcquired st lock cpu now now').map =
        st.map.set lock (d.acquired (st.mark lock cpu) now (cpuWord cpu))) ∨
    (st.map.lookup lock = none ∧ st.map.keys.length < maxEntries ∧
      (syncordLockAcquired st lock cpu now now').map.keys = st.map.keys ++ [lock] ∧
      ∀ L, (syncordLockAcquired st lock cpu now now').map.lookup L =
        if L = lock then some .zero else st.map.lookup L) ∨
    (st.map.lookup lock = none ∧ st.map.keys.length = maxEntries ∧
      (syncordLockAcquired st lock cpu now now').map = st.map) := by
  simp only [syncordLockAcquired, customLockAcquired, Store.mark, Store.pld,
    Shadow.getOrAlloc_snd]
  cases h : st.map.lookup lock with
  | some d => exact .inl ⟨d, rfl, rfl⟩
  | none =>
    by_cases hn : st.map.keys.length < maxEntries
    · obtain ⟨m, hm, hkeys, hlook⟩ := BoundedMap.update_new h hn .zero
      rw [hm]
      exact .inr (.inl ⟨rfl, hn, hkeys, hlook⟩)
    · have hn' : st.map.keys.length = maxEntries :=
        Nat.le_antisymm st.map.keys_length_le (Nat.le_of_not_lt hn)
      rw [BoundedMap.update_full h hn']
      exact .inr (.inr ⟨rfl, hn', rfl⟩)

theorem release_cases (st : Store NCPU) (lock now : Word) :
    (∃ d, st.map.lookup lock = some d ∧ (syncordLockToRelease st lock now).map =
      st.map.set lock { d with holdtime := d.holdtime.add (now - (st.pld lock).holdStart) }) ∨
    (st.map.lookup lock = none ∧ (syncordLockToRelease st lock now).map = st.map) := by
  simp only [syncordLockToRelease, customLockToRelease, Store.pld, Shadow.getOrAlloc_snd]
  cases h : st.map.lookup lock with
  | some d => exact .inl ⟨d, rfl, rfl⟩
  | none => exact .inr ⟨rfl, rfl⟩

theorem slowpath_cases (st : Store NCPU) (lock : Word) (cpu : Fin NCPU) (now : Word) :
    (∃ d, st.map.lookup lock = some d ∧ (syncordToEnterSlowpath st lock cpu now).map =
      st.map.set lock { d with contentions := d.contentions + 1 }) ∨
    (st.map.lookup lock = none ∧ (syncordToEnterSlowpath st lock cpu now).map = st.map) := by
  simp only [syncordToEnterSlowpath, customToEnterSlowPath]
  cases h : st.map.lookup lock with
  | some d => exact .inl ⟨d, rfl, rfl⟩
  | none => exact .inr ⟨rfl, rfl⟩

/-- A write to the entry of one lock, seen from any lock. -/
theorem lookup_write {m m' : HashMap} {d d' : Data} (hd : m.lookup lock = some d)
    (hm : m' = m.set lock d') (L : Word) :
    m'.lookup L = if L = lock then some d' else m.lookup L := by
  rw [hm, BoundedMap.lookup_set_of_mem (by rw [hd]; simp)]

theorem lookup_acquired_of_ne (h : L ≠ lock) :
    (syncordLockAcquired st lock cpu now now').map.lookup L = st.map.lookup L := by
  rcases acquired_cases st lock cpu now now' with ⟨d, hd, hm⟩ | ⟨-, -, -, hl⟩ | ⟨-, -, hm⟩
  · rw [lookup_write hd hm, if_neg h]
  · rw [hl, if_neg h]
  · rw [hm]

theorem lookup_release_of_ne (h : L ≠ lock) :
    (syncordLockToRelease st lock now).map.lookup L = st.map.lookup L := by
  rcases release_cases st lock now with ⟨d, hd, hm⟩ | ⟨-, hm⟩
  · rw [lookup_write hd hm, if_neg h]
  · rw [hm]

theorem lookup_slowpath_of_ne (h : L ≠ lock) :
    (syncordToEnterSlowpath st lock cpu now).map.lookup L = st.map.lookup L := by
  rcases slowpath_cases st lock cpu now with ⟨d, hd, hm⟩ | ⟨-, hm⟩
  · rw [lookup_write hd hm, if_neg h]
  · rw [hm]

end Spec

end Hooks

/-! ## Runs -/

/-- A run of a hook: the lock, the CPU, and what the clock said. -/
inductive Event (NCPU : Nat) where
  | acquired (L : Word) (c : Fin NCPU) (now now' : Word)
  | release (L : Word) (c : Fin NCPU) (now : Word)
  | slowpath (L : Word) (c : Fin NCPU) (now : Word)

structure Sys (NCPU : Nat) where
  store : Store NCPU
  /-- The hooks that have run, the last one first. -/
  log : List (Event NCPU)

variable {NCPU : Nat}

/-- No hook has run; the map is as it was found. -/
def Sys.start (NCPU : Nat) (m : HashMap) : Sys NCPU := ⟨⟨m, .empty⟩, []⟩

def Event.run (st : Store NCPU) : Event NCPU → Store NCPU
  | .acquired L c now now' => syncordLockAcquired st L c now now'
  | .release L _ now => syncordLockToRelease st L now
  | .slowpath L c now => syncordToEnterSlowpath st L c now

def step (s : Sys NCPU) (e : Event NCPU) : Option (Sys NCPU) := some ⟨e.run s.store, e :: s.log⟩

/-- The CPUs of the acquired hooks on `L`, the last one first. -/
def acquiredBy (L : Word) (log : List (Event NCPU)) : List (Fin NCPU) :=
  log.filterMap fun
    | .acquired L' c _ _ => if L' = L then some c else none
    | _ => none

end Lockstat
end SynCord
