import SynCord.Bravo.Machine
import SynCord.Ledger

/-!
# SynCord.Bravo.Step

What a step of the machine can do, one constructor of `Tr` per outcome, and the facts that hold in
every run whatever the schedule: the shadow record is zero until it is allocated (`Zeroed`), and
the two lists of reads agree with the program counters (`Ledger`).
-/

namespace SynCord
namespace Bravo

/-- The outcomes of a step. -/
inductive Tr (NCPU : Nat) (s : Sys) : Act → Sys → Prop where
  | downFast {t} : s.pc t = .idle → s.allocated = true →
      Tr NCPU s (.downRead t) (s.setPc t (.acqBias (s.cpu t)))
  | downSlow {t} : s.pc t = .idle → s.allocated = false →
      Tr NCPU s (.downRead t) (s.setPc t .downSlow)
  | upFast {t r} : s.pc t = .idle → r ∈ s.held → s.allocated = true →
      Tr NCPU s (.upRead t r)
        ({ s with held := s.held.erase r }.setPc t (.relSlot r (s.cpu t)))
  | upSlow {t r} : s.pc t = .idle → r ∈ s.held → s.allocated = false →
      Tr NCPU s (.upRead t r) ({ s with held := s.held.erase r }.setPc t (.upSlow r))
  | downWrite {t} : s.pc t = .idle → Tr NCPU s (.downWrite t) (s.setPc t .writeLock)
  | upWrite {t} : s.pc t = .writing →
      Tr NCPU s (.upWrite t) ({ s with writer := none }.setPc t .idle)
  | giveUp {t} : s.pc t = .downSlow ∨ s.pc t = .writeLock →
      Tr NCPU s (.giveUp t) (s.setPc t .idle)
  | migrate {t c} : Tr NCPU s (.migrate t c) { s with cpu := Function.update s.cpu t c }
  | biasSet {t c} : s.pc t = .acqBias c → s.rBias = 1 →
      Tr NCPU s (.next t) (s.setPc t (.acqSlot c))
  | biasClear {t c} : s.pc t = .acqBias c → s.rBias ≠ 1 →
      Tr NCPU s (.next t) (s.setPc t .downSlow)
  | slotFree {t c} : s.pc t = .acqSlot c → s.perCpuData c = 0 →
      Tr NCPU s (.next t) (s.setPc t (.acqStore c))
  | slotBusy {t c} : s.pc t = .acqSlot c → s.perCpuData c ≠ 0 →
      Tr NCPU s (.next t) (s.setPc t .downSlow)
  | slotStore {t c} : s.pc t = .acqStore c →
      Tr NCPU s (.next t) ((s.setSlot c t.word).setPc t (.acqRecheck c))
  | recheckPass {t c} : s.pc t = .acqRecheck c → s.rBias = 1 →
      Tr NCPU s (.next t) ((s.openRead (s.newRead t (.bypass c))).returnHeld t
        (s.newRead t (.bypass c)))
  | recheckFail {t c} : s.pc t = .acqRecheck c → s.rBias ≠ 1 →
      Tr NCPU s (.next t) (s.setPc t (.acqUndo c))
  | slotUndo {t c} : s.pc t = .acqUndo c →
      Tr NCPU s (.next t) ((s.setSlot c 0).setPc t .downSlow)
  | readLock {t} : s.pc t = .downSlow → s.writer = none →
      Tr NCPU s (.next t) ({ s.openRead (s.newRead t .slow) with readers := s.readers + 1 }.setPc t
        (.acqedLoad (s.newRead t .slow)))
  | acqedZero {t r} : s.pc t = .acqedLoad r → s.rBias = 0 →
      Tr NCPU s (.next t) ({ s with allocated := true }.setPc t (.acqedStore r))
  | acqedSet {t r} : s.pc t = .acqedLoad r → s.rBias ≠ 0 →
      Tr NCPU s (.next t) ({ s with allocated := true }.returnHeld t r)
  | acqedStore {t r} : s.pc t = .acqedStore r →
      Tr NCPU s (.next t) ({ s with rBias := 1 }.returnHeld t r)
  | relHit {t r c} : s.pc t = .relSlot r c → s.perCpuData c = t.word →
      Tr NCPU s (.next t) (s.setPc t (.relStore r c))
  | relMiss {t r c} : s.pc t = .relSlot r c → s.perCpuData c ≠ t.word →
      Tr NCPU s (.next t) (s.setPc t (.upSlow r))
  | relStore {t r c} : s.pc t = .relStore r c →
      Tr NCPU s (.next t) ((s.setSlot c 0).closeRead t r)
  | readUnlock {t r} : s.pc t = .upSlow r →
      Tr NCPU s (.next t) ({ s with readers := s.readers - 1 }.closeRead t r)
  | writeLock {t} : s.pc t = .writeLock → s.writer = none → s.readers = 0 →
      Tr NCPU s (.next t) ({ s with writer := some t }.setPc t .wrTest)
  | testSet {t} : s.pc t = .wrTest → s.rBias = 1 →
      Tr NCPU s (.next t) ({ s with allocated := true }.setPc t .wrClear)
  | testClear {t} : s.pc t = .wrTest → s.rBias ≠ 1 →
      Tr NCPU s (.next t) ({ s with allocated := true }.setPc t .writing)
  | biasStore {t} : s.pc t = .wrClear →
      Tr NCPU s (.next t) ({ s with rBias := 0 }.setPc t (.wrScan 0))
  | scanFree {t i} : s.pc t = .wrScan i → i < NCPU → s.perCpuData i = 0 →
      Tr NCPU s (.next t) (s.setPc t (.wrScan (i + 1)))
  | scanBusy {t i} : s.pc t = .wrScan i → i < NCPU → s.perCpuData i ≠ 0 → Tr NCPU s (.next t) s
  | scanDone {t i} : s.pc t = .wrScan i → NCPU ≤ i →
      Tr NCPU s (.next t) (s.setPc t .writing)

/-- The thread works on the shadow record, which it has found or allocated. -/
def Pc.usesRecord : Pc → Bool
  | .acqBias _ | .acqSlot _ | .acqStore _ | .acqRecheck _ | .acqUndo _ => true
  | .acqedStore _ | .relSlot _ _ | .relStore _ _ | .wrClear | .wrScan _ => true
  | .idle | .downSlow | .acqedLoad _ | .upSlow _ | .writeLock | .wrTest | .writing => false

/-- The shadow record reads as zero until it is allocated. -/
structure Zeroed (s : Sys) : Prop where
  rBias : s.allocated = false → s.rBias = 0
  slot : s.allocated = false → ∀ c, s.perCpuData c = 0
  used : ∀ t, (s.pc t).usesRecord = true → s.allocated = true

theorem Zeroed.getOrAlloc_eq {s : Sys} (hz : Zeroed s) :
    s.getOrAlloc = { s with allocated := true } := by
  obtain ⟨allocated, rBias, perCpuData⟩ := s
  cases allocated with
  | true => rfl
  | false =>
    have h1 : rBias = 0 := hz.rBias rfl
    have h2 : perCpuData = fun _ => 0 := funext (hz.slot rfl)
    simp [Sys.getOrAlloc, h1, h2]

theorem next_tr {NCPU : Nat} {s s' : Sys} {t : Tid} (hz : Zeroed s)
    (h : next NCPU s t = some s') : Tr NCPU s (.next t) s' := by
  simp only [next, hz.getOrAlloc_eq] at h
  cases hp : s.pc t <;> rw [hp] at h <;> dsimp only at h <;> (try split at h) <;>
    (try cases h) <;> (try split) <;>
    first
      | exact .biasSet hp ‹_›
      | exact .biasClear hp ‹_›
      | exact .slotFree hp ‹_›
      | exact .slotBusy hp ‹_›
      | exact .slotStore hp
      | exact .recheckPass hp ‹_›
      | exact .recheckFail hp ‹_›
      | exact .slotUndo hp
      | exact .readLock hp ‹_›
      | exact .acqedZero hp ‹_›
      | exact .acqedSet hp ‹_›
      | exact .acqedStore hp
      | exact .relHit hp ‹_›
      | exact .relMiss hp ‹_›
      | exact .relStore hp
      | exact .readUnlock hp
      | exact .writeLock hp ‹_ ∧ _›.1 ‹_ ∧ _›.2
      | exact .testSet hp ‹_›
      | exact .testClear hp ‹_›
      | exact .biasStore hp
      | exact .scanFree hp ‹_› ‹_›
      | exact .scanBusy hp ‹_› ‹_›
      | exact .scanDone hp (Nat.le_of_not_lt ‹_›)

theorem step_tr {NCPU : Nat} {s s' : Sys} {a : Act} (hz : Zeroed s)
    (h : step NCPU s a = some s') : Tr NCPU s a s' := by
  cases a with
  | downRead t =>
    simp only [step] at h
    split at h
    · cases h; split
      · exact .downFast ‹_› ‹_›
      · exact .downSlow ‹_› (by simpa using ‹¬ s.allocated = true›)
    · cases h
  | upRead t r =>
    simp only [step] at h
    split at h
    · rename_i hc
      cases h; split
      · exact .upFast hc.1 hc.2 ‹_›
      · exact .upSlow hc.1 hc.2 (by simpa using ‹¬ s.allocated = true›)
    · cases h
  | downWrite t =>
    simp only [step] at h
    split at h
    · cases h; exact .downWrite ‹_›
    · cases h
  | upWrite t =>
    simp only [step] at h
    split at h
    · cases h; exact .upWrite ‹_›
    · cases h
  | giveUp t =>
    simp only [step] at h
    split at h
    · cases h; exact .giveUp ‹_›
    · cases h
  | next t => exact next_tr hz h
  | migrate t c => cases h; exact .migrate

/-! ## What holds in every run -/

theorem zeroed_init (cpu : Tid → Nat) : Zeroed (.init cpu) := by
  constructor <;> simp [Sys.init, Pc.usesRecord]

theorem Zeroed.of_allocated {s : Sys} (h : s.allocated = true) : Zeroed s where
  rBias := fun h0 => by rw [h] at h0; cases h0
  slot := fun h0 => by rw [h] at h0; cases h0
  used := fun _ _ => h

/-- Moving to a step that does not use the record. -/
theorem Zeroed.move {s s' : Sys} {t : Tid} {p : Pc} (hz : Zeroed s)
    (ha : s'.allocated = s.allocated) (hb : s'.rBias = s.rBias)
    (hs : s'.perCpuData = s.perCpuData) (hpc : s'.pc = Function.update s.pc t p)
    (hp : p.usesRecord = false) : Zeroed s' where
  rBias := by rw [ha, hb]; exact hz.rBias
  slot := by rw [ha, hs]; exact hz.slot
  used := by
    intro u hu
    rw [hpc] at hu
    rw [ha]
    by_cases h : u = t
    · rw [h, Function.update_self, hp] at hu
      cases hu
    · rw [Function.update_of_ne h] at hu
      exact hz.used u hu

theorem zeroed_tr {NCPU : Nat} {s s' : Sys} {a : Act} (hz : Zeroed s) (h : Tr NCPU s a s') :
    Zeroed s' := by
  cases h with
  | downSlow | upSlow | downWrite | upWrite | giveUp | readLock | readUnlock | writeLock =>
    exact hz.move rfl rfl rfl rfl rfl
  | migrate => exact ⟨hz.rBias, hz.slot, hz.used⟩
  | downFast _ ha | upFast _ _ ha => exact .of_allocated ha
  | acqedZero | acqedSet | testSet | testClear => exact .of_allocated rfl
  | biasSet hp _ | biasClear hp _ | slotFree hp _ | slotBusy hp _ | slotStore hp
  | recheckPass hp _ | recheckFail hp _ | slotUndo hp | acqedStore hp | relHit hp _ | relMiss hp _
  | relStore hp | biasStore hp | scanFree hp _ _ | scanBusy hp _ _ | scanDone hp _ =>
    exact .of_allocated (hz.used _ (by rw [hp]; rfl))

/-- The read that a thread is about to return with, or is giving back. -/
def Pc.read? : Pc → Option Read
  | .acqedLoad r | .acqedStore r | .relSlot r _ | .relStore r _ | .upSlow r => some r
  | .idle | .acqBias _ | .acqSlot _ | .acqStore _ | .acqRecheck _ | .acqUndo _ => none
  | .downSlow | .writeLock | .wrTest | .wrClear | .wrScan _ | .writing => none

def busy (s : Sys) (t : Tid) : Option Read := (s.pc t).read?

/-- The lists of reads agree with what the threads are doing. -/
structure Booked (s : Sys) : Prop where
  ledger : Ledger s.reads s.held (busy s)
  ids : ∀ r ∈ s.reads, r.id < s.nextId

namespace Booked

variable {s s' : Sys} {t : Tid} {r : Read} {p : Pc}

theorem busy_update (hpc : s'.pc = Function.update s.pc t p) :
    busy s' = Function.update (busy s) t p.read? := by
  funext u
  rw [busy, hpc]
  exact Function.apply_update (fun _ => Pc.read?) s.pc t p u

theorem fresh (h : Booked s) (t : Tid) (p : Path) : s.newRead t p ∉ s.reads := by
  intro hm
  exact Nat.lt_irrefl _ (h.ids _ hm)

theorem of_same (h : Booked s) (hr : s'.reads = s.reads) (hh : s'.held = s.held)
    (hi : s'.nextId = s.nextId) (hb : busy s' = busy s) : Booked s' := by
  refine ⟨?_, ?_⟩
  · rw [hr, hh, hb]; exact h.ledger
  · rw [hr, hi]; exact h.ids

/-- Moving on without touching a read. -/
theorem move (h : Booked s) (hr : s'.reads = s.reads) (hh : s'.held = s.held)
    (hi : s'.nextId = s.nextId) (hpc : s'.pc = Function.update s.pc t p)
    (hp : p.read? = (s.pc t).read?) : Booked s' := by
  refine h.of_same hr hh hi ?_
  rw [busy_update hpc, hp]
  exact Function.update_eq_self t (busy s)

theorem settle (h : Booked s) (ht : (s.pc t).read? = some r) (hr : s'.reads = s.reads)
    (hh : s'.held = r :: s.held) (hi : s'.nextId = s.nextId)
    (hpc : s'.pc = Function.update s.pc t .idle) : Booked s' := by
  refine ⟨?_, by rw [hr, hi]; exact h.ids⟩
  rw [hr, hh, busy_update hpc]
  exact h.ledger.settle ht

theorem reclaim (h : Booked s) (hm : r ∈ s.held) (ht : s.pc t = .idle) (hr : s'.reads = s.reads)
    (hh : s'.held = s.held.erase r) (hi : s'.nextId = s.nextId)
    (hpc : s'.pc = Function.update s.pc t p) (hp : p.read? = some r) : Booked s' := by
  refine ⟨?_, by rw [hr, hi]; exact h.ids⟩
  rw [hr, hh, busy_update hpc, hp]
  exact h.ledger.reclaim hm (by simp [busy, ht, Pc.read?])

theorem close (h : Booked s) (ht : (s.pc t).read? = some r) (hr : s'.reads = s.reads.erase r)
    (hh : s'.held = s.held) (hi : s'.nextId = s.nextId)
    (hpc : s'.pc = Function.update s.pc t .idle) : Booked s' := by
  refine ⟨?_, ?_⟩
  · rw [hr, hh, busy_update hpc]; exact h.ledger.close ht
  · rw [hr, hi]; exact fun q hq => h.ids q (List.mem_of_mem_erase hq)

end Booked

theorem booked_init (cpu : Tid → Nat) : Booked (.init cpu) where
  ledger := .empty
  ids := by simp [Sys.init]

theorem booked_tr {NCPU : Nat} {s s' : Sys} {a : Act} (hb : Booked s) (h : Tr NCPU s a s') :
    Booked s' := by
  cases h with
  | upFast hp hm _ | upSlow hp hm _ => exact hb.reclaim hm hp rfl rfl rfl rfl rfl
  | migrate => exact hb.of_same rfl rfl rfl rfl
  | scanBusy => exact hb
  | @recheckPass t c hp _ =>
    refine ⟨?_, ?_⟩
    · have := hb.ledger.grant (hb.fresh t (.bypass c))
      have hnone : busy s t = none := by simp [busy, hp, Pc.read?]
      rw [← Function.update_eq_self t (busy s), hnone] at this
      rw [Booked.busy_update (s := s) rfl]
      exact this
    · intro r hr
      rcases List.mem_cons.1 hr with rfl | hr
      · exact Nat.lt_succ_self _
      · exact Nat.lt_succ_of_lt (hb.ids r hr)
  | @readLock t hp _ =>
    refine ⟨?_, ?_⟩
    · rw [Booked.busy_update (s := s) rfl]
      exact hb.ledger.make (hb.fresh t .slow) (by simp [busy, hp, Pc.read?])
    · intro r hr
      rcases List.mem_cons.1 hr with rfl | hr
      · exact Nat.lt_succ_self _
      · exact Nat.lt_succ_of_lt (hb.ids r hr)
  | acqedSet hp _ | acqedStore hp => exact hb.settle (by rw [hp]; rfl) rfl rfl rfl rfl
  | relStore hp | readUnlock hp => exact hb.close (by rw [hp]; rfl) rfl rfl rfl rfl
  | giveUp hp => exact hb.move rfl rfl rfl rfl (by rcases hp with hp | hp <;> rw [hp] <;> rfl)
  | _ => exact hb.move rfl rfl rfl rfl (by simp [*, Pc.read?])

/-- The thread holds the underlying write lock. -/
def Pc.holdsWrite : Pc → Bool
  | .wrTest | .wrClear | .wrScan _ | .writing => true
  | .idle | .acqBias _ | .acqSlot _ | .acqStore _ | .acqRecheck _ | .acqUndo _ => false
  | .downSlow | .acqedLoad _ | .acqedStore _ => false
  | .relSlot _ _ | .relStore _ _ | .upSlow _ | .writeLock => false

/-- The writer of the underlying lock is the thread that stands in the writer's functions, and
`RBias` is 0 or 1. -/
structure Manned (s : Sys) : Prop where
  bias : s.rBias = 0 ∨ s.rBias = 1
  writer : ∀ t, s.writer = some t ↔ (s.pc t).holdsWrite = true

theorem manned_init (cpu : Tid → Nat) : Manned (.init cpu) := by
  constructor <;> simp [Sys.init, Pc.holdsWrite]

/-- Moving on without taking or giving back the write lock. -/
theorem Manned.move {s s' : Sys} {t : Tid} {p : Pc} (hm : Manned s)
    (hb : s'.rBias = 0 ∨ s'.rBias = 1) (hw : s'.writer = s.writer)
    (hpc : s'.pc = Function.update s.pc t p) (hp : p.holdsWrite = (s.pc t).holdsWrite) :
    Manned s' where
  bias := hb
  writer := by
    intro u
    rw [hw, hpc, hm.writer u]
    by_cases h : u = t
    · rw [h, Function.update_self, hp]
    · rw [Function.update_of_ne h]

theorem manned_tr {NCPU : Nat} {s s' : Sys} {a : Act} (hm : Manned s) (h : Tr NCPU s a s') :
    Manned s' := by
  cases h with
  | migrate => exact ⟨hm.bias, hm.writer⟩
  | scanBusy => exact hm
  | @upWrite t hp =>
    refine ⟨hm.bias, fun u => ?_⟩
    have hw := (hm.writer t).2 (by rw [hp]; rfl)
    by_cases h : u = t
    · simp [h, Pc.holdsWrite]
    · -- nobody else held the write lock
      have hu : (s.pc u).holdsWrite = false := by
        rw [Bool.eq_false_iff, Ne, ← hm.writer u, hw]
        exact fun e => h (Option.some.inj e).symm
      simp [h, hu]
  | @writeLock t hp hw _ =>
    refine ⟨hm.bias, fun u => ?_⟩
    by_cases h : u = t
    · simp [h, Pc.holdsWrite]
    · have hu : (s.pc u).holdsWrite = false := by
        rw [Bool.eq_false_iff, Ne, ← hm.writer u, hw]
        exact fun e => by cases e
      simp [h, Ne.symm h, hu]
  | acqedStore hp => exact hm.move (.inr rfl) rfl rfl (by rw [hp]; rfl)
  | biasStore hp => exact hm.move (.inl rfl) rfl rfl (by rw [hp]; rfl)
  | giveUp hp => exact hm.move hm.bias rfl rfl (by rcases hp with hp | hp <;> rw [hp] <;> rfl)
  | downFast hp _ | downSlow hp _ | upFast hp _ _ | upSlow hp _ _ | downWrite hp | biasSet hp _
  | biasClear hp _ | slotFree hp _ | slotBusy hp _ | slotStore hp | recheckPass hp _
  | recheckFail hp _ | slotUndo hp | readLock hp _ | acqedZero hp _ | acqedSet hp _ | relHit hp _
  | relMiss hp _ | relStore hp | readUnlock hp | testSet hp _ | testClear hp _ | scanFree hp _ _
  | scanDone hp _ => exact hm.move hm.bias rfl rfl (by rw [hp]; rfl)

end Bravo
end SynCord
