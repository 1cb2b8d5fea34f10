import SynCord.Bravo.Slots
import Mathlib.Data.Multiset.AddSub
import Mathlib.Data.Multiset.Count

/-!
# SynCord.Bravo.Exclusion

Readers and writers exclude each other, under the schedules BRAVO is made for (`Pinned`): a thread
keeps its CPU from `down_read` to the matching `up_read`, and is not preempted by a thread of its
CPU in the middle of a bypass program.

The invariant is `Safe`. Its two halves are

* `tally` — the reads of a thread are the read locks it has taken plus the slot it has, so that a
  thread with no slot has its reads covered by the underlying lock. Which read a release ends does
  not matter here: with nested reads the slot goes first.
* `guard` — while a thread has its slot, either `RBias` is set, or a writer is scanning and has not
  yet come to that slot. The branch of the writer that finds `RBias` clear and does not scan is
  safe because of it: the writer that cleared `RBias` scanned to the end.
-/

namespace SynCord
namespace Bravo

/-- In the middle of a bypass program: some but not all of its loads and stores are done. -/
def Pc.inBypass : Pc → Bool
  | .acqSlot _ | .acqStore _ | .acqRecheck _ | .acqUndo _ | .relStore _ _ => true
  | .idle | .acqBias _ | .downSlow | .acqedLoad _ | .acqedStore _ => false
  | .relSlot _ _ | .upSlow _ => false
  | .writeLock | .wrTest | .wrClear | .wrScan _ | .writing => false

/-- Between the call and the return of `down_read` or `up_read`. -/
def Pc.inRead : Pc → Bool
  | .acqBias _ | .acqSlot _ | .acqStore _ | .acqRecheck _ | .acqUndo _ => true
  | .downSlow | .acqedLoad _ | .acqedStore _ | .relSlot _ _ | .relStore _ _ | .upSlow _ => true
  | .idle | .writeLock | .wrTest | .wrClear | .wrScan _ | .writing => false

/-- No other thread of the CPU that `t` runs on is in the middle of a bypass program. -/
def Unpreempted (s : Sys) (t : Tid) : Prop :=
  ∀ u, u ≠ t → s.cpu u = s.cpu t → (s.pc u).inBypass = false

/-- Threads keep their CPU, one below `NCPU`, from `down_read` to the matching `up_read`, end the
reads they began, and do not preempt a bypass program on their CPU. -/
def Pinned (NCPU : Nat) (s : Sys) : Act → Prop
  | .migrate t c => c < NCPU ∧ (s.pc t).inRead = false ∧ ∀ r ∈ s.held, r.owner ≠ t
  | .upRead t r => r.owner = t ∧ Unpreempted s t
  | .downRead t | .downWrite t | .upWrite t | .giveUp t | .next t => Unpreempted s t

/-- The CPU whose slot the thread works on. -/
def Pc.cpu? : Pc → Option Nat
  | .acqBias c | .acqSlot c | .acqStore c | .acqRecheck c | .acqUndo c => some c
  | .relSlot _ c | .relStore _ c => some c
  | .idle | .downSlow | .acqedLoad _ | .acqedStore _ | .upSlow _ => none
  | .writeLock | .wrTest | .wrClear | .wrScan _ | .writing => none

/-- The thread has stored its id and does not know yet whether it may stay. -/
def Pc.checking : Pc → Bool
  | .acqRecheck _ | .acqUndo _ => true
  | .idle | .acqBias _ | .acqSlot _ | .acqStore _ => false
  | .downSlow | .acqedLoad _ | .acqedStore _ => false
  | .relSlot _ _ | .relStore _ _ | .upSlow _ => false
  | .writeLock | .wrTest | .wrClear | .wrScan _ | .writing => false

/-- The thread reads through the slot of its CPU. -/
def Bypassing (s : Sys) (t : Tid) : Prop :=
  s.perCpuData (s.cpu t) = t.word ∧ (s.pc t).checking = false

instance (s : Sys) (t : Tid) : Decidable (Bypassing s t) := inferInstanceAs (Decidable (_ ∧ _))

/-- `slow` has a thread once for every read lock it has taken and not given back. -/
structure Tally (s : Sys) (slow : Multiset Tid) : Prop where
  readers : s.readers = slow.card
  reads : ∀ t, s.reads.countP (·.owner = t) = slow.count t + if Bypassing s t then 1 else 0
  acqed : ∀ t r, s.pc t = .acqedLoad r ∨ s.pc t = .acqedStore r → t ∈ slow

structure Safe (NCPU : Nat) (s : Sys) : Prop where
  zeroed : Zeroed s
  booked : Booked s
  manned : Manned s
  disciplined : Disciplined s
  cpu_lt : ∀ t, s.cpu t < NCPU
  here : ∀ t c, (s.pc t).cpu? = some c → c = s.cpu t
  pinned : ∀ t c, s.perCpuData c = t.word → s.cpu t = c
  owner : ∀ t r, busy s t = some r → r.owner = t
  miss : ∀ t r, s.pc t = .upSlow r → s.perCpuData (s.cpu t) ≠ t.word
  tally : ∃ slow, Tally s slow
  shut : s.writer ≠ none → s.readers = 0
  quiet : ∀ t, (∃ i, s.pc t = .wrScan i) ∨ s.pc t = .writing → s.rBias = 0
  guard : ∀ t, Bypassing s t → s.rBias = 1 ∨ ∃ w i, s.pc w = .wrScan i ∧ i ≤ s.cpu t

theorem cpu_frame {NCPU : Nat} {s s' : Sys} {a : Act} (h : Tr NCPU s a s') {u : Tid}
    (hu : u ≠ a.thread) : s'.cpu u = s.cpu u := by
  cases h <;> simp_all [Act.thread]

theorem bypassing_frame {NCPU : Nat} {s s' : Sys} {a : Act} (hd : Disciplined s)
    (h : Tr NCPU s a s') {u : Tid} (hu : u ≠ a.thread) : Bypassing s' u ↔ Bypassing s u := by
  rw [Bypassing, Bypassing, pc_frame h hu, cpu_frame h hu, slot_frame hd h hu]

section Step

variable {NCPU : Nat} {s s' : Sys} {a : Act}

/-- The condition on schedules gives the discipline of the slots. -/
theorem Safe.alone (hs : Safe NCPU s) (hp : Pinned NCPU s a) : Alone s a := by
  cases a with
  | next t =>
    intro c hc u hu
    have h1 := hs.here t c (by rw [hc]; rfl)
    have h2 := hs.here u c (by rw [hu]; rfl)
    by_cases hut : u = t
    · subst hut; rw [hc] at hu; cases hu
    · have := hp u hut (by rw [← h1, ← h2])
      rw [hu] at this; cases this
  | _ => trivial

/-- A thread that reads through its slot has a read on the books. -/
theorem Safe.booked_of_bypassing (hs : Safe NCPU s) {t : Tid} (hb : Bypassing s t) :
    (∃ r ∈ s.held, r.owner = t) ∨ ∃ r, busy s t = some r := by
  obtain ⟨slow, ht⟩ := hs.tally
  have hpos : 0 < s.reads.countP (·.owner = t) := by rw [ht.reads t, if_pos hb]; omega
  obtain ⟨r, hr, ho⟩ := List.countP_pos_iff.1 hpos
  have ho : r.owner = t := by simpa using ho
  rcases hs.booked.ledger.cover r hr with hh | ⟨u, hu⟩
  · exact .inl ⟨r, hh, ho⟩
  · have : u = t := by rw [← hs.owner u r hu, ho]
    exact .inr ⟨r, this ▸ hu⟩

/-- A thread that may move has no slot. -/
theorem Safe.slot_of_migrate (hs : Safe NCPU s) {t : Tid} {c : Nat}
    (hp : Pinned NCPU s (.migrate t c)) (d : Nat) : s.perCpuData d ≠ t.word := by
  intro hd
  obtain ⟨_, hin, hheld⟩ := hp
  have hcpu := hs.pinned t d hd
  have hb : Bypassing s t := by
    refine ⟨by rw [hcpu]; exact hd, ?_⟩
    cases hpc : s.pc t <;> rw [hpc] at hin <;> first | rfl | cases hin
  rcases hs.booked_of_bypassing hb with ⟨r, hr, ho⟩ | ⟨r, hr⟩
  · exact hheld r hr ho
  · rw [busy] at hr
    cases hpc : s.pc t <;> rw [hpc] at hin hr <;> first | cases hin; done | cases hr

theorem tr_cpu (h : Tr NCPU s a s') : s'.cpu = s.cpu ∨ ∃ c, a = .migrate a.thread c := by
  cases h <;> simp [Act.thread]

theorem tr_cpu? (h : Tr NCPU s a s') {c : Nat} (hc : (s'.pc a.thread).cpu? = some c) :
    (s.pc a.thread).cpu? = some c ∨ c = s.cpu a.thread := by
  cases h <;> simp_all [Act.thread, Pc.cpu?]

theorem tr_busy (h : Tr NCPU s a s') {r : Read} (hr : busy s' a.thread = some r) :
    busy s a.thread = some r ∨ a = .upRead a.thread r ∨ r.owner = a.thread := by
  cases h <;> simp_all [Act.thread, busy, Pc.read?]; simp [← hr]

/-- A thread that may move is not in a program that works on a slot. -/
theorem cpu?_of_migrate {t : Tid} {d : Nat} (hp : Pinned NCPU s (.migrate t d)) :
    (s.pc t).cpu? = none := by
  obtain ⟨_, hin, _⟩ := hp
  cases hpc : s.pc t <;> rw [hpc] at hin <;> first | rfl | cases hin

theorem Safe.here_tr (hs : Safe NCPU s) (hp : Pinned NCPU s a) (h : Tr NCPU s a s') :
    ∀ t c, (s'.pc t).cpu? = some c → c = s'.cpu t := by
  intro t c hc
  by_cases ht : t = a.thread
  · subst ht
    rcases tr_cpu h with e | ⟨d, e⟩
    · rw [e]
      rcases tr_cpu? h hc with hc | hc
      · exact hs.here _ c hc
      · exact hc
    · rw [e] at h hp hc
      cases h
      exact absurd ((cpu?_of_migrate hp).symm.trans hc) (by simp)
  · rw [pc_frame h ht] at hc
    rw [cpu_frame h ht]
    exact hs.here t c hc

theorem Safe.pinned_tr (hs : Safe NCPU s) (hp : Pinned NCPU s a) (h : Tr NCPU s a s') :
    ∀ t c, s'.perCpuData c = t.word → s'.cpu t = c := by
  intro t c hc
  by_cases ht : t = a.thread
  · subst ht
    cases h with
    | migrate => exact absurd hc (hs.slot_of_migrate hp c)
    | @slotStore t d hpc =>
      by_cases hcd : c = d
      · subst hcd; exact (hs.here t c (by rw [hpc]; rfl)).symm
      · exact hs.pinned t c (by simpa [hcd, Act.thread] using hc)
    | @slotUndo t d hpc | @relStore t _ d hpc =>
      by_cases hcd : c = d
      · subst hcd; exact absurd hc.symm (by simpa using Tid.word_ne_zero _)
      · exact hs.pinned t c (by simpa [hcd, Act.thread] using hc)
    | _ => exact hs.pinned _ c hc
  · rw [cpu_frame h ht]
    exact hs.pinned t c ((slot_frame hs.disciplined h ht c).1 hc)

theorem Safe.owner_tr (hs : Safe NCPU s) (hp : Pinned NCPU s a) (h : Tr NCPU s a s') :
    ∀ t r, busy s' t = some r → r.owner = t := by
  intro t r hr
  by_cases ht : t = a.thread
  · subst ht
    rcases tr_busy h hr with hr | ha | ho
    · exact hs.owner _ r hr
    · rw [ha] at hp; exact hp.1
    · exact ho
  · rw [busy, pc_frame h ht] at hr
    exact hs.owner t r hr

theorem tr_upSlow (h : Tr NCPU s a s') {r : Read} (hr : s'.pc a.thread = .upSlow r) :
    s'.perCpuData = s.perCpuData ∧ (s.pc a.thread = .upSlow r ∨ s.allocated = false ∨
      ∃ c, s.pc a.thread = .relSlot r c ∧ s.perCpuData c ≠ a.thread.word) := by
  cases h <;> simp_all [Act.thread]

theorem Safe.miss_tr (hs : Safe NCPU s) (hp : Pinned NCPU s a) (h : Tr NCPU s a s') :
    ∀ t r, s'.pc t = .upSlow r → s'.perCpuData (s'.cpu t) ≠ t.word := by
  intro t r hr
  by_cases ht : t = a.thread
  · subst ht
    obtain ⟨hslot, hcase⟩ := tr_upSlow h hr
    rw [hslot]
    rcases tr_cpu h with e | ⟨d, e⟩
    · rw [e]
      rcases hcase with hr | ha | ⟨c, hc, hne⟩
      · exact hs.miss _ r hr
      · rw [hs.zeroed.slot ha]; exact (Tid.word_ne_zero _).symm
      · rw [← hs.here _ c (by rw [hc]; rfl)]; exact hne
    · rw [e] at hp; exact hs.slot_of_migrate hp _
  · rw [pc_frame h ht] at hr
    rw [cpu_frame h ht]
    exact fun e => hs.miss t r hr ((slot_frame hs.disciplined h ht _).1 e)

/-! ## The tally of reads -/

theorem Tally.of_same {slow : Multiset Tid} (ht : Tally s slow) (hr : s'.readers = s.readers)
    (hl : s'.reads = s.reads) (hb : ∀ t, Bypassing s' t ↔ Bypassing s t)
    (hq : ∀ t r, s'.pc t = .acqedLoad r ∨ s'.pc t = .acqedStore r →
      s.pc t = .acqedLoad r ∨ s.pc t = .acqedStore r) : Tally s' slow where
  readers := by rw [hr]; exact ht.readers
  reads := by
    intro t
    rw [hl, ht.reads t]
    simp only [hb t]
  acqed := fun t r h => ht.acqed t r (hq t r h)

theorem tr_acqed (h : Tr NCPU s a s') (hd : a = .next a.thread → s.pc a.thread ≠ .downSlow)
    {t : Tid} {r : Read} (hp : s'.pc t = .acqedLoad r ∨ s'.pc t = .acqedStore r) :
    s.pc t = .acqedLoad r ∨ s.pc t = .acqedStore r := by
  by_cases ht : t = a.thread
  · subst ht
    cases h <;> simp_all [Act.thread]
  · rwa [pc_frame h ht] at hp

/-- Which threads read through a slot changes only where a recheck passes and where the slot is
given back. -/
theorem Safe.bypassing_same (hs : Safe NCPU s) (hp : Pinned NCPU s a) (h : Tr NCPU s a s')
    (hc : ∀ c, s.pc a.thread = .acqRecheck c → s.rBias ≠ 1)
    (hr : ∀ r c, s.pc a.thread ≠ .relStore r c) (t : Tid) : Bypassing s' t ↔ Bypassing s t := by
  by_cases ht : t = a.thread
  · subst ht
    cases h with
    | @migrate t c =>
      refine ⟨fun hb => absurd hb.1 (hs.slot_of_migrate hp _),
        fun hb => absurd hb.1 (hs.slot_of_migrate hp _)⟩
    | @slotStore t c hpc =>
      have h0 := hs.disciplined.store t c hpc
      have hcpu := hs.here t c (by rw [hpc]; rfl)
      simp only [Bypassing, Act.thread, ← hcpu, h0]
      simpa [Pc.checking] using fun e => absurd e.symm (Tid.word_ne_zero _)
    | @slotUndo t c hpc =>
      have hcpu := hs.here t c (by rw [hpc]; rfl)
      simp only [Bypassing, Act.thread, hpc]
      simpa [Pc.checking, ← hcpu] using fun e => absurd e.symm (Tid.word_ne_zero _)
    | recheckPass hpc hb => exact absurd hb (hc _ hpc)
    | relStore hpc => exact absurd hpc (hr _ _)
    | giveUp hpc => rcases hpc with hpc | hpc <;> simp [Bypassing, Act.thread, hpc, Pc.checking]
    | scanBusy => exact Iff.rfl
    | _ => simp_all [Bypassing, Act.thread, Pc.checking]
  · exact bypassing_frame hs.disciplined h ht

/-- Giving back a read takes it off the books of its owner and of nobody else. -/
theorem countP_owner_erase {l : List Read} {r : Read} (hr : r ∈ l) (t : Tid) :
    l.countP (·.owner = t) = (l.erase r).countP (·.owner = t) + if r.owner = t then 1 else 0 := by
  rw [(List.perm_cons_erase hr).countP_eq, List.countP_cons]
  simp

theorem Safe.tally_recheckPass (hs : Safe NCPU s) {t : Tid} {c : Nat} (hpc : s.pc t = .acqRecheck c)
    (h : Tr NCPU s (.next t) ((s.openRead (s.newRead t (.bypass c))).returnHeld t
      (s.newRead t (.bypass c)))) {slow : Multiset Tid} (ht : Tally s slow) :
    Tally ((s.openRead (s.newRead t (.bypass c))).returnHeld t (s.newRead t (.bypass c))) slow where
  readers := ht.readers
  reads := by
    intro u
    by_cases hu : u = t
    · subst hu
      have hcpu := hs.here u c (by rw [hpc]; rfl)
      have hslot := hs.disciplined.recheck u c hpc
      have h1 : ¬ Bypassing s u := by simp [Bypassing, hpc, Pc.checking]
      have h2 := ht.reads u
      rw [if_neg h1] at h2
      rw [if_pos (by simp [Bypassing, ← hcpu, hslot, Pc.checking])]
      simp [h2]
    · have h2 := ht.reads u
      rw [if_congr (bypassing_frame hs.disciplined h hu) rfl rfl]
      simpa [Ne.symm hu] using h2
  acqed := by
    intro u r hu
    have hut : u ≠ t := by rintro rfl; simp at hu
    exact ht.acqed u r (by simpa [hut] using hu)

theorem Safe.tally_relStore (hs : Safe NCPU s) {t : Tid} {r : Read} {c : Nat}
    (hpc : s.pc t = .relStore r c) (h : Tr NCPU s (.next t) ((s.setSlot c 0).closeRead t r))
    {slow : Multiset Tid} (ht : Tally s slow) : Tally ((s.setSlot c 0).closeRead t r) slow where
  readers := ht.readers
  reads := by
    intro u
    have hbusy : busy s t = some r := by rw [busy, hpc]; rfl
    have h2 := ht.reads u
    rw [countP_owner_erase (hs.booked.ledger.busy_live t r hbusy) u, hs.owner t r hbusy] at h2
    by_cases hu : u = t
    · subst hu
      have hcpu := hs.here u c (by rw [hpc]; rfl)
      have hslot := hs.disciplined.release u r c hpc
      rw [if_pos rfl, if_pos (by simp [Bypassing, ← hcpu, hslot, hpc, Pc.checking])] at h2
      rw [if_neg (by simpa [Bypassing, ← hcpu] using fun e => absurd e.symm (Tid.word_ne_zero u))]
      simpa using h2
    · rw [if_congr (bypassing_frame hs.disciplined h hu) rfl rfl]
      simpa [Ne.symm hu] using h2
  acqed := by
    intro u q hu
    have hut : u ≠ t := by rintro rfl; simp at hu
    exact ht.acqed u q (by simpa [hut] using hu)

/-- A thread on its way to `__up_read` has no slot, so the read it gives back is one of its read
locks. -/
theorem Safe.mem_slow (hs : Safe NCPU s) {t : Tid} {r : Read} (hpc : s.pc t = .upSlow r)
    {slow : Multiset Tid} (ht : Tally s slow) : t ∈ slow := by
  have hbusy : busy s t = some r := by rw [busy, hpc]; rfl
  have h1 := ht.reads t
  rw [if_neg (fun e : Bypassing s t => hs.miss t r hpc e.1)] at h1
  have h2 : 0 < s.reads.countP (·.owner = t) :=
    List.countP_pos_iff.2
      ⟨r, hs.booked.ledger.busy_live t r hbusy, by simpa using hs.owner t r hbusy⟩
  exact Multiset.count_pos.1 (by omega)

theorem Safe.tally_readUnlock (hs : Safe NCPU s) {t : Tid} {r : Read} (hpc : s.pc t = .upSlow r)
    (hb : ∀ u, Bypassing ({ s with readers := s.readers - 1 }.closeRead t r) u ↔ Bypassing s u)
    {slow : Multiset Tid} (ht : Tally s slow) :
    Tally ({ s with readers := s.readers - 1 }.closeRead t r) (slow.erase t) := by
  have hbusy : busy s t = some r := by rw [busy, hpc]; rfl
  have hmem := hs.booked.ledger.busy_live t r hbusy
  have hown := hs.owner t r hbusy
  have hslow := hs.mem_slow hpc ht
  refine ⟨?_, ?_, ?_⟩
  · have := Multiset.card_erase_add_one hslow
    simp only [Sys.closeRead, Sys.setPc, ht.readers]
    omega
  · intro u
    have h1 := ht.reads u
    rw [countP_owner_erase hmem u, hown] at h1
    rw [if_congr (hb u) rfl rfl]
    simp only [Sys.closeRead, Sys.setPc]
    by_cases hu : u = t
    · subst hu
      have := Multiset.count_pos.2 hslow
      rw [Multiset.count_erase_self]
      rw [if_pos rfl] at h1
      omega
    · rw [Multiset.count_erase_of_ne hu]
      rw [if_neg (Ne.symm hu)] at h1
      omega
  · intro u q hu
    have hut : u ≠ t := by rintro rfl; simp at hu
    rw [Multiset.mem_erase_of_ne hut]
    exact ht.acqed u q (by simpa [hut] using hu)

theorem tally_readLock {t : Tid}
    (hb : ∀ u, Bypassing ({ s.openRead (s.newRead t .slow) with readers := s.readers + 1 }.setPc t
      (.acqedLoad (s.newRead t .slow))) u ↔ Bypassing s u)
    {slow : Multiset Tid} (ht : Tally s slow) :
    Tally ({ s.openRead (s.newRead t .slow) with readers := s.readers + 1 }.setPc t
      (.acqedLoad (s.newRead t .slow))) (t ::ₘ slow) where
  readers := by simp [ht.readers]
  reads := by
    intro u
    have h1 := ht.reads u
    rw [if_congr (hb u) rfl rfl]
    by_cases hu : u = t
    · subst hu; simp [h1]; omega
    · simpa [Ne.symm hu, hu] using h1
  acqed := by
    intro u r hu
    by_cases hut : u = t
    · subst hut; exact Multiset.mem_cons_self _ _
    · exact Multiset.mem_cons_of_mem (ht.acqed u r (by simpa [hut] using hu))

theorem Safe.tally_tr (hs : Safe NCPU s) (hp : Pinned NCPU s a) (h : Tr NCPU s a s') :
    ∃ slow, Tally s' slow := by
  obtain ⟨slow, ht⟩ := hs.tally
  have hb := hs.bypassing_same hp h
  have hq := @tr_acqed _ _ _ _ h
  cases h with
  | recheckPass hpc h1 => exact ⟨slow, hs.tally_recheckPass hpc (.recheckPass hpc h1) ht⟩
  | relStore hpc => exact ⟨slow, hs.tally_relStore hpc (.relStore hpc) ht⟩
  | @readUnlock t r hpc =>
    exact ⟨slow.erase t, hs.tally_readUnlock hpc (hb (by simp [Act.thread, hpc])
      (by simp [Act.thread, hpc])) ht⟩
  | @readLock t hpc _ =>
    have hsame := hb (by simp [Act.thread, hpc]) (by simp [Act.thread, hpc])
    exact ⟨t ::ₘ slow, tally_readLock hsame ht⟩
  | giveUp hpc =>
    refine ⟨slow, ht.of_same rfl rfl (hb ?_ ?_) fun u r => hq (by simp)⟩
    · rcases hpc with hpc | hpc <;> simp [Act.thread, hpc]
    · rcases hpc with hpc | hpc <;> simp [Act.thread, hpc]
  | @migrate t c =>
    have hin := hp.2.1
    refine ⟨slow, ht.of_same rfl rfl (hb ?_ ?_) fun u r => hq (by simp)⟩
    · intro d hd; simp only [Act.thread] at hd; rw [hd] at hin; cases hin
    · intro r d hd; simp only [Act.thread] at hd; rw [hd] at hin; cases hin
  | _ =>
    exact ⟨slow, ht.of_same rfl rfl (hb (by simp_all [Act.thread]) (by simp_all [Act.thread]))
      fun u r => hq (by simp_all [Act.thread])⟩

/-! ## Writers -/

/-- There is no writer while a thread has a read lock. -/
theorem Safe.no_writer (hs : Safe NCPU s) {slow : Multiset Tid} (ht : Tally s slow) {t : Tid}
    (hm : t ∈ slow) : s.writer = none := by
  by_contra hw
  have h0 := hs.shut hw
  have hpos := Multiset.card_pos_iff_exists_mem.2 ⟨t, hm⟩
  rw [ht.readers] at h0
  omega

theorem Safe.shut_tr (hs : Safe NCPU s) (h : Tr NCPU s a s') :
    s'.writer ≠ none → s'.readers = 0 := by
  cases h with
  | readLock hpc hw => exact fun e => absurd hw e
  | readUnlock hpc =>
    obtain ⟨slow, ht⟩ := hs.tally
    exact fun e => absurd (hs.no_writer ht (hs.mem_slow hpc ht)) e
  | writeLock _ _ h0 => exact fun _ => h0
  | upWrite => exact fun e => absurd rfl e
  | _ => exact hs.shut

/-- Where a thread ends up scanning or writing, it was on its way there. -/
theorem tr_writer (h : Tr NCPU s a s') {t : Tid}
    (ht : (∃ i, s'.pc t = .wrScan i) ∨ s'.pc t = .writing) :
    ((∃ i, s.pc t = .wrScan i) ∨ s.pc t = .writing) ∨ s'.rBias = 0 ∨ s'.rBias ≠ 1 := by
  by_cases hu : t = a.thread
  · subst hu
    cases h <;> simp_all [Act.thread]
  · rw [pc_frame h hu] at ht
    exact .inl ht

theorem Safe.quiet_tr (hs : Safe NCPU s) (h : Tr NCPU s a s') (hm : Manned s') :
    ∀ t, (∃ i, s'.pc t = .wrScan i) ∨ s'.pc t = .writing → s'.rBias = 0 := by
  intro t ht
  rcases tr_writer h ht with hbefore | h0 | h1
  · have h0 := hs.quiet t hbefore
    cases h with
    | @acqedStore u r hpc =>
      -- the reader that sets `RBias` has the read lock
      obtain ⟨slow, htl⟩ := hs.tally
      have hw := hs.no_writer htl (htl.acqed u r (.inr hpc))
      have : s.writer = some t := by
        rw [hs.manned.writer]
        rcases hbefore with ⟨i, e⟩ | e <;> rw [e] <;> rfl
      rw [hw] at this; cases this
    | biasStore => rfl
    | _ => exact h0
  · exact h0
  · exact hm.bias.resolve_right h1

theorem Safe.bypassing_of_relStore (hs : Safe NCPU s) {t : Tid} {r : Read} {c : Nat}
    (hpc : s.pc t = .relStore r c) : Bypassing s t := by
  refine ⟨?_, by rw [hpc]; rfl⟩
  rw [← hs.here t c (by rw [hpc]; rfl)]
  exact hs.disciplined.release t r c hpc

/-- A thread gets its slot only where `RBias` is set. -/
theorem Safe.bypassing_before (hs : Safe NCPU s) (hp : Pinned NCPU s a) (h : Tr NCPU s a s')
    {t : Tid} (hb : Bypassing s' t) : Bypassing s t ∨ s'.rBias = 1 := by
  by_cases ht : t = a.thread
  · subst ht
    by_cases hr : ∃ r c, s.pc a.thread = .relStore r c
    · obtain ⟨r, c, hpc⟩ := hr
      exact .inl (hs.bypassing_of_relStore hpc)
    by_cases hc : ∃ c, s.pc a.thread = .acqRecheck c ∧ s.rBias = 1
    · obtain ⟨c, hpc, h1⟩ := hc
      cases h <;> simp_all [Act.thread]
    · simp only [not_exists, not_and] at hc hr
      exact .inl ((hs.bypassing_same hp h hc hr _).1 hb)
  · exact .inl ((bypassing_frame hs.disciplined h ht).1 hb)

/-- `RBias` is cleared only by a writer that goes on to scan. -/
theorem tr_bias (h : Tr NCPU s a s') (h1 : s.rBias = 1) :
    s'.rBias = 1 ∨ ∃ w, s'.pc w = .wrScan 0 := by
  cases h with
  | @biasStore w hpc => exact .inr ⟨w, by simp⟩
  | acqedStore => exact .inl rfl
  | _ => exact .inl h1

/-- A scan does not get past the slot of a reader. -/
theorem Safe.scan_tr (hs : Safe NCPU s) (h : Tr NCPU s a s') {t w : Tid} {i : Nat}
    (hb : Bypassing s t) (hw : s.pc w = .wrScan i) (hi : i ≤ s.cpu t) :
    ∃ j, s'.pc w = .wrScan j ∧ j ≤ s.cpu t := by
  by_cases hwa : w = a.thread
  · subst hwa
    cases h with
    | @scanFree w j hpc hj h0 =>
      have hne : s.cpu t ≠ i := by
        rintro rfl
        simp only [Act.thread] at hw
        rw [hpc] at hw
        cases hw
        exact Tid.word_ne_zero t (by rw [← hb.1, h0])
      simp_all [Act.thread]
      omega
    | @scanDone w j hpc hj =>
      have := hs.cpu_lt t
      simp only [Act.thread] at hw
      rw [hpc] at hw; cases hw
      omega
    | scanBusy => exact ⟨i, hw, hi⟩
    | migrate => exact ⟨i, hw, hi⟩
    | _ => simp_all [Act.thread]
  · exact ⟨i, by rw [pc_frame h hwa]; exact hw, hi⟩

theorem Safe.guard_tr (hs : Safe NCPU s) (hp : Pinned NCPU s a) (h : Tr NCPU s a s') :
    ∀ t, Bypassing s' t → s'.rBias = 1 ∨ ∃ w i, s'.pc w = .wrScan i ∧ i ≤ s'.cpu t := by
  intro t hb
  rcases hs.bypassing_before hp h hb with hb | h1
  · have hcpu : s'.cpu t = s.cpu t := by
      rcases tr_cpu h with e | ⟨d, e⟩
      · rw [e]
      · by_cases ht : t = a.thread
        · rw [e] at hp; exact absurd hb.1 (ht ▸ hs.slot_of_migrate hp _)
        · exact cpu_frame h ht
    rw [hcpu]
    rcases hs.guard t hb with h1 | ⟨w, i, hw, hi⟩
    · rcases tr_bias h h1 with h1 | ⟨w, hw⟩
      · exact .inl h1
      · exact .inr ⟨w, 0, hw, Nat.zero_le _⟩
    · obtain ⟨j, hj, hle⟩ := hs.scan_tr h hb hw hi
      exact .inr ⟨w, j, hj, hle⟩
  · exact .inl h1

theorem Safe.cpu_lt_tr (hs : Safe NCPU s) (hp : Pinned NCPU s a) (h : Tr NCPU s a s') :
    ∀ t, s'.cpu t < NCPU := by
  cases h with
  | @migrate t c =>
    intro u
    by_cases hu : u = t
    · subst hu; simpa using hp.1
    · simpa [hu] using hs.cpu_lt u
  | _ => exact hs.cpu_lt

theorem Safe.step (hs : Safe NCPU s) (hp : Pinned NCPU s a) (h : step NCPU s a = some s') :
    Safe NCPU s' := by
  have htr := step_tr hs.zeroed h
  have hm := manned_tr hs.manned htr
  exact {
    zeroed := zeroed_tr hs.zeroed htr
    booked := booked_tr hs.booked htr
    manned := hm
    disciplined := disciplined_tr hs.disciplined (hs.alone hp) htr
    cpu_lt := hs.cpu_lt_tr hp htr
    here := hs.here_tr hp htr
    pinned := hs.pinned_tr hp htr
    owner := hs.owner_tr hp htr
    miss := hs.miss_tr hp htr
    tally := hs.tally_tr hp htr
    shut := hs.shut_tr htr
    quiet := hs.quiet_tr htr hm
    guard := hs.guard_tr hp htr }

end Step

theorem safe_init {NCPU : Nat} {cpu : Tid → Nat} (hcpu : ∀ t, cpu t < NCPU) :
    Safe NCPU (.init cpu) where
  zeroed := zeroed_init cpu
  booked := booked_init cpu
  manned := manned_init cpu
  disciplined := disciplined_init cpu
  cpu_lt := hcpu
  here := by simp [Sys.init, Pc.cpu?]
  pinned := by intro t c h; exact absurd h.symm t.word_ne_zero
  owner := by simp [busy, Sys.init, Pc.read?]
  miss := by simp [Sys.init]
  tally := by
    refine ⟨0, rfl, ?_, by simp [Sys.init]⟩
    intro t
    rw [if_neg (fun h => t.word_ne_zero h.1.symm)]
    simp [Sys.init]
  shut := fun _ => rfl
  quiet := by simp [Sys.init]
  guard := fun t h => absurd h.1.symm t.word_ne_zero

theorem Safe.no_reads {NCPU : Nat} {s : Sys} (hs : Safe NCPU s) {w : Tid}
    (hw : s.pc w = .writing) : s.reads = [] := by
  have hwr : s.writer = some w := by rw [hs.manned.writer, hw]; rfl
  have hnb (t : Tid) : ¬ Bypassing s t := by
    intro hb
    rcases hs.guard t hb with h1 | ⟨v, i, hv, _⟩
    · rw [hs.quiet w (.inr hw)] at h1; cases h1
    · have : s.writer = some v := by rw [hs.manned.writer, hv]; rfl
      rw [hwr] at this; cases this
      rw [hw] at hv; cases hv
  obtain ⟨slow, ht⟩ := hs.tally
  have h0 : slow = 0 := by
    have := hs.shut (by rw [hwr]; simp)
    rw [ht.readers] at this
    exact Multiset.card_eq_zero.1 (by omega)
  refine List.eq_nil_iff_forall_not_mem.2 fun r hr => ?_
  have h1 := ht.reads r.owner
  rw [if_neg (hnb _), h0, Multiset.count_zero] at h1
  have h2 : 0 < s.reads.countP (·.owner = r.owner) := List.countP_pos_iff.2 ⟨r, hr, by simp⟩
  omega

/-- BRAVO mutual exclusion: in every state that the machine reaches under a schedule that keeps
threads on their CPU and does not preempt bypass programs, a thread that has returned from
`down_write` and not called `up_write` is the only one, and no thread has returned from `down_read`
and not called `up_read`, whether it went past the lock or through it, and however its reads
nest. -/
theorem bravo_mutual_exclusion {NCPU : Nat} {cpu : Tid → Nat} (hcpu : ∀ t, cpu t < NCPU) {s : Sys}
    (h : Reach (step NCPU) (Pinned NCPU) (.init cpu) s) {w : Tid} (hw : s.pc w = .writing) :
    s.held = [] ∧ ∀ v, s.pc v = .writing → v = w := by
  have hs : Safe NCPU s := h.invariant (safe_init hcpu) fun _ _ _ hs hp hst => hs.step hp hst
  refine ⟨?_, ?_⟩
  · refine List.eq_nil_iff_forall_not_mem.2 fun r hr => ?_
    have := hs.booked.ledger.held_live r hr
    rw [hs.no_reads hw] at this
    cases this
  · intro v hv
    have h1 : s.writer = some w := by rw [hs.manned.writer, hw]; rfl
    have h2 : s.writer = some v := by rw [hs.manned.writer, hv]; rfl
    rw [h1] at h2; cases h2; rfl

/-! ## Threads with a CPU each -/

/-- A step of one of the threads `ts`, which ends its own reads and stays on its CPU. -/
def Among (ts : List Tid) (_ : Sys) : Act → Prop
  | .migrate _ _ => False
  | .upRead u r => u ∈ ts ∧ r.owner = u
  | .downRead u | .downWrite u | .upWrite u | .giveUp u | .next u => u ∈ ts

instance (ts : List Tid) (s : Sys) : (a : Act) → Decidable (Among ts s a)
  | .migrate _ _ => inferInstanceAs (Decidable False)
  | .upRead u r => inferInstanceAs (Decidable (u ∈ ts ∧ r.owner = u))
  | .downRead u | .downWrite u | .upWrite u | .giveUp u | .next u =>
    inferInstanceAs (Decidable (u ∈ ts))

theorem Among.thread {ts : List Tid} {s : Sys} {a : Act} (h : Among ts s a) : a.thread ∈ ts := by
  cases a with
  | migrate => exact h.elim
  | upRead => exact h.1
  | _ => exact h

/-- Nobody but the threads `ts` runs, and nobody has moved. -/
structure Apart (cpu : Tid → Nat) (ts : List Tid) (s : Sys) : Prop where
  zeroed : Zeroed s
  cpu : s.cpu = cpu
  idle : ∀ u, u ∉ ts → s.pc u = .idle

section Apart

variable {NCPU : Nat} {cpu : Tid → Nat} {ts : List Tid} {s s' : Sys} {a : Act}

theorem apart_init : Apart cpu ts (.init cpu) := ⟨zeroed_init cpu, rfl, fun _ _ => rfl⟩

theorem Apart.step (h : Apart cpu ts s) (ha : Among ts s a) (hst : step NCPU s a = some s') :
    Apart cpu ts s' := by
  have htr := step_tr h.zeroed hst
  refine ⟨zeroed_tr h.zeroed htr, ?_, fun u hu => ?_⟩
  · cases htr with
    | migrate => exact ha.elim
    | _ => exact h.cpu
  · have hne : u ≠ a.thread := fun hut => hu (hut ▸ ha.thread)
    rw [pc_frame htr hne]
    exact h.idle u hu

/-- Threads that have a CPU each may be interleaved in any way. -/
theorem Apart.pinned (h : Apart cpu ts s) (hcpu : ∀ t ∈ ts, ∀ u ∈ ts, cpu u = cpu t → u = t)
    (ha : Among ts s a) : Pinned NCPU s a := by
  have hun : Unpreempted s a.thread := by
    intro u hu hc
    rw [h.cpu] at hc
    by_cases hut : u ∈ ts
    · exact absurd (hcpu _ ha.thread u hut hc) hu
    · rw [h.idle u hut]
      rfl
  cases a with
  | migrate => exact ha.elim
  | upRead u r => exact ⟨ha.2, hun⟩
  | _ => exact hun

end Apart

def threadR : Tid := ⟨1, Tid.one_ne_zero⟩

def threadW : Tid := ⟨2, Tid.two_ne_zero⟩

def ownCpu (t : Tid) : Nat := if t = threadR then 0 else 1

theorem ownCpu_inj : ∀ t ∈ [threadR, threadW], ∀ u ∈ [threadR, threadW],
    ownCpu u = ownCpu t → u = t := by decide

theorem ownCpu_lt (t : Tid) : ownCpu t < 2 := by
  rw [ownCpu]
  split <;> decide

/-- A thread reads through the lock, which sets `RBias`, and then past it. In the meantime another
one calls `down_write`, and comes to the slot of the reader. -/
def overlap : List Act :=
  [.downRead threadR, .next threadR, .next threadR, .next threadR,
    .upRead threadR ⟨0, threadR, .slow⟩, .next threadR, .next threadR,
    .downRead threadR, .next threadR, .next threadR, .downWrite threadW, .next threadW,
    .next threadR, .next threadR, .next threadW, .next threadW, .next threadW]

/-- The reader goes, and the writer gets in. -/
def handover : List Act :=
  overlap ++ [.upRead threadR ⟨1, threadR, .bypass 0⟩, .next threadR, .next threadW, .next threadR,
    .next threadW, .next threadW, .next threadW]

theorem bravo_mutual_exclusion_handover : ∃ s : Sys,
    exec (step 2) (Among [threadR, threadW]) (.init ownCpu) handover = some s ∧
      s.pc threadW = .writing ∧ s.held = [] ∧ ∀ v, s.pc v = .writing → v = threadW := by
  have hrun : (exec (step 2) (Among [threadR, threadW]) (.init ownCpu) handover).map
      (·.pc threadW) = some .writing := by decide
  obtain ⟨s, hs, hw⟩ := Option.map_eq_some_iff.1 hrun
  have hreach : Reach (step 2) (Pinned 2) (.init ownCpu) s :=
    (exec_reach hs).strengthen apart_init (fun _ _ _ h ha hst => h.step ha hst)
      fun _ _ h ha => h.pinned ownCpu_inj ha
  exact ⟨s, hs, hw, bravo_mutual_exclusion ownCpu_lt hreach hw⟩

end Bravo
end SynCord
