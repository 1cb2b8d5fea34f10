import SynCord.Bravo.Slots
import Mathlib.Data.List.Count

/-!
# SynCord.Bravo.Pairing

Releases under any schedule. A thread may be preempted between any two steps and moved at any time,
and a read may be ended by a thread other than the one that began it (`up_read_non_owner`).

The release recognises a bypassed read only by finding the caller's id in the slot of the CPU it
runs on then. So a read and its release fall apart when the reader has moved
(`bravo_pairing_migrated`), and in the other ways that `PairedStep` names. In every run that avoids
them each `up_read` goes the way its `down_read` went (`bravo_pairing`).
-/

namespace SynCord
namespace Bravo

/-- Thread `t` may end the read `r` here: a bypassed read where it began, on the CPU whose slot it
has, and a slow read on a CPU whose slot does not name `t` for another read. -/
def Returns (s : Sys) (t : Tid) (r : Read) : Prop :=
  match r.path with
  | .bypass c => r.owner = t ∧ s.cpu t = c
  | .slow => ∀ q ∈ s.reads, q.owner = t → q.path ≠ .bypass (s.cpu t)

instance (s : Sys) (t : Tid) (r : Read) : Decidable (Returns s t r) :=
  match r with
  | ⟨_, o, .bypass c⟩ => inferInstanceAs (Decidable (o = t ∧ s.cpu t = c))
  | ⟨_, _, .slow⟩ =>
    inferInstanceAs (Decidable (∀ q ∈ s.reads, q.owner = t → q.path ≠ .bypass (s.cpu t)))

/-- What a run has to avoid: two threads between the check and the store of one slot, a bypassed
read ended by another thread or on another CPU, and a slow read ended by a thread that has a
bypassed read in the slot of its CPU. -/
def PairedStep (s : Sys) : Act → Prop
  | .next t => ∀ c, s.pc t = .acqSlot c → ∀ u, s.pc u ≠ .acqStore c
  | .upRead t r => Returns s t r
  | .downRead _ | .downWrite _ | .upWrite _ | .giveUp _ | .migrate _ _ => True

def Path.isSlow : Path → Bool
  | .slow => true
  | .bypass _ => false

@[simp] theorem Path.isSlow_slow : Path.slow.isSlow = true := rfl

@[simp] theorem Path.isSlow_bypass (c : Nat) : (Path.bypass c).isSlow = false := rfl

/-- Thread `t` has a bypassed read in the slot of CPU `c`. -/
def Bypassed (s : Sys) (t : Tid) (c : Nat) : Prop :=
  ∃ r ∈ s.reads, r.owner = t ∧ r.path = .bypass c

/-- Thread `t` is inside a bypassed read section of the slot of CPU `c`: from the store of its id
to the store of 0. -/
def InBypassed (s : Sys) (t : Tid) (c : Nat) : Prop :=
  Bypassed s t c ∨ s.pc t = .acqRecheck c ∨ s.pc t = .acqUndo c

/-- Releases are paired with acquires. -/
structure Paired (s : Sys) : Prop where
  /-- an `up_read` that takes the bypass path ends a read that took it -/
  bypass : ∀ t r c, s.pc t = .relStore r c → r.path = .bypass c
  /-- an `up_read` that takes the slow path ends a read that took it -/
  slow : ∀ t r, s.pc t = .upSlow r → r.path = .slow
  /-- the reader count is the number of outstanding slow reads -/
  readers : s.readers = s.reads.countP (·.path.isSlow)
  /-- a slot is taken only while its thread is inside a bypassed read section -/
  slot : ∀ c, s.perCpuData c ≠ 0 → ∃ t : Tid, s.perCpuData c = t.word ∧ InBypassed s t c

/-- The invariant behind `Paired`. -/
structure Matched (s : Sys) : Prop where
  zeroed : Zeroed s
  booked : Booked s
  disciplined : Disciplined s
  /-- the bypassed reads are the slots that are past their recheck -/
  slots : ∀ t c, Bypassed s t c ↔
    s.perCpuData c = t.word ∧ s.pc t ≠ .acqRecheck c ∧ s.pc t ≠ .acqUndo c
  unique : ∀ r ∈ s.reads, ∀ q ∈ s.reads, ∀ c,
    r.owner = q.owner → r.path = .bypass c → q.path = .bypass c → r = q
  check : ∀ t r c, s.pc t = .relSlot r c →
    (r.owner = t ∧ r.path = .bypass c) ∨ (r.path = .slow ∧ s.perCpuData c ≠ t.word)
  store : ∀ t r c, s.pc t = .relStore r c → r.owner = t ∧ r.path = .bypass c
  slow : ∀ t r, s.pc t = .upSlow r → r.path = .slow
  readers : s.readers = s.reads.countP (·.path.isSlow)

theorem matched_init (cpu : Tid → Nat) : Matched (.init cpu) where
  zeroed := zeroed_init cpu
  booked := booked_init cpu
  disciplined := disciplined_init cpu
  slots := by
    intro t c
    simpa [Bypassed, Sys.init] using t.word_ne_zero.symm
  unique := by simp [Sys.init]
  check := by simp [Sys.init]
  store := by simp [Sys.init]
  slow := by simp [Sys.init]
  readers := by simp [Sys.init]

theorem Matched.paired {s : Sys} (hm : Matched s) : Paired s where
  bypass := fun t r c h => (hm.store t r c h).2
  slow := hm.slow
  readers := hm.readers
  slot := by
    intro c hc
    obtain ⟨t, ht⟩ := (hm.disciplined.word c).resolve_left hc
    refine ⟨t, ht, ?_⟩
    by_cases h1 : s.pc t = .acqRecheck c
    · exact .inr (.inl h1)
    by_cases h2 : s.pc t = .acqUndo c
    · exact .inr (.inr h2)
    · exact .inl ((hm.slots t c).2 ⟨ht, h1, h2⟩)

/-! ## What a step does to the bypassed reads -/

section Bypassed

variable {s s' : Sys} {t : Tid} {c : Nat} {r : Read}

theorem bypassed_congr (h : s'.reads = s.reads) : Bypassed s' t c ↔ Bypassed s t c := by
  rw [Bypassed, h, Bypassed]

theorem bypassed_cons (h : s'.reads = r :: s.reads) :
    Bypassed s' t c ↔ (r.owner = t ∧ r.path = .bypass c) ∨ Bypassed s t c := by
  simp [Bypassed, h]

theorem bypassed_erase (h : s'.reads = s.reads.erase r) (hr : r.owner ≠ t ∨ r.path ≠ .bypass c) :
    Bypassed s' t c ↔ Bypassed s t c := by
  rw [Bypassed, h, Bypassed]
  constructor
  · rintro ⟨q, hq, ho⟩
    exact ⟨q, List.mem_of_mem_erase hq, ho⟩
  · rintro ⟨q, hq, ho, hb⟩
    have hqr : q ≠ r := by
      rintro rfl
      exact hr.elim (fun h => h ho) (fun h => h hb)
    exact ⟨q, (List.mem_erase_of_ne hqr).2 hq, ho, hb⟩

end Bypassed

section Step

variable {NCPU : Nat} {s s' : Sys} {a : Act}

theorem PairedStep.alone (hp : PairedStep s a) : Alone s a := by
  cases a with
  | next t => exact hp
  | _ => trivial

/-- A step makes and ends bypassed reads of its own thread only. -/
theorem Matched.bypassed_frame (hm : Matched s) (h : Tr NCPU s a s') {u : Tid}
    (hu : u ≠ a.thread) (c : Nat) : Bypassed s' u c ↔ Bypassed s u c := by
  cases h with
  | @recheckPass t d hp =>
    rw [bypassed_cons rfl]
    exact or_iff_right fun e => hu e.1.symm
  | @readLock t hp =>
    rw [bypassed_cons rfl]
    exact or_iff_right fun e => by cases e.2
  | @relStore t r d hp =>
    refine bypassed_erase rfl (.inl ?_)
    rw [(hm.store t r d hp).1]
    exact hu.symm
  | @readUnlock t r hp =>
    refine bypassed_erase rfl (.inr ?_)
    rw [hm.slow t r hp]
    exact Path.noConfusion
  | _ => exact bypassed_congr rfl

/-- The slots of the thread that steps. -/
theorem Matched.slots_actor (hm : Matched s) (h : Tr NCPU s a s') (c : Nat) :
    Bypassed s' a.thread c ↔ s'.perCpuData c = a.thread.word ∧
      s'.pc a.thread ≠ .acqRecheck c ∧ s'.pc a.thread ≠ .acqUndo c := by
  have hold := hm.slots a.thread c
  have hz (u : Tid) : ¬ 0#64 = u.word := u.word_ne_zero.symm
  cases h with
  | @recheckPass t d hp =>
    have hd := hm.disciplined.recheck t d hp
    rw [bypassed_cons (s := s) rfl]
    by_cases hc : d = c
    · subst hc; simp [Act.thread, hd]
    · simpa [Act.thread, hp, hc] using hold
  | @readLock t hp =>
    rw [bypassed_cons (s := s) rfl]
    simpa [Act.thread, hp] using hold
  | @slotStore t d hp =>
    have hd := hm.disciplined.store t d hp
    refine Iff.trans (bypassed_congr (s := s) rfl) ?_
    by_cases hc : c = d
    · subst hc; simpa [Act.thread, hp, hd, hz] using hold
    · simpa [Act.thread, hp, hc, Ne.symm hc] using hold
  | @slotUndo t d hp =>
    refine Iff.trans (bypassed_congr (s := s) rfl) ?_
    by_cases hc : c = d
    · subst hc; simpa [Act.thread, hp, hz] using hold
    · simpa [Act.thread, hp, hc, Ne.symm hc] using hold
  | @relStore t r d hp =>
    obtain ⟨ho, hb⟩ := hm.store t r d hp
    by_cases hc : c = d
    · subst hc
      -- the read given back was the only one with this slot
      have hl := hm.booked.ledger.busy_live t r (by rw [busy, hp]; rfl)
      have hno : ¬ Bypassed ((s.setSlot c 0).closeRead t r) t c := by
        rintro ⟨q, hq, hqo, hqb⟩
        have hqr := hm.unique q (List.mem_of_mem_erase hq) r hl c (hqo.trans ho.symm) hqb hb
        subst hqr
        exact hm.booked.ledger.nodup.not_mem_erase hq
      simpa [Act.thread, hz] using hno
    · rw [bypassed_erase (s := s) rfl (.inr (by rw [hb]; exact fun e => hc (by cases e; rfl)))]
      simpa [Act.thread, hp, hc] using hold
  | @readUnlock t r hp =>
    rw [bypassed_erase (s := s) rfl (.inr (by rw [hm.slow t r hp]; exact Path.noConfusion))]
    simpa [Act.thread, hp] using hold
  | migrate | scanBusy => exact hold
  | giveUp hp =>
    refine Iff.trans (bypassed_congr (s := s) rfl) ?_
    rcases hp with hp | hp <;> simpa [Act.thread, hp] using hold
  | @recheckFail t d hp =>
    refine Iff.trans (bypassed_congr (s := s) rfl) ?_
    simpa [Act.thread, hp] using hold
  | _ =>
    refine Iff.trans (bypassed_congr (s := s) rfl) ?_
    simpa [Act.thread, *] using hold

theorem Matched.unique_tr (hm : Matched s) (h : Tr NCPU s a s') :
    ∀ r ∈ s'.reads, ∀ q ∈ s'.reads, ∀ c,
      r.owner = q.owner → r.path = .bypass c → q.path = .bypass c → r = q := by
  cases h with
  | @recheckPass t d hp =>
    -- a thread that is still at its recheck has no read with that slot
    have hno : ¬ Bypassed s t d := fun hb => ((hm.slots t d).1 hb).2.1 hp
    intro r hr q hq c ho hrb hqb
    rcases List.mem_cons.1 hr with rfl | hr <;> rcases List.mem_cons.1 hq with rfl | hq
    · rfl
    · cases hrb; exact absurd ⟨q, hq, ho.symm, hqb⟩ hno
    · cases hqb; exact absurd ⟨r, hr, ho, hrb⟩ hno
    · exact hm.unique r hr q hq c ho hrb hqb
  | @readLock t hp =>
    intro r hr q hq c ho hrb hqb
    rcases List.mem_cons.1 hr with rfl | hr
    · cases hrb
    rcases List.mem_cons.1 hq with rfl | hq
    · cases hqb
    exact hm.unique r hr q hq c ho hrb hqb
  | relStore | readUnlock =>
    intro r hr q hq
    exact hm.unique r (List.mem_of_mem_erase hr) q (List.mem_of_mem_erase hq)
  | _ => exact hm.unique

theorem Matched.check_tr (hm : Matched s) (hp : PairedStep s a) (h : Tr NCPU s a s') :
    ∀ t r c, s'.pc t = .relSlot r c →
      (r.owner = t ∧ r.path = .bypass c) ∨ (r.path = .slow ∧ s'.perCpuData c ≠ t.word) := by
  intro t r c hr
  by_cases ht : t = a.thread
  · subst ht
    cases h with
    | @upFast t q hpc hq ha =>
      simp only [Act.thread, Sys.setPc, Function.update_self, Pc.relSlot.injEq] at hr
      obtain ⟨rfl, rfl⟩ := hr
      cases hpath : q.path with
      | bypass d =>
        simp only [PairedStep, Returns, hpath] at hp
        obtain ⟨ho, rfl⟩ := hp
        exact .inl ⟨ho, rfl⟩
      | slow =>
        simp only [PairedStep, Returns, hpath] at hp
        refine .inr ⟨rfl, fun hw => ?_⟩
        obtain ⟨q', hq', ho, hb⟩ := (hm.slots t (s.cpu t)).2 ⟨hw, by simp [hpc], by simp [hpc]⟩
        exact hp q' hq' ho hb
    | migrate => exact hm.check _ r c hr
    | _ => simp_all [Act.thread]
  · rw [pc_frame h ht] at hr
    exact (hm.check t r c hr).imp_right
      (And.imp_right (mt (slot_frame hm.disciplined h ht c).1))

theorem Matched.store_tr (hm : Matched s) (h : Tr NCPU s a s') :
    ∀ t r c, s'.pc t = .relStore r c → r.owner = t ∧ r.path = .bypass c := by
  intro t r c hr
  by_cases ht : t = a.thread
  · subst ht
    cases h with
    | @relHit t q d hpc hw =>
      simp only [Act.thread, Sys.setPc, Function.update_self, Pc.relStore.injEq] at hr
      obtain ⟨rfl, rfl⟩ := hr
      exact (hm.check t q d hpc).resolve_right fun e => e.2 hw
    | migrate => exact hm.store _ r c hr
    | _ => simp_all [Act.thread]
  · rw [pc_frame h ht] at hr
    exact hm.store t r c hr

theorem Matched.slow_tr (hm : Matched s) (h : Tr NCPU s a s') :
    ∀ t r, s'.pc t = .upSlow r → r.path = .slow := by
  intro t r hr
  by_cases ht : t = a.thread
  · subst ht
    cases h with
    | @upSlow t q hpc hq ha =>
      simp only [Act.thread, Sys.setPc, Function.update_self, Pc.upSlow.injEq] at hr
      subst hr
      -- a bypassed read would have a slot, and there is no record to have it in
      cases hpath : q.path with
      | slow => rfl
      | bypass c =>
        have hl := hm.booked.ledger.held_live q hq
        have hw := ((hm.slots q.owner c).1 ⟨q, hl, rfl, hpath⟩).1
        rw [hm.zeroed.slot ha] at hw
        exact absurd hw.symm (Tid.word_ne_zero _)
    | @relMiss t q c hpc hne =>
      simp only [Act.thread, Sys.setPc, Function.update_self, Pc.upSlow.injEq] at hr
      subst hr
      rcases hm.check t q c hpc with ⟨ho, hb⟩ | ⟨hb, _⟩
      · have hl := hm.booked.ledger.busy_live t q (by rw [busy, hpc]; rfl)
        exact absurd ((hm.slots t c).1 ⟨q, hl, ho, hb⟩).1 hne
      · exact hb
    | migrate => exact hm.slow _ r hr
    | _ => simp_all [Act.thread]
  · rw [pc_frame h ht] at hr
    exact hm.slow t r hr

theorem countP_erase_read {l : List Read} {r : Read} (h : r ∈ l) :
    l.countP (·.path.isSlow) =
      (l.erase r).countP (·.path.isSlow) + if r.path.isSlow then 1 else 0 := by
  rw [(List.perm_cons_erase h).countP_eq, List.countP_cons]

theorem Matched.readers_tr (hm : Matched s) (h : Tr NCPU s a s') :
    s'.readers = s'.reads.countP (·.path.isSlow) := by
  have hold := hm.readers
  cases h with
  | recheckPass => simpa using hold
  | readLock => simp [hold, List.countP_cons]
  | @relStore t r d hp =>
    have hl := hm.booked.ledger.busy_live t r (by rw [busy, hp]; rfl)
    rw [countP_erase_read hl, (hm.store t r d hp).2] at hold
    simpa using hold
  | @readUnlock t r hp =>
    have hl := hm.booked.ledger.busy_live t r (by rw [busy, hp]; rfl)
    rw [countP_erase_read hl, hm.slow t r hp] at hold
    simp [hold]
  | _ => exact hold

theorem Matched.step (hm : Matched s) (hp : PairedStep s a)
    (h : Bravo.step NCPU s a = some s') : Matched s' := by
  have ht := step_tr hm.zeroed h
  refine ⟨zeroed_tr hm.zeroed ht, booked_tr hm.booked ht,
    disciplined_tr hm.disciplined hp.alone ht, ?_, hm.unique_tr ht, hm.check_tr hp ht,
    hm.store_tr ht, hm.slow_tr ht, hm.readers_tr ht⟩
  intro t c
  by_cases hta : t = a.thread
  · rw [hta]; exact hm.slots_actor ht c
  · rw [hm.bypassed_frame ht hta, pc_frame ht hta, slot_frame hm.disciplined ht hta]
    exact hm.slots t c

end Step

/-- In every run whose steps all meet `PairedStep`, each release goes the way its acquire
went, the reader count is the number of slow reads and every slot belongs to a thread in a bypassed
read section. -/
theorem bravo_pairing {NCPU : Nat} {cpu : Tid → Nat} {s : Sys}
    (h : Reach (step NCPU) PairedStep (.init cpu) s) : Paired s :=
  (h.invariant (matched_init cpu) fun _ _ _ hm hp hs => hm.step hp hs).paired

/-! ## A reader that stays and one that moves -/

/-- A thread reads through the lock, which sets `RBias`, and then past it. -/
def readTwice (t : Tid) : List Act :=
  [.downRead t, .next t, .next t, .next t, .upRead t ⟨0, t, .slow⟩, .next t, .next t,
    .downRead t, .next t, .next t, .next t, .next t]

/-- Only `t` runs, and it ends its reads where it may. -/
def SoloPaired (t : Tid) (s : Sys) (a : Act) : Prop :=
  a.thread = t ∧ match a with
    | .upRead u r => Returns s u r
    | _ => True

instance (t : Tid) (s : Sys) (a : Act) : Decidable (SoloPaired t s a) :=
  match a with
  | .upRead u r => inferInstanceAs (Decidable (u = t ∧ Returns s u r))
  | .downRead u | .downWrite u | .upWrite u | .giveUp u | .next u | .migrate u _ =>
    inferInstanceAs (Decidable (u = t ∧ True))

theorem reach_soloPaired {NCPU : Nat} {cpu : Tid → Nat} {t : Tid} {s : Sys}
    (h : Reach (step NCPU) (SoloPaired t) (.init cpu) s) :
    Reach (step NCPU) PairedStep (.init cpu) s := by
  refine reach_alone (fun _ _ ha => ha.1) ?_ h
  rintro s a hidle ⟨ha, hr⟩
  cases a with
  | next u =>
    intro c hc v hv
    by_cases hvt : v = t
    · rw [hvt, ← ha] at hv
      cases hc.symm.trans hv
    · rw [hidle v hvt] at hv
      cases hv
  | upRead u r => exact hr
  | _ => trivial

theorem bravo_pairing_solo : ∃ s : Sys, s.reads.length = 1 ∧ s.perCpuData 0 ≠ 0 ∧ Paired s := by
  let t : Tid := ⟨1, by decide⟩
  have hrun : (exec (step 2) (SoloPaired t) (.init fun _ => 0) (readTwice t)).map
      (fun s => (s.reads.length, s.perCpuData 0)) = some (1, 1) := by decide
  obtain ⟨s, hs, hv⟩ := Option.map_eq_some_iff.1 hrun
  simp only [Prod.mk.injEq] at hv
  exact ⟨s, hv.1, by rw [hv.2]; decide, bravo_pairing (reach_soloPaired (exec_reach hs))⟩

/-- The reader is moved from CPU 0 to CPU 1 before it releases. Its release misses its id in slot 1
and gives back a read lock that it never took. -/
theorem bravo_pairing_migrated : ∃ s : Sys,
    Reach (step 2) anyStep (.init fun _ => 0) s ∧ s.readers = -1 ∧ s.reads = [] ∧
      ¬ Paired s := by
  let t : Tid := ⟨1, by decide⟩
  let run := readTwice t ++ [.migrate t 1, .upRead t ⟨1, t, .bypass 0⟩, .next t, .next t]
  have hrun : (exec (step 2) anyStep (.init fun _ => 0) run).map
      (fun s => (s.readers, s.reads)) = some (-1, []) := by decide
  obtain ⟨s, hs, hv⟩ := Option.map_eq_some_iff.1 hrun
  simp only [Prod.mk.injEq] at hv
  obtain ⟨h1, h2⟩ := hv
  refine ⟨s, exec_reach hs, h1, h2, fun hp => ?_⟩
  have := hp.readers
  rw [h1, h2] at this
  cases this

end Bravo
end SynCord
