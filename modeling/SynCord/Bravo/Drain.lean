import SynCord.Bravo.Exclusion
import SynCord.Trace
import Mathlib.Data.Fintype.EquivFin

/-!
# SynCord.Bravo.Drain

Whoever is in a lock function gets out of it. Once no new call is made, what is left to do goes down
with every step that is not the spinning of a writer (`work_lt`), and as long as something is left
some thread can take such a step (`Safe.drained`). So the semaphore is free again after a number of
steps that does not depend on the schedule (`bravo_drains`).

A thread that has a read open must not call `down_read` or `down_write` (`Orderly`): the writer that
waits for its slot holds the underlying lock, which the second call would wait for.
-/

namespace SynCord
namespace Bravo

/-- No thread begins a read or a write while it has a read open. -/
def NotNested (s : Sys) : Act → Prop
  | .downRead t | .downWrite t => ∀ r ∈ s.held, r.owner ≠ t
  | .upRead _ _ | .upWrite _ | .giveUp _ | .next _ | .migrate _ _ => True

def Orderly (NCPU : Nat) (s : Sys) (a : Act) : Prop := Pinned NCPU s a ∧ NotNested s a

/-- A writer in front of a slot that is taken. -/
def Spins (NCPU : Nat) (s : Sys) (t : Tid) : Prop :=
  ∃ i, s.pc t = .wrScan i ∧ i < NCPU ∧ s.perCpuData i ≠ 0

/-- The steps that end the calls that have been made: no new calls, and no spinning. -/
def Finishing (NCPU : Nat) (s : Sys) : Act → Prop
  | .upRead t r => Orderly NCPU s (.upRead t r)
  | .upWrite t => Orderly NCPU s (.upWrite t)
  | .next t => Orderly NCPU s (.next t) ∧ ¬ Spins NCPU s t
  | .downRead _ | .downWrite _ | .giveUp _ | .migrate _ _ => False

/-- Nobody is in a lock function and nobody has the lock. -/
structure Drained (s : Sys) : Prop where
  idle : ∀ t, s.pc t = .idle
  held : s.held = []
  reads : s.reads = []
  readers : s.readers = 0
  writer : s.writer = none
  slots : ∀ c, s.perCpuData c = 0

/-! ## The invariant -/

structure Calm (s : Sys) : Prop where
  /-- one bypass program at a time on a CPU -/
  alone : ∀ t u, (s.pc t).inBypass = true → (s.pc u).inBypass = true → s.cpu t = s.cpu u → t = u
  idle : ∀ r ∈ s.held, s.pc r.owner = .idle
  owners : (s.held.map Read.owner).Nodup

theorem calm_init (cpu : Tid → Nat) : Calm (.init cpu) := by
  constructor <;> simp [Sys.init, Pc.inBypass]

section Step

variable {NCPU : Nat} {s s' : Sys} {a : Act} {t : Tid}

theorem Pinned.unpreempted (hp : Pinned NCPU s a) (ha : ∀ c, a ≠ .migrate a.thread c) :
    Unpreempted s a.thread := by
  cases a with
  | migrate t c => exact absurd rfl (ha c)
  | upRead t r => exact hp.2
  | _ => exact hp

theorem calm_alone (hc : Calm s) (hp : Pinned NCPU s a) (h : Tr NCPU s a s') :
    ∀ t u, (s'.pc t).inBypass = true → (s'.pc u).inBypass = true → s'.cpu t = s'.cpu u →
      t = u := by
  rcases tr_cpu h with hcpu | ⟨c, hm⟩
  · -- the thread that steps may run only if nobody else is in a bypass program on its CPU
    have hother : ∀ u, u ≠ a.thread → (s'.pc a.thread).inBypass = true →
        (s'.pc u).inBypass = true → s'.cpu a.thread ≠ s'.cpu u := by
      intro u hu ht hb he
      rw [pc_frame h hu] at hb
      rw [hcpu] at he
      by_cases hm : ∀ c, a ≠ .migrate a.thread c
      · rw [hp.unpreempted hm u hu he.symm] at hb
        cases hb
      · push Not at hm
        obtain ⟨c, hm⟩ := hm
        rw [hm] at h
        cases h
        exact hu (hc.alone u a.thread hb ht he.symm)
    intro t u ht hu he
    by_cases htu : t = u
    · exact htu
    · by_cases ha : t = a.thread
      · subst ha
        exact absurd he (hother u (Ne.symm htu) ht hu)
      · by_cases hb : u = a.thread
        · subst hb
          exact absurd he.symm (hother t ha hu ht)
        · rw [pc_frame h ha] at ht
          rw [pc_frame h hb] at hu
          rw [hcpu] at he
          exact hc.alone t u ht hu he
  · rw [hm] at h hp
    have hout : (s.pc a.thread).inBypass = false := by
      have hin := hp.2.1
      cases hpc : s.pc a.thread <;> rw [hpc] at hin <;> first | rfl | cases hin
    cases h
    intro t u ht hu he
    have hta : t ≠ a.thread := by rintro rfl; rw [hout] at ht; cases ht
    have hua : u ≠ a.thread := by rintro rfl; rw [hout] at hu; cases hu
    simp only [Function.update_of_ne hta, Function.update_of_ne hua] at he
    exact hc.alone t u ht hu he

/-- How the open reads change. -/
theorem tr_held (h : Tr NCPU s a s') :
    (s'.held = s.held ∧ (s.pc a.thread = .idle → NotNested s a → s'.pc a.thread = .idle ∨
      ∀ r ∈ s.held, r.owner ≠ a.thread)) ∨
    (∃ r ∈ s.held, a = .upRead a.thread r ∧ s'.held = s.held.erase r) ∨
    ∃ r, s'.held = r :: s.held ∧ s.pc a.thread ≠ .idle ∧ s'.pc a.thread = .idle ∧
      (busy s a.thread = some r ∨ r.owner = a.thread) := by
  cases h with
  | downFast hp _ | downSlow hp _ | downWrite hp => exact .inl ⟨rfl, fun _ hn => .inr hn⟩
  | upFast hp hr _ | upSlow hp hr _ => exact .inr (.inl ⟨_, hr, rfl, rfl⟩)
  | migrate => exact .inl ⟨rfl, fun hp _ => .inl hp⟩
  | recheckPass hp _ => exact .inr (.inr ⟨_, rfl, by simp [Act.thread, hp], by simp [Act.thread],
      .inr rfl⟩)
  | acqedSet hp _ | acqedStore hp =>
    exact .inr (.inr ⟨_, rfl, by simp [Act.thread, hp], by simp [Act.thread],
      .inl (by simp [busy, Act.thread, hp, Pc.read?])⟩)
  | giveUp hp =>
    refine .inl ⟨rfl, fun hi _ => ?_⟩
    rcases hp with hp | hp <;> simp [Act.thread, hp] at hi
  | _ => exact .inl ⟨rfl, fun hi _ => by simp_all [Act.thread]⟩

theorem calm_tr (hs : Safe NCPU s) (hc : Calm s) (ho : Orderly NCPU s a) (h : Tr NCPU s a s') :
    Calm s' := by
  obtain ⟨hp, hn⟩ := ho
  refine ⟨calm_alone hc hp h, ?_, ?_⟩
  · intro r hr
    rcases tr_held h with ⟨he, hi⟩ | ⟨q, hq, ha, he⟩ | ⟨q, he, hne, hi, hq⟩
    · rw [he] at hr
      by_cases hown : r.owner = a.thread
      · rw [hown]
        rcases hi (hown ▸ hc.idle r hr) hn with hi | hi
        · exact hi
        · exact absurd hown (hi r hr)
      · rw [pc_frame h hown]
        exact hc.idle r hr
    · have hqa : q.owner = a.thread := by
        rw [ha] at hp
        exact hp.1
      rw [he] at hr
      have hown : r.owner ≠ a.thread := by
        -- the read that is given back was the only one of its thread
        intro hra
        have hne : r ≠ q := fun e =>
          hs.booked.ledger.held_nodup.not_mem_erase (e ▸ hr)
        exact hne (List.inj_on_of_nodup_map hc.owners (List.mem_of_mem_erase hr) hq
          (hra.trans hqa.symm))
      rw [pc_frame h hown]
      exact hc.idle r (List.mem_of_mem_erase hr)
    · rw [he] at hr
      have hqa : q.owner = a.thread := hq.elim (hs.owner a.thread q) id
      rcases List.mem_cons.1 hr with rfl | hr
      · rw [hqa]
        exact hi
      · have hown : r.owner ≠ a.thread := fun e => hne (e ▸ hc.idle r hr)
        rw [pc_frame h hown]
        exact hc.idle r hr
  · rcases tr_held h with ⟨he, -⟩ | ⟨q, hq, -, he⟩ | ⟨q, he, hne, -, hq⟩
    · rw [he]
      exact hc.owners
    · rw [he]
      exact hc.owners.sublist (List.erase_sublist.map _)
    · rw [he, List.map_cons, List.nodup_cons]
      refine ⟨fun hm => ?_, hc.owners⟩
      obtain ⟨r, hr, hown⟩ := List.mem_map.1 hm
      have hqa : q.owner = a.thread := hq.elim (hs.owner a.thread q) id
      exact hne (hqa ▸ hown ▸ hc.idle r hr)

end Step

/-! ## The work that is left -/

instance : Finite Tid := by
  refine Finite.of_injective (fun t : Tid => (⟨t.pid.toNat, t.pid.isLt⟩ : Fin (2 ^ 32))) ?_
  intro t u h
  have hpid : t.pid = u.pid := BitVec.eq_of_toNat_eq (Fin.mk.inj h)
  cases t
  cases u
  cases hpid
  rfl

noncomputable instance : Fintype Tid := Fintype.ofFinite Tid

/-- The steps that a thread has still to take, in the worst case. A read that is handed out counts
four. -/
def Pc.work (NCPU : Nat) : Pc → Nat
  | .idle => 0
  | .acqBias _ => 12
  | .acqSlot _ => 11
  | .acqStore _ => 10
  | .acqRecheck _ => 9
  | .acqUndo _ => 8
  | .downSlow => 7
  | .acqedLoad _ => 6
  | .acqedStore _ => 5
  | .relSlot _ _ => 3
  | .relStore _ _ => 2
  | .upSlow _ => 2
  | .writeLock => NCPU + 5
  | .wrTest => NCPU + 4
  | .wrClear => NCPU + 3
  | .wrScan i => NCPU - i + 2
  | .writing => 1

noncomputable def Sys.work (NCPU : Nat) (s : Sys) : Nat :=
  ∑ t, (s.pc t).work NCPU + 4 * s.held.length

section Work

variable {NCPU : Nat} {s s' : Sys} {a : Act} {t : Tid}

/-- Only the thread that steps, and the open reads, count. -/
theorem work_frame (h : Tr NCPU s a s') :
    s'.work NCPU + (s.pc a.thread).work NCPU + 4 * s.held.length =
      s.work NCPU + (s'.pc a.thread).work NCPU + 4 * s'.held.length := by
  have hsum := sum_frame (Finset.mem_univ a.thread) (f := fun t => (s.pc t).work NCPU)
    (g := fun t => (s'.pc t).work NCPU) fun u hu => by rw [pc_frame h hu]
  simp only [Sys.work]
  omega

theorem work_lt (ha : Finishing NCPU s a) (h : Tr NCPU s a s') : s'.work NCPU < s.work NCPU := by
  have hw := work_frame h
  cases h with
  | downFast | downSlow | downWrite | giveUp | migrate => exact ha.elim
  | upFast hp hr _ | upSlow hp hr _ =>
    have hlen := List.length_erase_of_mem hr
    have hpos := List.length_pos_of_mem hr
    simp [Act.thread, hp, Pc.work, hlen] at hw ⊢
    omega
  | scanBusy hp hi hb => exact absurd ⟨_, hp, hi, hb⟩ ha.2
  | recheckPass hp _ | acqedSet hp _ | acqedStore hp =>
    simp [Act.thread, hp, Pc.work] at hw ⊢
    omega
  | upWrite hp | biasSet hp _ | biasClear hp _ | slotFree hp _ | slotBusy hp _ | slotStore hp
  | recheckFail hp _ | slotUndo hp | readLock hp _ | acqedZero hp _ | relHit hp _ | relMiss hp _
  | relStore hp | readUnlock hp | writeLock hp _ _ | testSet hp _ | testClear hp _ | biasStore hp
  | scanFree hp _ _ | scanDone hp _ =>
    simp [Act.thread, hp, Pc.work] at hw ⊢
    omega

/-- A thread that has nothing to do but spin or wait. -/
theorem stuck_cases (h : ¬ Spins NCPU s t → next NCPU s t = none) :
    s.pc t = .idle ∨ s.pc t = .writing ∨ (s.pc t = .downSlow ∧ s.writer ≠ none) ∨
      (s.pc t = .writeLock ∧ ¬ (s.writer = none ∧ s.readers = 0)) ∨
      ∃ i, s.pc t = .wrScan i ∧ s.perCpuData i ≠ 0 := by
  by_cases hs : Spins NCPU s t
  · obtain ⟨i, hp, -, hb⟩ := hs
    exact .inr (.inr (.inr (.inr ⟨i, hp, hb⟩)))
  · have hn := h hs
    unfold next at hn
    cases hp : s.pc t with
    | acqRecheck | wrScan =>
      rw [hp] at hn
      dsimp only at hn
      split at hn <;> cases hn
    | _ =>
      rw [hp] at hn
      simp_all

/-! ## No step is left that ends a call -/

section Stuck

variable (hs : Safe NCPU s) (hc : Calm s)
  (hstuck : ∀ a, Finishing NCPU s a → Bravo.step NCPU s a = none)

include hc hstuck in
theorem stuck_inBypass (t : Tid) : (s.pc t).inBypass = false := by
  by_contra hin
  rw [Bool.not_eq_false] at hin
  have hun : Unpreempted s t := by
    intro u hu he
    by_contra hb
    exact hu (hc.alone u t (by simpa using hb) hin he)
  have hspin : ¬ Spins NCPU s t := by
    rintro ⟨i, hp, -⟩
    rw [hp] at hin
    cases hin
  have hnone := stuck_cases fun _ => hstuck (.next t) ⟨⟨hun, trivial⟩, hspin⟩
  rcases hnone with hp | hp | ⟨hp, -⟩ | ⟨hp, -⟩ | ⟨i, hp, -⟩ <;> rw [hp] at hin <;> cases hin

include hc hstuck in
theorem stuck_held : s.held = [] := by
  refine List.eq_nil_iff_forall_not_mem.2 fun r hr => ?_
  have hun : Unpreempted s r.owner := fun u _ _ => stuck_inBypass hc hstuck u
  have hnone := hstuck (.upRead r.owner r) ⟨⟨rfl, hun⟩, trivial⟩
  rw [Bravo.step, if_pos ⟨hc.idle r hr, hr⟩] at hnone
  cases hnone

include hc hstuck in
/-- What a thread can be waiting for. -/
theorem stuck_pc (t : Tid) : s.pc t = .idle ∨ (s.pc t = .downSlow ∧ s.writer ≠ none) ∨
    (s.pc t = .writeLock ∧ ¬ (s.writer = none ∧ s.readers = 0)) ∨
    ∃ i, s.pc t = .wrScan i ∧ s.perCpuData i ≠ 0 := by
  have hun : Unpreempted s t := fun u _ _ => stuck_inBypass hc hstuck u
  rcases stuck_cases fun hsp => hstuck (.next t) ⟨⟨hun, trivial⟩, hsp⟩ with hp | hp | hp
  · exact .inl hp
  · have hnone := hstuck (.upWrite t) ⟨hun, trivial⟩
    rw [Bravo.step, if_pos hp] at hnone
    cases hnone
  · exact .inr hp

include hc hstuck in
theorem stuck_busy (t : Tid) : busy s t = none := by
  rcases stuck_pc hc hstuck t with hp | ⟨hp, -⟩ | ⟨hp, -⟩ | ⟨i, hp, -⟩ <;> rw [busy, hp] <;> rfl

include hs hc hstuck in
theorem stuck_reads : s.reads = [] := by
  refine List.eq_nil_iff_forall_not_mem.2 fun r hr => ?_
  rcases hs.booked.ledger.cover r hr with h | ⟨t, ht⟩
  · rw [stuck_held hc hstuck] at h
    cases h
  · rw [stuck_busy hc hstuck t] at ht
    cases ht

include hs hc hstuck in
/-- A slot that is taken would be that of a read. -/
theorem stuck_slots (c : Nat) : s.perCpuData c = 0 := by
  rcases hs.disciplined.word c with h | ⟨u, hu⟩
  · exact h
  · have hb : Bypassing s u := by
      refine ⟨by rw [hs.pinned u c hu]; exact hu, ?_⟩
      have hin := stuck_inBypass hc hstuck u
      cases hp : s.pc u <;> rw [hp] at hin <;> first | rfl | cases hin
    rcases hs.booked_of_bypassing hb with ⟨r, hr, -⟩ | ⟨r, hr⟩
    · rw [stuck_held hc hstuck] at hr
      cases hr
    · rw [stuck_busy hc hstuck u] at hr
      cases hr

include hs hc hstuck in
theorem stuck_readers : s.readers = 0 := by
  obtain ⟨slow, ht⟩ := hs.tally
  have hempty : slow = 0 := by
    refine Multiset.eq_zero_of_forall_notMem fun t htm => ?_
    have hcount := ht.reads t
    have hpos := Multiset.count_pos.2 htm
    rw [stuck_reads hs hc hstuck, List.countP_nil] at hcount
    omega
  rw [ht.readers, hempty]
  rfl

include hs hc hstuck in
/-- A writer that has the lock would be in front of a slot. -/
theorem stuck_writer : s.writer = none := by
  cases hw : s.writer with
  | none => rfl
  | some w =>
    have hh := (hs.manned.writer w).1 hw
    rcases stuck_pc hc hstuck w with hp | ⟨hp, -⟩ | ⟨hp, -⟩ | ⟨i, hp, hb⟩
    · rw [hp] at hh; cases hh
    · rw [hp] at hh; cases hh
    · rw [hp] at hh; cases hh
    · exact absurd (stuck_slots hs hc hstuck i) hb

include hs hc hstuck in
/-- If no step is left that ends a call, no call is left. -/
theorem Safe.drained : Drained s := by
  have hwriter := stuck_writer hs hc hstuck
  have hreaders := stuck_readers hs hc hstuck
  have hslots := stuck_slots hs hc hstuck
  refine ⟨fun t => ?_, stuck_held hc hstuck, stuck_reads hs hc hstuck, hreaders, hwriter, hslots⟩
  rcases stuck_pc hc hstuck t with hp | ⟨-, hw⟩ | ⟨-, hw⟩ | ⟨i, -, hb⟩
  · exact hp
  · exact absurd hwriter hw
  · exact absurd ⟨hwriter, hreaders⟩ hw
  · exact absurd (hslots i) hb

end Stuck

theorem Finishing.orderly (h : Finishing NCPU s a) : Orderly NCPU s a := by
  cases a with
  | upRead | upWrite => exact h
  | next => exact h.1
  | downRead | downWrite | giveUp | migrate => exact h.elim

end Work

/-- From every state that the semaphore gets to: all runs that only end the calls that have been
made are bounded, whatever their schedule, and where such a run cannot go on the semaphore is
free. -/
theorem bravo_drains {NCPU : Nat} {cpu : Tid → Nat} (hcpu : ∀ t, cpu t < NCPU) {s : Sys}
    (h : Reach (step NCPU) (Orderly NCPU) (.init cpu) s) :
    Drains (step NCPU) (Finishing NCPU) Drained s := by
  have hstep : ∀ s a s', Safe NCPU s ∧ Calm s → Orderly NCPU s a → step NCPU s a = some s' →
      Safe NCPU s' ∧ Calm s' := by
    rintro s a s' ⟨hs, hc⟩ ho hst
    exact ⟨hs.step ho.1 hst, calm_tr hs hc ho (step_tr hs.zeroed hst)⟩
  have hinv := h.invariant (P := fun s => Safe NCPU s ∧ Calm s)
    ⟨safe_init hcpu, calm_init cpu⟩ hstep
  refine drains (I := fun s => Safe NCPU s ∧ Calm s) (Sys.work NCPU) hinv ?_ ?_
  · intro s a s' hi ha hst
    exact ⟨hstep s a s' hi ha.orderly hst, work_lt ha (step_tr hi.1.zeroed hst)⟩
  · rintro s ⟨hs, hc⟩ hstuck
    exact hs.drained hc hstuck

instance (s : Sys) : (a : Act) → Decidable (NotNested s a)
  | .downRead t | .downWrite t => inferInstanceAs (Decidable (∀ r ∈ s.held, r.owner ≠ t))
  | .upRead _ _ | .upWrite _ | .giveUp _ | .next _ | .migrate _ _ =>
    inferInstanceAs (Decidable True)

/-- A reader has gone past the lock, and a writer spins on its slot. -/
theorem bravo_drains_overlap : ∃ s : Sys, s.held = [⟨1, threadR, .bypass 0⟩] ∧
    s.pc threadW = .wrScan 0 ∧ Drains (step 2) (Finishing 2) Drained s := by
  have hrun : (exec (step 2) (fun s a => Among [threadR, threadW] s a ∧ NotNested s a)
      (.init ownCpu) overlap).map (fun s => (s.held, s.pc threadW)) =
      some ([⟨1, threadR, .bypass 0⟩], .wrScan 0) := by decide
  obtain ⟨s, hs, hv⟩ := Option.map_eq_some_iff.1 hrun
  simp only [Prod.mk.injEq] at hv
  have hreach : Reach (step 2) (Orderly 2) (.init ownCpu) s :=
    (exec_reach hs).strengthen apart_init (fun _ _ _ h ha hst => h.step ha.1 hst)
      fun _ _ h ha => ⟨h.pinned ownCpu_inj ha.1, ha.2⟩
  exact ⟨s, hv.1, hv.2, bravo_drains ownCpu_lt hreach⟩

end Bravo
end SynCord
