import SynCord.Scl.FairShare

/-!
# SynCord.Scl.Debt

What the back-off of `scl` comes to over a run on one lock. With `n` threads, the lead of a thread
is the time by which `n` times its own hold time is more than the total; the contended hook asks for
just that.

* `debt_exact` — the wait that a thread is asked for is what the others have to hold the lock for:
  while it stays away, the hook asks for what is left of it, and lets it pass when they have.
* `lead_bounded` — if the threads take the lock only when the hook lets them pass, the lead of a
  thread is never more than it was at first, or than `n - 1` times the longest section.
-/

namespace SynCord
namespace Scl

namespace Sys

variable (s : Sys)

def tot (L : Lock) : Nat := (s.store.pld L).totLockHold.toNat

def hold (t : Task) : Nat := (s.store.lockHold t).toNat

/-- How much more than its share a thread has had, times the number of threads. -/
def lead (L : Lock) (t : Task) : Nat := (s.users L).length * s.hold t - s.tot L

end Sys

/-! ## Sums along a step -/

/-- What a hook on the lock does to the sums. -/
inductive Moved (L : Lock) (s s' : Sys) : Event → Prop where
  | acquired {t now} (hold : s'.hold = s.hold) (tot : s'.tot L = s.tot L)
      (holder : s'.holder L = some (t, now)) (users : s'.users L = (s.users L).insert t) :
      Moved L s s' (.acquired L t now)
  | release {t now ts} (held : s.holder L = some (t, ts)) (user : t ∈ s.users L)
      (hold : s'.hold = Function.update s.hold t (s.hold t + (now - ts).toNat))
      (tot : s'.tot L = s.tot L + (now - ts).toNat)
      (holder : s'.holder L = none) (users : s'.users L = s.users L) :
      Moved L s s' (.release L t now)
  | contended {t} (hold : s'.hold = s.hold) (tot : s'.tot L = s.tot L)
      (holder : s'.holder L = s.holder L) (users : s'.users L = s.users L) :
      Moved L s s' (.contended L t)

section Step

variable {s s' : Sys} {L : Lock} {t : Task} {now : Word} {a : Event}

theorem Single.hold_le (h : Single L s) (t : Task) : s.hold t ≤ s.tot L :=
  h.conserved.lockHold_le t

theorem Single.release_moved (h : Single L s) (hc : s.clock ≤ now) {ts : Word} {st : Store}
    (hh : s.holder L = some (t, ts)) (hst : syncordLockToRelease s.store L t now = some st) :
    Moved L s { s with
      store := st
      holder := Function.update s.holder L none
      done := ⟨L, t, ts, now⟩ :: s.done
      clock := now } (.release L t now) := by
  obtain ⟨hu, d, hd, hts⟩ := h.holder L t ts hh
  obtain ⟨htot, hclock⟩ := h.since t ts hh
  obtain ⟨st', hst', hpld, hptd⟩ := release_spec L now hd
  rw [hst] at hst'
  cases hst'
  subst hts
  have hlen : (now - d.startTs).toNat = now.toNat - d.startTs.toNat :=
    BitVec.toNat_sub_of_le (Nat.le_trans hclock hc)
  have hle := h.hold_le t
  have hnow := now.isLt
  have hclock' : d.startTs.toNat ≤ now.toNat := Nat.le_trans hclock hc
  refine .release hh hu ?_ ?_ (by simp) rfl
  · funext u
    by_cases hut : u = t
    · subst hut
      simp only [Sys.hold, Sys.tot] at hle ⊢
      rw [lockHold_release hd hptd, if_pos rfl, Function.update_self, BitVec.toNat_add,
        Nat.mod_eq_of_lt (by omega)]
    · simp only [Sys.hold]
      rw [lockHold_release hd hptd, if_neg hut, Function.update_of_ne hut]
      rfl
  · simp only [Sys.tot]
    rw [hpld, if_pos rfl, BitVec.toNat_add, Nat.mod_eq_of_lt (by omega)]

theorem Moved.tot_le (h : Moved L s s' a) : s.tot L ≤ s'.tot L := by
  cases h with
  | acquired hold₂ tot₂ holder₂ users₂ => exact Nat.le_of_eq tot₂.symm
  | release held user hold₂ tot₂ holder₂ users₂ => exact tot₂ ▸ Nat.le_add_right _ _
  | contended hold₂ tot₂ holder₂ users₂ => exact Nat.le_of_eq tot₂.symm

theorem Single.moved (h : Single L s) (ha : OnLock L s a) (ht : Tr s a s') : Moved L s s' a := by
  cases ht with
  | acquired hh =>
    obtain ⟨rfl, hc⟩ := ha
    refine .acquired ?_ ?_ (by simp) (by simp)
    · funext u
      simp only [Sys.hold, lockHold_acquired]
    · simp only [Sys.tot, totLockHold_acquired]
  | release hh hst =>
    obtain ⟨rfl, hc⟩ := ha
    exact h.release_moved hc hh hst
  | contended =>
    cases ha
    refine .contended ?_ ?_ rfl rfl
    · funext u
      simp [Sys.hold, Store.lockHold, Store.ptd, syncordToEnterSlowpath]
    · simp only [Sys.tot, pld_contended]

/-- What the hook says, in numbers. -/
theorem Single.backOff (h : Single L s) (hu : s.users L ≠ [])
    (hfit : s.tot L * (s.users L).length < 2 ^ 64) (t : Task) :
    (s.lead L t = 0 → s.backOff L t = none) ∧
      (0 < s.lead L t → ∃ w, s.backOff L t = some w ∧ w.toNat = s.lead L t) := by
  have hb := h.conserved.backOff_eq h.conserved.numThreads rfl (List.length_pos_iff.2 hu) hfit t
  change if s.tot L < (s.users L).length * s.hold t then ∃ w, s.backOff L t = some w ∧
    w.toNat + s.tot L = (s.users L).length * s.hold t else s.backOff L t = none at hb
  rw [Sys.lead]
  split at hb
  · obtain ⟨w, hw, hsum⟩ := hb
    exact ⟨fun hl => by omega, fun _ => ⟨w, hw, by omega⟩⟩
  · exact ⟨fun _ => hb, fun hl => by omega⟩

end Step

/-! ## A thread that stays away -/

/-- Threads other than `t` use the lock, and none that is new to it. -/
def Apart (L : Lock) (t : Task) (s : Sys) : Event → Prop
  | .acquired L' u now => L' = L ∧ s.clock ≤ now ∧ u ∈ s.users L ∧ u ≠ t
  | .release L' u now => L' = L ∧ s.clock ≤ now ∧ u ≠ t
  | .contended L' _ => L' = L

theorem Apart.onLock {L : Lock} {t : Task} {s : Sys} {a : Event} (h : Apart L t s a) :
    OnLock L s a := by
  cases a with
  | acquired L' u now => exact ⟨h.1, h.2.1⟩
  | release L' u now => exact ⟨h.1, h.2.1⟩
  | contended L' u => exact h

theorem reach_single {s : Sys} {L : Lock} (h : Reach step (OnLock L) .init s) : Single L s :=
  h.invariant (single_init L) fun _ _ _ hs ha hst => single_tr hs ha (step_tr hst)

/-- While a thread stays away its own sum stays, and the total grows. -/
theorem Apart.sums {s s' : Sys} {L : Lock} {t : Task} (h : Single L s)
    (h' : Reach step (Apart L t) s s') : Single L s' ∧ s'.hold t = s.hold t ∧
      s'.users L = s.users L ∧ s.tot L ≤ s'.tot L := by
  refine h'.invariant (P := fun s' => Single L s' ∧ s'.hold t = s.hold t ∧
    s'.users L = s.users L ∧ s.tot L ≤ s'.tot L) ⟨h, rfl, rfl, Nat.le_refl _⟩ ?_
  rintro s₁ a s₂ ⟨hs, hhold, husers, htot⟩ ha hstep
  have htr := step_tr hstep
  have hm := hs.moved ha.onLock htr
  have htot₂ := Nat.le_trans htot hm.tot_le
  refine ⟨single_tr hs ha.onLock htr, ?_⟩
  cases hm with
  | acquired hold₂ tot₂ holder₂ users₂ =>
    rw [hold₂, users₂, List.insert_of_mem ha.2.2.1]
    exact ⟨hhold, husers, htot₂⟩
  | release held user hold₂ tot₂ holder₂ users₂ =>
    rw [hold₂, users₂, Function.update_of_ne ha.2.2.symm]
    exact ⟨hhold, husers, htot₂⟩
  | contended hold₂ tot₂ holder₂ users₂ =>
    rw [hold₂, users₂]
    exact ⟨hhold, husers, htot₂⟩

theorem Single.users_ne_nil {s : Sys} {L : Lock} {t : Task} {w : Word} (h : Single L s)
    (hw : s.backOff L t = some w) : s.users L ≠ [] := by
  intro hnil
  have hn : (s.store.pld L).numThreads = 0 := by simp [h.numThreads, hnil]
  rw [Sys.backOff, contended_eq, customLockContended, if_pos hn] at hw
  cases hw

/-- A thread is asked to wait for its lead. -/
theorem Single.wait_eq {s : Sys} {L : Lock} {t : Task} {w : Word} (h : Single L s)
    (hfit : s.tot L * (s.users L).length < 2 ^ 64) (hw : s.backOff L t = some w) :
    0 < s.lead L t ∧ w.toNat = s.lead L t := by
  obtain ⟨hnone, hsome⟩ := h.backOff (h.users_ne_nil hw) hfit t
  rcases Nat.eq_zero_or_pos (s.lead L t) with hl | hl
  · rw [hnone hl] at hw
    cases hw
  · obtain ⟨w', hw', hlead⟩ := hsome hl
    rw [hw] at hw'
    cases hw'
    exact ⟨hl, hlead⟩

/-- A thread that is asked to wait for `w` and stays away is asked for the rest as long as the
others have held the lock for less than `w`, and for nothing from then on. -/
theorem debt_exact {s s' : Sys} {L : Lock} {t : Task} {w : Word}
    (h : Reach step (OnLock L) .init s) (hw : s.backOff L t = some w)
    (h' : Reach step (Apart L t) s s')
    (hfit : s'.tot L * (s'.users L).length < 2 ^ 64) :
    (s'.tot L < s.tot L + w.toNat →
      ∃ w', s'.backOff L t = some w' ∧ s'.tot L + w'.toNat = s.tot L + w.toNat) ∧
      (s.tot L + w.toNat ≤ s'.tot L → s'.backOff L t = none) := by
  have hs := reach_single h
  obtain ⟨hs', hhold, husers, htot⟩ := Apart.sums hs h'
  have hfit₀ : s.tot L * (s.users L).length < 2 ^ 64 := by
    rw [husers] at hfit
    exact Nat.lt_of_le_of_lt (Nat.mul_le_mul_right _ htot) hfit
  obtain ⟨hpos, hlead⟩ := hs.wait_eq hfit₀ hw
  have hlead' : s'.lead L t = s.tot L + w.toNat - s'.tot L := by
    rw [Sys.lead] at hpos hlead
    rw [Sys.lead, hhold, husers]
    omega
  have hne : s'.users L ≠ [] := husers ▸ hs.users_ne_nil hw
  constructor
  · intro hlt
    obtain ⟨w', hw', heq⟩ := (hs'.backOff hne hfit t).2 (by omega)
    exact ⟨w', hw', by omega⟩
  · intro hle
    exact (hs'.backOff hne hfit t).1 (by omega)

/-- One of two threads has held the lock for 3, the other one for 1 and then for another 2. -/
theorem debt_exact_two_threads : ∃ s s' : Sys, Reach step (OnLock lockA) .init s ∧
    s'.backOff lockA taskA = none ∧ s'.tot lockA = s.tot lockA + 2 ∧
      s.backOff lockA taskA = some 2 := by
  have hrun : Reach step (OnLock lockA) .init _ :=
    (((Reach.start.next (a := .acquired lockA taskA 5) ⟨rfl, by decide⟩ rfl).next
      (a := .release lockA taskA 8) ⟨rfl, by decide⟩ rfl).next
      (a := .acquired lockA taskB 9) ⟨rfl, by decide⟩ rfl).next
      (a := .release lockA taskB 10) ⟨rfl, by decide⟩ rfl
  have hwait := debt_exact (t := taskA) (w := 2) hrun (by decide)
    ((Reach.start.next (a := .acquired lockA taskB 11) ⟨rfl, by decide, by decide, by decide⟩
      rfl).next (a := .release lockA taskB 13) ⟨rfl, by decide, by decide⟩ rfl) (by decide)
  exact ⟨_, _, hrun, hwait.2 (by decide), by decide, by decide⟩

/-! ## Threads that obey -/

/-- A thread takes the lock if the hook lets it pass, and for at most `C`. -/
def Obeys (L : Lock) (C : Nat) (s : Sys) : Event → Prop
  | .acquired L' u now => L' = L ∧ s.clock ≤ now ∧ u ∈ s.users L ∧ s.backOff L u = none
  | .release L' u now => L' = L ∧ s.clock ≤ now ∧
      ∀ ts, s.holder L = some (u, ts) → (now - ts).toNat ≤ C
  | .contended L' _ => L' = L

theorem Obeys.onLock {L : Lock} {C : Nat} {s : Sys} {a : Event} (h : Obeys L C s a) :
    OnLock L s a := by
  cases a with
  | acquired L' u now => exact ⟨h.1, h.2.1⟩
  | release L' u now => exact ⟨h.1, h.2.1⟩
  | contended L' u => exact h

/-- Nobody is further ahead than `bound` says, and the holder is not ahead at all. -/
structure Even (L : Lock) (bound : Task → Nat) (s : Sys) : Prop where
  lead : ∀ t, s.lead L t ≤ bound t
  holder : ∀ t ts, s.holder L = some (t, ts) → s.lead L t = 0

theorem Even.release {s s' : Sys} {L : Lock} {bound : Task → Nat} {C : Nat} {t : Task}
    {now : Word} (h : Even L bound s) (hC : ∀ u, ((s.users L).length - 1) * C ≤ bound u)
    (ha : Obeys L C s (.release L t now)) (hm : Moved L s s' (.release L t now)) :
    Even L bound s' := by
  cases hm with
  | @release _ _ ts held user hold₂ tot₂ holder₂ users₂ =>
    refine ⟨fun u => ?_, fun u ts hu => by rw [holder₂] at hu; cases hu⟩
    rw [Sys.lead, hold₂, tot₂, users₂]
    by_cases hut : u = t
    · subst hut
      -- without a lead before, what a section gives is its length times `n - 1`
      obtain ⟨m, hm⟩ : ∃ m, (s.users L).length = m + 1 :=
        ⟨_, (Nat.succ_pred_eq_of_pos (List.length_pos_of_mem user)).symm⟩
      have hzero := h.holder u ts held
      have hlen : m * (now - ts).toNat ≤ m * C := Nat.mul_le_mul_left m (ha.2.2 ts held)
      have hb := hC u
      rw [Sys.lead, hm] at hzero
      rw [hm, Nat.add_sub_cancel] at hb
      rw [Function.update_self, hm, Nat.mul_add, Nat.add_mul m 1 (now - ts).toNat]
      omega
    · rw [Function.update_of_ne hut]
      exact Nat.le_trans (Nat.sub_le_sub_left (Nat.le_add_right _ _) _) (h.lead u)

theorem Even.step {s s' : Sys} {L : Lock} {bound : Task → Nat} {C : Nat} {a : Event}
    (h : Even L bound s) (hs : Single L s) (hfit : s.tot L * (s.users L).length < 2 ^ 64)
    (hC : ∀ u, ((s.users L).length - 1) * C ≤ bound u) (ha : Obeys L C s a)
    (hm : Moved L s s' a) : Even L bound s' := by
  cases hm with
  | @acquired t now hold₂ tot₂ holder₂ users₂ =>
    obtain ⟨-, -, hu, hnone⟩ := ha
    have hlead : ∀ u, s'.lead L u = s.lead L u := fun u => by
      rw [Sys.lead, Sys.lead, hold₂, tot₂, users₂, List.insert_of_mem hu]
    refine ⟨fun u => by rw [hlead]; exact h.lead u, fun u ts hh => ?_⟩
    rw [holder₂] at hh
    cases hh
    rw [hlead]
    by_contra hl
    obtain ⟨w, hw, -⟩ := (hs.backOff (List.ne_nil_of_mem hu) hfit t).2 (by omega)
    rw [hnone] at hw
    cases hw
  | release held user hold₂ tot₂ holder₂ users₂ =>
    exact h.release hC ha (.release held user hold₂ tot₂ holder₂ users₂)
  | contended hold₂ tot₂ holder₂ users₂ =>
    have hlead : ∀ u, s'.lead L u = s.lead L u := fun u => by
      rw [Sys.lead, Sys.lead, hold₂, tot₂, users₂]
    refine ⟨fun u => by rw [hlead]; exact h.lead u, fun u ts hh => ?_⟩
    rw [hlead]
    exact h.holder u ts (holder₂ ▸ hh)

theorem Obeys.users_eq {s s' : Sys} {L : Lock} {C : Nat} {a : Event} (ha : Obeys L C s a)
    (hm : Moved L s s' a) : s'.users L = s.users L := by
  cases hm with
  | acquired hold₂ tot₂ holder₂ users₂ => rw [users₂, List.insert_of_mem ha.2.2.1]
  | release held user hold₂ tot₂ holder₂ users₂ => exact users₂
  | contended hold₂ tot₂ holder₂ users₂ => exact users₂

theorem lead_bounded {s₀ s : Sys} {L : Lock} {C : Nat} (h₀ : Reach step (OnLock L) .init s₀)
    (hfree : s₀.holder L = none) (h : Reach step (Obeys L C) s₀ s)
    (hfit : s.tot L * (s.users L).length < 2 ^ 64) (t : Task) :
    s.lead L t ≤ max (s₀.lead L t) (((s.users L).length - 1) * C) := by
  let bound (n : Nat) (u : Task) := max (s₀.lead L u) ((n - 1) * C)
  have hinv : Single L s ∧ (s.tot L * (s.users L).length < 2 ^ 64 →
      Even L (bound (s.users L).length) s) := by
    refine h.invariant (P := fun s => Single L s ∧ (s.tot L * (s.users L).length < 2 ^ 64 →
      Even L (bound (s.users L).length) s)) ⟨reach_single h₀, fun _ => ⟨?_, ?_⟩⟩ ?_
    · exact fun u => Nat.le_max_left _ _
    · intro u ts hu
      rw [hfree] at hu
      cases hu
    · rintro s₁ a s₂ ⟨hs, he⟩ ha hstep
      have htr := step_tr hstep
      have hm := hs.moved ha.onLock htr
      refine ⟨single_tr hs ha.onLock htr, fun hfit₂ => ?_⟩
      rw [ha.users_eq hm] at hfit₂ ⊢
      -- the total grows, so the product has been in range before
      have hfit₁ : s₁.tot L * (s₁.users L).length < 2 ^ 64 :=
        Nat.lt_of_le_of_lt (Nat.mul_le_mul_right _ hm.tot_le) hfit₂
      exact (he hfit₁).step hs hfit₁ (fun u => Nat.le_max_right _ _) ha hm
  exact (hinv.2 hfit).lead t

/-- Two threads that have held the lock for 1 each; one of them holds it for another 3. -/
theorem lead_bounded_two_threads : ∃ s : Sys,
    s.lead lockA taskA ≤ max 0 ((2 - 1) * 3) ∧ s.lead lockA taskA = 3 := by
  have hrun : Reach step (OnLock lockA) .init _ :=
    (((Reach.start.next (a := .acquired lockA taskA 5) ⟨rfl, by decide⟩ rfl).next
      (a := .release lockA taskA 6) ⟨rfl, by decide⟩ rfl).next
      (a := .acquired lockA taskB 7) ⟨rfl, by decide⟩ rfl).next
      (a := .release lockA taskB 8) ⟨rfl, by decide⟩ rfl
  have hlead := lead_bounded (C := 3) hrun (by decide)
    ((Reach.start.next (a := .acquired lockA taskA 9) ⟨rfl, by decide, by decide, by decide⟩
      rfl).next (a := .release lockA taskA 12)
        ⟨rfl, by decide, fun ts h => by cases h; decide⟩ rfl) (by decide) taskA
  exact ⟨_, hlead, by decide⟩

end Scl
end SynCord
