import SynCord.Scl.Account
import Mathlib.Algebra.BigOperators.Ring.List
import Mathlib.Algebra.Order.BigOperators.Group.List
import Mathlib.Algebra.Order.Field.Basic
import Mathlib.Data.Rat.Cast.Order

/-!
# SynCord.Scl.FairShare

One lock with a clock that does not run backwards. Sections on one lock do not overlap, so the sum
of their lengths never passes the time of the clock: no 64-bit sum wraps around, and the total is
the exact sum of what the threads have held (`Conserved`). From that the back-off is a fair share:
it hits those above the average, for a bounded time, and never all of them (`scl_fair_share`).
-/

namespace SynCord
namespace Scl

/-- All hooks run on `L`, and time does not go back. -/
def OnLock (L : Lock) (s : Sys) : Event → Prop
  | .acquired L' _ now | .release L' _ now => L' = L ∧ s.clock ≤ now
  | .contended L' _ => L' = L

/-- What the contended hook on `L` asks for when `t` runs it. -/
def Sys.backOff (s : Sys) (L : Lock) (t : Task) : Option Word :=
  (syncordToEnterSlowpath s.store L t).2.backOff

/-- The records of the lock and of the threads agree, in exact arithmetic. -/
structure Conserved (s : Sys) (L : Lock) : Prop where
  distinct : (s.users L).Nodup
  recorded : ∀ t, t ∈ s.users L ↔ s.store.ptd t ≠ none
  numThreads : (s.store.pld L).numThreads.toNat = (s.users L).length
  total : (s.store.pld L).totLockHold.toNat =
    ((s.users L).map fun t => (s.store.lockHold t).toNat).sum

/-- The back-off is fair: `n` threads, `tot` the total they have held the lock. -/
structure FairShare (s : Sys) (L : Lock) (n tot : Nat) : Prop where
  /-- a thread backs off exactly when it has held the lock for more than the average -/
  backsOff : ∀ t, (s.backOff L t).isSome ↔ (tot / n : ℚ) < (s.store.lockHold t).toNat
  /-- for `n * lock_hold - tot`, which is at most `(n - 1) * tot` -/
  wait : ∀ t w, s.backOff L t = some w →
    w.toNat + tot = n * (s.store.lockHold t).toNat ∧ w.toNat ≤ (n - 1) * tot
  /-- a thread that has never acquired the lock does not back off -/
  newcomer : ∀ t, t ∉ s.users L → s.backOff L t = none
  /-- and neither does some thread that has -/
  someone : ∃ t ∈ s.users L, s.backOff L t = none

/-! ## Sums -/

section Sums

variable {α : Type} {us : List α} {f g : α → Nat} {t : α}

theorem sum_map_congr (h : ∀ u ∈ us, g u = f u) : (us.map g).sum = (us.map f).sum :=
  congrArg List.sum (List.map_congr_left h)

/-- One term grows, the others stay. -/
theorem sum_map_add [DecidableEq α] {d : Nat} (hn : us.Nodup) (ht : t ∈ us) (hgt : g t = f t + d)
    (hg : ∀ u, u ≠ t → g u = f u) : (us.map g).sum = (us.map f).sum + d := by
  have hp := List.perm_cons_erase ht
  have hrest : ((us.erase t).map g).sum = ((us.erase t).map f).sum := by
    refine sum_map_congr fun u hu => hg u ?_
    rintro rfl
    exact hn.not_mem_erase hu
  rw [(hp.map g).sum_eq, (hp.map f).sum_eq, List.map_cons, List.map_cons, List.sum_cons,
    List.sum_cons, hrest, hgt]
  omega

theorem le_sum_map (ht : t ∈ us) : f t ≤ (us.map f).sum :=
  List.le_sum_of_mem (List.mem_map_of_mem ht)

/-- Not all terms are above the average. -/
theorem exists_le_average (h : us ≠ []) : ∃ t ∈ us, us.length * f t ≤ (us.map f).sum := by
  refine List.exists_le_of_sum_le h (fun t => us.length * f t) (fun _ => (us.map f).sum) ?_
  rw [List.sum_map_mul_left, List.map_const', List.sum_replicate, nsmul_eq_mul, Nat.cast_id]

end Sums

/-! ## The invariant -/

structure Single (L : Lock) (s : Sys) : Prop extends Kept s where
  alone : ∀ L', L' ≠ L → s.users L' = []
  sum : (s.store.pld L).totLockHold.toNat =
    ((s.users L).map fun t => (s.store.lockHold t).toNat).sum
  bound : (s.store.pld L).totLockHold.toNat ≤ s.clock.toNat
  /-- a section that is going on began after all that the total has in it -/
  since : ∀ t ts, s.holder L = some (t, ts) →
    (s.store.pld L).totLockHold.toNat ≤ ts.toNat ∧ ts.toNat ≤ s.clock.toNat

theorem single_init (L : Lock) : Single L .init where
  toKept := kept_init
  alone := fun _ _ => rfl
  sum := by simp [Sys.init, Store.pld, PerLockData.zero]
  bound := by simp [Sys.init, Store.pld, PerLockData.zero]
  since := by simp [Sys.init]

section Step

variable {s : Sys} {L : Lock} {t : Task} {now : Word}

theorem Single.oneLock (h : Single L s) (t : Task) : ∀ L', t ∈ s.users L' → L' = L := by
  intro L' hm
  by_contra hne
  rw [h.alone L' hne] at hm
  cases hm

theorem totLockHold_acquired {st : Store} {L' : Lock} :
    ((syncordLockAcquired st L t now).pld L').totLockHold = (st.pld L').totLockHold := by
  rw [pld_acquired]
  split
  · rename_i h; rw [h.1]
  · rfl

theorem Single.acquired (h : Single L s) (hc : s.clock ≤ now) :
    Single L { s with
      store := syncordLockAcquired s.store L t now
      holder := Function.update s.holder L (some (t, now))
      users := Function.update s.users L ((s.users L).insert t)
      clock := now } where
  toKept := h.toKept.acquired (h.oneLock t)
  alone := by
    intro L' hne
    simpa [hne] using h.alone L' hne
  sum := by
    simp only [totLockHold_acquired, lockHold_acquired, Function.update_self, h.sum]
    rcases h.new_or_user (h.oneLock t) with ⟨hn, hno⟩ | ⟨_, hu⟩
    · -- a new thread comes with nothing
      rw [List.insert_of_not_mem (hno L), List.map_cons, List.sum_cons, h.lockHold_none hno]
      simp
    · rw [List.insert_of_mem hu]
  bound := by
    simp only [totLockHold_acquired]
    exact Nat.le_trans h.bound hc
  since := by
    intro u ts hh
    simp only [Function.update_self, Option.some.injEq, Prod.mk.injEq] at hh
    obtain ⟨_, rfl⟩ := hh
    simp only [totLockHold_acquired]
    exact ⟨Nat.le_trans h.bound hc, Nat.le_refl _⟩

theorem Single.release (h : Single L s) (hc : s.clock ≤ now) {ts : Word} {st : Store}
    (hh : s.holder L = some (t, ts)) (hst : syncordLockToRelease s.store L t now = some st) :
    Single L { s with
      store := st
      holder := Function.update s.holder L none
      done := ⟨L, t, ts, now⟩ :: s.done
      clock := now } := by
  obtain ⟨hu, d, hd, hts⟩ := h.holder L t ts hh
  obtain ⟨htot, hclock⟩ := h.since t ts hh
  obtain ⟨st', hst', hpld, hptd⟩ := release_spec L now hd
  rw [hst] at hst'
  cases hst'
  have hheld := fun u : Task => lockHold_release (t := u) hd hptd
  rw [hts] at hpld
  simp only [hts] at hheld
  have hcl : s.clock.toNat ≤ now.toNat := hc
  have hlen : (now - ts).toNat = now.toNat - ts.toNat :=
    BitVec.toNat_sub_of_le (Nat.le_trans hclock hcl)
  have hnow := now.isLt
  -- all that has been held so far lies before the start of this section
  have hsum : ((s.store.pld L).totLockHold + (now - ts)).toNat =
      (s.store.pld L).totLockHold.toNat + (now - ts).toNat := by
    rw [BitVec.toNat_add, Nat.mod_eq_of_lt (by omega)]
  have hle : (s.store.lockHold t).toNat ≤ (s.store.pld L).totLockHold.toNat := by
    rw [h.sum]
    exact le_sum_map (f := fun t => (s.store.lockHold t).toNat) hu
  have hother : ∀ u, u ≠ t → st.lockHold u = s.store.lockHold u := by
    intro u hne
    rw [hheld, if_neg hne]
  have hhold : (st.lockHold t).toNat = (s.store.lockHold t).toNat + (now - ts).toNat := by
    rw [hheld, if_pos rfl, BitVec.toNat_add, Nat.mod_eq_of_lt (by omega)]
  have hpldL : (st.pld L).totLockHold = (s.store.pld L).totLockHold + (now - ts) := by
    rw [hpld, if_pos rfl]
  refine ⟨h.toKept.release hh hst, h.alone, ?_, ?_, ?_⟩
  · dsimp only
    rw [hpldL, hsum, h.sum]
    exact (sum_map_add (h.distinct L) hu hhold fun u hne => by rw [hother u hne]).symm
  · dsimp only
    rw [hpldL, hsum]
    omega
  · intro u ts' hh'
    simp at hh'

theorem single_tr {s' : Sys} {a : Event} (h : Single L s) (ha : OnLock L s a) (ht : Tr s a s') :
    Single L s' := by
  cases ht with
  | acquired hh =>
    obtain ⟨rfl, hc⟩ := ha
    exact h.acquired hc
  | release hh hst =>
    obtain ⟨rfl, hc⟩ := ha
    exact h.release hc hh hst
  | @contended _ t =>
    cases ha
    have hk := kept_tr (a := .contended L t) h.toKept (h.oneLock t) .contended
    exact ⟨hk, h.alone, by rw [pld_contended]; exact h.sum,
      by rw [pld_contended]; exact h.bound, by rw [pld_contended]; exact h.since⟩

end Step

/-! ## The back-off -/

theorem Single.conserved {s : Sys} {L : Lock} (h : Single L s) : Conserved s L where
  distinct := h.distinct L
  recorded := by
    intro t
    rw [Ne, h.recorded t, not_forall]
    refine ⟨fun hm => ⟨L, not_not_intro hm⟩, ?_⟩
    rintro ⟨L', hm⟩
    have hm' := not_not.1 hm
    exact h.oneLock t L' hm' ▸ hm'
  numThreads := (h.accounts L).numThreads
  total := h.sum

section BackOff

variable {s : Sys} {L : Lock} {n tot : Nat}

theorem Conserved.lockHold_le (h : Conserved s L) (t : Task) :
    (s.store.lockHold t).toNat ≤ (s.store.pld L).totLockHold.toNat := by
  by_cases ht : t ∈ s.users L
  · rw [h.total]
    exact le_sum_map (f := fun t => (s.store.lockHold t).toNat) ht
  · have hn : s.store.ptd t = none := by
      by_contra hne
      exact ht ((h.recorded t).2 hne)
    simp [Store.lockHold, hn]

/-- Within 64 bits the program computes what it says. -/
theorem Conserved.backOff_eq (h : Conserved s L) (hn : (s.store.pld L).numThreads.toNat = n)
    (htot : (s.store.pld L).totLockHold.toNat = tot) (hpos : 0 < n) (hlt : tot * n < 2 ^ 64)
    (t : Task) :
    if tot < n * (s.store.lockHold t).toNat
    then ∃ w, s.backOff L t = some w ∧ w.toNat + tot = n * (s.store.lockHold t).toNat
    else s.backOff L t = none := by
  have hle := h.lockHold_le t
  rw [htot] at hle
  have hmul : (s.store.lockHold t * (s.store.pld L).numThreads).toNat =
      n * (s.store.lockHold t).toNat := by
    rw [BitVec.toNat_mul, hn, Nat.mul_comm]
    exact Nat.mod_eq_of_lt (Nat.lt_of_le_of_lt (by
      rw [Nat.mul_comm tot]; exact Nat.mul_le_mul_left n hle) hlt)
  have hne : (s.store.pld L).numThreads ≠ 0 := by
    intro h0
    rw [h0] at hn
    simp at hn
    omega
  have hgt : (s.store.lockHold t * (s.store.pld L).numThreads > (s.store.pld L).totLockHold) ↔
      tot < n * (s.store.lockHold t).toNat := by
    rw [gt_iff_lt, BitVec.lt_def, hmul, htot]
  rw [Sys.backOff, contended_eq, customLockContended, if_neg hne]
  split
  · rename_i hc
    rw [if_pos (hgt.2 hc)]
    refine ⟨_, rfl, ?_⟩
    rw [BitVec.toNat_sub_of_le (by rw [BitVec.le_def, hmul, htot]; omega), hmul, htot]
    omega
  · rename_i hc
    rw [if_neg (mt hgt.1 hc)]

theorem Conserved.fairShare (h : Conserved s L) (hn : (s.store.pld L).numThreads.toNat = n)
    (htot : (s.store.pld L).totLockHold.toNat = tot) (hpos : 0 < n) (hlt : tot * n < 2 ^ 64) :
    FairShare s L n tot := by
  have hb := h.backOff_eq hn htot hpos hlt
  have hq : (0 : ℚ) < n := by exact_mod_cast hpos
  have hnone : ∀ t, n * (s.store.lockHold t).toNat ≤ tot → s.backOff L t = none := by
    intro t hle
    have := hb t
    rwa [if_neg (Nat.not_lt.2 hle)] at this
  refine ⟨?_, ?_, ?_, ?_⟩
  · intro t
    rw [div_lt_iff₀ hq, mul_comm]
    have hbt := hb t
    split at hbt
    · rename_i hc
      obtain ⟨w, hw, _⟩ := hbt
      simp only [hw, Option.isSome_some, true_iff]
      exact_mod_cast hc
    · rename_i hc
      simp only [hbt, Option.isSome_none, Bool.false_eq_true, false_iff]
      exact_mod_cast hc
  · intro t w hw
    have hbt := hb t
    split at hbt
    · obtain ⟨w', hw', he⟩ := hbt
      rw [hw] at hw'
      cases hw'
      refine ⟨he, ?_⟩
      have hle := h.lockHold_le t
      rw [htot] at hle
      have := Nat.mul_le_mul_left n hle
      rw [Nat.sub_mul, Nat.one_mul]
      omega
    · rw [hw] at hbt
      cases hbt
  · intro t ht
    refine hnone t ?_
    have hno : s.store.ptd t = none := by
      by_contra hne
      exact ht ((h.recorded t).2 hne)
    simp [Store.lockHold, hno]
  · have hlen := h.numThreads
    rw [hn] at hlen
    have hne : s.users L ≠ [] := by
      intro h0
      rw [h0] at hlen
      simp at hlen
      omega
    obtain ⟨t, ht, hle⟩ := exists_le_average (f := fun t => (s.store.lockHold t).toNat) hne
    rw [← hlen, ← h.total, htot] at hle
    exact ⟨t, ht, hnone t hle⟩

end BackOff

/-- Whatever the threads do on one lock, the records agree, and where `tot_lock_hold * n` fits in 64
bits the contended hook backs off fairly. -/
theorem scl_fair_share {s : Sys} {L : Lock} (h : Reach step (OnLock L) .init s) :
    Conserved s L ∧
      (0 < (s.store.pld L).numThreads.toNat →
        (s.store.pld L).totLockHold.toNat * (s.store.pld L).numThreads.toNat < 2 ^ 64 →
        FairShare s L (s.store.pld L).numThreads.toNat (s.store.pld L).totLockHold.toNat) := by
  have hs : Single L s :=
    h.invariant (single_init L) fun _ _ _ hs ha hst => single_tr hs ha (step_tr hst)
  exact ⟨hs.conserved, hs.conserved.fairShare rfl rfl⟩

def taskB : Task := ⟨8192, by decide⟩

/-- Of two threads the one that has held the lock three times as long is asked to wait. -/
theorem scl_fair_share_two_threads : ∃ s : Sys,
    s.backOff lockA taskA = some 2 ∧ s.backOff lockA taskB = none ∧ Conserved s lockA ∧
      FairShare s lockA 2 4 := by
  have hrun : Reach step (OnLock lockA) .init _ :=
    (((Reach.start.next (a := .acquired lockA taskA 5) ⟨rfl, by decide⟩ rfl).next
      (a := .release lockA taskA 8) ⟨rfl, by decide⟩ rfl).next
      (a := .acquired lockA taskB 9) ⟨rfl, by decide⟩ rfl).next
      (a := .release lockA taskB 10) ⟨rfl, by decide⟩ rfl
  obtain ⟨hc, hf⟩ := scl_fair_share hrun
  exact ⟨_, by decide, by decide, hc, hf (by decide) (by decide)⟩

end Scl
end SynCord
