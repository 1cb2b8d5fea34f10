import SynCord.Lockstat.Machine
import SynCord.Writes
import Mathlib.Data.BitVec
import Mathlib.Tactic.SplitIfs

/-!
# SynCord.Lockstat.Consistent

The counters of an entry agree with each other and with the marks of the CPUs that wait, whether or
not the map has room for every lock.

A mark is set only where there is an entry, together with `contentions`, and the acquired hook that
clears it counts an acquisition in the same entry. So every contention is accounted for, by a mark
or by an acquisition. The hook that makes an entry finds no mark to clear (`Kept.unmarked`), and
what it loses is an acquisition that no other counter has heard of.
-/

namespace SynCord
namespace Lockstat

variable {NCPU : Nat}

/-! ## Statements -/

structure TimeStat.Ordered (st : TimeStat) : Prop where
  min_le_max : st.min ≤ st.max
  max_le_total : st.max ≤ st.total

/-- The number of CPUs that are marked as waiting for the lock. -/
def waiters (st : Store NCPU) (L : Word) : Nat :=
  (Finset.univ.filter fun c => st.mark L c ≠ 0).card

structure Consistent (st : Store NCPU) (L : Word) (d : Data) : Prop where
  con_le_acq : d.conBounces ≤ d.acqBounces
  acq_le : d.acqBounces ≤ d.acquisitions
  con_add_le : d.conBounces.toNat + waiters st L ≤ d.contentions.toNat
  contentions_le : d.contentions.toNat ≤ d.acquisitions.toNat + waiters st L
  waittime : d.waittime.Ordered
  holdtime : d.holdtime.Ordered

/-- The CPU has entered the slow path of the lock and has not acquired it since. -/
def Waiting (L : Word) (c : Fin NCPU) : List (Event NCPU) → Prop
  | [] => False
  | .acquired L' c' _ _ :: log => ¬ (L' = L ∧ c' = c) ∧ Waiting L c log
  | .release _ _ _ :: log => Waiting L c log
  | .slowpath L' c' _ :: log => (L' = L ∧ c' = c) ∨ Waiting L c log

/-- A CPU does not enter the slow path of a lock again before it has acquired it, the clock is not
at 0 then, and no counter or sum overflows. -/
def Orderly (s : Sys NCPU) : Event NCPU → Prop
  | .acquired L c now _ => ∀ d, s.store.map.lookup L = some d →
      d.acquisitions.uaddOverflow 1 = false ∧
      (s.store.mark L c ≠ 0 → d.waittime.total.uaddOverflow (now - s.store.mark L c) = false)
  | .release L _ now => ∀ d, s.store.map.lookup L = some d →
      d.holdtime.total.uaddOverflow (now - (s.store.pld L).holdStart) = false
  | .slowpath L c now => now ≠ 0 ∧ ¬ Waiting L c s.log ∧ ∀ d, s.store.map.lookup L = some d →
      d.contentions.uaddOverflow 1 = false

/-! ## Sums and marks -/

theorem toNat_add_of_fits {x y : Word} (h : x.uaddOverflow y = false) :
    (x + y).toNat = x.toNat + y.toNat := by
  apply BitVec.toNat_add_of_not_uaddOverflow
  simp [h]

theorem toNat_add_one {x : Word} (h : x.toNat < 2 ^ 64 - 1) : (x + 1).toNat = x.toNat + 1 := by
  rw [BitVec.toNat_add, show BitVec.toNat (1 : Word) = 1 from rfl]
  omega

theorem toNat_bump {x : Word} (p : Prop) [Decidable p] (h : x.toNat < 2 ^ 64 - 1) :
    (if p then x + 1 else x).toNat = x.toNat + if p then 1 else 0 := by
  split
  · exact toNat_add_one h
  · rfl

theorem indicator_mono {p q : Prop} [Decidable p] [Decidable q] (h : p → q) :
    (if p then 1 else 0) ≤ if q then 1 else 0 := by
  by_cases hp : p
  · rw [if_pos hp, if_pos (h hp)]
  · rw [if_neg hp]; exact Nat.zero_le _

theorem indicator_le_one (p : Prop) [Decidable p] : (if p then 1 else 0) ≤ 1 := by
  split <;> omega

theorem TimeStat.Ordered.zero : TimeStat.zero.Ordered := ⟨BitVec.le_refl _, BitVec.le_refl _⟩

theorem TimeStat.Ordered.add {st : TimeStat} (h : st.Ordered) {t : Word}
    (ht : st.total.uaddOverflow t = false) : (st.add t).Ordered := by
  have hsum := toNat_add_of_fits ht
  have h₁ := BitVec.le_def.1 h.min_le_max
  have h₂ := BitVec.le_def.1 h.max_le_total
  constructor
  · rw [BitVec.le_def]
    simp only [TimeStat.add, gt_iff_lt, BitVec.lt_def]
    split_ifs <;> omega
  · rw [BitVec.le_def]
    simp only [TimeStat.add, BitVec.lt_def, hsum]
    split_ifs <;> omega

section Waiters

variable {st st' : Store NCPU} {L : Word} {c : Fin NCPU} {v : Word}

theorem waiters_congr (h : ∀ c, st'.mark L c = st.mark L c) : waiters st' L = waiters st L := by
  simp only [waiters, h]

theorem waiters_update (h : ∀ x, st'.mark L x = if x = c then v else st.mark L x) :
    waiters st' L + (if st.mark L c ≠ 0 then 1 else 0) =
      waiters st L + if v ≠ 0 then 1 else 0 := by
  have hf : (fun x => st'.mark L x) = Function.update (fun x => st.mark L x) c v := by
    funext x
    rw [h, Function.update_apply]
  have := card_filter_update (· ≠ 0) (fun x => st.mark L x) c v
  rwa [← hf] at this

theorem waiters_eq_zero (h : ∀ c, st.mark L c = 0) : waiters st L = 0 := by
  simp [waiters, h]

end Waiters

/-! ## Hooks on an entry -/

section Step

variable {st st' : Store NCPU} {L : Word} {d : Data}

theorem Consistent.acquired (h : Consistent st L d) {c : Fin NCPU} {now cpu : Word}
    (hfit : d.acquisitions.uaddOverflow 1 = false)
    (hwait : st.mark L c ≠ 0 → d.waittime.total.uaddOverflow (now - st.mark L c) = false)
    (hmark : ∀ x, st'.mark L x = if x = c then 0 else st.mark L x) :
    Consistent st' L (d.acquired (st.mark L c) now cpu) := by
  have hacq : (d.acquisitions + 1).toNat = d.acquisitions.toNat + 1 := toNat_add_of_fits hfit
  have hlt : (d.acquisitions + 1).toNat < 2 ^ 64 := BitVec.isLt _
  have h₁ := BitVec.le_def.1 h.con_le_acq
  have h₂ := BitVec.le_def.1 h.acq_le
  have h₃ := h.con_add_le
  have h₄ := h.contentions_le
  have hab := toNat_bump (x := d.acqBounces) (d.prevCpu ≠ cpu) (by omega)
  have hcb := toNat_bump (x := d.conBounces) (d.prevCpu ≠ cpu ∧ st.mark L c ≠ 0) (by omega)
  have hw := waiters_update hmark
  have hle₁ := indicator_mono (And.left (a := d.prevCpu ≠ cpu) (b := st.mark L c ≠ 0))
  have hle₂ := indicator_mono (And.right (a := d.prevCpu ≠ cpu) (b := st.mark L c ≠ 0))
  have hle₃ := indicator_le_one (d.prevCpu ≠ cpu)
  have hle₄ := indicator_le_one (st.mark L c ≠ 0)
  -- `acq` is a change of CPU, `con` one to a CPU that was marked
  generalize (if d.prevCpu ≠ cpu ∧ st.mark L c ≠ 0 then 1 else 0) = con at *
  generalize (if d.prevCpu ≠ cpu then 1 else 0) = acq at *
  rw [if_neg fun h : (0 : Word) ≠ 0 => h rfl] at hw
  rw [Data.acquired_eq]
  refine ⟨?_, ?_, ?_, ?_, ?_, h.holdtime⟩
  · rw [BitVec.le_def, hcb, hab]; omega
  · rw [BitVec.le_def, hab, hacq]; omega
  · dsimp only; rw [hcb]; omega
  · dsimp only; rw [hacq]; omega
  · by_cases hm : st.mark L c ≠ 0
    · simp only [if_pos hm]
      exact h.waittime.add (hwait hm)
    · simp only [if_neg hm]
      exact h.waittime

theorem Consistent.release (h : Consistent st L d) {t : Word}
    (hfit : d.holdtime.total.uaddOverflow t = false)
    (hmark : ∀ c, st'.mark L c = st.mark L c) :
    Consistent st' L { d with holdtime := d.holdtime.add t } := by
  have hw := waiters_congr hmark
  exact ⟨h.con_le_acq, h.acq_le, hw ▸ h.con_add_le, hw ▸ h.contentions_le, h.waittime,
    h.holdtime.add hfit⟩

theorem Consistent.slowpath (h : Consistent st L d) {c : Fin NCPU} {now : Word} (hnow : now ≠ 0)
    (hfit : d.contentions.uaddOverflow 1 = false) (hc : st.mark L c = 0)
    (hmark : ∀ x, st'.mark L x = if x = c then now else st.mark L x) :
    Consistent st' L { d with contentions := d.contentions + 1 } := by
  have hcon : (d.contentions + 1).toNat = d.contentions.toNat + 1 := toNat_add_of_fits hfit
  have hw := waiters_update hmark
  rw [if_pos hnow, if_neg fun h => h hc] at hw
  have h₃ := h.con_add_le
  have h₄ := h.contentions_le
  refine ⟨h.con_le_acq, h.acq_le, ?_, ?_, h.waittime, h.holdtime⟩
  · dsimp only; rw [hcon]; omega
  · dsimp only; rw [hcon]; omega

theorem Consistent.congr (h : Consistent st L d) (hmark : ∀ c, st'.mark L c = st.mark L c) :
    Consistent st' L d := by
  have hw := waiters_congr hmark
  exact ⟨h.con_le_acq, h.acq_le, hw ▸ h.con_add_le, hw ▸ h.contentions_le, h.waittime,
    h.holdtime⟩

theorem Consistent.new (h : ∀ c, st.mark L c = 0) : Consistent st L .zero := by
  have hw := waiters_eq_zero h
  refine ⟨BitVec.le_refl _, BitVec.le_refl _, ?_, ?_, .zero, .zero⟩
  · rw [hw]; exact Nat.le_refl _
  · rw [hw]; exact Nat.le_refl _

end Step

/-! ## Runs -/

/-- What holds for a lock in every state. -/
structure Kept (s : Sys NCPU) (L : Word) : Prop where
  entry : ∀ d, s.store.map.lookup L = some d → Consistent s.store L d
  unmarked : s.store.map.lookup L = none → ∀ c, s.store.mark L c = 0
  waiting : ∀ c, s.store.mark L c ≠ 0 → Waiting L c s.log

theorem kept_start (L : Word) : Kept (Sys.start NCPU .empty) L where
  entry := fun _ h => by cases h
  unmarked := fun _ _ => rfl
  waiting := fun _ h => absurd rfl h

section Run

variable {s : Sys NCPU} {L : Word}

/-- A hook on another lock. -/
theorem Kept.other (hk : Kept s L) {e : Event NCPU}
    (hmap : (e.run s.store).map.lookup L = s.store.map.lookup L)
    (hmark : ∀ c, (e.run s.store).mark L c = s.store.mark L c)
    (hlog : ∀ c, Waiting L c s.log → Waiting L c (e :: s.log)) :
    Kept ⟨e.run s.store, e :: s.log⟩ L where
  entry := fun d hd => (hk.entry d (hmap ▸ hd)).congr hmark
  unmarked := fun h c => by rw [hmark]; exact hk.unmarked (hmap ▸ h) c
  waiting := fun c h => hlog c (hk.waiting c (by rwa [hmark] at h))

theorem Kept.acquired (hk : Kept s L) {L' : Word} {c : Fin NCPU} {now now' : Word}
    (hok : Orderly s (.acquired L' c now now')) :
    Kept ⟨syncordLockAcquired s.store L' c now now', .acquired L' c now now' :: s.log⟩ L := by
  by_cases h : L = L'
  · subst h
    have hmark : ∀ x, (syncordLockAcquired s.store L c now now').mark L x =
        if x = c then 0 else s.store.mark L x := by
      intro x
      simp [mark_acquired]
    have hwait : ∀ x, (syncordLockAcquired s.store L c now now').mark L x ≠ 0 →
        Waiting L x (.acquired L c now now' :: s.log) := by
      intro x hx
      rw [hmark] at hx
      by_cases hxc : x = c
      · rw [if_pos hxc] at hx; exact absurd rfl hx
      · rw [if_neg hxc] at hx
        exact ⟨fun he => hxc he.2.symm, hk.waiting x hx⟩
    rcases acquired_cases s.store L c now now' with
      ⟨d, hd, hmap⟩ | ⟨hnone, -, -, hlook⟩ | ⟨hnone, -, hmap⟩
    · have hlook := lookup_write hd hmap L
      rw [if_pos rfl] at hlook
      refine ⟨fun d' hd' => ?_, (fun h => by rw [hlook] at h; cases h), hwait⟩
      rw [hlook] at hd'
      cases hd'
      exact (hk.entry d hd).acquired (hok d hd).1 (hok d hd).2 hmark
    · have hzero : ∀ x, (syncordLockAcquired s.store L c now now').mark L x = 0 := by
        intro x
        rw [hmark, hk.unmarked hnone, ite_self]
      refine ⟨fun d' hd' => ?_, fun _ => hzero, hwait⟩
      rw [hlook, if_pos rfl] at hd'
      cases hd'
      exact .new hzero
    · refine ⟨fun d' hd' => ?_, fun _ x => ?_, hwait⟩
      · rw [hmap, hnone] at hd'; cases hd'
      · rw [hmark, hk.unmarked hnone, ite_self]
  · refine hk.other (e := .acquired L' c now now') (lookup_acquired_of_ne h) (fun x => ?_)
      fun x hx => ⟨fun he => h he.1.symm, hx⟩
    rw [Event.run, mark_acquired, if_neg fun he => h he.1]

theorem Kept.release (hk : Kept s L) {L' : Word} {c : Fin NCPU} {now : Word}
    (hok : Orderly s (.release L' c now)) :
    Kept ⟨syncordLockToRelease s.store L' now, .release L' c now :: s.log⟩ L := by
  have hmark : ∀ x, (syncordLockToRelease s.store L' now).mark L x = s.store.mark L x :=
    fun _ => mark_release
  by_cases h : L = L'
  · subst h
    rcases release_cases s.store L now with ⟨d, hd, hmap⟩ | ⟨-, hmap⟩
    · have hlook := lookup_write hd hmap L
      rw [if_pos rfl] at hlook
      refine ⟨fun d' hd' => ?_, (fun h => by rw [hlook] at h; cases h), fun x hx => ?_⟩
      · rw [hlook] at hd'
        cases hd'
        exact (hk.entry d hd).release (hok d hd) hmark
      · exact hk.waiting x (by rwa [hmark] at hx)
    · exact hk.other (e := .release L c now) (by rw [Event.run, hmap]) hmark fun _ hx => hx
  · exact hk.other (e := .release L' c now) (lookup_release_of_ne h) hmark fun _ hx => hx

theorem Kept.slowpath (hk : Kept s L) {L' : Word} {c : Fin NCPU} {now : Word}
    (hok : Orderly s (.slowpath L' c now)) :
    Kept ⟨syncordToEnterSlowpath s.store L' c now, .slowpath L' c now :: s.log⟩ L := by
  by_cases h : L = L'
  · subst h
    obtain ⟨hnow, hnew, hfit⟩ := hok
    have hc : s.store.mark L c = 0 := by
      by_contra hc
      exact hnew (hk.waiting c hc)
    rcases slowpath_cases s.store L c now with ⟨d, hd, hmap⟩ | ⟨hnone, hmap⟩
    · have hmark : ∀ x, (syncordToEnterSlowpath s.store L c now).mark L x =
          if x = c then now else s.store.mark L x := by
        intro x
        simp [mark_slowpath, hd]
      have hlook := lookup_write hd hmap L
      rw [if_pos rfl] at hlook
      refine ⟨fun d' hd' => ?_, (fun h => by rw [hlook] at h; cases h), fun x hx => ?_⟩
      · rw [hlook] at hd'
        cases hd'
        exact (hk.entry d hd).slowpath hnow (hfit d hd) hc hmark
      · rw [hmark] at hx
        by_cases hxc : x = c
        · exact .inl ⟨rfl, hxc.symm⟩
        · rw [if_neg hxc] at hx
          exact .inr (hk.waiting x hx)
    · refine hk.other (e := .slowpath L c now) (by rw [Event.run, hmap]) (fun x => ?_)
        fun _ hx => .inr hx
      rw [Event.run, mark_slowpath, if_neg fun he => he.2.2 hnone]
  · refine hk.other (e := .slowpath L' c now) (lookup_slowpath_of_ne h) (fun x => ?_)
      fun _ hx => .inr hx
    rw [Event.run, mark_slowpath, if_neg fun he => h he.1]

/-- In every state of an orderly run from the empty map, every entry is consistent. -/
theorem lockstat_consistent {s : Sys NCPU} (h : Reach step Orderly (Sys.start NCPU .empty) s)
    {L : Word} {d : Data} (hd : s.store.map.lookup L = some d) : Consistent s.store L d := by
  have hk : Kept s L := by
    refine h.invariant (P := fun s => Kept s L) (kept_start L) ?_
    rintro s (⟨L', c, now, now'⟩ | ⟨L', c, now⟩ | ⟨L', c, now⟩) s' hk hok hs
    · cases hs; exact hk.acquired hok
    · cases hs; exact hk.release hok
    · cases hs; exact hk.slowpath hok
  exact hk.entry d hd

end Run

/-- CPU 0 acquires the lock, CPU 1 comes to wait for it. -/
theorem lockstat_consistent_waiting : ∃ (s : Sys 2) (d : Data),
    Reach step Orderly (Sys.start 2 .empty) s ∧ s.store.map.lookup 8 = some d ∧
      waiters s.store 8 = 1 ∧ Consistent s.store 8 d := by
  have h₁ : Reach step Orderly (Sys.start 2 .empty) _ :=
    Reach.start.next (a := Event.acquired 8 0 1 1) (fun d hd => by cases hd) rfl
  have h₂ := h₁.next (a := Event.slowpath 8 1 2)
    ⟨by decide, by simp [Waiting, Sys.start], fun d hd => by cases hd; decide⟩ rfl
  exact ⟨_, _, h₂, rfl, by decide, lockstat_consistent h₂ rfl⟩

end Lockstat
end SynCord
