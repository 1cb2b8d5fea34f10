import SynCord.Scl.Machine
import Mathlib.Data.BitVec
import Mathlib.Data.Finset.Card
import Mathlib.Order.Interval.Finset.Nat
import Mathlib.Data.List.Nodup

/-!
# SynCord.Scl.Account

What the records say about each lock, against what happened. A thread has one record for all locks:
one start time, one sum of hold times, and the mere presence of it stands for "has been counted".
So a thread that comes to a second lock is not counted there (`scl_accounts_second_lock`). In runs
where every thread keeps to one lock the records are right for all locks (`scl_accounts`).
-/

namespace SynCord
namespace Scl

/-- The time that the lock was held, over the sections that are over. -/
def total (cs : List Section) (L : Lock) : Word :=
  ((cs.filter fun c => c.lock = L).map Section.length).sum

/-- The part of it that was held by `t`. -/
def share (cs : List Section) (L : Lock) (t : Task) : Word :=
  ((cs.filter fun c => c.lock = L ∧ c.task = t).map Section.length).sum

/-- The record of the lock counts its threads and adds up its sections. -/
structure Accounts (s : Sys) (L : Lock) : Prop where
  distinct : (s.users L).Nodup
  numThreads : (s.store.pld L).numThreads.toNat = (s.users L).length
  total : (s.store.pld L).totLockHold = total s.done L

/-- The contended hook on `L` reads the share of `t`. -/
def ReadsShare (s : Sys) (L : Lock) (t : Task) : Prop := s.store.lockHold t = share s.done L t

/-- A thread runs the hooks of no second lock. -/
def OneLock (s : Sys) : Event → Prop
  | .acquired L t _ | .contended L t => ∀ L', t ∈ s.users L' → L' = L
  | .release _ _ _ => True

/-! ## Sums -/

theorem total_cons (c : Section) (cs : List Section) (L : Lock) :
    total (c :: cs) L = (if c.lock = L then c.length else 0) + total cs L := by
  unfold total
  by_cases h : c.lock = L <;> simp [h]

theorem share_cons (c : Section) (cs : List Section) (L : Lock) (t : Task) :
    share (c :: cs) L t =
      (if c.lock = L ∧ c.task = t then c.length else 0) + share cs L t := by
  unfold share
  by_cases h : c.lock = L ∧ c.task = t <;> simp [h]

theorem share_eq_zero {cs : List Section} {L : Lock} {t : Task}
    (h : ∀ c ∈ cs, c.lock = L → c.task ≠ t) : share cs L t = 0 := by
  have hf : cs.filter (fun c => c.lock = L ∧ c.task = t) = [] := by
    rw [List.filter_eq_nil_iff]
    intro c hc
    simpa using h c hc
  rw [share, hf]
  rfl

/-- There are fewer tasks than 64-bit words. -/
theorem length_lt_of_nodup {ts : List Task} (h : ts.Nodup) : ts.length < 2 ^ 64 := by
  have hinj : Function.Injective fun t : Task => t.addr.toNat := by
    intro t u he
    cases t; cases u
    simpa using BitVec.eq_of_toNat_eq he
  have hn := h.map hinj
  have hsub : (ts.map fun t => t.addr.toNat).toFinset ⊆ Finset.Ioo 0 (2 ^ 64) := by
    intro n hn
    obtain ⟨t, _, rfl⟩ := List.mem_map.1 (List.mem_toFinset.1 hn)
    refine Finset.mem_Ioo.2 ⟨Nat.pos_of_ne_zero fun h0 => t.ne_null ?_, t.addr.isLt⟩
    exact BitVec.eq_of_toNat_eq (by simpa using h0)
  have hc := Finset.card_le_card hsub
  rw [List.toFinset_card_of_nodup hn, List.length_map, Nat.card_Ioo] at hc
  omega

/-! ## The invariant -/

structure Kept (s : Sys) : Prop where
  distinct : ∀ L, (s.users L).Nodup
  one : ∀ L L' t, t ∈ s.users L → t ∈ s.users L' → L = L'
  recorded : ∀ t, s.store.ptd t = none ↔ ∀ L, t ∉ s.users L
  numThreads : ∀ L, (s.store.pld L).numThreads = BitVec.ofNat 64 (s.users L).length
  total : ∀ L, (s.store.pld L).totLockHold = total s.done L
  hold : ∀ L t, t ∈ s.users L → s.store.lockHold t = share s.done L t
  done : ∀ c ∈ s.done, c.task ∈ s.users c.lock
  holder : ∀ L t ts, s.holder L = some (t, ts) →
    t ∈ s.users L ∧ ∃ d, s.store.ptd t = some d ∧ d.startTs = ts

theorem kept_init : Kept .init := by
  constructor <;> simp [Sys.init, Store.ptd, Store.pld, PerLockData.zero, total]

theorem Kept.lockHold_none {s : Sys} (hk : Kept s) {t : Task} (h : ∀ L, t ∉ s.users L) :
    s.store.lockHold t = 0 := by
  rw [Store.lockHold, (hk.recorded t).2 h]

theorem Kept.share_none {s : Sys} (hk : Kept s) {L : Lock} {t : Task} (h : t ∉ s.users L) :
    share s.done L t = 0 := by
  refine share_eq_zero fun c hc hl ht => h ?_
  have := hk.done c hc
  rwa [hl, ht] at this

theorem Kept.accounts {s : Sys} (hk : Kept s) (L : Lock) : Accounts s L where
  distinct := hk.distinct L
  numThreads := by
    rw [hk.numThreads, BitVec.toNat_ofNat]
    exact Nat.mod_eq_of_lt (length_lt_of_nodup (hk.distinct L))
  total := hk.total L

theorem Kept.readsShare {s : Sys} (hk : Kept s) {L : Lock} {t : Task}
    (ho : OneLock s (.contended L t)) : ReadsShare s L t := by
  by_cases ht : t ∈ s.users L
  · exact hk.hold L t ht
  · have hno : ∀ L', t ∉ s.users L' := fun L' hm => ht (ho L' hm ▸ hm)
    rw [ReadsShare, hk.lockHold_none hno, hk.share_none ht]

/-! ## Steps -/

section Step

variable {s s' : Sys} {L : Lock} {t : Task}

theorem mem_users_acquired {us : Lock → List Task} {L' : Lock} {u : Task} :
    u ∈ Function.update us L ((us L).insert t) L' ↔ (L' = L ∧ u = t) ∨ u ∈ us L' := by
  by_cases h : L' = L
  · subst h; simp
  · simp [h]

/-- The thread that acquires is new to the policy, or a user of the lock already. -/
theorem Kept.new_or_user (hk : Kept s) (ho : ∀ L', t ∈ s.users L' → L' = L) :
    (s.store.ptd t = none ∧ ∀ L', t ∉ s.users L') ∨ (s.store.ptd t ≠ none ∧ t ∈ s.users L) := by
  by_cases h : s.store.ptd t = none
  · exact .inl ⟨h, (hk.recorded t).1 h⟩
  · refine .inr ⟨h, ?_⟩
    by_contra hn
    exact h ((hk.recorded t).2 fun L' hm => hn (ho L' hm ▸ hm))

theorem Kept.acquired (hk : Kept s) {now : Word} (ho : ∀ L', t ∈ s.users L' → L' = L) :
    Kept { s with
      store := syncordLockAcquired s.store L t now
      holder := Function.update s.holder L (some (t, now))
      users := Function.update s.users L ((s.users L).insert t)
      clock := now } where
  distinct := by
    intro L'
    by_cases h : L' = L
    · subst h; simpa using (hk.distinct L').insert
    · simpa [h] using hk.distinct L'
  one := by
    intro L₁ L₂ u h₁ h₂
    rcases mem_users_acquired.1 h₁ with ⟨e₁, hu⟩ | hm₁ <;>
      rcases mem_users_acquired.1 h₂ with ⟨e₂, hu'⟩ | hm₂
    · rw [e₁, e₂]
    · rw [e₁]; exact (ho L₂ (hu ▸ hm₂)).symm
    · rw [e₂]; exact ho L₁ (hu' ▸ hm₁)
    · exact hk.one L₁ L₂ u hm₁ hm₂
  recorded := by
    intro u
    simp only [ptd_acquired, mem_users_acquired, not_or, not_and]
    by_cases hu : u = t
    · subst hu
      simp only [if_true, reduceCtorEq, false_iff, not_forall]
      exact ⟨L, fun h => h.1 rfl trivial⟩
    · simp only [if_neg hu, hk.recorded u]
      exact ⟨fun h L' => ⟨fun _ => hu, h L'⟩, fun h L' => (h L').2⟩
  numThreads := by
    intro L'
    dsimp only
    rw [pld_acquired]
    rcases hk.new_or_user ho with ⟨hn, hno⟩ | ⟨hn, hu⟩
    · by_cases h : L' = L
      · subst h
        rw [if_pos ⟨rfl, hn⟩, Function.update_self, List.insert_of_not_mem (hno L'),
          List.length_cons, hk.numThreads, BitVec.ofNat_add]
        rfl
      · rw [if_neg fun e => h e.1, Function.update_of_ne h, hk.numThreads]
    · rw [if_neg fun e => hn e.2, List.insert_of_mem hu, Function.update_eq_self, hk.numThreads]
  total := by
    intro L'
    dsimp only
    rw [pld_acquired]
    split
    · rename_i h; rw [h.1]; exact hk.total L
    · exact hk.total L'
  hold := by
    intro L' u hu
    dsimp only at hu ⊢
    rw [lockHold_acquired]
    rcases mem_users_acquired.1 hu with ⟨rfl, rfl⟩ | hu
    · exact hk.readsShare ho
    · exact hk.hold L' u hu
  done := fun c hc => mem_users_acquired.2 (.inr (hk.done c hc))
  holder := by
    intro L' u ts hh
    dsimp only at hh ⊢
    by_cases h : L' = L
    · subst h
      rw [Function.update_self, Option.some.injEq, Prod.mk.injEq] at hh
      obtain ⟨rfl, rfl⟩ := hh
      exact ⟨mem_users_acquired.2 (.inl ⟨rfl, rfl⟩), _, by rw [ptd_acquired, if_pos rfl], rfl⟩
    · rw [Function.update_of_ne h] at hh
      obtain ⟨hu, hd⟩ := hk.holder L' u ts hh
      -- the start time that is overwritten is not the one of another holder
      have hut : u ≠ t := by rintro rfl; exact h (ho L' hu)
      exact ⟨mem_users_acquired.2 (.inr hu), by rwa [ptd_acquired, if_neg hut]⟩

theorem Kept.release (hk : Kept s) {now ts : Word} {st : Store} (hh : s.holder L = some (t, ts))
    (hst : syncordLockToRelease s.store L t now = some st) :
    Kept { s with
      store := st
      holder := Function.update s.holder L none
      done := ⟨L, t, ts, now⟩ :: s.done
      clock := now } := by
  obtain ⟨hu, d, hd, rfl⟩ := hk.holder L t ts hh
  obtain ⟨st', hst', hpld, hptd⟩ := release_spec L now hd
  rw [hst] at hst'
  cases hst'
  refine ⟨hk.distinct, hk.one, ?_, ?_, ?_, ?_, ?_, ?_⟩
  · intro u
    dsimp only
    rw [hptd, ← hk.recorded u]
    by_cases h : u = t
    · subst h; simp [hd]
    · simp [h]
  · intro L'
    dsimp only
    rw [hpld]
    split
    · rename_i h; rw [h]; exact hk.numThreads L
    · exact hk.numThreads L'
  · intro L'
    dsimp only
    rw [hpld, total_cons]
    by_cases h : L' = L
    · subst h
      simp only [if_true, Section.length]
      rw [hk.total, BitVec.add_comm]
    · simp [h, Ne.symm h, hk.total]
  · intro L' u hu'
    dsimp only
    rw [lockHold_release hd hptd, share_cons]
    by_cases h : u = t
    · subst h
      have hL := hk.one L' L u hu' hu
      subst hL
      simp only [and_self, if_true, Section.length]
      rw [hk.hold L' u hu', BitVec.add_comm]
    · simp [h, Ne.symm h, hk.hold L' u hu']
  · intro c hc
    rcases List.mem_cons.1 hc with rfl | hc
    · exact hu
    · exact hk.done c hc
  · intro L' u ts hh'
    dsimp only at hh' ⊢
    by_cases h : L' = L
    · subst h; simp at hh'
    · rw [Function.update_of_ne h] at hh'
      obtain ⟨hu', hd'⟩ := hk.holder L' u ts hh'
      have hut : u ≠ t := by rintro rfl; exact h (hk.one L' L u hu' hu)
      exact ⟨hu', by rwa [hptd, if_neg hut]⟩

theorem kept_tr {a : Event} (hk : Kept s) (ho : OneLock s a) (h : Tr s a s') : Kept s' := by
  cases h with
  | acquired hh => exact hk.acquired ho
  | release hh hst => exact hk.release hh hst
  | contended =>
    exact ⟨hk.distinct, hk.one, hk.recorded, fun L => by rw [pld_contended]; exact hk.numThreads L,
      fun L => by rw [pld_contended]; exact hk.total L, hk.hold, hk.done, hk.holder⟩

end Step

/-- In every run whose threads keep to one lock each, the record of every lock is right, and the
contended hook reads the share of its thread. -/
theorem scl_accounts {s : Sys} (h : Reach step OneLock .init s) :
    (∀ L, Accounts s L) ∧ ∀ L t, OneLock s (.contended L t) → ReadsShare s L t := by
  have hk : Kept s := h.invariant kept_init fun _ _ _ hk ho hs => kept_tr hk ho (step_tr hs)
  exact ⟨hk.accounts, fun L t ho => hk.readsShare ho⟩

/-! ## Two locks -/

def lockA : Lock := ⟨64⟩

def lockB : Lock := ⟨128⟩

def taskA : Task := ⟨4096, by decide⟩

theorem scl_accounts_one_section : ∃ s : Sys, s.done.length = 1 ∧
    (s.store.pld lockA).totLockHold = 3 ∧ (∀ L, Accounts s L) ∧ ReadsShare s lockA taskA := by
  have hone (s : Sys) (now : Word) (h : s.users = fun _ => []) :
      OneLock s (.acquired lockA taskA now) := by
    intro L' hm
    rw [h] at hm
    cases hm
  have hrun : Reach step OneLock .init _ :=
    (Reach.start.next (hone .init 5 rfl) rfl).next (a := .release lockA taskA 8) trivial rfl
  obtain ⟨ha, hr⟩ := scl_accounts hrun
  refine ⟨_, rfl, by decide, ha, hr lockA taskA ?_⟩
  intro L' hm
  by_contra hne
  simp [Sys.init, hne] at hm

/-- A thread goes from one lock to another, and the second lock does not count it. -/
theorem scl_accounts_second_lock : ∃ s : Sys, Reach step anyStep .init s ∧
    s.users lockB = [taskA] ∧ (s.store.pld lockB).numThreads = 0 ∧ ¬ Accounts s lockB := by
  have hrun : Reach step anyStep .init _ :=
    ((Reach.start.next (a := .acquired lockA taskA 5) trivial rfl).next
      (a := .release lockA taskA 8) trivial rfl).next
      (a := .acquired lockB taskA 9) trivial rfl
  refine ⟨_, hrun, by decide, by decide, fun h => ?_⟩
  exact absurd h.numThreads (by decide)

end Scl
end SynCord
