import SynCord.Lockstat.Machine
import Mathlib.Data.BitVec
import Mathlib.Data.List.Range

/-!
# SynCord.Lockstat.Counts

What the map says about acquisitions, against the log.

The acquired hook that makes an entry counts itself in its own copy of it. So the entry of a lock is
one behind from then on, and says what happened only if it was in the map before the first hook ran
(`lockstat_counts_iff`); the policy starts with an empty map.

The map takes the first `max_entries` locks that are acquired and no other (`keys_eq`). The hook
does not look at the answer of `bpf_map_update_elem`, so a release finds the entry of its lock
exactly if the lock is one of these (`release_finds_record_iff`).
-/

namespace SynCord
namespace Lockstat

variable {NCPU : Nat}

/-! ## The log -/

theorem acquiredBy_acquired (L L' : Word) (c : Fin NCPU) (now now' : Word)
    (log : List (Event NCPU)) : acquiredBy L (.acquired L' c now now' :: log) =
      if L' = L then c :: acquiredBy L log else acquiredBy L log := by
  by_cases h : L' = L <;> simp [acquiredBy, h]

@[simp] theorem acquiredBy_release (L L' : Word) (c : Fin NCPU) (now : Word)
    (log : List (Event NCPU)) :
    acquiredBy L (.release L' c now :: log) = acquiredBy L log := rfl

@[simp] theorem acquiredBy_slowpath (L L' : Word) (c : Fin NCPU) (now : Word)
    (log : List (Event NCPU)) :
    acquiredBy L (.slowpath L' c now :: log) = acquiredBy L log := rfl

/-- The locks that have been acquired, each once, in the order in which they came. -/
def acquiredLocks : List (Event NCPU) → List Word
  | [] => []
  | .acquired L _ _ _ :: log =>
    if L ∈ acquiredLocks log then acquiredLocks log else acquiredLocks log ++ [L]
  | .release _ _ _ :: log => acquiredLocks log
  | .slowpath _ _ _ :: log => acquiredLocks log

theorem mem_acquiredLocks (L : Word) (log : List (Event NCPU)) :
    L ∈ acquiredLocks log ↔ acquiredBy L log ≠ [] := by
  induction log with
  | nil => simp [acquiredLocks, acquiredBy]
  | cons e log ih =>
    cases e with
    | acquired L' c now now' =>
      rw [acquiredBy_acquired, acquiredLocks]
      by_cases h : L' = L
      · subst h
        by_cases hm : L' ∈ acquiredLocks log <;> simp [hm]
      · have h' : L ≠ L' := Ne.symm h
        rw [if_neg h, ← ih]
        by_cases hm : L' ∈ acquiredLocks log <;> simp [hm, h']
    | release L' c now => exact ih
    | slowpath L' c now => exact ih

/-! ## Acquisitions -/

/-- The entry of `L` says how often the lock was acquired and where the last time. -/
structure Counts (s : Sys NCPU) (L : Word) (d : Data) : Prop where
  acquisitions : d.acquisitions.toNat = (acquiredBy L s.log).length
  prevCpu : ∀ c, (acquiredBy L s.log).head? = some c → d.prevCpu = cpuWord c

/-- A call of `bpf_map_update_elem` succeeds. -/
def Accepted (s : Sys NCPU) : Event NCPU → Prop
  | .acquired L _ _ _ => s.store.map.lookup L ≠ none ∨ s.store.map.keys.length < maxEntries
  | _ => True

instance (s : Sys NCPU) (e : Event NCPU) : Decidable (Accepted s e) :=
  match e with
  | .acquired L _ _ _ => inferInstanceAs
      (Decidable (s.store.map.lookup L ≠ none ∨ s.store.map.keys.length < maxEntries))
  | .release _ _ _ => inferInstanceAs (Decidable True)
  | .slowpath _ _ _ => inferInstanceAs (Decidable True)

/-- How far the entry of `L` is behind, in a run from the map `m`. -/
structure Tallied (m : HashMap) (s : Sys NCPU) (L : Word) : Prop where
  kept : m.lookup L ≠ none → s.store.map.lookup L ≠ none
  unseen : s.store.map.lookup L = none → acquiredBy L s.log = []
  count : ∀ d, s.store.map.lookup L = some d →
    d.acquisitions + (if m.lookup L = none then 1#64 else 0#64) =
      BitVec.ofNat 64 (acquiredBy L s.log).length
  last : ∀ d, s.store.map.lookup L = some d → m.lookup L ≠ none →
    ∀ c, (acquiredBy L s.log).head? = some c → d.prevCpu = cpuWord c

theorem tallied_start {m : HashMap} (hm : ∀ L d, m.lookup L = some d → d = .zero) (L : Word) :
    Tallied m (Sys.start NCPU m) L where
  kept := id
  unseen := fun _ => rfl
  count := by
    intro d hd
    have hn : m.lookup L ≠ none := by
      intro h
      rw [Sys.start, h] at hd
      cases hd
    rw [if_neg hn, hm L d hd]
    rfl
  last := fun _ _ _ _ hc => by cases hc

section Step

variable {m : HashMap} {s : Sys NCPU} {L : Word}

/-- A hook that acquires nothing on `L` and leaves the counter and the CPU in its entry alone. -/
theorem Tallied.congr (ht : Tallied m s L) {e : Event NCPU}
    (hlog : acquiredBy L (e :: s.log) = acquiredBy L s.log)
    (hmap : ∀ d', (e.run s.store).map.lookup L = some d' → ∃ d, s.store.map.lookup L = some d ∧
      d'.acquisitions = d.acquisitions ∧ d'.prevCpu = d.prevCpu)
    (hnone : (e.run s.store).map.lookup L = none → s.store.map.lookup L = none) :
    Tallied m ⟨e.run s.store, e :: s.log⟩ L where
  kept := fun h h' => ht.kept h (hnone h')
  unseen := fun h => by rw [hlog]; exact ht.unseen (hnone h)
  count := by
    intro d' hd'
    obtain ⟨d, hd, ha, -⟩ := hmap d' hd'
    rw [hlog, ha]
    exact ht.count d hd
  last := by
    intro d' hd' hm c hc
    obtain ⟨d, hd, -, hp⟩ := hmap d' hd'
    rw [hp]
    exact ht.last d hd hm c (hlog ▸ hc)

theorem Tallied.acquired (ht : Tallied m s L) {L' : Word} {c : Fin NCPU} {now now' : Word}
    (hok : Accepted s (.acquired L' c now now')) :
    Tallied m ⟨syncordLockAcquired s.store L' c now now', .acquired L' c now now' :: s.log⟩ L := by
  by_cases h : L = L'
  · subst h
    rcases acquired_cases s.store L c now now' with
      ⟨d, hd, hmap⟩ | ⟨hnone, -, -, hlook⟩ | ⟨hnone, hfull, -⟩
    · have hlook := lookup_write hd hmap L
      rw [if_pos rfl] at hlook
      refine ⟨fun _ h => ?_, fun h => ?_, fun d' hd' => ?_, fun d' hd' hm c' hc' => ?_⟩
      · rw [hlook] at h; cases h
      · rw [hlook] at h; cases h
      · rw [hlook] at hd'
        cases hd'
        rw [Data.acquired_eq, acquiredBy_acquired, if_pos rfl, List.length_cons,
          BitVec.ofNat_add, ← ht.count d hd]
        exact add_right_comm _ _ _
      · rw [hlook] at hd'
        cases hd'
        rw [acquiredBy_acquired, if_pos rfl] at hc'
        cases hc'
        rfl
    · -- the entry is made now: it was not in the map at the start, and this run is its first
      have hm : m.lookup L = none := by
        by_contra hm
        exact ht.kept hm hnone
      refine ⟨fun h => absurd hm h, fun h => ?_, fun d' hd' => ?_, fun d' _ h => absurd hm h⟩
      · rw [hlook, if_pos rfl] at h; cases h
      · rw [hlook, if_pos rfl] at hd'
        cases hd'
        rw [acquiredBy_acquired, if_pos rfl, ht.unseen hnone, if_pos hm]
        rfl
    · rcases hok with hok | hok
      · exact absurd hnone hok
      · omega
  · have hlook : (Event.run s.store (.acquired L' c now now')).map.lookup L =
        s.store.map.lookup L := lookup_acquired_of_ne h
    refine ht.congr (e := .acquired L' c now now') ?_ (fun d' hd' => ?_) fun hn => hlook ▸ hn
    · rw [acquiredBy_acquired, if_neg (Ne.symm h)]
    · exact ⟨d', hlook ▸ hd', rfl, rfl⟩

/-- The other two hooks write at most the entry of their lock, and neither of the two fields. -/
theorem Tallied.other (ht : Tallied m s L) {e : Event NCPU} (L' : Word)
    (hlog : acquiredBy L (e :: s.log) = acquiredBy L s.log)
    (hmap : (∃ d d', s.store.map.lookup L' = some d ∧ (e.run s.store).map = s.store.map.set L' d' ∧
        d'.acquisitions = d.acquisitions ∧ d'.prevCpu = d.prevCpu) ∨
      (e.run s.store).map = s.store.map) :
    Tallied m ⟨e.run s.store, e :: s.log⟩ L := by
  rcases hmap with ⟨d, d', hd, hmap, ha, hp⟩ | hmap
  · have hlook := lookup_write hd hmap L
    refine ht.congr hlog (fun x hx => ?_) fun hn => ?_
    · rw [hlook] at hx
      by_cases h : L = L'
      · rw [if_pos h] at hx
        cases hx
        exact ⟨d, h ▸ hd, ha, hp⟩
      · rw [if_neg h] at hx
        exact ⟨x, hx, rfl, rfl⟩
    · rw [hlook] at hn
      by_cases h : L = L'
      · rw [if_pos h] at hn; cases hn
      · rwa [if_neg h] at hn
  · exact ht.congr hlog (fun x hx => ⟨x, hmap ▸ hx, rfl, rfl⟩) fun hn => hmap ▸ hn

theorem Tallied.release (ht : Tallied m s L) (L' : Word) (c : Fin NCPU) (now : Word) :
    Tallied m ⟨syncordLockToRelease s.store L' now, .release L' c now :: s.log⟩ L := by
  refine ht.other (e := .release L' c now) L' rfl ?_
  rcases release_cases s.store L' now with ⟨d, hd, hmap⟩ | ⟨-, hmap⟩
  · exact .inl ⟨d, _, hd, hmap, rfl, rfl⟩
  · exact .inr hmap

theorem Tallied.slowpath (ht : Tallied m s L) (L' : Word) (c : Fin NCPU) (now : Word) :
    Tallied m ⟨syncordToEnterSlowpath s.store L' c now, .slowpath L' c now :: s.log⟩ L := by
  refine ht.other (e := .slowpath L' c now) L' rfl ?_
  rcases slowpath_cases s.store L' c now with ⟨d, hd, hmap⟩ | ⟨-, hmap⟩
  · exact .inl ⟨d, _, hd, hmap, rfl, rfl⟩
  · exact .inr hmap

end Step

theorem tallied {m : HashMap} (hm : ∀ L d, m.lookup L = some d → d = .zero) {s : Sys NCPU}
    (h : Reach step Accepted (Sys.start NCPU m) s) (L : Word) : Tallied m s L := by
  refine h.invariant (P := fun s => Tallied m s L) (tallied_start hm L) ?_
  rintro s (⟨L', c, now, now'⟩ | ⟨L', c, now⟩ | ⟨L', c, now⟩) s' ht hok hs
  · cases hs; exact ht.acquired hok
  · cases hs; exact ht.release L' c now
  · cases hs; exact ht.slowpath L' c now

/-- In a run from a map that has entries of zeros for some locks, the entry of a lock counts its
acquisitions exactly if it was there at the start, as long as the number fits its counter. -/
theorem lockstat_counts_iff {m : HashMap} (hm : ∀ L d, m.lookup L = some d → d = .zero)
    {s : Sys NCPU} (h : Reach step Accepted (Sys.start NCPU m) s) {L : Word} {d : Data}
    (hd : s.store.map.lookup L = some d) :
    Counts s L d ↔ m.lookup L ≠ none ∧ (acquiredBy L s.log).length < 2 ^ 64 := by
  have ht := tallied hm h L
  have hcount := ht.count d hd
  constructor
  · intro hc
    have hlt : (acquiredBy L s.log).length < 2 ^ 64 := hc.acquisitions ▸ d.acquisitions.isLt
    refine ⟨fun hn => ?_, hlt⟩
    rw [if_pos hn, ← hc.acquisitions, BitVec.ofNat_toNat, BitVec.setWidth_eq] at hcount
    have := congrArg BitVec.toNat hcount
    simp only [BitVec.toNat_add, BitVec.toNat_ofNat] at this
    omega
  · rintro ⟨hn, hlt⟩
    rw [if_neg hn, BitVec.add_zero] at hcount
    refine ⟨?_, ht.last d hd hn⟩
    rw [hcount, BitVec.toNat_ofNat, Nat.mod_eq_of_lt hlt]

/-- A map with an entry for the lock at address 8. -/
def preloaded : HashMap := ⟨[(8, .zero)], by simp, by decide⟩

theorem preloaded_zero {L : Word} {d : Data} (h : preloaded.lookup L = some d) : d = .zero := by
  unfold preloaded BoundedMap.lookup at h
  simp only [List.find?_singleton, decide_eq_true_eq] at h
  split at h
  · cases h; rfl
  · cases h

theorem lockstat_counts_preloaded : ∃ s d, Reach step Accepted (Sys.start 2 preloaded) s ∧
    s.store.map.lookup 8 = some d ∧ Counts s 8 d := by
  have h : Reach step Accepted (Sys.start 2 preloaded) _ :=
    (Reach.start.next (a := Event.acquired 8 0 1 1) (by decide) rfl).next
      (a := Event.acquired 8 1 2 2) (by decide) rfl
  exact ⟨_, _, h, rfl,
    (lockstat_counts_iff (fun _ _ => preloaded_zero) h rfl).2 ⟨by decide, by decide⟩⟩

/-- From the empty map, one acquisition on CPU 1: the entry has none, and CPU 0. -/
theorem lockstat_first_acquisition_lost : ∃ s d,
    Reach step Accepted (Sys.start 2 .empty) s ∧ s.store.map.lookup 8 = some d ∧
      acquiredBy 8 s.log = [1] ∧ d.acquisitions = 0 ∧ d.prevCpu = 0 ∧ ¬ Counts s 8 d := by
  have h : Reach step Accepted (Sys.start 2 .empty) _ :=
    Reach.start.next (a := Event.acquired 8 1 1 1) (by decide) rfl
  exact ⟨_, _, h, rfl, rfl, rfl, rfl, fun hc => absurd hc.acquisitions (by decide)⟩

/-! ## Which locks have an entry -/

theorem keys_acquired (st : Store NCPU) (L : Word) (c : Fin NCPU) (now now' : Word) :
    (syncordLockAcquired st L c now now').map.keys =
      if L ∉ st.map.keys ∧ st.map.keys.length < maxEntries then st.map.keys ++ [L]
      else st.map.keys := by
  rcases acquired_cases st L c now now' with
    ⟨d, hd, hmap⟩ | ⟨hnone, hlt, hkeys, -⟩ | ⟨hnone, hfull, hmap⟩
  · have hL : L ∈ st.map.keys := BoundedMap.lookup_ne_none.1 (by rw [hd]; simp)
    rw [hmap, BoundedMap.keys_set, if_neg fun h => h.1 hL]
  · rw [hkeys, if_pos ⟨BoundedMap.lookup_eq_none.1 hnone, hlt⟩]
  · rw [hmap, if_neg fun h => by omega]

theorem keys_release (st : Store NCPU) (L now : Word) :
    (syncordLockToRelease st L now).map.keys = st.map.keys := by
  rcases release_cases st L now with ⟨d, -, hmap⟩ | ⟨-, hmap⟩ <;> simp [hmap]

theorem keys_slowpath (st : Store NCPU) (L : Word) (c : Fin NCPU) (now : Word) :
    (syncordToEnterSlowpath st L c now).map.keys = st.map.keys := by
  rcases slowpath_cases st L c now with ⟨d, -, hmap⟩ | ⟨-, hmap⟩ <;> simp [hmap]

/-- Keeping the first `n` of a growing list of distinct items. -/
theorem take_insert {α : Type} [DecidableEq α] (xs : List α) (x : α) (n : Nat) :
    (if x ∈ xs then xs else xs ++ [x]).take n =
      if x ∉ xs.take n ∧ (xs.take n).length < n then xs.take n ++ [x] else xs.take n := by
  by_cases hn : xs.length < n
  · have ht : xs.take n = xs := List.take_of_length_le (Nat.le_of_lt hn)
    rw [ht]
    by_cases hx : x ∈ xs
    · have hc : ¬ (x ∉ xs ∧ xs.length < n) := fun h => h.1 hx
      rw [if_pos hx, if_neg hc, ht]
    · rw [if_neg hx, if_pos ⟨hx, hn⟩]
      exact List.take_of_length_le (by rw [List.length_append]; exact hn)
  · have hc : ¬ (x ∉ xs.take n ∧ (xs.take n).length < n) := by
      rw [List.length_take]
      omega
    rw [if_neg hc]
    by_cases hx : x ∈ xs
    · rw [if_pos hx]
    · rw [if_neg hx, List.take_append_of_le_length (Nat.le_of_not_lt hn)]

/-- The map holds the first `max_entries` locks that were acquired. -/
theorem keys_eq {ok : Sys NCPU → Event NCPU → Prop} {s : Sys NCPU}
    (h : Reach step ok (Sys.start NCPU .empty) s) :
    s.store.map.keys = (acquiredLocks s.log).take maxEntries := by
  refine h.invariant
    (P := fun s => s.store.map.keys = (acquiredLocks s.log).take maxEntries) rfl ?_
  intro s e s' ih _ hs
  cases hs
  cases e with
  | acquired L c now now' => rw [Event.run, keys_acquired, acquiredLocks, take_insert, ← ih]
  | release L c now => rw [Event.run, keys_release, acquiredLocks, ih]
  | slowpath L c now => rw [Event.run, keys_slowpath, acquiredLocks, ih]

/-- A lock that is released has been acquired before. -/
def Preceded (s : Sys NCPU) : Event NCPU → Prop
  | .release L _ _ => acquiredBy L s.log ≠ []
  | _ => True

/-- The lookup of `custom_lock_to_release` finds the locks that were acquired first, so all of them
if there are no more than `max_entries`. -/
theorem release_finds_record_iff {s : Sys NCPU}
    (h : Reach step Preceded (Sys.start NCPU .empty) s) {L : Word} {c : Fin NCPU} {now : Word}
    (hp : Preceded s (.release L c now)) :
    (s.store.map.lookup L ≠ none ↔ L ∈ (acquiredLocks s.log).take maxEntries) ∧
      ((acquiredLocks s.log).length ≤ maxEntries → s.store.map.lookup L ≠ none) := by
  have hkeys := keys_eq h
  rw [BoundedMap.lookup_ne_none, hkeys]
  refine ⟨Iff.rfl, fun hle => ?_⟩
  rw [List.take_of_length_le hle]
  exact (mem_acquiredLocks L s.log).2 hp

theorem ofNat_notMem_range {n : Nat} (hn : n < 2 ^ 64) :
    BitVec.ofNat 64 n ∉ (List.range n).map (BitVec.ofNat 64) := by
  intro hm
  obtain ⟨k, hk, he⟩ := List.mem_map.1 hm
  have hk := List.mem_range.1 hk
  have he := congrArg BitVec.toNat he
  rw [BitVec.toNat_ofNat, BitVec.toNat_ofNat, Nat.mod_eq_of_lt (by omega),
    Nat.mod_eq_of_lt hn] at he
  omega

/-- A run that acquires and releases the locks `0, …, n - 1` in turn. -/
theorem exists_rounds (n : Nat) (hn : n ≤ 2 ^ 64) : ∃ s : Sys 1,
    Reach step Preceded (Sys.start 1 .empty) s ∧
      acquiredLocks s.log = (List.range n).map (BitVec.ofNat 64) := by
  induction n with
  | zero => exact ⟨_, .start, rfl⟩
  | succ n ih =>
    obtain ⟨s, h, hs⟩ := ih (by omega)
    let L : Word := BitVec.ofNat 64 n
    have hL : L ∉ acquiredLocks s.log := by
      rw [hs]
      exact ofNat_notMem_range (by omega)
    have h₁ := h.next (a := Event.acquired L 0 1 1) (show True from trivial) rfl
    have h₂ := h₁.next (a := Event.release L 0 1)
      (show acquiredBy L (.acquired L 0 1 1 :: s.log) ≠ [] by simp [acquiredBy_acquired]) rfl
    refine ⟨_, h₂, ?_⟩
    simp only [acquiredLocks, if_neg hL]
    rw [hs, List.range_succ, List.map_append]
    rfl

theorem exists_full : ∃ s : Sys 1, Reach step Preceded (Sys.start 1 .empty) s ∧
    acquiredLocks s.log = (List.range 10000).map (BitVec.ofNat 64) ∧
      (acquiredLocks s.log).length = maxEntries := by
  obtain ⟨s, h, hs⟩ := exists_rounds 10000 (by decide)
  refine ⟨s, h, hs, ?_⟩
  rw [hs, List.length_map, List.length_range]
  rfl

/-- With `max_entries` locks, that of the last one still finds its entry. -/
theorem release_finds_record_last : ∃ s : Sys 1, Reach step Preceded (Sys.start 1 .empty) s ∧
    (acquiredLocks s.log).length = maxEntries ∧ Preceded s (.release 9999 0 2) ∧
      s.store.map.lookup 9999 ≠ none := by
  obtain ⟨s, h, hs, hlen⟩ := exists_full
  have hp : Preceded s (.release 9999 0 2) := by
    refine (mem_acquiredLocks 9999 s.log).1 ?_
    rw [hs]
    exact List.mem_map.2 ⟨9999, List.mem_range.2 (by omega), rfl⟩
  exact ⟨s, h, hlen, hp, (release_finds_record_iff h hp).2 (Nat.le_of_eq hlen)⟩

/-- The lock after the first `max_entries` is acquired, and its release finds nothing. -/
theorem release_without_record : ∃ (s : Sys 1) (L : Word),
    Reach step Preceded (Sys.start 1 .empty) s ∧ Preceded s (.release L 0 1) ∧
      s.store.map.lookup L = none := by
  obtain ⟨s, h, hs, hlen⟩ := exists_full
  let L : Word := BitVec.ofNat 64 10000
  have h' := h.next (a := Event.acquired L 0 1 1) (show True from trivial) rfl
  refine ⟨_, L, h',
    show acquiredBy L (.acquired L 0 1 1 :: s.log) ≠ [] by simp [acquiredBy_acquired], ?_⟩
  have hL : L ∉ acquiredLocks s.log := by
    rw [hs]
    exact ofNat_notMem_range (by decide)
  rw [BoundedMap.lookup_eq_none, keys_eq h']
  simp only [acquiredLocks, if_neg hL]
  rw [← hlen, List.take_left]
  exact hL

end Lockstat
end SynCord
