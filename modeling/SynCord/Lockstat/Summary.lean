import SynCord.Lockstat.Counts
import SynCord.Lockstat.Extremes
import SynCord.Lockstat.Report

/-!
# SynCord.Lockstat.Summary

What the report on the locks says about a run of the hooks. The statistics of a lock are kept in
three places: the entry of the map, the time of the last acquisition in the shadow record, and there
the marks of the CPUs that wait. They are put together here to one function of the history of the
lock (`summary`).

* `Kept.acquired`, `Kept.release`, `Kept.slowpath` — every hook keeps the entries at the summaries.
* `lockstat_reports` — the report has one line for each of the first `max_entries` locks that were
  acquired, which tells what happened to the lock after its first acquisition.
-/

namespace SynCord
namespace Lockstat
namespace Summary

variable {NCPU : Nat}

/-! ## History -/

/-- A hook, seen from the lock it runs on. -/
inductive Visit (NCPU : Nat) where
  | acquired (c : Fin NCPU) (now now' : Word)
  | release (now : Word)
  | slowpath (c : Fin NCPU) (now : Word)

def visit (L : Word) : Event NCPU → Option (Visit NCPU)
  | .acquired L' c now now' => if L' = L then some (.acquired c now now') else none
  | .release L' _ now => if L' = L then some (.release now) else none
  | .slowpath L' c now => if L' = L then some (.slowpath c now) else none

/-- The last one is the first one in the list, as in the log. -/
def history (L : Word) (log : List (Event NCPU)) : List (Visit NCPU) := log.filterMap (visit L)

/-- When the first acquisition was over, and what came after it. -/
def sinceFirst : List (Visit NCPU) → Option (Word × List (Visit NCPU))
  | [] => none
  | v :: h =>
    match sinceFirst h with
    | some (first, later) => some (first, v :: later)
    | none =>
      match v with
      | .acquired _ _ now' => some (now', [])
      | .release _ => none
      | .slowpath _ _ => none

/-! ## Statistics -/

/-- Since when the CPU has been waiting; 0 if it has not. -/
def waitsSince (c : Fin NCPU) : List (Visit NCPU) → Word
  | [] => 0
  | .acquired c' _ _ :: h => if c = c' then 0 else waitsSince c h
  | .release _ :: h => waitsSince c h
  | .slowpath c' now :: h => if c = c' then now else waitsSince c h

/-- Since when the lock has been held, or was held the last time. -/
def heldSince (first : Word) : List (Visit NCPU) → Word
  | [] => first
  | .acquired _ _ now' :: _ => now'
  | .release _ :: h => heldSince first h
  | .slowpath _ _ :: h => heldSince first h

/-- The times that CPUs have waited, in the order of their acquisitions. -/
def waits : List (Visit NCPU) → List Word
  | [] => []
  | .acquired c now _ :: h =>
    if waitsSince c h ≠ 0 then waits h ++ [now - waitsSince c h] else waits h
  | .release _ :: h => waits h
  | .slowpath _ _ :: h => waits h

/-- The times that the lock was held. -/
def holds (first : Word) : List (Visit NCPU) → List Word
  | [] => []
  | .acquired _ _ _ :: h => holds first h
  | .release now :: h => holds first h ++ [now - heldSince first h]
  | .slowpath _ _ :: h => holds first h

/-- The CPUs that have acquired the lock, and whether they had to wait. -/
def owners : List (Visit NCPU) → List (Word × Bool)
  | [] => []
  | .acquired c _ _ :: h => (cpuWord c, waitsSince c h ≠ 0) :: owners h
  | .release _ :: h => owners h
  | .slowpath _ _ :: h => owners h

def contentions : List (Visit NCPU) → Nat
  | [] => 0
  | .acquired _ _ _ :: h => contentions h
  | .release _ :: h => contentions h
  | .slowpath _ _ :: h => contentions h + 1

/-- CPU 0 is taken for the one before the first. -/
def lastCpu (l : List (Word × Bool)) : Word := (l.head?.map Prod.fst).getD 0

/-- The acquisitions by another CPU than the one before. -/
def bounces : List (Word × Bool) → List (Word × Bool)
  | [] => []
  | o :: l => if lastCpu l ≠ o.1 then o :: bounces l else bounces l

/-- The entry of a lock. -/
def summary (first : Word) (later : List (Visit NCPU)) : Data where
  prevCpu := lastCpu (owners later)
  contentions := BitVec.ofNat 64 (contentions later)
  conBounces := BitVec.ofNat 64 ((bounces (owners later)).countP (·.2))
  waittime := record (waits later)
  acquisitions := BitVec.ofNat 64 (owners later).length
  acqBounces := BitVec.ofNat 64 (bounces (owners later)).length
  holdtime := record (holds first later)

/-- The summary of a lock, of zeros if it has not been acquired. -/
def summaryOf (L : Word) (log : List (Event NCPU)) : Data :=
  match sinceFirst (history L log) with
  | some (first, later) => summary first later
  | none => .zero

section Summary

variable {first now now' : Word} {later : List (Visit NCPU)} {c : Fin NCPU}

theorem summary_nil : summary first ([] : List (Visit NCPU)) = .zero := rfl

theorem lastCpu_cons (o : Word × Bool) (l : List (Word × Bool)) : lastCpu (o :: l) = o.1 := rfl

theorem summary_acquired : summary first (.acquired c now now' :: later) =
    (summary first later).acquired (waitsSince c later) now (cpuWord c) := by
  rw [Data.acquired_eq]
  by_cases hb : lastCpu (owners later) = cpuWord c <;> by_cases hw : waitsSince c later = 0#64 <;>
    simp [summary, owners, waits, holds, contentions, bounces, lastCpu_cons, hb, hw, record_append,
      BitVec.ofNat_add]

theorem summary_release : summary first (.release now :: later) =
    { summary first later with
      holdtime := (summary first later).holdtime.add (now - heldSince first later) } := by
  simp only [summary, owners, waits, holds, contentions, record_append]

theorem summary_slowpath : summary first (.slowpath c now :: later) =
    { summary first later with contentions := (summary first later).contentions + 1 } := by
  simp only [summary, owners, waits, holds, contentions, BitVec.ofNat_add]
  rfl

end Summary

section History

variable {L : Word} {log : List (Event NCPU)} {e : Event NCPU}

theorem history_other (h : visit L e = none) : history L (e :: log) = history L log :=
  List.filterMap_cons_none h

theorem history_visit {v : Visit NCPU} (h : visit L e = some v) :
    history L (e :: log) = v :: history L log :=
  List.filterMap_cons_some h

theorem sinceFirst_eq_none :
    sinceFirst (history L log) = none ↔ acquiredBy L log = [] := by
  induction log with
  | nil => exact ⟨fun _ => rfl, fun _ => rfl⟩
  | cons e log ih =>
    cases e with
    | acquired L' c now now' =>
      rw [acquiredBy_acquired]
      by_cases h : L' = L
      · rw [history_visit (by rw [visit, if_pos h]), if_pos h]
        cases hs : sinceFirst (history L log) <;> simp [sinceFirst, hs]
      · rw [history_other (by rw [visit, if_neg h]), if_neg h, ih]
    | release L' c now =>
      rw [acquiredBy_release]
      by_cases h : L' = L
      · rw [history_visit (by rw [visit, if_pos h]), ← ih]
        cases hs : sinceFirst (history L log) <;> simp [sinceFirst, hs]
      · rw [history_other (by rw [visit, if_neg h]), ih]
    | slowpath L' c now =>
      rw [acquiredBy_slowpath]
      by_cases h : L' = L
      · rw [history_visit (by rw [visit, if_pos h]), ← ih]
        cases hs : sinceFirst (history L log) <;> simp [sinceFirst, hs]
      · rw [history_other (by rw [visit, if_neg h]), ih]

theorem sinceFirst_visit {v : Visit NCPU} {first : Word} {later : List (Visit NCPU)}
    (h : sinceFirst (history L log) = some (first, later)) (hv : visit L e = some v) :
    sinceFirst (history L (e :: log)) = some (first, v :: later) := by
  rw [history_visit hv]
  simp only [sinceFirst, h]

end History

/-! ## Runs -/

section Shadow

variable {st : Store NCPU} {lock L now now' : Word} {cpu : Fin NCPU}

theorem holdStart_acquired : ((syncordLockAcquired st lock cpu now now').pld L).holdStart =
    if L = lock then now' else (st.pld L).holdStart := by
  simp only [syncordLockAcquired, Store.pld, Shadow.get_set, Shadow.getOrAlloc_snd]
  by_cases hL : L = lock
  · subst hL
    simp
  · simp [hL, Shadow.getD_getOrAlloc]

theorem holdStart_release : ((syncordLockToRelease st lock now).pld L).holdStart =
    (st.pld L).holdStart := by
  simp only [syncordLockToRelease, Store.pld, Shadow.getD_getOrAlloc]

theorem holdStart_slowpath : ((syncordToEnterSlowpath st lock cpu now).pld L).holdStart =
    (st.pld L).holdStart := by
  simp only [syncordToEnterSlowpath, Store.pld, Shadow.get_set, Shadow.getOrAlloc_snd]
  by_cases hL : L = lock
  · subst hL
    simp
  · simp [hL, Shadow.getD_getOrAlloc]

end Shadow

/-- Entry, shadow record and history of a lock agree. Where there is no entry, nothing is noted. -/
structure Kept (s : Sys NCPU) (L : Word) : Prop where
  absent : s.store.map.lookup L = none → ∀ c, s.store.mark L c = 0
  entry : ∀ d, s.store.map.lookup L = some d → ∃ first later,
    sinceFirst (history L s.log) = some (first, later) ∧ d = summary first later ∧
      (∀ c, s.store.mark L c = waitsSince c later) ∧
      (s.store.pld L).holdStart = heldSince first later

section Step

variable {s : Sys NCPU} {L : Word}

theorem kept_start : Kept (Sys.start NCPU .empty) L where
  absent := fun _ _ => rfl
  entry := fun _ hd => by cases hd

/-- A hook on another lock. -/
theorem Kept.other (hk : Kept s L) {e : Event NCPU} (hv : visit L e = none)
    (hlookup : (e.run s.store).map.lookup L = s.store.map.lookup L)
    (hmark : ∀ c, (e.run s.store).mark L c = s.store.mark L c)
    (hhold : ((e.run s.store).pld L).holdStart = (s.store.pld L).holdStart) :
    Kept ⟨e.run s.store, e :: s.log⟩ L := by
  constructor <;> dsimp only <;> rw [hlookup]
  · intro h c
    rw [hmark, hk.absent h]
  · intro d hd
    rw [history_other hv, hhold]
    simp only [hmark]
    exact hk.entry d hd

/-- A hook that finds no entry and makes none. -/
theorem Kept.unknown (hk : Kept s L) {e : Event NCPU} (hd : s.store.map.lookup L = none)
    (hlookup : (e.run s.store).map.lookup L = none)
    (hmark : ∀ c, s.store.mark L c = 0 → (e.run s.store).mark L c = 0) :
    Kept ⟨e.run s.store, e :: s.log⟩ L where
  absent := fun _ c => hmark c (hk.absent hd c)
  entry := fun d h => by
    dsimp only at h
    rw [hlookup] at h
    cases h

/-- A hook that writes to the entry of its lock. -/
theorem Kept.write (hk : Kept s L) {e : Event NCPU} {v : Visit NCPU} (hv : visit L e = some v)
    {d d' : Data} (hd : s.store.map.lookup L = some d)
    (hlookup : (e.run s.store).map.lookup L = some d')
    (h : ∀ first later, d = summary first later →
      (∀ c, s.store.mark L c = waitsSince c later) →
      (s.store.pld L).holdStart = heldSince first later →
      d' = summary first (v :: later) ∧
        (∀ c, (e.run s.store).mark L c = waitsSince c (v :: later)) ∧
        ((e.run s.store).pld L).holdStart = heldSince first (v :: later)) :
    Kept ⟨e.run s.store, e :: s.log⟩ L where
  absent := fun hn => by
    dsimp only at hn
    rw [hlookup] at hn
    cases hn
  entry := fun x hx => by
    dsimp only at hx
    rw [hlookup, Option.some.injEq] at hx
    obtain ⟨first, later, hs, hsum, hmark, hhold⟩ := hk.entry d hd
    exact ⟨first, v :: later, sinceFirst_visit hs hv, hx ▸ h first later hsum hmark hhold⟩

theorem Kept.acquired (hk : Kept s L)
    (hkeys : s.store.map.keys = (acquiredLocks s.log).take maxEntries) (lock : Word)
    (c : Fin NCPU) (now now' : Word) :
    Kept ⟨(Event.acquired lock c now now').run s.store, .acquired lock c now now' :: s.log⟩ L := by
  by_cases hL : L = lock
  · subst hL
    have hv : visit L (.acquired L c now now') = some (.acquired c now now') := by simp [visit]
    rcases acquired_cases s.store L c now now' with
      ⟨d, hd, hm⟩ | ⟨hd, hroom, -, hm⟩ | ⟨hd, -, hm⟩
    · refine hk.write hv hd (by rw [Event.run, lookup_write hd hm, if_pos rfl]) ?_
      intro first later hsum hmark hhold
      refine ⟨by rw [summary_acquired, hmark, hsum], fun c' => ?_, ?_⟩
      · rw [Event.run, mark_acquired, waitsSince, hmark]
        simp
      · rw [Event.run, holdStart_acquired, if_pos rfl, heldSince]
    · -- there was room before, so this is the first acquisition
      have hnone : sinceFirst (history L s.log) = none := by
        rw [sinceFirst_eq_none]
        by_contra hne
        have hmem := (mem_acquiredLocks L s.log).2 hne
        rw [List.take_of_length_le (by rw [hkeys, List.length_take] at hroom; omega)] at hkeys
        exact BoundedMap.lookup_eq_none.1 hd (hkeys ▸ hmem)
      have hl : ((Event.acquired L c now now').run s.store).map.lookup L = some .zero := by
        rw [Event.run, hm, if_pos rfl]
      refine ⟨fun h => ?_, fun d' hd' => ⟨now', [], ?_, ?_, fun c' => ?_, ?_⟩⟩
      · dsimp only at h
        rw [hl] at h
        cases h
      · rw [history_visit hv]
        simp only [sinceFirst, hnone]
      · dsimp only at hd'
        rw [hl, Option.some.injEq] at hd'
        rw [summary_nil, hd']
      · dsimp only [Event.run]
        rw [mark_acquired, hk.absent hd c']
        simp [waitsSince]
      · dsimp only [Event.run]
        rw [holdStart_acquired, if_pos rfl, heldSince]
    · refine hk.unknown hd (by rw [Event.run, hm, hd]) fun c' h => ?_
      rw [Event.run, mark_acquired, h]
      simp
  · refine hk.other (by rw [visit, if_neg (Ne.symm hL)]) (lookup_acquired_of_ne hL)
      (fun c' => ?_) ?_
    · rw [Event.run, mark_acquired, if_neg fun h => hL h.1]
    · rw [Event.run, holdStart_acquired, if_neg hL]

theorem Kept.release (hk : Kept s L) (lock : Word) (c : Fin NCPU) (now : Word) :
    Kept ⟨(Event.release lock c now).run s.store, .release lock c now :: s.log⟩ L := by
  by_cases hL : L = lock
  · subst hL
    have hv : visit L (.release L c now) = some (.release now) := by simp [visit]
    rcases release_cases s.store L now with ⟨d, hd, hm⟩ | ⟨hd, hm⟩
    · refine hk.write hv hd (by rw [Event.run, lookup_write hd hm, if_pos rfl]) ?_
      intro first later hsum hmark hhold
      refine ⟨by rw [summary_release, hhold, hsum], fun c' => ?_, ?_⟩
      · rw [Event.run, mark_release, waitsSince, hmark]
      · rw [Event.run, holdStart_release, heldSince, hhold]
    · refine hk.unknown hd (by rw [Event.run, hm, hd]) fun c' h => ?_
      rw [Event.run, mark_release, h]
  · refine hk.other (by rw [visit, if_neg (Ne.symm hL)]) (lookup_release_of_ne hL) (fun c' => ?_) ?_
    · rw [Event.run, mark_release]
    · rw [Event.run, holdStart_release]

theorem Kept.slowpath (hk : Kept s L) (lock : Word) (c : Fin NCPU) (now : Word) :
    Kept ⟨(Event.slowpath lock c now).run s.store, .slowpath lock c now :: s.log⟩ L := by
  by_cases hL : L = lock
  · subst hL
    have hv : visit L (.slowpath L c now) = some (.slowpath c now) := by simp [visit]
    rcases slowpath_cases s.store L c now with ⟨d, hd, hm⟩ | ⟨hd, hm⟩
    · refine hk.write hv hd (by rw [Event.run, lookup_write hd hm, if_pos rfl]) ?_
      intro first later hsum hmark hhold
      refine ⟨by rw [summary_slowpath, hsum], fun c' => ?_, ?_⟩
      · rw [Event.run, mark_slowpath, waitsSince, hmark]
        simp [hd]
      · rw [Event.run, holdStart_slowpath, heldSince, hhold]
    · refine hk.unknown hd (by rw [Event.run, hm, hd]) fun c' h => ?_
      rw [Event.run, mark_slowpath, if_neg fun h => h.2.2 hd, h]
  · refine hk.other (by rw [visit, if_neg (Ne.symm hL)]) (lookup_slowpath_of_ne hL)
      (fun c' => ?_) ?_
    · rw [Event.run, mark_slowpath, if_neg fun h => hL h.1]
    · rw [Event.run, holdStart_slowpath]

/-- Entry and history of every lock agree in every run from the empty map. -/
theorem kept {ok : Sys NCPU → Event NCPU → Prop} (h : Reach step ok (Sys.start NCPU .empty) s) :
    Kept s L := by
  induction h with
  | start => exact kept_start
  | @next s s' e hr _ hs ih =>
    cases hs
    cases e with
    | acquired lock c now now' => exact ih.acquired (keys_eq hr) lock c now now'
    | release lock c now => exact ih.release lock c now
    | slowpath lock c now => exact ih.slowpath lock c now

theorem lookup_summaryOf {ok : Sys NCPU → Event NCPU → Prop}
    (h : Reach step ok (Sys.start NCPU .empty) s) (hL : L ∈ s.store.map.keys) :
    s.store.map.lookup L = some (summaryOf L s.log) := by
  obtain ⟨d, hd⟩ := Option.ne_none_iff_exists'.1 (BoundedMap.lookup_ne_none.2 hL)
  obtain ⟨first, later, hs, rfl, -⟩ := (kept h).entry d hd
  rw [hd, summaryOf, hs]

end Step

/-! ## The report -/

/-- The longest and the sum of the times, and the shortest of those after the last zero. -/
structure Times (samples : List Word) (st : TimeStat) : Prop where
  min : IsShortest (sinceZero samples) st.min
  max : IsLongest samples st.max
  total : st.total = sumOf samples

theorem times_record (samples : List Word) : Times samples (record samples) :=
  ⟨record_recent samples, record_longest samples, record_total samples⟩

/-- What a line says of the visits after the first acquisition. -/
structure Tells (first : Word) (later : List (Visit NCPU)) (r : Row) : Prop where
  contentions : r.contentions = BitVec.ofNat 64 (contentions later)
  conBounces : r.conBounces = BitVec.ofNat 64 ((bounces (owners later)).countP (·.2))
  acquisitions : r.acquisitions = BitVec.ofNat 64 (owners later).length
  acqBounces : r.acqBounces = BitVec.ofNat 64 (bounces (owners later)).length
  waittime : Times (waits later) r.waittime
  holdtime : Times (holds first later) r.holdtime

theorem tells_printStack (L first : Word) (later : List (Visit NCPU)) :
    Tells first later (printStack L (summary first later)) :=
  ⟨rfl, rfl, rfl, rfl, times_record _, times_record _⟩

/-- After any run of the hooks from the empty map, a report that begins with a key that is not in
the map has a line for each of the first `max_entries` locks that were acquired, and no other line;
it tells what has happened to the lock after its first acquisition. -/
theorem lockstat_reports {ok : Sys NCPU → Event NCPU → Prop} {s : Sys NCPU}
    (h : Reach step ok (Sys.start NCPU .empty) s) (e : Enumeration s.store.map) {key : Word}
    (hkey : key ∉ s.store.map.keys) (data : Data) :
    ∃ rows : List Row, Prints s.store.map e.order key data (rows.map .row) ∧
      (rows.map Row.key).Perm ((acquiredLocks s.log).take maxEntries) ∧
      ∀ r ∈ rows, ∃ first later,
        sinceFirst (history r.key s.log) = some (first, later) ∧ Tells first later r := by
  have hnodup : e.order.Nodup := e.perm.nodup_iff.2 s.store.map.nodup
  have hmem : ∀ k ∈ e.order, k ∈ s.store.map.keys := fun k hk => e.perm.mem_iff.1 hk
  have habsent : key ∉ e.order := fun hk => hkey (hmem key hk)
  refine ⟨e.order.map fun L => printStack L ((s.store.map.lookup L).getD .zero),
    ⟨_, (printStacks_absent hnodup hmem habsent data).trans ?_⟩, ?_, ?_⟩
  · rw [List.map_map]
    rfl
  · rw [List.map_map, ← keys_eq h]
    exact (List.Perm.of_eq (List.map_id e.order)).trans e.perm
  · intro r hr
    obtain ⟨L, hL, rfl⟩ := List.mem_map.1 hr
    obtain ⟨d, hd⟩ := Option.ne_none_iff_exists'.1 (BoundedMap.lookup_ne_none.2 (hmem L hL))
    obtain ⟨first, later, hs, hsum, -⟩ := (kept h).entry d hd
    refine ⟨first, later, hs, ?_⟩
    rw [hd, hsum]
    exact tells_printStack L first later

/-- CPU 0 holds the lock from 1 to 6; CPU 1 waits for it from 4 on, has it from 7 to 7, and again
from 8 to 17. The shortest time is then that of the third one. -/
theorem lockstat_reports_handover : ∃ (s : Sys 2) (e : Enumeration s.store.map),
    Reach step anyStep (Sys.start 2 .empty) s ∧
      Prints s.store.map e.order 0 .zero [.row ⟨8, 1, 1, 2, 1, ⟨3, 3, 3⟩, ⟨9, 9, 14⟩⟩] ∧
      ∃ first later, sinceFirst (history 8 s.log) = some (first, later) ∧
        Tells first later ⟨8, 1, 1, 2, 1, ⟨3, 3, 3⟩, ⟨9, 9, 14⟩⟩ ∧
        holds first later = [5, 0, 9] := by
  have h₁ : Reach step anyStep (Sys.start 2 .empty) _ :=
    Reach.start.next (a := Event.acquired 8 0 1 1) trivial rfl
  have h₂ := h₁.next (a := Event.slowpath 8 1 4) trivial rfl
  have h₃ := h₂.next (a := Event.release 8 0 6) trivial rfl
  have h₄ := h₃.next (a := Event.acquired 8 1 7 7) trivial rfl
  have h₅ := h₄.next (a := Event.release 8 1 7) trivial rfl
  have h₆ := h₅.next (a := Event.acquired 8 1 8 8) trivial rfl
  have h₇ := h₆.next (a := Event.release 8 1 17) trivial rfl
  obtain ⟨rows, hprints, -, htells⟩ :=
    lockstat_reports h₇ ⟨_, .refl _⟩ (show (0 : Word) ∉ _ by decide) .zero
  refine ⟨_, ⟨_, .refl _⟩, h₇, ⟨2, by decide⟩, ?_⟩
  have hrows : rows = [⟨8, 1, 1, 2, 1, ⟨3, 3, 3⟩, ⟨9, 9, 14⟩⟩] := by
    have hmap := hprints.unique ⟨2, rfl⟩
    match rows, hmap with
    | [r], hmap => cases hmap; rfl
  obtain ⟨first, later, hs, ht⟩ := htells _ (hrows ▸ List.mem_singleton_self _)
  refine ⟨first, later, hs, ht, ?_⟩
  cases hs
  decide

end Summary
end Lockstat
end SynCord
