import SynCord.Lockstat.Machine
import Mathlib.Data.List.DropRight
import Mathlib.Data.List.Induction
import Mathlib.Data.List.Perm.Basic

/-!
# SynCord.Lockstat.Extremes

The shortest, the longest and the total time that a record has after a sequence of samples. In
`min` a zero stands for no sample, but a sample may be zero too: it is smaller than what is there,
and it is then taken for no sample.

* `record_longest`, `record_total` — the longest and the total time are right for every sequence.
* `record_recent` — the shortest time is that of the samples after the last zero.
* `extremes_exact_iff` — the record is exact, for every order of the samples, exactly if no sample
  is zero or all are.
-/

namespace SynCord
namespace Lockstat

/-- The samples one after the other, into a record that is new. -/
def record (samples : List Word) : TimeStat := samples.foldl TimeStat.add .zero

/-- The shortest time that is not zero; zero if there is none. -/
def IsShortest (samples : List Word) (m : Word) : Prop :=
  (m = 0 ∧ ∀ t ∈ samples, t = 0) ∨ (m ≠ 0 ∧ m ∈ samples ∧ ∀ t ∈ samples, t ≠ 0 → m ≤ t)

/-- The longest time; zero if there is none. -/
def IsLongest (samples : List Word) (m : Word) : Prop :=
  (m = 0 ∨ m ∈ samples) ∧ ∀ t ∈ samples, t ≤ m

/-- The sum modulo `2 ^ 64`. -/
def sumOf (samples : List Word) : Word :=
  BitVec.ofNat 64 (samples.foldr (fun t n => t.toNat + n) 0)

structure Exact (samples : List Word) (st : TimeStat) : Prop where
  min : IsShortest samples st.min
  max : IsLongest samples st.max
  total : st.total = sumOf samples

section Fold

variable {samples : List Word} {m t : Word}

theorem zero_le_word (m : Word) : 0 ≤ m := BitVec.le_def.2 (Nat.zero_le _)

theorem record_append : record (samples ++ [t]) = (record samples).add t := by
  rw [record, List.foldl_append]
  rfl

theorem IsLongest.add (h : IsLongest samples m) (t : Word) :
    IsLongest (samples ++ [t]) (if m < t then t else m) := by
  obtain ⟨hm, hle⟩ := h
  split
  · rename_i hlt
    refine ⟨.inr (by simp), fun x hx => ?_⟩
    rcases List.mem_append.1 hx with hx | hx
    · exact BitVec.le_trans (hle x hx) (BitVec.le_of_lt hlt)
    · rw [List.mem_singleton.1 hx]
      exact BitVec.le_refl _
  · rename_i hlt
    refine ⟨hm.imp_right (List.mem_append_left _), fun x hx => ?_⟩
    rcases List.mem_append.1 hx with hx | hx
    · exact hle x hx
    · rw [List.mem_singleton.1 hx]
      exact BitVec.not_lt.1 hlt

theorem IsShortest.add (h : IsShortest samples m) (ht : t ≠ 0) :
    IsShortest (samples ++ [t]) (if m = 0 ∨ m > t then t else m) := by
  split
  · rename_i hm
    refine .inr ⟨ht, by simp, fun x hx hx0 => ?_⟩
    rcases List.mem_append.1 hx with hx | hx
    · rcases h with ⟨-, hall⟩ | ⟨hm0, -, hle⟩
      · exact absurd (hall x hx) hx0
      · exact BitVec.le_trans (BitVec.le_of_lt (hm.resolve_left hm0)) (hle x hx hx0)
    · rw [List.mem_singleton.1 hx]
      exact BitVec.le_refl _
  · rename_i hm
    obtain ⟨hm0, hmt⟩ := not_or.1 hm
    rcases h with ⟨hm', -⟩ | ⟨-, hmem, hle⟩
    · exact absurd hm' hm0
    · refine .inr ⟨hm0, List.mem_append_left _ hmem, fun x hx hx0 => ?_⟩
      rcases List.mem_append.1 hx with hx | hx
      · exact hle x hx hx0
      · rw [List.mem_singleton.1 hx]
        exact BitVec.not_lt.1 hmt

theorem sumOf_append : sumOf (samples ++ [t]) = sumOf samples + t := by
  have key : ∀ (l : List Word) (n : Nat), l.foldr (fun t n => t.toNat + n) n =
      l.foldr (fun t n => t.toNat + n) 0 + n := by
    intro l n
    induction l with
    | nil => exact (Nat.zero_add n).symm
    | cons x l ih => rw [List.foldr_cons, List.foldr_cons, ih, Nat.add_assoc]
  rw [sumOf, sumOf, List.foldr_append, key, BitVec.ofNat_add]
  simp

theorem IsShortest.unique {samples' : List Word} {m' : Word} (hp : samples'.Perm samples)
    (h : IsShortest samples m) (h' : IsShortest samples' m') : m' = m := by
  rcases h with ⟨rfl, hall⟩ | ⟨hm0, hmem, hle⟩
  · rcases h' with ⟨hm', -⟩ | ⟨hm0', hmem', -⟩
    · exact hm'
    · exact absurd (hall m' (hp.mem_iff.1 hmem')) hm0'
  · rcases h' with ⟨-, hall'⟩ | ⟨hm0', hmem', hle'⟩
    · exact absurd (hall' m (hp.mem_iff.2 hmem)) hm0
    · exact BitVec.le_antisymm (hle' m (hp.mem_iff.2 hmem) hm0) (hle m' (hp.mem_iff.1 hmem') hm0')

theorem IsLongest.unique {samples' : List Word} {m' : Word} (hp : samples'.Perm samples)
    (h : IsLongest samples m) (h' : IsLongest samples' m') : m' = m := by
  refine BitVec.le_antisymm ?_ ?_
  · rcases h'.1 with rfl | hmem
    · exact zero_le_word m
    · exact h.2 m' (hp.mem_iff.1 hmem)
  · rcases h.1 with rfl | hmem
    · exact zero_le_word m'
    · exact h'.2 m (hp.mem_iff.2 hmem)

end Fold

theorem record_longest (samples : List Word) : IsLongest samples (record samples).max := by
  induction samples using List.reverseRecOn with
  | nil => exact ⟨.inl rfl, by simp⟩
  | append_singleton samples t ih =>
    rw [record_append]
    exact ih.add t

theorem record_total (samples : List Word) : (record samples).total = sumOf samples := by
  induction samples using List.reverseRecOn with
  | nil => rfl
  | append_singleton samples t ih =>
    rw [record_append, sumOf_append, ← ih]
    rfl

/-- A zero at the end is what is left. -/
theorem record_min_zero (samples : List Word) : (record (samples ++ [0])).min = 0 := by
  rw [record_append, TimeStat.add]
  split
  · rfl
  · rename_i h
    obtain ⟨hm, hlt⟩ := not_or.1 h
    exact absurd (BitVec.le_antisymm (BitVec.not_lt.1 hlt) (zero_le_word _)) hm

/-- The samples after the last zero. -/
def sinceZero (samples : List Word) : List Word := samples.rtakeWhile (· ≠ 0)

theorem record_recent (samples : List Word) :
    IsShortest (sinceZero samples) (record samples).min := by
  induction samples using List.reverseRecOn with
  | nil => exact .inl ⟨rfl, by simp [sinceZero]⟩
  | append_singleton samples t ih =>
    by_cases ht : t = 0
    · subst ht
      rw [record_min_zero, sinceZero, List.rtakeWhile_concat_neg _ _ _ (by simp)]
      exact .inl ⟨rfl, by simp⟩
    · rw [record_append, sinceZero, List.rtakeWhile_concat_pos _ _ _ (by simpa using ht)]
      exact ih.add ht

theorem record_shortest {samples : List Word} (h : 0 ∉ samples) :
    IsShortest samples (record samples).min := by
  have hall : sinceZero samples = samples :=
    List.rtakeWhile_eq_self_iff.2 fun t ht => by simpa using fun h0 : t = 0 => h (h0 ▸ ht)
  simpa only [hall] using record_recent samples

theorem record_shortest_of_zeros {samples : List Word} (h : ∀ t ∈ samples, t = 0) :
    IsShortest samples (record samples).min := by
  refine .inl ⟨?_, h⟩
  induction samples using List.reverseRecOn with
  | nil => rfl
  | append_singleton samples t ih =>
    have hmin := ih fun x hx => h x (List.mem_append_left _ hx)
    rw [record_append, TimeStat.add, if_pos (.inl hmin)]
    exact h t (by simp)

def NoZeroOrAll (samples : List Word) : Prop := 0 ∉ samples ∨ ∀ t ∈ samples, t = 0

theorem record_exact {samples : List Word} (h : NoZeroOrAll samples) :
    Exact samples (record samples) :=
  ⟨h.elim record_shortest record_shortest_of_zeros, record_longest samples, record_total samples⟩

theorem NoZeroOrAll.perm {samples samples' : List Word} (h : NoZeroOrAll samples)
    (hp : samples'.Perm samples) : NoZeroOrAll samples' :=
  h.imp (mt hp.mem_iff.1) fun h t ht => h t (hp.mem_iff.1 ht)

theorem sumOf_perm {samples samples' : List Word} (hp : samples'.Perm samples) :
    sumOf samples' = sumOf samples := by
  rw [sumOf, sumOf, hp.foldr_eq']
  intro x _ y _ n
  omega

theorem extremes_exact_iff (samples : List Word) :
    (Exact samples (record samples) ∧
      ∀ samples', samples'.Perm samples → record samples' = record samples) ↔
    NoZeroOrAll samples := by
  constructor
  · rintro ⟨hexact, horder⟩
    by_contra hno
    obtain ⟨hzero, hall⟩ := not_or.1 hno
    have hperm : (samples.erase 0 ++ [0]).Perm samples :=
      (List.perm_append_singleton _ _).trans (List.perm_cons_erase (not_not.1 hzero)).symm
    have hmin : (record samples).min = 0 := by
      rw [← horder _ hperm]
      exact record_min_zero _
    rcases hexact.min with ⟨-, h⟩ | ⟨h, -⟩
    · exact hall h
    · exact h hmin
  · intro h
    refine ⟨record_exact h, fun samples' hp => ?_⟩
    have h' := record_exact (h.perm hp)
    have hx := record_exact h
    have hmin := IsShortest.unique hp hx.min h'.min
    have hmax := IsLongest.unique hp hx.max h'.max
    have htotal : (record samples').total = (record samples).total := by
      rw [h'.total, hx.total, sumOf_perm hp]
    cases hr : record samples
    cases hr' : record samples'
    rw [hr, hr'] at hmin hmax htotal
    cases hmin
    cases hmax
    cases htotal
    rfl

/-- The second time is zero, and it hides the first one. -/
theorem extremes_zero : record [5, 0] = ⟨0, 5, 5⟩ ∧ record [0, 5] = ⟨5, 5, 5⟩ ∧
    ¬ Exact [5, 0] (record [5, 0]) := by
  refine ⟨by decide, by decide, fun h => ?_⟩
  have hmin : (record [5, 0]).min = 0 := by decide
  rcases h.min with ⟨-, hall⟩ | ⟨hne, -⟩
  · exact absurd (hall 5 (by simp)) (by decide)
  · exact hne hmin

end Lockstat
end SynCord
