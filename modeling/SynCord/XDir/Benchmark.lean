import SynCord.Double
import Mathlib.Data.List.Nodup

/-!
# SynCord.XDir.Benchmark

`main` of the rename benchmark, `benchmarks/xDir-rename/benchmark.c`. The tasks are in one array;
those with an even index are bullies, the others are victims. What the threads do is not looked
at: a task has the hold time and the runs that are in it after the join.

* `lockHold_sums` — which tasks the loop adds up for a group.
* `Args.Measured.fairness` — when there is a fairness index to print.
* `mix_iff` — the mix that was asked for is run exactly if there are as many bullies as victims, or
  one more.
-/

namespace SynCord
namespace XDir

/-- The arguments that `main` accepts. -/
structure Args where
  bullies : Nat
  victims : Nat
  bullies_lt : bullies < 2147483648
  victims_lt : victims < 2147483648

structure Task where
  lockHold : Nat
  runs : Nat
  lockHold_lt : lockHold < 18446744073709551616
  runs_lt : runs < 2147483648

inductive Role where
  | bully
  | victim
  deriving DecidableEq

/-- What `main` takes task `i` for. -/
def Role.of (i : Nat) : Role := if i % 2 = 0 then .bully else .victim

/-- The value of an `int` expression. -/
def wrap (x : Int) : Int := Int.bmod x 4294967296

/-- The sums of the two groups. -/
structure Sums where
  bullyLockHold : Nat
  victimLockHold : Nat
  bullyRuns : Int
  victimRuns : Int

def Sums.lockHold (s : Sums) : Role → Nat
  | .bully => s.bullyLockHold
  | .victim => s.victimLockHold

def Sums.runs (s : Sums) : Role → Int
  | .bully => s.bullyRuns
  | .victim => s.victimRuns

def Sums.add (tasks : Nat → Task) (s : Sums) (i : Nat) : Sums :=
  if i % 2 = 0 then
    { s with
      bullyLockHold := Double.add s.bullyLockHold (Double.round (tasks i).lockHold)
      bullyRuns := wrap (s.bullyRuns + (tasks i).runs) }
  else
    { s with
      victimLockHold := Double.add s.victimLockHold (Double.round (tasks i).lockHold)
      victimRuns := wrap (s.victimRuns + (tasks i).runs) }

/-- The loop over the first `n` tasks. -/
def sums (tasks : Nat → Task) (n : Nat) : Sums :=
  (List.range n).foldl (Sums.add tasks) ⟨0, 0, 0, 0⟩

structure Average where
  lockHold : Nat
  divisor : Nat

/-- The quotient, in double precision. -/
def Average.value (avg : Average) : Double.Value :=
  .div (.num avg.lockHold) (.num avg.divisor)

/-- The index that is computed from the two averages. -/
def fairness (bullyAvg victimAvg : Double.Value) : Double.Value :=
  let both := bullyAvg.add victimAvg
  let numerator := both.mul both
  let denominator := ((bullyAvg.mul bullyAvg).add (victimAvg.mul victimAvg)).mul (.num 2)
  numerator.div denominator

namespace Args

variable (a : Args)

def taskN : Int := wrap (a.bullies + a.victims)

/-- The start routines that are given to `pthread_create`, task by task. -/
def started : List Role :=
  (List.range a.taskN.toNat).map Role.of

def bullyAvg (tasks : Nat → Task) : Average := ⟨(sums tasks a.taskN.toNat).bullyLockHold, a.bullies⟩

def victimAvg (tasks : Nat → Task) : Average :=
  ⟨(sums tasks a.taskN.toNat).victimLockHold, a.victims⟩

def fairness (tasks : Nat → Task) : Double.Value :=
  XDir.fairness (a.bullyAvg tasks).value (a.victimAvg tasks).value

end Args

/-- The sum of the hold times of the tasks in `l`, in double precision. -/
def holdSum (tasks : Nat → Task) (l : List Nat) : Nat :=
  l.foldl (fun x i => Double.add x (Double.round (tasks i).lockHold)) 0

/-- The average is over the tasks whose hold times have been summed. -/
def IsAverage (avg : (Nat → Task) → Average) : Prop :=
  ∃ l : List Nat, l.Nodup ∧ ∀ tasks, avg tasks = ⟨holdSum tasks l, l.length⟩

structure Args.RequestedMix (a : Args) : Prop where
  bullies : a.started.count .bully = a.bullies
  victims : a.started.count .victim = a.victims
  bullyAvg : IsAverage a.bullyAvg
  victimAvg : IsAverage a.victimAvg

/-! ## The loops -/

/-- The tasks of a group. -/
def below (r : Role) (n : Nat) : List Nat := (List.range n).filter fun i => Role.of i = r

def evenBelow (n : Nat) : List Nat := below .bully n

def oddBelow (n : Nat) : List Nat := below .victim n

theorem below_succ (r : Role) (n : Nat) :
    below r (n + 1) = below r n ++ if Role.of n = r then [n] else [] := by
  simp [below, List.range_succ, List.filter_cons]

theorem nodup_below (r : Role) (n : Nat) : (below r n).Nodup := List.nodup_range.filter _

theorem length_below (r : Role) (n : Nat) :
    (below r n).length = match r with
      | .bully => (n + 1) / 2
      | .victim => n / 2 := by
  induction n with
  | zero => cases r <;> rfl
  | succ n ih =>
    rw [below_succ, List.length_append, ih]
    rcases Nat.mod_two_eq_zero_or_one n with hn | hn <;> cases r <;> simp [Role.of, hn] <;> omega

theorem sums_succ (tasks : Nat → Task) (n : Nat) :
    sums tasks (n + 1) = (sums tasks n).add tasks n := by
  simp [sums, List.range_succ]

theorem Sums.lockHold_bully (s : Sums) : s.lockHold .bully = s.bullyLockHold := rfl

theorem Sums.lockHold_victim (s : Sums) : s.lockHold .victim = s.victimLockHold := rfl

theorem Sums.lockHold_add (tasks : Nat → Task) (s : Sums) (i : Nat) (r : Role) :
    (s.add tasks i).lockHold r = if Role.of i = r
      then Double.add (s.lockHold r) (Double.round (tasks i).lockHold) else s.lockHold r := by
  rw [Sums.add, Role.of]
  split <;> cases r <;> rfl

theorem Sums.runs_add (tasks : Nat → Task) (s : Sums) (i : Nat) (r : Role) :
    (s.add tasks i).runs r =
      if Role.of i = r then wrap (s.runs r + (tasks i).runs) else s.runs r := by
  rw [Sums.add, Role.of]
  split <;> cases r <;> rfl

theorem holdSum_append (tasks : Nat → Task) (l : List Nat) (i : Nat) :
    holdSum tasks (l ++ [i]) =
      Double.add (holdSum tasks l) (Double.round (tasks i).lockHold) := by
  simp [holdSum]

theorem lockHold_sums (tasks : Nat → Task) (n : Nat) (r : Role) :
    (sums tasks n).lockHold r = holdSum tasks (below r n) := by
  induction n with
  | zero => cases r <;> rfl
  | succ n ih =>
    rw [sums_succ, Sums.lockHold_add, below_succ]
    split
    · rw [holdSum_append, ← ih]
    · rw [List.append_nil, ← ih]

namespace Args

variable (a : Args)

theorem count_started (r : Role) : a.started.count r = (below r a.taskN.toNat).length := by
  rw [below, ← List.countP_eq_length_filter, started, List.count, List.countP_map]
  refine List.countP_congr fun i _ => ?_
  simp

/-- A sum that does not fit is negative. -/
theorem taskN_toNat : a.taskN.toNat =
    if a.bullies + a.victims < 2147483648 then a.bullies + a.victims else 0 := by
  have hb := a.bullies_lt
  have hv := a.victims_lt
  rw [taskN, wrap, Int.bmod_def]
  by_cases h : a.bullies + a.victims < 2147483648
  · rw [if_pos h]
    omega
  · rw [if_neg h]
    omega

theorem counts_iff :
    ((a.taskN.toNat + 1) / 2 = a.bullies ∧ a.taskN.toNat / 2 = a.victims) ↔
      a.bullies + a.victims < 2147483648 ∧
        (a.bullies = a.victims ∨ a.bullies = a.victims + 1) := by
  have hb := a.bullies_lt
  have hv := a.victims_lt
  rw [taskN_toNat]
  split
  · omega
  · omega

end Args

theorem mix_iff (a : Args) : a.RequestedMix ↔
    a.bullies + a.victims < 2147483648 ∧
      (a.bullies = a.victims ∨ a.bullies = a.victims + 1) := by
  have hbully : (below .bully a.taskN.toNat).length = (a.taskN.toNat + 1) / 2 := length_below ..
  have hvictim : (below .victim a.taskN.toNat).length = a.taskN.toNat / 2 := length_below ..
  rw [← a.counts_iff, ← hbully, ← hvictim, ← a.count_started, ← a.count_started]
  constructor
  · intro h
    exact ⟨h.bullies, h.victims⟩
  · rintro ⟨hb, hv⟩
    refine ⟨hb, hv, ⟨_, nodup_below .bully a.taskN.toNat, fun tasks => ?_⟩,
      ⟨_, nodup_below .victim a.taskN.toNat, fun tasks => ?_⟩⟩
    · rw [Args.bullyAvg, ← lockHold_sums, ← a.count_started, hb, Sums.lockHold_bully]
    · rw [Args.victimAvg, ← lockHold_sums, ← a.count_started, hv, Sums.lockHold_victim]

/-- One bully and three victims: two of the four tasks are bullies. -/
theorem mix_one_three : ¬ (Args.mk 1 3 (by decide) (by decide)).RequestedMix := by
  intro h
  have hcount := h.bullies
  rw [Args.count_started, length_below] at hcount
  revert hcount
  decide

/-! ## The fairness index -/

section Fairness

open Double

theorem Average.value_of_pos (lockHold : Nat) {divisor : Nat} (h : 0 < divisor) :
    ∃ x, (Average.mk lockHold divisor).value = .num x ∧ (x = 0 ↔ lockHold = 0) := by
  have hd : (divisor : ℚ) ≠ 0 := by exact_mod_cast h.ne'
  refine ⟨roundFraction (lockHold / divisor), by simp [value, Value.div, hd],
    fun h0 => ?_, fun h0 => by simp [h0, roundFraction]⟩
  by_contra hne
  have hl : (0 : ℚ) < lockHold := by exact_mod_cast Nat.pos_of_ne_zero hne
  exact (roundFraction_pos (div_pos hl (by exact_mod_cast h))).ne' h0

theorem Average.value_zero (lockHold : Nat) :
    (Average.mk lockHold 0).value = .nan ∨ (Average.mk lockHold 0).value = .inf := by
  by_cases h0 : (lockHold : ℚ) = 0
  · left
    simp [value, Value.div, h0]
  · right
    simp [value, Value.div, h0]

/-- With two averages, one of which is positive, the index is a number. -/
theorem fairness_num {x y : ℚ} (h : x ≠ 0 ∨ y ≠ 0) :
    ∃ z, fairness (.num x) (.num y) = .num z := by
  have hsquares : 0 < roundFraction (x * x) + roundFraction (y * y) := by
    rcases h with h | h
    · exact add_pos_of_pos_of_nonneg (roundFraction_pos (mul_self_pos.2 h)) (roundFraction_nonneg _)
    · exact add_pos_of_nonneg_of_pos (roundFraction_nonneg _) (roundFraction_pos (mul_self_pos.2 h))
  have hden : roundFraction (roundFraction (roundFraction (x * x) + roundFraction (y * y)) * 2) ≠
      0 := (roundFraction_pos (mul_pos (roundFraction_pos hsquares) (by norm_num))).ne'
  simp [fairness, Value.add, Value.mul, Value.div, hden]

theorem fairness_zero : fairness (.num 0) (.num 0) = .nan := by
  simp [fairness, Value.add, Value.mul, Value.div, roundFraction]

theorem fairness_of_not_num {v w : Value} (h : (v = .nan ∨ v = .inf) ∨ w = .nan ∨ w = .inf) :
    fairness v w = .nan := by
  rcases h with (rfl | rfl) | rfl | rfl
  · simp [fairness, Value.add, Value.mul, Value.div]
  · cases w <;> simp [fairness, Value.add, Value.mul, Value.div]
  · cases v <;> simp [fairness, Value.add, Value.mul, Value.div]
  · cases v <;> simp [fairness, Value.add, Value.mul, Value.div]

theorem holdSum_eq_zero (tasks : Nat → Task) (l : List Nat) :
    holdSum tasks l = 0 ↔ ∀ i ∈ l, (tasks i).lockHold = 0 := by
  induction l using List.reverseRecOn with
  | nil => simp [holdSum]
  | append_singleton l i ih =>
    rw [holdSum_append, Double.add, round_eq_zero, Nat.add_eq_zero_iff, round_eq_zero, ih]
    simp [or_imp, forall_and]

theorem mem_below {r : Role} {i n : Nat} : i ∈ below r n ↔ i < n ∧ Role.of i = r := by
  simp [below]

/-- An average vanishes if the tasks of its group have not held the lock. -/
theorem Average.value_sums (tasks : Nat → Task) (n : Nat) (r : Role) {divisor : Nat}
    (h : 0 < divisor) : ∃ x, (Average.mk ((sums tasks n).lockHold r) divisor).value = .num x ∧
      (x = 0 ↔ ∀ i, i < n → Role.of i = r → (tasks i).lockHold = 0) := by
  obtain ⟨x, hx, hx0⟩ := Average.value_of_pos ((sums tasks n).lockHold r) h
  refine ⟨x, hx, hx0.trans ?_⟩
  rw [lockHold_sums, holdSum_eq_zero]
  simp only [mem_below, and_imp]

namespace Args

variable (a : Args) (tasks : Nat → Task)

/-- Both groups were asked for, and some task has held the lock. -/
def Measured : Prop :=
  0 < a.bullies ∧ 0 < a.victims ∧ ∃ i, i < a.taskN.toNat ∧ (tasks i).lockHold ≠ 0

variable {a tasks}

theorem values_of_pos (hb : 0 < a.bullies) (hv : 0 < a.victims) : ∃ x y,
    (a.bullyAvg tasks).value = .num x ∧ (a.victimAvg tasks).value = .num y ∧
      (x = 0 ↔ ∀ i, i < a.taskN.toNat → Role.of i = .bully → (tasks i).lockHold = 0) ∧
      (y = 0 ↔ ∀ i, i < a.taskN.toNat → Role.of i = .victim → (tasks i).lockHold = 0) := by
  obtain ⟨x, hx, hx0⟩ := Average.value_sums tasks a.taskN.toNat .bully hb
  obtain ⟨y, hy, hy0⟩ := Average.value_sums tasks a.taskN.toNat .victim hv
  rw [Sums.lockHold_bully] at hx
  rw [Sums.lockHold_victim] at hy
  rw [bullyAvg, victimAvg]
  exact ⟨x, y, hx, hy, hx0, hy0⟩

theorem Measured.fairness (h : a.Measured tasks) : ∃ z, a.fairness tasks = .num z := by
  obtain ⟨hb, hv, i, hi, hne⟩ := h
  obtain ⟨x, y, hx, hy, hx0, hy0⟩ := values_of_pos hb hv
  rw [Args.fairness, hx, hy]
  apply fairness_num
  cases hr : Role.of i with
  | bully => exact .inl fun h0 => hne (hx0.1 h0 i hi hr)
  | victim => exact .inr fun h0 => hne (hy0.1 h0 i hi hr)

theorem fairness_of_not_measured (h : ¬ a.Measured tasks) : a.fairness tasks = .nan := by
  rw [Args.fairness]
  rcases Nat.eq_zero_or_pos a.bullies with hb | hb
  · rw [bullyAvg, hb]
    exact fairness_of_not_num (.inl (Average.value_zero _))
  rcases Nat.eq_zero_or_pos a.victims with hv | hv
  · rw [victimAvg, hv]
    exact fairness_of_not_num (.inr (Average.value_zero _))
  have hnone : ∀ i, i < a.taskN.toNat → (tasks i).lockHold = 0 := by
    intro i hi
    by_contra hne
    exact h ⟨hb, hv, i, hi, hne⟩
  obtain ⟨x, y, hx, hy, hx0, hy0⟩ := values_of_pos hb hv
  rw [hx, hy, hx0.2 fun i hi _ => hnone i hi, hy0.2 fun i hi _ => hnone i hi, fairness_zero]

end Args

end Fairness

end XDir
end SynCord
