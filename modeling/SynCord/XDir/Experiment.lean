import SynCord.XDir.Plot
import SynCord.XDir.Tasks
import Mathlib.Algebra.Order.BigOperators.Group.List
import Mathlib.Algebra.Order.Ring.Nat
import Mathlib.Data.Finset.Card

/-!
# SynCord.XDir.Experiment

`run_bench.py` around the benchmark: two directories are made empty, the third one gets as many
files as were asked for, or loses what it has too many. The benchmark then works in them, and
`plot.py` reads what it has printed.

* `prepareDir_eq` — where the script gets through, and that the third directory then has exactly
  the number of files that was asked for.
* `experiment_repeats` — an experiment leaves the directories as it has found them, and preparing
  them for the next one changes nothing.
* `experiment_plotted` — what is plotted is what the tasks have done.
-/

namespace SynCord
namespace XDir

/-- The names in a directory, and which of them are directories. -/
@[ext]
structure Folder where
  entries : Finset Text
  folders : Finset Text
  sub : folders ⊆ entries

def Folder.empty : Folder := ⟨∅, ∅, Finset.Subset.refl _⟩

/-- What a path leads to. -/
inductive Node where
  | file
  | folder (f : Folder)

structure Disk where
  /-- `./temp` is there. -/
  temp : Bool
  node : Dir → Option Node

/-- What the script gets from outside: random names, and the order in which `os.listdir` names what
is in a directory. -/
structure Env where
  rand : Nat → Text
  listdir : Finset Text → List Text
  listdir_nodup : ∀ entries, (listdir entries).Nodup
  mem_listdir : ∀ entries name, name ∈ listdir entries ↔ name ∈ entries

/-- A directory cannot be opened for writing. -/
def touch (f : Folder) (name : Text) : Option Folder :=
  if name ∈ f.folders then none
  else some ⟨insert name f.entries, f.folders, f.sub.trans (Finset.subset_insert ..)⟩

/-- `os.remove`, which does not remove directories. -/
def remove (f : Folder) (name : Text) : Option Folder :=
  if h : name ∈ f.folders then none
  else some ⟨f.entries.erase name, f.folders, Finset.subset_erase.2 ⟨f.sub, h⟩⟩

/-- `touch`, for the next `k` random names. -/
def touchAll (rand : Nat → Text) (f : Folder) (k : Nat) : Option Folder :=
  (List.range k).foldlM (fun f j => touch f (rand j)) f

def removeAll (f : Folder) (names : List Text) : Option Folder := names.foldlM remove f

/-- `none` is an exception that nobody catches: there is no `./temp`, or there is a file where a
directory should be, or a directory among the files. -/
def mkdir (env : Env) (disk : Disk) (dir : Dir) (numFiles : Nat) : Option Folder :=
  if disk.temp = false then none
  else
    match disk.node dir with
    | none => if numFiles = 0 then some .empty else touchAll env.rand .empty numFiles
    | some .file => none
    | some (.folder f) =>
      if numFiles = 0 then some .empty
      else if f.entries.card = numFiles then some f
      else if f.entries.card < numFiles then touchAll env.rand f (numFiles - f.entries.card)
      else removeAll f ((env.listdir f.entries).take (f.entries.card - numFiles))

def prepareDir (env : Env) (disk : Disk) (numFiles : Nat) : Option (Dir → Folder) := do
  let src ← mkdir env disk .src 0
  let dst ← mkdir env disk .dst 0
  let dstDirty ← mkdir env disk .dstDirty numFiles
  some fun
    | .src => src
    | .dst => dst
    | .dstDirty => dstDirty

/-- The directories are there or can be made, and the third one has files only. -/
structure Usable (disk : Disk) : Prop where
  temp : disk.temp = true
  not_file : ∀ d, disk.node d ≠ some .file
  files : ∀ f, disk.node .dstDirty = some (.folder f) → f.folders = ∅

/-- No random name comes twice, or is that of a file in the third directory. -/
structure NewNames (env : Env) (disk : Disk) (k : Nat) : Prop where
  inj : ∀ a b, a < k → b < k → env.rand a = env.rand b → a = b
  new : ∀ f, disk.node .dstDirty = some (.folder f) → ∀ a, a < k → env.rand a ∉ f.entries

section Files

variable {env : Env} {f : Folder} {k n : Nat}

/-- In a directory without directories every name can be touched. -/
theorem touchAll_eq {rand : Nat → Text} (hf : f.folders = ∅)
    (hinj : ∀ a b, a < k → b < k → rand a = rand b → a = b)
    (hnew : ∀ a, a < k → rand a ∉ f.entries) :
    ∃ g, touchAll rand f k = some g ∧ g.folders = ∅ ∧ g.entries.card = f.entries.card + k ∧
      ∀ name, name ∈ g.entries ↔ name ∈ f.entries ∨ ∃ a, a < k ∧ rand a = name := by
  induction k with
  | zero => exact ⟨f, rfl, hf, rfl, fun name => by simp⟩
  | succ k ih =>
    obtain ⟨g, hg, hfolders, hcard, hmem⟩ :=
      ih (fun a b ha hb => hinj a b (by omega) (by omega)) fun a ha => hnew a (by omega)
    have hk : rand k ∉ g.entries := by
      rw [hmem]
      rintro (h | ⟨a, ha, he⟩)
      · exact hnew k (by omega) h
      · have := hinj a k (by omega) (by omega) he
        omega
    have htouch : touch g (rand k) = some ⟨insert (rand k) g.entries, g.folders,
        g.sub.trans (Finset.subset_insert ..)⟩ := if_neg (by simp [hfolders])
    refine ⟨⟨insert (rand k) g.entries, g.folders, g.sub.trans (Finset.subset_insert ..)⟩, ?_,
      hfolders, ?_, fun name => ?_⟩
    · rw [touchAll] at hg ⊢
      rw [List.range_succ, List.foldlM_append, hg]
      simpa using htouch
    · rw [Finset.card_insert_of_notMem hk, hcard]
      omega
    · rw [Finset.mem_insert, hmem]
      constructor
      · rintro (rfl | h | ⟨a, ha, rfl⟩)
        · exact .inr ⟨k, by omega, rfl⟩
        · exact .inl h
        · exact .inr ⟨a, by omega, rfl⟩
      · rintro (h | ⟨a, ha, rfl⟩)
        · exact .inr (.inl h)
        · by_cases hak : a = k
          · exact .inl (by rw [hak])
          · exact .inr (.inr ⟨a, by omega, rfl⟩)

theorem removeAll_eq {names : List Text} (hf : f.folders = ∅) (hnd : names.Nodup)
    (hmem : ∀ x ∈ names, x ∈ f.entries) :
    ∃ g, removeAll f names = some g ∧ g.folders = ∅ ∧
      g.entries.card = f.entries.card - names.length := by
  induction names generalizing f with
  | nil => exact ⟨f, rfl, hf, rfl⟩
  | cons x names ih =>
    obtain ⟨hx, hnd⟩ := List.nodup_cons.1 hnd
    have hxf := hmem x (by simp)
    have hno : x ∉ f.folders := by simp [hf]
    let f' : Folder := ⟨f.entries.erase x, f.folders, Finset.subset_erase.2 ⟨f.sub, hno⟩⟩
    have hrest : ∀ y ∈ names, y ∈ f'.entries := by
      intro y hy
      refine Finset.mem_erase.2 ⟨?_, hmem y (by simp [hy])⟩
      rintro rfl
      exact hx hy
    obtain ⟨g, hg, hfolders, hcard⟩ := ih (f := f') hf hnd hrest
    have hremove : remove f x = some f' := dif_neg hno
    refine ⟨g, ?_, hfolders, ?_⟩
    · rw [removeAll, List.foldlM_cons, hremove]
      exact hg
    · rw [hcard, List.length_cons, Finset.card_erase_of_mem hxf]
      omega

theorem length_listdir (env : Env) (entries : Finset Text) :
    (env.listdir entries).length = entries.card := by
  rw [← List.toFinset_card_of_nodup (env.listdir_nodup entries)]
  congr 1
  ext name
  rw [List.mem_toFinset, env.mem_listdir]

end Files

section Prepare

variable {env : Env} {disk : Disk} {n : Nat}

theorem mkdir_zero (h : Usable disk) (d : Dir) : mkdir env disk d 0 = some .empty := by
  have hd := h.not_file d
  simp only [mkdir, h.temp, Bool.true_eq_false, if_false, if_true]
  cases hn : disk.node d with
  | none => rfl
  | some node =>
    cases node with
    | file => exact absurd hn hd
    | folder f => rfl

/-- The directory gets the number of files that was asked for, whatever was in it. -/
theorem mkdir_eq (h : Usable disk) (hnew : NewNames env disk n) :
    ∃ g, mkdir env disk .dstDirty n = some g ∧ g.folders = ∅ ∧ g.entries.card = n := by
  by_cases hn : n = 0
  · subst hn
    exact ⟨.empty, mkdir_zero h _, rfl, rfl⟩
  · simp only [mkdir, h.temp, Bool.true_eq_false, if_false]
    cases hnode : disk.node .dstDirty with
    | none =>
      obtain ⟨g, hg, hfolders, hcard, -⟩ :=
        touchAll_eq (f := .empty) rfl hnew.inj (by simp [Folder.empty])
      exact ⟨g, by simp [hn, hg], hfolders, by simpa [Folder.empty] using hcard⟩
    | some node =>
      cases node with
      | file => exact absurd hnode (h.not_file _)
      | folder f =>
        have hf := h.files f hnode
        simp only [if_neg hn]
        split_ifs with heq hlt
        · exact ⟨f, rfl, hf, heq⟩
        · obtain ⟨g, hg, hfolders, hcard, -⟩ := touchAll_eq hf
            (fun a b ha hb => hnew.inj a b (by omega) (by omega))
            fun a (ha : a < n - f.entries.card) => hnew.new f hnode a (by omega)
          exact ⟨g, hg, hfolders, by omega⟩
        · obtain ⟨g, hg, hfolders, hcard⟩ := removeAll_eq hf
            ((env.listdir_nodup f.entries).sublist (List.take_sublist (f.entries.card - n) _))
            fun x hx => (env.mem_listdir f.entries x).1 (List.mem_of_mem_take hx)
          rw [List.length_take, length_listdir] at hcard
          exact ⟨g, hg, hfolders, by omega⟩

theorem prepareDir_eq (h : Usable disk) (hnew : NewNames env disk n) :
    ∃ F, prepareDir env disk n = some F ∧ (∀ d, (F d).folders = ∅) ∧ (F .src).entries = ∅ ∧
      (F .dst).entries = ∅ ∧ (F .dstDirty).entries.card = n := by
  obtain ⟨g, hg, hfolders, hcard⟩ := mkdir_eq h hnew
  refine ⟨_, by rw [prepareDir, mkdir_zero h, mkdir_zero h, hg]; rfl, fun d => ?_, rfl, rfl, hcard⟩
  cases d with
  | src | dst => rfl
  | dstDirty => exact hfolders

/-- What is as it should be is left so. -/
theorem prepareDir_again {F : Dir → Folder} (hnode : ∀ d, disk.node d = some (.folder (F d)))
    (htemp : disk.temp = true) (hsrc : F .src = .empty) (hdst : F .dst = .empty)
    (hcard : (F .dstDirty).entries.card = n) : prepareDir env disk n = some F := by
  have hdirty : mkdir env disk .dstDirty n = some (F .dstDirty) := by
    simp only [mkdir, htemp, hnode, Bool.true_eq_false, if_false]
    split_ifs with hn
    · rw [hn, Finset.card_eq_zero] at hcard
      have hfolders : (F .dstDirty).folders = ∅ :=
        Finset.subset_empty.1 (hcard ▸ (F .dstDirty).sub)
      exact congrArg some (Folder.ext hcard.symm hfolders.symm)
    · rfl
  have hempty : ∀ d, mkdir env disk d 0 = some .empty := by
    intro d
    simp [mkdir, htemp, hnode]
  rw [prepareDir, hempty, hempty, hdirty]
  simp only [Option.bind_eq_bind, Option.bind_some, Option.some.injEq]
  funext d
  cases d with
  | src => exact hsrc.symm
  | dst => exact hdst.symm
  | dstDirty => rfl

end Prepare

/-- What the benchmark leaves behind. -/
def diskAfter (s : Proc) : Disk :=
  ⟨true, fun d => some (.folder ⟨s.files d, ∅, Finset.empty_subset _⟩)⟩

/-- The records that `main` reads after the last `pthread_join`. -/
structure Joined (n : Nat) (s : Proc) (tasks : Nat → Task) : Prop where
  returned : ∀ i, i < n → s.pc i = .returned
  lockHold : ∀ i, i < n → (tasks i).lockHold = (s.taskLockHold i).toNat
  runs : ∀ i, i < n → ((tasks i).runs : Int) = s.runs i

/-- No task has renamed too often for its `int`, or had the lock held for too long for its
`uint64_t`. -/
structure FieldsHold (n : Nat) (log : List Renamed) : Prop where
  runs : ∀ i, i < n → (holdTimes log i).length < 2147483648
  lockHold : ∀ i, i < n → ((holdTimes log i).map BitVec.toNat).sum < 18446744073709551616

/-- The renamings into a directory. -/
def into (d : Dir) (log : List Renamed) : List Renamed := log.filter fun r => target r.task = d

/-- How long the lock was held for them. -/
def heldFor (log : List Renamed) : Nat := (log.map fun r => r.holdTime.toNat).sum

/-- What the benchmark prints for these arguments. -/
def Args.printout (a : Args) (tasks : Nat → Task) (negative : Bool)
    (ops bullyOps victimOps : Printed) : Text :=
  XDir.printout tasks a.taskN.toNat
    (Tail.lines ⟨printed negative (a.fairness tasks), ops, bullyOps, victimOps⟩)

section Plotted

variable {n : Nat} {s : Proc} {tasks : Nat → Task} {log : List Renamed}

theorem toNat_sum_of_lt {l : List Word} (h : (l.map BitVec.toNat).sum < 18446744073709551616) :
    l.sum.toNat = (l.map BitVec.toNat).sum := by
  induction l with
  | nil => rfl
  | cons x l ih =>
    rw [List.map_cons, List.sum_cons] at h ⊢
    rw [List.sum_cons, BitVec.toNat_add, ih (by omega)]
    exact Nat.mod_eq_of_lt h

theorem log_lt {F : Dir → Finset Text} (h : Reach (step n) Allowed (.start F) s) :
    ∀ r ∈ s.log, r.task < n := by
  induction h with
  | start => simp [Proc.start]
  | next hr ha hs ih =>
    obtain ⟨hc, hb⟩ := reach_clean hr
    cases hc.tr ha.2 hs with
    | stop | leave | draw | create | rename => exact ih
    | @unlink i _ _ hpc =>
      intro r hr
      rcases List.mem_cons.1 hr with rfl | hr
      · by_contra hi
        have := hb i (Nat.not_lt.1 hi)
        rw [hpc] at this
        cases this
      · exact ih r hr

theorem sum_filter_cons (w : Renamed → Nat) {i : Nat} {l : List Nat} (hi : i ∉ l) :
    ((log.filter (·.task ∈ i :: l)).map w).sum =
      ((log.filter (·.task = i)).map w).sum + ((log.filter (·.task ∈ l)).map w).sum := by
  induction log with
  | nil => rfl
  | cons r log ih =>
    by_cases hr : r.task = i
    · have hl : r.task ∉ l := hr ▸ hi
      simp only [List.filter_cons, hr, hi, List.mem_cons, true_or, decide_true, decide_false,
        if_true, Bool.false_eq_true, if_false, List.map_cons, List.sum_cons] at ih ⊢
      omega
    · by_cases hl : r.task ∈ l
      · simp only [List.filter_cons, hr, hl, List.mem_cons, false_or, decide_true, decide_false,
          if_true, Bool.false_eq_true, if_false, List.map_cons, List.sum_cons] at ih ⊢
        omega
      · simpa only [List.filter_cons, hr, hl, List.mem_cons, or_self, decide_false,
          Bool.false_eq_true, if_false] using ih

/-- Summing up task by task is summing up what all of them have done. -/
theorem sum_tasks (log : List Renamed) (w : Renamed → Nat) {l : List Nat} (hl : l.Nodup) :
    (l.map fun i => ((log.filter (·.task = i)).map w).sum).sum =
      ((log.filter (·.task ∈ l)).map w).sum := by
  induction l with
  | nil => simp
  | cons i l ih =>
    obtain ⟨hi, hl⟩ := List.nodup_cons.1 hl
    rw [sum_filter_cons w hi, ← ih hl, List.map_cons, List.sum_cons]

theorem total_eq_sum (f : Nat → Nat) (l : List Nat) : total f l = (l.map f).sum := by
  induction l with
  | nil => rfl
  | cons i l ih => rw [List.map_cons, List.sum_cons, ← ih]; rfl

theorem filter_below (hlog : ∀ r ∈ log, r.task < n) (r : Role) :
    log.filter (·.task ∈ below r n) = into r.dir log := by
  refine List.filter_congr fun x hx => ?_
  have hdir : Role.of x.task = r ↔ target x.task = r.dir := by
    rw [target]
    cases Role.of x.task <;> cases r <;> simp [Role.dir]
  simp [mem_below, hlog x hx, hdir]

section Joined

variable {F : Dir → Finset Text} (hj : Joined n s tasks) (hf : FieldsHold n s.log) (hc : Clean F s)
include hj hf hc

theorem Joined.lockHold_eq {i : Nat} (hi : i < n) :
    (tasks i).lockHold = heldFor (s.log.filter (·.task = i)) := by
  rw [hj.lockHold i hi, hc.returned i (hj.returned i hi), hc.lockHold i,
    toNat_sum_of_lt (hf.lockHold i hi), holdTimes, List.map_map]
  rfl

theorem Joined.runs_eq {i : Nat} (hi : i < n) :
    (tasks i).runs = (s.log.filter (·.task = i)).length := by
  have hruns : ((tasks i).runs : Int) = (holdTimes s.log i).length := by
    rw [hj.runs i hi, hc.runs i, wrap_of_lt (hf.runs i hi)]
  rw [holdTimes, List.length_map] at hruns
  exact Int.natCast_inj.1 hruns

/-- What a group of tasks has printed, added up. -/
theorem Joined.totals (hlog : ∀ r ∈ s.log, r.task < n) (r : Role) :
    total (fun i => (tasks i).runs) (below r n) = (into r.dir s.log).length ∧
      total (fun i => (tasks i).lockHold) (below r n) = heldFor (into r.dir s.log) := by
  have hlt : ∀ i ∈ below r n, i < n := fun i hi => (mem_below.1 hi).1
  rw [← filter_below hlog r, total_eq_sum, total_eq_sum]
  constructor
  · have hone := sum_tasks s.log (fun _ => 1) (nodup_below r n)
    simp only [List.map_const', List.sum_replicate, nsmul_eq_mul, Nat.cast_id, Nat.mul_one] at hone
    rw [← hone]
    exact congrArg List.sum (List.map_congr_left fun i hi => hj.runs_eq hf hc (hlt i hi))
  · rw [heldFor, ← sum_tasks _ _ (nodup_below r n)]
    exact congrArg List.sum (List.map_congr_left fun i hi => hj.lockHold_eq hf hc (hlt i hi))

/-- Some task has held the lock if there is any time to be printed. -/
theorem Joined.exists_held (hlog : ∀ r ∈ s.log, r.task < n) :
    (∃ i, i < n ∧ (tasks i).lockHold ≠ 0) ↔ heldFor s.log ≠ 0 := by
  constructor
  · rintro ⟨i, hi, hne⟩ h0
    rw [hj.lockHold_eq hf hc hi] at hne
    have hle : heldFor (s.log.filter (·.task = i)) ≤ heldFor s.log :=
      (List.filter_sublist.map _).sum_le_sum fun _ _ => Nat.zero_le _
    omega
  · intro hne
    by_contra hno
    push Not at hno
    refine hne (List.sum_eq_zero fun x hx => ?_)
    obtain ⟨r, hr, rfl⟩ := List.mem_map.1 hx
    have hzero := hno r.task (hlog r hr)
    rw [hj.lockHold_eq hf hc (hlog r hr), heldFor] at hzero
    have hmem : r.holdTime.toNat ∈
        (s.log.filter (·.task = r.task)).map fun r => r.holdTime.toNat :=
      List.mem_map.2 ⟨r, List.mem_filter.2 ⟨hr, by simp⟩, rfl⟩
    have := List.le_sum_of_mem hmem
    omega

end Joined

end Plotted

/-- After an experiment `plot.py` reads how many files have been renamed into each of the two
directories, and how long the lock was held for that, if there is a fairness to be read; otherwise
the benchmark has computed no number, and the script fails. The fairness is computed from the same
times, if the sums of them are exact in double precision. -/
theorem experiment_plotted {F : Dir → Finset Text} {a : Args} {s : Proc} {tasks : Nat → Task}
    (h : Reach (step a.taskN.toNat) Allowed (.start F) s) (hj : Joined a.taskN.toNat s tasks)
    (hf : FieldsHold a.taskN.toNat s.log) (negative : Bool) (ops bullyOps victimOps : Printed) :
    (0 < a.bullies → 0 < a.victims → heldFor s.log ≠ 0 → ∃ fairness,
      printed negative (a.fairness tasks) = .finite fairness ∧
      parse (a.printout tasks negative ops bullyOps victimOps) = some
        { bullyThroughput := (into .dstDirty s.log).length
          victimThroughput := (into .dst s.log).length
          fairness := some fairness.digits
          bullyHoldtime := heldFor (into .dstDirty s.log)
          victimHoldtime := heldFor (into .dst s.log) }) ∧
    (a.bullies = 0 ∨ a.victims = 0 ∨ heldFor s.log = 0 → a.fairness tasks = .nan ∧
      parse (a.printout tasks negative ops bullyOps victimOps) = none) ∧
    ∀ r : Role,
      (ExactSums tasks (below r a.taskN.toNat) →
        (sums tasks a.taskN.toNat).lockHold r = heldFor (into r.dir s.log)) ∧
      ((into r.dir s.log).length < 2147483648 →
        (sums tasks a.taskN.toNat).runs r = (into r.dir s.log).length) := by
  obtain ⟨hc, -⟩ := reach_clean h
  have hlog := log_lt h
  have htotals := hj.totals hf hc hlog
  have hheld := hj.exists_held hf hc hlog
  refine ⟨fun hb hv hne => ?_, fun hno => ?_, fun r => ⟨fun hexact => ?_, fun hlt => ?_⟩⟩
  · obtain ⟨z, hz⟩ := Args.Measured.fairness ⟨hb, hv, hheld.2 hne⟩
    refine ⟨_, by rw [hz]; rfl, ?_⟩
    have hbully := htotals .bully
    have hvictim := htotals .victim
    simp only [Role.dir] at hbully hvictim
    rw [Args.printout, hz, parse_printout]
    simp only [printed, evenBelow, oddBelow, hbully.1, hbully.2, hvictim.1, hvictim.2]
  · have hnan : a.fairness tasks = .nan := by
      refine Args.fairness_of_not_measured ?_
      rintro ⟨hb, hv, hm⟩
      have hne := hheld.1 hm
      omega
    refine ⟨hnan, ?_⟩
    rw [Args.printout, hnan, parse_printout]
    rfl
  · rw [lockHold_sums, holdSum_of_exact hexact, (htotals r).2]
  · rw [runs_sums, (htotals r).1, wrap_of_lt hlt]

theorem one_lt_int : 1 < 2147483648 := by decide

theorem five_lt_word : 5 < 18446744073709551616 := by decide

theorem seven_lt_word : 7 < 18446744073709551616 := by decide

/-- `./benchmark src dst_dirty dst 60 1 1` -/
def oneEach : Args := ⟨1, 1, one_lt_int, one_lt_int⟩

def pairTasks (i : Nat) : Task :=
  if i = 0 then ⟨5, 1, five_lt_word, one_lt_int⟩ else ⟨7, 1, seven_lt_word, one_lt_int⟩

theorem experiment_plotted_pair : ∃ s : Proc,
    Reach (step 2) Allowed (.start fun _ => ∅) s ∧ s.log = [⟨1, ['v'], 7⟩, ⟨0, ['b'], 5⟩] ∧
    parse (oneEach.printout pairTasks true (.finite oneFixed) (.finite oneFixed)
      (.finite oneFixed)) = some ⟨1, 1, some "0.972973".toList, 5, 7⟩ := by
  obtain ⟨s, h, hret, hlog⟩ := reach_pair fun _ => ∅
  obtain ⟨hc, -⟩ := reach_clean h
  have hj : Joined 2 s pairTasks := by
    refine ⟨hret, fun i hi => ?_, fun i hi => ?_⟩
    · rw [hc.returned i (hret i hi), hc.lockHold, hlog]
      obtain rfl | rfl : i = 0 ∨ i = 1 := by omega
      · rfl
      · rfl
    · rw [hc.runs, hlog]
      obtain rfl | rfl : i = 0 ∨ i = 1 := by omega
      · rfl
      · rfl
  have hf : FieldsHold 2 s.log := by
    rw [hlog]
    refine ⟨fun i hi => ?_, fun i hi => ?_⟩ <;> obtain rfl | rfl : i = 0 ∨ i = 1 := by omega
    all_goals decide
  have hn : oneEach.taskN.toNat = 2 := by decide
  rw [← hn] at h hj hf
  have hheld : heldFor s.log ≠ 0 := by
    rw [hlog]
    decide
  obtain ⟨fairness, hfair, hparse⟩ := (experiment_plotted h hj hf true (.finite oneFixed)
    (.finite oneFixed) (.finite oneFixed)).1 (by decide) (by decide) hheld
  have hvalue : printed true (oneEach.fairness pairTasks) =
      .finite ⟨false, 0, 972973, by decide⟩ := by decide +kernel
  obtain rfl := Printed.finite.inj (hvalue.symm.trans hfair)
  rw [hn] at h
  rw [hlog] at hparse
  exact ⟨s, h, hlog, hparse⟩

end XDir
end SynCord
