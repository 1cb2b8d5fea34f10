import SynCord.Text
import SynCord.Trace
import SynCord.XDir.Benchmark
import Mathlib.Data.BitVec
import Mathlib.Data.Finset.Basic

/-!
# SynCord.XDir.Tasks

The threads of the rename benchmark. A task creates a file, renames it into its directory and
removes it, until `stop` is set; a call that fails ends the whole process. The kernel may let any
call fail. What is asked of it is that it opens the files, and renames and removes those that are
there (`Served`). Names are drawn at random, so what is asked of a run besides is that nobody draws
a name that another task is just using (`Fresh`).

* `Clean` — what is in the directories, and in the sums of the tasks, at any time.
* `tasks_clean` — no call fails, the directories end with the files they had but for those whose
  name was drawn, and every task has the sum of its hold times and the number of its renames.
* `tasks_join` — once `stop` is set, all runs of the tasks are bounded and end with their return.
-/

namespace SynCord
namespace XDir

inductive Dir where
  | src
  | dstDirty
  | dst
  deriving DecidableEq

def Role.dir : Role → Dir
  | .bully => .dstDirty
  | .victim => .dst

/-- Where task `i` renames to. -/
def target (i : Nat) : Dir := (Role.of i).dir

abbrev Word := BitVec 64

/-- Where a task is. -/
inductive Pc where
  | check
  | create (name : Text)
  | rename (name : Text)
  | unlink (name : Text) (holdTime : Word)
  | returned

/-- A renaming that is over. -/
structure Renamed where
  task : Nat
  name : Text
  holdTime : Word

structure Proc where
  files : Dir → Finset Text
  stop : Bool
  /-- A call has failed, and `exit(1)` has been called. -/
  exited : Bool
  pc : Nat → Pc
  /-- The variable of the thread. -/
  lockHold : Nat → Word
  /-- `task->lock_hold` -/
  taskLockHold : Nat → Word
  /-- `task->runs` -/
  runs : Nat → Int
  /-- What has been done, the last one first. -/
  log : List Renamed

def Proc.start (files : Dir → Finset Text) : Proc :=
  ⟨files, false, false, fun _ => .check, fun _ => 0, fun _ => 0, fun _ => 0, []⟩

inductive Act where
  /-- `main` sets `stop`. -/
  | stop
  /-- The test of the loop, and the name that `rand_string` makes. -/
  | check (i : Nat) (name : Text)
  /-- `open` has returned a descriptor, or not. -/
  | create (i : Nat) (opened : Bool)
  /-- The kernel has renamed the file, and says how long it has held the lock, or it has not. -/
  | rename (i : Nat) (holdTime : Option Word)
  | unlink (i : Nat) (removed : Bool)

def Proc.go (s : Proc) (i : Nat) (p : Pc) : Proc := { s with pc := Function.update s.pc i p }

/-- `open` with `O_CREAT`; the file may be there. -/
def Proc.add (s : Proc) (d : Dir) (name : Text) : Proc :=
  { s with files := Function.update s.files d (insert name (s.files d)) }

def Proc.remove (s : Proc) (d : Dir) (name : Text) : Proc :=
  { s with files := Function.update s.files d ((s.files d).erase name) }

/-- A step of one of `n` tasks, or of `main`. A process that has called `exit` makes no step. -/
def step (n : Nat) (s : Proc) (a : Act) : Option Proc :=
  if s.exited then none
  else
    match a with
    | .stop => if s.stop then none else some { s with stop := true }
    | .check i name =>
      match s.pc i with
      | .check =>
        if n ≤ i then none
        else if s.stop then
          some { s.go i .returned with
            taskLockHold := Function.update s.taskLockHold i (s.lockHold i) }
        else some (s.go i (.create name))
      | _ => none
    | .create i opened =>
      match s.pc i with
      | .create name =>
        if opened then some ((s.add .src name).go i (.rename name))
        else some { s with exited := true }
      | _ => none
    | .rename i answer =>
      match s.pc i, answer with
      | .rename _, none => some { s with exited := true }
      | .rename name, some holdTime =>
        if name ∈ s.files .src then
          some (((s.remove .src name).add (target i) name).go i (.unlink name holdTime))
        else none
      | _, _ => none
    | .unlink i removed =>
      match s.pc i with
      | .unlink name holdTime =>
        if removed then
          if name ∈ s.files (target i) then
            some { (s.remove (target i) name).go i .check with
              lockHold := Function.update s.lockHold i (s.lockHold i + holdTime)
              runs := Function.update s.runs i (wrap (s.runs i + 1))
              log := ⟨i, name, holdTime⟩ :: s.log }
          else none
        else some { s with exited := true }
      | _ => none

/-- The name that a task is using. -/
def Pc.name : Pc → Option Text
  | .check | .returned => none
  | .create name | .rename name | .unlink name _ => some name

/-- The file that is there because task `i` has made it. -/
def Pc.file (i : Nat) : Pc → Option (Dir × Text)
  | .check | .create _ | .returned => none
  | .rename name => some (.src, name)
  | .unlink name _ => some (target i, name)

/-- A name that is drawn is not in use. -/
def Fresh (s : Proc) : Act → Prop
  | .check _ name => s.stop = true ∨ ∀ j, (s.pc j).name ≠ some name
  | _ => True

/-- The file system opens every file, and refuses to rename or to remove only what is not there. -/
def Served (s : Proc) : Act → Prop
  | .create _ opened => opened = true
  | .rename i none => ∀ name, s.pc i = .rename name → name ∉ s.files .src
  | .unlink i false => ∀ name holdTime, s.pc i = .unlink name holdTime → name ∉ s.files (target i)
  | _ => True

def Allowed (s : Proc) (a : Act) : Prop := Fresh s a ∧ Served s a

/-- A task that has come this far has taken the file of this name from the directory. -/
def Pc.took (d : Dir) (name : Text) (p : Pc) : Prop := d = .src ∧ ∃ h, p = .unlink name h

/-- This is a task that has had a file of this name in the directory. -/
def Renamed.took (d : Dir) (name : Text) (r : Renamed) : Prop :=
  r.name = name ∧ (d = .src ∨ target r.task = d)

/-- A file that was in the directory has been renamed or removed by a task. -/
def Gone (log : List Renamed) (pc : Nat → Pc) (d : Dir) (name : Text) : Prop :=
  (∃ r ∈ log, r.took d name) ∨ ∃ i, (pc i).took d name

/-- The hold times of task `i`. -/
def holdTimes (log : List Renamed) (i : Nat) : List Word :=
  (log.filter (·.task = i)).map (·.holdTime)

/-- What there is in a run from the directories `F`. -/
structure Clean (F : Dir → Finset Text) (s : Proc) : Prop where
  alive : s.exited = false
  distinct : ∀ i j name, (s.pc i).name = some name → (s.pc j).name = some name → i = j
  files : ∀ d name, name ∈ s.files d ↔
    (∃ i, (s.pc i).file i = some (d, name)) ∨ name ∈ F d ∧ ¬Gone s.log s.pc d name
  lockHold : ∀ i, s.lockHold i = (holdTimes s.log i).sum
  runs : ∀ i, s.runs i = wrap (holdTimes s.log i).length
  returned : ∀ i, s.pc i = .returned → s.taskLockHold i = s.lockHold i

/-! ## Steps -/

section Step

variable {F : Dir → Finset Text} {s : Proc} {i : Nat} {p : Pc}

@[simp] theorem Pc.file_check : Pc.check.file i = none := rfl
@[simp] theorem Pc.file_create (n : Text) : (Pc.create n).file i = none := rfl
@[simp] theorem Pc.file_returned : Pc.returned.file i = none := rfl
@[simp] theorem Pc.file_rename (n : Text) : (Pc.rename n).file i = some (.src, n) := rfl
@[simp] theorem Pc.file_unlink (n : Text) (h : Word) :
    (Pc.unlink n h).file i = some (target i, n) := rfl

section Took

variable {d : Dir} {name : Text}

@[simp] theorem Pc.took_check : ¬Pc.check.took d name := by simp [Pc.took]
@[simp] theorem Pc.took_create (n : Text) : ¬(Pc.create n).took d name := by simp [Pc.took]
@[simp] theorem Pc.took_returned : ¬Pc.returned.took d name := by simp [Pc.took]
@[simp] theorem Pc.took_rename (n : Text) : ¬(Pc.rename n).took d name := by simp [Pc.took]
@[simp] theorem Pc.took_unlink (n : Text) (h : Word) :
    (Pc.unlink n h).took d name ↔ d = .src ∧ n = name := by simp [Pc.took]

end Took

theorem target_ne_src (i : Nat) : target i ≠ .src := by
  rw [target]
  cases Role.of i <;> simp [Role.dir]

theorem exists_update {P : Nat → Pc → Prop} {pc : Nat → Pc} :
    (∃ j, P j (Function.update pc i p j)) ↔ P i p ∨ ∃ j, j ≠ i ∧ P j (pc j) := by
  constructor
  · rintro ⟨j, hj⟩
    by_cases h : j = i
    · subst h
      rw [Function.update_self] at hj
      exact .inl hj
    · rw [Function.update_of_ne h] at hj
      exact .inr ⟨j, h, hj⟩
  · rintro (h | ⟨j, hne, hj⟩)
    · exact ⟨i, by rwa [Function.update_self]⟩
    · exact ⟨j, by rwa [Function.update_of_ne hne]⟩

/-- A task goes on with the name it has, or with one that nobody is using. -/
theorem Clean.distinct_go (hc : Clean F s)
    (h : ∀ name, p.name = some name → (s.pc i).name = some name ∨ ∀ j, (s.pc j).name ≠ some name) :
    ∀ j k name, (Function.update s.pc i p j).name = some name →
      (Function.update s.pc i p k).name = some name → j = k := by
  intro j k name hj hk
  by_cases hji : j = i <;> by_cases hki : k = i
  · rw [hji, hki]
  · subst hji
    rw [Function.update_self] at hj
    rw [Function.update_of_ne hki] at hk
    exact (h name hj).elim (fun h => hc.distinct _ _ _ h hk) fun h => absurd hk (h k)
  · subst hki
    rw [Function.update_self] at hk
    rw [Function.update_of_ne hji] at hj
    exact (h name hk).elim (fun h => hc.distinct _ _ _ hj h) fun h => absurd hj (h j)
  · rw [Function.update_of_ne hji] at hj
    rw [Function.update_of_ne hki] at hk
    exact hc.distinct _ _ _ hj hk

theorem Clean.returned_go (hc : Clean F s) (hp : p ≠ .returned) :
    ∀ j, Function.update s.pc i p j = .returned → s.taskLockHold j = s.lockHold j := by
  intro j hj
  by_cases h : j = i
  · subst h
    rw [Function.update_self] at hj
    exact absurd hj hp
  · rw [Function.update_of_ne h] at hj
    exact hc.returned j hj

/-- The files of a task have its name. -/
theorem Pc.name_of_file {d : Dir} {name : Text} (h : p.file i = some (d, name)) :
    p.name = some name := by
  cases p <;> simp_all [Pc.file, Pc.name]

/-- No other task has a file of this name. -/
theorem Clean.no_other (hc : Clean F s) {name : Text} (hn : (s.pc i).name = some name) {d : Dir}
    {j : Nat} (hj : j ≠ i) : (s.pc j).file j ≠ some (d, name) :=
  fun h => hj (hc.distinct j i name (Pc.name_of_file h) hn)

/-- A directory after a task has gone on, from what the other tasks have there. -/
theorem mem_files_go {log : List Renamed} {pc : Nat → Pc} {fs : Dir → Finset Text}
    {F : Dir → Finset Text} {d : Dir} {name : Text} :
    (name ∈ fs d ↔ (∃ j, (Function.update pc i p j).file j = some (d, name)) ∨
      name ∈ F d ∧ ¬Gone log (Function.update pc i p) d name) ↔
    (name ∈ fs d ↔ (p.file i = some (d, name) ∨ ∃ j, j ≠ i ∧ (pc j).file j = some (d, name)) ∨
      name ∈ F d ∧ ¬((∃ r ∈ log, r.took d name) ∨ p.took d name ∨
        ∃ j, j ≠ i ∧ (pc j).took d name)) := by
  rw [Gone, exists_update (P := fun j q => q.file j = some (d, name)),
    exists_update (P := fun _ q => q.took d name)]

theorem Clean.mem_files (hc : Clean F s) (hpc : s.pc i = p) (d : Dir) (name : Text) :
    name ∈ s.files d ↔ (p.file i = some (d, name) ∨
        ∃ j, j ≠ i ∧ (s.pc j).file j = some (d, name)) ∨
      name ∈ F d ∧ ¬((∃ r ∈ s.log, r.took d name) ∨ p.took d name ∨
        ∃ j, j ≠ i ∧ (s.pc j).took d name) := by
  subst hpc
  rw [← mem_files_go, Function.update_eq_self]
  exact hc.files d name

theorem Clean.check_stop (hc : Clean F s) (hpc : s.pc i = .check) :
    Clean F { s.go i .returned with
      taskLockHold := Function.update s.taskLockHold i (s.lockHold i) } where
  alive := hc.alive
  distinct := hc.distinct_go (by simp [Pc.name])
  files := by
    intro d name
    dsimp only [Proc.go]
    rw [mem_files_go, hc.mem_files hpc]
    simp
  lockHold := hc.lockHold
  runs := hc.runs
  returned := by
    intro j hj
    by_cases h : j = i
    · subst h
      simp [Proc.go]
    · dsimp only [Proc.go] at hj ⊢
      rw [Function.update_of_ne h] at hj
      rw [Function.update_of_ne h, hc.returned j hj]

theorem Clean.check_go (hc : Clean F s) (hpc : s.pc i = .check) {name : Text}
    (hf : ∀ j, (s.pc j).name ≠ some name) : Clean F (s.go i (.create name)) where
  alive := hc.alive
  distinct := hc.distinct_go fun n hn => .inr (by cases hn; exact hf)
  files := by
    intro d n
    dsimp only [Proc.go]
    rw [mem_files_go, hc.mem_files hpc]
    simp
  lockHold := hc.lockHold
  runs := hc.runs
  returned := hc.returned_go (by simp)

theorem Clean.create (hc : Clean F s) {name : Text} (hpc : s.pc i = .create name) :
    Clean F ((s.add .src name).go i (.rename name)) where
  alive := hc.alive
  distinct := hc.distinct_go fun n hn => .inl (by rw [hpc]; exact hn)
  files := by
    intro d n
    dsimp only [Proc.go, Proc.add]
    rw [mem_files_go]
    by_cases hd : d = .src
    · subst hd
      rw [Function.update_self, Finset.mem_insert, hc.mem_files hpc]
      simp only [Pc.file_create, Pc.file_rename, Pc.took_create, Pc.took_rename, Option.some.injEq,
        Prod.mk.injEq, true_and, reduceCtorEq, false_or]
      rw [or_assoc, eq_comm]
    · rw [Function.update_of_ne hd, hc.mem_files hpc]
      simp [Ne.symm hd]
  lockHold := hc.lockHold
  runs := hc.runs
  returned := hc.returned_go (by simp)

theorem Clean.mem_own (hc : Clean F s) {d : Dir} {name : Text}
    (h : (s.pc i).file i = some (d, name)) : name ∈ s.files d :=
  (hc.files d name).2 (.inl ⟨i, h⟩)

theorem Clean.rename (hc : Clean F s) {name : Text} (hpc : s.pc i = .rename name) (h : Word) :
    Clean F (((s.remove .src name).add (target i) name).go i (.unlink name h)) where
  alive := hc.alive
  distinct := hc.distinct_go fun n hn => .inl (by rw [hpc]; exact hn)
  files := by
    intro d n
    have hn : (s.pc i).name = some name := by rw [hpc]; rfl
    dsimp only [Proc.go, Proc.add, Proc.remove]
    rw [mem_files_go]
    by_cases hd : d = .src
    · subst hd
      rw [Function.update_of_ne (target_ne_src i).symm, Function.update_self, Finset.mem_erase,
        hc.mem_files hpc]
      by_cases hnn : n = name
      · subst hnn
        have hno : ¬∃ j, j ≠ i ∧ (s.pc j).file j = some (Dir.src, n) :=
          fun ⟨j, hj, hf⟩ => hc.no_other hn hj hf
        simp [hno, target_ne_src]
      · simp [hnn, Ne.symm hnn, target_ne_src]
    · by_cases ht : d = target i
      · subst ht
        rw [Function.update_self, Function.update_of_ne hd, Finset.mem_insert, hc.mem_files hpc]
        simp only [Pc.file_rename, Pc.file_unlink, Pc.took_rename, Pc.took_unlink,
          Option.some.injEq, Prod.mk.injEq, true_and, hd, false_and, Ne.symm hd, false_or]
        rw [or_assoc, eq_comm]
      · rw [Function.update_of_ne ht, Function.update_of_ne hd, hc.mem_files hpc]
        simp [hd, Ne.symm hd, Ne.symm ht]
  lockHold := hc.lockHold
  runs := hc.runs
  returned := hc.returned_go (by simp)

theorem holdTimes_cons (r : Renamed) (log : List Renamed) (j : Nat) : holdTimes (r :: log) j =
    if r.task = j then r.holdTime :: holdTimes log j else holdTimes log j := by
  by_cases h : r.task = j <;> simp [holdTimes, h]

theorem wrap_succ (k : Nat) : wrap (wrap k + 1) = wrap (k + 1 : Nat) := by
  rw [wrap, wrap, wrap, Int.bmod_add_bmod]
  rfl

theorem Clean.unlink (hc : Clean F s) {name : Text} {h : Word} (hpc : s.pc i = .unlink name h) :
    Clean F { (s.remove (target i) name).go i .check with
      lockHold := Function.update s.lockHold i (s.lockHold i + h)
      runs := Function.update s.runs i (wrap (s.runs i + 1))
      log := ⟨i, name, h⟩ :: s.log } where
  alive := hc.alive
  distinct := hc.distinct_go (by simp [Pc.name])
  files := by
    intro d n
    have hn : (s.pc i).name = some name := by rw [hpc]; rfl
    dsimp only [Proc.go, Proc.remove]
    rw [mem_files_go, List.exists_mem_cons_iff]
    by_cases ht : d = target i
    · subst ht
      rw [Function.update_self, Finset.mem_erase, hc.mem_files hpc]
      by_cases hnn : n = name
      · subst hnn
        have hno : ¬∃ j, j ≠ i ∧ (s.pc j).file j = some (target i, n) :=
          fun ⟨j, hj, hf⟩ => hc.no_other hn hj hf
        simp [Renamed.took, hno]
      · simp [Renamed.took, hnn, Ne.symm hnn]
    · rw [Function.update_of_ne ht, hc.mem_files hpc]
      by_cases hd : d = .src
      · subst hd
        simp only [Pc.file_unlink, Pc.file_check, Pc.took_unlink, Pc.took_check, Renamed.took,
          Option.some.injEq, Prod.mk.injEq, Ne.symm ht, false_and, true_and, true_or, and_true,
          reduceCtorEq, false_or]
        rw [or_assoc, or_left_comm]
      · simp [Renamed.took, hd, Ne.symm ht]
  lockHold := by
    intro j
    dsimp only
    rw [holdTimes_cons]
    by_cases hj : j = i
    · subst hj
      rw [Function.update_self, if_pos rfl, List.sum_cons, hc.lockHold, BitVec.add_comm]
    · rw [Function.update_of_ne hj, if_neg (Ne.symm hj), hc.lockHold]
  runs := by
    intro j
    dsimp only
    rw [holdTimes_cons]
    by_cases hj : j = i
    · subst hj
      rw [Function.update_self, if_pos rfl, List.length_cons, hc.runs, wrap_succ]
    · rw [Function.update_of_ne hj, if_neg (Ne.symm hj), hc.runs]
  returned := by
    intro j hj
    by_cases hji : j = i
    · subst hji
      simp [Proc.go] at hj
    · dsimp only [Proc.go] at hj ⊢
      rw [Function.update_of_ne hji] at hj ⊢
      exact hc.returned j hj

theorem clean_start (F : Dir → Finset Text) : Clean F (.start F) where
  alive := rfl
  distinct := fun i j name h => by cases h
  files := by simp [Proc.start, Gone]
  lockHold := fun _ => rfl
  runs := fun _ => by simp [Proc.start, holdTimes, wrap]
  returned := fun i h => by cases h

/-- The steps by which no call fails. -/
inductive Tr (n : Nat) (s : Proc) : Act → Proc → Prop where
  | stop : s.stop = false → Tr n s .stop { s with stop := true }
  | leave {i name} : s.pc i = .check → i < n → s.stop = true →
      Tr n s (.check i name) { s.go i .returned with
        taskLockHold := Function.update s.taskLockHold i (s.lockHold i) }
  | draw {i name} : s.pc i = .check → i < n → s.stop = false →
      Tr n s (.check i name) (s.go i (.create name))
  | create {i name} : s.pc i = .create name →
      Tr n s (.create i true) ((s.add .src name).go i (.rename name))
  | rename {i name} (h : Word) : s.pc i = .rename name →
      Tr n s (.rename i (some h)) (((s.remove .src name).add (target i) name).go i (.unlink name h))
  | unlink {i name h} : s.pc i = .unlink name h →
      Tr n s (.unlink i true) { (s.remove (target i) name).go i .check with
        lockHold := Function.update s.lockHold i (s.lockHold i + h)
        runs := Function.update s.runs i (wrap (s.runs i + 1))
        log := ⟨i, name, h⟩ :: s.log }

variable {n : Nat} {a : Act} {s' : Proc}

/-- What a task needs is there, so no call fails. -/
theorem Clean.tr (hc : Clean F s) (hs : Served s a) (h : step n s a = some s') : Tr n s a s' := by
  have hal : ¬s.exited = true := by simp [hc.alive]
  cases a with
  | stop =>
    simp only [step, if_neg hal] at h
    split_ifs at h with hs
    cases h
    exact .stop (by simpa using hs)
  | check i name =>
    simp only [step, if_neg hal] at h
    split at h
    · rename_i hpc
      split_ifs at h with hi hs
      · cases h
        exact .leave hpc (Nat.lt_of_not_le hi) hs
      · cases h
        exact .draw hpc (Nat.lt_of_not_le hi) (by simpa using hs)
    · cases h
  | create i opened =>
    obtain rfl : opened = true := hs
    simp only [step, if_neg hal] at h
    split at h
    · rename_i hpc
      cases h
      exact .create hpc
    · cases h
  | rename i answer =>
    simp only [step, if_neg hal] at h
    split at h
    · rename_i name hpc
      exact absurd (hc.mem_own (by rw [hpc]; rfl)) (hs name hpc)
    · rename_i name holdTime hpc
      rw [if_pos (hc.mem_own (by rw [hpc]; rfl))] at h
      cases h
      exact .rename holdTime hpc
    · cases h
  | unlink i removed =>
    simp only [step, if_neg hal] at h
    split at h
    · rename_i name holdTime hpc
      have hmem : name ∈ s.files (target i) := hc.mem_own (by rw [hpc]; rfl)
      cases removed with
      | false => exact absurd hmem (hs name holdTime hpc)
      | true =>
        rw [if_pos rfl, if_pos hmem] at h
        cases h
        exact .unlink hpc
    · cases h

theorem Clean.step (hc : Clean F s) (hf : Allowed s a) (h : step n s a = some s') :
    Clean F s' := by
  cases hc.tr hf.2 h with
  | stop => exact ⟨hc.alive, hc.distinct, hc.files, hc.lockHold, hc.runs, hc.returned⟩
  | leave hpc => exact hc.check_stop hpc
  | draw hpc _ hs => exact hc.check_go hpc (hf.1.resolve_left (by simp [hs]))
  | create hpc => exact hc.create hpc
  | rename _ hpc => exact hc.rename hpc _
  | unlink hpc => exact hc.unlink hpc

/-- The tasks that there are not. -/
def Beyond (n : Nat) (s : Proc) : Prop := ∀ i, n ≤ i → s.pc i = .check

theorem Tr.beyond (h : Tr n s a s') (hb : Beyond n s) : Beyond n s' := by
  have key : ∀ {i p}, (s.pc i = .check → i < n) → Beyond n (s.go i p) := by
    intro i p hi j hj
    have hne : j ≠ i := by
      rintro rfl
      exact absurd (hi (hb j hj)) (by omega)
    show Function.update s.pc i p j = .check
    rw [Function.update_of_ne hne, hb j hj]
  cases h with
  | stop => exact hb
  | leave _ hi => exact key fun _ => hi
  | draw _ hi => exact key fun _ => hi
  | create hpc => exact key fun h => by rw [hpc] at h; cases h
  | rename _ hpc => exact key fun h => by rw [hpc] at h; cases h
  | unlink hpc => exact key fun h => by rw [hpc] at h; cases h

end Step

/-! ## Runs -/

theorem reach_clean {F : Dir → Finset Text} {n : Nat} {s : Proc}
    (h : Reach (step n) Allowed (.start F) s) : Clean F s ∧ Beyond n s := by
  refine h.invariant (P := fun s => Clean F s ∧ Beyond n s) ⟨clean_start F, fun _ _ => rfl⟩ ?_
  rintro s a s' ⟨hc, hb⟩ hf hs
  exact ⟨hc.step hf hs, (hc.tr hf.2 hs).beyond hb⟩

/-- The directories when all tasks have returned. -/
theorem Clean.files_end {F : Dir → Finset Text} {n : Nat} {s : Proc} (hc : Clean F s)
    (hb : Beyond n s) (hret : ∀ i, i < n → s.pc i = .returned) (d : Dir) (name : Text) :
    name ∈ s.files d ↔
      name ∈ F d ∧ ∀ r ∈ s.log, r.name = name → d ≠ .src ∧ target r.task ≠ d := by
  have hpc : ∀ i, (s.pc i).file i = none ∧ ¬(s.pc i).took d name := by
    intro i
    rcases Nat.lt_or_ge i n with hi | hi
    · simp [hret i hi]
    · simp [hb i hi]
  rw [hc.files, Gone]
  simp [hpc, Renamed.took]

/-- If no name is drawn that is in use, and the file system refuses nothing but what is not there,
no call fails. When all tasks have returned, a directory has the files it had, but for those with
the name of a file that was renamed from it or into it, and every task has its sum and its
number. -/
theorem tasks_clean {F : Dir → Finset Text} {n : Nat} {s : Proc}
    (h : Reach (step n) Allowed (.start F) s) :
    s.exited = false ∧ ((∀ i, i < n → s.pc i = .returned) →
      (∀ d name, name ∈ s.files d ↔ name ∈ F d ∧ ∀ r ∈ s.log, r.name = name →
        d ≠ .src ∧ target r.task ≠ d) ∧
      ∀ i, i < n → s.taskLockHold i = (holdTimes s.log i).sum ∧
        s.runs i = wrap (holdTimes s.log i).length) := by
  obtain ⟨hc, hb⟩ := reach_clean h
  refine ⟨hc.alive, fun hret => ⟨hc.files_end hb hret, fun i hi => ?_⟩⟩
  exact ⟨(hc.returned i (hret i hi)).trans (hc.lockHold i), hc.runs i⟩

theorem step_rename {n i : Nat} {s : Proc} {name : Text} (hal : s.exited = false)
    (hpc : s.pc i = .rename name) (hm : name ∈ s.files .src) (h : Word) :
    step n s (.rename i (some h)) =
      some (((s.remove .src name).add (target i) name).go i (.unlink name h)) := by
  simp only [step, hpc, if_pos hm, hal, Bool.false_eq_true, if_false]

theorem step_unlink {n i : Nat} {s : Proc} {name : Text} {h : Word} (hal : s.exited = false)
    (hpc : s.pc i = .unlink name h) (hm : name ∈ s.files (target i)) :
    step n s (.unlink i true) = some { (s.remove (target i) name).go i .check with
      lockHold := Function.update s.lockHold i (s.lockHold i + h)
      runs := Function.update s.runs i (wrap (s.runs i + 1))
      log := ⟨i, name, h⟩ :: s.log } := by
  simp only [step, hpc, if_pos hm, hal, Bool.false_eq_true, if_false, if_true]

/-- A bully and a victim, each of which renames one file while the other one has its own. -/
theorem reach_pair (F : Dir → Finset Text) : ∃ s : Proc, Reach (step 2) Allowed (.start F) s ∧
    (∀ i, i < 2 → s.pc i = .returned) ∧ s.log = [⟨1, ['v'], 7⟩, ⟨0, ['b'], 5⟩] := by
  have h₁ : Reach (step 2) Allowed (.start F) _ :=
    Reach.start.next (a := Act.check 0 ['b'])
      ⟨.inr fun j => by simp [Proc.start, Pc.name], trivial⟩ rfl
  have h₂ := h₁.next (a := Act.check 1 ['v']) ⟨.inr fun j => by
    by_cases hj : j = 0 <;> simp [Proc.start, Proc.go, Pc.name, hj], trivial⟩ rfl
  have h₃ := h₂.next (a := Act.create 0 true) ⟨trivial, rfl⟩ rfl
  have h₄ := h₃.next (a := Act.create 1 true) ⟨trivial, rfl⟩ rfl
  have h₅ := h₄.next (a := Act.rename 1 (some 7)) ⟨trivial, trivial⟩
    (step_rename rfl rfl (by simp [Proc.add, Proc.go]) 7)
  have h₆ := h₅.next (a := Act.rename 0 (some 5)) ⟨trivial, trivial⟩
    (step_rename rfl rfl (by simp [Proc.add, Proc.remove, Proc.go, target, Role.of, Role.dir]) 5)
  have h₇ := h₆.next (a := Act.unlink 0 true) ⟨trivial, trivial⟩
    (step_unlink rfl rfl (by simp [Proc.add, Proc.go]))
  have h₈ := h₇.next (a := Act.unlink 1 true) ⟨trivial, trivial⟩
    (step_unlink rfl rfl (by simp [Proc.add, Proc.remove, Proc.go, target, Role.of, Role.dir]))
  have h₉ := h₈.next (a := Act.stop) ⟨trivial, trivial⟩ rfl
  have h₁₀ := h₉.next (a := Act.check 0 []) ⟨.inl rfl, trivial⟩ rfl
  have h₁₁ := h₁₀.next (a := Act.check 1 []) ⟨.inl rfl, trivial⟩ rfl
  refine ⟨_, h₁₁, fun i hi => ?_, rfl⟩
  obtain rfl | rfl : i = 0 ∨ i = 1 := by omega
  · rfl
  · rfl

theorem tasks_clean_pair : ∃ s : Proc, Reach (step 2) Allowed (.start fun _ => ∅) s ∧
    s.exited = false ∧ (∀ d, s.files d = ∅) ∧ s.taskLockHold 0 = 5 ∧ s.runs 0 = 1 ∧
      s.taskLockHold 1 = 7 ∧ s.runs 1 = 1 := by
  obtain ⟨s, h, hret, hlog⟩ := reach_pair fun _ => ∅
  obtain ⟨halive, hend⟩ := tasks_clean h
  obtain ⟨hfiles, htask⟩ := hend hret
  obtain ⟨hhold, hruns⟩ := htask 0 (by omega)
  obtain ⟨hhold', hruns'⟩ := htask 1 (by omega)
  rw [hlog] at hhold hruns hhold' hruns'
  exact ⟨s, h, halive, fun d => by ext name; simp [hfiles], hhold, hruns, hhold', hruns'⟩

/-- The steps that a task has still to make when `stop` is set. -/
def Pc.work : Pc → Nat
  | .returned => 0
  | .check => 1
  | .unlink _ _ => 2
  | .rename _ => 3
  | .create _ => 4

/-- One task comes nearer to its end. -/
theorem Tr.work_lt {n : Nat} {s s' : Proc} {a : Act} (h : Tr n s a s') (hb : Beyond n s)
    (hs : s.stop = true) : s'.stop = true ∧
      ∃ i ∈ Finset.range n, (∀ j, j ≠ i → s'.pc j = s.pc j) ∧ (s'.pc i).work < (s.pc i).work := by
  have hlt : ∀ {i}, s.pc i ≠ .check → i ∈ Finset.range n := by
    intro i hi
    by_contra hn
    exact hi (hb i (by simpa using hn))
  cases h with
  | stop hf => simp [hs] at hf
  | draw _ _ hf => simp [hs] at hf
  | @leave i _ hpc hi =>
    exact ⟨hs, i, Finset.mem_range.2 hi, fun j hj => by simp [Proc.go, hj],
      by simp [Proc.go, hpc, Pc.work]⟩
  | @create i _ hpc =>
    exact ⟨hs, i, hlt (by simp [hpc]), fun j hj => by simp [Proc.go, Proc.add, hj],
      by simp [Proc.go, hpc, Pc.work]⟩
  | @rename i _ _ hpc =>
    exact ⟨hs, i, hlt (by simp [hpc]), fun j hj => by simp [Proc.go, Proc.add, Proc.remove, hj],
      by simp [Proc.go, hpc, Pc.work]⟩
  | @unlink i _ _ hpc =>
    exact ⟨hs, i, hlt (by simp [hpc]), fun j hj => by simp [Proc.go, Proc.remove, hj],
      by simp [Proc.go, hpc, Pc.work]⟩

/-- A task that has not returned can make a step. -/
theorem returned_of_stuck {n : Nat} {s : Proc} (hal : s.exited = false)
    (h : ∀ a, Served s a → step n s a = none) {i : Nat} (hi : i < n) : s.pc i = .returned := by
  have hi' : ¬n ≤ i := Nat.not_le.2 hi
  cases hpc : s.pc i with
  | returned => rfl
  | check =>
    have := h (.check i []) trivial
    simp only [step, hal, hpc, if_neg hi', Bool.false_eq_true, if_false] at this
    split at this <;> cases this
  | create name =>
    have := h (.create i true) rfl
    simp [step, hal, hpc] at this
  | rename name =>
    by_cases hm : name ∈ s.files .src
    · have := h (.rename i (some 0)) trivial
      simp [step, hal, hpc, hm] at this
    · have := h (.rename i none) fun other ho => by
        rw [hpc] at ho
        cases ho
        exact hm
      simp [step, hal, hpc] at this
  | unlink name holdTime =>
    by_cases hm : name ∈ s.files (target i)
    · have := h (.unlink i true) trivial
      simp [step, hal, hpc, hm] at this
    · have := h (.unlink i false) fun other t ho => by
        rw [hpc] at ho
        cases ho
        exact hm
      simp [step, hal, hpc] at this

/-- Once `stop` is set, `pthread_join` returns for every task. -/
theorem tasks_join {F : Dir → Finset Text} {n : Nat} {s : Proc}
    (h : Reach (step n) Allowed (.start F) s) (hs : s.stop = true) :
    Drains (step n) Served (fun s => ∀ i, i < n → s.pc i = .returned) s := by
  obtain ⟨hc, hb⟩ := reach_clean h
  refine drains (I := fun s => Clean F s ∧ Beyond n s ∧ s.stop = true)
    (fun s => ∑ i ∈ Finset.range n, (s.pc i).work) ⟨hc, hb, hs⟩ ?_ ?_
  · rintro s a s' ⟨hc, hb, hs⟩ hserved hstep
    have htr := hc.tr hserved hstep
    have hf : Fresh s a := by cases a <;> simp [Fresh, hs]
    obtain ⟨hs', i, hi, hframe, hlt⟩ := htr.work_lt hb hs
    refine ⟨⟨hc.step ⟨hf, hserved⟩ hstep, htr.beyond hb, hs'⟩, ?_⟩
    have hsum := sum_frame hi (f := fun j => (s.pc j).work) (g := fun j => (s'.pc j).work)
      fun j hj => by rw [hframe j hj]
    omega
  · rintro s ⟨hc, hb, hs⟩ hstuck i hi
    exact returned_of_stuck hc.alive hstuck hi

/-- One task has drawn a name, and another one has a file. -/
theorem tasks_join_drawn : ∃ s : Proc, s.stop = true ∧ s.pc 0 = .create ['b'] ∧
    s.pc 1 = .rename ['v'] ∧
      Drains (step 2) Served (fun s => ∀ i, i < 2 → s.pc i = .returned) s := by
  have h₁ : Reach (step 2) Allowed (.start fun _ => ∅) _ :=
    Reach.start.next (a := Act.check 0 ['b'])
      ⟨.inr fun j => by simp [Proc.start, Pc.name], trivial⟩ rfl
  have h₂ := h₁.next (a := Act.check 1 ['v']) ⟨.inr fun j => by
    by_cases hj : j = 0 <;> simp [Proc.start, Proc.go, Pc.name, hj], trivial⟩ rfl
  have h₃ := h₂.next (a := Act.create 1 true) ⟨trivial, rfl⟩ rfl
  have h₄ := h₃.next (a := Act.stop) ⟨trivial, trivial⟩ rfl
  exact ⟨_, rfl, rfl, rfl, tasks_join h₄ rfl⟩

end XDir
end SynCord
