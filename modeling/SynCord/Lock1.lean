import SynCord.Flow

/-!
# SynCord.Lock1

`lock1.patch` takes `files->file_lock` with `my_bpf_spin_lock` instead of `spin_lock` in every
function that it rewrites. Each function is a graph of blocks, with the control flow that the
hunks show; the code between the hunks is hidden, and the same in both versions. A branch is left
out if no arm of it takes or releases the lock or leaves.

* `trace_original_balanced` — in the original code the lock is never taken twice or released while
  it is free, and it is held at the end of a function as the callers expect.
* `keeps_locking_iff` — the patched code does the same on a path exactly if the path does not go
  through the `if (files)` of `proc_fd_link`, where the patch adds an unlock and keeps the old
  one.
-/

namespace SynCord
namespace Lock1

open SynCord.Flow (Control Exit Choice Visit walk)

/-- Whose `file_lock` it is. -/
inductive Lock where
  | files
  | oldf
  | currentFiles
  deriving DecidableEq

inductive Call where
  | spinLock (x : Lock)
  | spinUnlock (x : Lock)
  /-- The policy is `num_policy` in every call. -/
  | myBpfSpinLock (x : Lock)
  | myBpfSpinUnlock (x : Lock)
  deriving DecidableEq

inductive Op where
  | lock (x : Lock)
  | unlock (x : Lock)
  deriving DecidableEq

def Call.read : Call → Op
  | .spinLock x => .lock x
  | .spinUnlock x => .unlock x
  | .myBpfSpinLock x => .lock x
  | .myBpfSpinUnlock x => .unlock x

/-! ## The functions -/

inductive Region where
  | expandFdtable
  | expandFiles
  | dupFd
  | allocFd
  | putUnusedFd
  | fdInstall
  | closeFd
  | closeFdGetFile
  | doCloseOnExec
  | setCloseOnExec
  | doDup2
  | replaceFd
  | ksysDup3
  | iterateFd
  | fcntlSetlk
  | fcntlSetlk64
  | seqShow
  | procFdLink
  | bpfTaskFdQuery
  | kcmpEpollTarget
  deriving DecidableEq

inductive Version where
  | original
  | patched
  deriving DecidableEq

structure Block where
  calls : List Call
  next : Control Region

/-- A line that the patch replaces. -/
def lock (x : Lock) : Version → Call
  | .original => .spinLock x
  | .patched => .myBpfSpinLock x

def unlock (x : Lock) : Version → Call
  | .original => .spinUnlock x
  | .patched => .myBpfSpinUnlock x

/-- The two functions differ in what they return. -/
def closeBlocks (v : Version) : List Block :=
  [⟨[lock .files v], .branch 3 1⟩,
    ⟨[], .hidden [.block 2, .block 3]⟩,
    ⟨[unlock .files v], .ret⟩,
    -- out_unlock:
    ⟨[unlock .files v], .ret⟩]

def setlkBlocks (v : Version) : List Block :=
  [⟨[], .hidden [.block 1, .leave]⟩,
    ⟨[lock .currentFiles v, unlock .currentFiles v], .hidden [.leave]⟩]

def code (v : Version) : Region → List Block
  | .expandFdtable =>
    [⟨[unlock .files v], .hidden [.block 1]⟩,
      -- if (!new_fdt)
      ⟨[lock .files v], .branch 2 3⟩,
      ⟨[], .ret⟩,
      ⟨[], .hidden [.leave]⟩]
  | .expandFiles =>
    -- The label `repeat` is in the hidden part.
    [⟨[], .hidden [.block 1, .leave]⟩,
      -- if (unlikely(files->resize_in_progress))
      ⟨[], .branch 2 3⟩,
      ⟨[unlock .files v, lock .files v], .jump 0⟩,
      ⟨[], .hidden [.leave]⟩]
  | .dupFd =>
    [⟨[], .hidden [.block 1, .leave]⟩,
      ⟨[lock .oldf v], .jump 2⟩,
      -- while (unlikely(open_files > new_fdt->max_fds))
      ⟨[], .branch 3 5⟩,
      ⟨[unlock .oldf v], .hidden [.block 4, .leave]⟩,
      ⟨[lock .oldf v], .jump 2⟩,
      ⟨[], .hidden [.block 6]⟩,
      ⟨[unlock .oldf v], .hidden [.leave]⟩]
  | .allocFd =>
    [⟨[lock .files v], .jump 1⟩,
      -- repeat:
      ⟨[], .hidden [.block 1, .block 2]⟩,
      -- out:
      ⟨[unlock .files v], .ret⟩]
  | .putUnusedFd => [⟨[lock .files v, unlock .files v], .ret⟩]
  | .fdInstall =>
    -- if (unlikely(files->resize_in_progress))
    [⟨[], .branch 1 2⟩,
      ⟨[lock .files v, unlock .files v], .ret⟩,
      ⟨[], .hidden [.leave]⟩]
  | .closeFd => closeBlocks v
  | .closeFdGetFile => closeBlocks v
  | .doCloseOnExec =>
    [⟨[lock .files v], .jump 1⟩,
      -- The heads of both loops are hidden.
      ⟨[], .hidden [.block 2, .block 3]⟩,
      ⟨[unlock .files v, lock .files v], .jump 1⟩,
      ⟨[unlock .files v], .ret⟩]
  | .setCloseOnExec => [⟨[lock .files v, unlock .files v], .ret⟩]
  | .doDup2 =>
    [⟨[], .hidden [.block 1, .block 2]⟩,
      ⟨[unlock .files v], .ret⟩,
      -- Ebusy:
      ⟨[unlock .files v], .ret⟩]
  | .replaceFd =>
    [⟨[], .hidden [.block 1, .leave]⟩,
      -- if (fd >= rlimit(RLIMIT_NOFILE))
      ⟨[], .branch 2 3⟩,
      ⟨[], .ret⟩,
      ⟨[lock .files v], .call .expandFiles 4⟩,
      -- if (unlikely(err < 0))
      ⟨[], .branch 7 5⟩,
      ⟨[], .call .doDup2 6⟩,
      ⟨[], .ret⟩,
      -- out_unlock:
      ⟨[unlock .files v], .ret⟩]
  | .ksysDup3 =>
    [⟨[], .hidden [.block 1, .leave]⟩,
      -- if (newfd >= rlimit(RLIMIT_NOFILE))
      ⟨[], .branch 2 3⟩,
      ⟨[], .ret⟩,
      ⟨[lock .files v], .call .expandFiles 4⟩,
      ⟨[], .hidden [.block 5, .leave]⟩,
      -- out_unlock:
      ⟨[unlock .files v], .ret⟩]
  | .iterateFd =>
    -- if (!files)
    [⟨[], .branch 1 2⟩,
      ⟨[], .ret⟩,
      ⟨[lock .files v], .jump 3⟩,
      -- n < fdt->max_fds
      ⟨[], .branch 4 6⟩,
      ⟨[], .hidden [.block 3, .block 5]⟩,
      -- if (res) break;
      ⟨[], .branch 6 3⟩,
      ⟨[unlock .files v], .ret⟩]
  | .fcntlSetlk => setlkBlocks v
  | .fcntlSetlk64 => setlkBlocks v
  | .seqShow =>
    [⟨[], .hidden [.block 1, .leave]⟩,
      -- if (files)
      ⟨[], .branch 2 4⟩,
      ⟨[lock .files v], .hidden [.block 3]⟩,
      ⟨[unlock .files v], .jump 4⟩,
      ⟨[], .hidden [.leave]⟩]
  | .procFdLink =>
    [⟨[], .hidden [.block 1, .block 2, .leave]⟩,
      -- if (files). The line with `spin_unlock` is kept.
      ⟨[lock .files v] ++ (if v = .patched then [.myBpfSpinUnlock .files] else []) ++
        [.spinUnlock .files], .jump 2⟩,
      ⟨[], .hidden [.leave]⟩]
  | .bpfTaskFdQuery =>
    -- Only the white space changes.
    [⟨[], .hidden [.block 1, .leave]⟩,
      ⟨[.spinLock .files, .spinUnlock .files], .hidden [.leave]⟩]
  | .kcmpEpollTarget =>
    [⟨[], .hidden [.block 1, .leave]⟩,
      -- if (!files)
      ⟨[], .branch 2 3⟩,
      ⟨[], .ret⟩,
      ⟨[lock .files v, unlock .files v], .hidden [.leave]⟩]

def shape (v : Version) (r : Region) : List (Control Region) := (code v r).map Block.next

abbrev Path := List (Choice Op)

def visits (v : Version) (r : Region) (path : Path) : List (Visit Region Op) :=
  (walk (shape v) [(r, 0)] path).1

/-- The function has returned. -/
def Finished (v : Version) (r : Region) (path : Path) : Prop :=
  (walk (shape v) [(r, 0)] path).2 = []

def callsAt (v : Version) (r : Region) (k : Nat) : List Call :=
  ((code v r)[k]?.map Block.calls).getD []

/-- What a visit does with the lock. -/
def ops (v : Version) : Visit Region Op → List Op
  | .block r k => (callsAt v r k).map Call.read
  | .hidden _ _ ops _ => ops

/-- The sequence of acquire and release operations along a path. -/
def trace (v : Version) (r : Region) (path : Path) : List Op := (visits v r path).flatMap (ops v)

/-! ## The lock -/

inductive Effect where
  | preemptDisable
  | preemptEnable
  | acquire
  | release
  deriving DecidableEq

def bpfArchSpinLock : List Effect := [.acquire]

def bpfArchSpinUnlock : List Effect := [.release]

def bpfDoRawSpinLock : List Effect := bpfArchSpinLock

def bpfDoRawSpinUnlock : List Effect := bpfArchSpinUnlock

def bpfRawSpinLock : List Effect := .preemptDisable :: bpfDoRawSpinLock

def bpfRawSpinUnlock : List Effect := bpfDoRawSpinUnlock ++ [.preemptEnable]

/-- What `spin_lock` and `spin_unlock` of the kernel do. -/
def Op.effects : Op → List Effect
  | .lock _ => [.preemptDisable, .acquire]
  | .unlock _ => [.release, .preemptEnable]

def Call.effects : Call → List Effect
  | .spinLock x => (Op.lock x).effects
  | .spinUnlock x => (Op.unlock x).effects
  | .myBpfSpinLock _ => bpfRawSpinLock
  | .myBpfSpinUnlock _ => bpfRawSpinUnlock

def effectsOf (v : Version) : Visit Region Op → List Effect
  | .block r k => (callsAt v r k).flatMap Call.effects
  | .hidden _ _ ops _ => ops.flatMap Op.effects

def effects (v : Version) (r : Region) (path : Path) : List Effect :=
  (visits v r path).flatMap (effectsOf v)

structure State where
  held : Bool
  preempt : Nat
  deriving DecidableEq

/-- There is no next state if the lock is released while it is free, and none if it is taken by who
holds it. -/
def State.run (s : State) : Effect → Option State
  | .preemptDisable => some { s with preempt := s.preempt + 1 }
  | .preemptEnable => if s.preempt = 0 then none else some { s with preempt := s.preempt - 1 }
  | .acquire => if s.held then none else some { s with held := true }
  | .release => if s.held then some { s with held := false } else none

/-- `base` is the preempt count without the lock. -/
def State.of (base : Nat) (held : Bool) : State := ⟨held, base + held.toNat⟩

/-- Whether the lock is held at the beginning of a block. -/
def heldList : Region → List Bool
  | .expandFdtable => [true, false, true, true]
  | .expandFiles => [true, true, true, true]
  | .dupFd => [false, false, true, true, false, true, true]
  | .allocFd => [false, true, true]
  | .closeFd | .closeFdGetFile => [false, true, true, true]
  | .doCloseOnExec => [false, true, true, true]
  | .doDup2 => [true, true, true]
  | .replaceFd => [false, false, false, false, true, true, false, true]
  | .ksysDup3 => [false, false, false, false, true, true]
  | .iterateFd => [false, false, false, true, true, true, true]
  | .seqShow => [false, false, false, true, false]
  | _ => []

def held (r : Region) (k : Nat) : Bool := (heldList r).getD k false

def Region.entry (r : Region) : Bool := held r 0

/-- Whether the lock is held when the function returns. -/
def Region.exit : Region → Bool
  | .expandFdtable => true
  | .expandFiles => true
  | _ => false

theorem exit_eq (r : Region) : r.exit = if r = .doDup2 then false else r.entry := by
  cases r <;> rfl

def heldAfter (r : Region) (k : Nat) : Bool :=
  match ((callsAt .original r k).map Call.read).getLast? with
  | none => held r k
  | some (.lock _) => true
  | some (.unlock _) => false

def Op.run : Bool → Op → Option Bool
  | false, .lock _ => some true
  | true, .unlock _ => some false
  | _, _ => none

/-- The hidden code leaves the lock as the code expects it where it goes on. -/
def Tidy (r : Region) (path : Path) : Prop :=
  ∀ v ∈ visits .original r path, Flow.Tidy held Region.exit Op.run (ops .original) heldAfter v

/-- The same operations in the same order; and, if the hidden code does its part, the lock is not
released while it is free, and it is held in the end as in the beginning, with the preempt count
that belongs to it. Only `do_dup2` is to release the lock that its caller has taken. -/
structure Keeps (r : Region) (path : Path) : Prop where
  same : trace .patched r path = trace .original r path
  balanced : Tidy r path → ∀ base, ∃ s,
    (effects .patched r path).foldlM State.run (.of base r.entry) = some s ∧
      (Finished .patched r path → s = .of base (if r = .doDup2 then false else r.entry))

/-! ## The original code -/

theorem effects_read (c : Call) : c.effects = c.read.effects := by
  cases c <;> rfl

theorem effectsOf_eq (v : Version) (visit : Visit Region Op) :
    effectsOf v visit = (ops v visit).flatMap Op.effects := by
  cases visit with
  | hidden _ _ ops _ => rfl
  | block r k =>
    rw [effectsOf, ops, List.flatMap_map]
    exact List.flatMap_congr fun c _ => effects_read c

theorem effects_eq (v : Version) (r : Region) (path : Path) :
    effects v r path = (trace v r path).flatMap Op.effects := by
  rw [effects, trace, List.flatMap_assoc]
  exact List.flatMap_congr fun visit _ => effectsOf_eq v visit

theorem op_effects (base : Nat) {b b' : Bool} {o : Op} (h : o.run b = some b') :
    o.effects.foldlM State.run (.of base b) = some (.of base b') := by
  cases b <;> cases o <;> cases h <;> rfl

theorem ops_effects (base : Nat) {b b' : Bool} {l : List Op} (h : l.foldlM Op.run b = some b') :
    (l.flatMap Op.effects).foldlM State.run (.of base b) = some (.of base b') := by
  induction l generalizing b with
  | nil =>
    cases h
    rfl
  | cons o l ih =>
    rw [List.foldlM_cons] at h
    obtain ⟨b₁, hb₁, h⟩ := Option.bind_eq_some_iff.1 h
    rw [List.flatMap_cons, List.foldlM_append, op_effects base hb₁]
    exact ih h

theorem block_held (r : Region) : ∀ k < (shape .original r).length,
    Flow.Runs Op.run (ops .original) (held r k) (.block r k) (heldAfter r k) := by
  cases r <;> simp only [Flow.Runs] <;> decide

theorem block_leads (r : Region) : ∀ k (hk : k < (shape .original r).length),
    Flow.Leads held Region.exit r (heldAfter r k) (shape .original r)[k] := by
  cases r <;> decide

theorem trace_original_balanced {r : Region} {path : Path} (h : Tidy r path) :
    ∃ b, (trace .original r path).foldlM Op.run r.entry = some b ∧
      (Finished .original r path → b = r.exit) := by
  have hfits : Flow.Fits held Region.exit r.exit r.entry [(r, 0)] := ⟨rfl, rfl⟩
  obtain ⟨b, hb, hend⟩ := Flow.walk_fits block_held block_leads path hfits h
  refine ⟨b, hb, fun hfin => ?_⟩
  rw [show (walk (shape .original) [(r, 0)] path).2 = [] from hfin] at hend
  exact hend

/-! ## The patched code -/

theorem shape_patched : shape .patched = shape .original := by
  funext r
  cases r <;> rfl

theorem visits_patched (r : Region) (path : Path) :
    visits .patched r path = visits .original r path := by
  rw [visits, visits, shape_patched]

def reads (v : Version) (r : Region) : List (List Op) :=
  (code v r).map fun b => b.calls.map Call.read

theorem ops_block (v : Version) (r : Region) (k : Nat) :
    ops v (.block r k) = (reads v r)[k]?.getD [] := by
  rw [ops, callsAt, reads, List.getElem?_map]
  cases (code v r)[k]? <;> rfl

theorem reads_patched {r : Region} (h : r ≠ .procFdLink) :
    reads .patched r = reads .original r := by
  cases r <;> first | rfl | exact absurd rfl h

/-- The block with two unlocks is the only one that differs. -/
theorem ops_patched (visit : Visit Region Op) :
    (ops .patched visit = ops .original visit ↔ visit ≠ .block .procFdLink 1) ∧
      (ops .patched visit = ops .original visit ∨
        (ops .original visit).length < (ops .patched visit).length) := by
  cases visit with
  | hidden _ _ _ _ => simp [ops]
  | block r k =>
    by_cases hr : r = .procFdLink
    · subst hr
      match k with
      | 0 => simp [ops, callsAt, code]
      | 1 => simp [ops, callsAt, code, lock, Call.read]
      | 2 => simp [ops, callsAt, code]
      | k + 3 => simp [ops, callsAt, code]
    · simp [ops_block, reads_patched hr, hr]

theorem trace_eq_iff (r : Region) (path : Path) :
    trace .patched r path = trace .original r path ↔
      .block .procFdLink 1 ∉ visits .patched r path := by
  rw [trace, trace, visits_patched, Flow.flatMap_eq_iff fun visit => (ops_patched visit).2]
  constructor
  · intro h hmem
    exact (ops_patched _).1.1 (h _ hmem) rfl
  · intro h visit hmem
    exact (ops_patched visit).1.2 fun heq => h (heq ▸ hmem)

theorem keeps_locking_iff (r : Region) (path : Path) :
    Keeps r path ↔ .block .procFdLink 1 ∉ visits .patched r path := by
  rw [← trace_eq_iff]
  refine ⟨Keeps.same, fun hsame => ⟨hsame, fun htidy base => ?_⟩⟩
  obtain ⟨b, hb, hend⟩ := trace_original_balanced htidy
  refine ⟨.of base b, ?_, fun hfin => ?_⟩
  · rw [effects_eq, hsame]
    exact ops_effects base hb
  · rw [hend (by rwa [Finished, ← shape_patched]), exit_eq]

/-- The task has files, and nothing fails. -/
def throughIf : Path := [.hidden [] (.block 1), .go, .hidden [] .leave]

/-- The lock is released while it is free. -/
theorem keeps_locking_procFdLink :
    trace .original .procFdLink throughIf = [.lock .files, .unlock .files] ∧
    trace .patched .procFdLink throughIf = [.lock .files, .unlock .files, .unlock .files] ∧
    (effects .patched .procFdLink throughIf).foldlM State.run (.of 0 false) = none ∧
    ¬ Keeps .procFdLink throughIf := by
  refine ⟨by decide, by decide, by decide, fun h => ?_⟩
  exact absurd h.same (by decide)

end Lock1
end SynCord
