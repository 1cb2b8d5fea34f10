import SynCord.Access
import SynCord.Trace
import SynCord.Lockstat.Summary

/-!
# SynCord.Lockstat.Fine

The programs of `lockstat` access by access. They take no lock of their own: the acquired and the
release program of a lock run while the lock is held, and the contended program runs in a CPU that
waits for it, at any time. So a wait counts up `contentions` between the accesses of others that do
the same, and everything else is written by the holder, or by the CPU whose mark it is.

* `exec_hook` — the code of a program, without others in between, does what the hook does.
* `hooks_atomic` — whatever the interleaving, when no program is running the entry and the record
  are those of hooks that run one at a time, in the order in which the programs ended. Only
  `contentions` can be less, by the counts that were lost.
-/

namespace SynCord
namespace Lockstat
namespace Fine

open Summary

variable {NCPU : Nat}

/-! ## Cells -/

/-- The fields of the entry of a lock, of its `data_t` and of its `per_lock_data`. -/
inductive Cell (NCPU : Nat) where
  | prevCpu
  | contentions
  | conBounces
  | waitMin
  | waitMax
  | waitTotal
  | acquisitions
  | acqBounces
  | holdMin
  | holdMax
  | holdTotal
  | holdStart
  | mark (c : Fin NCPU)
  deriving DecidableEq

abbrev Mem (NCPU : Nat) := Cell NCPU → Word

def cells (d : Data) (p : PerLockData NCPU) : Mem NCPU
  | .prevCpu => d.prevCpu
  | .contentions => d.contentions
  | .conBounces => d.conBounces
  | .waitMin => d.waittime.min
  | .waitMax => d.waittime.max
  | .waitTotal => d.waittime.total
  | .acquisitions => d.acquisitions
  | .acqBounces => d.acqBounces
  | .holdMin => d.holdtime.min
  | .holdMax => d.holdtime.max
  | .holdTotal => d.holdtime.total
  | .holdStart => p.holdStart
  | .mark c => p.perCpuData c

abbrev Prog (NCPU : Nat) := Code (Cell NCPU) Word

/-! ## Programs -/

/-- `*a += v` -/
def add (a : Cell NCPU) (v : Word) : Prog NCPU := .load a fun x => .store a (x + v) .ret

/-- `*a = *a == 0 || *a > t ? t : *a` -/
def lower (a : Cell NCPU) (t : Word) : Prog NCPU :=
  .load a fun x =>
    if x = 0 then .store a t .ret
    else .load a fun x => if x > t then .store a t .ret else .load a fun x => .store a x .ret

/-- `*a = *a < t ? t : *a` -/
def raise (a : Cell NCPU) (t : Word) : Prog NCPU :=
  .load a fun x => if x < t then .store a t .ret else .load a fun x => .store a x .ret

def addTime (total min max : Cell NCPU) (t : Word) : Prog NCPU :=
  (add total t).seq ((lower min t).seq (raise max t))

/-- `if (args->per_cpu_data != 0)` -/
def ifMarked (c : Fin NCPU) (k : Prog NCPU) : Prog NCPU :=
  .load (.mark c) fun x => if x ≠ 0 then k else .ret

/-- The entry has been found. The clock will say `now` and `now'`. -/
def customLockAcquired (c : Fin NCPU) (now now' : Word) : Prog NCPU :=
  (add .acquisitions 1).seq <|
  (ifMarked c <| .load (.mark c) fun x =>
    addTime .waitTotal .waitMin .waitMax (now - x)).seq <|
  .store .holdStart now' <|
  (Code.load .prevCpu fun x =>
    if x ≠ cpuWord c then (add .acqBounces 1).seq (ifMarked c (add .conBounces 1))
    else .ret).seq <|
  .store .prevCpu (cpuWord c) <|
  .store (.mark c) 0 .ret

def customLockToRelease (now : Word) : Prog NCPU :=
  .load .holdStart fun x => addTime .holdTotal .holdMin .holdMax (now - x)

def customToEnterSlowPath (c : Fin NCPU) (now : Word) : Prog NCPU :=
  (add .contentions 1).seq (.store (.mark c) now .ret)

/-- A run of a program, with what the clock says. -/
inductive Hook where
  | slowpath (now : Word)
  | acquired (now now' : Word)
  | release (now : Word)

def Hook.code (c : Fin NCPU) : Hook → Prog NCPU
  | .slowpath now => customToEnterSlowPath c now
  | .acquired now now' => customLockAcquired c now now'
  | .release now => customLockToRelease now

def Hook.event (L : Word) (c : Fin NCPU) : Hook → Event NCPU
  | .slowpath now => .slowpath L c now
  | .acquired now now' => .acquired L c now now'
  | .release now => .release L c now

/-! ## Without others -/

section Exec

variable (m : Mem NCPU) (a : Cell NCPU) (t : Word)

@[simp] theorem exec_add : (add a t).exec m = Function.update m a (m a + t) := rfl

@[simp] theorem exec_lower : (lower a t).exec m =
    Function.update m a (if m a = 0 ∨ m a > t then t else m a) := by
  by_cases h0 : m a = 0#64
  · simp [lower, Code.exec, h0]
  · by_cases ht : m a > t <;> simp [lower, Code.exec, h0, ht]

@[simp] theorem exec_raise : (raise a t).exec m =
    Function.update m a (if m a < t then t else m a) := by
  by_cases h : m a < t <;> simp [raise, Code.exec, h]

@[simp] theorem exec_ifMarked (c : Fin NCPU) (k : Prog NCPU) :
    (ifMarked c k).exec m = if m (.mark c) ≠ 0 then k.exec m else m := by
  by_cases h : m (.mark c) = 0#64 <;> simp [ifMarked, Code.exec, h]

end Exec

/-- The entry after a hook on the lock. -/
def Hook.data (c : Fin NCPU) (d : Data) (p : PerLockData NCPU) : Hook → Data
  | .slowpath _ => { d with contentions := d.contentions + 1 }
  | .acquired now _ => d.acquired (p.perCpuData c) now (cpuWord c)
  | .release now => { d with holdtime := d.holdtime.add (now - p.holdStart) }

/-- The record after it. -/
def Hook.record (c : Fin NCPU) (p : PerLockData NCPU) : Hook → PerLockData NCPU
  | .slowpath now => { p with perCpuData := Function.update p.perCpuData c now }
  | .acquired _ now' => ⟨Function.update p.perCpuData c 0, now'⟩
  | .release _ => p

theorem exec_hook (c : Fin NCPU) (d : Data) (p : PerLockData NCPU) (h : Hook) :
    (h.code c).exec (cells d p) = cells (h.data c d p) (h.record c p) := by
  funext x
  cases h with
  | slowpath now =>
    cases x <;> simp [Hook.code, customToEnterSlowPath, Hook.data, Hook.record, Code.exec, cells,
      Function.update_apply]
  | release now =>
    cases x <;> simp [Hook.code, customLockToRelease, Hook.data, Hook.record, Code.exec, cells,
      addTime, TimeStat.add]
  | acquired now now' =>
    rw [Hook.data, Data.acquired_eq]
    by_cases hm : p.perCpuData c = 0#64 <;> by_cases hp : d.prevCpu = cpuWord c <;>
      cases x <;> simp [Hook.code, customLockAcquired, Hook.record, Code.exec, cells,
      addTime, TimeStat.add, Function.update_apply, hm, hp]

/-! ## Interleavings -/

/-- What a CPU is doing with the lock. A running hook still has the rest of its program to do. -/
inductive Phase (NCPU : Nat) where
  | idle
  | waiting
  | held
  | running (h : Hook) (rest : Prog NCPU)

namespace Phase

/-- The CPU has the lock. -/
def inside : Phase NCPU → Bool
  | .idle | .waiting | .running (.slowpath _) _ => false
  | .held | .running (.acquired _ _) _ | .running (.release _) _ => true

def quiet : Phase NCPU → Bool
  | .running _ _ => false
  | _ => true

def rest : Phase NCPU → Prog NCPU
  | .running _ rest => rest
  | _ => .ret

def whole (c : Fin NCPU) : Phase NCPU → Prog NCPU
  | .running h _ => h.code c
  | _ => .ret

end Phase

/-- No program is running, and at most one CPU has the lock. -/
structure Between (phase : Fin NCPU → Phase NCPU) : Prop where
  quiet : ∀ c, (phase c).quiet = true
  alone : ∀ c c', (phase c).inside = true → (phase c').inside = true → c = c'

def Hook.next : Hook → Phase NCPU
  | .slowpath _ => .waiting
  | .acquired _ _ => .held
  | .release _ => .idle

structure State (NCPU : Nat) where
  mem : Mem NCPU
  phase : Fin NCPU → Phase NCPU
  /-- The hooks that are over, the last one first. -/
  log : List (Event NCPU)

namespace State

def start (m : Mem NCPU) (phase : Fin NCPU → Phase NCPU) : State NCPU := ⟨m, phase, []⟩

def go (s : State NCPU) (c : Fin NCPU) (ph : Phase NCPU) : State NCPU :=
  { s with phase := Function.update s.phase c ph }

end State

/-- What a CPU can begin with next. -/
def Phase.admits : Phase NCPU → Hook → Bool
  | .idle, .slowpath _ | .idle, .acquired _ _ | .waiting, .acquired _ _ | .held, .release _ => true
  | _, _ => false

def Hook.takesLock : Hook → Bool
  | .acquired _ _ => true
  | _ => false

/-- A CPU begins with a program, does one access, or is at the end of it. -/
inductive Act (NCPU : Nat) where
  | enter (c : Fin NCPU) (h : Hook)
  | access (c : Fin NCPU)
  | leave (c : Fin NCPU)

def step (L : Word) (s : State NCPU) : Act NCPU → Option (State NCPU)
  | .enter c h =>
    if (s.phase c).admits h = true ∧
        (h.takesLock = true → ∀ c', (s.phase c').inside = false) then
      some (s.go c (.running h (h.code c)))
    else none
  | .access c =>
    match s.phase c with
    | .running h rest =>
      (rest.access s.mem).map fun r => { s.go c (.running h r.1) with mem := r.2 }
    | _ => none
  | .leave c =>
    match s.phase c with
    | .running h .ret => some { s.go c h.next with log := h.event L c :: s.log }
    | _ => none

/-- The outcomes of a step. -/
inductive Tr (L : Word) (s : State NCPU) : State NCPU → Prop where
  | enter {c h} : (s.phase c).admits h = true →
      (h.takesLock = true → ∀ c', (s.phase c').inside = false) →
      Tr L s (s.go c (.running h (h.code c)))
  | access {c h rest rest' m} : s.phase c = .running h rest →
      rest.access s.mem = some (rest', m) →
      Tr L s { s.go c (.running h rest') with mem := m }
  | leave {c h} : s.phase c = .running h .ret →
      Tr L s { s.go c h.next with log := h.event L c :: s.log }

theorem step_tr {L : Word} {s s' : State NCPU} {a : Act NCPU} (h : step L s a = some s') :
    Tr L s s' := by
  cases a with
  | enter c k =>
    simp only [step] at h
    split at h
    · rename_i hc
      cases h
      exact .enter hc.1 hc.2
    · cases h
  | access c =>
    simp only [step] at h
    split at h
    · rename_i k rest hc
      obtain ⟨⟨rest', m⟩, hr, rfl⟩ := Option.map_eq_some_iff.1 h
      exact .access hc hr
    · cases h
  | leave c =>
    simp only [step] at h
    split at h
    · rename_i k hc
      cases h
      exact .leave hc
    · cases h

/-! ## Footprints -/

/-- The fields that are written under the lock only. -/
def Cell.locked : Cell NCPU → Bool
  | .contentions | .mark _ => false
  | _ => true

/-- The fields that nobody else writes. -/
def own (c : Fin NCPU) (inside : Bool) : Set (Cell NCPU) :=
  {x | x = .mark c ∨ (inside = true ∧ x.locked = true)}

/-- The fields of a program. -/
def Hook.cells (c : Fin NCPU) : Hook → Set (Cell NCPU)
  | .slowpath _ => {.contentions, .mark c}
  | .acquired _ _ | .release _ => own c true

theorem add_uses {S : Set (Cell NCPU)} {a : Cell NCPU} (h : a ∈ S) (t : Word) :
    (add a t).Uses S :=
  ⟨h, fun _ => ⟨h, trivial⟩⟩

theorem lower_uses {S : Set (Cell NCPU)} {a : Cell NCPU} (h : a ∈ S) (t : Word) :
    (lower a t).Uses S :=
  ⟨h, fun _ => .ite ⟨h, trivial⟩ ⟨h, fun _ => .ite ⟨h, trivial⟩ ⟨h, fun _ => ⟨h, trivial⟩⟩⟩⟩

theorem raise_uses {S : Set (Cell NCPU)} {a : Cell NCPU} (h : a ∈ S) (t : Word) :
    (raise a t).Uses S :=
  ⟨h, fun _ => .ite ⟨h, trivial⟩ ⟨h, fun _ => ⟨h, trivial⟩⟩⟩

theorem addTime_uses {S : Set (Cell NCPU)} {total min max : Cell NCPU} (ht : total ∈ S)
    (hmin : min ∈ S) (hmax : max ∈ S) (t : Word) : (addTime total min max t).Uses S :=
  (add_uses ht t).seq ((lower_uses hmin t).seq (raise_uses hmax t))

theorem ifMarked_uses {S : Set (Cell NCPU)} {c : Fin NCPU} {k : Prog NCPU} (h : .mark c ∈ S)
    (hk : k.Uses S) : (ifMarked c k).Uses S :=
  ⟨h, fun _ => .ite hk trivial⟩

theorem code_uses (c : Fin NCPU) (h : Hook) : (h.code c).Uses (h.cells c) := by
  have hmark : Cell.mark c ∈ own c true := .inl rfl
  have hlocked : ∀ x : Cell NCPU, x.locked = true → x ∈ own c true := fun x hx => .inr ⟨rfl, hx⟩
  cases h with
  | slowpath now =>
    exact (add_uses (.inl rfl) 1).seq ⟨.inr rfl, trivial⟩
  | release now =>
    exact ⟨hlocked _ rfl, fun x => addTime_uses (hlocked _ rfl) (hlocked _ rfl) (hlocked _ rfl) _⟩
  | acquired now now' =>
    refine (add_uses (hlocked _ rfl) 1).seq (.seq ?_ ⟨hlocked _ rfl, .seq ?_ ?_⟩)
    · exact ifMarked_uses hmark
        ⟨hmark, fun x => addTime_uses (hlocked _ rfl) (hlocked _ rfl) (hlocked _ rfl) _⟩
    · exact ⟨hlocked _ rfl, fun _ => .ite ((add_uses (hlocked _ rfl) 1).seq
        (ifMarked_uses hmark (add_uses (hlocked _ rfl) 1))) trivial⟩
    · exact ⟨hlocked _ rfl, hmark, trivial⟩

/-- What can be left of the contended program. -/
inductive SlowRest (c : Fin NCPU) (now : Word) : Prog NCPU → Prop where
  | begin : SlowRest c now (customToEnterSlowPath c now)
  | read (x : Word) : SlowRest c now (.store .contentions (x + 1) (.store (.mark c) now .ret))
  | counted : SlowRest c now (.store (.mark c) now .ret)
  | ended : SlowRest c now .ret

/-- What is left of a program keeps to its fields. -/
def Good (c : Fin NCPU) : Phase NCPU → Prop
  | .running (.slowpath now) rest => SlowRest c now rest
  | .running (.acquired _ _) rest | .running (.release _) rest => rest.Uses (own c true)
  | _ => True

theorem good_code (c : Fin NCPU) (h : Hook) : Good c (.running h (h.code c)) := by
  have huses := code_uses c h
  cases h with
  | slowpath now => exact .begin
  | acquired now now' => exact huses
  | release now => exact huses

/-- What becomes of the fields that nobody else writes depends on these only. -/
theorem Good.congr {c : Fin NCPU} {ph : Phase NCPU} (h : Good c ph) {m m' : Mem NCPU}
    (hm : ∀ x ∈ own c ph.inside, m x = m' x) :
    ∀ x ∈ own c ph.inside, ph.rest.exec m x = ph.rest.exec m' x := by
  match ph, h with
  | .idle, _ | .waiting, _ | .held, _ => exact hm
  | .running (.slowpath now) _, .ended => exact hm
  | .running (.slowpath now) _, .begin | .running (.slowpath now) _, .read _
  | .running (.slowpath now) _, .counted =>
    rintro x (rfl | ⟨hin, -⟩)
    · simp [Phase.rest, customToEnterSlowPath, Code.exec]
    · cases hin
  | .running (.acquired _ _) _, huses | .running (.release _) _, huses =>
    exact Code.exec_congr huses hm

theorem Phase.whole_congr (c : Fin NCPU) (ph : Phase NCPU) {m m' : Mem NCPU}
    (hm : ∀ x ∈ own c ph.inside, m x = m' x) :
    ∀ x ∈ own c ph.inside, (ph.whole c).exec m x = (ph.whole c).exec m' x := by
  cases ph with
  | idle => exact hm
  | waiting => exact hm
  | held => exact hm
  | running h rest =>
    have hin : (Phase.running h (h.code c)).inside = (Phase.running h rest).inside := by
      cases h <;> rfl
    rw [← hin] at hm ⊢
    exact (good_code c h).congr hm

theorem Good.access {c : Fin NCPU} {h : Hook} {rest rest' : Prog NCPU} {m m' : Mem NCPU}
    (hg : Good c (.running h rest)) (ha : rest.access m = some (rest', m')) :
    Good c (.running h rest') ∧ ∀ x ∉ h.cells c, m' x = m x := by
  cases h with
  | slowpath now =>
    have hg : SlowRest c now rest := hg
    cases hg with
    | begin =>
      cases ha
      exact ⟨.read _, fun _ _ => rfl⟩
    | read x =>
      cases ha
      refine ⟨.counted, fun y hy => Function.update_of_ne ?_ _ _⟩
      rintro rfl
      exact hy (.inl rfl)
    | counted =>
      cases ha
      refine ⟨.ended, fun y hy => Function.update_of_ne ?_ _ _⟩
      rintro rfl
      exact hy (.inr rfl)
    | ended => cases ha
  | acquired now now' => exact ⟨Code.Uses.access hg ha, fun x hx => Code.access_frame hg ha hx⟩
  | release now => exact ⟨Code.Uses.access hg ha, fun x hx => Code.access_frame hg ha hx⟩

/-- What a program writes is not a field of another CPU, if one of the two does not have the
lock. -/
theorem not_mem_cells {c c' : Fin NCPU} (hne : c' ≠ c) {h : Hook} (rest : Prog NCPU) {b : Bool}
    (hin : b = true → (Phase.running h rest).inside = false) {x : Cell NCPU} (hx : x ∈ own c' b) :
    x ∉ h.cells c := by
  cases h with
  | slowpath now =>
    rintro (rfl | rfl)
    · rcases hx with hx | ⟨-, hx⟩ <;> cases hx
    · rcases hx with hx | ⟨-, hx⟩
      · cases hx
        exact hne rfl
      · cases hx
  | acquired now now' | release now =>
    rcases hx with rfl | ⟨hb, -⟩
    · rintro (hx | ⟨-, hx⟩)
      · cases hx
        exact hne rfl
      · cases hx
    · cases hin hb

/-! ## The atomic run -/

/-- What the rest of a program makes of the memory is what its hook makes of the entry and the
record, on the fields that nobody else writes. -/
structure Fits (m : Mem NCPU) (d : Data) (p : PerLockData NCPU) (c : Fin NCPU)
    (ph : Phase NCPU) : Prop where
  good : Good c ph
  mine : ∀ x ∈ own c ph.inside, ph.rest.exec m x = (ph.whole c).exec (cells d p) x

/-- The memory against the entry and the record that the hooks would have left so far. -/
structure Sim (s : State NCPU) (d : Data) (p : PerLockData NCPU) : Prop where
  alone : ∀ c c', (s.phase c).inside = true → (s.phase c').inside = true → c = c'
  fits : ∀ c, Fits s.mem d p c (s.phase c)
  free : (∀ c, (s.phase c).inside = false) → ∀ x, x.locked = true → s.mem x = cells d p x

theorem sim_start (d : Data) (p : PerLockData NCPU) {phase : Fin NCPU → Phase NCPU}
    (hb : Between phase) : Sim (.start (cells d p) phase) d p where
  alone := hb.alone
  fits := by
    intro c
    have hq := hb.quiet c
    simp only [State.start]
    cases hc : phase c with
    | idle | waiting | held => exact ⟨trivial, fun _ _ => rfl⟩
    | running h rest => rw [hc] at hq; cases hq
  free := fun _ _ _ => rfl

section Step

variable {s : State NCPU} {d d' : Data} {p p' : PerLockData NCPU} {c : Fin NCPU} {h : Hook}
  {m : Mem NCPU} {ph : Phase NCPU}

/-- One CPU goes on; the rest is to be shown of it and of the others. -/
theorem Sim.go (hs : Sim s d p) (hc : Fits m d' p' c ph)
    (hothers : ∀ c', c' ≠ c → Fits m d' p' c' (s.phase c'))
    (halone : ph.inside = true → ∀ c', c' ≠ c → (s.phase c').inside = false)
    (hfree : ph.inside = false → (∀ c', c' ≠ c → (s.phase c').inside = false) →
      ∀ x, x.locked = true → m x = cells d' p' x) (log : List (Event NCPU)) :
    Sim ⟨m, Function.update s.phase c ph, log⟩ d' p' := by
  refine ⟨fun c₁ c₂ h₁ h₂ => ?_, fun c' => ?_, fun hout => hfree ?_ fun c' hne => ?_⟩
  · simp only [Function.update_apply] at h₁ h₂
    by_contra hne
    split at h₁ <;> split at h₂
    · exact hne (by simp_all)
    · rename_i hc₁ hc₂
      rw [halone h₁ c₂ hc₂] at h₂
      cases h₂
    · rename_i hc₁ hc₂
      rw [halone h₂ c₁ hc₁] at h₁
      cases h₁
    · exact hne (hs.alone c₁ c₂ h₁ h₂)
  · by_cases hne : c' = c
    · subst hne
      simpa only [Function.update_self] using hc
    · simpa only [Function.update_of_ne hne] using hothers c' hne
  · simpa only [Function.update_self] using hout c
  · simpa only [Function.update_of_ne hne] using hout c'

/-- A CPU that begins with a program is not running one, and has the lock if it is to release it. -/
theorem admits_cases (ha : ph.admits h = true) (c : Fin NCPU) :
    ph.rest = .ret ∧ ph.whole c = .ret ∧
      (h.takesLock = false → ∀ rest : Prog NCPU, ph.inside = (Phase.running h rest).inside) := by
  match ph, h, ha with
  | .idle, .slowpath _, _ | .held, .release _, _ => exact ⟨rfl, rfl, fun _ _ => rfl⟩
  | .idle, .acquired _ _, _ | .waiting, .acquired _ _, _ =>
    exact ⟨rfl, rfl, fun h => by cases h⟩

theorem Sim.enter (hs : Sim s d p) (ha : (s.phase c).admits h = true)
    (hl : h.takesLock = true → ∀ c', (s.phase c').inside = false) :
    Sim (s.go c (.running h (h.code c))) d p := by
  obtain ⟨hrest, hwhole, hin⟩ := admits_cases ha c
  have hmine := (hs.fits c).mine
  rw [hrest, hwhole] at hmine
  cases hk : h.takesLock with
  | true =>
    have hout := hl hk
    refine hs.go ⟨good_code c h, (good_code c h).congr ?_⟩ (fun c' _ => hs.fits c')
      (fun _ c' _ => hout c') (fun _ _ => hs.free hout) _
    rintro x (rfl | ⟨-, hx⟩)
    · exact hmine _ (.inl rfl)
    · exact hs.free hout x hx
  | false =>
    rw [hin hk (h.code c)] at hmine
    refine hs.go ⟨good_code c h, (good_code c h).congr hmine⟩ (fun c' _ => hs.fits c') ?_ ?_ _
    · intro hh c' hne
      by_contra hc'
      exact hne (hs.alone c' c (by simpa using hc') (by rw [hin hk (h.code c)]; exact hh))
    · intro hh hout
      refine hs.free fun c' => ?_
      by_cases hc' : c' = c
      · rw [hc', hin hk (h.code c)]
        exact hh
      · exact hout c' hc'

/-- A program does not touch the fields of the other CPUs: not both have the lock. -/
theorem Sim.others (hs : Sim s d p) {rest : Prog NCPU} (hc : s.phase c = .running h rest)
    (hm : ∀ x ∉ h.cells c, m x = s.mem x) (hd : ∀ x ∉ h.cells c, cells d' p' x = cells d p x)
    (c' : Fin NCPU) (hne : c' ≠ c) : Fits m d' p' c' (s.phase c') := by
  obtain ⟨hgood, hmine⟩ := hs.fits c'
  have happart : ∀ x ∈ own c' (s.phase c').inside, x ∉ h.cells c := by
    refine fun x hx => not_mem_cells hne rest (fun hin => ?_) hx
    by_contra hr
    rw [Bool.not_eq_false, ← hc] at hr
    exact hne (hs.alone c' c hin hr)
  refine ⟨hgood, fun x hx => ?_⟩
  calc (s.phase c').rest.exec m x
    _ = (s.phase c').rest.exec s.mem x := hgood.congr (fun y hy => hm y (happart y hy)) x hx
    _ = ((s.phase c').whole c').exec (cells d p) x := hmine x hx
    _ = ((s.phase c').whole c').exec (cells d' p') x :=
      (s.phase c').whole_congr c' (fun y hy => (hd y (happart y hy)).symm) x hx

theorem inside_running (h : Hook) (rest rest' : Prog NCPU) :
    (Phase.running h rest').inside = (Phase.running h rest).inside := by
  cases h <;> rfl

/-- While a CPU that has the lock runs a program, no other one has it. -/
theorem Sim.outside (hs : Sim s d p) {rest : Prog NCPU} (hc : s.phase c = .running h rest)
    (hin : (Phase.running h rest).inside = true) (c' : Fin NCPU) (hne : c' ≠ c) :
    (s.phase c').inside = false := by
  by_contra hc'
  exact hne (hs.alone c' c (by simpa using hc') (by rw [hc]; exact hin))

/-- While a CPU that waits runs its program and no one has the lock, the entry is up to date. -/
theorem Sim.locked (hs : Sim s d p) {rest : Prog NCPU} (hc : s.phase c = .running h rest)
    (hin : (Phase.running h rest).inside = false)
    (hout : ∀ c', c' ≠ c → (s.phase c').inside = false) {x : Cell NCPU} (hx : x.locked = true) :
    s.mem x = cells d p x ∧ x ∉ h.cells c := by
  refine ⟨hs.free (fun c' => ?_) x hx, ?_⟩
  · by_cases hne : c' = c
    · rw [hne, hc]
      exact hin
    · exact hout c' hne
  · cases h with
    | slowpath now => rintro (rfl | rfl) <;> cases hx
    | acquired now now' | release now => cases hin

theorem Sim.access (hs : Sim s d p) {rest rest' : Prog NCPU}
    (hc : s.phase c = .running h rest) (ha : rest.access s.mem = some (rest', m)) :
    Sim { s.go c (.running h rest') with mem := m } d p := by
  obtain ⟨hgood, hmine⟩ := hs.fits c
  rw [hc] at hgood hmine
  obtain ⟨hgood', hframe⟩ := hgood.access ha
  refine hs.go ⟨hgood', fun x hx => ?_⟩ (hs.others hc hframe fun _ _ => rfl) ?_ ?_ _
  · rw [inside_running h rest] at hx
    exact (congrFun (Code.exec_access ha) x).trans (hmine x hx)
  · intro hin
    exact hs.outside hc (inside_running h rest rest' ▸ hin)
  · intro hin hout x hx
    obtain ⟨hmem, hcells⟩ := hs.locked hc (inside_running h rest rest' ▸ hin) hout hx
    exact (hframe x hcells).trans hmem

theorem Sim.leave (hs : Sim s d p) (L : Word) (hc : s.phase c = .running h .ret) :
    Sim { s.go c h.next with log := h.event L c :: s.log } (h.data c d p) (h.record c p) := by
  have hmine := (hs.fits c).mine
  rw [hc] at hmine
  have hmem : ∀ x ∈ own c (Phase.running h (.ret : Prog NCPU)).inside,
      s.mem x = cells (h.data c d p) (h.record c p) x := by
    intro x hx
    rw [← exec_hook]
    exact hmine x hx
  have hframe : ∀ x ∉ h.cells c, cells (h.data c d p) (h.record c p) x = cells d p x := by
    intro x hx
    rw [← exec_hook]
    exact Code.exec_frame (code_uses c h) hx _
  refine hs.go ?_ (hs.others hc (fun _ _ => rfl) hframe) ?_ ?_ _
  · cases h with
    | slowpath now => exact ⟨trivial, hmem⟩
    | acquired now now' => exact ⟨trivial, hmem⟩
    | release now =>
      refine ⟨trivial, ?_⟩
      rintro x (rfl | ⟨hin, -⟩)
      · exact hmem _ (.inl rfl)
      · cases hin
  · intro hin
    cases h with
    | slowpath now | release now => cases hin
    | acquired now now' => exact hs.outside hc rfl
  · intro hin hout x hx
    cases h with
    | slowpath now =>
      obtain ⟨hx', hcells⟩ := hs.locked hc rfl hout hx
      exact hx'.trans (hframe x hcells).symm
    | acquired now now' => cases hin
    | release now => exact hmem x (.inr ⟨rfl, hx⟩)

end Step

/-- A hook on a lock that has an entry. -/
theorem run_hook {st : Store NCPU} {L : Word} {d : Data} (hd : st.map.lookup L = some d)
    (c : Fin NCPU) (h : Hook) :
    ((h.event L c).run st).map.lookup L = some (h.data c d (st.pld L)) ∧
      ((h.event L c).run st).pld L = h.record c (st.pld L) := by
  cases h with
  | slowpath now =>
    rcases slowpath_cases st L c now with ⟨d', hd', hm⟩ | ⟨hno, -⟩
    · rw [hd] at hd'
      cases hd'
      refine ⟨by rw [Hook.event, Event.run, lookup_write hd hm, if_pos rfl]; rfl, ?_⟩
      simp [Hook.event, Event.run, syncordToEnterSlowpath, Lockstat.customToEnterSlowPath,
        Store.pld, hd, Shadow.get_set, Shadow.getOrAlloc_snd, Hook.record]
    · rw [hd] at hno
      cases hno
  | acquired now now' =>
    rcases acquired_cases st L c now now' with ⟨d', hd', hm⟩ | ⟨hno, -⟩ | ⟨hno, -⟩
    · rw [hd] at hd'
      cases hd'
      refine ⟨by rw [Hook.event, Event.run, lookup_write hd hm, if_pos rfl]; rfl, ?_⟩
      simp [Hook.event, Event.run, syncordLockAcquired, Store.pld, Shadow.get_set,
        Shadow.getOrAlloc_snd, Hook.record]
    · rw [hd] at hno
      cases hno
    · rw [hd] at hno
      cases hno
  | release now =>
    rcases release_cases st L now with ⟨d', hd', hm⟩ | ⟨hno, -⟩
    · rw [hd] at hd'
      cases hd'
      refine ⟨by rw [Hook.event, Event.run, lookup_write hd hm, if_pos rfl]; rfl, ?_⟩
      simp [Hook.event, Event.run, syncordLockToRelease, Store.pld, Shadow.getD_getOrAlloc,
        Hook.record]
    · rw [hd] at hno
      cases hno

/-- The hooks that are over, run one at a time. -/
theorem reach_sim {L : Word} {s₀ : Sys NCPU} {d₀ : Data}
    (hd₀ : s₀.store.map.lookup L = some d₀) {phase : Fin NCPU → Phase NCPU}
    (hb : Between phase) {s : State NCPU}
    (h : Reach (step L) anyStep (.start (cells d₀ (s₀.store.pld L)) phase) s) :
    ∃ t d, Reach Lockstat.step anyStep s₀ t ∧ t.log = s.log ++ s₀.log ∧
      t.store.map.lookup L = some d ∧ Sim s d (t.store.pld L) := by
  induction h with
  | start => exact ⟨s₀, d₀, .start, rfl, hd₀, sim_start d₀ _ hb⟩
  | next _ _ hstep ih =>
    obtain ⟨t, d, ht, hlog, hd, hs⟩ := ih
    cases step_tr hstep with
    | enter ha hl => exact ⟨t, d, ht, hlog, hd, hs.enter ha hl⟩
    | access hc ha => exact ⟨t, d, ht, hlog, hd, hs.access hc ha⟩
    | @leave c k hc =>
      obtain ⟨hd', hpld⟩ := run_hook hd c k
      refine ⟨_, _, ht.next (a := k.event L c) trivial rfl, ?_, hd', ?_⟩
      · rw [hlog]
        rfl
      · rw [hpld]
        exact hs.leave L hc

/-! ## Counts of waits -/

def slowpaths (log : List (Event NCPU)) : Nat :=
  log.countP fun
    | .slowpath _ _ _ => true
    | _ => false

/-- The CPU has counted its wait, and is not at the end of the program. -/
def Phase.counted : Phase NCPU → Nat
  | .running (.slowpath _) (.store (.mark _) _ _) | .running (.slowpath _) .ret => 1
  | _ => 0

/-- The waits that have been counted. -/
def State.waits (s : State NCPU) : Nat := slowpaths s.log + ∑ c, (s.phase c).counted

/-- Some of the waits are in the count, and no others; if there are any, at least one is. -/
structure Counted (base : Word) (s : State NCPU) : Prop where
  value : ∃ n ≤ s.waits, (0 < s.waits → 0 < n) ∧
    s.mem .contentions = base + BitVec.ofNat 64 n
  /-- what is about to be written -/
  pending : ∀ c now v rest, s.phase c = .running (.slowpath now) (.store .contentions v rest) →
    ∃ n, 0 < n ∧ n ≤ s.waits + 1 ∧ v = base + BitVec.ofNat 64 n

theorem State.waits_go (s : State NCPU) (c : Fin NCPU) (ph : Phase NCPU) (m : Mem NCPU)
    (log : List (Event NCPU)) :
    (State.waits ⟨m, Function.update s.phase c ph, log⟩) + slowpaths s.log + (s.phase c).counted =
      s.waits + slowpaths log + ph.counted := by
  have hsum := sum_frame (Finset.mem_univ c) (f := fun c' => (s.phase c').counted)
    (g := fun c' => (Function.update s.phase c ph c').counted)
    fun c' hne => by rw [Function.update_of_ne hne]
  simp only [Function.update_self] at hsum
  simp only [State.waits]
  omega

section Counted

variable {s : State NCPU} {base : Word} {c : Fin NCPU} {h : Hook} {m : Mem NCPU}
  {ph : Phase NCPU} {log : List (Event NCPU)}

theorem Phase.quiet_rest {ph : Phase NCPU} (h : ph.quiet = true) (c : Fin NCPU) :
    ph.rest = .ret ∧ ph.whole c = .ret ∧ ph.counted = 0 := by
  cases ph with
  | idle | waiting | held => exact ⟨rfl, rfl, rfl⟩
  | running k rest => cases h

/-- Between the programs, the waits are those of the log. -/
theorem State.waits_quiet (hq : ∀ c, (s.phase c).quiet = true) : s.waits = slowpaths s.log := by
  rw [State.waits, Finset.sum_eq_zero fun c _ => (Phase.quiet_rest (hq c) c).2.2]
  rfl

theorem counted_start (d : Data) (p : PerLockData NCPU) {phase : Fin NCPU → Phase NCPU}
    (hb : Between phase) : Counted d.contentions (.start (cells d p) phase) where
  value := by
    refine ⟨0, Nat.zero_le _, ?_, by simp [State.start, cells]⟩
    rw [State.waits_quiet hb.quiet]
    exact id
  pending := by
    intro c now v rest hc
    have hq := hb.quiet c
    simp only [State.start] at hc
    rw [hc] at hq
    cases hq

/-- A step that counts nothing. -/
theorem Counted.keep (hk : Counted base s)
    (hw : slowpaths s.log + (s.phase c).counted = slowpaths log + ph.counted)
    (hm : m .contentions = s.mem .contentions)
    (hp : ∀ now v rest, ph = .running (.slowpath now) (.store .contentions v rest) →
      ∃ n, 0 < n ∧ n ≤ s.waits + 1 ∧ v = base + BitVec.ofNat 64 n) :
    Counted base ⟨m, Function.update s.phase c ph, log⟩ := by
  have hwaits : State.waits ⟨m, Function.update s.phase c ph, log⟩ = s.waits := by
    have := s.waits_go c ph m log
    omega
  refine ⟨?_, fun c' now v rest hc' => ?_⟩
  · simp only [hwaits, hm]
    exact hk.value
  · rw [hwaits]
    simp only [Function.update_apply] at hc'
    split at hc'
    · exact hp now v rest hc'
    · exact hk.pending c' now v rest hc'

theorem Counted.enter (hk : Counted base s) (ha : (s.phase c).admits h = true) :
    Counted base (s.go c (.running h (h.code c))) := by
  refine hk.keep ?_ rfl ?_
  · have hold : (s.phase c).counted = 0 := by
      cases hc : s.phase c with
      | idle | waiting | held => rfl
      | running k rest => rw [hc] at ha; cases h <;> cases ha
    rw [hold]
    cases h <;> rfl
  · intro now v rest heq
    cases h <;> cases heq

theorem Counted.access {d : Data} {p : PerLockData NCPU} (hk : Counted base s) (hs : Sim s d p)
    {rest rest' : Prog NCPU} (hc : s.phase c = .running h rest)
    (ha : rest.access s.mem = some (rest', m)) :
    Counted base { s.go c (.running h rest') with mem := m } := by
  have hgood := (hs.fits c).good
  rw [hc] at hgood
  cases h with
  | acquired now now' | release now =>
    refine hk.keep (by rw [hc]; rfl) ((hgood.access ha).2 _ ?_) fun _ _ _ heq => by cases heq
    rintro (hx | ⟨-, hx⟩) <;> cases hx
  | slowpath now =>
    have hgood : SlowRest c now rest := hgood
    cases hgood with
    | begin =>
      cases ha
      refine hk.keep (by rw [hc]; rfl) rfl fun now' v rest heq => ?_
      obtain ⟨n, hn, -, hv⟩ := hk.value
      cases heq
      refine ⟨n + 1, Nat.succ_pos n, Nat.succ_le_succ hn, ?_⟩
      rw [hv, BitVec.add_assoc, BitVec.ofNat_add]
      rfl
    | read x =>
      cases ha
      obtain ⟨n, hpos, hn, hv⟩ := hk.pending c now _ _ hc
      have hwaits := s.waits_go c (.running (.slowpath now) (.store (.mark c) now .ret))
        (Function.update s.mem .contentions (x + 1)) s.log
      rw [hc] at hwaits
      simp only [Phase.counted] at hwaits
      refine ⟨⟨n, by simp only [State.go]; omega, fun _ => hpos, ?_⟩, fun c' now' v rest hc' => ?_⟩
      · simp only [Function.update_self]
        exact hv
      · simp only [State.go, Function.update_apply] at hc'
        split at hc'
        · cases hc'
        · obtain ⟨n', hpos', hn', hv'⟩ := hk.pending c' now' v rest hc'
          exact ⟨n', hpos', by simp only [State.go]; omega, hv'⟩
    | counted =>
      cases ha
      exact hk.keep (by rw [hc]; rfl) (Function.update_of_ne (by simp) _ _)
        fun _ _ _ heq => by cases heq
    | ended => cases ha

theorem Counted.leave (hk : Counted base s) (L : Word) (hc : s.phase c = .running h .ret) :
    Counted base { s.go c h.next with log := h.event L c :: s.log } := by
  refine hk.keep ?_ rfl fun _ _ _ heq => by cases h <;> cases heq
  rw [hc]
  cases h <;> simp [slowpaths, Hook.event, Hook.next, Phase.counted]

theorem reach_counted {L : Word} {s₀ : Sys NCPU} {d₀ : Data}
    (hd₀ : s₀.store.map.lookup L = some d₀) {phase : Fin NCPU → Phase NCPU} (hb : Between phase)
    (h : Reach (step L) anyStep (.start (cells d₀ (s₀.store.pld L)) phase) s) :
    Counted d₀.contentions s := by
  induction h with
  | start => exact counted_start d₀ _ hb
  | next hr _ hstep ih =>
    obtain ⟨t, d, -, -, -, hs⟩ := reach_sim hd₀ hb hr
    cases step_tr hstep with
    | enter ha hl => exact ih.enter ha
    | access hc ha => exact ih.access hs hc ha
    | leave hc => exact ih.leave L hc

end Counted

/-! ## When no program is running -/

theorem Sim.quiet {s : State NCPU} {d : Data} {p : PerLockData NCPU} (hs : Sim s d p)
    (hq : ∀ c, (s.phase c).quiet = true) {x : Cell NCPU} (hx : x ≠ .contentions) :
    s.mem x = cells d p x := by
  have hmine : ∀ c, ∀ x ∈ own c (s.phase c).inside, s.mem x = cells d p x := by
    intro c x hx
    obtain ⟨hrest, hwhole, -⟩ := Phase.quiet_rest (hq c) c
    have := (hs.fits c).mine x hx
    rwa [hrest, hwhole] at this
  by_cases hin : ∃ c, (s.phase c).inside = true
  · obtain ⟨c, hin⟩ := hin
    cases x with
    | contentions => exact absurd rfl hx
    | mark c => exact hmine c _ (.inl rfl)
    | _ => exact hmine c _ (.inr ⟨hin, rfl⟩)
  · have hout : ∀ c, (s.phase c).inside = false := fun c => by
      by_contra hc
      exact hin ⟨c, by simpa using hc⟩
    cases x with
    | contentions => exact absurd rfl hx
    | mark c => exact hmine c _ (.inl rfl)
    | _ => exact hs.free hout _ rfl

/-- Let a lock have its entry from a run of the hooks, with one CPU or none in its critical section.
Whatever the CPUs do from then on, access by access: when no program is running, the fields of the
entry and of the record are those after the hooks one at a time, which are the statistics of the
history. The count of the waits has some of those since, and no others. -/
theorem hooks_atomic {s₀ : Sys NCPU} (h₀ : Reach Lockstat.step anyStep (Sys.start NCPU .empty) s₀)
    {L : Word} (hL : L ∈ s₀.store.map.keys) {phase : Fin NCPU → Phase NCPU} (hb : Between phase)
    {s : State NCPU}
    (h : Reach (step L) anyStep (.start (cells (summaryOf L s₀.log) (s₀.store.pld L)) phase) s)
    (hquiet : ∀ c, (s.phase c).quiet = true) :
    ∃ t : Sys NCPU, Reach Lockstat.step anyStep s₀ t ∧ t.log = s.log ++ s₀.log ∧
      (∀ x, x ≠ .contentions → s.mem x = cells (summaryOf L t.log) (t.store.pld L) x) ∧
      ∃ n ≤ slowpaths s.log, (0 < slowpaths s.log → 0 < n) ∧
        s.mem .contentions = (summaryOf L s₀.log).contentions + BitVec.ofNat 64 n := by
  have hd₀ := lookup_summaryOf h₀ hL
  obtain ⟨t, d, ht, hlog, hd, hs⟩ := reach_sim hd₀ hb h
  have hL' : L ∈ t.store.map.keys := BoundedMap.lookup_ne_none.1 (by rw [hd]; simp)
  have hsummary := lookup_summaryOf (h₀.trans ht) hL'
  rw [hd] at hsummary
  cases hsummary
  refine ⟨t, ht, hlog, fun x hx => hs.quiet hquiet hx, ?_⟩
  rw [← State.waits_quiet hquiet]
  exact (reach_counted hd₀ hb h).value

/-- CPU 0 has the lock and two others begin to wait for it at the same time: both read the count
before one of them writes it. Then the lock is released. -/
def together : List (Act 3) :=
  [.enter 1 (.slowpath 4), .enter 2 (.slowpath 5), .access 1, .access 2, .access 1, .access 2,
    .access 1, .access 2, .leave 1, .leave 2, .enter 0 (.release 6)] ++
  List.replicate 7 (.access 0) ++ [.leave 0]

/-- One CPU is in its critical section, the others are idle. -/
def heldBy (c : Fin NCPU) (c' : Fin NCPU) : Phase NCPU := if c' = c then .held else .idle

theorem between_heldBy (c : Fin NCPU) : Between (heldBy c) where
  quiet := fun c' => by
    unfold heldBy
    split <;> rfl
  alone := by
    have hin : ∀ c', (heldBy c c').inside = true → c' = c := by
      intro c' h
      unfold heldBy at h
      split at h
      · assumption
      · cases h
    exact fun c₁ c₂ h₁ h₂ => (hin c₁ h₁).trans (hin c₂ h₂).symm

/-- CPU 0 has held the lock from 1 to 6; of the waits of the two others one is counted. -/
theorem hooks_atomic_together : ∃ (s : State 3) (t : Sys 3),
    (∀ x, x ≠ .contentions → s.mem x = cells (summaryOf 8 t.log) (t.store.pld 8) x) ∧
      s.mem .holdTotal = 5 ∧ slowpaths s.log = 2 ∧ s.mem .contentions = 1 := by
  have h₀ : Reach Lockstat.step anyStep (Sys.start 3 .empty) _ :=
    Reach.start.next (a := Event.acquired 8 0 1 1) trivial rfl
  obtain ⟨t, -, -, hmem, -⟩ := hooks_atomic h₀ (L := 8) (by decide) (between_heldBy 0)
    (exec_reach (show exec (step 8) anyStep _ together = some _ from rfl)) (by decide)
  exact ⟨_, t, hmem, by decide, by decide, by decide⟩

end Fine
end Lockstat
end SynCord
