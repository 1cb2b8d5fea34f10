import SynCord.Scl.Machine
import Mathlib.Logic.Function.Basic

/-!
# SynCord.Scl.Grouping

The comparison of waiters in `numa-scl.patch`. A waiter has a `struct per_node_data pnd` on its
stack. The slow path does not initialise it, `syncord_to_enter_slowpath` writes
`lock_hold_capture` only, and `syncord_should_reorder` compares the `sock_id` of two waiters.

Which waiters enter, and which are compared, is up to the kernel. It is a strategy here, that may
depend on every result so far. What is on the stack of the waiters is not known to it.

* `run_alike` — as long as no two waiters are compared, runs with different stacks go the same
  way.
* `grouping_iff` — the results are those of the NUMA nodes, whatever is on the stack, exactly if
  no two waiters are ever compared.
-/

namespace SynCord
namespace Scl
namespace Grouping

/-- A `struct mcs_spinlock`, by its address. -/
structure McsNode where
  addr : Word
  deriving DecidableEq

structure PerNodeData where
  sockId : Word
  lockHoldCapture : Word

/-- Someone in the slow path. `entry` counts the waiters. -/
structure Waiter where
  nid : Nat
  entry : Nat
  /-- `node->bpf_args` -/
  pnd : PerNodeData

/-- What may happen. Threads that do not wait run the hooks on acquiring and on releasing. -/
inductive Event where
  /-- `current`, on a CPU of node `nid`, begins to wait. -/
  | slowpath (node : McsNode) (current : Task) (nid : Nat)
  | shouldReorder (node curr : McsNode)
  | leave (node : McsNode)
  | lockAcquired (current : Task) (now : Word)
  | lockToRelease (current : Task) (now : Word)

structure State where
  store : Store
  queue : McsNode → Option Waiter
  entries : Nat
  /-- For every event the result of `syncord_should_reorder`, if it was called. -/
  history : List (Option Bool)

/-- `custom_cmp_func` -/
def customCmpFunc (numaNode nextNumaNode : Word) : Bool := numaNode == nextNumaNode

def syncordShouldReorder (node curr : Waiter) : Bool :=
  customCmpFunc node.pnd.sockId curr.pnd.sockId

/-- The program writes `lock_hold_capture`, or nothing. -/
def PerNodeData.contended (pnd : PerNodeData) (c : Contended) : PerNodeData :=
  { pnd with lockHoldCapture := c.lockHoldCapture.getD pnd.lockHoldCapture }

/-- What a comparison returns. Only waiters are compared. -/
def State.compare (s : State) (node curr : McsNode) : Option Bool :=
  match s.queue node, s.queue curr with
  | some w, some w' => some (syncordShouldReorder w w')
  | _, _ => none

/-- The node is set up with `pnd`, and the hook is called. -/
def State.enter (s : State) (lock : Lock) (pnd : PerNodeData) (node : McsNode) (current : Task)
    (nid : Nat) : State where
  store := (syncordToEnterSlowpath s.store lock current).1
  queue := Function.update s.queue node
    (some ⟨nid, s.entries, pnd.contended (syncordToEnterSlowpath s.store lock current).2⟩)
  entries := s.entries + 1
  history := s.history ++ [none]

/-- `stack k` is what is on the stack of the `k`-th waiter. -/
def step (lock : Lock) (stack : Nat → PerNodeData) (s : State) : Event → State
  | .slowpath node current nid =>
    -- A node is in use by one waiter at a time.
    if (s.queue node).isSome then { s with history := s.history ++ [none] }
    else s.enter lock (stack s.entries) node current nid
  | .shouldReorder node curr => { s with history := s.history ++ [s.compare node curr] }
  | .leave node =>
    { s with queue := Function.update s.queue node none, history := s.history ++ [none] }
  | .lockAcquired current now =>
    { s with
      store := syncordLockAcquired s.store lock current now
      history := s.history ++ [none] }
  | .lockToRelease current now =>
    { s with
      store := (syncordLockToRelease s.store lock current now).getD s.store
      history := s.history ++ [none] }

/-- The next event after what has been seen, or none. -/
abbrev Strategy := List (Option Bool) → Option Event

section Runs

variable (lock : Lock) (start : Store) (strategy : Strategy) (stack : Nat → PerNodeData)

/-- The first `n` events. -/
def run : Nat → State
  | 0 => ⟨start, fun _ => none, 0, []⟩
  | n + 1 =>
    match strategy (run n).history with
    | none => run n
    | some e => step lock stack (run n) e

def results (n : Nat) : List Bool := (run lock start strategy stack n).history.filterMap id

/-- Event `n` compares the waiters `w` and `w'`. -/
structure Compares (n : Nat) (node curr : McsNode) (w w' : Waiter) : Prop where
  event : strategy (run lock start strategy stack n).history = some (.shouldReorder node curr)
  node : (run lock start strategy stack n).queue node = some w
  curr : (run lock start strategy stack n).queue curr = some w'

end Runs

/-- The results do not depend on the stacks, and they tell whether two waiters run on the same NUMA
node. -/
structure GroupsByNode (lock : Lock) (start : Store) (strategy : Strategy) : Prop where
  same : ∀ stack stack' n,
    results lock start strategy stack n = results lock start strategy stack' n
  node : ∀ stack n node curr w w', Compares lock start strategy stack n node curr w w' →
    (syncordShouldReorder w w' = true ↔ w.nid = w'.nid)

/-- No waiter is compared with another one. -/
def NoneCompared (lock : Lock) (start : Store) (strategy : Strategy) : Prop :=
  ∀ stack n node curr w w', Compares lock start strategy stack n node curr w w' → node = curr

/-! ## What is compared -/

section Invariant

variable {lock : Lock} {start : Store} {strategy : Strategy} {stack stack' : Nat → PerNodeData}

/-- Waiters are numbered, and each still has what was on its stack as `sock_id`. -/
structure Inv (stack : Nat → PerNodeData) (s : State) : Prop where
  below : ∀ node w, s.queue node = some w → w.entry < s.entries
  sockId : ∀ node w, s.queue node = some w → w.pnd.sockId = (stack w.entry).sockId
  distinct : ∀ node node' w w', s.queue node = some w → s.queue node' = some w' →
    w.entry = w'.entry → node = node'

theorem Inv.of_queue {s s' : State} (h : Inv stack s) (hq : s'.queue = s.queue)
    (he : s'.entries = s.entries) : Inv stack s' := by
  refine ⟨?_, ?_, ?_⟩
  · rw [hq, he]
    exact h.below
  · rw [hq]
    exact h.sockId
  · rw [hq]
    exact h.distinct

theorem queue_enter {s : State} {pnd : PerNodeData} {node n : McsNode} {current : Task} {nid : Nat}
    {w : Waiter} (h : (s.enter lock pnd node current nid).queue n = some w) :
    (n = node ∧ w.entry = s.entries ∧ w.pnd.sockId = pnd.sockId) ∨ s.queue n = some w := by
  rcases eq_or_ne n node with rfl | hn
  · simp only [State.enter, Function.update_self] at h
    cases h
    exact .inl ⟨rfl, rfl, rfl⟩
  · simp only [State.enter, Function.update_of_ne hn] at h
    exact .inr h

theorem Inv.enter {s : State} (h : Inv stack s) (node : McsNode) (current : Task) (nid : Nat) :
    Inv stack (s.enter lock (stack s.entries) node current nid) := by
  refine ⟨fun n w hw => ?_, fun n w hw => ?_, fun n n' w w' hw hw' heq => ?_⟩
  · rcases queue_enter hw with ⟨-, he, -⟩ | hw
    · rw [he]
      exact Nat.lt_succ_self _
    · exact Nat.lt_succ_of_lt (h.below n w hw)
  · rcases queue_enter hw with ⟨-, he, hs⟩ | hw
    · rw [hs, he]
    · exact h.sockId n w hw
  · rcases queue_enter hw with ⟨hn, he, -⟩ | hq
    · rcases queue_enter hw' with ⟨hn', -, -⟩ | hq'
      · exact hn.trans hn'.symm
      · exact absurd (heq.symm.trans he) (Nat.ne_of_lt (h.below n' w' hq'))
    · rcases queue_enter hw' with ⟨-, he, -⟩ | hq'
      · exact absurd (heq.trans he) (Nat.ne_of_lt (h.below n w hq))
      · exact h.distinct n n' w w' hq hq' heq

theorem Inv.step {s : State} (h : Inv stack s) (e : Event) : Inv stack (step lock stack s e) := by
  match e with
  | .slowpath node current nid =>
    rw [Grouping.step]
    split
    · exact h.of_queue rfl rfl
    · exact h.enter node current nid
  | .shouldReorder node curr => exact h.of_queue rfl rfl
  | .leave node =>
    have hsub : ∀ n w, (Grouping.step lock stack s (.leave node)).queue n = some w →
        s.queue n = some w := by
      intro n w hw
      rcases eq_or_ne n node with rfl | hn
      · simp only [Grouping.step, Function.update_self] at hw
        cases hw
      · simpa only [Grouping.step, Function.update_of_ne hn] using hw
    exact ⟨fun n w hw => h.below n w (hsub n w hw), fun n w hw => h.sockId n w (hsub n w hw),
      fun n n' w w' hw hw' => h.distinct n n' w w' (hsub n w hw) (hsub n' w' hw')⟩
  | .lockAcquired current now => exact h.of_queue rfl rfl
  | .lockToRelease current now => exact h.of_queue rfl rfl

theorem run_inv (n : Nat) : Inv stack (run lock start strategy stack n) := by
  induction n with
  | zero => exact ⟨fun _ _ h => (by cases h), fun _ _ h => (by cases h),
      fun _ _ _ _ h => (by cases h)⟩
  | succ n ih =>
    rw [run]
    split
    · exact ih
    · exact ih.step _

/-! ## Two stacks -/

/-- What is known of a waiter without its `pnd`. -/
def Waiter.place (w : Waiter) : Nat × Nat := (w.nid, w.entry)

/-- The states differ in what is in the waiters' `pnd` only. -/
structure Alike (s s' : State) : Prop where
  store : s'.store = s.store
  entries : s'.entries = s.entries
  history : s'.history = s.history
  queue : ∀ node, (s'.queue node).map Waiter.place = (s.queue node).map Waiter.place

theorem Alike.isSome {s s' : State} (h : Alike s s') (node : McsNode) :
    (s'.queue node).isSome = (s.queue node).isSome := by
  rw [← Option.isSome_map, h.queue, Option.isSome_map]

/-- A waiter is compared with itself, if with anyone. -/
def SelfOnly (s : State) : Event → Prop
  | .shouldReorder node curr =>
    (s.queue node).isSome = true → (s.queue curr).isSome = true → node = curr
  | _ => True

theorem compare_self {s : State} {node curr : McsNode}
    (h : SelfOnly s (.shouldReorder node curr)) :
    s.compare node curr =
      if (s.queue node).isSome ∧ (s.queue curr).isSome then some true else none := by
  rw [State.compare]
  cases hw : s.queue node with
  | none => simp
  | some w =>
    cases hw' : s.queue curr with
    | none => simp
    | some w' =>
      obtain rfl : node = curr := h (by rw [hw]; rfl) (by rw [hw']; rfl)
      obtain rfl : w' = w := Option.some.inj (hw'.symm.trans hw)
      simp [syncordShouldReorder, customCmpFunc]

theorem place_update {q q' : McsNode → Option Waiter}
    (h : ∀ n, (q' n).map Waiter.place = (q n).map Waiter.place) {x x' : Option Waiter}
    (hx : x'.map Waiter.place = x.map Waiter.place) (node n : McsNode) :
    (Function.update q' node x' n).map Waiter.place =
      (Function.update q node x n).map Waiter.place := by
  rcases eq_or_ne n node with rfl | hn
  · rw [Function.update_self, Function.update_self, hx]
  · rw [Function.update_of_ne hn, Function.update_of_ne hn, h n]

theorem Alike.enter {s s' : State} (h : Alike s s') (pnd pnd' : PerNodeData) (node : McsNode)
    (current : Task) (nid : Nat) :
    Alike (s.enter lock pnd node current nid) (s'.enter lock pnd' node current nid) := by
  rw [State.enter, State.enter, h.store, h.entries, h.history]
  refine ⟨rfl, rfl, rfl, place_update h.queue ?_ node⟩
  rfl

theorem Alike.step {s s' : State} (h : Alike s s') {e : Event} (hself : SelfOnly s e) :
    Alike (step lock stack s e) (step lock stack' s' e) := by
  match e with
  | .slowpath node current nid =>
    rw [Grouping.step, Grouping.step, h.isSome]
    split
    · exact ⟨h.store, h.entries, congrArg (· ++ [none]) h.history, h.queue⟩
    · exact h.enter ..
  | .shouldReorder node curr =>
    have hself' : SelfOnly s' (.shouldReorder node curr) := by
      rw [SelfOnly, h.isSome, h.isSome]
      exact hself
    refine ⟨h.store, h.entries, ?_, h.queue⟩
    rw [Grouping.step, Grouping.step, compare_self hself, compare_self hself', h.isSome, h.isSome,
      h.history]
  | .leave node =>
    exact ⟨h.store, h.entries, congrArg (· ++ [none]) h.history, place_update h.queue rfl node⟩
  | .lockAcquired current now =>
    refine ⟨?_, h.entries, congrArg (· ++ [none]) h.history, h.queue⟩
    rw [Grouping.step, Grouping.step, h.store]
  | .lockToRelease current now =>
    refine ⟨?_, h.entries, congrArg (· ++ [none]) h.history, h.queue⟩
    rw [Grouping.step, Grouping.step, h.store]

/-- No event before the `n`-th compares two waiters. -/
def SelfUntil (lock : Lock) (start : Store) (strategy : Strategy) (stack : Nat → PerNodeData)
    (n : Nat) : Prop :=
  ∀ m < n, ∀ node curr w w', Compares lock start strategy stack m node curr w w' → node = curr

theorem SelfUntil.selfOnly {n m : Nat} (h : SelfUntil lock start strategy stack n) (hm : m < n)
    {e : Event} (he : strategy (run lock start strategy stack m).history = some e) :
    SelfOnly (run lock start strategy stack m) e := by
  match e with
  | .slowpath _ _ _ | .leave _ | .lockAcquired _ _ | .lockToRelease _ _ => trivial
  | .shouldReorder node curr =>
    intro hw hw'
    obtain ⟨w, hw⟩ := Option.isSome_iff_exists.1 hw
    obtain ⟨w', hw'⟩ := Option.isSome_iff_exists.1 hw'
    exact h m hm node curr w w' ⟨he, hw, hw'⟩

theorem run_alike {n : Nat} (h : SelfUntil lock start strategy stack n)
    (stack' : Nat → PerNodeData) :
    Alike (run lock start strategy stack n) (run lock start strategy stack' n) := by
  induction n with
  | zero => exact ⟨rfl, rfl, rfl, fun _ => rfl⟩
  | succ n ih =>
    have hn := ih fun m hm => h m (Nat.lt_succ_of_lt hm)
    rw [run, run, hn.history]
    split
    · exact hn
    · rename_i e he
      exact hn.step (h.selfOnly (Nat.lt_succ_self n) he)

/-- The waiters of a comparison are the same for another stack, but for their `pnd`. -/
theorem Compares.alike {n : Nat} {node curr : McsNode} {w w' : Waiter}
    (hc : Compares lock start strategy stack n node curr w w')
    (h : SelfUntil lock start strategy stack n) (stack' : Nat → PerNodeData) :
    ∃ v v', Compares lock start strategy stack' n node curr v v' ∧
      v.place = w.place ∧ v'.place = w'.place := by
  have hal := run_alike h stack'
  have hq := hal.queue node
  have hq' := hal.queue curr
  rw [hc.node] at hq
  rw [hc.curr] at hq'
  obtain ⟨v, hv, hveq⟩ := Option.map_eq_some_iff.1 hq
  obtain ⟨v', hv', hveq'⟩ := Option.map_eq_some_iff.1 hq'
  exact ⟨v, v', ⟨by rw [hal.history]; exact hc.event, hv, hv'⟩, hveq, hveq'⟩

/-- A result is about what was on the stacks. -/
theorem Compares.result {n : Nat} {node curr : McsNode} {w w' : Waiter}
    (hc : Compares lock start strategy stack n node curr w w') : syncordShouldReorder w w' = true ↔
      (stack w.entry).sockId = (stack w'.entry).sockId := by
  have hinv : Inv stack (run lock start strategy stack n) := run_inv n
  rw [← hinv.sockId node w hc.node, ← hinv.sockId curr w' hc.curr]
  exact beq_iff_eq

end Invariant

theorem groupsByNode_of_none {lock : Lock} {start : Store} {strategy : Strategy}
    (h : NoneCompared lock start strategy) : GroupsByNode lock start strategy := by
  refine ⟨fun stack stack' n => ?_, fun stack n node curr w w' hc => ?_⟩
  · have hal := run_alike (n := n) (fun m _ => h stack m) stack'
    rw [results, results, hal.history]
  · obtain rfl := h stack n node curr w w' hc
    obtain rfl : w' = w := Option.some.inj (hc.curr.symm.trans hc.node)
    rw [hc.result]
    exact ⟨fun _ => rfl, fun _ => rfl⟩

/-- The first comparison of two waiters can be made to have either result. -/
theorem noneCompared_of_groups {lock : Lock} {start : Store} {strategy : Strategy}
    (h : GroupsByNode lock start strategy) : NoneCompared lock start strategy := by
  intro stack n
  induction n using Nat.strongRecOn with
  | ind n ih =>
    intro node curr w w' hc
    by_contra hne
    have huntil : SelfUntil lock start strategy stack n := fun m hm => ih m hm
    have hinv : Inv stack (run lock start strategy stack n) := run_inv n
    have hentry : w.entry ≠ w'.entry :=
      fun heq => hne (hinv.distinct node curr w w' hc.node hc.curr heq)
    obtain ⟨v, v', hv, hveq, hveq'⟩ := hc.alike huntil fun _ => ⟨0, 0⟩
    obtain ⟨u, u', hu, hueq, hueq'⟩ := hc.alike huntil fun k => ⟨if k = w.entry then 1 else 0, 0⟩
    simp only [Waiter.place, Prod.mk.injEq] at hveq hveq' hueq hueq'
    have htrue := (h.node _ n node curr v v' hv).1 (hv.result.2 rfl)
    have hfalse := mt (h.node _ n node curr u u' hu).2
    rw [hu.result, hueq.2, hueq'.2, if_pos rfl, if_neg hentry.symm, hueq.1, hueq'.1, ← hveq.1,
      ← hveq'.1] at hfalse
    exact hfalse (by decide) htrue

theorem grouping_iff (lock : Lock) (start : Store) (strategy : Strategy) :
    GroupsByNode lock start strategy ↔ NoneCompared lock start strategy :=
  ⟨noneCompared_of_groups, groupsByNode_of_none⟩

def noRecords : Store := ⟨.empty, .empty⟩

def qspinlock : Lock := ⟨192⟩

def taskC : Task := ⟨12288, by decide⟩

def taskD : Task := ⟨16384, by decide⟩

/-- Two waiters, both on NUMA node 0, are compared. -/
def twoWaiters : List Event :=
  [.slowpath ⟨256⟩ taskC 0, .slowpath ⟨320⟩ taskD 0, .shouldReorder ⟨256⟩ ⟨320⟩]

def inOrder (events : List Event) : Strategy := fun history => events[history.length]?

/-- With other contents of the first waiter's stack they are not grouped. -/
theorem grouping_stack :
    results qspinlock noRecords (inOrder twoWaiters) (fun _ => ⟨0, 0⟩) 3 = [true] ∧
    results qspinlock noRecords (inOrder twoWaiters) (fun k => ⟨if k = 0 then 1 else 0, 0⟩) 3 =
      [false] ∧
    ¬ GroupsByNode qspinlock noRecords (inOrder twoWaiters) := by
  have htrue :
      results qspinlock noRecords (inOrder twoWaiters) (fun _ => ⟨0, 0⟩) 3 = [true] := by decide
  have hfalse : results qspinlock noRecords (inOrder twoWaiters)
      (fun k => ⟨if k = 0 then 1 else 0, 0⟩) 3 = [false] := by decide
  refine ⟨htrue, hfalse, fun h => ?_⟩
  have hsame := h.same (fun _ => ⟨0, 0⟩) (fun k => ⟨if k = 0 then 1 else 0, 0⟩) 3
  rw [htrue, hfalse] at hsame
  cases hsame

end Grouping
end Scl
end SynCord
