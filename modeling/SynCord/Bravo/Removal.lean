import SynCord.Bravo.Exclusion

/-!
# SynCord.Bravo.Removal

Disabling `bravo.patch` while the semaphore is in use. Threads are switched to the original
functions one by one, each at a moment at which it is in none of the replaced functions; when all
are switched, `post_unpatch_callback` frees the shadow record. A thread may hold the lock when it is
switched, and what it has got from `down_read` is then given back by the other `up_read`.

The original functions know the underlying lock only. So a read that went past the lock is given
back to a lock that never counted it, and a writer that has been switched does not look at the slots
(`bravo_removal_bypassed`). Removal is safe if the patched readers are drained first: a thread is
switched only while no read past the lock is open or under way, and nobody calls the patched
`down_read` any more once a thread has been switched (`bravo_removal_drained`).
-/

namespace SynCord
namespace Bravo

/-- The thread is in none of the replaced functions. -/
def Pc.outside : Pc → Bool
  | .idle | .writing => true
  | .acqBias _ | .acqSlot _ | .acqStore _ | .acqRecheck _ | .acqUndo _ => false
  | .downSlow | .acqedLoad _ | .acqedStore _ | .relSlot _ _ | .relStore _ _ | .upSlow _ => false
  | .writeLock | .wrTest | .wrClear | .wrScan _ => false

/-- The thread is on its way past the lock. -/
def Pc.entering : Pc → Bool
  | .acqBias _ | .acqSlot _ | .acqStore _ | .acqRecheck _ | .acqUndo _ => true
  | .idle | .downSlow | .acqedLoad _ | .acqedStore _ | .relSlot _ _ | .relStore _ _ => false
  | .upSlow _ | .writeLock | .wrTest | .wrClear | .wrScan _ | .writing => false

theorem Pc.of_outside {p : Pc} (h : p.outside = true) :
    p.usesRecord = false ∧ p.entering = false ∧ p.read? = none := by
  cases p <;> first | exact ⟨rfl, rfl, rfl⟩ | cases h

namespace Removal

structure Sys where
  lock : Bravo.Sys
  /-- The thread runs the original functions. -/
  switched : Tid → Bool
  /-- `post_unpatch_callback` has run. -/
  unpatched : Bool

def Sys.init (cpu : Tid → Nat) : Sys := ⟨.init cpu, fun _ => false, false⟩

inductive Event where
  /-- A step of a thread in the patched functions, or a migration. -/
  | patched (a : Act)
  | switch (t : Tid)
  -- calls of the original functions
  | downRead (t : Tid)
  | upRead (t : Tid) (r : Read)
  | downWrite (t : Tid)
  | upWrite (t : Tid)
  /-- `post_unpatch_callback` -/
  | unpatch
  deriving DecidableEq

/-- The action is one of a thread that runs the patched functions. -/
def runsPatched (s : Sys) : Act → Bool
  | .migrate _ _ => true
  | a => !s.switched a.thread

/-- The original functions, on the underlying lock. A call that has to wait is made when it
returns. -/
def step (NCPU : Nat) (threads : List Tid) (s : Sys) : Event → Option Sys
  | .patched a =>
    if a.thread ∈ threads ∧ runsPatched s a then
      (Bravo.step NCPU s.lock a).map fun l => { s with lock := l }
    else none
  | .switch t =>
    if t ∈ threads ∧ (s.lock.pc t).outside then
      some { s with switched := Function.update s.switched t true }
    else none
  | .downRead t =>
    if s.switched t ∧ s.lock.pc t = .idle ∧ s.lock.writer = none then
      let r := s.lock.newRead t .slow
      some { s with
        lock := { s.lock.openRead r with readers := s.lock.readers + 1 }.returnHeld t r }
    else none
  | .upRead t r =>
    if s.switched t ∧ s.lock.pc t = .idle ∧ r ∈ s.lock.held then
      some { s with
        lock := { s.lock with
          held := s.lock.held.erase r
          readers := s.lock.readers - 1 }.closeRead t r }
    else none
  | .downWrite t =>
    if s.switched t ∧ s.lock.pc t = .idle ∧ s.lock.writer = none ∧ s.lock.readers = 0 then
      some { s with lock := { s.lock with writer := some t }.setPc t .writing }
    else none
  | .upWrite t =>
    if s.switched t ∧ s.lock.pc t = .writing then
      some { s with lock := { s.lock with writer := none }.setPc t .idle }
    else none
  | .unpatch =>
    -- there is a thread, if only the one that runs the callback
    if threads ≠ [] ∧ ∀ t ∈ threads, s.switched t = true then
      some { s with
        lock := { s.lock with allocated := false, rBias := 0, perCpuData := fun _ => 0 }
        unpatched := true }
    else none

/-- No read past the lock is open or under way. -/
def Drained (s : Bravo.Sys) : Prop :=
  (∀ r ∈ s.reads, r.path = .slow) ∧ ∀ t, (s.pc t).entering = false

/-- Threads are switched only while the patched readers are drained, and from the first switch on
the patched `down_read` is not called. Until then the schedule is one that BRAVO is made for. -/
def Quiet (NCPU : Nat) (s : Sys) : Event → Prop
  | .patched a => ((∀ u, s.switched u = false) → Pinned NCPU s.lock a) ∧
      ∀ t u, a = .downRead t → s.switched u = false
  | .switch _ => Drained s.lock
  | _ => True

/-! ## Slow reads only -/

/-- Every read that is on record anywhere went through the lock. -/
structure Slow (s : Bravo.Sys) : Prop where
  reads : ∀ r ∈ s.reads, r.path = .slow
  held : ∀ r ∈ s.held, r.path = .slow
  busy : ∀ t r, busy s t = some r → r.path = .slow
  entering : ∀ t, (s.pc t).entering = false

section Slow

variable {NCPU : Nat} {s s' : Bravo.Sys}

theorem slow_of_drained (hb : Booked s) (hd : Drained s) : Slow s where
  reads := hd.1
  held := fun r hr => hd.1 r (hb.ledger.held_live r hr)
  busy := fun t r hr => hd.1 r (hb.ledger.busy_live t r hr)
  entering := hd.2

/-- A thread moves on, with reads that were there before or went through the lock. -/
theorem Slow.move (hs : Slow s) {t : Tid} {p : Pc}
    (hr : ∀ r ∈ s'.reads, r ∈ s.reads ∨ r.path = .slow)
    (hh : ∀ r ∈ s'.held, r ∈ s.held ∨ r.path = .slow)
    (hpc : s'.pc = Function.update s.pc t p) (hp : p.entering = false)
    (hb : ∀ r, p.read? = some r → r.path = .slow) : Slow s' where
  reads := fun r h => (hr r h).elim (hs.reads r) id
  held := fun r h => (hh r h).elim (hs.held r) id
  busy := by
    intro u r h
    rw [Bravo.busy, hpc] at h
    by_cases hu : u = t
    · rw [hu, Function.update_self] at h
      exact hb r h
    · rw [Function.update_of_ne hu] at h
      exact hs.busy u r h
  entering := by
    intro u
    rw [hpc]
    by_cases hu : u = t
    · rw [hu, Function.update_self, hp]
    · rw [Function.update_of_ne hu]
      exact hs.entering u

/-- The read at hand, if any, is one of those before. -/
theorem Slow.read (hs : Slow s) {t : Tid} {p : Pc} (hp : s.pc t = p) {r : Read}
    (hr : p.read? = some r) : r.path = .slow :=
  hs.busy t r (by rw [Bravo.busy, hp]; exact hr)

theorem Slow.not_entering (hs : Slow s) {t : Tid} {p : Pc} (hp : s.pc t = p)
    (he : p.entering = true) : False := by
  have := hs.entering t
  rw [hp, he] at this
  cases this

theorem Slow.tr (hs : Slow s) {a : Act} (h : Tr NCPU s a s') (ha : ∀ t, a ≠ .downRead t) :
    Slow s' := by
  cases h with
  | downFast | downSlow => exact absurd rfl (ha _)
  | biasSet hp | biasClear hp | slotFree hp | slotBusy hp | slotStore hp | recheckPass hp
  | recheckFail hp | slotUndo hp => exact (hs.not_entering hp rfl).elim
  | migrate => exact ⟨hs.reads, hs.held, hs.busy, hs.entering⟩
  | scanBusy => exact hs
  | upFast _ hm | upSlow _ hm =>
    refine hs.move (fun r h => .inl h) (fun r h => .inl (List.mem_of_mem_erase h)) rfl rfl ?_
    rintro r ⟨⟩
    exact hs.held _ hm
  | readLock =>
    refine hs.move (fun r h => ?_) (fun r h => .inl h) rfl rfl ?_
    · rcases List.mem_cons.1 h with rfl | h
      · exact .inr rfl
      · exact .inl h
    · rintro r ⟨⟩
      rfl
  | acqedSet hp | acqedStore hp =>
    refine hs.move (fun r h => .inl h) (fun r h => ?_) rfl rfl (by rintro r ⟨⟩)
    rcases List.mem_cons.1 h with rfl | h
    · exact .inr (hs.read hp rfl)
    · exact .inl h
  | relStore | readUnlock =>
    exact hs.move (fun r h => .inl (List.mem_of_mem_erase h)) (fun r h => .inl h) rfl rfl
      (by rintro r ⟨⟩)
  | acqedZero hp | relHit hp | relMiss hp =>
    refine hs.move (fun r h => .inl h) (fun r h => .inl h) rfl rfl ?_
    rintro r ⟨⟩
    exact hs.read hp rfl
  | downWrite | upWrite | giveUp | writeLock | testSet | testClear | biasStore | scanFree
  | scanDone =>
    exact hs.move (fun r h => .inl h) (fun r h => .inl h) rfl rfl (by rintro r ⟨⟩)

end Slow

/-! ## Runs -/

/-- Before the first switch the lock is the patched one; from then on its reads are slow. -/
structure Calm (NCPU : Nat) (threads : List Tid) (s : Sys) : Prop where
  zeroed : Zeroed s.lock
  outside : ∀ t, s.switched t = true ∨ t ∉ threads → (s.lock.pc t).outside = true
  before : (∀ u, s.switched u = false) → Safe NCPU s.lock
  after : ∀ u, s.switched u = true → Slow s.lock

section Run

variable {NCPU : Nat} {threads : List Tid} {s s' : Sys}

theorem calm_init {cpu : Tid → Nat} (hcpu : ∀ t, cpu t < NCPU) :
    Calm NCPU threads (.init cpu) where
  zeroed := zeroed_init cpu
  outside := fun _ _ => rfl
  before := fun _ => safe_init hcpu
  after := fun _ h => by cases h

theorem Calm.patched (hc : Calm NCPU threads s) {a : Act} (hok : Quiet NCPU s (.patched a))
    {l : Bravo.Sys} (hmem : a.thread ∈ threads) (hrun : runsPatched s a = true)
    (hl : Bravo.step NCPU s.lock a = some l) : Calm NCPU threads { s with lock := l } := by
  have htr := step_tr hc.zeroed hl
  refine ⟨zeroed_tr hc.zeroed htr, fun t ht => ?_, fun h => ?_, fun u hu => ?_⟩
  · by_cases hta : t = a.thread
    · -- only a migration is an action of a thread that has been switched
      have hsw : s.switched a.thread = true := by
        rcases ht with ht | ht
        · exact hta ▸ ht
        · exact absurd (hta ▸ hmem) ht
      cases a with
      | migrate t c => cases hl; exact hc.outside _ ht
      | _ => simp only [runsPatched, hsw, Bool.not_true] at hrun; cases hrun
    · rw [pc_frame htr hta]
      exact hc.outside t ht
  · exact (hc.before h).step (hok.1 h) hl
  · refine (hc.after u hu).tr htr fun t ha => ?_
    have := hok.2 t u ha
    rw [show s.switched u = true from hu] at this
    cases this

theorem Calm.switch (hc : Calm NCPU threads s) {t : Tid} (hd : Drained s.lock)
    (hout : (s.lock.pc t).outside = true) :
    Calm NCPU threads { s with switched := Function.update s.switched t true } := by
  have hslow : Slow s.lock := by
    by_cases h : ∃ u, s.switched u = true
    · obtain ⟨u, hu⟩ := h
      exact hc.after u hu
    · have hb : ∀ u, s.switched u = false := by
        intro u
        rw [← Bool.not_eq_true]
        exact fun hu => h ⟨u, hu⟩
      exact slow_of_drained (hc.before hb).booked hd
  refine ⟨hc.zeroed, fun u hu => ?_, fun h => ?_, fun _ _ => hslow⟩
  · by_cases hut : u = t
    · exact hut ▸ hout
    · refine hc.outside u (hu.imp_left fun hu => ?_)
      dsimp only at hu
      rwa [Function.update_of_ne hut] at hu
  · have := h t
    dsimp only at this
    rw [Function.update_self] at this
    cases this

/-- A call of an original function. -/
theorem Calm.original (hc : Calm NCPU threads s) {t : Tid} (ht : s.switched t = true)
    {l : Bravo.Sys} {p : Pc} (ha : l.allocated = s.lock.allocated) (hb : l.rBias = s.lock.rBias)
    (hs : l.perCpuData = s.lock.perCpuData) (hpc : l.pc = Function.update s.lock.pc t p)
    (hp : p.outside = true)
    (hr : ∀ r ∈ l.reads, r ∈ s.lock.reads ∨ r.path = .slow)
    (hh : ∀ r ∈ l.held, r ∈ s.lock.held ∨ r.path = .slow) :
    Calm NCPU threads { s with lock := l } := by
  have hpc' := Pc.of_outside hp
  refine ⟨hc.zeroed.move ha hb hs hpc hpc'.1, fun u hu => ?_, fun h => ?_, fun u hu => ?_⟩
  · dsimp only
    rw [hpc]
    by_cases hut : u = t
    · rw [hut, Function.update_self, hp]
    · rw [Function.update_of_ne hut]
      exact hc.outside u hu
  · have := h t
    rw [show s.switched t = true from ht] at this
    cases this
  · exact (hc.after t ht).move hr hh hpc hpc'.2.1 fun r hr => by rw [hpc'.2.2] at hr; cases hr

theorem Calm.unpatch (hc : Calm NCPU threads s) (hne : threads ≠ [])
    (hall : ∀ t ∈ threads, s.switched t = true) : Calm NCPU threads { s with
      lock := { s.lock with allocated := false, rBias := 0, perCpuData := fun _ => 0 }
      unpatched := true } := by
  obtain ⟨u, hu⟩ := List.exists_mem_of_ne_nil _ hne
  have hslow := hc.after u (hall u hu)
  refine ⟨⟨fun _ => rfl, fun _ _ => rfl, fun t ht => ?_⟩, hc.outside, fun h => ?_,
    fun _ _ => ?_⟩
  · -- everybody is in none of the functions, and so does not use the record
    have hout : (s.lock.pc t).outside = true := by
      by_cases hm : t ∈ threads
      · exact hc.outside t (.inl (hall t hm))
      · exact hc.outside t (.inr hm)
    have hno := (Pc.of_outside hout).1
    rw [show (s.lock.pc t).usesRecord = true from ht] at hno
    cases hno
  · have := h u
    rw [show s.switched u = true from hall u hu] at this
    cases this
  · exact ⟨hslow.reads, hslow.held, hslow.busy, hslow.entering⟩

theorem Calm.step (hc : Calm NCPU threads s) {e : Event} (hok : Quiet NCPU s e)
    (hs : step NCPU threads s e = some s') : Calm NCPU threads s' := by
  cases e with
  | patched a =>
    simp only [Removal.step] at hs
    split at hs
    · rename_i h
      obtain ⟨l, hl, rfl⟩ := Option.map_eq_some_iff.1 hs
      exact hc.patched hok h.1 h.2 hl
    · cases hs
  | switch t =>
    simp only [Removal.step] at hs
    split at hs
    · rename_i h
      cases hs
      exact hc.switch hok h.2
    · cases hs
  | downRead t =>
    simp only [Removal.step] at hs
    split at hs
    · rename_i h
      cases hs
      refine hc.original h.1 rfl rfl rfl rfl rfl (fun r hr => ?_) fun r hr => ?_
      · exact (List.mem_cons.1 hr).elim (fun e => .inr (e ▸ rfl)) .inl
      · exact (List.mem_cons.1 hr).elim (fun e => .inr (e ▸ rfl)) .inl
    · cases hs
  | upRead t r =>
    simp only [Removal.step] at hs
    split at hs
    · rename_i h
      cases hs
      exact hc.original h.1 rfl rfl rfl rfl rfl (fun q hq => .inl (List.mem_of_mem_erase hq))
        fun q hq => .inl (List.mem_of_mem_erase hq)
    · cases hs
  | downWrite t =>
    simp only [Removal.step] at hs
    split at hs
    · rename_i h
      cases hs
      exact hc.original h.1 rfl rfl rfl rfl rfl (fun r hr => .inl hr) fun r hr => .inl hr
    · cases hs
  | upWrite t =>
    simp only [Removal.step] at hs
    split at hs
    · rename_i h
      cases hs
      exact hc.original h.1 rfl rfl rfl rfl rfl (fun r hr => .inl hr) fun r hr => .inl hr
    · cases hs
  | unpatch =>
    simp only [Removal.step] at hs
    split at hs
    · rename_i h
      cases hs
      exact hc.unpatch h.1 h.2
    · cases hs

/-- In a run that drains the patched readers before it switches threads, the original `up_read`
gives back only reads that went through the lock, and no thread that has returned from `down_write`
meets a read that went past it. -/
theorem bravo_removal_drained {cpu : Tid → Nat} (hcpu : ∀ t, cpu t < NCPU)
    (h : Reach (Removal.step NCPU threads) (Quiet NCPU) (.init cpu) s) :
    (∀ t r s', Removal.step NCPU threads s (.upRead t r) = some s' → r.path = .slow) ∧
      ∀ w, s.lock.pc w = .writing → ∀ r ∈ s.lock.held, r.path = .slow := by
  have hc : Calm NCPU threads s :=
    h.invariant (calm_init hcpu) fun _ _ _ hc hok hs => hc.step hok hs
  refine ⟨fun t r s' hs => ?_, fun w hw r hr => ?_⟩
  · simp only [Removal.step] at hs
    split at hs
    · rename_i hg
      exact (hc.after t hg.1).held r hg.2.2
    · cases hs
  · by_cases hsw : ∃ u, s.switched u = true
    · obtain ⟨u, hu⟩ := hsw
      exact (hc.after u hu).held r hr
    · -- nobody has been switched: the patched lock excludes every reader
      have hb : ∀ u, s.switched u = false := by
        intro u
        rw [← Bool.not_eq_true]
        exact fun hu => hsw ⟨u, hu⟩
      have hsafe := hc.before hb
      have := hsafe.booked.ledger.held_live r hr
      rw [hsafe.no_reads hw] at this
      cases this

end Run

/-! ## Runs with two threads -/

def reader : Tid := ⟨1, Tid.one_ne_zero⟩

def writer : Tid := ⟨2, Tid.two_ne_zero⟩

/-- The writer is the only thread that may be in the lock functions. -/
def OnlyWriter (pc : Tid → Pc) : Prop := ∀ u, u ≠ writer → pc u = .idle

theorem OnlyWriter.update {pc : Tid → Pc} (h : OnlyWriter pc) (p : Pc) :
    OnlyWriter (Function.update pc writer p) :=
  fun u hu => (Function.update_of_ne hu p pc).trans (h u hu)

theorem quiet_writer {s : Sys} {a : Act} (hp : OnlyWriter s.lock.pc)
    (ha : a = .downWrite writer ∨ a = .next writer) : Quiet 2 s (.patched a) := by
  have hun : Unpreempted s.lock writer := fun u hu _ => by rw [hp u hu]; rfl
  rcases ha with rfl | rfl
  · exact ⟨fun _ => hun, fun t u h => by cases h⟩
  · exact ⟨fun _ => hun, fun t u h => by cases h⟩

theorem quiet_switch {s : Sys} {t : Tid} (hr : s.lock.reads = []) (hp : OnlyWriter s.lock.pc)
    (hw : (s.lock.pc writer).entering = false) : Quiet 2 s (.switch t) := by
  refine ⟨fun r h => ?_, fun u => ?_⟩
  · rw [hr] at h
    cases h
  · by_cases hu : u = writer
    · rw [hu, hw]
    · rw [hp u hu]
      rfl

/-- The writer is switched while it has the lock; the reader then gets it with the original
`down_read`. -/
theorem bravo_removal_drained_writer : ∃ s : Sys,
    Reach (Removal.step 2 [reader, writer]) (Quiet 2) (.init fun _ => 0) s ∧
      s.lock.held = [⟨0, reader, .slow⟩] ∧
      (∀ t r s', Removal.step 2 [reader, writer] s (.upRead t r) = some s' → r.path = .slow) ∧
      ∀ w, s.lock.pc w = .writing → ∀ r ∈ s.lock.held, r.path = .slow := by
  have i₀ : OnlyWriter fun _ => .idle := fun _ _ => rfl
  have i₁ := i₀.update .writeLock
  have i₂ := i₁.update .wrTest
  have i₃ := i₂.update .writing
  have h₁ : Reach (Removal.step 2 [reader, writer]) (Quiet 2) (.init fun _ => 0) _ :=
    Reach.start.next (a := .patched (.downWrite writer)) (quiet_writer i₀ (.inl rfl)) rfl
  have h₂ := h₁.next (a := .patched (.next writer)) (quiet_writer i₁ (.inr rfl)) rfl
  have h₃ := h₂.next (a := .patched (.next writer)) (quiet_writer i₂ (.inr rfl)) rfl
  have h₄ := h₃.next (a := .switch writer) (quiet_switch rfl i₃ rfl) rfl
  have h₅ := h₄.next (a := Event.upWrite writer) (show True from trivial) rfl
  have h₆ := h₅.next (a := .switch reader) (quiet_switch rfl (i₃.update .idle) rfl) rfl
  have h₇ := h₆.next (a := Event.downRead reader) (show True from trivial) rfl
  exact ⟨_, h₇, rfl, bravo_removal_drained (fun _ => by decide) h₇⟩

/-- The reader reads through the lock, which sets `RBias`, gives it back, and reads past it. Then
both threads are switched. -/
def readsPast : List Event :=
  [.downRead reader, .next reader, .next reader, .next reader,
    .upRead reader ⟨0, reader, .slow⟩, .next reader, .next reader,
    .downRead reader, .next reader, .next reader, .next reader, .next reader].map .patched ++
  [.switch reader, .switch writer]

/-- The read is given back to a lock that has not counted it, and the writer gets in beside it. -/
theorem bravo_removal_bypassed : ∃ (s : Sys) (r : Read),
    Reach (Removal.step 2 [reader, writer]) anyStep (.init fun _ => 0) s ∧
      r ∈ s.lock.held ∧ r.path = .bypass 0 ∧
      (∃ s', Removal.step 2 [reader, writer] s (.upRead reader r) = some s' ∧
        s'.lock.readers = -1) ∧
      ∃ s', Removal.step 2 [reader, writer] s (.downWrite writer) = some s' ∧
        s'.lock.pc writer = .writing ∧ r ∈ s'.lock.held := by
  have h : Reach (Removal.step 2 [reader, writer]) anyStep (.init fun _ => 0) _ :=
    exec_reach (show exec _ _ _ readsPast = some _ from rfl)
  refine ⟨_, ⟨1, reader, .bypass 0⟩, h, ?_, rfl, ⟨_, rfl, ?_⟩, ⟨_, rfl, ?_, ?_⟩⟩
  · decide
  · decide
  · decide
  · decide

end Removal
end Bravo
end SynCord
