import SynCord.Bravo.Exclusion
import SynCord.RwLock
import SynCord.Trace

/-!
# SynCord.Bravo.Refine

Seen from its callers the patched semaphore is a lock for readers and writers. What is seen is the
return of `down_read` and `down_write`, by whichever way it comes, and the call of `up_read` and
`up_write` (`seen`); what they do to the bias, the slots and the underlying lock is not.

* `Safe.seen_step` — one step is an operation of the lock, or nothing.
* `bravo_refines_rwlock` — the calls and returns of every run are a run of the lock.
-/

namespace SynCord
namespace Bravo

/-- The lock as its callers see it. -/
def Sys.view (s : Sys) : RwLock Read Tid where
  readers := s.held
  writer := s.writer.filter fun w => s.pc w = .writing

/-- The call or return that a step is, if it is one. -/
def seen (NCPU : Nat) (s : Sys) : Act → Option (RwLock.Op Read Tid)
  | .next t =>
    match s.pc t with
    | .acqRecheck c =>
      if s.rBias = 1 then some (.acquireRead (s.newRead t (.bypass c))) else none
    | .acqedLoad r => if s.getOrAlloc.rBias = 0 then none else some (.acquireRead r)
    | .acqedStore r => some (.acquireRead r)
    | .wrTest => if s.getOrAlloc.rBias = 1 then none else some (.acquireWrite t)
    | .wrScan i => if i < NCPU then none else some (.acquireWrite t)
    | .idle | .acqBias _ | .acqSlot _ | .acqStore _ | .acqUndo _ | .downSlow => none
    | .relSlot _ _ | .relStore _ _ | .upSlow _ | .writeLock | .wrClear | .writing => none
  | .upRead _ r => some (.releaseRead r)
  | .upWrite t => some (.releaseWrite t)
  | .downRead _ | .downWrite _ | .giveUp _ | .migrate _ _ => none

section Step

variable {NCPU : Nat} {s s' : Sys} {a : Act} {t : Tid}

theorem view_writer_eq_some {w : Tid} (hm : Manned s) :
    s.view.writer = some w ↔ s.pc w = .writing := by
  simp only [Sys.view, Option.filter_eq_some_iff, decide_eq_true_eq, hm.writer w]
  refine ⟨fun h => h.2, fun h => ⟨?_, h⟩⟩
  rw [h]
  rfl

theorem view_writer_eq_none (hm : Manned s) :
    s.view.writer = none ↔ ∀ w, s.pc w ≠ .writing := by
  rw [Option.eq_none_iff_forall_ne_some]
  simp only [Ne, view_writer_eq_some hm]

/-- Whether a thread writes is all that the view shows of program counters. -/
theorem view_writer_congr (hm : Manned s) (hm' : Manned s')
    (h : ∀ w, s'.pc w = .writing ↔ s.pc w = .writing) : s'.view.writer = s.view.writer := by
  refine Option.ext fun w => ?_
  rw [view_writer_eq_some hm, view_writer_eq_some hm', h]

theorem writing_congr (h : Tr NCPU s a s')
    (ha : s'.pc a.thread = .writing ↔ s.pc a.thread = .writing) (w : Tid) :
    s'.pc w = .writing ↔ s.pc w = .writing := by
  by_cases hw : w = a.thread
  · rw [hw]; exact ha
  · rw [pc_frame h hw]

/-- A step that is not seen leaves the view as it is. -/
theorem view_eq (hm : Manned s) (hm' : Manned s') (h : Tr NCPU s a s') (hh : s'.held = s.held)
    (ha : s'.pc a.thread = .writing ↔ s.pc a.thread = .writing) : s'.view = s.view := by
  have hw := view_writer_congr hm hm' (writing_congr h ha)
  rw [Sys.view] at hw ⊢
  rw [Sys.view, hh]
  exact congrArg (RwLock.mk s.held) hw

/-- Nobody writes when a read is handed out. -/
theorem Safe.seen_acquireRead (hs : Safe NCPU s) (hs' : Safe NCPU s') (h : Tr NCPU s a s')
    {r : Read} (hh : s'.held = r :: s.held) (hn : s.pc a.thread ≠ .writing)
    (hn' : s'.pc a.thread ≠ .writing) :
    RwLock.step s.view (.acquireRead r) = some s'.view := by
  have hnone : ∀ w, s'.pc w ≠ .writing := by
    intro w hw
    have hlive := hs'.booked.ledger.held_live r (by rw [hh]; exact List.mem_cons_self)
    rw [hs'.no_reads hw] at hlive
    cases hlive
  have hsame := writing_congr h (iff_of_false hn' hn)
  have hw : s.view.writer = none :=
    (view_writer_eq_none hs.manned).2 fun w hw => hnone w ((hsame w).2 hw)
  have hw' : s'.view.writer = none := (view_writer_eq_none hs'.manned).2 hnone
  have hview : s'.view = ⟨r :: s.held, none⟩ := by
    rw [← hw', ← hh]
    rfl
  rw [RwLock.step, if_pos hw, hview]
  rfl

/-- Nobody reads or writes when a writer is let in. -/
theorem Safe.seen_acquireWrite (hs : Safe NCPU s) (hs' : Safe NCPU s') (h : Tr NCPU s (.next t) s')
    (hh : s'.held = s.held) (hn : s.pc t ≠ .writing) (hw : s'.pc t = .writing) :
    RwLock.step s.view (.acquireWrite t) = some s'.view := by
  have hheld : s.held = [] := by
    refine List.eq_nil_iff_forall_not_mem.2 fun r hr => ?_
    have hlive := hs'.booked.ledger.held_live r (by rw [hh]; exact hr)
    rw [hs'.no_reads hw] at hlive
    cases hlive
  have hnone : s.view.writer = none := by
    refine (view_writer_eq_none hs.manned).2 fun w hpw => ?_
    -- it would still write after the step, beside `t`
    have hwt : w ≠ t := fun e => hn (e ▸ hpw)
    have h1 := (view_writer_eq_some hs'.manned).2 hw
    have h2 := (view_writer_eq_some hs'.manned).2 ((pc_frame h hwt).trans hpw)
    exact hwt (Option.some.inj (h2.symm.trans h1))
  have hview : s'.view = ⟨s.view.readers, some t⟩ := by
    rw [← (view_writer_eq_some hs'.manned).2 hw]
    exact congrArg (RwLock.mk · s'.view.writer) hh
  rw [RwLock.step, if_pos ⟨hnone, hheld⟩, hview]

theorem seen_releaseRead (hm : Manned s) (hm' : Manned s') (h : Tr NCPU s a s') {r : Read}
    (hr : r ∈ s.held) (hh : s'.held = s.held.erase r) (hn : s.pc a.thread ≠ .writing)
    (hn' : s'.pc a.thread ≠ .writing) :
    RwLock.step s.view (.releaseRead r) = some s'.view := by
  have hw := view_writer_congr hm hm' (writing_congr h (iff_of_false hn' hn))
  have hview : s'.view = ⟨s.view.readers.erase r, s.view.writer⟩ := by
    rw [← hw]
    exact congrArg (RwLock.mk · s'.view.writer) hh
  rw [RwLock.step, if_pos (show r ∈ s.view.readers from hr), hview]

theorem seen_releaseWrite (hm : Manned s) (hm' : Manned s') (h : Tr NCPU s (.upWrite t) s')
    (hh : s'.held = s.held) (hw : s.pc t = .writing) (hn : s'.pc t ≠ .writing) :
    RwLock.step s.view (.releaseWrite t) = some s'.view := by
  have hsome := (view_writer_eq_some hm).2 hw
  have hnone : s'.view.writer = none := by
    refine (view_writer_eq_none hm').2 fun w hpw => ?_
    have hwt : w ≠ t := fun e => hn (e ▸ hpw)
    have h1 := (view_writer_eq_some hm).2 ((pc_frame h hwt).symm.trans hpw)
    exact hwt (Option.some.inj (h1.symm.trans hsome))
  have hview : s'.view = { s.view with writer := none } := by
    rw [← hnone]
    exact congrArg (RwLock.mk · s'.view.writer) hh
  rw [RwLock.step, if_pos hsome, hview]

theorem Safe.seen_step (hs : Safe NCPU s) (hs' : Safe NCPU s') (h : Tr NCPU s a s') :
    Seen RwLock.step s.view (seen NCPU s a) s'.view := by
  have hm := hs.manned
  have hm' := hs'.manned
  have halloc : s.getOrAlloc.rBias = s.rBias := by rw [hs.zeroed.getOrAlloc_eq]
  cases id h with
  | upFast hp hr _ | upSlow hp hr _ =>
    exact seen_releaseRead hm hm' h hr rfl (by simp [Act.thread, hp]) (by simp [Act.thread])
  | upWrite hp => exact seen_releaseWrite hm hm' h rfl hp (by simp)
  | recheckPass hp hb =>
    simp only [seen, hp, if_pos hb]
    exact hs.seen_acquireRead hs' h rfl (by simp [Act.thread, hp]) (by simp [Act.thread])
  | acqedSet hp hb =>
    simp only [seen, hp, halloc, if_neg hb]
    exact hs.seen_acquireRead hs' h rfl (by simp [Act.thread, hp]) (by simp [Act.thread])
  | acqedStore hp =>
    simp only [seen, hp]
    exact hs.seen_acquireRead hs' h rfl (by simp [Act.thread, hp]) (by simp [Act.thread])
  | testClear hp hb =>
    simp only [seen, hp, halloc, if_neg hb]
    exact hs.seen_acquireWrite hs' h rfl (by simp [hp]) (by simp)
  | scanDone hp hi =>
    simp only [seen, hp, if_neg (Nat.not_lt.2 hi)]
    exact hs.seen_acquireWrite hs' h rfl (by simp [hp]) (by simp)
  | giveUp hp =>
    refine view_eq hm hm' h rfl ?_
    rcases hp with hp | hp <;> simp [Act.thread, hp]
  | downFast hp _ | downSlow hp _ | downWrite hp =>
    exact view_eq hm hm' h rfl (by simp [Act.thread, hp])
  | migrate => exact view_eq hm hm' h rfl Iff.rfl
  | recheckFail hp hb =>
    simp only [seen, hp, if_neg hb]
    exact view_eq hm hm' h rfl (by simp [Act.thread, hp])
  | acqedZero hp hb | testSet hp hb =>
    simp only [seen, hp, halloc, if_pos hb]
    exact view_eq hm hm' h rfl (by simp [Act.thread, hp])
  | scanFree hp hi _ =>
    simp only [seen, hp, if_pos hi]
    exact view_eq hm hm' h rfl (by simp [Act.thread, hp])
  | scanBusy hp hi _ =>
    simp only [seen, hp, if_pos hi]
    exact view_eq hm hm' h rfl Iff.rfl
  | biasSet hp _ | biasClear hp _ | slotFree hp _ | slotBusy hp _ | slotStore hp | slotUndo hp
  | readLock hp _ | relHit hp _ | relMiss hp _ | relStore hp | readUnlock hp | writeLock hp _ _
  | biasStore hp =>
    simp only [seen, hp]
    exact view_eq hm hm' h rfl (by simp [Act.thread, hp])

end Step

/-- What the callers see of a run, under the schedules BRAVO is made for, is a run of a lock for
readers and writers, from the free lock to what they see in the end. -/
theorem bravo_refines_rwlock {NCPU : Nat} {cpu : Tid → Nat} (hcpu : ∀ t, cpu t < NCPU) {s : Sys}
    {l : List (RwLock.Op Read Tid)}
    (h : Trace (step NCPU) (Pinned NCPU) (seen NCPU) (.init cpu) l s) :
    exec RwLock.step anyStep .free l = some s.view := by
  refine h.simulates Sys.view (safe_init hcpu) (fun _ _ _ hs hp hst => hs.step hp hst) ?_
  intro s a s' hs hp hst
  exact hs.seen_step (hs.step hp hst) (step_tr hs.zeroed hst)

/-- A reader goes through the lock, then past it, and a writer comes after it. -/
theorem bravo_refines_rwlock_handover : ∃ s : Sys, s.view = ⟨[], some threadW⟩ ∧
    exec RwLock.step anyStep .free
      [.acquireRead ⟨0, threadR, .slow⟩, .releaseRead ⟨0, threadR, .slow⟩,
        .acquireRead ⟨1, threadR, .bypass 0⟩, .releaseRead ⟨1, threadR, .bypass 0⟩,
        .acquireWrite threadW] = some s.view := by
  have hrun : (exec (step 2) (Among [threadR, threadW]) (.init ownCpu) handover).isSome = true := by
    decide
  obtain ⟨s, hs⟩ := Option.isSome_iff_exists.1 hrun
  have htrace : Trace (step 2) (Pinned 2) (seen 2) (.init ownCpu) _ s :=
    (exec_trace (seen 2) hs).strengthen apart_init (fun _ _ _ h ha hst => h.step ha hst)
      fun _ _ h ha => h.pinned ownCpu_inj ha
  have hview := bravo_refines_rwlock ownCpu_lt htrace
  exact ⟨s, (Option.some.inj hview).symm, hview⟩

end Bravo
end SynCord
