import SynCord.Bravo.Slots

/-!
# SynCord.Bravo.Downgrade

`downgrade_write` of `bravo.patch`: `up_write`, then `down_read`. In between the thread has nothing,
and afterwards it may wait in `down_read` like everybody else.

* `downgrade_overtaken` — a writer that waits gets the lock in the middle of the downgrade.
* `downgrade_undisturbed` — none does if nobody is in `down_write` when `downgrade_write` is called,
  and nobody calls it before `downgrade_write` returns.
-/

namespace SynCord
namespace Bravo

/-- Between the call and the return of `down_write`. -/
def Pc.inDownWrite : Pc → Bool
  | .writeLock | .wrTest | .wrClear | .wrScan _ => true
  | .idle | .writing => false
  | .acqBias _ | .acqSlot _ | .acqStore _ | .acqRecheck _ | .acqUndo _ => false
  | .downSlow | .acqedLoad _ | .acqedStore _ | .relSlot _ _ | .relStore _ _ | .upSlow _ => false

/-- The write lock is got by threads that called `down_write`. -/
theorem write_origin {NCPU : Nat} {s s' : Sys} {a : Act} (h : Tr NCPU s a s') {u : Tid}
    (hn : (s.pc u).inDownWrite = false) :
    (a ≠ .downWrite u → (s'.pc u).inDownWrite = false) ∧
      (s.pc u ≠ .writing → s'.pc u ≠ .writing) := by
  by_cases hu : u = a.thread
  · subst hu
    cases h with
    | downWrite => exact ⟨absurd rfl, by simp [Act.thread]⟩
    | migrate | scanBusy => exact ⟨fun _ => hn, id⟩
    | writeLock hp | testSet hp | testClear hp | biasStore hp | scanFree hp | scanDone hp =>
      simp only [Act.thread, hp] at hn
      cases hn
    | _ => simp [Act.thread, Pc.inDownWrite]
  · rw [pc_frame h hu]
    exact ⟨fun _ => hn, id⟩

namespace Downgrade

/-- What a thread in `downgrade_write` does next. -/
inductive Stage where
  | upWrite
  | downRead
  /-- It is in `down_read`. -/
  | reading
  deriving DecidableEq

def Stage.act (t : Tid) : Stage → Act
  | .upWrite => .upWrite t
  | .downRead => .downRead t
  | .reading => .next t

/-- The stage after that, where `p` is the point the thread has got to. -/
def Stage.after (p : Pc) : Stage → Option Stage
  | .upWrite => some .downRead
  | .downRead => some .reading
  | .reading => if p = .idle then none else some .reading

structure Sys where
  lock : Bravo.Sys
  /-- `none` for a thread that is not in `downgrade_write`. -/
  stage : Tid → Option Stage

def Sys.init (cpu : Tid → Nat) : Sys := ⟨.init cpu, fun _ => none⟩

inductive Event where
  /-- A step of a thread in one of the other functions, or a migration. -/
  | act (a : Act)
  | downgradeWrite (t : Tid)
  /-- A step of a thread in `downgrade_write`. -/
  | next (t : Tid)
  deriving DecidableEq

def ownAct (s : Sys) : Act → Bool
  | .migrate _ _ => true
  | a => s.stage a.thread = none

def step (NCPU : Nat) (s : Sys) : Event → Option Sys
  | .act a =>
    if ownAct s a then (Bravo.step NCPU s.lock a).map fun l => { s with lock := l } else none
  | .downgradeWrite t =>
    if s.lock.pc t = .writing ∧ s.stage t = none then
      some { s with stage := Function.update s.stage t (some .upWrite) }
    else none
  | .next t => do
    let g ← s.stage t
    let l ← Bravo.step NCPU s.lock (g.act t)
    return { lock := l, stage := Function.update s.stage t (g.after (l.pc t)) }

/-- `downgrade_write` is called while nobody is in `down_write`, and `down_write` is called while
nobody is in `downgrade_write`. -/
def Undisturbed (s : Sys) : Event → Prop
  | .downgradeWrite _ => ∀ u, (s.lock.pc u).inDownWrite = false
  | .act (.downWrite _) => ∀ t, s.stage t = none
  | _ => True

/-- Nobody is in `down_write` during a downgrade. -/
structure Still (s : Sys) : Prop where
  zeroed : Zeroed s.lock
  nobody : ∀ t, s.stage t ≠ none → ∀ u, (s.lock.pc u).inDownWrite = false

variable {NCPU : Nat} {s s' : Sys}

theorem still_init (cpu : Tid → Nat) : Still (.init cpu) where
  zeroed := zeroed_init cpu
  nobody := fun _ h => absurd rfl h

/-- Every step but the call is one of the lock underneath. -/
theorem step_lock (hs : Still s) {e : Event} (h : step NCPU s e = some s') :
    (∃ t, e = .downgradeWrite t ∧ s'.lock = s.lock) ∨
      ∃ a, Tr NCPU s.lock a s'.lock ∧
        ((e = .act a ∧ s'.stage = s.stage) ∨ ∃ t, s.stage t ≠ none ∧ ∀ u, a ≠ .downWrite u) := by
  cases e with
  | act a =>
    simp only [step] at h
    split at h
    · obtain ⟨l, hl, rfl⟩ := Option.map_eq_some_iff.1 h
      exact .inr ⟨a, step_tr hs.zeroed hl, .inl ⟨rfl, rfl⟩⟩
    · cases h
  | downgradeWrite t =>
    simp only [step] at h
    split at h
    · cases h
      exact .inl ⟨t, rfl, rfl⟩
    · cases h
  | next t =>
    obtain ⟨g, hg, h⟩ := Option.bind_eq_some_iff.1 h
    obtain ⟨l, hl, h⟩ := Option.bind_eq_some_iff.1 h
    cases h
    refine .inr ⟨g.act t, step_tr hs.zeroed hl, .inr ⟨t, by rw [hg]; simp, fun u => ?_⟩⟩
    cases g <;> simp [Stage.act]

theorem Still.step (hs : Still s) {e : Event} (hok : Undisturbed s e)
    (h : step NCPU s e = some s') : Still s' := by
  obtain ⟨t, rfl, hl⟩ | ⟨a, htr, ha⟩ := step_lock hs h
  · exact ⟨hl ▸ hs.zeroed, fun _ _ => hl ▸ hok⟩
  · refine ⟨zeroed_tr hs.zeroed htr, fun t ht u => ?_⟩
    obtain ⟨rfl, hst⟩ | ⟨v, hv, hne⟩ := ha
    · rw [hst] at ht
      refine (write_origin htr (hs.nobody t ht u)).1 ?_
      rintro rfl
      exact ht (hok t)
    · exact (write_origin htr (hs.nobody v hv u)).1 (hne u)

/-- No step of anybody, while `t` is in `downgrade_write`, is one with which another thread gets the
lock for writing. -/
theorem downgrade_undisturbed {cpu : Tid → Nat}
    (h : Reach (Downgrade.step NCPU) Undisturbed (.init cpu) s) :
    ∀ t, s.stage t ≠ none → ∀ e s', Downgrade.step NCPU s e = some s' →
      ∀ u, u ≠ t → s.lock.pc u ≠ .writing → s'.lock.pc u ≠ .writing := by
  have hs : Still s := h.invariant (still_init cpu) fun _ _ _ hs hok h => hs.step hok h
  intro t ht e s' hstep u _ hu
  obtain ⟨v, rfl, hl⟩ | ⟨a, htr, _⟩ := step_lock hs hstep
  · rwa [hl]
  · exact (write_origin htr (hs.nobody t ht u)).2 hu

def holder : Tid := ⟨1, Tid.one_ne_zero⟩

def other : Tid := ⟨2, Tid.two_ne_zero⟩

/-- A thread alone has come to the `down_read` of its downgrade. -/
theorem downgrade_undisturbed_alone : ∃ s : Sys,
    Reach (Downgrade.step 2) Undisturbed (.init fun _ => 0) s ∧ s.stage holder = some .downRead ∧
      ∀ t, s.stage t ≠ none → ∀ e s', Downgrade.step 2 s e = some s' →
        ∀ u, u ≠ t → s.lock.pc u ≠ .writing → s'.lock.pc u ≠ .writing := by
  have h₁ : Reach (Downgrade.step 2) Undisturbed (.init fun _ => 0) _ :=
    Reach.start.next (a := Event.act (.downWrite holder)) (fun _ => rfl) rfl
  have h₂ := h₁.next (a := Event.act (.next holder)) trivial rfl
  have h₃ := h₂.next (a := Event.act (.next holder)) trivial rfl
  have h₄ := h₃.next (a := Event.downgradeWrite holder) (fun u => by
    by_cases hu : u = holder
    · rw [hu]; rfl
    · simp [Sys.init, Bravo.Sys.init, Bravo.Sys.getOrAlloc, hu, Pc.inDownWrite]) rfl
  have h₅ := h₄.next (a := Event.next holder) trivial rfl
  exact ⟨_, h₅, rfl, downgrade_undisturbed h₅⟩

/-- One thread has the lock for writing and another one waits for it; then the first one calls
`downgrade_write`. -/
def overtaken : List Event :=
  [.act (.downWrite holder), .act (.next holder), .act (.next holder), .act (.downWrite other),
    .downgradeWrite holder, .next holder, .act (.next other)]

theorem downgrade_overtaken : ∃ s s' : Sys,
    Reach (Downgrade.step 2) anyStep (.init fun _ => 0) s ∧ s.stage holder = some .downRead ∧
      s.lock.pc other ≠ .writing ∧ Downgrade.step 2 s (.act (.next other)) = some s' ∧
      s'.lock.pc other = .writing := by
  have h : Reach (Downgrade.step 2) anyStep (.init fun _ => 0) _ :=
    exec_reach (show exec _ _ _ overtaken = some _ from rfl)
  exact ⟨_, _, h, rfl, by decide, rfl, rfl⟩

end Downgrade
end Bravo
end SynCord
