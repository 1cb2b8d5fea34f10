import SynCord.Reach
import Mathlib.Tactic.Common

/-!
# SynCord.Rename

Renames on one superblock while `scl.patch` is enabled and disabled (`numa-scl.patch` changes the
same two functions in the same way). The original `lock_rename` takes `s_vfs_rename_mutex`, the
patched one the raw spinlock inside the mutex's `wait_lock`, and each `unlock_rename` gives back the
one of its own version. A thread may be switched whenever it is in neither function, so also between
the two.

The locks are taken as what they are meant to be: free or with one owner. That a contended mutex
uses its `wait_lock` for its own ends only makes threads wait longer, and so do the locks of the
inodes, which the patch leaves as they are: a thread goes through that part of the two functions at
any time.

* `rename_lock_switched` — with switches at any time, two threads rename at once, and a lock is
  given back that was never taken.
* `rename_lock_kept` — it goes well if a thread is switched only outside its renames, and a rename
  begins only while those under way are of its own version.
-/

namespace SynCord
namespace Rename

inductive Version where
  | original | patched
  deriving DecidableEq

inductive RenameLock where
  /-- `s_vfs_rename_mutex` -/
  | mutex
  /-- `s_vfs_rename_mutex.wait_lock.rlock.raw_lock` -/
  | rawLock
  deriving DecidableEq

def Version.renameLock : Version → RenameLock
  | .original => .mutex
  | .patched => .rawLock

/-- A `lock_rename` of two directories and the lock object it takes. -/
structure Call where
  p1 : Nat
  p2 : Nat
  lock : RenameLock
  deriving DecidableEq

/-- Nothing but the inode is locked if the two directories are one. -/
def Call.lock? (c : Call) : Option RenameLock := if c.p1 = c.p2 then none else some c.lock

inductive Pc where
  | idle
  /-- In `lock_rename`, before the rename lock is taken. -/
  | lockRename (c : Call)
  /-- In `lock_rename`, with the inodes to be locked. -/
  | lockInodes (c : Call)
  /-- Between `lock_rename` and `unlock_rename`. -/
  | locked (c : Call)
  /-- In the `unlock_rename` that gives back `l`, with the inodes to be unlocked. -/
  | unlockInodes (c : Call) (l : RenameLock)
  deriving DecidableEq

/-- The thread is in none of the replaced functions. -/
def Pc.outside : Pc → Bool
  | .idle | .locked _ => true
  | .lockRename _ | .lockInodes _ | .unlockInodes _ _ => false

structure Sys where
  /-- The owners of the two lock objects. -/
  owner : RenameLock → Option Nat
  version : Nat → Version
  pc : Nat → Pc

def Sys.init (version : Nat → Version) : Sys :=
  ⟨fun _ => none, version, fun _ => .idle⟩

def Sys.setPc (s : Sys) (t : Nat) (p : Pc) : Sys := { s with pc := Function.update s.pc t p }

inductive Event where
  | lockRename (t p1 p2 : Nat)
  | unlockRename (t : Nat)
  /-- The thread's next step. -/
  | next (t : Nat)
  | switch (t : Nat) (v : Version)
  deriving DecidableEq

def step (s : Sys) : Event → Option Sys
  | .lockRename t p1 p2 =>
    if s.pc t = .idle then
      let c : Call := ⟨p1, p2, (s.version t).renameLock⟩
      some (s.setPc t (if p1 = p2 then .lockInodes c else .lockRename c))
    else none
  | .unlockRename t =>
    match s.pc t with
    | .locked c => some (s.setPc t (.unlockInodes c (s.version t).renameLock))
    | _ => none
  | .next t =>
    match s.pc t with
    | .idle | .locked _ => none
    | .lockRename c =>
      if s.owner c.lock = none then
        some ({ s with owner := Function.update s.owner c.lock (some t) }.setPc t (.lockInodes c))
      else none
    | .lockInodes c => some (s.setPc t (.locked c))
    | .unlockInodes c l =>
      if c.p1 = c.p2 then some (s.setPc t .idle)
      else some ({ s with owner := Function.update s.owner l none }.setPc t .idle)
  | .switch t v =>
    if (s.pc t).outside then some { s with version := Function.update s.version t v } else none

/-- The rename lock of the call the thread is in, from `lock_rename` on. -/
def Pc.wants : Pc → Option RenameLock
  | .idle => none
  | .lockRename c | .lockInodes c | .locked c | .unlockInodes c _ => c.lock?

/-- The rename lock the thread has taken and not given back. -/
def Pc.holds : Pc → Option RenameLock
  | .idle | .lockRename _ => none
  | .lockInodes c | .locked c | .unlockInodes c _ => c.lock?

/-- A thread is switched only outside its renames; a rename begins only while those under way are
of its own version. -/
def Settled (s : Sys) : Event → Prop
  | .switch t _ => (s.pc t).wants = none
  | .lockRename t p1 p2 => p1 ≠ p2 →
      ∀ u l, (s.pc u).wants = some l → l = (s.version t).renameLock
  | .unlockRename _ | .next _ => True

/-! ## One lock for all -/

structure Uniform (s : Sys) : Prop where
  own : ∀ t l, (s.pc t).wants = some l → l = (s.version t).renameLock
  same : ∀ t u l m, (s.pc t).wants = some l → (s.pc u).wants = some m → l = m
  release : ∀ t c l, s.pc t = .unlockInodes c l → c.p1 ≠ c.p2 → l = c.lock
  owner : ∀ t l, (s.pc t).holds = some l → s.owner l = some t

theorem Pc.wants_of_holds {p : Pc} {l : RenameLock} (h : p.holds = some l) : p.wants = some l := by
  cases p <;> first | exact h | cases h

theorem Call.lock?_eq_some {c : Call} {l : RenameLock} :
    c.lock? = some l ↔ c.p1 ≠ c.p2 ∧ c.lock = l := by
  rw [lock?]
  split
  · simp_all
  · simp_all

variable {s s' : Sys} {t u : Nat}

theorem uniform_init (version : Nat → Version) : Uniform (.init version) where
  own := fun _ _ h => by cases h
  same := fun _ _ _ _ h => by cases h
  release := fun _ _ _ h => by cases h
  owner := fun _ _ h => by cases h

theorem Uniform.eq_of_holds (hs : Uniform s) {l m : RenameLock} (ht : (s.pc t).holds = some l)
    (hu : (s.pc u).holds = some m) : t = u := by
  have hlm := hs.same t u l m (Pc.wants_of_holds ht) (Pc.wants_of_holds hu)
  have hl := hs.owner t l ht
  rw [hlm, hs.owner u m hu] at hl
  exact (Option.some.inj hl).symm

/-- A thread goes on; it keeps wanting what it wants, or wants what all others do. -/
theorem Uniform.move (hs : Uniform s) {p : Pc} (hpc : s'.pc = Function.update s.pc t p)
    (hv : s'.version = s.version)
    (hw : ∀ l, p.wants = some l → l = (s.version t).renameLock ∧
      ∀ u m, (s.pc u).wants = some m → m = l)
    (hr : ∀ c l, p = .unlockInodes c l → c.p1 ≠ c.p2 → l = c.lock)
    (ht : ∀ l, p.holds = some l → s'.owner l = some t)
    (ho : ∀ u l, u ≠ t → (s.pc u).holds = some l → s'.owner l = some u) : Uniform s' := by
  have hself : s'.pc t = p := by rw [hpc, Function.update_self]
  have hother : ∀ u, u ≠ t → s'.pc u = s.pc u := fun u hu => by
    rw [hpc, Function.update_of_ne hu]
  refine ⟨fun u l h => ?_, fun u v l m hu hv => ?_, fun u c l h => ?_, fun u l h => ?_⟩
  · rw [hv]
    by_cases hut : u = t
    · rw [hut, hself] at h
      exact hut ▸ (hw l h).1
    · rw [hother u hut] at h
      exact hs.own u l h
  · by_cases hut : u = t
    · rw [hut, hself] at hu
      by_cases hvt : v = t
      · rw [hvt, hself, hu] at hv
        exact Option.some.inj hv
      · rw [hother v hvt] at hv
        exact ((hw l hu).2 v m hv).symm
    · rw [hother u hut] at hu
      by_cases hvt : v = t
      · rw [hvt, hself] at hv
        exact (hw m hv).2 u l hu
      · rw [hother v hvt] at hv
        exact hs.same u v l m hu hv
  · by_cases hut : u = t
    · rw [hut, hself] at h
      exact hr c l h
    · rw [hother u hut] at h
      exact hs.release u c l h
  · by_cases hut : u = t
    · rw [hut, hself] at h
      exact hut ▸ ht l h
    · rw [hother u hut] at h
      exact ho u l hut h

/-- What a thread that is in a call already has to show for `Uniform.move`. -/
theorem Uniform.wants_keep (hs : Uniform s) {l : RenameLock} (h : (s.pc t).wants = some l) :
    l = (s.version t).renameLock ∧ ∀ u m, (s.pc u).wants = some m → m = l :=
  ⟨hs.own t l h, fun u m hu => hs.same u t m l hu h⟩

/-- A thread goes on in its call without touching a rename lock. -/
theorem Uniform.pass (hs : Uniform s) {p : Pc} (hpc : s'.pc = Function.update s.pc t p)
    (hv : s'.version = s.version) (ho : s'.owner = s.owner) (hw : p.wants = (s.pc t).wants)
    (hh : p.holds = (s.pc t).holds)
    (hr : ∀ c l, p = .unlockInodes c l → c.p1 ≠ c.p2 → l = c.lock) : Uniform s' := by
  refine hs.move hpc hv (fun l h => hs.wants_keep (hw ▸ h)) hr (fun l h => ?_) fun u l _ h => ?_
  · rw [ho]
    exact hs.owner t l (hh ▸ h)
  · rw [ho]
    exact hs.owner u l h

theorem Uniform.call (hs : Uniform s) {p1 p2 : Nat} (hidle : s.pc t = .idle)
    (hok : Settled s (.lockRename t p1 p2)) :
    Uniform (s.setPc t (if p1 = p2 then .lockInodes ⟨p1, p2, (s.version t).renameLock⟩
      else .lockRename ⟨p1, p2, (s.version t).renameLock⟩)) := by
  by_cases h12 : p1 = p2
  · rw [if_pos h12]
    have hnone : Call.lock? ⟨p1, p2, (s.version t).renameLock⟩ = none := if_pos h12
    refine hs.pass rfl rfl rfl ?_ ?_ (fun _ _ h => by cases h)
    · rw [hidle]; exact hnone
    · rw [hidle]; exact hnone
  · rw [if_neg h12]
    refine hs.move rfl rfl (fun l h => ?_) (fun _ _ h => by cases h) (fun _ h => by cases h)
      fun u l _ h => hs.owner u l h
    have hl : (s.version t).renameLock = l := (Call.lock?_eq_some.1 h).2
    exact hl ▸ ⟨rfl, hok h12⟩

theorem Uniform.take (hs : Uniform s) {c : Call} (hp : s.pc t = .lockRename c)
    (hfree : s.owner c.lock = none) :
    Uniform ({ s with owner := Function.update s.owner c.lock (some t) }.setPc t
      (.lockInodes c)) := by
  refine hs.move rfl rfl (fun l h => hs.wants_keep (by rw [hp]; exact h))
    (fun _ _ h => by cases h) (fun l h => ?_) fun u l _ h => ?_
  · rw [← (Call.lock?_eq_some.1 h).2]
    exact Function.update_self ..
  · have hl := hs.owner u l h
    have hne : l ≠ c.lock := fun e => by rw [e, hfree] at hl; cases hl
    exact (Function.update_of_ne hne _ _).trans hl

/-- The lock that is given back is the one that was taken, and nobody else has it. -/
theorem Uniform.giveBack (hs : Uniform s) {c : Call} {l : RenameLock}
    (hp : s.pc t = .unlockInodes c l) (h12 : c.p1 ≠ c.p2) :
    Uniform ({ s with owner := Function.update s.owner l none }.setPc t .idle) := by
  have hl := hs.release t c l hp h12
  have hheld : (s.pc t).holds = some l := by
    rw [hp]
    exact Call.lock?_eq_some.2 ⟨h12, hl.symm⟩
  exact hs.move rfl rfl (fun _ h => by cases h) (fun _ _ h => by cases h) (fun _ h => by cases h)
    fun u m hut h => absurd (hs.eq_of_holds h hheld) hut

theorem Uniform.switch (hs : Uniform s) {v : Version} (hn : (s.pc t).wants = none) :
    Uniform { s with version := Function.update s.version t v } := by
  refine ⟨fun u l h => ?_, hs.same, hs.release, hs.owner⟩
  by_cases hut : u = t
  · rw [show (s.pc u).wants = none from hut ▸ hn] at h
    cases h
  · dsimp only
    rw [Function.update_of_ne hut]
    exact hs.own u l h

theorem Uniform.next (hs : Uniform s) (h : step s (.next t) = some s') : Uniform s' := by
  simp only [step] at h
  split at h
  · cases h
  · cases h
  · rename_i c hp
    split at h
    · rename_i hfree
      cases h
      exact hs.take hp hfree
    · cases h
  · rename_i c hp
    cases h
    exact hs.pass rfl rfl rfl (by rw [hp]; rfl) (by rw [hp]; rfl) (fun _ _ h => by cases h)
  · rename_i c l hp
    split at h
    · rename_i h12
      cases h
      have hnone : c.lock? = none := if_pos h12
      exact hs.pass rfl rfl rfl (by rw [hp]; exact hnone.symm) (by rw [hp]; exact hnone.symm)
        (fun _ _ h => by cases h)
    · rename_i h12
      cases h
      exact hs.giveBack hp h12

theorem Uniform.step (hs : Uniform s) {e : Event} (hok : Settled s e) (h : step s e = some s') :
    Uniform s' := by
  cases e with
  | lockRename t p1 p2 =>
    simp only [Rename.step] at h
    split at h
    · rename_i hidle
      cases h
      exact hs.call hidle hok
    · cases h
  | unlockRename t =>
    simp only [Rename.step] at h
    split at h
    · rename_i c hp
      cases h
      refine hs.pass rfl rfl rfl (by rw [hp]; rfl) (by rw [hp]; rfl) ?_
      rintro c l ⟨⟩ h12
      -- the version has not changed since the call
      refine (hs.own t c.lock ?_).symm
      rw [hp]
      exact Call.lock?_eq_some.2 ⟨h12, rfl⟩
    · cases h
  | next t => exact hs.next h
  | switch t v =>
    simp only [Rename.step] at h
    split at h
    · cases h
      exact hs.switch hok
    · cases h

/-- `unlock_rename` gives back the lock that `lock_rename` took and the thread has, and at most one
thread at a time has taken a rename lock, whichever of the two. -/
theorem rename_lock_kept {version : Nat → Version}
    (h : Reach Rename.step Settled (.init version) s) :
    (∀ t c l, s.pc t = .unlockInodes c l → c.p1 ≠ c.p2 → l = c.lock ∧ s.owner l = some t) ∧
      ∀ t u, (s.pc t).holds ≠ none → (s.pc u).holds ≠ none → t = u := by
  have hs : Uniform s := h.invariant (uniform_init version) fun _ _ _ hs hok h => hs.step hok h
  refine ⟨fun t c l hp h12 => ?_, fun t u ht hu => ?_⟩
  · have hl := hs.release t c l hp h12
    refine ⟨hl, hs.owner t l ?_⟩
    rw [hp]
    exact Call.lock?_eq_some.2 ⟨h12, hl.symm⟩
  · obtain ⟨l, hl⟩ := Option.ne_none_iff_exists'.1 ht
    obtain ⟨m, hm⟩ := Option.ne_none_iff_exists'.1 hu
    exact hs.eq_of_holds hl hm

/-- A thread is switched, then locks and begins to unlock the directories 1 and 2, while another
one waits. -/
theorem rename_lock_kept_patched : ∃ s : Sys,
    Reach Rename.step Settled (.init fun _ => .original) s ∧
      s.pc 0 = .unlockInodes ⟨1, 2, .rawLock⟩ .rawLock ∧ s.pc 1 = .lockRename ⟨3, 4, .rawLock⟩ ∧
      (∀ t c l, s.pc t = .unlockInodes c l → c.p1 ≠ c.p2 → l = c.lock ∧ s.owner l = some t) ∧
      ∀ t u, (s.pc t).holds ≠ none → (s.pc u).holds ≠ none → t = u := by
  have h₁ : Reach Rename.step Settled (.init fun _ => .original) _ :=
    Reach.start.next (a := Event.switch 0 .patched) (show none = none from rfl) rfl
  have h₂ := h₁.next (a := Event.switch 1 .patched) (show none = none from rfl) rfl
  have h₃ := h₂.next (a := Event.lockRename 0 1 2) (fun _ _ _ h => by cases h) rfl
  have h₄ := h₃.next (a := Event.next 0) trivial rfl
  have h₅ := h₄.next (a := Event.next 0) trivial rfl
  have h₆ := h₅.next (a := Event.lockRename 1 3 4) (fun _ u l h => by
    by_cases hu : u = 0
    · subst hu
      exact (Option.some.inj h).symm
    · simp [Sys.setPc, Sys.init, hu, Pc.wants] at h) rfl
  have h₇ := h₆.next (a := Event.unlockRename 0) trivial rfl
  exact ⟨_, h₇, rfl, rfl, rename_lock_kept h₇⟩

/-- A `lock_rename` that meets no other thread. -/
def locks (t p1 p2 : Nat) : List Event := [.lockRename t p1 p2, .next t, .next t]

/-- Two threads, one of them switched, rename at the same time; and a thread that is switched in
between gives back the spinlock, which it has not got, and keeps the mutex. -/
theorem rename_lock_switched :
    (∃ s : Sys, Reach Rename.step anyStep (.init fun _ => .original) s ∧
      s.pc 0 = .locked ⟨1, 2, .mutex⟩ ∧ s.pc 1 = .locked ⟨3, 4, .rawLock⟩) ∧
    ∃ s s' : Sys, Reach Rename.step anyStep (.init fun _ => .original) s ∧
      s.pc 0 = .unlockInodes ⟨1, 2, .mutex⟩ .rawLock ∧ s.owner .rawLock = none ∧
      Rename.step s (.next 0) = some s' ∧ s'.pc 0 = .idle ∧ s'.owner .mutex = some 0 := by
  have h₁ : Reach Rename.step anyStep (.init fun _ => .original) _ := exec_reach
    (show exec _ _ _ (locks 0 1 2 ++ [.switch 1 .patched] ++ locks 1 3 4) = some _ from rfl)
  have h₂ : Reach Rename.step anyStep (.init fun _ => .original) _ := exec_reach
    (show exec _ _ _ (locks 0 1 2 ++ [.switch 0 .patched, .unlockRename 0]) = some _ from rfl)
  exact ⟨⟨_, h₁, rfl, rfl⟩, _, _, h₂, rfl, rfl, rfl, rfl, rfl⟩

end Rename
end SynCord
