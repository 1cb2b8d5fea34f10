import SynCord.Bravo.Step

/-!
# SynCord.Bravo.Slots

The discipline of the per-CPU slots. As long as no thread checks a slot while another stands
between its check and its store on the same slot (`Alone`), every store finds what the thread that
makes it expects: a thread writes its own id over 0, and 0 over its own id. So a step of one thread
never makes or destroys the id of another (`slot_frame`), wherever the threads have been moved.
-/

namespace SynCord
namespace Bravo

def Act.thread : Act → Tid
  | .downRead t | .upRead t _ | .downWrite t | .upWrite t | .giveUp t | .next t => t
  | .migrate t _ => t

/-- No other thread is between its check and its store on the slot that the step checks. -/
def Alone (s : Sys) : Act → Prop
  | .next t => ∀ c, s.pc t = .acqSlot c → ∀ u, s.pc u ≠ .acqStore c
  | _ => True

structure Disciplined (s : Sys) : Prop where
  store : ∀ t c, s.pc t = .acqStore c → s.perCpuData c = 0
  store_inj : ∀ t u c, s.pc t = .acqStore c → s.pc u = .acqStore c → t = u
  recheck : ∀ t c, s.pc t = .acqRecheck c → s.perCpuData c = t.word
  undo : ∀ t c, s.pc t = .acqUndo c → s.perCpuData c = t.word
  release : ∀ t r c, s.pc t = .relStore r c → s.perCpuData c = t.word
  word : ∀ c, s.perCpuData c = 0 ∨ ∃ t : Tid, s.perCpuData c = t.word

theorem disciplined_init (cpu : Tid → Nat) : Disciplined (.init cpu) := by
  constructor <;> simp [Sys.init]

/-- A slot holds the id of `u` after a step of another thread exactly when it did before. -/
theorem slot_frame {NCPU : Nat} {s s' : Sys} {a : Act} (hd : Disciplined s) (h : Tr NCPU s a s')
    {u : Tid} (hu : u ≠ a.thread) (c : Nat) :
    s'.perCpuData c = u.word ↔ s.perCpuData c = u.word := by
  cases h with
  | @slotStore t d hp =>
    by_cases hc : c = d
    · subst hc
      have h0 := hd.store t c hp
      simp only [Sys.setPc, Sys.setSlot, Function.update_self, h0]
      exact ⟨fun e => absurd (Tid.word_inj e).symm hu, fun e => absurd e.symm u.word_ne_zero⟩
    · simp [hc]
  | @slotUndo t d hp =>
    by_cases hc : c = d
    · subst hc
      have h0 := hd.undo t c hp
      simp only [Sys.setPc, Sys.setSlot, Function.update_self, h0]
      exact ⟨fun e => absurd e.symm u.word_ne_zero, fun e => absurd (Tid.word_inj e).symm hu⟩
    · simp [hc]
  | @relStore t r d hp =>
    by_cases hc : c = d
    · subst hc
      have h0 := hd.release t r c hp
      simp only [Sys.closeRead, Sys.setPc, Sys.setSlot, Function.update_self, h0]
      exact ⟨fun e => absurd e.symm u.word_ne_zero, fun e => absurd (Tid.word_inj e).symm hu⟩
    · simp [hc]
  | _ => exact Iff.rfl

/-- Only a store changes a slot, and then the one its thread works on. -/
theorem slot_same {NCPU : Nat} {s s' : Sys} {a : Act} (h : Tr NCPU s a s') {c : Nat}
    (hs : s.pc a.thread ≠ .acqStore c) (hu : s.pc a.thread ≠ .acqUndo c)
    (hr : ∀ r, s.pc a.thread ≠ .relStore r c) : s'.perCpuData c = s.perCpuData c := by
  cases h with
  | @slotStore t d hp =>
    have hc : c ≠ d := by rintro rfl; exact hs hp
    simp [hc]
  | @slotUndo t d hp =>
    have hc : c ≠ d := by rintro rfl; exact hu hp
    simp [hc]
  | @relStore t r d hp =>
    have hc : c ≠ d := by rintro rfl; exact hr r hp
    simp [hc]
  | _ => rfl

/-- The program counter of a thread other than the one that steps. -/
theorem pc_frame {NCPU : Nat} {s s' : Sys} {a : Act} (h : Tr NCPU s a s') {u : Tid}
    (hu : u ≠ a.thread) : s'.pc u = s.pc u := by
  cases h <;> simp_all [Act.thread]

/-! ## How a thread comes to its stores -/

section Actor

variable {NCPU : Nat} {s s' : Sys} {a : Act} {c : Nat}

theorem tr_acqStore (h : Tr NCPU s a s') (hp : s'.pc a.thread = .acqStore c) :
    (a = .next a.thread ∧ s.pc a.thread = .acqSlot c ∧ s'.perCpuData c = 0) ∨
      (s.pc a.thread = .acqStore c ∧ s'.perCpuData = s.perCpuData) := by
  cases h <;> simp_all [Act.thread]

theorem tr_acqRecheck (h : Tr NCPU s a s') (hp : s'.pc a.thread = .acqRecheck c) :
    s'.perCpuData c = a.thread.word ∨
      (s.pc a.thread = .acqRecheck c ∧ s'.perCpuData = s.perCpuData) := by
  cases h <;> simp_all [Act.thread]

theorem tr_acqUndo (h : Tr NCPU s a s') (hp : s'.pc a.thread = .acqUndo c) :
    (s.pc a.thread = .acqRecheck c ∨ s.pc a.thread = .acqUndo c) ∧
      s'.perCpuData = s.perCpuData := by
  cases h <;> simp_all [Act.thread]

theorem tr_relStore (h : Tr NCPU s a s') {r : Read} (hp : s'.pc a.thread = .relStore r c) :
    (s'.perCpuData c = a.thread.word ∨ s.pc a.thread = .relStore r c) ∧
      s'.perCpuData = s.perCpuData := by
  cases h <;> simp_all [Act.thread]

end Actor

/-- The thread that steps is not on its way to a store that another thread is about to make. -/
theorem store_alone {NCPU : Nat} {s s' : Sys} {a : Act} (hd : Disciplined s) (ha : Alone s a)
    (h : Tr NCPU s a s') {u : Tid} (hu : u ≠ a.thread) {c : Nat}
    (hp : s'.pc a.thread = .acqStore c) (hq : s'.pc u = .acqStore c) : a.thread = u := by
  rw [pc_frame h hu] at hq
  rcases tr_acqStore h hp with ⟨e, hc, _⟩ | ⟨hp, _⟩
  · rw [e] at ha
    exact absurd hq (ha c hc u)
  · exact hd.store_inj _ u c hp hq

theorem disciplined_tr {NCPU : Nat} {s s' : Sys} {a : Act} (hd : Disciplined s)
    (ha : Alone s a) (h : Tr NCPU s a s') : Disciplined s' where
  store := by
    intro t c hp
    by_cases ht : t = a.thread
    · subst ht
      rcases tr_acqStore h hp with ⟨_, _, h0⟩ | ⟨hp, hs⟩
      · exact h0
      · rw [hs]; exact hd.store _ c hp
    · rw [pc_frame h ht] at hp
      have h0 := hd.store t c hp
      -- the only thread that may write this slot is the one about to store in it
      rw [slot_same h, h0]
      · intro e; exact ht (hd.store_inj t _ c hp e)
      · intro e; exact a.thread.word_ne_zero (by rw [← hd.undo _ c e, h0])
      · intro r e; exact a.thread.word_ne_zero (by rw [← hd.release _ r c e, h0])
  store_inj := by
    intro t u c hp hq
    by_cases ht : t = a.thread <;> by_cases hu : u = a.thread
    · rw [ht, hu]
    · subst ht
      exact store_alone hd ha h hu hp hq
    · subst hu
      exact (store_alone hd ha h ht hq hp).symm
    · rw [pc_frame h ht] at hp
      rw [pc_frame h hu] at hq
      exact hd.store_inj t u c hp hq
  recheck := by
    intro t c hp
    by_cases ht : t = a.thread
    · subst ht
      rcases tr_acqRecheck h hp with h0 | ⟨hp, hs⟩
      · exact h0
      · rw [hs]; exact hd.recheck _ c hp
    · rw [pc_frame h ht] at hp
      exact (slot_frame hd h ht c).2 (hd.recheck t c hp)
  undo := by
    intro t c hp
    by_cases ht : t = a.thread
    · subst ht
      obtain ⟨hp | hp, hs⟩ := tr_acqUndo h hp
      · rw [hs]; exact hd.recheck _ c hp
      · rw [hs]; exact hd.undo _ c hp
    · rw [pc_frame h ht] at hp
      exact (slot_frame hd h ht c).2 (hd.undo t c hp)
  release := by
    intro t r c hp
    by_cases ht : t = a.thread
    · subst ht
      obtain ⟨h0 | hp, hs⟩ := tr_relStore h hp
      · exact h0
      · rw [hs]; exact hd.release _ r c hp
    · rw [pc_frame h ht] at hp
      exact (slot_frame hd h ht c).2 (hd.release t r c hp)
  word := by
    intro c
    cases h with
    | @slotStore t d hp =>
      by_cases hc : c = d
      · exact .inr ⟨t, by simp [hc]⟩
      · simpa [hc] using hd.word c
    | @slotUndo t d hp | @relStore t _ d hp =>
      by_cases hc : c = d
      · exact .inl (by simp [hc])
      · simpa [hc] using hd.word c
    | _ => exact hd.word c

/-- Conditions on the other threads hold by themselves in a run where only `t` steps. -/
theorem reach_alone {NCPU : Nat} {cpu : Tid → Nat} {t : Tid} {ok ok' : Sys → Act → Prop} {s : Sys}
    (hthread : ∀ s a, ok s a → a.thread = t)
    (hok : ∀ s a, (∀ u, u ≠ t → s.pc u = .idle) → ok s a → ok' s a)
    (h : Reach (step NCPU) ok (.init cpu) s) : Reach (step NCPU) ok' (.init cpu) s := by
  refine h.strengthen (P := fun s => Zeroed s ∧ ∀ u, u ≠ t → s.pc u = .idle)
    ⟨zeroed_init cpu, fun _ _ => rfl⟩ ?_ fun s a hs ha => hok s a hs.2 ha
  rintro s a s' ⟨hz, hidle⟩ ha hst
  have htr := step_tr hz hst
  refine ⟨zeroed_tr hz htr, fun u hu => ?_⟩
  rw [pc_frame htr (by rw [hthread s a ha]; exact hu)]
  exact hidle u hu

end Bravo
end SynCord
