import SynCord.Slots.System

/-!
# SynCord.Slots.Stack

The slot table as a stack. As long as patches that count are installed with all their lookups
successful and removed in the reverse order, slot `k` holds what the `k`-th installed patch has
registered and nothing else (`Stacked`). The table is then determined by the patches installed, so
an uninstall brings back the table that the matching install found (`slot_table_stack`).
-/

namespace SynCord
namespace Slots

/-- Installs of counting patches with successful lookups, uninstalls of the last patch. -/
def Lifo (_ : Sys) : Event → Prop
  | .install p fs => p.counts = true ∧ ∀ r ∈ p.registrations, (fs r.2).Succeeds
  | .uninstall n => n = 0

theorem lifo_uninstall (s : Sys) : Lifo s (.uninstall 0) := rfl

/-- Slot `k` belongs to the `k`-th installed patch. -/
structure Stacked (s : Sys) : Prop where
  numPolicy : s.kernel.numPolicy = s.installed.length
  bound : s.installed.length ≤ 4
  /-- the slot has the patch's program for each hook it registers, and NULL for the others -/
  holds : ∀ h (k : Fin MAX_POLICY) (n : Nat) e, k.val = n + 1 → s.installed.reverse[n]? = some e →
    s.kernel.prog h k = (e.program h).getD NULL
  /-- slot 0 and the slots above `num_policy` are empty -/
  empty : ∀ h (k : Fin MAX_POLICY), k.val = 0 ∨ s.installed.length < k.val →
    s.kernel.prog h k = NULL

theorem stacked_boot : Stacked .boot where
  numPolicy := rfl
  bound := by decide
  holds := by intro h k n e _ he; cases he
  empty := fun _ _ _ => rfl

/-- The installed patches determine the table. -/
theorem Stacked.prog_eq {s s' : Sys} (h : Stacked s) (h' : Stacked s')
    (he : s'.installed = s.installed) : s'.kernel.prog = s.kernel.prog := by
  funext hook k
  by_cases hk : k.val = 0 ∨ s.installed.length < k.val
  · rw [h.empty hook k hk, h'.empty hook k (by rw [he]; exact hk)]
  · obtain ⟨n, hn⟩ : ∃ n, k.val = n + 1 := ⟨k.val - 1, by omega⟩
    have hlt : n < s.installed.reverse.length := by rw [List.length_reverse]; omega
    rw [h.holds hook k n _ hn (List.getElem?_eq_getElem hlt),
      h'.holds hook k n _ hn (by rw [he]; exact List.getElem?_eq_getElem hlt)]

/-- What a successful install leaves in its slot. -/
theorem Registered.prog_slot {p : Patch} {fs : Fs} {i : Fin MAX_POLICY} {k k' : Kernel}
    (hr : Registered fs p.registrations i k k' 0)
    (hs : ∀ r ∈ p.registrations, (fs r.2).Succeeds) {h : Hook} (hold : k.prog h i = NULL)
    (n : Int) : k'.prog h i = ((Entry.mk p n fs).program h).getD NULL := by
  by_cases hh : h ∈ p.hooks
  · obtain ⟨r, hm, rfl, hp⟩ := Entry.exists_program (e := ⟨p, n, fs⟩) hh
    rw [hp, hr.stored hm, getPinnedBpfObj_succeeds (hs r hm)]
    rfl
  · rw [Entry.program_eq_none hh, hr.other h i (.inr hh), hold]
    rfl

/-- A patch that installs gets the slot above the others. -/
theorem Stacked.installed_tr {s : Sys} {p : Patch} {fs : Fs} {i : Fin MAX_POLICY} {k : Kernel}
    (hs : Stacked s) (hc : p.counts = true) (hok : ∀ r ∈ p.registrations, (fs r.2).Succeeds)
    (ht : p.target s.kernel.numPolicy = some i)
    (hr : Registered fs p.registrations i s.kernel k 0) :
    Stacked ⟨k, ⟨p, i.val, fs⟩ :: s.installed⟩ := by
  have hi := Patch.bump_of_target ht
  rw [Patch.bump_counts hc, hs.numPolicy] at hi
  have hi5 : i.val < 5 := i.isLt
  have hlen : s.installed.reverse.length + 1 = i.val := by rw [List.length_reverse]; omega
  refine ⟨?_, ?_, ?_, ?_⟩
  · simp only [hr.numPolicy, List.length_cons]; omega
  · simp only [List.length_cons]; omega
  · intro h j n e hj he
    simp only [List.reverse_cons] at he
    by_cases hn : n < s.installed.reverse.length
    · -- a slot below the new one
      rw [List.getElem?_append_left hn] at he
      rw [hr.other h j (.inl (by rintro rfl; omega))]
      exact hs.holds h j n e hj he
    · have hji : j = i := by
        have := (List.getElem?_eq_some_iff.1 he).1
        simp only [List.length_append, List.length_singleton] at this
        exact Fin.ext (by omega)
      rw [List.getElem?_append_right (by omega), show n - s.installed.reverse.length = 0 by omega]
        at he
      cases he
      subst hji
      exact hr.prog_slot hok (hs.empty h j (.inr (by omega))) _
  · intro h j hj
    simp only [List.length_cons] at hj
    rw [hr.other h j (.inl (by rintro rfl; omega))]
    exact hs.empty h j (by omega)

/-- The patch on top clears every hook that its slot has a program for. -/
theorem Stacked.uninstalled_tr {s : Sys} {e : Entry} {es : List Entry} {i : Fin MAX_POLICY}
    (hs : Stacked s) (hes : s.installed = e :: es) (hi : slot s.kernel.numPolicy = some i) :
    Stacked ⟨s.kernel.cleared e.patch.cleared i, es⟩ := by
  have hn := hs.numPolicy
  have hb := hs.bound
  have hii := slot_eq_some.1 hi
  simp only [hes, List.length_cons] at hn hb
  have htop : s.installed.reverse[es.length]? = some e := by simp [hes]
  refine ⟨?_, ?_, ?_, ?_⟩
  · simp only [Kernel.cleared]; omega
  · show es.length ≤ 4
    omega
  · intro h j m e' hj he'
    have he' : es.reverse[m]? = some e' := he'
    have hm := (List.getElem?_eq_some_iff.1 he').1
    rw [List.length_reverse] at hm
    have hji : j ≠ i := by rintro rfl; omega
    simp only [Kernel.cleared, hji, false_and, if_false]
    refine hs.holds h j m e' hj ?_
    rw [hes, List.reverse_cons, List.getElem?_append_left (by simpa using hm)]
    exact he'
  · intro h j hj
    have hj : j.val = 0 ∨ es.length < j.val := hj
    simp only [Kernel.cleared]
    by_cases hji : j = i
    · subst hji
      by_cases hh : h ∈ e.patch.cleared
      · simp [hh]
      · -- a hook that is not cleared was not registered
        have hnh : h ∉ e.patch.hooks := fun hm => hh (e.patch.hooks_subset_cleared hm)
        simp only [hh, and_false, if_false]
        rw [hs.holds h j es.length e (by omega) htop, Entry.program_eq_none hnh]
        rfl
    · simp only [hji, false_and, if_false]
      refine hs.empty h j ?_
      rw [hes, List.length_cons]
      have : j.val ≠ i.val := fun hv => hji (Fin.ext hv)
      omega

theorem stacked_tr {s s' : Sys} {a : Event} (hs : Stacked s) (ha : Lifo s a) (h : Tr s a s') :
    Stacked s' := by
  cases h with
  | refused => exact hs
  | failed _ hr h0 => exact absurd (hr.succeeds ha.2) h0
  | installed ht hr => exact hs.installed_tr ha.1 ha.2 ht hr
  | @uninstalled n e i he hi =>
    cases ha
    cases hes : s.installed with
    | nil => rw [hes] at he; cases he
    | cons x es =>
      rw [hes] at he
      cases he
      exact hs.uninstalled_tr hes hi

theorem reach_stacked {s : Sys} (h : Reach step Lifo .boot s) : Stacked s :=
  h.invariant stacked_boot fun _ _ _ hs ha hst => stacked_tr hs ha (step_tr hst)

theorem Stacked.inBounds {s : Sys} (h : Stacked s) : InBounds s := by
  have h4 := h.bound
  refine inBounds_of_range ?_ ?_ <;> rw [h.numPolicy] <;> omega

/-! ## Brackets -/

/-- From an install to the matching uninstall: runs in which every patch that is installed on the
way is uninstalled again. -/
inductive Balanced : Sys → Sys → Prop where
  | refl {s} : Balanced s s
  | refused {s s' t p fs} : Lifo s (.install p fs) → step s (.install p fs) = some s' →
      s'.installed = s.installed → Balanced s' t → Balanced s t
  | bracket {s s₁ s₂ s₃ t p fs e} : Lifo s (.install p fs) → step s (.install p fs) = some s₁ →
      s₁.installed = e :: s.installed → Balanced s₁ s₂ → step s₂ (.uninstall 0) = some s₃ →
      Balanced s₃ t → Balanced s t

theorem uninstall_installed {s s' : Sys} (h : step s (.uninstall 0) = some s') :
    s'.installed = s.installed.tail := by
  cases step_tr h with
  | uninstalled => exact List.eraseIdx_zero

theorem Balanced.installed_eq {s t : Sys} (h : Balanced s t) : t.installed = s.installed := by
  induction h with
  | refl => rfl
  | refused _ _ he _ ih => rw [ih, he]
  | bracket _ _ he _ hu _ ih₁ ih₂ => rw [ih₂, uninstall_installed hu, ih₁, he, List.tail_cons]

theorem Balanced.reach {s t : Sys} (h : Balanced s t) : Reach step Lifo s t := by
  induction h with
  | refl => exact .start
  | refused hl hs _ _ ih => exact (Reach.start.next hl hs).trans ih
  | bracket hl hs _ _ hu _ ih₁ ih₂ =>
    exact (((Reach.start.next hl hs).trans ih₁).next (lifo_uninstall _) hu).trans ih₂

/-- Below a full table an install succeeds and pushes its patch. -/
theorem Stacked.install {s : Sys} (hs : Stacked s) {p : Patch} {fs : Fs}
    (hl : Lifo s (.install p fs)) (h4 : s.kernel.numPolicy < 4) :
    ∃ s₁, step s (.install p fs) = some s₁ ∧
      s₁.installed = ⟨p, s.kernel.numPolicy + 1, fs⟩ :: s.installed := by
  obtain ⟨⟨k, ret⟩, hk⟩ := Option.isSome_iff_exists.1 (hs.inBounds.pre p fs)
  obtain ⟨s₁, hst⟩ : ∃ s₁, step s (.install p fs) = some s₁ := by simp [step, hk]
  refine ⟨s₁, hst, ?_⟩
  cases step_tr hst with
  | refused _ hge => omega
  | failed _ hr h0 => exact absurd (hr.succeeds hl.2) h0
  | installed ht _ => rw [← Patch.bump_of_target ht, Patch.bump_counts hl.1]

/-- The table is a stack in every state of a last-in, first-out run: slot `k` belongs to the `k`-th
installed patch, a fifth install is refused, and uninstalling a patch brings back the table that
its install has found. -/
theorem slot_table_stack {s : Sys} (h : Reach step Lifo .boot s) :
    Stacked s ∧
      (s.kernel.numPolicy = 4 → ∀ (p : Patch) fs, p.counts = true →
        p.prePatchCallback fs s.kernel = some (s.kernel, -1)) ∧
      (s.kernel.numPolicy < 4 → ∀ p fs, Lifo s (.install p fs) →
        ∃ s₁, step s (.install p fs) = some s₁ ∧
          s₁.installed = ⟨p, s.kernel.numPolicy + 1, fs⟩ :: s.installed ∧
          ∀ s₂, Balanced s₁ s₂ → ∃ s₃, step s₂ (.uninstall 0) = some s₃ ∧
            s₃.kernel.prog = s.kernel.prog ∧ s₃.kernel.numPolicy = s.kernel.numPolicy ∧
            s₃.installed = s.installed) := by
  have hs := reach_stacked h
  refine ⟨hs, fun h4 p fs hc => Patch.pre_refused hc (by omega), ?_⟩
  intro h4 p fs hl
  obtain ⟨s₁, hst, he⟩ := hs.install hl h4
  refine ⟨s₁, hst, he, fun s₂ hb => ?_⟩
  have hr₂ := (h.next hl hst).trans hb.reach
  obtain ⟨k, hk⟩ := Option.isSome_iff_exists.1 ((reach_stacked hr₂).inBounds.post p)
  have hu : step s₂ (.uninstall 0) = some ⟨k, s₂.installed.eraseIdx 0⟩ := by
    simp [step, hb.installed_eq, he, hk]
  have hi : s₂.installed.eraseIdx 0 = s.installed := by
    rw [hb.installed_eq, he, List.eraseIdx_cons_zero]
  have hs₃ := reach_stacked (hr₂.next (lifo_uninstall _) hu)
  rw [hi] at hu hs₃
  exact ⟨_, hu, hs.prog_eq hs₃ rfl, by rw [hs₃.numPolicy, hs.numPolicy], rfl⟩

/-- `lockstat` comes and goes on top of `bravo`. -/
theorem slot_table_stack_lockstat :
    ∃ s : Sys, s.installed.length = 1 ∧ Stacked s ∧
      ∃ s₁, step s (.install .lockstat fun _ => .found somewhere) = some s₁ ∧
        ∃ s₃, step s₁ (.uninstall 0) = some s₃ ∧ s₃.kernel.prog = s.kernel.prog := by
  have hl (s : Sys) (p : Patch) (hc : p.counts = true) :
      Lifo s (.install p fun _ => .found somewhere) :=
    ⟨hc, fun _ _ => Lookup.found_succeeds somewhere⟩
  obtain ⟨hs, _, hu⟩ := slot_table_stack (Reach.start.next (hl .boot .bravo rfl) rfl)
  obtain ⟨s₁, hst, _, hb⟩ := hu (by decide) .lockstat _ (hl _ .lockstat rfl)
  obtain ⟨s₃, hs₃, hp, _⟩ := hb s₁ .refl
  exact ⟨_, rfl, hs, s₁, hst, s₃, hs₃, hp⟩

end Slots
end SynCord
