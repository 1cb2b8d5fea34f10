import SynCord.Slots.Callbacks

/-!
# SynCord.Slots.Install

One call of a `pre_patch_callback`, from any state and with any answers of the kernel.

* `failed_install_atomic_iff` — exactly when a failed install leaves `num_policy` and the arrays as
  they were. It does not once a counting patch has moved `num_policy`
  (`failed_install_moves_num_policy`).
* `successful_install_live_iff` — exactly when a successful install has stored programs only. When
  `bpf_any_get` fails, `get_pinned_bpf_obj` returns `ERR_PTR(0)`, which is NULL and no error
  (`successful_install_stores_null`).
-/

namespace SynCord
namespace Slots

/-! ## The lookup -/

namespace Lookup

/-- The path is not there, or may not be read. -/
def Failed (l : Lookup) : Prop := l.kernPath.1 ≠ 0 ∨ l.inodePermission.1 ≠ 0

/-- The error number of a failed lookup. -/
def code (l : Lookup) : Int :=
  if l.kernPath.1 ≠ 0 then l.kernPath.1 else l.inodePermission.1

/-- `bpf_any_get` was reached and failed. -/
def Dangling (l : Lookup) : Prop := ¬ l.Failed ∧ ∃ e, l.bpfAnyGet = .error e

/-- The path leads to a program. -/
def Succeeds (l : Lookup) : Prop := ¬ l.Failed ∧ ∃ p, l.bpfAnyGet = .ok p

/-- There is nothing at the path. -/
def missing : Lookup where
  kernPath := ⟨-2, by decide⟩
  inodePermission := ⟨0, by decide⟩
  bpfAnyGet := .error ⟨-2, by decide⟩

/-- There is something else than a program at the path. -/
def noProgram : Lookup where
  kernPath := ⟨0, by decide⟩
  inodePermission := ⟨0, by decide⟩
  bpfAnyGet := .error ⟨-22, by decide⟩

/-- The program `p` is at the path. -/
def found (p : Prog) : Lookup where
  kernPath := ⟨0, by decide⟩
  inodePermission := ⟨0, by decide⟩
  bpfAnyGet := .ok p

instance (l : Lookup) : Decidable l.Failed :=
  inferInstanceAs (Decidable (l.kernPath.1 ≠ 0 ∨ l.inodePermission.1 ≠ 0))

theorem found_succeeds (p : Prog) : (found p).Succeeds :=
  ⟨by simp [Failed, found], p, rfl⟩

theorem code_range {l : Lookup} (h : l.Failed) : -4095 ≤ l.code ∧ l.code ≤ -1 := by
  have h1 := l.kernPath.2
  have h2 := l.inodePermission.2
  unfold Failed at h
  unfold code
  split <;> omega

end Lookup

/-- Some program. -/
def somewhere : Prog := ⟨4096, by decide⟩

theorem isErr_errPtr {e : Int} (h : -4095 ≤ e ∧ e ≤ -1) : isErr (errPtr e) = true := by
  have he : e % 18446744073709551616 = e + 18446744073709551616 := by omega
  rw [isErr, errPtr, decide_eq_true_eq, BitVec.le_def, BitVec.toNat_ofInt, BitVec.toNat_ofInt]
  show ((-4095 : Int) % 18446744073709551616).toNat ≤ (e % 18446744073709551616).toNat
  omega

theorem errPtr_zero : errPtr 0 = NULL := rfl

section Lookup

variable {fs : Fs} {path : String}

theorem getPinnedBpfObj_failed (h : (fs path).Failed) :
    getPinnedBpfObj fs path = errPtr (fs path).code := by
  unfold getPinnedBpfObj Lookup.code
  by_cases h1 : (fs path).kernPath.1 = 0
  · have h2 : (fs path).inodePermission.1 ≠ 0 := h.resolve_left (not_not_intro h1)
    simp [h1, h2]
  · simp [h1]

theorem getPinnedBpfObj_ok (h : ¬ (fs path).Failed) {p : Prog}
    (hp : (fs path).bpfAnyGet = .ok p) : getPinnedBpfObj fs path = p.1 := by
  simp only [Lookup.Failed, not_or, not_not] at h
  have hr : (fs path).raw = p.1 := by rw [Lookup.raw, hp]
  simp [getPinnedBpfObj, h.1, h.2, hr, p.2.2]

theorem getPinnedBpfObj_succeeds (h : (fs path).Succeeds) :
    getPinnedBpfObj fs path = (fs path).raw := by
  obtain ⟨hf, p, hp⟩ := h
  rw [getPinnedBpfObj_ok hf hp, Lookup.raw, hp]

theorem getPinnedBpfObj_dangling (h : (fs path).Dangling) : getPinnedBpfObj fs path = NULL := by
  obtain ⟨hf, e, he⟩ := h
  simp only [Lookup.Failed, not_or, not_not] at hf
  have hr : (fs path).raw = errPtr e.1 := by rw [Lookup.raw, he]
  simp [getPinnedBpfObj, hf.1, hf.2, hr, isErr_errPtr e.2, errPtr_zero]

/-- The callbacks see an error exactly when the path cannot be used. -/
theorem isErr_getPinnedBpfObj : isErr (getPinnedBpfObj fs path) = true ↔ (fs path).Failed := by
  by_cases hf : (fs path).Failed
  · simp [getPinnedBpfObj_failed hf, isErr_errPtr (Lookup.code_range hf), hf]
  · cases hp : (fs path).bpfAnyGet with
    | ok p => simp [getPinnedBpfObj_ok hf hp, p.2.2, hf]
    | error e =>
      rw [getPinnedBpfObj_dangling ⟨hf, e, hp⟩]
      simp only [hf, iff_false]
      decide

/-- The value that is stored is a program exactly when `bpf_any_get` gave one. -/
theorem getPinnedBpfObj_live (h : ¬ (fs path).Failed) :
    (getPinnedBpfObj fs path ≠ NULL ∧ isErr (getPinnedBpfObj fs path) = false) ↔
      ¬ (fs path).Dangling := by
  cases hp : (fs path).bpfAnyGet with
  | ok p =>
    rw [getPinnedBpfObj_ok h hp]
    simp [p.2, Lookup.Dangling, hp]
  | error e =>
    have hd : (fs path).Dangling := ⟨h, e, hp⟩
    simp [getPinnedBpfObj_dangling hd, hd]

end Lookup

/-! ## Failed installs -/

/-- The callback stays in the arrays, and if it fails, then it has changed neither `num_policy` nor
any array. -/
def Atomic (p : Patch) (fs : Fs) (k : Kernel) : Prop :=
  ∃ k' ret, p.prePatchCallback fs k = some (k', ret) ∧
    (ret ≠ 0 → k'.numPolicy = k.numPolicy ∧ k'.prog = k.prog)

/-- A patch that does not count registers one hook. -/
theorem Patch.registrations_singleton {p : Patch} (h : p.counts = false) :
    ∃ r, p.registrations = [r] := by
  cases p <;> first | exact ⟨_, rfl⟩ | cases h

theorem Patch.bump_counts {p : Patch} (h : p.counts = true) (n : Int) : p.bump n = n + 1 := by
  simp [Patch.bump, h]

theorem Patch.bump_uncounted {p : Patch} (h : p.counts = false) (n : Int) : p.bump n = n := by
  simp [Patch.bump, h]

section Registered

variable {fs : Fs} {regs : List (Hook × String)} {i : Fin MAX_POLICY} {k k' : Kernel} {ret : Int}

theorem Registered.failed (hr : Registered fs regs i k k' ret) (h : ret ≠ 0) :
    ∃ r ∈ regs, (fs r.2).Failed ∧ k'.prog r.1 i = errPtr (fs r.2).code := by
  rcases hr.result with ⟨h0, _⟩ | ⟨_, r, hm, he, hp⟩
  · exact absurd h0 h
  · have hf := isErr_getPinnedBpfObj.1 he
    exact ⟨r, hm, hf, by rw [hp, getPinnedBpfObj_failed hf]⟩

theorem Registered.ret_ne_zero (hr : Registered fs regs i k k' ret) {r : Hook × String}
    (hm : r ∈ regs) (hf : (fs r.2).Failed) : ret ≠ 0 := by
  rcases hr.result with ⟨_, hall⟩ | ⟨h, _⟩
  · have := (hall r hm).1
    rw [isErr_getPinnedBpfObj.2 hf] at this
    cases this
  · rw [h]; decide

theorem Registered.not_failed (hr : Registered fs regs i k k' 0) :
    ∀ r ∈ regs, ¬ (fs r.2).Failed := fun _ hm hf => hr.ret_ne_zero hm hf rfl

theorem Registered.stored (hr : Registered fs regs i k k' 0) {r : Hook × String} (hm : r ∈ regs) :
    k'.prog r.1 i = getPinnedBpfObj fs r.2 := by
  rcases hr.result with ⟨_, hall⟩ | ⟨h, _⟩
  · exact (hall r hm).2
  · cases h

theorem Registered.load (hr : Registered fs regs i k k' ret) (h : Hook) :
    k'.load h k'.numPolicy = some (k'.prog h i) := Kernel.load_slot hr.numPolicy h

theorem Registered.ret_eq_zero (hr : Registered fs regs i k k' ret)
    (h : ∀ r ∈ regs, ¬ (fs r.2).Failed) : ret = 0 := by
  by_contra h0
  obtain ⟨r, hm, hf, _⟩ := hr.failed h0
  exact h r hm hf

theorem Registered.succeeds (hr : Registered fs regs i k k' ret)
    (h : ∀ r ∈ regs, (fs r.2).Succeeds) : ret = 0 :=
  hr.ret_eq_zero fun r hm => (h r hm).1

end Registered

/-- An install that stays in the arrays is undone when it fails exactly when it had not stored
anything new: the table was full, no lookup failed, or `amp` has found the same error there
already. -/
theorem failed_install_atomic_iff (p : Patch) (fs : Fs) (k : Kernel) :
    Atomic p fs k ↔ p.Inside k.numPolicy ∧
      ¬ ∃ i, p.target k.numPolicy = some i ∧ ∃ r ∈ p.registrations,
        (fs r.2).Failed ∧ (p.counts = true ∨ k.prog r.1 i ≠ errPtr (fs r.2).code) := by
  constructor
  · rintro ⟨k₁, ret₁, hk₁, ha⟩
    refine ⟨Patch.pre_inside_iff.1 ⟨k₁, ret₁, hk₁⟩, ?_⟩
    rintro ⟨i, hi, r, hm, hf, hc⟩
    obtain ⟨k', ret, hk, hr⟩ := Patch.pre_target fs hi
    rw [hk] at hk₁
    cases hk₁
    have hret := hr.ret_ne_zero hm hf
    obtain ⟨hn, hprog⟩ := ha hret
    have hb := Patch.bump_of_target hi
    cases hcount : p.counts with
    | true =>
      rw [Patch.bump_counts hcount, ← hr.numPolicy] at hb
      omega
    | false =>
      obtain ⟨q, hq⟩ := Patch.registrations_singleton hcount
      obtain ⟨r', hm', _, hp⟩ := hr.failed hret
      rw [hq, List.mem_singleton] at hm hm'
      subst hm hm'
      rw [hcount] at hc
      exact hc.resolve_left Bool.false_ne_true (by rw [← hprog, hp])
  · rintro ⟨hin, hno⟩
    obtain ⟨k', ret, hk⟩ := Patch.pre_inside_iff.2 hin
    refine ⟨k', ret, hk, fun hret => ?_⟩
    rcases Patch.pre_cases hk with ⟨_, _, rfl, _⟩ | ⟨i, ht, hr⟩
    · exact ⟨rfl, rfl⟩
    · -- an error was stored, by a patch that does not count and over the same error
      obtain ⟨r, hm, hf, hp⟩ := hr.failed hret
      have hc : p.counts = false := by
        by_contra hc
        exact hno ⟨i, ht, r, hm, hf, .inl (by simpa using hc)⟩
      have hold : k.prog r.1 i = errPtr (fs r.2).code := by
        by_contra hne
        exact hno ⟨i, ht, r, hm, hf, .inr hne⟩
      have hb := Patch.bump_of_target ht
      rw [Patch.bump_uncounted hc] at hb
      refine ⟨by rw [hr.numPolicy, hb], ?_⟩
      funext h j
      by_cases hhj : j = i ∧ h = r.1
      · rw [hhj.1, hhj.2, hp, hold]
      · refine hr.other h j ?_
        obtain ⟨q, hq⟩ := Patch.registrations_singleton hc
        rw [hq, List.mem_singleton] at hm
        subst hm
        rw [hq]
        simpa using not_and_or.1 hhj

/-- The first lookup of `bravo` fails, and `num_policy` has moved all the same. -/
theorem failed_install_moves_num_policy :
    ∃ k', Patch.bravo.prePatchCallback (fun _ => .missing) .boot = some (k', -1) ∧
      k'.numPolicy = 1 ∧ isErr (k'.prog .lockBypassAcquireRead 1) = true ∧
      ¬ Atomic .bravo (fun _ => .missing) .boot := by
  refine ⟨_, rfl, rfl, by decide, ?_⟩
  rintro ⟨k', ret, hk, ha⟩
  cases hk
  exact absurd (ha (by decide)).1 (by decide)

/-! ## Successful installs -/

/-- The callback stays in the arrays, and if it succeeds, then what it has stored are programs. -/
def Live (p : Patch) (fs : Fs) (k : Kernel) : Prop :=
  ∃ k' ret, p.prePatchCallback fs k = some (k', ret) ∧ (ret = 0 → ∀ h ∈ p.hooks,
    ∃ q, k'.load h k'.numPolicy = some q ∧ q ≠ NULL ∧ isErr q = false)

/-- What a successful install has stored are programs unless it has left the arrays, or all its
paths could be used and one of them led to something that is no program. -/
theorem successful_install_live_iff (p : Patch) (fs : Fs) (k : Kernel) :
    Live p fs k ↔ p.Inside k.numPolicy ∧ ¬ ∃ i, p.target k.numPolicy = some i ∧
      (∀ r ∈ p.registrations, ¬ (fs r.2).Failed) ∧
      ∃ r ∈ p.registrations, ∃ e, (fs r.2).bpfAnyGet = .error e := by
  constructor
  · rintro ⟨k₁, ret₁, hk₁, hl⟩
    refine ⟨Patch.pre_inside_iff.1 ⟨k₁, ret₁, hk₁⟩, ?_⟩
    rintro ⟨i, hi, hnf, r, hm, e, he⟩
    obtain ⟨k', ret, hk, hr⟩ := Patch.pre_target fs hi
    have h0 := hr.ret_eq_zero hnf
    subst h0
    rw [hk] at hk₁
    cases hk₁
    obtain ⟨q, hq, hnull, _⟩ := hl rfl r.1 (List.mem_map_of_mem hm)
    rw [hr.load, Option.some.injEq, hr.stored hm] at hq
    rw [← hq] at hnull
    exact hnull (getPinnedBpfObj_dangling ⟨hnf r hm, e, he⟩)
  · rintro ⟨hin, hno⟩
    obtain ⟨k', ret, hk⟩ := Patch.pre_inside_iff.2 hin
    refine ⟨k', ret, hk, ?_⟩
    rintro rfl h hh
    obtain ⟨r, hm, rfl⟩ := List.mem_map.1 hh
    rcases Patch.pre_cases hk with ⟨_, _, _, h0⟩ | ⟨i, ht, hr⟩
    · cases h0
    · have hnf := hr.not_failed
      refine ⟨_, hr.load r.1, ?_⟩
      rw [hr.stored hm, getPinnedBpfObj_live (hnf r hm)]
      rintro ⟨_, e, he⟩
      exact hno ⟨i, ht, hnf, r, hm, e, he⟩

/-- The path of `numa-grouping` holds no program. The install succeeds and leaves NULL behind. -/
theorem successful_install_stores_null :
    ∃ k', Patch.numaGrouping.prePatchCallback (fun _ => .noProgram) .boot = some (k', 0) ∧
      k'.load .shouldReorder k'.numPolicy = some NULL ∧
      ¬ Live .numaGrouping (fun _ => .noProgram) .boot := by
  refine ⟨_, rfl, rfl, ?_⟩
  rintro ⟨k', ret, hk, hl⟩
  cases hk
  obtain ⟨q, hq, hnull, _⟩ := hl rfl .shouldReorder (by decide)
  exact hnull (Option.some.inj hq).symm

end Slots
end SynCord
