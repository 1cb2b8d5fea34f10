import SynCord.Slots.Ownership
import SynCord.Slots.Records

/-!
# SynCord.Slots.CallSites

What the call sites of the patches find. Those of `bravo` look in slot 1, all others in slot
`num_policy` of the moment. A call site runs the hook functions of its kind of lock as they are in
effect, and these may be the functions of another patch.

* `call_sites_agree` — when the call sites of every patch find its own programs. They do not for
  `bravo` as a second patch (`call_sites_bravo_second`).
-/

namespace SynCord
namespace Slots

/-- The array that a function takes its program from. The function of `bravo` for writers runs
none. -/
def HookFn.array : HookFn → Option Hook
  | syncordLockAcquired => some .lockAcquired
  | syncordLockToRelease => some .lockToRelease
  | syncordToEnterSlowpath => some .lockToEnterSlowpath
  | syncordShouldReorder => some .shouldReorder
  | customLockBypassAcquire => some .lockBypassAcquireRead
  | customLockAcquired => some .lockAcquiredRead
  | customLockAcquiredWriter => none
  | customLockBypassRelease => some .lockBypassReleaseRead

/-- The locks at the call sites of a patch. -/
def Patch.lockKind : Patch → Kind
  | .bravo => .rwSemaphore
  | _ => .qspinlock

/-- The hooks that the call sites of a patch run: the ones it registers, and the ones of the
functions that are in effect for its kind of lock. Which of these functions a call gets to is the
kernel's choice, and before a patch replaces them they run no program. -/
def Runs (es : List Entry) (p : Patch) (h : Hook) : Prop :=
  h ∈ p.hooks ∨ ∃ f : HookFn, f.lockKind = p.lockKind ∧ f.array = some h ∧ (inEffect es f).isSome

/-- Every hook that the call sites of an installed patch run is found where they look for it: the
program that the patch has registered. -/
def Agrees (s : Sys) : Prop :=
  ∀ e ∈ s.installed, ∀ h, Runs s.installed e.patch h → ∃ q, e.program h = some q ∧
    s.kernel.load h (e.patch.callIndex s.kernel.numPolicy) = some q ∧ q ≠ NULL ∧ isErr q = false

/-- What a run has to keep to:

* no callback leaves the arrays,
* no path leads to something that is no program,
* a patch is installed while no other one is for its kind of lock, and `bravo` before any other
  and at `num_policy` 0, unless it is refused anyway,
* a patch is uninstalled while the others, if any, are `bravo`. -/
def InStep (s : Sys) (a : Event) : Prop :=
  Inside s a ∧ match a with
  | .install p fs =>
    (∀ r ∈ p.registrations, ¬ (fs r.2).Dangling) ∧
    (p.counts = true ∧ 4 ≤ s.kernel.numPolicy ∨
      (∀ e ∈ s.installed, e.patch.lockKind ≠ p.lockKind) ∧
      (p = .bravo → s.installed = [] ∧ s.kernel.numPolicy = 0))
  | .uninstall n => ∀ (m : Nat) e, s.installed[m]? = some e → m ≠ n → e.patch = .bravo

theorem callIndex_of_ne {p : Patch} (h : p ≠ .bravo) (n : Int) : p.callIndex n = n := by
  cases p <;> first | rfl | exact absurd rfl h

theorem eq_bravo_of_lockKind_ne {p q : Patch} (hp : p ≠ .bravo) (h : q.lockKind ≠ p.lockKind) :
    q = .bravo := by
  cases p <;> cases q <;> first | rfl | exact absurd rfl hp | exact absurd rfl h

/-- The hooks of `bravo` are its own. -/
theorem bravo_hooks_disjoint {p : Patch} (h : p ≠ .bravo) {hook : Hook}
    (hb : hook ∈ Patch.bravo.hooks) : hook ∉ p.hooks ∧ hook ∉ p.cleared := by
  cases p <;> first | exact absurd rfl h | (revert hook; decide)

/-- A patch replaces functions of its kind of lock, and registers what they run. -/
theorem Patch.replaces_spec {p : Patch} {f : HookFn} (h : p.replaces f = true) :
    f.lockKind = p.lockKind ∧ ∀ hook, f.array = some hook → hook ∈ p.hooks := by
  cases p <;> cases f <;> first
    | exact absurd h (by decide)
    | exact ⟨rfl, fun hook hf => by cases hf; decide⟩
    | exact ⟨rfl, fun hook hf => by cases hf⟩

/-! ## The invariant -/

/-- There is one patch for each kind of lock, and it finds what it has registered. -/
structure Found (s : Sys) : Prop where
  kinds : (s.installed.map (·.patch.lockKind)).Nodup
  found : ∀ e ∈ s.installed, ∀ h ∈ e.patch.hooks, ∃ q, e.program h = some q ∧
    s.kernel.load h (e.patch.callIndex s.kernel.numPolicy) = some q ∧ q ≠ NULL ∧ isErr q = false

theorem Found.eq_of_lockKind {s : Sys} (hf : Found s) {e e' : Entry} (he : e ∈ s.installed)
    (he' : e' ∈ s.installed) (h : e.patch.lockKind = e'.patch.lockKind) : e = e' :=
  List.inj_on_of_nodup_map hf.kinds he he' h

/-- The functions in effect at the call sites of a patch are its own. -/
theorem Found.runs {s : Sys} (hf : Found s) {e : Entry} (he : e ∈ s.installed) {h : Hook}
    (hr : Runs s.installed e.patch h) : h ∈ e.patch.hooks := by
  rcases hr with hr | ⟨f, hk, ha, hin⟩
  · exact hr
  · rw [inEffect, Option.isSome_map, Option.isSome_iff_exists] at hin
    obtain ⟨e', he'⟩ := hin
    have hrep := List.find?_some he'
    obtain ⟨hk', hm⟩ := Patch.replaces_spec hrep
    have heq := hf.eq_of_lockKind he (List.mem_of_find?_eq_some he') (hk.symm.trans hk')
    rw [heq]
    exact hm h ha

theorem Found.agrees {s : Sys} (hf : Found s) : Agrees s :=
  fun e he h hr => hf.found e he h (hf.runs he hr)

/-- The patches already installed, after an install attempt that has stored something. -/
theorem Found.install {s : Sys} {p : Patch} {fs : Fs} {i : Fin MAX_POLICY} {k : Kernel} {ret : Int}
    (hf : Found s) (hkind : ∀ e ∈ s.installed, e.patch.lockKind ≠ p.lockKind)
    (hbravo : p = .bravo → s.installed = [])
    (hr : Registered fs p.registrations i s.kernel k ret) : Found ⟨k, s.installed⟩ where
  kinds := hf.kinds
  found := by
    intro e he h hh
    obtain ⟨q, hq, hl, hlive⟩ := hf.found e he h hh
    have hp : p ≠ .bravo := fun hp => by rw [hbravo hp] at he; cases he
    have hbr := eq_bravo_of_lockKind_ne hp (hkind e he)
    refine ⟨q, hq, ?_, hlive⟩
    rw [hbr] at hh hl
    rw [← hl, hbr]
    -- the literal index does not move, and the hooks are others
    exact hr.load_disjoint fun _ => (bravo_hooks_disjoint hp hh).1

/-- The patch that has just been installed. -/
theorem found_new {s : Sys} {p : Patch} {fs : Fs} {i : Fin MAX_POLICY} {k : Kernel}
    (hd : ∀ r ∈ p.registrations, ¬ (fs r.2).Dangling)
    (hbravo : p = .bravo → s.kernel.numPolicy = 0) (ht : p.target s.kernel.numPolicy = some i)
    (hr : Registered fs p.registrations i s.kernel k 0) (n : Int) {h : Hook} (hh : h ∈ p.hooks) :
    ∃ q, (Entry.mk p n fs).program h = some q ∧ k.load h (p.callIndex k.numPolicy) = some q ∧
      q ≠ NULL ∧ isErr q = false := by
  obtain ⟨r, hm, rfl, hp⟩ := Entry.exists_program (e := ⟨p, n, fs⟩) hh
  have hf := hr.not_failed r hm
  have hidx : p.callIndex k.numPolicy = i.val := by
    by_cases hbr : p = .bravo
    · have hb := Patch.bump_of_target ht
      have h0 := hbravo hbr
      subst hbr
      rw [Patch.bump_counts rfl] at hb
      simp only [Patch.callIndex]
      omega
    · rw [callIndex_of_ne hbr, hr.numPolicy]
  have hlive := (getPinnedBpfObj_live hf).2 (hd r hm)
  have hraw : getPinnedBpfObj fs r.2 = (fs r.2).raw := by
    refine getPinnedBpfObj_succeeds ⟨hf, ?_⟩
    cases hg : (fs r.2).bpfAnyGet with
    | ok q => exact ⟨q, rfl⟩
    | error e => exact absurd ⟨hf, e, hg⟩ (hd r hm)
  rw [hraw] at hlive
  exact ⟨_, hp, by rw [Kernel.load_slot hidx, hr.stored hm, hraw], hlive⟩

theorem not_full_of_target {p : Patch} {n : Int} {i : Fin MAX_POLICY} (h : p.target n = some i) :
    ¬ (p.counts = true ∧ 4 ≤ n) := fun hn => by
  rw [Patch.target, if_pos hn] at h
  cases h

theorem Found.tr {s s' : Sys} {a : Event} (hf : Found s) (ha : InStep s a) (h : Tr s a s') :
    Found s' := by
  cases h with
  | refused => exact hf
  | failed ht hr =>
    obtain ⟨hkind, hbravo⟩ := ha.2.2.resolve_left (not_full_of_target ht)
    exact hf.install hkind (fun hp => (hbravo hp).1) hr
  | @installed p fs i k ht hr =>
    obtain ⟨-, hd, hcond⟩ := ha
    obtain ⟨hkind, hbravo⟩ := hcond.resolve_left (not_full_of_target ht)
    have hold := hf.install hkind (fun hp => (hbravo hp).1) hr
    refine ⟨List.nodup_cons.2 ⟨?_, hf.kinds⟩, ?_⟩
    · intro hm
      obtain ⟨e, he, hek⟩ := List.mem_map.1 hm
      exact hkind e he hek
    · intro e he h hh
      rcases List.mem_cons.1 he with rfl | he
      · exact found_new hd (fun hp => (hbravo hp).2) ht hr _ hh
      · exact hold.found e he h hh
  | @uninstalled n e₀ i he₀ hi =>
    refine ⟨hf.kinds.sublist ((List.eraseIdx_sublist _ _).map _), ?_⟩
    intro e he h hh
    obtain ⟨m, hmn, hm⟩ := List.mem_eraseIdx_iff_getElem?.1 he
    have hbr := ha.2 m e hm hmn
    obtain ⟨q, hq, hl, hlive⟩ := hf.found e (List.mem_of_getElem? hm) h hh
    have hne : e₀.patch ≠ .bravo := by
      intro h₀
      have hlt := (List.getElem?_eq_some_iff.1 hm).1
      refine hmn ((List.getElem?_inj (by simpa using hlt) hf.kinds).1 ?_)
      simp [List.getElem?_map, hm, he₀, hbr, h₀]
    refine ⟨q, hq, ?_, hlive⟩
    rw [hbr] at hh hl ⊢
    rw [← hl]
    refine Kernel.load_congr fun j _ => ?_
    simp [Kernel.cleared, (bravo_hooks_disjoint hne hh).2]

/-- In every run whose events all meet `InStep`, the call sites of every installed patch find the
programs that it has registered, and no callback leaves the arrays. -/
theorem call_sites_agree {s : Sys} (h : Reach step InStep .boot s) :
    Agrees s ∧ ∀ a, InStep s a → Enabled s a → ∃ s', step s a = some s' ∧ Agrees s' := by
  have hboot : Found .boot := ⟨List.nodup_nil, fun _ he => absurd he List.not_mem_nil⟩
  have hf : Found s := h.invariant hboot fun _ _ _ hf ha hs => hf.tr ha (step_tr hs)
  refine ⟨hf.agrees, fun a ha he => ?_⟩
  obtain ⟨s', hs⟩ := step_inside_iff.2 ⟨he, ha.1⟩
  exact ⟨s', hs, (hf.tr ha (step_tr hs)).agrees⟩

theorem found_not_dangling (p : Patch) :
    ∀ r ∈ p.registrations, ¬ (Lookup.found somewhere).Dangling := by
  rintro r _ ⟨_, e, he⟩
  cases he

/-- `amp` joins `bravo`. -/
theorem call_sites_agree_bravo_amp : ∃ s : Sys,
    s.installed.map (·.patch) = [.amp, .bravo] ∧ Agrees s := by
  have hbravo : InStep .boot (.install .bravo fun _ => .found somewhere) :=
    ⟨by decide, found_not_dangling _, .inr ⟨fun _ he => absurd he List.not_mem_nil,
      fun _ => ⟨rfl, rfl⟩⟩⟩
  have hamp (k : Kernel) (hk : k.numPolicy = 1) (n : Int) (fs : Fs) :
      InStep ⟨k, [⟨.bravo, n, fs⟩]⟩ (.install .amp fun _ => .found somewhere) := by
    refine ⟨?_, found_not_dangling _, .inr ⟨fun e he => ?_, fun hp => by cases hp⟩⟩
    · simp [Inside, Patch.Inside, Patch.counts, hk]
    · rw [List.mem_singleton.1 he]
      exact Kind.noConfusion
  have hrun : Reach step InStep .boot _ :=
    (Reach.start.next hbravo rfl).next (hamp _ rfl _ _) rfl
  exact ⟨_, rfl, (call_sites_agree hrun).1⟩

/-- `bravo` is installed after `scl`. Its programs are in slot 2 and its call sites look in slot 1,
where there is nothing. -/
theorem call_sites_bravo_second : ∃ s : Sys, Reach step anyStep .boot s ∧
    s.installed.map (·.patch) = [.bravo, .scl] ∧
    s.kernel.load .lockBypassAcquireRead (Patch.bravo.callIndex s.kernel.numPolicy) = some NULL ∧
    ¬ Agrees s := by
  have hrun : Reach step anyStep .boot _ :=
    (Reach.start.next (a := .install .scl fun _ => .found somewhere) trivial rfl).next
      (a := .install .bravo fun _ => .found somewhere) trivial rfl
  refine ⟨_, hrun, rfl, rfl, fun h => ?_⟩
  obtain ⟨q, _, hl, hq, _⟩ :=
    h _ List.mem_cons_self .lockBypassAcquireRead (.inl (by decide))
  exact hq (Option.some.inj hl).symm

end Slots
end SynCord
