import SynCord.Concord.Check

/-!
# SynCord.Concord.Exit

How the process of `concord.py` ends. A stage (`Instance.ready`, `setup`, `build`, `check`)
catches every exception of its `_impl` and calls `sys.exit()`, which is the exit status 0. Only
what is outside of the `try` is seen outside: the directory of the stage that cannot be made, and
the module that is not there in the end.

* `exit_status_iff` — the status tells success from failure exactly in the runs with no such
  failure, and, with `-e` given twice or more, with no failure in the part that was not asked for.
-/

namespace SynCord
namespace Concord

open Bpf (mapsName licenseName lockSection acceptable)

/-! ## The process -/

inductive Stop where
  /-- `sys.exit(status)` -/
  | exit (status : Int)
  /-- An exception. -/
  | raise
  deriving DecidableEq

/-- The external commands, in the order in which they are run. -/
inductive Command where
  | cpConcordH
  | make
  | cpLockPolicyH
  | cpPatch
  | makeKernel
  | kpatchBuild
  deriving DecidableEq

/-- Calls that may raise an exception. -/
inductive Call where
  | prepdnEbpf
  | copyAllFiles
  | replaceMakefile
  | readFile (path : Text)
  | replaceKern
  | renameKern
  | replaceNumPolicy
  | replacePolicyList
  | renameUser
  | replaceConcordH
  | replaceMap
  | cdSrc
  | cdLinuxSetup
  | replaceLockPolicyH
  | prepdnPatch
  | cdPatchReady
  | replacePatch
  | cdLinuxBuild
  | cdPatchBuild
  deriving DecidableEq

inductive ApiList where
  | read
  | raises
  /-- `Wrong API usage` -/
  | exits
  deriving DecidableEq

/-- What a run is given: the arguments, the directory, and how everything outside turns out. -/
structure Env where
  /-- How often `-e` is given. -/
  bpfonly : Nat
  base : Text
  policyDir : Tree
  api : ApiList
  /-- `none` if the source cannot be read. -/
  sections : Option (List Text)
  raises : Call → Bool
  rc : Command → Int
  moduleExists : Bool

inductive Step where
  | call (c : Call)
  | execute (cmd : Command)

variable (env : Env)

/-- `execute` raises an exception if the command does not return 0. -/
def Env.step : Step → Except Stop Unit
  | .call c => if env.raises c then .error .raise else .ok ()
  | .execute cmd => if env.rc cmd ≠ 0 then .error .raise else .ok ()

/-- `except Exception: ... sys.exit()`. An exit goes through it. -/
def attempt (impl : Except Stop Unit) : Except Stop Unit :=
  match impl with
  | .error .raise => .error (.exit 0)
  | r => r

/-! ## The stages -/

def ebpfReadySteps (c : Collected) : List Step :=
  [.call .copyAllFiles, .execute .cpConcordH, .call .replaceMakefile] ++
    (c.mapFile.toList ++ c.policyFiles).map (fun f => .call (.readFile f.path)) ++
    [.call .replaceKern, .call .renameKern, .call .replaceNumPolicy, .call .replacePolicyList,
      .call .renameUser, .call .replaceConcordH]

def ebpfBuildSteps : List Step := [.call .cdSrc, .execute .make]

def patchSetupSteps : List Step :=
  [.call .cdLinuxSetup, .execute .cpLockPolicyH, .call .replaceLockPolicyH]

def patchReadySteps : List Step :=
  [.call .cdPatchReady, .execute .cpPatch, .call .replacePatch]

def patchBuildSteps : List Step :=
  [.call .cdLinuxBuild, .execute .makeKernel, .call .cdPatchBuild, .execute .kpatchBuild]

def Env.all (steps : List Step) : Except Stop Unit := steps.forM env.step

/-- `ready(True)`: the directory is made before the `try`. -/
def Env.ready (prepdn : Call) (steps : List Step) : Except Stop Unit := do
  env.step (.call prepdn)
  attempt (env.all steps)

def Env.readAPIList : Except Stop Unit :=
  match env.api with
  | .read => .ok ()
  | .raises => .error .raise
  | .exits => .error (.exit 0)

def Env.checkSection (sec : Text) : Except Stop Unit :=
  if mapsName.isPrefixOf sec then env.step (.call .replaceMap)
  else if licenseName.isPrefixOf sec then .ok ()
  else if lockSection.isPrefixOf sec then .ok ()
  else .error (.exit 0)

def Env.ebpfCheck : Except Stop Unit := do
  env.readAPIList
  match env.sections with
  | none => .error (.exit 0)
  | some sections => sections.forM env.checkSection

def Env.checkAndGenEbpf : Except Stop Unit :=
  match collect env.base env.policyDir with
  | none => .error (.exit 0)
  | some c => do
    env.ready .prepdnEbpf (ebpfReadySteps c)
    attempt env.ebpfCheck
    attempt (env.all ebpfBuildSteps)

/-- The result is whether there is a module. -/
def Env.patchKernel : Except Stop Bool := do
  attempt (env.all patchSetupSteps)
  env.ready .prepdnPatch patchReadySteps
  attempt (env.all patchBuildSteps)
  return env.moduleExists

def Env.generateLockCode : Except Stop Int := do
  env.checkAndGenEbpf
  if env.bpfonly = 1 then return 0
  if ← env.patchKernel then return 0 else return -1

/-- The status that the shell sees. The value 1 is the only one that `main` does not hand on, and
`generate_lock_code` never returns it. -/
def Env.exitStatus : Int :=
  match env.generateLockCode with
  | .ok ret => if ret ≠ 1 then ret % 256 else 0
  | .error (.exit status) => status % 256
  | .error .raise => 1

/-! ## What is asked for -/

def Env.Succeeds (steps : List Step) : Prop := ∀ s ∈ steps, env.step s = .ok ()

/-- The API list can be read, and every section is accepted. -/
structure Env.CheckPasses (sections : List Text) : Prop where
  api : env.api = .read
  source : env.sections = some sections
  accepted : ∀ sec ∈ sections, acceptable sec
  replaced : ∀ sec ∈ sections, mapsName <+: sec → env.raises .replaceMap = false

structure Env.EbpfCompleted : Prop where
  collected : ∃ c, collect env.base env.policyDir = some c ∧ env.Succeeds (ebpfReadySteps c)
  directory : env.raises .prepdnEbpf = false
  check : ∃ sections, env.CheckPasses sections
  build : env.Succeeds ebpfBuildSteps

structure Env.PatchBuilt : Prop where
  setup : env.Succeeds patchSetupSteps
  directory : env.raises .prepdnPatch = false
  ready : env.Succeeds patchReadySteps
  build : env.Succeeds patchBuildSteps

structure Env.LivepatchCompleted : Prop extends env.PatchBuilt where
  module : env.moduleExists = true

/-- Every stage that was asked for has run to its end. -/
def Env.Completed : Prop := env.EbpfCompleted ∧ (env.bpfonly = 0 → env.LivepatchCompleted)

/-- The directory for the generated program cannot be made. -/
def Env.EbpfDirFails : Prop :=
  (∃ c, collect env.base env.policyDir = some c) ∧ env.raises .prepdnEbpf = true

def Env.PatchDirFails : Prop := env.Succeeds patchSetupSteps ∧ env.raises .prepdnPatch = true

def Env.NoModule : Prop := env.PatchBuilt ∧ env.moduleExists = false

/-- Failures that a stage does not turn into `sys.exit()`. -/
def Env.PatchFailureSeen : Prop := env.PatchDirFails ∨ env.NoModule

/-- A failure in what was asked for is one that is seen, and there is none that is seen in what was
not asked for. -/
structure Env.Told : Prop where
  ebpf : env.EbpfCompleted ∨ env.EbpfDirFails
  asked : env.EbpfCompleted → env.bpfonly = 0 → env.LivepatchCompleted ∨ env.PatchFailureSeen
  unasked : env.EbpfCompleted → 2 ≤ env.bpfonly → ¬ env.PatchFailureSeen

section Outcomes

variable {env : Env}

theorem Env.step_cases (env : Env) (s : Step) :
    env.step s = .ok () ∨ env.step s = .error .raise := by
  cases s with
  | call c =>
    rw [Env.step]
    split
    · exact .inr rfl
    · exact .inl rfl
  | execute cmd =>
    rw [Env.step]
    split
    · exact .inr rfl
    · exact .inl rfl

theorem Env.step_call {c : Call} : env.step (.call c) = .ok () ↔ env.raises c = false := by
  rw [Env.step]
  cases env.raises c <;> simp

theorem Env.attempt_all (env : Env) (steps : List Step) :
    (env.Succeeds steps ∧ attempt (env.all steps) = .ok ()) ∨
      (¬ env.Succeeds steps ∧ attempt (env.all steps) = .error (.exit 0)) := by
  cases h : env.all steps with
  | ok =>
    exact .inl ⟨forM_eq_ok_iff.1 h, rfl⟩
  | error e =>
    obtain ⟨s, -, hs⟩ := forM_eq_error h
    have he : e = .raise := by
      rcases env.step_cases s with hok | herr
      · rw [hok] at hs; cases hs
      · rw [herr] at hs; cases hs; rfl
    subst he
    refine .inr ⟨fun hall => ?_, rfl⟩
    rw [Env.all, forM_eq_ok_iff.2 hall] at h
    cases h

theorem Env.checkSection_cases (env : Env) (sec : Text) :
    ((acceptable sec ∧ (mapsName <+: sec → env.raises .replaceMap = false)) ∧
        env.checkSection sec = .ok ()) ∨
      (¬ (acceptable sec ∧ (mapsName <+: sec → env.raises .replaceMap = false)) ∧
        attempt (env.checkSection sec) = .error (.exit 0)) := by
  simp only [Env.checkSection, List.isPrefixOf_iff_prefix]
  by_cases hm : mapsName <+: sec
  · rw [if_pos hm]
    cases hr : env.raises .replaceMap with
    | false => exact .inl ⟨⟨.inl hm, fun _ => rfl⟩, Env.step_call.2 hr⟩
    | true =>
      refine .inr ⟨fun h => absurd (h.2 hm) (by simp), ?_⟩
      rw [Env.step, hr]
      rfl
  · rw [if_neg hm]
    by_cases hl : licenseName <+: sec
    · exact .inl ⟨⟨.inr (.inl hl), fun h => absurd h hm⟩, if_pos hl⟩
    · rw [if_neg hl]
      by_cases hk : lockSection <+: sec
      · exact .inl ⟨⟨.inr (.inr hk), fun h => absurd h hm⟩, if_pos hk⟩
      · rw [if_neg hk]
        refine .inr ⟨fun h => ?_, rfl⟩
        rcases h.1 with h | h | h
        · exact hm h
        · exact hl h
        · exact hk h

theorem Env.ebpfCheck_cases (env : Env) :
    ((∃ sections, env.CheckPasses sections) ∧ attempt env.ebpfCheck = .ok ()) ∨
      (¬ (∃ sections, env.CheckPasses sections) ∧
        attempt env.ebpfCheck = .error (.exit 0)) := by
  rw [Env.ebpfCheck, Env.readAPIList]
  cases hapi : env.api with
  | raises => exact .inr ⟨fun ⟨_, h⟩ => by simp [h.api] at hapi, rfl⟩
  | exits => exact .inr ⟨fun ⟨_, h⟩ => by simp [h.api] at hapi, rfl⟩
  | read =>
    cases hsrc : env.sections with
    | none => exact .inr ⟨fun ⟨_, h⟩ => by simp [h.source] at hsrc, rfl⟩
    | some sections =>
      show (_ ∧ attempt (sections.forM env.checkSection) = .ok ()) ∨
        (_ ∧ attempt (sections.forM env.checkSection) = .error (.exit 0))
      cases hloop : sections.forM env.checkSection with
      | ok =>
        have hall := forM_eq_ok_iff.1 hloop
        have hsec : ∀ sec ∈ sections,
            acceptable sec ∧ (mapsName <+: sec → env.raises .replaceMap = false) := by
          intro sec hs
          rcases env.checkSection_cases sec with h | h
          · exact h.1
          · rw [hall sec hs] at h
            cases h.2
        exact .inl ⟨⟨sections, hapi, hsrc, fun s hs => (hsec s hs).1, fun s hs => (hsec s hs).2⟩,
          rfl⟩
      | error e =>
        obtain ⟨sec, hs, hsec⟩ := forM_eq_error hloop
        rcases env.checkSection_cases sec with h | h
        · rw [h.2] at hsec
          cases hsec
        · rw [hsec] at h
          refine .inr ⟨fun ⟨sections', hp⟩ => ?_, h.2⟩
          obtain rfl : sections' = sections := Option.some.inj (hp.source.symm.trans hsrc)
          exact h.1 ⟨hp.accepted sec hs, hp.replaced sec hs⟩

theorem Env.ready_cases (env : Env) (prepdn : Call) (steps : List Step) :
    (env.raises prepdn = true ∧ env.ready prepdn steps = .error .raise) ∨
      (env.raises prepdn = false ∧ env.Succeeds steps ∧ env.ready prepdn steps = .ok ()) ∨
      (env.raises prepdn = false ∧ ¬ env.Succeeds steps ∧
        env.ready prepdn steps = .error (.exit 0)) := by
  rw [Env.ready]
  cases hr : env.raises prepdn with
  | true =>
    refine .inl ⟨rfl, ?_⟩
    rw [Env.step, hr]
    rfl
  | false =>
    rw [Env.step_call.2 hr]
    rcases env.attempt_all steps with ⟨hs, h⟩ | ⟨hs, h⟩
    · exact .inr (.inl ⟨rfl, hs, h⟩)
    · exact .inr (.inr ⟨rfl, hs, h⟩)

theorem Env.not_ebpfDirFails (h : env.raises .prepdnEbpf = false) : ¬ env.EbpfDirFails :=
  fun hd => Bool.false_ne_true (h.symm.trans hd.2)

theorem Env.not_patchDirFails (h : env.raises .prepdnPatch = false) : ¬ env.PatchDirFails :=
  fun hd => Bool.false_ne_true (h.symm.trans hd.2)

theorem Env.EbpfDirFails.not_completed (h : env.EbpfDirFails) : ¬ env.EbpfCompleted :=
  fun hc => Env.not_ebpfDirFails hc.directory h

theorem Env.PatchDirFails.not_built (h : env.PatchDirFails) : ¬ env.PatchBuilt :=
  fun hb => Env.not_patchDirFails hb.directory h

theorem Env.checkAndGenEbpf_cases (env : Env) :
    (env.EbpfCompleted ∧ env.checkAndGenEbpf = .ok ()) ∨
      (env.EbpfDirFails ∧ env.checkAndGenEbpf = .error .raise) ∨
      (¬ env.EbpfCompleted ∧ ¬ env.EbpfDirFails ∧
        env.checkAndGenEbpf = .error (.exit 0)) := by
  rw [Env.checkAndGenEbpf]
  cases hcol : collect env.base env.policyDir with
  | none =>
    refine .inr (.inr ⟨fun h => ?_, fun h => ?_, rfl⟩)
    · obtain ⟨c, hc, -⟩ := h.collected
      rw [hcol] at hc
      cases hc
    · obtain ⟨⟨c, hc⟩, -⟩ := h
      rw [hcol] at hc
      cases hc
  | some c =>
    dsimp only
    rcases env.ready_cases .prepdnEbpf (ebpfReadySteps c) with ⟨hr, h⟩ | ⟨hr, hs, h⟩ | ⟨hr, hs, h⟩
    · rw [h]
      exact .inr (.inl ⟨⟨⟨c, hcol⟩, hr⟩, rfl⟩)
    · have hdir := Env.not_ebpfDirFails hr
      rw [h]
      rcases env.ebpfCheck_cases with ⟨hck, h⟩ | ⟨hck, h⟩
      · rw [h]
        rcases env.attempt_all ebpfBuildSteps with ⟨hb, h⟩ | ⟨hb, h⟩
        · rw [h]
          exact .inl ⟨⟨⟨c, hcol, hs⟩, hr, hck, hb⟩, rfl⟩
        · rw [h]
          exact .inr (.inr ⟨fun hc => hb hc.build, hdir, rfl⟩)
      · rw [h]
        exact .inr (.inr ⟨fun hc => hck hc.check, hdir, rfl⟩)
    · rw [h]
      refine .inr (.inr ⟨fun hc => ?_, Env.not_ebpfDirFails hr, rfl⟩)
      obtain ⟨c', hc', hs'⟩ := hc.collected
      obtain rfl : c' = c := Option.some.inj (hc'.symm.trans hcol)
      exact hs hs'

theorem Env.patchKernel_cases (env : Env) :
    (env.PatchBuilt ∧ env.patchKernel = .ok env.moduleExists) ∨
      (env.PatchDirFails ∧ env.patchKernel = .error .raise) ∨
      (¬ env.PatchBuilt ∧ ¬ env.PatchDirFails ∧ env.patchKernel = .error (.exit 0)) := by
  rw [Env.patchKernel]
  rcases env.attempt_all patchSetupSteps with ⟨hset, h⟩ | ⟨hset, h⟩
  · rw [h]
    rcases env.ready_cases .prepdnPatch patchReadySteps with ⟨hr, h⟩ | ⟨hr, hs, h⟩ | ⟨hr, hs, h⟩
    · rw [h]
      exact .inr (.inl ⟨⟨hset, hr⟩, rfl⟩)
    · have hdir := Env.not_patchDirFails hr
      rw [h]
      rcases env.attempt_all patchBuildSteps with ⟨hb, h⟩ | ⟨hb, h⟩
      · rw [h]
        exact .inl ⟨⟨hset, hr, hs, hb⟩, rfl⟩
      · rw [h]
        exact .inr (.inr ⟨fun hc => hb hc.build, hdir, rfl⟩)
    · rw [h]
      exact .inr (.inr ⟨fun hc => hs hc.ready, Env.not_patchDirFails hr, rfl⟩)
  · rw [h]
    exact .inr (.inr ⟨fun hc => hset hc.setup, fun hd => hset hd.1, rfl⟩)

theorem Env.generateLockCode_of_only (hc : env.checkAndGenEbpf = .ok ()) (h : env.bpfonly = 1) :
    env.generateLockCode = .ok 0 := by
  rw [Env.generateLockCode, hc]
  simp [h, bind, Except.bind, pure, Except.pure]

theorem Env.generateLockCode_of_patch (hc : env.checkAndGenEbpf = .ok ()) (h : env.bpfonly ≠ 1) :
    env.generateLockCode = env.patchKernel.map fun found => if found then 0 else -1 := by
  rw [Env.generateLockCode, hc]
  rcases hp : env.patchKernel with e | (_ | _) <;>
    simp [h, bind, Except.bind, pure, Except.pure, Except.map]

/-- The failures that are seen are the only ones that the status tells. -/
theorem Env.exitStatus_eq_zero_iff : env.exitStatus = 0 ↔
    ¬ env.EbpfDirFails ∧ (env.EbpfCompleted → env.bpfonly ≠ 1 → ¬ env.PatchFailureSeen) := by
  rw [Env.exitStatus]
  rcases env.checkAndGenEbpf_cases with ⟨hc, h⟩ | ⟨hd, h⟩ | ⟨hc, hd, h⟩
  · have hdir : ¬ env.EbpfDirFails := fun hd => hd.not_completed hc
    by_cases honly : env.bpfonly = 1
    · rw [Env.generateLockCode_of_only h honly]
      simp [hdir, honly]
    · rw [Env.generateLockCode_of_patch h honly]
      rcases env.patchKernel_cases with ⟨hb, hp⟩ | ⟨hd, hp⟩ | ⟨hb, hd, hp⟩
      · have hpd : ¬ env.PatchDirFails := fun hd => hd.not_built hb
        rw [hp]
        cases hm : env.moduleExists <;>
          simp [Except.map, hdir, hc, honly, Env.PatchFailureSeen, hpd, Env.NoModule, hb, hm]
      · rw [hp]
        simp [Except.map, hc, honly, Env.PatchFailureSeen, hd]
      · rw [hp]
        simp [Except.map, hdir, Env.PatchFailureSeen, hd, Env.NoModule, hb]
  · rw [Env.generateLockCode, h]
    simp [bind, Except.bind, hd]
  · rw [Env.generateLockCode, h]
    simp [bind, Except.bind, hc, hd]

theorem Env.LivepatchCompleted.not_seen (h : env.LivepatchCompleted) : ¬ env.PatchFailureSeen := by
  rintro (hd | ⟨-, hm⟩)
  · exact hd.not_built h.toPatchBuilt
  · rw [h.module] at hm
    cases hm

end Outcomes

theorem exit_status_iff (env : Env) : (env.exitStatus = 0 ↔ env.Completed) ↔ env.Told := by
  rw [Env.exitStatus_eq_zero_iff, Env.Completed]
  constructor
  · intro h
    refine ⟨?_, ?_, ?_⟩
    · by_contra hno
      obtain ⟨hc, hd⟩ := not_or.1 hno
      exact hc (h.1 ⟨hd, fun hc' => absurd hc' hc⟩).1
    · intro hc h0
      by_contra hno
      obtain ⟨hl, hs⟩ := not_or.1 hno
      exact hl ((h.1 ⟨fun hd => hd.not_completed hc, fun _ _ => hs⟩).2 h0)
    · intro hc h2
      exact (h.2 ⟨hc, fun h0 => by omega⟩).2 hc (by omega)
  · intro ht
    constructor
    · rintro ⟨hd, hs⟩
      have hc := ht.ebpf.resolve_right hd
      exact ⟨hc, fun h0 => (ht.asked hc h0).resolve_right (hs hc (by omega))⟩
    · rintro ⟨hc, hl⟩
      refine ⟨fun hd => hd.not_completed hc, fun _ h1 => ?_⟩
      by_cases h0 : env.bpfonly = 0
      · exact (hl h0).not_seen
      · exact ht.unasked hc (by omega)

/-- Two policy files. Everything works but `make`, which returns 2. -/
def makeFails : Env where
  bpfonly := 0
  base := []
  policyDir := twoFiles
  api := .read
  sections := some (twoFiles.sources.flatMap Bpf.getSection ++ [licenseName])
  raises := fun _ => false
  rc := fun cmd => if cmd = .make then 2 else 0
  moduleExists := false

theorem exit_status_make : makeFails.exitStatus = 0 ∧ ¬ makeFails.Completed := by
  refine ⟨by decide, fun h => ?_⟩
  have := h.1.build (.execute .make) (by simp [ebpfBuildSteps])
  cases this

end Concord
end SynCord
