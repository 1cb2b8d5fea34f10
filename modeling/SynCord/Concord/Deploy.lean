import SynCord.Concord.Check
import SynCord.Slots.Install

/-!
# SynCord.Concord.Deploy

From the directory of a policy to the hooks of the kernel. `concord.py` makes two sources out of the
directory and checks the sections; the user program loads the object file of one of the sources and
pins its programs; the `pre_patch_callback` of the patch looks them up and stores them. What ties
the two ends together are names: those of the policy files, and the paths in the patch.

* `registrations_pinned` — the paths in a patch are those that its policy files are pinned at.
* `policies_reach_hooks` — every hook of the patch gets the program of its own policy file, and the
  map is pinned beside them.
-/

namespace SynCord
namespace Concord

open Bpf
open Slots (Patch Kernel Fs MAX_POLICY)

/-- The policy files in the directory that goes with the patch, without the extension. Two patches
share the directory of another one. -/
def policyNames : Patch → List Text
  | .scl | .numaScl =>
    ["scl_acqed_lock".toList, "scl_cmp".toList, "scl_cont_lock".toList, "scl_release_lock".toList]
  | .lockstat =>
    ["lockstat_lock_acquired".toList, "lockstat_lock_to_release".toList,
      "lockstat_to_enter_slow_path".toList]
  | .bravo =>
    ["bravo_acqed_lock".toList, "bravo_bypass_acq_lock".toList,
      "bravo_bypass_release_lock".toList]
  | .numaGrouping | .lock1 => ["numa-grouping".toList]
  | .numaGroupingCna => ["numa-grouping-cna".toList]
  | .amp | .ampMwrl => ["amp_cont_lock".toList]

/-- The file system of the callback has what is pinned; a program is found at its address. -/
def bpffs (addr : Obj → Slots.Prog) (pins : Text → Option Obj) : Fs := fun path =>
  match pins path.toList with
  | some o => .found (addr o)
  | none => .missing

/-- Slot `i` has, for every hook of the patch, the program that was made of the policy file pinned
at the path of the hook. The rest of the arrays is as before. -/
structure Deployed (p : Patch) (i : Fin MAX_POLICY) (policies : List Policy) (secs : List Text)
    (elf : Elf) (syms : List Sym) (maps : List MapData) (addr : Obj → Slots.Prog)
    (k k' : Kernel) : Prop where
  numPolicy : k'.numPolicy = p.bump k.numPolicy
  program : ∀ hook path, (hook, path) ∈ p.registrations → ∃ f s o, (f, s) ∈ policies.zip secs ∧
    f.pin = path.toList ∧ Defines elf syms maps s o ∧ k'.prog hook i = (addr o).1
  rest : ∀ hook j, j ≠ i ∨ hook ∉ p.hooks → k'.prog hook j = k.prog hook j

/-! ## Names -/

theorem registrations_pinned (p : Patch) :
    ∀ r ∈ p.registrations, ∃ n ∈ policyNames p, r.2.toList = POLICY_PIN ++ n := by
  cases p <;> decide

theorem policyNames_nodup (p : Patch) : (policyNames p).Nodup := by
  cases p <;> decide

theorem length_policyNames (p : Patch) : (policyNames p).length ≤ MAX_NUM_POLICY := by
  cases p <;> decide

theorem policyNames_plain (p : Patch) :
    ∀ n ∈ policyNames p, ('"' ∉ n ∧ '\\' ∉ n) ∧ '#' ∉ n ∧ n ≠ "hash_map".toList := by
  cases p <;> decide

/-! ## Lookups -/

theorem bpffs_pinned {addr : Obj → Slots.Prog} {pins : Text → Option Obj} {path : String} {o : Obj}
    (h : pins path.toList = some o) : bpffs addr pins path = .found (addr o) := by
  simp only [bpffs, h]

theorem lookup_pinned {addr : Obj → Slots.Prog} {pins : Text → Option Obj} {path : String} {o : Obj}
    (h : pins path.toList = some o) :
    Slots.getPinnedBpfObj (bpffs addr pins) path = (addr o).1 := by
  have hs := Slots.Lookup.found_succeeds (addr o)
  rw [← bpffs_pinned h] at hs
  rw [Slots.getPinnedBpfObj_succeeds hs, bpffs_pinned h]
  rfl

section Deploy

variable {mapFile : Option Text} {policies : List Policy} {secs : List Text} {elf : Elf}
  {syms : List Sym} {run : Run} {p : Patch}

/-- The program at the path of a hook. -/
theorem AllPinned.registered (ha : AllPinned mapFile policies secs elf syms run)
    (hlen : policies.length = secs.length)
    (hnames : (policies.map Policy.name).Perm (policyNames p))
    {hook : Slots.Hook} {path : String} (hr : (hook, path) ∈ p.registrations) :
    ∃ f s o, (f, s) ∈ policies.zip secs ∧ f.pin = path.toList ∧
      run.pins path.toList = some o ∧ Defines elf syms run.globals.mapData s o := by
  obtain ⟨n, hn, hpath⟩ := registrations_pinned p _ hr
  obtain ⟨f, hf, rfl⟩ := List.mem_map.1 (hnames.mem_iff.2 hn)
  obtain ⟨k, hk, hget⟩ := List.getElem_of_mem hf
  have hks : k < secs.length := hlen ▸ hk
  have hz : (f, secs[k]) ∈ policies.zip secs :=
    List.mem_iff_getElem?.2 ⟨k, List.getElem?_zip_eq_some.2
      ⟨by rw [← hget]; exact List.getElem?_eq_getElem hk, List.getElem?_eq_getElem hks⟩⟩
  obtain ⟨o, hpin, hdef⟩ := ha.program f _ hz
  have hfp : f.pin = path.toList := hpath.symm
  exact ⟨f, _, o, hz, hfp, hfp ▸ hpin, hdef⟩

end Deploy

/-- The user program that the check leaves. -/
theorem compileUser_check {policies : List Policy} {sections user : List Text} {prog : UserProg}
    (hn : policies.length ≤ MAX_NUM_POLICY)
    (hfree : ∀ p ∈ policies, ('"' ∉ p.name ∧ '\\' ∉ p.name) ∧ '#' ∉ p.name)
    (h : checkImpl sections (readyUser policies) = some user) (hu : compileUser user = some prog) :
    prog = ⟨decide (∃ sec ∈ sections, mapsName <+: sec), policies.map Policy.pin,
      policies.length⟩ := by
  rw [readyUser_eq policies (readCount_toDigits policies.length hn).1] at h
  obtain rfl := checkImpl_userLines hn (fun p hp => (hfree p hp).2) (.inl rfl) h
  have hd : mapDigit sections '0' = '0' ∨ mapDigit sections '0' = '1' := by
    rw [mapDigit]
    split
    · exact .inr rfl
    · exact .inl rfl
  rw [compileUser_userLines hn (fun p hp => (hfree p hp).1) hd hu, mapDigit]
  split
  · rename_i hm
    rw [decide_eq_true hm]
    rfl
  · rename_i hm
    rw [decide_eq_false hm]
    rfl

/-- The directory has the policy files that go with the patch, and with them one program each, in
sections of their own. The sections pass the check, and where it finds a map there is one in the
code. The two programs are compiled from the sources that are made of the directory, and the loader
has room for the object file. Then the programs are pinned, and the map; the patch installs wherever
it finds a slot, with every hook on the program of its policy file. -/
theorem policies_reach_hooks (attach : Attach) (addr : Obj → Slots.Prog) {p : Patch} {base : Text}
    {t : Tree} {c : Collected} {secs user : List Text} {prog : UserProg} {elf : Elf}
    {syms : List Sym} {k : Kernel} {i : Fin MAX_POLICY} (hc : collect base t = some c)
    (hcheck : checkImpl (getSection c.kern) (readyUser c.policyFiles) = some user)
    (hnames : ((t.files pfileExt).map fun f => splitext f.name.text).Perm (policyNames p))
    (hf : Files (c.mapFile.map Policy.contents) c.policyFiles secs)
    (hmaps : (∃ n ∈ getSection c.kern, mapsName <+: n) → mapsName ∈ secNames c.kern)
    (hu : compileUser user = some prog) (he : Emitted c.kern elf syms) (hone : OneMap elf syms)
    (hfit : Fits elf syms) (hi : p.target k.numPolicy = some i) :
    ∃ run k', Bpf.main attach prog elf = .ok run ∧
      p.prePatchCallback (bpffs addr run.pins) k = some (k', 0) ∧
      Deployed p i c.policyFiles secs elf syms run.globals.mapData addr k k' ∧
      (c.mapFile.isSome → FirstMap elf syms run.globals) ∧
      ((∃ n ∈ getSection c.kern, mapsName <+: n) → ∃ fd, run.globals.mapFd[0]? = some fd ∧
        run.pins mapPin = run.globals.objs[fd]? ∧ FirstMap elf syms run.globals) := by
  have hperm : (c.policyFiles.map Policy.name).Perm (policyNames p) := by
    rw [(collect_eq hc).1, findAllFiles_names]
    exact hnames
  have hcount := hperm.length_eq
  rw [List.length_map] at hcount
  have hlen : c.policyFiles.length ≤ MAX_NUM_POLICY := hcount ▸ length_policyNames p
  have hfree : ∀ f ∈ c.policyFiles, _ := fun f hm =>
    policyNames_plain p f.name (hperm.mem_iff.1 (List.mem_map_of_mem hm))
  obtain rfl := compileUser_check hlen (fun f hm => ⟨(hfree f hm).1, (hfree f hm).2.1⟩) hcheck hu
  obtain ⟨run, hrun, hall, hmap⟩ := main_pinned attach hf hlen
    (hperm.nodup_iff.2 (policyNames_nodup p)) he hone hfit
    (fun hm => ⟨hmaps (of_decide_eq_true hm), fun f hmem => (hfree f hmem).2.2⟩)
  have hreg := fun hook path (hr : (hook, path) ∈ p.registrations) =>
    AllPinned.registered hall hf.policy.length_eq hperm hr
  obtain ⟨k', ret, hk', hr⟩ := Patch.pre_target (bpffs addr run.pins) hi
  have hret : ret = 0 := hr.succeeds fun ⟨hook, path⟩ hm => by
    obtain ⟨f, s, o, -, -, hpin, -⟩ := hreg hook path hm
    rw [bpffs_pinned hpin]
    exact Slots.Lookup.found_succeeds _
  subst hret
  refine ⟨run, k', hrun, hk', ⟨?_, ?_, hr.other⟩, fun hm => hall.map (by simpa using hm),
    fun hm => ?_⟩
  · rw [Patch.bump_of_target hi]
    exact hr.numPolicy
  · intro hook path hm
    obtain ⟨f, s, o, hz, hfp, hpin, hdef⟩ := hreg hook path hm
    exact ⟨f, s, o, hz, hfp, hdef, (hr.stored hm).trans (lookup_pinned hpin)⟩
  · refine hmap (decide_eq_true hm) fun hnil => ?_
    rw [hnil] at hcount
    exact absurd hcount (by cases p <;> decide)

def lockstatSecs : List Text :=
  ["lock_qspinlock_acquired".toList, "lock_qspinlock_release".toList,
    "lock_qspinlock_contended".toList]

def lockstatFiles : List Policy :=
  [policyFile "lockstat_lock_acquired".toList "lock_qspinlock_acquired".toList,
    policyFile "lockstat_lock_to_release".toList "lock_qspinlock_release".toList,
    policyFile "lockstat_to_enter_slow_path".toList "lock_qspinlock_contended".toList]

/-- The map has a comment in it. -/
def lockstatMap : Text :=
  "/* User-defined data */\nstruct bpf_map_def SEC(\"maps\") hash_map = \x7b\n\x7d;".toList

/-- A directory with a map and three policy files. -/
def lockstatDir : Tree :=
  .file ⟨⟨"lockstat.map".toList, by decide⟩, lockstatMap⟩
    (.file ⟨⟨"lockstat_lock_acquired.pfile".toList, by decide⟩,
      (policyFile "lockstat_lock_acquired".toList "lock_qspinlock_acquired".toList).contents⟩
    (.file ⟨⟨"lockstat_lock_to_release.pfile".toList, by decide⟩,
      (policyFile "lockstat_lock_to_release".toList "lock_qspinlock_release".toList).contents⟩
    (.file ⟨⟨"lockstat_to_enter_slow_path.pfile".toList, by decide⟩,
      (policyFile "lockstat_to_enter_slow_path".toList "lock_qspinlock_contended".toList).contents⟩
    .empty)))

def lockstatCollected : Collected :=
  ⟨lockstatFiles, some ⟨"policy/lockstat.map".toList, lockstatMap⟩, none⟩

def lockstatKern : Text := readyKern (some lockstatMap) lockstatFiles

theorem lockstatFiles_declare : List.Forall₂ Declares
    (lockstatMap :: lockstatFiles.map Policy.contents) ([mapsName] :: lockstatSecs.map ([·])) :=
  .cons (by decide +kernel) (.cons (by decide +kernel) (.cons (by decide +kernel)
    (.cons (by decide +kernel) .nil)))

theorem lockstatFiles_files : Files (some lockstatMap) lockstatFiles lockstatSecs :=
  files_of_declares lockstatFiles_declare (by decide) (by decide)

theorem lockstatKern_sections :
    secNames lockstatKern = mapsName :: lockstatSecs ++ [licenseName] :=
  (declares_readyKern (some lockstatMap) lockstatFiles lockstatFiles_declare).1

theorem lockstatKern_getSection :
    getSection lockstatKern = mapsName :: lockstatSecs ++ [licenseName] :=
  (declares_readyKern (some lockstatMap) lockstatFiles lockstatFiles_declare).2

theorem lockstatKern_plain :
    plainNames lockstatKern = lockstatSecs ++ [mapsName, licenseName] := by
  rw [plainNames, lockstatKern_sections]
  decide

theorem lockstatKern_fits : Fits (plainObject lockstatKern) (plainSyms lockstatKern) :=
  plainObject_fits (by rw [lockstatKern_plain]; decide) (by rw [lockstatKern_sections]; decide)

theorem lockstat_check : checkImpl (getSection lockstatKern) (readyUser lockstatFiles) =
    some (userLines '1' lockstatFiles) := by
  have hacc : ∀ sec ∈ getSection lockstatKern, acceptable sec := by
    rw [lockstatKern_getSection]
    decide
  have hmap : ∃ sec ∈ getSection lockstatKern, mapsName <+: sec := by
    rw [lockstatKern_getSection]
    exact ⟨mapsName, List.mem_cons_self, List.prefix_rfl⟩
  obtain ⟨user, h⟩ := checkImpl_some hacc (userLines '0' lockstatFiles)
  have huser := checkImpl_userLines (by decide) (by decide) (.inl rfl) h
  rw [mapDigit, if_pos hmap] at huser
  rw [readyUser_eq lockstatFiles (by decide), h, huser]

/-- The three programs are found by the callback, and the map is pinned. -/
theorem policies_reach_hooks_lockstat : ∃ run k',
    Bpf.main (fun _ _ _ => true) ⟨true, lockstatFiles.map Policy.pin, 3⟩
        (plainObject lockstatKern) = .ok run ∧
      Patch.prePatchCallback .lockstat (bpffs (fun _ => Slots.somewhere) run.pins) .boot =
        some (k', 0) ∧
      Deployed .lockstat 1 lockstatFiles lockstatSecs (plainObject lockstatKern)
        (plainSyms lockstatKern) run.globals.mapData (fun _ => Slots.somewhere) .boot k' ∧
      ∃ fd, run.globals.mapFd[0]? = some fd ∧ run.pins mapPin = run.globals.objs[fd]? ∧
        FirstMap (plainObject lockstatKern) (plainSyms lockstatKern) run.globals := by
  have hc : collect "policy".toList lockstatDir = some lockstatCollected := rfl
  have hmem : mapsName ∈ secNames lockstatKern := by
    rw [lockstatKern_sections]
    decide
  have he : Emitted lockstatKern (plainObject lockstatKern) (plainSyms lockstatKern) :=
    plainObject_emitted (by rw [lockstatKern_sections]; decide)
  obtain ⟨run, k', hrun, hk', hd, -, hmap⟩ := policies_reach_hooks (fun _ _ _ => true)
    (fun _ => Slots.somewhere) (p := .lockstat) (k := .boot) (i := 1) hc lockstat_check
    (by decide) lockstatFiles_files (fun _ => hmem) rfl he (plainObject_oneMap _)
    lockstatKern_fits rfl
  refine ⟨run, k', hrun, hk', hd, hmap ⟨mapsName, ?_, List.prefix_rfl⟩⟩
  rw [lockstatKern_sections, ← lockstatKern_getSection] at hmem
  exact hmem

end Concord
end SynCord
