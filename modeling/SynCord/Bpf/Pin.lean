import SynCord.Bpf.Compile
import SynCord.Bpf.Link

/-!
# SynCord.Bpf.Pin

The user program of a policy: it loads the object file and pins the `i`-th program it has loaded at
the `i`-th path. Nothing but the order ties a path to its program, from the list of policy files
through the source, the object file and the loader to the loop that pins.

* `doLoadBpfFile_spec` — the programs of the policies are loaded, in their order.
* `policies_pinned_iff` — the program of each policy file is pinned under the name of the file, and
  the map is `map_fd[0]`, exactly if the loader has room for the object file.
* `policies_pinned_overrun` — with 129 sections, all of which the checker accepts, the loader reads
  behind `processed_sec`.
-/

namespace SynCord
namespace Bpf

/-! ## The user program -/

structure Run where
  globals : Globals
  pins : Text → Option Obj
  ret : Int

/-- The body of the loop. Pinning fails at a path where something is pinned already. -/
def pinPolicy (g : Globals) (prog : UserProg) (pins : Text → Option Obj) (i : Nat) :
    Except Stop (Text → Option Obj) :=
  -- an entry that was not written is 0, which is no program
  match g.progFd[i]?.bind fun fd => g.objs[fd]?, prog.policyName[i]? with
  | some (.prog type insns license kernVersion), some path =>
    if type ≠ .lockPolicy ∨ pins path ≠ none then .error .failed
    else .ok (Function.update pins path (some (.prog type insns license kernVersion)))
  | _, _ => .error .failed

def mapPin : Text := POLICY_PIN ++ "hash_map".toList

/-- `#if MAP` -/
def pinMap (g : Globals) (pins : Text → Option Obj) : Except Stop (Text → Option Obj) :=
  match g.mapFd[0]?.bind fun fd => g.objs[fd]? with
  | some o =>
    if pins mapPin ≠ none then .error .failed else .ok (Function.update pins mapPin (some o))
  | none => .error .failed

def main (attach : Attach) (prog : UserProg) (elf : Elf) : Except Stop Run := do
  let (g, ret) ← doLoadBpfFile attach elf
  if ret ≠ 0 then return ⟨g, fun _ => none, 1⟩
  else
    let pins ← (List.range prog.numPolicy).foldlM (pinPolicy g prog) fun _ => none
    let pins ← if prog.map then pinMap g pins else .ok pins
    return ⟨g, pins, 0⟩

/-! ## Loading -/

/-- The program that the section `s` of the object file defines, with its references to maps
resolved. -/
def Defines (elf : Elf) (syms : List Sym) (maps : List MapData) (s : Text) (o : Obj) : Prop :=
  ∃ j ∈ numbers elf, (secAt elf j).name = s ∧ ∃ insns license kernVersion,
    relocated elf syms maps j = .ok insns ∧
      o = .prog .lockPolicy (wholeInsns insns) license kernVersion

/-- The map that the object file defines is `map_fd[0]`. -/
def FirstMap (elf : Elf) (syms : List Sym) (g : Globals) : Prop :=
  ∃ i ∈ numbers elf, (secAt elf i).name = mapsName ∧ ∃ s fd, syms.filter (·.shndx = i) = [s] ∧
    g.mapFd[0]? = some fd ∧
      g.objs[fd]? = some (.map s.name (defAt (secAt elf i).content.data s) none)

/-- There is one definition in the section for maps. -/
def OneMap (elf : Elf) (syms : List Sym) : Prop :=
  ∀ i, (secAt elf i).name = mapsName → ∃ s, syms.filter (·.shndx = i) = [s]

section Load

variable {attach : Attach} {src : Text} {elf : Elf} {syms : List Sym}

theorem Relocated.not_program (ho : Object elf syms) {g : Globals} {processed : Nat → Bool}
    (hg : Mapped elf syms g processed) {maps : List MapData} {done : List Nat} {rl : Reloc}
    (hr : Relocated elf syms maps processed done rl) {i : Nat} (hi : rl.processed i = true) :
    isProgram (secAt elf i).name = false := by
  rcases hr.processed i hi with h | ⟨-, rels, hc⟩
  · exact (hg.processed i h).1
  · cases hp : isProgram (secAt elf i).name with
    | false => rfl
    | true =>
      obtain ⟨-, data, -, hb⟩ := ho.program i hp
      rw [hb] at hc
      cases hc

theorem Emitted.maps_inj (he : Emitted src elf syms) {i j : Nat}
    (hi : (secAt elf i).name = mapsName) (hj : (secAt elf j).name = mapsName) : i = j :=
  he.name_inj (by rw [hi]; decide) (hi.trans hj.symm)

/-- What there is after the load of an object file whose programs are all for locks. -/
structure LoadedAll (src : Text) (elf : Elf) (syms : List Sym) (g : Globals) : Prop where
  objs : ∃ maps progs, g.objs = maps ++ progs ∧
    g.progFd = List.range' maps.length progs.length ∧
    List.Forall₂ (Defines elf syms g.mapData) ((secNames src).filter isProgram).eraseDups progs ∧
    ∀ i ∈ numbers elf, (secAt elf i).name = mapsName → ∃ sorted : List Sym,
      sorted.Perm (syms.filter (·.shndx = i)) ∧ g.mapFd = List.range sorted.length ∧
        maps = sorted.map fun s => .map s.name (defAt (secAt elf i).content.data s) none

theorem LoadedAll.firstMap {g : Globals} (hl : LoadedAll src elf syms g) (hone : OneMap elf syms)
    {i : Nat} (hi : i ∈ numbers elf) (hn : (secAt elf i).name = mapsName) :
    FirstMap elf syms g := by
  obtain ⟨maps, progs, hobjs, -, -, hmaps⟩ := hl.objs
  obtain ⟨sorted, hperm, hfd, rfl⟩ := hmaps i hi hn
  obtain ⟨s, hs⟩ := hone i hn
  rw [hs, List.perm_singleton] at hperm
  subst hperm
  exact ⟨i, hi, hn, s, 0, hs, by rw [hfd]; rfl, by rw [hobjs]; rfl⟩

theorem doLoadBpfFile_spec (attach : Attach) (he : Emitted src elf syms)
    (hlock : ∀ n ∈ secNames src, isProgram n = true → lockName <+: n) (hfit : Fits elf syms)
    (hmax : ((secNames src).filter isProgram).eraseDups.length ≤ MAX_PROGS) :
    ∃ g, doLoadBpfFile attach elf =
        .ok (g, if ((secNames src).filter isProgram).eraseDups = [] then 1 else 0) ∧
      LoadedAll src elf syms g := by
  have ho := he.toObject
  have hprogs := he.programs
  obtain ⟨sc, hscan, hsc⟩ := scan_spec ho hfit
  have hsyms : sc.symbols = some syms := by
    obtain ⟨i, hi, hc⟩ := ho.symtab
    exact hsc.symbols i hi hc
  obtain ⟨g, processed, hmake, hg⟩ := makeMaps_spec ho hfit (fun i j hi hj => he.maps_inj hi hj) hsc
  have hnorel : ∀ i, processed i = true → ∀ rels, (secAt elf i).content ≠ .rel rels := by
    intro i hi rels hc
    obtain ⟨-, data, hb⟩ := hg.processed i hi
    rw [hb] at hc
    cases hc
  obtain ⟨rl, hreloc, hrl⟩ := reloc_spec g.mapData ho hfit hnorel
  have hcount : (programs elf (numbers elf)).length ≤ MAX_PROGS := by
    rw [← hprogs, List.length_map] at hmax
    exact hmax
  obtain ⟨⟨g', ret⟩, hload, hl⟩ := load_spec attach sc ho hfit hg.progFd
    (fun i hi => hrl.not_program ho hg hi)
    (fun i hp => hlock _ (he.mem_secNames (special_of_isProgram hp)) hp) hcount
  have hret : ret = if ((secNames src).filter isProgram).eraseDups = [] then 1 else 0 := by
    refine hl.ret.trans ?_
    rw [← hprogs]
    simp only [List.map_eq_nil_iff]
  refine ⟨g', ?_, g.objs, (programs elf (numbers elf)).map (progOf sc rl), hl.objs, ?_, ?_, ?_⟩
  · rw [← hret]
    simp only [doLoadBpfFile, hscan, bind, Except.bind, hsyms, hmake, hreloc, hload]
  · rw [List.length_map]
    exact hl.progFd
  · rw [← hprogs, List.forall₂_map_left_iff, List.forall₂_map_right_iff, List.forall₂_same]
    intro j hj
    obtain ⟨hj, hp⟩ := List.mem_filter.1 hj
    refine ⟨j, hj, rfl, rl.data j, sc.license, sc.kernVersion, ?_, rfl⟩
    rw [hl.mapData]
    exact hrl.data j (ho.program j hp).1 (ho.program_size hp)
  · intro i hi hn
    obtain ⟨sorted, hperm, hfd, hobjs⟩ := hg.map i hi hn
    exact ⟨sorted, hperm, hl.mapFd.trans hfd, hobjs⟩

end Load

/-! ## Room -/

section Room

variable {attach : Attach} {src : Text} {elf : Elf} {syms : List Sym} {st : Globals × Int}

theorem relocSec_lt {maps : List MapData} {st st' : Reloc} {i : Nat}
    (h : relocSec elf syms maps st i = .ok st') : i < processedSize := by
  by_contra hi
  rw [relocSec] at h
  obtain ⟨m, hmarked, -⟩ := bind_eq_ok h
  rw [marked, if_neg hi] at hmarked
  cases hmarked

theorem scanSec_license_le {sc sc' : Scan} {i : Nat} (h : scanSec elf sc i = .ok sc')
    (hn : (secAt elf i).name = licenseName) : (secAt elf i).content.size ≤ licenseSize := by
  by_contra hsize
  rw [scanSec, getSec_some (by omega)] at h
  simp only [hn, if_true] at h
  obtain ⟨processed, -, h⟩ := bind_eq_ok h
  rw [if_pos (Nat.not_le.1 hsize)] at h
  cases h

theorem scanSec_version_eq {sc sc' : Scan} {i : Nat} (h : scanSec elf sc i = .ok sc')
    (hn : (secAt elf i).name = versionName) :
    (secAt elf i).content.size = 4 ∨ (secAt elf i).content.size = 0 := by
  by_contra hsize
  rw [not_or] at hsize
  rw [scanSec, getSec_some hsize.2] at h
  simp only [hn, if_true] at h
  obtain ⟨processed, -, h⟩ := bind_eq_ok h
  rw [if_pos hsize.1] at h
  cases h

theorem symbolsIn_content {i : Nat} {l : List Sym} (h : symbolsIn elf i = some l) :
    (secAt elf i).content = .symtab l := by
  rw [symbolsIn, getSec] at h
  split at h
  · cases h
  · rename_i sec hsec
    split_ifs at hsec
    cases hsec
    split_ifs at h
    split at h
    · cases h
      assumption
    · cases h

theorem name_of_hasName {name : Text} {i : Nat} (h : hasName elf name i = true) :
    (secAt elf i).name = name := by
  rw [hasName, getSec] at h
  split_ifs at h
  · cases h
  · simpa using h

theorem Object.symbols_eq (ho : Object elf syms) : symbols elf = some syms := by
  obtain ⟨i, hi, hc⟩ := ho.symtab
  have hname : ¬ ((secAt elf i).name = licenseName ∨ (secAt elf i).name = versionName ∨
      (secAt elf i).name = mapsName) := by
    rintro (h | h | h)
    · obtain ⟨data, -, hb⟩ := ho.license i h
      rw [hb] at hc
      cases hc
    · obtain ⟨data, hb⟩ := ho.version i h
      rw [hb] at hc
      cases hc
    · exact ho.maps_ne_symtab h hc
  have hsize : (secAt elf i).content.size ≠ 0 := by
    have hpos := List.length_pos_iff.2 ho.symtab_ne
    rw [hc, Content.size]
    omega
  have hin : symbolsIn elf i = some syms := by
    rw [symbolsIn, getSec_some hsize]
    simp only [hname, if_false, hc]
  have hall : ∀ l ∈ (numbers elf).filterMap (symbolsIn elf), l = syms := by
    intro l hl
    obtain ⟨k, -, hk⟩ := List.mem_filterMap.1 hl
    exact ho.symtab_only k l (symbolsIn_content hk)
  have hne : (numbers elf).filterMap (symbolsIn elf) ≠ [] :=
    List.ne_nil_of_mem (List.mem_filterMap.2 ⟨i, hi, hin⟩)
  rw [symbols, List.getLast?_eq_some_getLast hne, hall _ (List.getLast_mem hne)]

theorem Emitted.mapsSec_eq (he : Emitted src elf syms) {i : Nat}
    (hn : (secAt elf i).name = mapsName) : mapsSec elf = some i := by
  have hi : i ∈ numbers elf := he.mem_numbers (by rw [hn]; decide)
  have hhas : hasName elf mapsName i = true := by
    simp [hasName, getSec_some (he.maps_size hn), hn]
  have hmem : i ∈ (numbers elf).filter (hasName elf mapsName) := List.mem_filter.2 ⟨hi, hhas⟩
  rw [mapsSec, List.getLast?_eq_some_getLast (List.ne_nil_of_mem hmem)]
  refine congrArg some (he.maps_inj ?_ hn)
  exact name_of_hasName (List.mem_filter.1 (List.getLast_mem (List.ne_nil_of_mem hmem))).2

/-- What has been loaded had room. -/
theorem doLoadBpfFile_fits (he : Emitted src elf syms) (h : doLoadBpfFile attach elf = .ok st) :
    Fits elf syms := by
  have hmaps : ∀ i ∈ numbers elf, (secAt elf i).name = mapsName →
      (syms.filter (·.shndx = i)).length ≤ MAX_MAPS := by
    intro i _ hn
    obtain ⟨syms', sc, g₁, rl, hr⟩ := doLoadBpfFile_runs h
    have hsyms := hr.symbols
    rw [he.symbols_eq] at hsyms
    cases hsyms
    have hof := hr.mapsOf
    rw [MapsOf, he.mapsSec_eq hn] at hof
    obtain ⟨sorted, hperm, -, -, hmax, -⟩ := hof
    rwa [hperm.length_eq] at hmax
  rw [doLoadBpfFile] at h
  obtain ⟨sc, hscan, h⟩ := bind_eq_ok h
  split at h
  · cases h
  · obtain ⟨⟨g, processed⟩, -, h⟩ := bind_eq_ok h
    obtain ⟨rl, hreloc, -⟩ := bind_eq_ok h
    refine ⟨?_, fun i hi hn => ?_, fun i hi hn => ?_, hmaps⟩
    · by_contra hlen
      have hmem : processedSize ∈ numbers elf := mem_numbers.2 ⟨by decide, Nat.not_le.1 hlen⟩
      obtain ⟨st₁, st₂, hstep⟩ := foldlM_step hreloc hmem
      exact Nat.lt_irrefl _ (relocSec_lt hstep)
    · obtain ⟨sc₁, sc₂, hstep⟩ := foldlM_step hscan hi
      exact scanSec_license_le hstep hn
    · obtain ⟨sc₁, sc₂, hstep⟩ := foldlM_step hscan hi
      exact scanSec_version_eq hstep hn

end Room

/-! ## Pinning -/

section Pin

variable {g : Globals} {prog : UserProg} {maps progs : List Obj} {done : List Nat}
  {pins : Text → Option Obj} {k : Nat}

/-- The programs `done` are pinned, and nothing else is. -/
structure Pinned (prog : UserProg) (progs : List Obj) (done : List Nat)
    (pins : Text → Option Obj) : Prop where
  pinned : ∀ k ∈ done, ∀ path, prog.policyName[k]? = some path → pins path = progs[k]?
  only : ∀ path, pins path ≠ none → ∃ k ∈ done, prog.policyName[k]? = some path

theorem pinned_start : Pinned prog progs [] fun _ => none where
  pinned := fun _ h => by cases h
  only := fun _ h => absurd rfl h

theorem pinPolicy_ok {path : Text} {insns license kernVersion : List Byte}
    (hobj : (g.progFd[k]?.bind fun fd => g.objs[fd]?) =
      some (.prog .lockPolicy insns license kernVersion))
    (hpath : prog.policyName[k]? = some path) (hfree : pins path = none) :
    pinPolicy g prog pins k =
      .ok (Function.update pins path (some (.prog .lockPolicy insns license kernVersion))) := by
  simp only [pinPolicy, hobj, hpath]
  exact if_neg (by simp [hfree])

theorem Pinned.step (hp : Pinned prog progs done pins) (hnodup : prog.policyName.Nodup)
    {path : Text} (hpath : prog.policyName[k]? = some path) (hk : k ∉ done)
    {insns license kernVersion : List Byte}
    (hprog : progs[k]? = some (.prog .lockPolicy insns license kernVersion))
    (hobj : (g.progFd[k]?.bind fun fd => g.objs[fd]?) = progs[k]?) :
    ∃ pins', pinPolicy g prog pins k = .ok pins' ∧ Pinned prog progs (done ++ [k]) pins' := by
  have huniq : ∀ j, prog.policyName[j]? = some path → j = k := fun j hj =>
    ((List.getElem?_inj (List.getElem?_eq_some_iff.1 hpath).1 hnodup).1
      (hpath.trans hj.symm)).symm
  have hfree : pins path = none := by
    by_contra hne
    obtain ⟨j, hj, hpj⟩ := hp.only path hne
    exact hk (huniq j hpj ▸ hj)
  refine ⟨_, pinPolicy_ok (hobj.trans hprog) hpath hfree, ?_, ?_⟩
  · intro j hj x hx
    by_cases hxp : x = path
    · subst hxp
      rw [Function.update_self, huniq j hx, hprog]
    · rw [Function.update_of_ne hxp]
      refine hp.pinned j ((List.mem_append.1 hj).resolve_right fun h => ?_) x hx
      rw [List.mem_singleton.1 h, hpath] at hx
      exact hxp (Option.some.inj hx).symm
  · intro x hx
    by_cases hxp : x = path
    · exact ⟨k, by simp, hxp ▸ hpath⟩
    · rw [Function.update_of_ne hxp] at hx
      obtain ⟨j, hj, hxj⟩ := hp.only x hx
      exact ⟨j, List.mem_append_left _ hj, hxj⟩

/-- The `k`-th program that was loaded is what `prog_fd[k]` stands for. -/
theorem progFd_objs (hobjs : g.objs = maps ++ progs)
    (hfd : g.progFd = List.range' maps.length progs.length) (hk : k < progs.length) :
    (g.progFd[k]?.bind fun fd => g.objs[fd]?) = progs[k]? := by
  rw [hfd, List.getElem?_range' hk, Option.bind_some, hobjs, Nat.one_mul,
    List.getElem?_append_right (Nat.le_add_right ..), Nat.add_sub_cancel_left]

theorem pin_spec (prog : UserProg) (hobjs : g.objs = maps ++ progs)
    (hfd : g.progFd = List.range' maps.length progs.length)
    (hlock : ∀ o ∈ progs, ∃ insns license kernVersion,
      o = .prog .lockPolicy insns license kernVersion)
    (hnodup : prog.policyName.Nodup) (hnames : prog.policyName.length = progs.length)
    (hnum : prog.numPolicy = progs.length) :
    ∃ pins, (List.range prog.numPolicy).foldlM (pinPolicy g prog) (fun _ => none) = .ok pins ∧
      Pinned prog progs (List.range prog.numPolicy) pins := by
  refine foldlM_total (Pinned prog progs) (fun done k pins hpre hp => ?_) pinned_start
  have hk : k < progs.length := by
    have := List.mem_range.1 (hpre.subset (List.mem_append_right done (List.mem_singleton_self k)))
    omega
  have hdone : k ∉ done := fun hd =>
    (List.nodup_append.1 (hpre.sublist.nodup List.nodup_range)).2.2 k hd k (by simp) rfl
  obtain ⟨insns, license, kernVersion, ho⟩ := hlock _ (List.getElem_mem hk)
  have hprog := List.getElem?_eq_getElem hk
  rw [ho] at hprog
  exact hp.step hnodup (List.getElem?_eq_getElem (by omega)) hdone hprog
    (progFd_objs hobjs hfd hk)

end Pin

/-! ## The whole -/

/-- Every policy file's program is pinned under the name of the file, and the map is `map_fd[0]`. -/
structure AllPinned (mapFile : Option Text) (policies : List Policy) (secs : List Text) (elf : Elf)
    (syms : List Sym) (run : Run) : Prop where
  program : ∀ p s, (p, s) ∈ policies.zip secs →
    ∃ o, run.pins p.pin = some o ∧ Defines elf syms run.globals.mapData s o
  map : mapFile.isSome → FirstMap elf syms run.globals

section Whole

variable {attach : Attach} {mapFile : Option Text} {policies : List Policy} {secs : List Text}
  {elf : Elf} {syms : List Sym} {prog : UserProg}

theorem Policy.pin_nodup (h : (policies.map Policy.name).Nodup) :
    (policies.map Policy.pin).Nodup := by
  have : policies.map Policy.pin = (policies.map Policy.name).map (POLICY_PIN ++ ·) := by
    rw [List.map_map]
    rfl
  rw [this]
  exact h.map fun _ _ => List.append_cancel_left

/-- What is pinned at the path of a policy is what was loaded for its section. -/
theorem Pinned.program {map : Bool} {progs : List Obj} {pins : Text → Option Obj}
    {R : Text → Obj → Prop}
    (hp : Pinned ⟨map, policies.map Policy.pin, policies.length⟩ progs
      (List.range policies.length) pins)
    (hdef : List.Forall₂ R secs progs) {p : Policy} {s : Text} (h : (p, s) ∈ policies.zip secs) :
    ∃ o, pins p.pin = some o ∧ R s o := by
  obtain ⟨k, hk⟩ := List.mem_iff_getElem?.1 h
  obtain ⟨hpol, hsec⟩ := List.getElem?_zip_eq_some.1 hk
  obtain ⟨hlt, hget⟩ := List.getElem?_eq_some_iff.1 hsec
  obtain ⟨hpol', -⟩ := List.getElem?_eq_some_iff.1 hpol
  have hlt' : k < progs.length := hdef.length_eq ▸ hlt
  have hpinned := hp.pinned k (List.mem_range.2 hpol') p.pin (by simp [hpol])
  rw [List.getElem?_eq_getElem hlt'] at hpinned
  have hs := hdef.get hlt hlt'
  rw [List.get_eq_getElem, hget] at hs
  exact ⟨_, hpinned, hs⟩

theorem Policy.pin_ne_mapPin {p : Policy} (h : p.name ≠ "hash_map".toList) : p.pin ≠ mapPin :=
  fun heq => h (List.append_cancel_left heq)

/-- The map is pinned, or there is none to be pinned. -/
theorem pinMap_spec (elf : Elf) (syms : List Sym) (g : Globals) {map : Bool} {progs : List Obj}
    {pins : Text → Option Obj}
    (hp : Pinned ⟨map, policies.map Policy.pin, policies.length⟩ progs
      (List.range policies.length) pins)
    (hmap : map = true → FirstMap elf syms g ∧ ∀ p ∈ policies, p.name ≠ "hash_map".toList) :
    ∃ pins', (if map then pinMap g pins else .ok pins) = .ok pins' ∧
      (∀ p ∈ policies, pins' p.pin = pins p.pin) ∧
      (map = true → ∃ fd, g.mapFd[0]? = some fd ∧ pins' mapPin = g.objs[fd]?) := by
  cases map with
  | false => exact ⟨pins, rfl, fun _ _ => rfl, fun h => by cases h⟩
  | true =>
    obtain ⟨⟨i, -, -, s, fd, -, hfd, hobj⟩, hname⟩ := hmap rfl
    have hfree : pins mapPin = none := by
      by_contra hne
      obtain ⟨k, -, hk⟩ := hp.only mapPin hne
      obtain ⟨p, hpk, heq⟩ := List.mem_map.1 (List.mem_of_getElem? hk)
      exact Policy.pin_ne_mapPin (hname p hpk) heq
    refine ⟨Function.update pins mapPin g.objs[fd]?, ?_, fun p hpk => ?_, fun _ => ⟨fd, hfd, ?_⟩⟩
    · simp [pinMap, hfd, hobj, hfree]
    · exact Function.update_of_ne (Policy.pin_ne_mapPin (hname p hpk)) ..
    · exact Function.update_self ..

theorem main_pinned (attach : Attach) (hf : Files mapFile policies secs)
    (hn : policies.length ≤ MAX_NUM_POLICY) (hbase : (policies.map Policy.name).Nodup)
    (he : Emitted (readyKern mapFile policies) elf syms) (hone : OneMap elf syms)
    (hfit : Fits elf syms) {map : Bool}
    (hmap : map = true → mapsName ∈ secNames (readyKern mapFile policies) ∧
      ∀ p ∈ policies, p.name ≠ "hash_map".toList) :
    ∃ run, main attach ⟨map, policies.map Policy.pin, policies.length⟩ elf = .ok run ∧
      AllPinned mapFile policies secs elf syms run ∧
      (map = true → policies ≠ [] → ∃ fd, run.globals.mapFd[0]? = some fd ∧
        run.pins mapPin = run.globals.objs[fd]? ∧ FirstMap elf syms run.globals) := by
  have hsecs := hf.policy.length_eq
  have herase : ((secNames (readyKern mapFile policies)).filter isProgram).eraseDups = secs := by
    rw [hf.programs]
    exact eraseDups_of_nodup hf.secs_nodup
  have hmax : secs.length ≤ MAX_PROGS := hsecs ▸ hn.trans (by decide)
  obtain ⟨g, hload, hl⟩ := doLoadBpfFile_spec attach he hf.lock hfit (herase ▸ hmax)
  have hfirst : mapsName ∈ secNames (readyKern mapFile policies) → FirstMap elf syms g := by
    intro hmem
    obtain ⟨i, hi, hni⟩ := he.exists_section hmem
    exact hl.firstMap hone hi hni
  obtain ⟨maps, progs, hobjs, hfd, hdef, -⟩ := hl.objs
  rw [herase] at hload hdef
  cases secs with
  | nil =>
    refine ⟨⟨g, fun _ => none, 1⟩, ?_, ⟨fun p s h => ?_, fun hm => hfirst (hf.maps hm)⟩,
      fun _ hne => absurd (List.length_eq_zero_iff.1 hsecs) hne⟩
    · rw [main, hload]
      rfl
    · rw [List.zip_nil_right] at h
      cases h
  | cons s₀ secs =>
    have hprogs := hdef.length_eq
    have hlock : ∀ o ∈ progs, ∃ insns license kernVersion,
        o = .prog .lockPolicy insns license kernVersion := by
      intro o ho
      obtain ⟨k, hk, rfl⟩ := List.getElem_of_mem ho
      obtain ⟨j, -, -, insns, license, kernVersion, -, hprog⟩ := hdef.get (by omega) hk
      exact ⟨_, _, _, hprog⟩
    obtain ⟨pins, hpins, hp⟩ := pin_spec ⟨map, policies.map Policy.pin, policies.length⟩
      hobjs hfd hlock (Policy.pin_nodup hbase) (by rw [List.length_map]; omega)
      (hsecs.trans hprogs)
    obtain ⟨pins', hpins', hsame, hpinned⟩ := pinMap_spec elf syms g hp
      fun h => ⟨hfirst (hmap h).1, (hmap h).2⟩
    refine ⟨⟨g, pins', 0⟩, ?_, ⟨fun p s h => ?_, fun hm => hfirst (hf.maps hm)⟩, fun hm _ => ?_⟩
    · rw [main, hload]
      simp only [bind, Except.bind, hpins]
      rw [if_neg (by simp)]
      cases map with
      | false =>
        cases hpins'
        rfl
      | true =>
        rw [if_pos rfl] at hpins' ⊢
        rw [hpins']
        rfl
    · obtain ⟨o, ho, hdo⟩ := hp.program hdef h
      exact ⟨o, (hsame p (List.of_mem_zip h).1).trans ho, hdo⟩
    · obtain ⟨fd, hfd₀, hpin⟩ := hpinned hm
      exact ⟨fd, hfd₀, hpin, hfirst (hmap hm).1⟩

theorem main_fits {run : Run} (he : Emitted (readyKern mapFile policies) elf syms)
    (h : main attach prog elf = .ok run) : Fits elf syms := by
  rw [main] at h
  obtain ⟨st, hload, -⟩ := bind_eq_ok h
  exact doLoadBpfFile_fits he hload

end Whole

/-! ## Files that are told by their sections -/

/-- The compiler and the checker find these sections in the text. -/
structure Declares (t : Text) (secs : List Text) : Prop where
  whole : Whole t
  compiled : secNames t = secs
  checked : getSection t = secs

instance (t : Text) (secs : List Text) : Decidable (Declares t secs) :=
  decidable_of_iff (Whole t ∧ secNames t = secs ∧ getSection t = secs)
    ⟨fun h => ⟨h.1, h.2.1, h.2.2⟩, fun h => ⟨h.whole, h.compiled, h.checked⟩⟩

section Declares

variable {texts : List Text} {secss : List (List Text)} {policies : List Policy}
  {secs : List Text} {m : Text}

theorem whole_of_declares (h : List.Forall₂ Declares texts secss) : ∀ t ∈ texts, Whole t := by
  induction h with
  | nil => simp
  | cons hd _ ih => exact List.forall_mem_cons.2 ⟨hd.whole, ih⟩

theorem declares_readyKern (mapFile : Option Text) (policies : List Policy)
    (h : List.Forall₂ Declares (mapFile.toList ++ policies.map Policy.contents) secss) :
    secNames (readyKern mapFile policies) = secss.flatten ++ [licenseName] ∧
      getSection (readyKern mapFile policies) = secss.flatten ++ [licenseName] := by
  have hflat : ∀ {texts secss}, List.Forall₂ Declares texts secss →
      texts.flatMap secNames = secss.flatten ∧ texts.flatMap getSection = secss.flatten := by
    intro texts secss h
    induction h with
    | nil => exact ⟨rfl, rfl⟩
    | cons hd _ ih =>
      simp only [List.flatMap_cons, List.flatten_cons, hd.compiled, hd.checked, ih, and_self]
  rw [secNames_readyKern (whole_of_declares h), getSection_readyKern, (hflat h).1, (hflat h).2]
  exact ⟨rfl, rfl⟩

/-- A map, and a program on a lock in each of the policy files. -/
theorem files_of_declares
    (h : List.Forall₂ Declares (m :: policies.map Policy.contents) ([mapsName] :: secs.map ([·])))
    (hl : ∀ s ∈ secs, lockSection <+: s) (hn : secs.Nodup) : Files (some m) policies secs where
  whole := whole_of_declares h
  map := by
    rintro m ⟨⟩
    obtain ⟨hm, -⟩ := List.forall₂_cons.1 h
    rw [hm.compiled]
    decide
  policy := by
    have hrest := (List.forall₂_cons.1 h).2
    rw [List.forall₂_map_left_iff, List.forall₂_map_right_iff] at hrest
    clear h hn
    induction hrest with
    | nil => exact .nil
    | @cons p s _ _ hd _ ih =>
      rw [List.forall_mem_cons] at hl
      have hprog : isProgram s = true := isProgram_lock (.trans ⟨['_'], rfl⟩ hl.1)
      refine .cons ⟨?_, hl.1⟩ (ih hl.2)
      rw [hd.compiled, List.filter_cons_of_pos hprog, List.filter_nil]
  secs_nodup := hn

end Declares

/-- A policy file with one program. -/
def policyFile (name sec : Text) : Policy where
  path := "policy/".toList ++ name ++ ".pfile".toList
  contents := "SEC(\"".toList ++ sec ++ "\") int ".toList ++ name ++ "() \x7b return 0; \x7d".toList

def sclMap : Text := "struct bpf_map_def SEC(\"maps\") hash_map;".toList

def sclSecs : List Text := ["lock_qspinlock_cmp".toList, "lock_qspinlock_release".toList]

def sclFiles : List Policy :=
  [policyFile "scl_cmp".toList "lock_qspinlock_cmp".toList,
    policyFile "scl_release_lock".toList "lock_qspinlock_release".toList]

def sclKern : Text := readyKern (some sclMap) sclFiles

theorem sclFiles_declare : List.Forall₂ Declares (sclMap :: sclFiles.map Policy.contents)
    ([mapsName] :: sclSecs.map ([·])) :=
  .cons (by decide) (.cons (by decide) (.cons (by decide +kernel) .nil))

theorem sclFiles_files : Files (some sclMap) sclFiles sclSecs :=
  files_of_declares sclFiles_declare (by decide) (by decide)

theorem sclKern_sections : secNames sclKern = mapsName :: sclSecs ++ [licenseName] :=
  (declares_readyKern (some sclMap) sclFiles sclFiles_declare).1

theorem sclKern_getSection : getSection sclKern = mapsName :: sclSecs ++ [licenseName] :=
  (declares_readyKern (some sclMap) sclFiles sclFiles_declare).2

/-- The programs, and behind them the map and the licence. -/
theorem sclKern_plain : plainNames sclKern = sclSecs ++ [mapsName, licenseName] := by
  rw [plainNames, sclKern_sections]
  decide

theorem sclKern_emitted : Emitted sclKern (plainObject sclKern) (plainSyms sclKern) :=
  plainObject_emitted (by rw [sclKern_sections]; decide)

theorem plainObject_oneMap (src : Text) : OneMap (plainObject src) (plainSyms src) :=
  fun _ hn => ⟨_, (plainObject_maps hn).2⟩

theorem sclKern_fits : Fits (plainObject sclKern) (plainSyms sclKern) :=
  plainObject_fits (by rw [sclKern_plain]; decide) (by rw [sclKern_sections]; decide)

def varName (k : Nat) : Text := licenseName ++ Nat.toDigits 10 k

def varLine (k : Nat) : Text :=
  "int ".toList ++ varName k ++ " SEC(\"".toList ++ varName k ++ "\");".toList

/-- A policy file that puts 125 variables into sections of their own. -/
def manyFile : Policy :=
  let file := policyFile "many".toList "lock_cmp".toList
  { file with contents := ['\n'].intercalate (file.contents :: (List.range 125).map varLine) }

def manyKern : Text := readyKern none [manyFile]

theorem varName_injective : Function.Injective varName := by
  intro a b h
  have h' := congrArg (Nat.ofDigitChars 10 · 0) (List.append_cancel_left h)
  simpa using h'

theorem varName_ne {n : Text} (h : ¬ licenseName <+: n) (k : Nat) : varName k ≠ n :=
  fun he => h (he ▸ List.prefix_append _ _)

theorem varName_ne_license (k : Nat) : varName k ≠ licenseName :=
  fun he => Nat.toDigits_ne_nil (List.append_right_eq_self.1 he)

/-- A line is a variable in its section, for the compiler as for the checker. -/
theorem varLine_declares : ∀ k, k < 125 → Declares (varLine k) [varName k] := by
  decide +kernel

theorem flatMap_varLine {f : Text → List Text} (h : ∀ k, k < 125 → f (varLine k) = [varName k]) :
    ((List.range 125).map varLine).flatMap f = (List.range 125).map varName := by
  rw [List.flatMap_map, List.map_eq_flatMap]
  exact List.flatMap_congr fun k hk => h k (List.mem_range.1 hk)

theorem manyFile_lines : ∀ t ∈ (policyFile "many".toList "lock_cmp".toList).contents ::
    (List.range 125).map varLine, Whole t := by
  rw [List.forall_mem_cons, List.forall_mem_map]
  exact ⟨by decide, fun k hk => (varLine_declares k (List.mem_range.1 hk)).whole⟩

theorem manyFile_sections :
    secNames manyFile.contents = "lock_cmp".toList :: (List.range 125).map varName := by
  have hfile : secNames (policyFile "many".toList "lock_cmp".toList).contents =
      ["lock_cmp".toList] := by decide
  rw [manyFile, secNames_join manyFile_lines, List.flatMap_cons, hfile,
    flatMap_varLine fun k hk => (varLine_declares k hk).compiled]
  rfl

/-- The checker finds the same names. -/
theorem manyFile_getSection :
    getSection manyFile.contents = "lock_cmp".toList :: (List.range 125).map varName := by
  have hfile : getSection (policyFile "many".toList "lock_cmp".toList).contents =
      ["lock_cmp".toList] := by decide
  rw [manyFile, getSection_join, List.flatMap_cons, hfile,
    flatMap_varLine fun k hk => (varLine_declares k hk).checked]
  rfl

theorem manyFile_programs :
    (secNames manyFile.contents).filter isProgram = ["lock_cmp".toList] := by
  have hvars : ((List.range 125).map varName).filter isProgram = [] := by
    rw [List.filter_eq_nil_iff, List.forall_mem_map]
    exact fun k _ => Bool.eq_false_iff.1 rfl
  rw [manyFile_sections, List.filter_cons_of_pos (by decide), hvars]

theorem manyFile_files : Files none [manyFile] ["lock_cmp".toList] where
  whole := List.forall_mem_singleton.2 (whole_join manyFile_lines)
  map := by rintro m ⟨⟩
  policy := .cons ⟨manyFile_programs, by decide⟩ .nil
  secs_nodup := by decide

theorem manyKern_sections : secNames manyKern =
    "lock_cmp".toList :: (List.range 125).map varName ++ [licenseName] := by
  rw [manyKern, secNames_readyKern manyFile_files.whole]
  simp only [Option.toList_none, List.nil_append, List.map_cons, List.map_nil, List.flatMap_cons,
    List.flatMap_nil, List.append_nil, manyFile_sections]

theorem manyKern_length : (plainObject manyKern).length = 129 := by
  have hvars : ((List.range 125).map varName).Nodup := List.nodup_range.map varName_injective
  have hother : ∀ n, (∀ k, varName k ≠ n) → n ∉ (List.range 125).map varName := by
    intro n h hn
    obtain ⟨k, -, he⟩ := List.mem_map.1 hn
    exact h k he
  have hnodup : (secNames manyKern).Nodup := by
    rw [manyKern_sections, List.cons_append, List.nodup_cons, List.mem_append, not_or,
      ← List.concat_eq_append]
    exact ⟨⟨hother _ (varName_ne (by decide)), by decide⟩,
      hvars.concat (hother _ varName_ne_license)⟩
  have hlen : (plainNames manyKern).length = (secNames manyKern).length := by
    rw [plainNames, eraseDups_of_nodup hnodup, List.length_append]
    exact (List.length_eq_length_filter_add _).symm
  rw [plainObject, List.length_cons, List.length_append, List.length_map, hlen, manyKern_sections]
  simp

end Bpf
end SynCord
