import SynCord.Concord.Tree

/-!
# SynCord.Concord.Collect

What `_check_and_gen_ebpf` takes out of a policy directory, compared with what it is meant to take:
the files with the extension `.pfile`, the one file with `.h` and the one with `.map`. The patterns
look for the extension anywhere in the name, and a second map is never noticed.

* `paths_eq_iff` — two ways to choose files by their names give the same list exactly if they agree
  on every file of the tree.
* `collect_iff` — for which trees the right files are taken, or none.
-/

namespace SynCord
namespace Concord

open Bpf (Policy basename splitext)

/-- `os.path.splitext(name)[1]` -/
def extension (name : Text) : Text := name.drop (splitext name).length

def Tree.every (t : Tree) : List File := t.filesHere ++ t.filesBelow

/-- The files that are chosen by their names, with their paths. -/
def paths (choose : Text → Bool) (base : Text) (t : Tree) : List Policy :=
  (t.walk base).flatMap fun d =>
    (d.2.filter fun f => choose f.name.text).map fun f => ⟨join d.1 f.name, f.contents⟩

/-- The files whose extension is `ext`. -/
def filesWith (ext base : Text) (t : Tree) : List Policy :=
  paths (fun name => extension name == ext) base t

/-- Either nothing is handed on, or exactly the files with the three extensions. -/
structure ReadOrRejected (base : Text) (t : Tree) : Prop where
  policies : ∀ c, collect base t = some c → c.policyFiles = filesWith pfileExt base t
  header : ∀ c, collect base t = some c → c.auxData.toList = filesWith headerExt base t
  map : ∀ c, collect base t = some c → c.mapFile.toList = filesWith mapExt base t
  two_headers : 2 ≤ (filesWith headerExt base t).length → collect base t = none
  two_maps : 2 ≤ (filesWith mapExt base t).length → collect base t = none
  others : ∀ c, collect base t = some c →
    (∀ p ∈ c.policyFiles, extension (basename p.path) = pfileExt) ∧
    (∀ p ∈ c.auxData, extension (basename p.path) = headerExt) ∧
    ∀ p ∈ c.mapFile, extension (basename p.path) = mapExt

namespace Tree

variable (t : Tree)

/-- How many names the pattern for `ext` matches. -/
def matching (ext : Text) : Nat := t.every.countP fun f => matchExt ext f.name.text

/-- Every name that the pattern for `ext` matches has this extension, and no other name has it. -/
def Clear (ext : Text) : Prop :=
  ∀ f ∈ t.every, matchExt ext f.name.text = true ↔ extension f.name.text = ext

def Without (ext : Text) : Prop := ∀ f ∈ t.every, extension f.name.text ≠ ext

/-- What makes the three patterns and the two tests do. -/
def Readable : Prop :=
  2 ≤ t.matching headerExt ∨
    (t.Clear pfileExt ∧ t.Clear headerExt ∧
      ((t.Clear mapExt ∧ t.matching mapExt ≤ 1) ∨
        (t.Without mapExt ∧ 2 ≤ t.matching mapExt)))

end Tree

section Paths

variable {base : Text} {t : Tree} {choose other : Text → Bool}

theorem mem_paths {p : Policy} : p ∈ paths choose base t ↔
    ∃ d ∈ t.walk base, ∃ f ∈ d.2, choose f.name.text = true ∧
      p = ⟨join d.1 f.name, f.contents⟩ := by
  simp only [paths, List.mem_flatMap, List.mem_map, List.mem_filter]
  constructor
  · rintro ⟨d, hd, f, ⟨hf, hc⟩, rfl⟩
    exact ⟨d, hd, f, hf, hc, rfl⟩
  · rintro ⟨d, hd, f, hf, hc, rfl⟩
    exact ⟨d, hd, f, ⟨hf, hc⟩, rfl⟩

theorem mem_every {f : File} : f ∈ t.every ↔ ∃ d ∈ t.walk base, f ∈ d.2 := by
  rw [Tree.every, ← Tree.flatMap_walk base, List.mem_flatMap]

theorem chosen_of_mem_paths {p : Policy} (h : p ∈ paths choose base t) :
    choose (basename p.path) = true := by
  obtain ⟨d, _, f, _, hc, rfl⟩ := mem_paths.1 h
  rw [basename_join]
  exact hc

theorem length_paths : (paths choose base t).length =
    t.every.countP fun f => choose f.name.text := by
  rw [paths, List.length_flatMap, Tree.every, ← Tree.flatMap_walk base, List.countP_flatMap]
  simp [List.countP_eq_length_filter, Function.comp_def]

/-- A file has its name in its path, so what is chosen can be read off the paths. -/
theorem chosen_of_paths_eq (h : paths choose base t = paths other base t) {f : File}
    (hf : f ∈ t.every) (hc : choose f.name.text = true) : other f.name.text = true := by
  obtain ⟨d, hd, hfd⟩ := mem_every.1 hf
  have hmem : ⟨join d.1 f.name, f.contents⟩ ∈ paths choose base t :=
    mem_paths.2 ⟨d, hd, f, hfd, hc, rfl⟩
  rw [h] at hmem
  have hother := chosen_of_mem_paths hmem
  rw [basename_join] at hother
  exact hother

theorem paths_eq_iff : paths choose base t = paths other base t ↔
    ∀ f ∈ t.every, choose f.name.text = true ↔ other f.name.text = true := by
  constructor
  · intro h f hf
    exact ⟨chosen_of_paths_eq h hf, chosen_of_paths_eq h.symm hf⟩
  · intro h
    rw [paths, paths]
    refine List.flatMap_congr ?_
    intro d hd
    congr 1
    refine List.filter_congr ?_
    intro f hf
    rw [Bool.eq_iff_iff]
    exact h f (mem_every.2 ⟨d, hd, hf⟩)

theorem paths_eq_nil_iff : paths choose base t = [] ↔
    ∀ f ∈ t.every, choose f.name.text = false := by
  rw [← List.length_eq_zero_iff, length_paths, List.countP_eq_zero]
  simp

end Paths

section Collect

variable {base : Text} {t : Tree}

theorem findAllFiles_eq_filesWith (ext : Text) :
    findAllFiles base t ext = filesWith ext base t ↔ t.Clear ext := by
  have h : findAllFiles base t ext = paths (matchExt ext) base t := rfl
  rw [h, filesWith, paths_eq_iff, Tree.Clear]
  simp

theorem filesWith_eq_nil (ext : Text) : filesWith ext base t = [] ↔ t.Without ext := by
  rw [filesWith, paths_eq_nil_iff, Tree.Without]
  simp

theorem length_findAllFiles (base : Text) (t : Tree) (ext : Text) :
    (findAllFiles base t ext).length = t.matching ext := length_paths

theorem extension_of_mem {ext : Text} {p : Policy} (h : p ∈ filesWith ext base t) :
    extension (basename p.path) = ext := by
  have := chosen_of_mem_paths h
  simpa using this

/-- What is handed on for the map or the header. -/
def only (l : List Policy) : Option Policy := if l.length = 1 then l.head? else none

theorem only_toList (l : List Policy) : (only l).toList = if l.length ≤ 1 then l else [] := by
  match l with
  | [] => rfl
  | [p] => rfl
  | p :: q :: l =>
    simp [only]

theorem collect_eq_none : collect base t = none ↔ 2 ≤ t.matching headerExt := by
  rw [collect, ← length_findAllFiles base]
  split
  · rename_i h
    simp
    omega
  · rename_i h
    simp
    omega

theorem collect_eq_some (base : Text) (h : t.matching headerExt < 2) : collect base t =
    some ⟨findAllFiles base t pfileExt, only (findAllFiles base t mapExt),
      only (findAllFiles base t headerExt)⟩ := by
  rw [← length_findAllFiles base] at h
  rw [collect, if_neg (by omega)]
  rfl

/-- The test on the maps: one is taken, none and several count as none. -/
theorem only_map_iff : (only (findAllFiles base t mapExt)).toList = filesWith mapExt base t ↔
    (t.Clear mapExt ∧ t.matching mapExt ≤ 1) ∨ (t.Without mapExt ∧ 2 ≤ t.matching mapExt) := by
  rw [only_toList, length_findAllFiles]
  split
  · rename_i h
    rw [findAllFiles_eq_filesWith]
    constructor
    · intro hc
      exact .inl ⟨hc, h⟩
    · rintro (⟨hc, _⟩ | ⟨_, h2⟩)
      · exact hc
      · omega
  · rename_i h
    rw [eq_comm, filesWith_eq_nil]
    constructor
    · intro hw
      exact .inr ⟨hw, by omega⟩
    · rintro (⟨_, h2⟩ | ⟨hw, _⟩)
      · omega
      · exact hw

theorem only_header_iff (h : t.matching headerExt < 2) :
    (only (findAllFiles base t headerExt)).toList = filesWith headerExt base t ↔
      t.Clear headerExt := by
  rw [only_toList, length_findAllFiles, if_pos (by omega), findAllFiles_eq_filesWith]

theorem readable_of_readOrRejected (h : ReadOrRejected base t) : t.Readable := by
  by_cases hh : 2 ≤ t.matching headerExt
  · exact .inl hh
  · have hlt : t.matching headerExt < 2 := by omega
    have hc := collect_eq_some base hlt
    refine .inr ⟨?_, ?_, ?_⟩
    · exact (findAllFiles_eq_filesWith _).1 (h.policies _ hc)
    · exact (only_header_iff hlt).1 (h.header _ hc)
    · exact only_map_iff.1 (h.map _ hc)

theorem readOrRejected_of_exit (h : 2 ≤ t.matching headerExt) : ReadOrRejected base t := by
  have hnone : collect base t = none := collect_eq_none.2 h
  have hno : ∀ c, collect base t ≠ some c := by simp [hnone]
  exact ⟨fun c hc => absurd hc (hno c), fun c hc => absurd hc (hno c),
    fun c hc => absurd hc (hno c), fun _ => hnone, fun _ => hnone,
    fun c hc => absurd hc (hno c)⟩

theorem length_only_le (l : List Policy) : (only l).toList.length ≤ 1 := by
  cases only l <;> simp

theorem readOrRejected_of_taken (hlt : t.matching headerExt < 2)
    (hpol : findAllFiles base t pfileExt = filesWith pfileExt base t)
    (hhead : (only (findAllFiles base t headerExt)).toList = filesWith headerExt base t)
    (hmap : (only (findAllFiles base t mapExt)).toList = filesWith mapExt base t) :
    ReadOrRejected base t := by
  have hc := collect_eq_some base hlt
  have hsome : ∀ c, collect base t = some c → c = ⟨findAllFiles base t pfileExt,
      only (findAllFiles base t mapExt), only (findAllFiles base t headerExt)⟩ := by
    intro c h
    rw [hc] at h
    exact (Option.some.inj h).symm
  refine ⟨?_, ?_, ?_, ?_, ?_, ?_⟩
  · intro c h
    rw [hsome c h]
    exact hpol
  · intro c h
    rw [hsome c h]
    exact hhead
  · intro c h
    rw [hsome c h]
    exact hmap
  · intro h2
    have := length_only_le (findAllFiles base t headerExt)
    rw [hhead] at this
    omega
  · intro h2
    have := length_only_le (findAllFiles base t mapExt)
    rw [hmap] at this
    omega
  · intro c h
    rw [hsome c h]
    refine ⟨?_, ?_, ?_⟩
    · intro p hm
      exact extension_of_mem (hpol ▸ hm)
    · intro p hm
      exact extension_of_mem (hhead ▸ Option.mem_toList.2 hm)
    · intro p hm
      exact extension_of_mem (hmap ▸ Option.mem_toList.2 hm)

theorem readOrRejected_of_readable (h : t.Readable) : ReadOrRejected base t := by
  by_cases hh : 2 ≤ t.matching headerExt
  · exact readOrRejected_of_exit hh
  · have hlt : t.matching headerExt < 2 := by omega
    rcases h with h | ⟨hp, hhead, hmap⟩
    · exact absurd h hh
    · exact readOrRejected_of_taken hlt ((findAllFiles_eq_filesWith _).2 hp)
        ((only_header_iff hlt).2 hhead) (only_map_iff.2 hmap)

end Collect

theorem collect_iff (base : Text) (t : Tree) : ReadOrRejected base t ↔ t.Readable :=
  ⟨readable_of_readOrRejected, readOrRejected_of_readable⟩

def twoMaps : Tree :=
  .file ⟨⟨"a.map".toList, by decide⟩, []⟩ (.file ⟨⟨"b.map".toList, by decide⟩, []⟩ .empty)

/-- With two map files the generator goes on, and without a map. -/
theorem collect_twoMaps : ¬ ReadOrRejected "/policy".toList twoMaps := by
  intro h
  have hnone := h.two_maps (by decide)
  rw [collect_eq_none] at hnone
  exact absurd hnone (by decide)

end Concord
end SynCord
