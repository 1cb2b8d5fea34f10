import SynCord.Bpf.Generate

/-!
# SynCord.Concord.Tree

The directory of a policy, as `LockGen._check_and_gen_ebpf` reads it: `find_all_files` walks the
tree and keeps the files whose names match a pattern, once for the policies, once for the map and
once for the header.

* `findAllFiles_names`, `findAllFiles_contents` — what is kept is what `Tree.files` has; the walk
  adds the path and nothing else.
-/

namespace SynCord
namespace Concord

open Bpf (Policy basename splitext)

structure FileName where
  text : Text
  no_slash : '/' ∉ text

structure File where
  name : FileName
  contents : Text

/-- What is in a directory, one entry after the other. -/
inductive Tree where
  | empty
  | file (f : File) (rest : Tree)
  | dir (name : FileName) (sub rest : Tree)

/-- `os.path.join` -/
def join (dirpath : Text) (name : FileName) : Text :=
  if dirpath = [] ∨ dirpath.getLast? = some '/' then dirpath ++ name.text
  else dirpath ++ '/' :: name.text

namespace Tree

def filesHere : Tree → List File
  | .empty => []
  | .file f rest => f :: rest.filesHere
  | .dir _ _ rest => rest.filesHere

/-- What `os.walk` yields for the directories below this one. -/
def walkBelow (dirpath : Text) : Tree → List (Text × List File)
  | .empty => []
  | .file _ rest => rest.walkBelow dirpath
  | .dir name sub rest =>
    (join dirpath name, sub.filesHere) ::
      (sub.walkBelow (join dirpath name) ++ rest.walkBelow dirpath)

/-- `os.walk(base)`: a directory comes before those below it. -/
def walk (base : Text) (t : Tree) : List (Text × List File) :=
  (base, t.filesHere) :: t.walkBelow base

/-- The files below, in the order of the walk. -/
def filesBelow : Tree → List File
  | .empty => []
  | .file _ rest => rest.filesBelow
  | .dir _ sub rest => sub.filesHere ++ (sub.filesBelow ++ rest.filesBelow)

end Tree

/-- `re.compile('(.*)\.ext').match(name)`: the extension may stand anywhere on the first line. -/
def matchExt (ext : Text) : Text → Bool
  | [] => ext.isPrefixOf []
  | c :: cs => ext.isPrefixOf (c :: cs) || (c ≠ '\n' && matchExt ext cs)

def Tree.files (ext : Text) (t : Tree) : List File :=
  (t.filesHere ++ t.filesBelow).filter fun f => matchExt ext f.name.text

def findAllFiles (base : Text) (t : Tree) (ext : Text) : List Policy :=
  (t.walk base).flatMap fun d =>
    (d.2.filter fun f => matchExt ext f.name.text).map fun f => ⟨join d.1 f.name, f.contents⟩

def pfileExt : Text := ".pfile".toList

def mapExt : Text := ".map".toList

def headerExt : Text := ".h".toList

/-- What is handed to `EBPF_GEN`. Without a header of its own a policy has `POLICY_AUX_DATA`. -/
structure Collected where
  policyFiles : List Policy
  mapFile : Option Policy
  auxData : Option Policy

/-- The first half of `_check_and_gen_ebpf`; it exits if there are two headers. The test for two
maps looks at the headers once more, so it is never true. -/
def collect (base : Text) (t : Tree) : Option Collected :=
  let policyFiles := findAllFiles base t pfileExt
  let mapFile := findAllFiles base t mapExt
  let auxData := findAllFiles base t headerExt
  if 1 < auxData.length then none
  else some
    { policyFiles := policyFiles
      mapFile := if mapFile.length = 1 then mapFile.head? else none
      auxData := if auxData.length = 1 then auxData.head? else none }

/-! ## The walk -/

theorem basename_join (dirpath : Text) (name : FileName) :
    basename (join dirpath name) = name.text := by
  have hall : ∀ c ∈ name.text.reverse, decide (c ≠ '/') = true := by
    intro c hc
    refine decide_eq_true ?_
    rintro rfl
    exact name.no_slash (List.mem_reverse.1 hc)
  rw [basename, join]
  split
  · rename_i h
    have hstop : dirpath.reverse.takeWhile (· ≠ '/') = [] := by
      rcases h with rfl | h
      · rfl
      · rw [List.getLast?_eq_head?_reverse] at h
        cases hr : dirpath.reverse with
        | nil => rfl
        | cons c cs =>
          rw [hr] at h
          obtain rfl : c = '/' := Option.some.inj h
          rfl
    rw [List.reverse_append, List.takeWhile_append_of_pos hall, hstop, List.append_nil,
      List.reverse_reverse]
  · rw [List.reverse_append, List.reverse_cons, List.append_assoc,
      List.takeWhile_append_of_pos hall]
    simp

theorem Tree.flatMap_walkBelow (dirpath : Text) (t : Tree) :
    (t.walkBelow dirpath).flatMap Prod.snd = t.filesBelow := by
  induction t generalizing dirpath with
  | empty => rfl
  | file f rest ih => exact ih dirpath
  | dir name sub rest ihsub ihrest =>
    rw [walkBelow, List.flatMap_cons, List.flatMap_append, ihsub, ihrest]
    rfl

theorem Tree.flatMap_walk (base : Text) (t : Tree) :
    (t.walk base).flatMap Prod.snd = t.filesHere ++ t.filesBelow := by
  rw [walk, List.flatMap_cons, flatMap_walkBelow]

/-- What does not depend on the directory of a file can be read off `Tree.files`. -/
theorem map_findAllFiles {α : Type} {g : Policy → α} {h : File → α}
    (hg : ∀ d f, g ⟨join d f.name, f.contents⟩ = h f) (base : Text) (t : Tree) (ext : Text) :
    (findAllFiles base t ext).map g = (t.files ext).map h := by
  rw [findAllFiles, Tree.files, ← Tree.flatMap_walk base, List.filter_flatMap, List.map_flatMap,
    List.map_flatMap]
  congr 1
  funext d
  rw [List.map_map]
  exact List.map_congr_left fun f _ => hg d.1 f

theorem findAllFiles_names (base : Text) (t : Tree) (ext : Text) :
    (findAllFiles base t ext).map Policy.name = (t.files ext).map fun f => splitext f.name.text :=
  map_findAllFiles (fun d f => by rw [Policy.name, basename_join]) base t ext

theorem findAllFiles_contents (base : Text) (t : Tree) (ext : Text) :
    (findAllFiles base t ext).map Policy.contents = (t.files ext).map File.contents :=
  map_findAllFiles (fun _ _ => rfl) base t ext

theorem findAllFiles_length (base : Text) (t : Tree) (ext : Text) :
    (findAllFiles base t ext).length = (t.files ext).length := by
  rw [← List.length_map (f := Policy.contents), findAllFiles_contents, List.length_map]

end Concord
end SynCord
