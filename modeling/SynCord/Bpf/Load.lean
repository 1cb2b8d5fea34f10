import SynCord.Text
import SynCord.Loop
import Mathlib.Logic.Function.Basic

/-!
# SynCord.Bpf.Load

`do_load_bpf_file` of `bpf_load.c`, on an object file whose sections are given with their contents
read as bytes, symbols or relocations. Section 0 is the one without a name.

The loader goes over the sections three times. The first time it finds the licence, the maps and
the symbols; the second time it puts the file descriptors of the maps into the instructions; the
third time it loads every section whose name begins like one of a program. What is done with a
section is noted in `processed_sec`, which has 128 entries and is indexed without a check.

File descriptors are numbered in the order in which the objects are made.
-/

namespace SynCord
namespace Bpf

abbrev Byte := BitVec 8

/-! ## Object files -/

structure Sym where
  name : Text
  shndx : Nat
  value : Nat

structure Rel where
  offset : Nat
  sym : Nat

inductive Content where
  | bytes (data : List Byte)
  | symtab (syms : List Sym)
  | rel (rels : List Rel)

/-- `sh_size` -/
def Content.size : Content → Nat
  | .bytes data => data.length
  | .symtab syms => 24 * syms.length
  | .rel rels => 16 * rels.length

def Content.data : Content → List Byte
  | .bytes data => data
  | .symtab _ | .rel _ => []

structure Section where
  name : Text
  /-- `SHT_PROGBITS` with `SHF_EXECINSTR` -/
  exec : Bool
  /-- `sh_info`: of a section of relocations, the section they are for -/
  info : Nat
  content : Content

abbrev Elf := List Section

def Section.null : Section := ⟨[], false, 0, .bytes []⟩

/-- Section `i`; beyond the end it is empty. -/
def secAt (elf : Elf) (i : Nat) : Section := elf[i]?.getD .null

/-- Empty sections are passed over. -/
def getSec (elf : Elf) (i : Nat) : Option Section :=
  if (secAt elf i).content.size = 0 then none else some (secAt elf i)

/-! ## The kernel's side -/

inductive ProgType where
  | socketFilter
  | kprobe
  | tracepoint
  | rawTracepoint
  | xdp
  | perfEvent
  | cgroupSkb
  | cgroupSock
  | sockOps
  | skSkb
  | skMsg
  | lockPolicy
  deriving DecidableEq

inductive Obj where
  /-- `inner` is the descriptor of a map of the same kind as the values. -/
  | map (name : Text) (mapDef : List Byte) (inner : Option Nat)
  | prog (type : ProgType) (insns license kernVersion : List Byte)
  deriving DecidableEq

structure MapData where
  fd : Nat
  name : Text
  elfOffset : Nat
  mapDef : List Byte

/-- The global variables of the loader, and the objects that its descriptors stand for. -/
structure Globals where
  objs : List Obj
  mapData : List MapData
  mapFd : List Nat
  progFd : List Nat

def Globals.start : Globals := ⟨[], [], [], []⟩

inductive Stop where
  /-- An access outside an array, or a division by 0. -/
  | fault
  /-- A return with an error, or an assertion that fails. -/
  | failed
  deriving DecidableEq

/-! ## Sections that have been dealt with -/

/-- The length of `processed_sec`. -/
def processedSize : Nat := 128

def mark (processed : Nat → Bool) (i : Nat) : Except Stop (Nat → Bool) :=
  if i < processedSize then .ok (Function.update processed i true) else .error .fault

def marked (processed : Nat → Bool) (i : Nat) : Except Stop Bool :=
  if i < processedSize then .ok (processed i) else .error .fault

/-! ## The first time -/

structure Scan where
  license : List Byte
  kernVersion : List Byte
  processed : Nat → Bool
  /-- The number and the data of the section with the maps. -/
  maps : Option (Nat × List Byte)
  symbols : Option (List Sym)

def Scan.start : Scan := ⟨[], [], fun _ => false, none, none⟩

def licenseName : Text := "license".toList

def versionName : Text := "version".toList

def mapsName : Text := "maps".toList

/-- The length of `license`. -/
def licenseSize : Nat := 128

def scanSec (elf : Elf) (st : Scan) (i : Nat) : Except Stop Scan :=
  match getSec elf i with
  | none => .ok st
  | some sec =>
    if sec.name = licenseName then do
      let processed ← mark st.processed i
      if licenseSize < sec.content.size then .error .fault
      else return { st with processed := processed, license := sec.content.data }
    else if sec.name = versionName then do
      let processed ← mark st.processed i
      if sec.content.size ≠ 4 then .error .failed
      else return { st with processed := processed, kernVersion := sec.content.data }
    else if sec.name = mapsName then .ok { st with maps := some (i, sec.content.data) }
    else
      match sec.content with
      | .symtab syms => .ok { st with symbols := some syms }
      | _ => .ok st

/-! ## Maps -/

def MAX_MAPS : Nat := 32

/-- `sizeof(struct bpf_load_map_def)` -/
def mapDefSize : Nat := 28

/-- A field of a `struct bpf_load_map_def`. -/
def word (d : List Byte) (k : Nat) : Nat :=
  ((d.drop (4 * k)).take 4).foldr (fun b n => b.toNat + 256 * n) 0

/-- One definition out of the section: a shorter one is filled up with zeros, a longer one has to be
zero behind what the loader knows. -/
def copyDef (data : List Byte) (size : Nat) (s : Sym) : Except Stop MapData :=
  if data.length < s.value + size then .error .fault
  else
    let raw := (data.drop s.value).take size
    if (raw.drop mapDefSize).any (· ≠ 0) then .error .failed
    else .ok ⟨0, s.name, s.value,
      raw.take mapDefSize ++ List.replicate (mapDefSize - raw.length) 0⟩

def loadElfMapsSection (shndx : Nat) (data : List Byte) (syms : List Sym) :
    Except Stop (List MapData) :=
  let sym := (syms.filter (·.shndx = shndx)).mergeSort fun a b => a.value ≤ b.value
  if sym.length = 0 ∨ MAX_MAPS < sym.length then .error .fault
  else sym.mapM (copyDef data (data.length / sym.length))

/-- `BPF_MAP_TYPE_ARRAY_OF_MAPS`, `BPF_MAP_TYPE_HASH_OF_MAPS` -/
def mapOfMaps (mapDef : List Byte) : Bool := word mapDef 0 = 12 ∨ word mapDef 0 = 13

def Globals.addMap (g : Globals) (m : MapData) (innerFd : Option Nat) : Globals :=
  let fd := g.objs.length
  { g with
    objs := g.objs ++ [.map m.name m.mapDef innerFd]
    mapData := g.mapData ++ [{ m with fd := fd }]
    mapFd := g.mapFd ++ [fd] }

def loadMap (g : Globals) (m : MapData) : Except Stop Globals :=
  if mapOfMaps m.mapDef then
    let inner := word m.mapDef 5
    if MAX_MAPS ≤ inner then .error .fault
    else
      match g.mapFd[inner]? with
      -- an entry that was not written is 0, the standard input, and no map
      | none => .error .failed
      | some innerFd => .ok (g.addMap m (some innerFd))
  else .ok (g.addMap m none)

/-! ## The second time -/

def le32 (n : Nat) : List Byte :=
  [BitVec.ofNat 8 n, BitVec.ofNat 8 (n / 256), BitVec.ofNat 8 (n / 65536),
    BitVec.ofNat 8 (n / 16777216)]

/-- `BPF_LD | BPF_IMM | BPF_DW` -/
def ldImm64 : Byte := 0x18

/-- One relocation, and whether it was one the loader knows. -/
def applyRel (syms : List Sym) (maps : List MapData) (insns : List Byte) (r : Rel) :
    Except Stop (List Byte × Bool) :=
  let at8 := 8 * (r.offset / 8)
  match syms[r.sym]?, insns[at8]? with
  | some sym, some code =>
    if insns.length < at8 + 8 then .error .fault
    else if code ≠ ldImm64 then .ok (insns, false)
    else
      -- `src_reg = BPF_PSEUDO_MAP_FD`
      let insns := insns.modify (at8 + 1) fun b => (b &&& 0x0f) ||| 0x10
      match maps.find? (·.elfOffset = sym.value) with
      | some m => .ok (insns.take (at8 + 4) ++ le32 m.fd ++ insns.drop (at8 + 8), true)
      | none => .ok (insns, false)
  | _, _ => .error .fault

/-- The caller does not look at the result, so a relocation that fails only ends the loop. -/
def parseReloAndApply (syms : List Sym) (maps : List MapData) :
    List Rel → List Byte → Except Stop (List Byte)
  | [], insns => .ok insns
  | r :: rels, insns => do
    let (insns, ok) ← applyRel syms maps insns r
    if ok then parseReloAndApply syms maps rels insns else return insns

/-- `processed_sec`, and the data of every section. -/
structure Reloc where
  processed : Nat → Bool
  data : Nat → List Byte

def relocSec (elf : Elf) (syms : List Sym) (maps : List MapData) (st : Reloc) (i : Nat) :
    Except Stop Reloc := do
  if ← marked st.processed i then return st
  match getSec elf i with
  | none => return st
  | some sec =>
    match sec.content with
    | .rel rels =>
      match getSec elf sec.info with
      | none => return st
      | some prog =>
        if prog.exec then do
          let processed ← mark st.processed i
          let insns ← parseReloAndApply syms maps rels (st.data sec.info)
          return ⟨processed, Function.update st.data sec.info insns⟩
        else return st
    | _ => return st

/-! ## The third time -/

def MAX_PROGS : Nat := 32

/-- How the names of programs begin. -/
def programNames : List Text :=
  ["kprobe/".toList, "kretprobe/".toList, "tracepoint/".toList, "raw_tracepoint/".toList,
    "xdp".toList, "perf_event".toList, "socket".toList, "cgroup/".toList, "sockops".toList,
    "sk_skb".toList, "lock".toList, "sk_msg".toList]

def isProgram (name : Text) : Bool := programNames.any (·.isPrefixOf name)

def progType (event : Text) : Option ProgType :=
  if "socket".toList.isPrefixOf event then some .socketFilter
  else if "kprobe/".toList.isPrefixOf event || "kretprobe/".toList.isPrefixOf event then
    some .kprobe
  else if "tracepoint/".toList.isPrefixOf event then some .tracepoint
  else if "raw_tracepoint/".toList.isPrefixOf event then some .rawTracepoint
  else if "xdp".toList.isPrefixOf event then some .xdp
  else if "perf_event".toList.isPrefixOf event then some .perfEvent
  else if "cgroup/skb".toList.isPrefixOf event then some .cgroupSkb
  else if "cgroup/sock".toList.isPrefixOf event then some .cgroupSock
  else if "sockops".toList.isPrefixOf event then some .sockOps
  else if "sk_skb".toList.isPrefixOf event then some .skSkb
  else if "sk_msg".toList.isPrefixOf event then some .skMsg
  else if "lock".toList.isPrefixOf event then some .lockPolicy
  else none

/-- Programs of these types are not attached to anything. -/
def ProgType.loadOnly : ProgType → Bool
  | .xdp | .perfEvent | .cgroupSkb | .cgroupSock | .lockPolicy => true
  | .socketFilter | .kprobe | .tracepoint | .rawTracepoint | .sockOps | .skSkb | .skMsg => false

/-- Whether attaching a program of another type succeeds. -/
abbrev Attach := ProgType → Text → Nat → Bool

/-- `size / sizeof(struct bpf_insn)` instructions. -/
def wholeInsns (prog : List Byte) : List Byte := prog.take (8 * (prog.length / 8))

def loadAndAttach (attach : Attach) (sc : Scan) (g : Globals) (event : Text) (prog : List Byte) :
    Except Stop Globals :=
  match progType event with
  | none => .error .failed
  | some type =>
    if g.progFd.length = MAX_PROGS then .error .failed
    else
      let fd := g.objs.length
      if type.loadOnly || attach type event fd then
        .ok { g with
          objs := g.objs ++ [.prog type (wholeInsns prog) sc.license sc.kernVersion]
          progFd := g.progFd ++ [fd] }
      else .error .failed

/-- The second component is `ret`. -/
def loadSec (attach : Attach) (elf : Elf) (sc : Scan) (rl : Reloc) (st : Globals × Int) (i : Nat) :
    Except Stop (Globals × Int) := do
  if ← marked rl.processed i then return st
  match getSec elf i with
  | none => return st
  | some sec =>
    if isProgram sec.name then do
      let g ← loadAndAttach attach sc st.1 sec.name (rl.data i)
      return (g, 0)
    else return st

/-! ## The whole -/

/-- The numbers of the sections, from 1. -/
def numbers (elf : Elf) : List Nat := List.range' 1 (elf.length - 1)

/-- The maps are made, and their section is done with. -/
def makeMaps (sc : Scan) (syms : List Sym) : Except Stop (Globals × (Nat → Bool)) :=
  match sc.maps with
  | none => .ok (.start, sc.processed)
  | some (shndx, data) => do
    let maps ← loadElfMapsSection shndx data syms
    let g ← maps.foldlM loadMap .start
    let processed ← mark sc.processed shndx
    return (g, processed)

def doLoadBpfFile (attach : Attach) (elf : Elf) : Except Stop (Globals × Int) := do
  let sc ← (numbers elf).foldlM (scanSec elf) .start
  match sc.symbols with
  | none => .error .failed
  | some syms => do
    let (g, processed) ← makeMaps sc syms
    let rl ← (numbers elf).foldlM (relocSec elf syms g.mapData)
      ⟨processed, fun i => (secAt elf i).content.data⟩
    (numbers elf).foldlM (loadSec attach elf sc rl) (g, 1)

end Bpf
end SynCord
