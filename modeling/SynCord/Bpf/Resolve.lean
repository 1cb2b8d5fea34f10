import SynCord.Bpf.Load
import Mathlib.Data.List.TakeWhile

/-!
# SynCord.Bpf.Resolve

What the loader does to the instructions of a program. A relocation names an instruction and a
symbol; the instruction has to load a 64-bit value, and gets the descriptor of the map that is
defined where the symbol points.

* `insnAt` — the instructions of a section.
* `parseReloAndApply_exact` — what a table of relocations makes of every one of them.
* `resolve_refers` — an instruction stays as it is, or refers to a map instead of what it loaded.
-/

namespace SynCord
namespace Bpf

/-! ## Instructions -/

/-- `struct bpf_insn` -/
structure Insn where
  code : Byte
  dstReg : BitVec 4
  srcReg : BitVec 4
  off : BitVec 16
  imm : BitVec 32
  deriving DecidableEq

/-- Numbers are little-endian, and `dst_reg` is the lower half of its byte. -/
def Insn.decode (code regs o₀ o₁ i₀ i₁ i₂ i₃ : Byte) : Insn where
  code := code
  dstReg := regs.setWidth 4
  srcReg := (regs >>> 4).setWidth 4
  off := BitVec.ofNat 16 (o₀.toNat + 256 * o₁.toNat)
  imm := BitVec.ofNat 32 (i₀.toNat + 256 * i₁.toNat + 65536 * i₂.toNat + 16777216 * i₃.toNat)

/-- Instruction `k` of a section. -/
def insnAt (d : List Byte) (k : Nat) : Option Insn := do
  let code ← d[8 * k]?
  let regs ← d[8 * k + 1]?
  let o₀ ← d[8 * k + 2]?
  let o₁ ← d[8 * k + 3]?
  let i₀ ← d[8 * k + 4]?
  let i₁ ← d[8 * k + 5]?
  let i₂ ← d[8 * k + 6]?
  let i₃ ← d[8 * k + 7]?
  return Insn.decode code regs o₀ o₁ i₀ i₁ i₂ i₃

/-- `insn_idx` -/
def Rel.index (r : Rel) : Nat := r.offset / 8

/-- `BPF_PSEUDO_MAP_FD` -/
def pseudoMapFd : BitVec 4 := 1

/-- The map that the symbol of a relocation is matched with. -/
def mapOf (syms : List Sym) (maps : List MapData) (r : Rel) : Option MapData :=
  syms[r.sym]?.bind fun sym => maps.find? (·.elfOffset = sym.value)

/-- The loop gets past this relocation. -/
def known (syms : List Sym) (maps : List MapData) (insns : List Byte) (r : Rel) : Bool :=
  insns[8 * r.index]? = some ldImm64 && (mapOf syms maps r).isSome

/-- The map of the last relocation for instruction `k`. -/
def lastMap (syms : List Sym) (maps : List MapData) (rels : List Rel) (k : Nat) : Option MapData :=
  (rels.filter (·.index = k)).getLast?.bind (mapOf syms maps)

/-- Instruction `k` after the relocations `rels`. The first one that is not known ends the loop, but
may have marked its instruction. -/
def resolve (syms : List Sym) (maps : List MapData) (insns : List Byte) (rels : List Rel) (k : Nat)
    (i : Insn) : Insn :=
  let done := rels.takeWhile (known syms maps insns)
  let ending := (rels.dropWhile (known syms maps insns)).head?
  { i with
    srcReg := if done.any (·.index = k) || ending.any (fun r => r.index = k && i.code = ldImm64)
      then pseudoMapFd else i.srcReg
    imm := match lastMap syms maps done k with
      | some m => BitVec.ofNat 32 m.fd
      | none => i.imm }

/-! ## The two stores -/

/-- `insn[k].src_reg = BPF_PSEUDO_MAP_FD` -/
def markFd (d : List Byte) (k : Nat) : List Byte :=
  d.modify (8 * k + 1) fun b => (b &&& 0x0f) ||| 0x10

/-- `insn[k].imm = fd` -/
def putImm (d : List Byte) (k fd : Nat) : List Byte :=
  d.take (8 * k + 4) ++ le32 fd ++ d.drop (8 * k + 8)

section Stores

variable {d : List Byte} {j k n fd : Nat}

theorem getElem?_markFd : (markFd d n)[j]? =
    if j = 8 * n + 1 then d[j]?.map fun b => (b &&& 0x0f) ||| 0x10 else d[j]? := by
  rw [markFd, List.getElem?_modify]
  by_cases h : j = 8 * n + 1
  · simp [h]
  · simp [h, Ne.symm h]

theorem getElem?_putImm (hd : 8 * n + 8 ≤ d.length) : (putImm d n fd)[j]? =
    if 8 * n + 4 ≤ j ∧ j < 8 * n + 8 then (le32 fd)[j - (8 * n + 4)]? else d[j]? := by
  have hlen : (d.take (8 * n + 4)).length = 8 * n + 4 := by
    rw [List.length_take]
    omega
  have hle : (le32 fd).length = 4 := rfl
  rw [putImm, List.append_assoc, List.getElem?_append, hlen]
  by_cases h₁ : j < 8 * n + 4
  · rw [if_pos h₁, if_neg (by omega), List.getElem?_take, if_pos h₁]
  · rw [if_neg h₁, List.getElem?_append, hle]
    by_cases h₂ : j < 8 * n + 8
    · rw [if_pos (by omega), if_pos (by omega)]
    · rw [if_neg (by omega), if_neg (by omega), List.getElem?_drop]
      congr 1
      omega

/-- Instructions are made of eight bytes and nothing else. -/
theorem insnAt_congr {d' : List Byte} (h : ∀ j, 8 * k ≤ j → j < 8 * k + 8 → d'[j]? = d[j]?) :
    insnAt d' k = insnAt d k := by
  simp only [insnAt]
  rw [h (8 * k) (by omega) (by omega), h (8 * k + 1) (by omega) (by omega),
    h (8 * k + 2) (by omega) (by omega), h (8 * k + 3) (by omega) (by omega),
    h (8 * k + 4) (by omega) (by omega), h (8 * k + 5) (by omega) (by omega),
    h (8 * k + 6) (by omega) (by omega), h (8 * k + 7) (by omega) (by omega)]

theorem insnAt_eq (h : 8 * k + 8 ≤ d.length) :
    insnAt d k = some (Insn.decode d[8 * k] d[8 * k + 1] d[8 * k + 2] d[8 * k + 3]
      d[8 * k + 4] d[8 * k + 5] d[8 * k + 6] d[8 * k + 7]) := by
  simp only [insnAt]
  rw [List.getElem?_eq_getElem (by omega), List.getElem?_eq_getElem (by omega),
    List.getElem?_eq_getElem (by omega), List.getElem?_eq_getElem (by omega),
    List.getElem?_eq_getElem (by omega), List.getElem?_eq_getElem (by omega),
    List.getElem?_eq_getElem (by omega), List.getElem?_eq_getElem (by omega)]
  rfl

theorem insnAt_eq_none (h : d.length < 8 * k + 8) : insnAt d k = none := by
  simp only [insnAt]
  rw [List.getElem?_eq_none (show d.length ≤ 8 * k + 7 by omega)]
  simp

theorem mark_low : ∀ b : Byte, ((b &&& 0x0f) ||| 0x10).setWidth 4 = b.setWidth 4 := by
  decide

theorem mark_high : ∀ b : Byte, (((b &&& 0x0f) ||| 0x10) >>> 4).setWidth 4 = pseudoMapFd := by
  decide

theorem decode_mark (code b o₀ o₁ i₀ i₁ i₂ i₃ : Byte) :
    Insn.decode code ((b &&& 0x0f) ||| 0x10) o₀ o₁ i₀ i₁ i₂ i₃ =
      { Insn.decode code b o₀ o₁ i₀ i₁ i₂ i₃ with srcReg := pseudoMapFd } := by
  simp only [Insn.decode, mark_low, mark_high]

theorem decode_imm (code b o₀ o₁ i₀ i₁ i₂ i₃ : Byte) (fd : Nat) :
    Insn.decode code b o₀ o₁ (BitVec.ofNat 8 fd) (BitVec.ofNat 8 (fd / 256))
      (BitVec.ofNat 8 (fd / 65536)) (BitVec.ofNat 8 (fd / 16777216)) =
      { Insn.decode code b o₀ o₁ i₀ i₁ i₂ i₃ with imm := BitVec.ofNat 32 fd } := by
  simp only [Insn.decode, Insn.mk.injEq, true_and]
  apply BitVec.eq_of_toNat_eq
  simp only [BitVec.toNat_ofNat]
  omega

theorem length_markFd : (markFd d n).length = d.length :=
  List.length_modify ..

theorem length_putImm (hd : 8 * n + 8 ≤ d.length) : (putImm d n fd).length = d.length := by
  have hle : (le32 fd).length = 4 := rfl
  simp only [putImm, List.length_append, List.length_take, List.length_drop, hle]
  omega

theorem insnAt_markFd : insnAt (markFd d n) k =
    (insnAt d k).map fun i => if k = n then { i with srcReg := pseudoMapFd } else i := by
  by_cases h : k = n
  · subst h
    by_cases hd : 8 * k + 8 ≤ d.length
    · rw [insnAt_eq hd, Option.map_some, if_pos rfl, ← decode_mark]
      simp only [insnAt]
      rw [getElem?_markFd, getElem?_markFd, getElem?_markFd, getElem?_markFd, getElem?_markFd,
        getElem?_markFd, getElem?_markFd, getElem?_markFd, if_neg (by omega), if_pos rfl,
        if_neg (by omega), if_neg (by omega), if_neg (by omega), if_neg (by omega),
        if_neg (by omega), if_neg (by omega),
        List.getElem?_eq_getElem (by omega), List.getElem?_eq_getElem (by omega),
        List.getElem?_eq_getElem (by omega), List.getElem?_eq_getElem (by omega),
        List.getElem?_eq_getElem (by omega), List.getElem?_eq_getElem (by omega),
        List.getElem?_eq_getElem (by omega), List.getElem?_eq_getElem (by omega)]
      rfl
    · have hd' : d.length < 8 * k + 8 := Nat.lt_of_not_le hd
      rw [insnAt_eq_none hd', insnAt_eq_none (by rwa [length_markFd])]
      rfl
  · have hc : insnAt (markFd d n) k = insnAt d k :=
      insnAt_congr fun j h₁ h₂ => by rw [getElem?_markFd, if_neg (by omega)]
    simp [h, hc]

theorem insnAt_putImm (hd : 8 * n + 8 ≤ d.length) : insnAt (putImm d n fd) k =
    (insnAt d k).map fun i => if k = n then { i with imm := BitVec.ofNat 32 fd } else i := by
  by_cases h : k = n
  · subst h
    rw [insnAt_eq hd, Option.map_some, if_pos rfl, ← decode_imm]
    simp only [insnAt]
    rw [getElem?_putImm hd, getElem?_putImm hd, getElem?_putImm hd, getElem?_putImm hd,
      getElem?_putImm hd, getElem?_putImm hd, getElem?_putImm hd, getElem?_putImm hd,
      if_neg (by omega), if_neg (by omega), if_neg (by omega), if_neg (by omega),
      if_pos (by omega), if_pos (by omega), if_pos (by omega), if_pos (by omega),
      List.getElem?_eq_getElem (by omega), List.getElem?_eq_getElem (by omega),
      List.getElem?_eq_getElem (by omega), List.getElem?_eq_getElem (by omega),
      show 8 * k + 4 - (8 * k + 4) = 0 by omega, show 8 * k + 5 - (8 * k + 4) = 1 by omega,
      show 8 * k + 6 - (8 * k + 4) = 2 by omega, show 8 * k + 7 - (8 * k + 4) = 3 by omega]
    rfl
  · have hc : insnAt (putImm d n fd) k = insnAt d k :=
      insnAt_congr fun j h₁ h₂ => by rw [getElem?_putImm hd, if_neg (by omega)]
    simp [h, hc]

end Stores

/-! ## One relocation -/

section Relocation

variable {syms : List Sym} {maps : List MapData} {insns out : List Byte} {r : Rel} {rels : List Rel}
  {ok : Bool} {k : Nat}

/-- What one relocation does: nothing to another instruction than a load, half of its work without
a map, and all of it otherwise. -/
inductive Applied (syms : List Sym) (maps : List MapData) (insns : List Byte) (r : Rel) :
    List Byte → Bool → Prop where
  | other {code} : insns[8 * r.index]? = some code → code ≠ ldImm64 →
      Applied syms maps insns r insns false
  | noMap : insns[8 * r.index]? = some ldImm64 → mapOf syms maps r = none →
      Applied syms maps insns r (markFd insns r.index) false
  | found {m} : insns[8 * r.index]? = some ldImm64 → mapOf syms maps r = some m →
      8 * r.index + 8 ≤ insns.length →
      Applied syms maps insns r (putImm (markFd insns r.index) r.index m.fd) true

theorem applyRel_applied (h : applyRel syms maps insns r = .ok (out, ok)) :
    Applied syms maps insns r out ok := by
  simp only [applyRel] at h
  split at h
  case h_2 => simp at h
  case h_1 sym code hsym hcode =>
    split_ifs at h with hlen hld
    · simp only [Except.ok.injEq, Prod.mk.injEq] at h
      obtain ⟨rfl, rfl⟩ := h
      exact .other hcode hld
    · rw [not_not.1 hld] at hcode
      have hmap : mapOf syms maps r = maps.find? (·.elfOffset = sym.value) := by
        rw [mapOf, hsym]
        rfl
      split at h <;> rename_i hm
      · simp only [Except.ok.injEq, Prod.mk.injEq] at h
        obtain ⟨rfl, rfl⟩ := h
        exact .found hcode (hmap.trans hm) (Nat.le_of_not_lt hlen)
      · simp only [Except.ok.injEq, Prod.mk.injEq] at h
        obtain ⟨rfl, rfl⟩ := h
        exact .noMap hcode (hmap.trans hm)

/-- Neither store touches an opcode. -/
theorem opcode_markFd {n : Nat} : (markFd insns n)[8 * k]? = insns[8 * k]? := by
  rw [getElem?_markFd, if_neg (by omega)]

theorem opcode_putImm {n fd : Nat} (h : 8 * n + 8 ≤ insns.length) :
    (putImm insns n fd)[8 * k]? = insns[8 * k]? := by
  rw [getElem?_putImm h, if_neg (by omega)]

theorem known_congr {d : List Byte} (h : ∀ k, d[8 * k]? = insns[8 * k]?) :
    known syms maps d = known syms maps insns := by
  funext r
  simp only [known, h]

theorem lastMap_cons : lastMap syms maps (r :: rels) k =
    if rels.any (·.index = k) then lastMap syms maps rels k
    else if r.index = k then mapOf syms maps r else none := by
  by_cases hr : rels.any (·.index = k)
  · have hne : rels.filter (·.index = k) ≠ [] := by simpa using hr
    rw [if_pos hr, lastMap, lastMap, List.filter_cons]
    split
    · rw [List.getLast?_cons_of_ne_nil hne]
    · rfl
  · have he : rels.filter (·.index = k) = [] := by simpa using hr
    rw [if_neg hr, lastMap, List.filter_cons, he]
    split <;> simp_all

theorem lastMap_isSome (h : ∀ r ∈ rels, (mapOf syms maps r).isSome)
    (hk : rels.any (·.index = k)) : (lastMap syms maps rels k).isSome := by
  have hne : rels.filter (·.index = k) ≠ [] := by simpa using hk
  rw [lastMap, List.getLast?_eq_some_getLast hne]
  exact h _ (List.mem_of_mem_filter (List.getLast_mem hne))

theorem resolve_congr {d : List Byte} (h : ∀ k, d[8 * k]? = insns[8 * k]?) :
    resolve syms maps d = resolve syms maps insns := by
  funext rels k i
  rw [resolve, resolve, known_congr h]

theorem resolve_unknown (hr : known syms maps insns r = false) (i : Insn) :
    resolve syms maps insns (r :: rels) k i =
      { i with srcReg := if r.index = k ∧ i.code = ldImm64 then pseudoMapFd else i.srcReg } := by
  simp [resolve, hr, lastMap]

theorem resolve_known {m : MapData} (hr : known syms maps insns r = true)
    (hm : mapOf syms maps r = some m) (i : Insn) :
    resolve syms maps insns (r :: rels) k i = resolve syms maps insns rels k
      (if k = r.index then { i with srcReg := pseudoMapFd, imm := BitVec.ofNat 32 m.fd }
        else i) := by
  have hdone : ∀ q ∈ rels.takeWhile (known syms maps insns), (mapOf syms maps q).isSome := by
    intro q hq
    have := List.mem_takeWhile_imp hq
    simp only [known, Bool.and_eq_true] at this
    exact this.2
  simp only [resolve, List.takeWhile_cons_of_pos hr, List.dropWhile_cons_of_pos hr, lastMap_cons,
    List.any_cons, hm]
  by_cases ha : (rels.takeWhile (known syms maps insns)).any (·.index = k)
  · obtain ⟨m', hm'⟩ := Option.isSome_iff_exists.1 (lastMap_isSome hdone ha)
    by_cases hk : k = r.index
    · subst hk
      simp [ha, hm']
    · simp [ha, hm', hk]
  · have hn : lastMap syms maps (rels.takeWhile (known syms maps insns)) k = none := by
      have he : (rels.takeWhile (known syms maps insns)).filter (·.index = k) = [] := by
        simpa using ha
      rw [lastMap, he]
      rfl
    by_cases hk : k = r.index
    · subst hk
      simp [ha, hn]
    · simp [ha, hn, hk, Ne.symm hk]

theorem insnAt_code {d : List Byte} {i : Insn} (h : insnAt d k = some i) :
    d[8 * k]? = some i.code := by
  by_cases hd : 8 * k + 8 ≤ d.length
  · rw [insnAt_eq hd, Option.some.injEq] at h
    rw [← h]
    exact List.getElem?_eq_getElem _
  · rw [insnAt_eq_none (by omega)] at h
    simp at h

end Relocation

/-! ## A table of relocations -/

theorem parseReloAndApply_opcode {syms : List Sym} {maps : List MapData} {rels : List Rel}
    {insns out : List Byte} (h : parseReloAndApply syms maps rels insns = .ok out) (k : Nat) :
    out[8 * k]? = insns[8 * k]? := by
  induction rels generalizing insns with
  | nil =>
    cases h
    rfl
  | cons r rels ih =>
    simp only [parseReloAndApply] at h
    obtain ⟨⟨mid, ok⟩, hr, h⟩ := bind_eq_ok h
    cases id (applyRel_applied hr) with
    | other => cases h; rfl
    | noMap => cases h; exact opcode_markFd
    | found hc hm hlen =>
      exact (ih h).trans ((opcode_putImm (by rwa [length_markFd])).trans opcode_markFd)

/-- Every instruction that a table of relocations leaves behind: relocations count up to the first
one that is not for a load or has no map, the last one for an instruction decides on its map, and
nothing else changes. -/
theorem parseReloAndApply_exact {syms : List Sym} {maps : List MapData} {rels : List Rel}
    {insns out : List Byte} (h : parseReloAndApply syms maps rels insns = .ok out) :
    out.length = insns.length ∧
      ∀ k, insnAt out k = (insnAt insns k).map (resolve syms maps insns rels k) := by
  induction rels generalizing insns with
  | nil =>
    simp only [parseReloAndApply, Except.ok.injEq] at h
    subst h
    refine ⟨rfl, fun k => ?_⟩
    have hid : resolve syms maps insns [] k = id := by
      funext i
      simp [resolve, lastMap]
    rw [hid, Option.map_id_fun, id]
  | cons r rels ih =>
    simp only [parseReloAndApply] at h
    obtain ⟨⟨mid, ok⟩, hr, h⟩ := bind_eq_ok h
    dsimp only at h
    cases id (applyRel_applied hr) with
    | @other code hc hld =>
      simp only [Bool.false_eq_true, if_false, pure, Except.pure, Except.ok.injEq] at h
      subst h
      have hk : known syms maps insns r = false := by simp [known, hc, hld]
      refine ⟨rfl, fun k => ?_⟩
      cases hi : insnAt insns k with
      | none => rfl
      | some i =>
        have hcode := insnAt_code hi
        rw [Option.map_some, resolve_unknown hk, if_neg]
        rintro ⟨rfl, hci⟩
        rw [hc, hci] at hcode
        exact hld (Option.some.inj hcode)
    | noMap hc hm =>
      simp only [Bool.false_eq_true, if_false, pure, Except.pure, Except.ok.injEq] at h
      subst h
      have hk : known syms maps insns r = false := by simp [known, hm]
      refine ⟨length_markFd, fun k => ?_⟩
      rw [insnAt_markFd]
      cases hi : insnAt insns k with
      | none => rfl
      | some i =>
        rw [Option.map_some, Option.map_some, resolve_unknown hk]
        by_cases hkr : k = r.index
        · subst hkr
          have hcode : i.code = ldImm64 := Option.some.inj ((insnAt_code hi).symm.trans hc)
          simp [hcode]
        · simp [hkr, Ne.symm hkr]
    | @found m hc hm hlen =>
      simp only [if_true] at h
      have hlen' : 8 * r.index + 8 ≤ (markFd insns r.index).length := by rwa [length_markFd]
      have hk : known syms maps insns r = true := by simp [known, hc, hm]
      obtain ⟨ho, hins⟩ := ih h
      refine ⟨ho.trans ((length_putImm hlen').trans length_markFd), fun k => ?_⟩
      rw [hins, resolve_congr fun k => (opcode_putImm hlen').trans opcode_markFd,
        insnAt_putImm hlen', insnAt_markFd, Option.map_map, Option.map_map]
      congr 1
      funext i
      rw [resolve_known hk hm]
      by_cases hkr : k = r.index <;> simp [hkr]

/-! ## What a relocation can change -/

/-- `i` is `i₀`, or a load of the descriptor of a map in the place of a load. -/
structure Refers (maps : List MapData) (i₀ i : Insn) : Prop where
  code : i.code = i₀.code
  dstReg : i.dstReg = i₀.dstReg
  off : i.off = i₀.off
  other : i₀.code ≠ ldImm64 → i = i₀
  imm : i.imm = i₀.imm ∨ ∃ m ∈ maps, i.imm = BitVec.ofNat 32 m.fd

namespace Refers

variable {maps : List MapData} {i₀ i₁ i₂ : Insn}

theorem refl : Refers maps i₀ i₀ := ⟨rfl, rfl, rfl, fun _ => rfl, .inl rfl⟩

theorem trans (h₁ : Refers maps i₀ i₁) (h₂ : Refers maps i₁ i₂) : Refers maps i₀ i₂ where
  code := h₂.code.trans h₁.code
  dstReg := h₂.dstReg.trans h₁.dstReg
  off := h₂.off.trans h₁.off
  other := fun h => (h₂.other (by rwa [h₁.code])).trans (h₁.other h)
  imm := by
    rcases h₂.imm with h | h
    · rw [h]
      exact h₁.imm
    · exact .inr h

end Refers

theorem lastMap_eq_some {syms : List Sym} {maps : List MapData} {rels : List Rel} {k : Nat}
    {m : MapData} (h : lastMap syms maps rels k = some m) :
    m ∈ maps ∧ ∃ r ∈ rels, r.index = k := by
  obtain ⟨r, hr, hm⟩ := Option.bind_eq_some_iff.1 h
  obtain ⟨sym, -, hfind⟩ := Option.bind_eq_some_iff.1 hm
  obtain ⟨hrels, hk⟩ := List.mem_filter.1 (List.mem_of_getLast? hr)
  exact ⟨List.mem_of_find?_eq_some hfind, r, hrels, of_decide_eq_true hk⟩

theorem resolve_refers {syms : List Sym} {maps : List MapData} {insns : List Byte} {rels : List Rel}
    {k : Nat} {i : Insn} (hcode : insns[8 * k]? = some i.code) :
    Refers maps i (resolve syms maps insns rels k i) := by
  -- a relocation the loop has got past is for a load
  have hload : ∀ r ∈ rels.takeWhile (known syms maps insns), r.index = k → i.code = ldImm64 := by
    rintro r hr rfl
    have hk := List.mem_takeWhile_imp hr
    simp only [known, Bool.and_eq_true, decide_eq_true_eq, hcode, Option.some.injEq] at hk
    exact hk.1
  refine ⟨rfl, rfl, rfl, fun hld => ?_, ?_⟩
  · have hany : (rels.takeWhile (known syms maps insns)).any (·.index = k) = false := by
      rw [List.any_eq_false]
      intro r hr hk
      exact hld (hload r hr (of_decide_eq_true hk))
    have hlast : lastMap syms maps (rels.takeWhile (known syms maps insns)) k = none := by
      cases h : lastMap syms maps (rels.takeWhile (known syms maps insns)) k with
      | none => rfl
      | some m =>
        obtain ⟨-, r, hr, hk⟩ := lastMap_eq_some h
        exact absurd (hload r hr hk) hld
    simp [resolve, hany, hlast, hld]
  · simp only [resolve]
    cases h : lastMap syms maps (rels.takeWhile (known syms maps insns)) k with
    | none => exact .inl rfl
    | some m => exact .inr ⟨m, (lastMap_eq_some h).1, rfl⟩

end Bpf
end SynCord
