import SynCord.Bpf.Passes
import SynCord.Bpf.Resolve

/-!
# SynCord.Bpf.Link

What `do_load_bpf_file` has loaded when it succeeds, for any object file.

* `ScanRun`, `RelocRun`, `LoadRun` — each time the loader goes over the sections;
  `doLoadBpfFile_runs` puts them together.
* `maps_exact` — the maps are numbered by their offsets, and their definitions are those of the
  section, filled up with zeros.
* `load_exact` — the objects are the maps and then one program for each section that names one, with
  every instruction as the relocations for its section make it.
* `loaded_refers` — no instruction is another one than in the file but for maps of the same file.
-/

namespace SynCord
namespace Bpf

/-! ## What the sections are for -/

/-- A section that is not empty has this name. -/
def hasName (elf : Elf) (name : Text) (i : Nat) : Bool := (getSec elf i).any (·.name = name)

/-- `maps_shndx` -/
def mapsSec (elf : Elf) : Option Nat := ((numbers elf).filter (hasName elf mapsName)).getLast?

/-- The symbols in section `i`. -/
def symbolsIn (elf : Elf) (i : Nat) : Option (List Sym) :=
  match getSec elf i with
  | none => none
  | some sec =>
    if sec.name = licenseName ∨ sec.name = versionName ∨ sec.name = mapsName then none
    else
      match sec.content with
      | .symtab syms => some syms
      | _ => none

/-- `symbols` -/
def symbols (elf : Elf) : Option (List Sym) := ((numbers elf).filterMap (symbolsIn elf)).getLast?

/-- The data of the last section of this name. -/
def lastData (elf : Elf) (name : Text) (is : List Nat) : List Byte :=
  ((is.filter (hasName elf name)).getLast?.map fun i => (secAt elf i).content.data).getD []

/-- Dealt with before the relocations. -/
def aside (elf : Elf) (i : Nat) : Bool :=
  hasName elf licenseName i || hasName elf versionName i || mapsSec elf = some i

/-- The relocations in section `i`, with the section they are for. -/
def table (elf : Elf) (i : Nat) : Option (Nat × List Rel) :=
  if aside elf i then none
  else
    match getSec elf i with
    | none => none
    | some sec =>
      match sec.content with
      | .rel rels =>
        match getSec elf sec.info with
        | none => none
        | some prog => if prog.exec then some (sec.info, rels) else none
      | _ => none

/-- The tables for section `j` in the sections `is`. -/
def tables (elf : Elf) (is : List Nat) (j : Nat) : List (List Rel) :=
  (is.filterMap (table elf)).filterMap fun t => if t.1 = j then some t.2 else none

/-- Instruction `k` of section `j` after the tables for it in `is`. -/
def link (elf : Elf) (syms : List Sym) (maps : List MapData) (is : List Nat) (j k : Nat)
    (i : Insn) : Insn :=
  (tables elf is j).foldl
    (fun i rels => resolve syms maps (secAt elf j).content.data rels k i) i

/-- Section `i` is loaded as a program. -/
def loads (elf : Elf) (i : Nat) : Bool :=
  !aside elf i && (table elf i).isNone && (getSec elf i).any fun sec => isProgram sec.name

/-! ## The first time -/

section Scan

variable {elf : Elf} {done : List Nat} {st st' : Scan} {i : Nat} {name : Text}

theorem filter_hasName_snoc : (done ++ [i]).filter (hasName elf name) =
    done.filter (hasName elf name) ++ if hasName elf name i then [i] else [] := by
  rw [List.filter_append, List.filter_cons, List.filter_nil]

theorem filter_hasName_skip (h : hasName elf name i = false) :
    (done ++ [i]).filter (hasName elf name) = done.filter (hasName elf name) := by
  simp [h]

theorem lastData_skip (h : hasName elf name i = false) :
    lastData elf name (done ++ [i]) = lastData elf name done := by
  rw [lastData, filter_hasName_skip h, ← lastData]

theorem lastData_snoc (h : hasName elf name i = true) :
    lastData elf name (done ++ [i]) = (secAt elf i).content.data := by
  rw [lastData, filter_hasName_snoc, if_pos h, List.getLast?_concat]
  rfl

/-- What is known after the sections `done`. -/
structure ScanRun (elf : Elf) (done : List Nat) (st : Scan) : Prop where
  license : st.license = lastData elf licenseName done
  version : st.kernVersion = lastData elf versionName done
  processed : ∀ i, st.processed i = true ↔
    i ∈ done ∧ (hasName elf licenseName i = true ∨ hasName elf versionName i = true)
  maps : st.maps = (done.filter (hasName elf mapsName)).getLast?.map fun i =>
    (i, (secAt elf i).content.data)
  symbols : st.symbols = (done.filterMap (symbolsIn elf)).getLast?

theorem names_ne : licenseName ≠ versionName ∧ licenseName ≠ mapsName ∧ versionName ≠ mapsName := by
  decide

theorem mark_eq_ok {p p' : Nat → Bool} (h : mark p i = .ok p') : p' = Function.update p i true := by
  rw [mark] at h
  split_ifs at h
  exact (Except.ok.inj h).symm

theorem processed_skip {P Q : Nat → Prop} (h : ∀ n, P n ↔ n ∈ done ∧ Q n) (hi : ¬Q i) (n : Nat) :
    P n ↔ n ∈ done ++ [i] ∧ Q n := by
  rw [h, List.mem_append, List.mem_singleton]
  constructor
  · exact fun hn => ⟨.inl hn.1, hn.2⟩
  · rintro ⟨hn | rfl, hq⟩
    · exact ⟨hn, hq⟩
    · exact absurd hq hi

theorem processed_mark {p : Nat → Bool} {Q : Nat → Prop} (h : ∀ n, p n = true ↔ n ∈ done ∧ Q n)
    (hi : Q i) (n : Nat) : Function.update p i true n = true ↔ n ∈ done ++ [i] ∧ Q n := by
  by_cases hn : n = i
  · subst hn
    simp [hi]
  · rw [Function.update_of_ne hn, h]
    simp [hn]

theorem lastSymbols_skip (h : symbolsIn elf i = none) :
    ((done ++ [i]).filterMap (symbolsIn elf)).getLast? =
      (done.filterMap (symbolsIn elf)).getLast? := by
  simp [h]

/-- A section that is none of those looked for. -/
theorem ScanRun.skip (hr : ScanRun elf done st) (hl : hasName elf licenseName i = false)
    (hv : hasName elf versionName i = false) (hm : hasName elf mapsName i = false)
    (hs : symbolsIn elf i = none) : ScanRun elf (done ++ [i]) st where
  license := by rw [lastData_skip hl, hr.license]
  version := by rw [lastData_skip hv, hr.version]
  processed := processed_skip hr.processed (by simp [hl, hv])
  maps := by rw [filter_hasName_skip hm, hr.maps]
  symbols := by rw [lastSymbols_skip hs, hr.symbols]

theorem hasName_of_getSec {sec : Section} (h : getSec elf i = some sec) :
    hasName elf name i = decide (sec.name = name) := by
  rw [hasName, h]
  rfl

theorem getSec_eq {sec : Section} (h : getSec elf i = some sec) : sec = secAt elf i := by
  rw [getSec] at h
  split_ifs at h
  exact (Option.some.inj h).symm

theorem scanSec_runs (hr : ScanRun elf done st) (h : scanSec elf st i = .ok st') :
    ScanRun elf (done ++ [i]) st' := by
  obtain ⟨hlv, hlm, hvm⟩ := names_ne
  cases hg : getSec elf i with
  | none =>
    have hn : ∀ name, hasName elf name i = false := fun name => by simp [hasName, hg]
    simp only [scanSec, hg, Except.ok.injEq] at h
    subst h
    exact hr.skip (hn _) (hn _) (hn _) (by simp [symbolsIn, hg])
  | some sec =>
    have hn : ∀ name, hasName elf name i = decide (sec.name = name) := fun _ => hasName_of_getSec hg
    have hsec := getSec_eq hg
    simp only [scanSec, hg] at h
    by_cases h₁ : sec.name = licenseName
    · rw [if_pos h₁] at h
      obtain ⟨p, hp, h⟩ := bind_eq_ok h
      split_ifs at h
      cases h
      cases mark_eq_ok hp
      have hs : symbolsIn elf i = none := by simp [symbolsIn, hg, h₁]
      exact {
        license := by rw [lastData_snoc (by simp [hn, h₁]), hsec]
        version := by rw [lastData_skip (by simp [hn, h₁, hlv]), hr.version]
        processed := processed_mark hr.processed (by simp [hn, h₁])
        maps := by rw [filter_hasName_skip (by simp [hn, h₁, hlm]), hr.maps]
        symbols := by rw [lastSymbols_skip hs, hr.symbols] }
    rw [if_neg h₁] at h
    by_cases h₂ : sec.name = versionName
    · rw [if_pos h₂] at h
      obtain ⟨p, hp, h⟩ := bind_eq_ok h
      split_ifs at h
      cases h
      cases mark_eq_ok hp
      have hs : symbolsIn elf i = none := by simp [symbolsIn, hg, h₂]
      exact {
        license := by rw [lastData_skip (by simp [hn, h₁]), hr.license]
        version := by rw [lastData_snoc (by simp [hn, h₂]), hsec]
        processed := processed_mark hr.processed (by simp [hn, h₂])
        maps := by rw [filter_hasName_skip (by simp [hn, h₂, hvm]), hr.maps]
        symbols := by rw [lastSymbols_skip hs, hr.symbols] }
    rw [if_neg h₂] at h
    by_cases h₃ : sec.name = mapsName
    · rw [if_pos h₃] at h
      cases h
      have hs : symbolsIn elf i = none := by simp [symbolsIn, hg, h₃]
      exact {
        license := by rw [lastData_skip (by simp [hn, h₁]), hr.license]
        version := by rw [lastData_skip (by simp [hn, h₂]), hr.version]
        processed := processed_skip hr.processed (by simp [hn, h₁, h₂])
        maps := by
          rw [filter_hasName_snoc, if_pos (by simp [hn, h₃]), List.getLast?_concat, hsec]
          rfl
        symbols := by rw [lastSymbols_skip hs, hr.symbols] }
    rw [if_neg h₃] at h
    split at h <;> rename_i hc
    · rename_i syms
      cases h
      have hs : symbolsIn elf i = some syms := by simp [symbolsIn, hg, h₁, h₂, h₃, hc]
      exact {
        license := by rw [lastData_skip (by simp [hn, h₁]), hr.license]
        version := by rw [lastData_skip (by simp [hn, h₂]), hr.version]
        processed := processed_skip hr.processed (by simp [hn, h₁, h₂])
        maps := by rw [filter_hasName_skip (by simp [hn, h₃]), hr.maps]
        symbols := by simp [hs] }
    · cases h
      refine hr.skip (by simp [hn, h₁]) (by simp [hn, h₂]) (by simp [hn, h₃]) ?_
      simp only [symbolsIn, hg, h₁, h₂, h₃, or_self, if_false]

theorem scan_runs (h : (numbers elf).foldlM (scanSec elf) .start = .ok st) :
    ScanRun elf (numbers elf) st := by
  refine foldlM_runs (ScanRun elf) (fun _ _ _ _ _ hr h => scanSec_runs hr h) ?_ h
  exact ⟨rfl, rfl, by simp [Scan.start], rfl, rfl⟩

end Scan

/-! ## Maps -/

/-- `map_data[n]`, from a symbol of the section; `size` is what a definition has there. -/
structure MapOf (data : List Byte) (size n : Nat) (s : Sym) (m : MapData) : Prop where
  fd : m.fd = n
  name : m.name = s.name
  offset : m.elfOffset = s.value
  length : m.mapDef.length = mapDefSize
  copied : ∀ b, b < mapDefSize →
    m.mapDef[b]? = if b < size then data[s.value + b]? else some 0
  rest : ∀ b, mapDefSize ≤ b → b < size → data[s.value + b]? = some 0

/-- The maps of a file: the symbols in the section for them, in the order of their offsets. -/
def MapsOf (elf : Elf) (syms : List Sym) (maps : List MapData) : Prop :=
  match mapsSec elf with
  | none => maps = []
  | some s => ∃ sorted : List Sym, sorted.Perm (syms.filter (·.shndx = s)) ∧
      sorted.Pairwise (·.value ≤ ·.value) ∧ 0 < sorted.length ∧ sorted.length ≤ MAX_MAPS ∧
      maps.length = sorted.length ∧
      ∀ n sym, sorted[n]? = some sym → ∃ m, maps[n]? = some m ∧ Earlier n m ∧
        MapOf (secAt elf s).content.data
          ((secAt elf s).content.data.length / sorted.length) n sym m

section Maps

variable {data : List Byte} {size : Nat} {s : Sym} {m : MapData} {ms : List MapData} {g : Globals}

theorem copyDef_mapOf (h : copyDef data size s = .ok m) (n : Nat) :
    MapOf data size n s { m with fd := n } := by
  simp only [copyDef] at h
  split_ifs at h with hlen hz
  cases h
  have hraw : ((data.drop s.value).take size).length = size := by
    rw [List.length_take, List.length_drop]
    omega
  have hget : ∀ b, b < size → ((data.drop s.value).take size)[b]? = data[s.value + b]? := by
    intro b hb
    rw [List.getElem?_take, if_pos hb, List.getElem?_drop]
  refine ⟨rfl, rfl, rfl, ?_, ?_, ?_⟩
  · simp only [List.length_append, List.length_take, List.length_replicate, List.length_drop]
    omega
  · intro b hb
    dsimp only
    rw [List.getElem?_append, List.getElem?_take, List.length_take, hraw]
    by_cases hbs : b < size
    · rw [if_pos (by omega), if_pos hb, if_pos hbs, hget b hbs]
    · rw [if_neg (by omega), if_neg hbs, List.getElem?_replicate, if_pos (by omega)]
  · intro b hb hbs
    have hlt : s.value + b < data.length := by omega
    have hmem : data[s.value + b] ∈ ((data.drop s.value).take size).drop mapDefSize := by
      rw [List.mem_iff_getElem?]
      refine ⟨b - mapDefSize, ?_⟩
      rw [List.getElem?_drop, show mapDefSize + (b - mapDefSize) = b by omega, hget b hbs,
        List.getElem?_eq_getElem hlt]
    have hzero : data[s.value + b] = 0 := by
      by_contra hne
      exact hz (List.any_eq_true.2 ⟨_, hmem, by simpa using hne⟩)
    rw [List.getElem?_eq_getElem hlt, hzero]

theorem loadElfMapsSection_eq_ok {shndx : Nat} {syms : List Sym}
    (h : loadElfMapsSection shndx data syms = .ok ms) :
    ∃ sorted : List Sym, sorted.Perm (syms.filter (·.shndx = shndx)) ∧
      sorted.Pairwise (·.value ≤ ·.value) ∧ 0 < sorted.length ∧ sorted.length ≤ MAX_MAPS ∧
      List.Forall₂ (fun s m => copyDef data (data.length / sorted.length) s = .ok m) sorted ms := by
  rw [loadElfMapsSection] at h
  split_ifs at h with hbad
  refine ⟨_, List.mergeSort_perm _ (fun a b => a.value ≤ b.value), ?_, by omega, by omega,
    mapM_eq_ok h⟩
  refine (List.pairwise_mergeSort ?_ ?_ _).imp fun h => of_decide_eq_true h
  · intro a b c
    simp only [decide_eq_true_eq]
    exact Nat.le_trans
  · intro a b
    simp only [Bool.or_eq_true, decide_eq_true_eq]
    exact Nat.le_total ..

theorem loadMaps_runs (h : ms.foldlM loadMap .start = .ok g) : MapsRun ms g := by
  refine foldlM_runs MapsRun (fun _ _ _ _ _ hr h => loadMap_runs hr h) ?_ h
  exact ⟨rfl, rfl, rfl, rfl, by simp⟩

end Maps

/-! ## The second time -/

section Reloc

variable {elf : Elf} {syms : List Sym} {maps : List MapData} {done : List Nat} {st st' : Reloc}
  {i j k : Nat}

theorem tables_snoc : tables elf (done ++ [i]) j = tables elf done j ++
    ((table elf i).bind fun t => if t.1 = j then some t.2 else none).toList := by
  simp only [tables, List.filterMap_append]
  congr 1
  cases h : table elf i with
  | none => simp [h]
  | some t => by_cases ht : t.1 = j <;> simp [h, ht]

theorem link_skip (h : ∀ rels, table elf i ≠ some (j, rels)) :
    link elf syms maps (done ++ [i]) j k = link elf syms maps done j k := by
  funext x
  rw [link, link, tables_snoc]
  cases ht : table elf i with
  | none => simp
  | some t =>
    have hj : t.1 ≠ j := by
      rintro rfl
      exact h t.2 ht
    simp [hj]

theorem link_snoc {rels : List Rel} (h : table elf i = some (j, rels)) (x : Insn) :
    link elf syms maps (done ++ [i]) j k x =
      resolve syms maps (secAt elf j).content.data rels k (link elf syms maps done j k x) := by
  rw [link, tables_snoc, h]
  simp [link]

theorem link_refers {x : Insn} (h : insnAt (secAt elf j).content.data k = some x) :
    Refers maps x (link elf syms maps done j k x) := by
  have key : ∀ (ts : List (List Rel)) (y : Insn), Refers maps x y → Refers maps x (ts.foldl
      (fun i rels => resolve syms maps (secAt elf j).content.data rels k i) y) := by
    intro ts
    induction ts with
    | nil => exact fun _ hy => hy
    | cons rels ts ih =>
      exact fun y hy => ih _ (hy.trans (resolve_refers (by rw [insnAt_code h, hy.code])))
  exact key _ x .refl

/-- What there is after the sections `done`. -/
structure RelocRun (elf : Elf) (syms : List Sym) (maps : List MapData) (done : List Nat)
    (st : Reloc) : Prop where
  processed : ∀ i ∈ numbers elf,
    (st.processed i = true ↔ aside elf i = true ∨ i ∈ done ∧ (table elf i).isSome = true)
  length : ∀ j, (st.data j).length = (secAt elf j).content.data.length
  opcode : ∀ j k, (st.data j)[8 * k]? = (secAt elf j).content.data[8 * k]?
  insn : ∀ j k, insnAt (st.data j) k =
    (insnAt (secAt elf j).content.data k).map (link elf syms maps done j k)

theorem RelocRun.skip (hr : RelocRun elf syms maps done st) (h : table elf i = none) :
    RelocRun elf syms maps (done ++ [i]) st where
  processed := by
    intro n hn
    rw [hr.processed n hn, List.mem_append, List.mem_singleton]
    refine or_congr_right ⟨fun h => ⟨.inl h.1, h.2⟩, ?_⟩
    rintro ⟨hd | rfl, ht⟩
    · exact ⟨hd, ht⟩
    · rw [h] at ht
      cases ht
  length := hr.length
  opcode := hr.opcode
  insn := by
    intro j k
    rw [hr.insn, link_skip fun rels hj => by rw [h] at hj; cases hj]

theorem RelocRun.apply (hr : RelocRun elf syms maps done st) {rels : List Rel} {insns : List Byte}
    (h : table elf i = some (j, rels))
    (hp : parseReloAndApply syms maps rels (st.data j) = .ok insns) :
    RelocRun elf syms maps (done ++ [i])
      ⟨Function.update st.processed i true, Function.update st.data j insns⟩ := by
  obtain ⟨hlen, hins⟩ := parseReloAndApply_exact hp
  constructor
  · intro n hn
    by_cases hni : n = i
    · subst hni
      simp [h]
    · simp [hr.processed n hn, hni]
  · intro j'
    by_cases hj : j' = j
    · subst hj
      simp [hlen, hr.length]
    · simp [Function.update_of_ne hj, hr.length]
  · intro j' k
    by_cases hj : j' = j
    · subst hj
      simp only [Function.update_self]
      rw [parseReloAndApply_opcode hp, hr.opcode]
    · simp only [Function.update_of_ne hj]
      exact hr.opcode j' k
  · intro j' k
    by_cases hj : j' = j
    · subst hj
      simp only [Function.update_self]
      rw [hins, resolve_congr (hr.opcode j'), hr.insn, Option.map_map]
      congr 1
      funext x
      exact (link_snoc h x).symm
    · simp only [Function.update_of_ne hj]
      rw [hr.insn, link_skip]
      intro rels' h'
      rw [h, Option.some.injEq, Prod.mk.injEq] at h'
      exact hj h'.1.symm

theorem marked_eq_ok {p : Nat → Bool} {b : Bool} (h : marked p i = .ok b) : b = p i := by
  rw [marked] at h
  split_ifs at h
  exact (Except.ok.inj h).symm

theorem not_mem_of_done (h : done ++ [i] <+: numbers elf) : i ∉ done := by
  have hnd : (done ++ [i]).Nodup := h.sublist.nodup List.nodup_range'
  intro hi
  exact (List.nodup_append.1 hnd).2.2 i hi i (List.mem_singleton_self i) rfl

theorem relocSec_runs (hpre : done ++ [i] <+: numbers elf) (hr : RelocRun elf syms maps done st)
    (h : relocSec elf syms maps st i = .ok st') : RelocRun elf syms maps (done ++ [i]) st' := by
  rw [relocSec] at h
  obtain ⟨b, hb, h⟩ := bind_eq_ok h
  cases marked_eq_ok hb
  have hproc : st.processed i = true ↔ aside elf i = true := by
    rw [hr.processed i (mem_of_done hpre)]
    exact or_iff_left fun hd => not_mem_of_done hpre hd.1
  by_cases ha : aside elf i = true
  · rw [if_pos (hproc.2 ha)] at h
    cases h
    exact hr.skip (by rw [table, if_pos ha])
  rw [if_neg fun hn => ha (hproc.1 hn)] at h
  cases hg : getSec elf i with
  | none =>
    rw [hg] at h
    cases h
    exact hr.skip (by simp [table, ha, hg])
  | some sec =>
    simp only [hg] at h
    split at h <;> rename_i hc
    · split at h <;> rename_i hgp
      · cases h
        exact hr.skip (by simp [table, ha, hg, hc, hgp])
      · split_ifs at h with hx
        · obtain ⟨p, hp, h⟩ := bind_eq_ok h
          obtain ⟨insns, hins, h⟩ := bind_eq_ok h
          cases h
          cases mark_eq_ok hp
          exact hr.apply (by simp [table, ha, hg, hc, hgp, hx]) hins
        · cases h
          exact hr.skip (by simp [table, ha, hg, hc, hgp, hx])
    · cases h
      refine hr.skip ?_
      simp only [table, ha, hg, Bool.false_eq_true, if_false]

end Reloc

/-! ## The third time -/

/-- The program that is loaded for section `j`. -/
def ProgOf (elf : Elf) (sc : Scan) (rl : Reloc) (j : Nat) (o : Obj) : Prop :=
  ∃ type, progType (secAt elf j).name = some type ∧
    o = .prog type (wholeInsns (rl.data j)) sc.license sc.kernVersion

/-- What there is after the sections `done`, with `g` before them. -/
structure LoadRun (elf : Elf) (sc : Scan) (rl : Reloc) (g : Globals) (done : List Nat)
    (st : Globals × Int) : Prop where
  progs : ∃ progs, st.1.objs = g.objs ++ progs ∧
    List.Forall₂ (ProgOf elf sc rl) (done.filter (loads elf)) progs
  progFd : st.1.progFd = List.range' g.objs.length (done.filter (loads elf)).length
  mapFd : st.1.mapFd = g.mapFd
  mapData : st.1.mapData = g.mapData
  ret : st.2 = if done.filter (loads elf) = [] then 1 else 0
  room : st.1.progFd.length ≤ MAX_PROGS

section Load

variable {attach : Attach} {elf : Elf} {sc : Scan} {rl : Reloc} {g : Globals} {done : List Nat}
  {st st' : Globals × Int} {i : Nat}

theorem LoadRun.skip (hr : LoadRun elf sc rl g done st) (h : loads elf i = false) :
    LoadRun elf sc rl g (done ++ [i]) st := by
  have hf : (done ++ [i]).filter (loads elf) = done.filter (loads elf) := by simp [h]
  obtain ⟨progs, progFd, mapFd, mapData, ret, room⟩ := hr
  rw [← hf] at progs progFd ret
  exact ⟨progs, progFd, mapFd, mapData, ret, room⟩

theorem loadAndAttach_eq_ok {g' : Globals} {event : Text} {prog : List Byte}
    (h : loadAndAttach attach sc g event prog = .ok g') :
    ∃ type, progType event = some type ∧ g.progFd.length ≠ MAX_PROGS ∧ g' = { g with
      objs := g.objs ++ [.prog type (wholeInsns prog) sc.license sc.kernVersion]
      progFd := g.progFd ++ [g.objs.length] } := by
  rw [loadAndAttach] at h
  split at h
  · cases h
  · rename_i type htype
    split at h
    · cases h
    · rename_i hmax
      dsimp only at h
      split at h
      · cases h
        exact ⟨type, htype, hmax, rfl⟩
      · cases h

theorem LoadRun.load (hr : LoadRun elf sc rl g done st) (h : loads elf i = true) {g' : Globals}
    (hl : loadAndAttach attach sc st.1 (secAt elf i).name (rl.data i) = .ok g') :
    LoadRun elf sc rl g (done ++ [i]) (g', 0) := by
  have hf : (done ++ [i]).filter (loads elf) = done.filter (loads elf) ++ [i] := by simp [h]
  obtain ⟨type, htype, hmax, rfl⟩ := loadAndAttach_eq_ok hl
  obtain ⟨progs, hobjs, hprogs⟩ := hr.progs
  have hle := hr.room
  refine ⟨⟨progs ++ [.prog type (wholeInsns (rl.data i)) sc.license sc.kernVersion], ?_, ?_⟩, ?_,
    hr.mapFd, hr.mapData, ?_, ?_⟩
  · rw [hobjs, List.append_assoc]
  · rw [hf]
    exact List.rel_append hprogs (.cons ⟨type, htype, rfl⟩ .nil)
  · dsimp only
    rw [hf, hr.progFd, hobjs, List.length_append, ← hprogs.length_eq, List.length_append,
      List.length_singleton, List.range'_concat, Nat.one_mul]
  · rw [hf, if_neg (by simp)]
  · dsimp only
    rw [List.length_append, List.length_singleton]
    omega

theorem isProgram_of_loads (h : loads elf i = true) : isProgram (secAt elf i).name = true := by
  simp only [loads, Bool.and_eq_true] at h
  cases hg : getSec elf i with
  | none => simp [hg] at h
  | some sec =>
    rw [← getSec_eq hg]
    simpa [hg] using h.2

theorem loadSec_runs
    (hp : ∀ i ∈ numbers elf,
      (rl.processed i = true ↔ aside elf i = true ∨ (table elf i).isSome = true))
    (hi : i ∈ numbers elf) (hr : LoadRun elf sc rl g done st)
    (h : loadSec attach elf sc rl st i = .ok st') : LoadRun elf sc rl g (done ++ [i]) st' := by
  rw [loadSec] at h
  obtain ⟨b, hb, h⟩ := bind_eq_ok h
  cases marked_eq_ok hb
  by_cases hm : rl.processed i = true
  · rw [if_pos hm] at h
    cases h
    refine hr.skip ?_
    rcases (hp i hi).1 hm with ha | ht
    · simp [loads, ha]
    · obtain ⟨t, ht⟩ := Option.isSome_iff_exists.1 ht
      simp [loads, ht]
  rw [if_neg hm] at h
  have hfree := mt (hp i hi).2 hm
  push Not at hfree
  cases hg : getSec elf i with
  | none =>
    rw [hg] at h
    cases h
    exact hr.skip (by simp [loads, hg])
  | some sec =>
    simp only [hg] at h
    split_ifs at h with hname
    · obtain ⟨g', hg', h⟩ := bind_eq_ok h
      cases h
      refine hr.load ?_ (getSec_eq hg ▸ hg')
      simp [loads, hg, hname, hfree.1, Option.not_isSome_iff_eq_none.1 hfree.2]
    · cases h
      exact hr.skip (by simp [loads, hg, hname])

end Load

/-! ## The whole -/

section Whole

variable {attach : Attach} {elf : Elf} {g : Globals} {ret : Int} {s : Nat}

/-- The program of section `j`, with the instructions of the file but for what is linked. -/
def Linked (elf : Elf) (syms : List Sym) (maps : List MapData) (license version : List Byte)
    (j : Nat) (o : Obj) : Prop :=
  ∃ type insns, o = .prog type insns license version ∧
    progType (secAt elf j).name = some type ∧
    insns.length = 8 * ((secAt elf j).content.data.length / 8) ∧
    ∀ k, insnAt insns k = (insnAt (secAt elf j).content.data k).map
      (link elf syms maps (numbers elf) j k)

theorem insnAt_wholeInsns (d : List Byte) (k : Nat) : insnAt (wholeInsns d) k = insnAt d k := by
  have hlen : (wholeInsns d).length = 8 * (d.length / 8) := by
    rw [wholeInsns, List.length_take]
    omega
  by_cases hk : 8 * k + 8 ≤ d.length
  · refine insnAt_congr fun j _ hj => ?_
    rw [wholeInsns, List.getElem?_take, if_pos (by omega)]
  · rw [insnAt_eq_none (by omega), insnAt_eq_none (by omega)]

theorem ProgOf.linked {syms : List Sym} {maps : List MapData} {sc : Scan} {rl : Reloc} {j : Nat}
    {o : Obj} (hr : RelocRun elf syms maps (numbers elf) rl) (h : ProgOf elf sc rl j o) :
    Linked elf syms maps sc.license sc.kernVersion j o := by
  obtain ⟨type, htype, rfl⟩ := h
  refine ⟨type, _, rfl, htype, ?_, fun k => ?_⟩
  · rw [wholeInsns, List.length_take, hr.length]
    omega
  · rw [insnAt_wholeInsns, hr.insn]

/-- The three times one after the other. -/
structure Runs (elf : Elf) (g : Globals) (ret : Int) (syms : List Sym) (sc : Scan) (g₁ : Globals)
    (rl : Reloc) : Prop where
  symbols : symbols elf = some syms
  scan : ScanRun elf (numbers elf) sc
  maps : ∃ processed, makeMaps sc syms = .ok (g₁, processed)
  reloc : RelocRun elf syms g₁.mapData (numbers elf) rl
  load : LoadRun elf sc rl g₁ (numbers elf) (g, ret)

theorem makeMaps_runs {sc : Scan} {syms : List Sym} {processed : Nat → Bool}
    (hs : ScanRun elf (numbers elf) sc) (h : makeMaps sc syms = .ok (g, processed)) :
    (∃ ms, MapsRun ms g) ∧ ∀ i ∈ numbers elf, (processed i = true ↔ aside elf i = true) := by
  have hproc : ∀ i ∈ numbers elf, (sc.processed i = true ↔
      (hasName elf licenseName i || hasName elf versionName i) = true) := by
    intro i hi
    rw [hs.processed, Bool.or_eq_true]
    exact and_iff_right hi
  rw [makeMaps] at h
  cases hm : mapsSec elf with
  | none =>
    have hsc : sc.maps = none := by rw [hs.maps, ← mapsSec, hm]; rfl
    rw [hsc] at h
    cases h
    refine ⟨⟨[], rfl, rfl, rfl, rfl, by simp⟩, fun i hi => ?_⟩
    rw [hproc i hi, aside, hm]
    simp
  | some s =>
    have hsc : sc.maps = some (s, (secAt elf s).content.data) := by rw [hs.maps, ← mapsSec, hm]; rfl
    rw [hsc] at h
    dsimp only at h
    obtain ⟨ms, _, h⟩ := bind_eq_ok h
    obtain ⟨g₁, hg, h⟩ := bind_eq_ok h
    obtain ⟨p, hp, h⟩ := bind_eq_ok h
    cases h
    cases mark_eq_ok hp
    refine ⟨⟨ms, loadMaps_runs hg⟩, fun i hi => ?_⟩
    rw [aside, hm]
    by_cases his : i = s
    · subst his
      simp
    · rw [Function.update_of_ne his, hproc i hi]
      simp [Ne.symm his]

theorem doLoadBpfFile_runs (h : doLoadBpfFile attach elf = .ok (g, ret)) :
    ∃ syms sc g₁ rl, Runs elf g ret syms sc g₁ rl := by
  rw [doLoadBpfFile] at h
  obtain ⟨sc, hsc, h⟩ := bind_eq_ok h
  have hs := scan_runs hsc
  split at h
  · cases h
  · rename_i syms hsym
    obtain ⟨⟨g₁, processed⟩, hmaps, h⟩ := bind_eq_ok h
    obtain ⟨rl, hrl, h⟩ := bind_eq_ok h
    obtain ⟨⟨ms, hms⟩, hproc⟩ := makeMaps_runs hs hmaps
    have hreloc : RelocRun elf syms g₁.mapData (numbers elf) rl := by
      refine foldlM_runs (RelocRun elf syms g₁.mapData)
        (fun _ _ _ _ hpre hr h => relocSec_runs hpre hr h) ?_ hrl
      refine ⟨fun i hi => by simp [hproc i hi], fun _ => rfl, fun _ _ => rfl, fun j k => ?_⟩
      have hid : link elf syms g₁.mapData [] j k = id := rfl
      rw [hid, Option.map_id_fun, id]
    refine ⟨syms, sc, g₁, rl, ?_, hs, ⟨processed, hmaps⟩, hreloc, ?_⟩
    · rw [symbols, ← hs.symbols, hsym]
    · refine foldlM_runs (LoadRun elf sc rl g₁) (fun _ _ _ _ hpre hr h => ?_) ?_ h
      · refine loadSec_runs (fun i hi => ?_) (mem_of_done hpre) hr h
        rw [hreloc.processed i hi, and_iff_right hi]
      · exact ⟨⟨[], by simp, .nil⟩, hms.progFd, rfl, rfl, rfl, by simp [hms.progFd]⟩

section Runs

variable {syms : List Sym} {sc : Scan} {g₁ : Globals} {rl : Reloc}

theorem Runs.mapsRun (hr : Runs elf g ret syms sc g₁ rl) :
    ∃ ms, MapsRun ms g₁ ∧ g.mapData = ms.mapIdx fun n m => { m with fd := n } := by
  obtain ⟨processed, hmaps⟩ := hr.maps
  obtain ⟨⟨ms, hms⟩, -⟩ := makeMaps_runs hr.scan hmaps
  exact ⟨ms, hms, hr.load.mapData.trans hms.mapData⟩

/-- The objects are the maps, and then the programs. -/
theorem Runs.objs (hr : Runs elf g ret syms sc g₁ rl) :
    g₁.objs = g.mapData.map mapObj ∧ ∃ progs, g.objs = g.mapData.map mapObj ++ progs ∧
      List.Forall₂ (ProgOf elf sc rl) ((numbers elf).filter (loads elf)) progs := by
  obtain ⟨ms, hms, hdata⟩ := hr.mapsRun
  obtain ⟨progs, hobjs, hprogs⟩ := hr.load.progs
  have hobj : g₁.objs = g.mapData.map mapObj := by
    rw [hms.objs, hdata]
    refine List.ext_getElem? fun n => ?_
    simp only [List.getElem?_map, List.getElem?_mapIdx, Option.map_map]
    rfl
  exact ⟨hobj, progs, by rw [← hobj]; exact hobjs, hprogs⟩

theorem Runs.mapsOf (hr : Runs elf g ret syms sc g₁ rl) : MapsOf elf syms g.mapData := by
  obtain ⟨processed, hmaps⟩ := hr.maps
  have hsc := hr.scan.maps
  rw [← mapsSec] at hsc
  rw [MapsOf, hr.load.mapData]
  cases hs : mapsSec elf with
  | none =>
    rw [makeMaps, hsc, hs] at hmaps
    cases hmaps
    rfl
  | some s =>
    rw [makeMaps, hsc, hs] at hmaps
    obtain ⟨ms, hsec, hmaps⟩ := bind_eq_ok hmaps
    obtain ⟨g₂, hg, hmaps⟩ := bind_eq_ok hmaps
    obtain ⟨p, hp, hmaps⟩ := bind_eq_ok hmaps
    cases hmaps
    have hms := loadMaps_runs hg
    obtain ⟨sorted, hperm, hsorted, hpos, hmax, hcopy⟩ := loadElfMapsSection_eq_ok hsec
    refine ⟨sorted, hperm, hsorted, hpos, hmax, ?_, fun n sym hn => ?_⟩
    · rw [hms.mapData, List.length_mapIdx, hcopy.length_eq]
    · obtain ⟨hlt, rfl⟩ := List.getElem?_eq_some_iff.1 hn
      have hlt' : n < ms.length := hcopy.length_eq ▸ hlt
      refine ⟨{ ms[n] with fd := n }, ?_, ?_, copyDef_mapOf (hcopy.get hlt hlt') n⟩
      · rw [hms.mapData, List.getElem?_mapIdx, List.getElem?_eq_getElem hlt']
        rfl
      · exact hms.earlier n ms[n] (List.getElem?_eq_getElem hlt')

end Runs

/-- Whatever object file is loaded, the objects are its maps and, in the order of the sections, the
programs, with every instruction as the relocations for its section make it. A second licence would
be copied over the first. -/
theorem load_exact (h : doLoadBpfFile attach elf = .ok (g, ret)) :
    ∃ syms license version progs, symbols elf = some syms ∧
      (((numbers elf).filter (hasName elf licenseName)).length ≤ 1 →
        license = lastData elf licenseName (numbers elf)) ∧
      (((numbers elf).filter (hasName elf versionName)).length ≤ 1 →
        version = lastData elf versionName (numbers elf)) ∧
      MapsOf elf syms g.mapData ∧ g.objs = g.mapData.map mapObj ++ progs ∧
      List.Forall₂ (Linked elf syms g.mapData license version)
        ((numbers elf).filter (loads elf)) progs ∧
      g.mapFd = List.range g.mapData.length ∧
      g.progFd = List.range' g.mapData.length progs.length ∧
      ret = if progs = [] then 1 else 0 := by
  obtain ⟨syms, sc, g₁, rl, hr⟩ := doLoadBpfFile_runs h
  obtain ⟨ms, hms, hdata⟩ := hr.mapsRun
  obtain ⟨hobj, progs, hobjs, hprogs⟩ := hr.objs
  have hlen : g.mapData.length = ms.length := by rw [hdata, List.length_mapIdx]
  refine ⟨syms, sc.license, sc.kernVersion, progs, hr.symbols, fun _ => hr.scan.license,
    fun _ => hr.scan.version, hr.mapsOf, hobjs, ?_, ?_, ?_, ?_⟩
  · rw [hr.load.mapData]
    exact hprogs.imp fun j o ho => ho.linked hr.reloc
  · rw [hlen, ← hms.mapFd]
    exact hr.load.mapFd
  · have hfd := hr.load.progFd
    rwa [hobj, List.length_map, hprogs.length_eq] at hfd
  · have hnil : (numbers elf).filter (loads elf) = [] ↔ progs = [] := by
      rw [← List.length_eq_zero_iff, ← List.length_eq_zero_iff, hprogs.length_eq]
    simp only [← hnil]
    exact hr.load.ret

/-- An instruction that has been loaded is the one of the object file, or one that loads the
descriptor of a map of this file where the object file has a load. -/
theorem loaded_refers (h : doLoadBpfFile attach elf = .ok (g, ret)) {fd : Nat} {type : ProgType}
    {insns license version : List Byte}
    (ho : g.objs[fd]? = some (.prog type insns license version)) :
    ∃ j ∈ numbers elf, isProgram (secAt elf j).name = true ∧
      insns.length = 8 * ((secAt elf j).content.data.length / 8) ∧
      ∀ k i, insnAt insns k = some i →
        ∃ i₀, insnAt (secAt elf j).content.data k = some i₀ ∧ Refers g.mapData i₀ i := by
  obtain ⟨syms, sc, g₁, rl, hr⟩ := doLoadBpfFile_runs h
  obtain ⟨-, progs, hobjs, hprogs⟩ := hr.objs
  rw [hobjs, List.getElem?_append, List.getElem?_map] at ho
  split_ifs at ho with hfd
  · rw [List.length_map] at hfd
    rw [List.getElem?_eq_getElem hfd] at ho
    cases ho
  · obtain ⟨hlt, hget⟩ := List.getElem?_eq_some_iff.1 ho
    have hlt' := hprogs.length_eq.symm ▸ hlt
    obtain ⟨type', insns', heq, -, hlen, hins⟩ := (hprogs.get hlt' hlt).linked hr.reloc
    rw [List.get_eq_getElem, hget] at heq
    cases heq
    have hmem := List.mem_filter.1 (List.get_mem _ ⟨_, hlt'⟩)
    refine ⟨_, hmem.1, isProgram_of_loads hmem.2, hlen, fun k i hi => ?_⟩
    rw [hins] at hi
    obtain ⟨i₀, h₀, rfl⟩ := Option.map_eq_some_iff.1 hi
    have hd : g.mapData = g₁.mapData := hr.load.mapData
    exact ⟨i₀, h₀, hd ▸ link_refers h₀⟩

/-- The maps of a file with a section for them are its symbols in the order of their offsets, and a
map of maps refers to one before it. -/
theorem maps_exact (h : doLoadBpfFile attach elf = .ok (g, ret)) (hs : mapsSec elf = some s) :
    ∃ (syms sorted : List Sym), symbols elf = some syms ∧
      sorted.Perm (syms.filter (·.shndx = s)) ∧ sorted.Pairwise (·.value ≤ ·.value) ∧
      0 < sorted.length ∧ sorted.length ≤ MAX_MAPS ∧ g.mapData.length = sorted.length ∧
      ∀ n sym, sorted[n]? = some sym → ∃ m, g.mapData[n]? = some m ∧
        MapOf (secAt elf s).content.data
          ((secAt elf s).content.data.length / sorted.length) n sym m ∧
        g.objs[n]? = some (mapObj m) ∧ (mapOfMaps m.mapDef = true → word m.mapDef 5 < n) := by
  obtain ⟨syms, sc, g₁, rl, hr⟩ := doLoadBpfFile_runs h
  obtain ⟨-, progs, hobjs, -⟩ := hr.objs
  have hmaps := hr.mapsOf
  rw [MapsOf, hs] at hmaps
  obtain ⟨sorted, hperm, hsorted, hpos, hmax, hlen, hall⟩ := hmaps
  refine ⟨syms, sorted, hr.symbols, hperm, hsorted, hpos, hmax, hlen, fun n sym hn => ?_⟩
  obtain ⟨m, hm, hearlier, hof⟩ := hall n sym hn
  refine ⟨m, hm, hof, ?_, hearlier⟩
  have hlt : n < (g.mapData.map mapObj).length := by
    rw [List.length_map]
    exact (List.getElem?_eq_some_iff.1 hm).1
  rw [hobjs, List.getElem?_append_left hlt, List.getElem?_map, hm]
  rfl

end Whole

/-- The symbols of two maps, not in the order of their offsets. -/
def pairSyms : List Sym := [⟨[], 0, 0⟩, ⟨"outer".toList, 2, 28⟩, ⟨"inner".toList, 2, 0⟩]

/-- A hash table. -/
def innerDef : List Byte := 1 :: List.replicate 27 0

/-- An array of maps like the one with the number 0. -/
def outerDef : List Byte := 12 :: List.replicate 27 0

/-- A policy that uses both maps. -/
def pairObject : Elf :=
  [.null,
    ⟨licenseName, false, 0, .bytes [71, 80, 76, 0]⟩,
    ⟨mapsName, false, 0, .bytes (innerDef ++ outerDef)⟩,
    ⟨"lock/1".toList, true, 0,
      .bytes (0x18 :: 0x02 :: List.replicate 14 0 ++ 0x18 :: 0x03 :: List.replicate 14 0)⟩,
    ⟨".rellock/1".toList, false, 3, .rel [⟨0, 1⟩, ⟨16, 2⟩]⟩,
    ⟨".symtab".toList, false, 0, .symtab pairSyms⟩]

theorem pairSyms_sorted : (pairSyms.filter (·.shndx = 2)).mergeSort (fun a b => a.value ≤ b.value) =
    [⟨"inner".toList, 2, 0⟩, ⟨"outer".toList, 2, 28⟩] := by
  simp [pairSyms, List.mergeSort, List.MergeSort.Internal.splitInTwo]

theorem pairSyms_maps : loadElfMapsSection 2 (innerDef ++ outerDef) pairSyms =
    .ok [⟨0, "inner".toList, 0, innerDef⟩, ⟨0, "outer".toList, 28, outerDef⟩] := by
  rw [loadElfMapsSection, pairSyms_sorted]
  rfl

theorem pairObject_loads : ∃ g, doLoadBpfFile (fun _ _ _ => false) pairObject = .ok (g, 0) ∧
    g.mapData = [⟨0, "inner".toList, 0, innerDef⟩, ⟨1, "outer".toList, 28, outerDef⟩] ∧
    ∃ insns, g.objs[2]? = some (.prog .lockPolicy insns [71, 80, 76, 0] []) ∧
      (insnAt insns 0).map (·.imm) = some 1 ∧ (insnAt insns 2).map (·.imm) = some 0 := by
  obtain ⟨sc, hsc, rfl⟩ : ∃ sc,
      (numbers pairObject).foldlM (scanSec pairObject) .start = .ok sc ∧
      sc = ⟨[71, 80, 76, 0], [], Function.update (fun _ => false) 1 true,
        some (2, innerDef ++ outerDef), some pairSyms⟩ := ⟨_, rfl, rfl⟩
  rw [doLoadBpfFile, hsc]
  simp only [bind, Except.bind, makeMaps]
  rw [pairSyms_maps]
  exact ⟨_, rfl, rfl, _, rfl, rfl, rfl⟩

theorem load_exact_pair : ∃ g progs, doLoadBpfFile (fun _ _ _ => false) pairObject = .ok (g, 0) ∧
    MapsOf pairObject pairSyms g.mapData ∧ g.objs = g.mapData.map mapObj ++ progs ∧
    List.Forall₂ (Linked pairObject pairSyms g.mapData [71, 80, 76, 0] []) [3] progs := by
  obtain ⟨g, h, -⟩ := pairObject_loads
  obtain ⟨syms, license, version, progs, hsyms, hlic, hver, hmaps, hobjs, hprogs, -⟩ :=
    load_exact h
  cases hsyms
  cases hlic (by decide)
  cases hver (by decide)
  exact ⟨g, progs, h, hmaps, hobjs, hprogs⟩

theorem loaded_refers_pair : ∃ g insns, doLoadBpfFile (fun _ _ _ => false) pairObject = .ok (g, 0) ∧
    g.objs[2]? = some (.prog .lockPolicy insns [71, 80, 76, 0] []) ∧
    ∃ j ∈ numbers pairObject, isProgram (secAt pairObject j).name = true ∧
      ∀ k i, insnAt insns k = some i →
        ∃ i₀, insnAt (secAt pairObject j).content.data k = some i₀ ∧ Refers g.mapData i₀ i := by
  obtain ⟨g, h, -, insns, hprog, -⟩ := pairObject_loads
  obtain ⟨j, hj, hname, -, hins⟩ := loaded_refers h hprog
  exact ⟨g, insns, h, hprog, j, hj, hname, hins⟩

/-- The second map is an array of maps like the first. -/
theorem maps_exact_pair : ∃ g, doLoadBpfFile (fun _ _ _ => false) pairObject = .ok (g, 0) ∧
    g.objs[0]? = some (.map "inner".toList innerDef none) ∧
    g.objs[1]? = some (.map "outer".toList outerDef (some 0)) ∧
    mapOfMaps outerDef = true ∧ word outerDef 5 < 1 := by
  obtain ⟨g, h, hdata, -⟩ := pairObject_loads
  obtain ⟨syms, sorted, hsyms, -, -, -, -, hlen, hall⟩ := maps_exact (s := 2) h rfl
  have hsorted : ∀ n, n < 2 → ∃ sym, sorted[n]? = some sym := by
    intro n hn
    rw [hdata] at hlen
    have hlt : n < sorted.length := by rw [← hlen]; exact hn
    exact ⟨_, List.getElem?_eq_getElem hlt⟩
  obtain ⟨_, h₀⟩ := hsorted 0 (by decide)
  obtain ⟨_, h₁⟩ := hsorted 1 (by decide)
  obtain ⟨m₀, hm₀, -, ho₀, -⟩ := hall 0 _ h₀
  obtain ⟨m₁, hm₁, -, ho₁, hlt⟩ := hall 1 _ h₁
  rw [hdata] at hm₀ hm₁
  cases hm₀
  cases hm₁
  exact ⟨g, h, ho₀, ho₁, by decide, hlt (by decide)⟩

end Bpf
end SynCord
