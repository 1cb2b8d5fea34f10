import SynCord.Bpf.Load

/-!
# SynCord.Bpf.Passes

What the loader makes of an object file as the compiler writes it (`Object`), one statement for each
time it goes over the sections.

* `scan_spec` — the licence, the maps and the symbols are found.
* `makeMaps_spec` — the maps are made in the order of their offsets.
* `reloc_spec` — every program has its own relocations done to it, and no other ones.
* `load_spec` — the programs are loaded in the order of their sections.
-/

namespace SynCord
namespace Bpf

/-- What the loader has room for. A `version` is one integer; an empty one is passed over. -/
structure Fits (elf : Elf) (syms : List Sym) : Prop where
  sections : elf.length ≤ processedSize
  license : ∀ i ∈ numbers elf, (secAt elf i).name = licenseName →
    (secAt elf i).content.size ≤ licenseSize
  version : ∀ i ∈ numbers elf, (secAt elf i).name = versionName →
    (secAt elf i).content.size = 4 ∨ (secAt elf i).content.size = 0
  maps : ∀ i ∈ numbers elf, (secAt elf i).name = mapsName →
    (syms.filter (·.shndx = i)).length ≤ MAX_MAPS

/-- The definition that a symbol of the section points to. -/
def defAt (data : List Byte) (s : Sym) : List Byte := (data.drop s.value).take mapDefSize

/-- An object file as it is compiled with the headers of the loader. A relocation is for an
instruction of its section and names one of the symbols. -/
structure Object (elf : Elf) (syms : List Sym) : Prop where
  symtab : ∃ i ∈ numbers elf, (secAt elf i).content = .symtab syms
  symtab_ne : syms ≠ []
  symtab_only : ∀ i l, (secAt elf i).content = .symtab l → l = syms
  license : ∀ i, (secAt elf i).name = licenseName →
    ∃ data, data ≠ [] ∧ (secAt elf i).content = .bytes data
  version : ∀ i, (secAt elf i).name = versionName → ∃ data, (secAt elf i).content = .bytes data
  program : ∀ i, isProgram (secAt elf i).name = true →
    (secAt elf i).exec = true ∧ ∃ data, data ≠ [] ∧ (secAt elf i).content = .bytes data
  /-- Nothing but definitions of maps, and none of a map of maps. -/
  maps : ∀ i, (secAt elf i).name = mapsName → ∃ data, (secAt elf i).content = .bytes data ∧
    syms.filter (·.shndx = i) ≠ [] ∧
    data.length = mapDefSize * (syms.filter (·.shndx = i)).length ∧
    ∀ s ∈ syms.filter (·.shndx = i),
      s.value + mapDefSize ≤ data.length ∧ mapOfMaps (defAt data s) = false
  rels : ∀ i rels, (secAt elf i).content = .rel rels →
    (secAt elf (secAt elf i).info).exec = true → ∀ r ∈ rels, r.sym < syms.length ∧
      8 * (r.offset / 8) + 8 ≤ (secAt elf (secAt elf i).info).content.data.length

section Sections

variable {elf : Elf} {syms : List Sym} {i : Nat}

theorem mem_numbers : i ∈ numbers elf ↔ 1 ≤ i ∧ i < elf.length := by
  rw [numbers, List.mem_range'_1]
  omega

theorem mem_of_done {done : List Nat} (h : done ++ [i] <+: numbers elf) : i ∈ numbers elf :=
  h.subset (List.mem_append_right done (List.mem_singleton_self i))

theorem Fits.lt (hfit : Fits elf syms) (hi : i ∈ numbers elf) : i < processedSize :=
  Nat.lt_of_lt_of_le (mem_numbers.1 hi).2 hfit.sections

theorem getSec_some (h : (secAt elf i).content.size ≠ 0) : getSec elf i = some (secAt elf i) :=
  if_neg h

theorem getSec_none (h : (secAt elf i).content.size = 0) : getSec elf i = none := if_pos h

theorem mark_ok {p : Nat → Bool} (h : i < processedSize) :
    mark p i = .ok (Function.update p i true) := if_pos h

theorem marked_ok {p : Nat → Bool} (h : i < processedSize) : marked p i = .ok (p i) := if_pos h

end Sections

/-! ## The first time -/

section Scan

variable {elf : Elf} {syms : List Sym} {done : List Nat} {sc : Scan} {i : Nat}

theorem scanSec_license (hi : i < processedSize) (hn : (secAt elf i).name = licenseName)
    (hs : (secAt elf i).content.size ≠ 0) (hl : (secAt elf i).content.size ≤ licenseSize) :
    scanSec elf sc i = .ok { sc with
      processed := Function.update sc.processed i true
      license := (secAt elf i).content.data } := by
  rw [scanSec, getSec_some hs]
  simp only [hn, if_true, mark_ok hi]
  exact if_neg (Nat.not_lt.2 hl)

theorem scanSec_version (hfit : Fits elf syms) (hi : i ∈ numbers elf)
    (hn : (secAt elf i).name = versionName) (hs : (secAt elf i).content.size ≠ 0) :
    scanSec elf sc i = .ok { sc with
      processed := Function.update sc.processed i true
      kernVersion := (secAt elf i).content.data } := by
  rw [scanSec, getSec_some hs]
  simp only [hn, if_true, mark_ok (hfit.lt hi)]
  exact if_neg (not_not.2 ((hfit.version i hi hn).resolve_right hs))

theorem scanSec_maps (hn : (secAt elf i).name = mapsName) (hs : (secAt elf i).content.size ≠ 0) :
    scanSec elf sc i = .ok { sc with maps := some (i, (secAt elf i).content.data) } := by
  rw [scanSec, getSec_some hs]
  simp only [hn, if_true]
  rfl

theorem Object.maps_size (ho : Object elf syms) (hn : (secAt elf i).name = mapsName) :
    (secAt elf i).content.size ≠ 0 := by
  obtain ⟨data, hc, hne, hlen, -⟩ := ho.maps i hn
  have hpos := List.length_pos_iff.2 hne
  rw [hc, Content.size, hlen, mapDefSize]
  omega

theorem Object.maps_ne_symtab (ho : Object elf syms) (hn : (secAt elf i).name = mapsName) :
    (secAt elf i).content ≠ .symtab syms := by
  obtain ⟨data, hb, -⟩ := ho.maps i hn
  rw [hb]
  rintro ⟨⟩

theorem scanSec_symtab (ho : Object elf syms) (hc : (secAt elf i).content = .symtab syms) :
    scanSec elf sc i = .ok { sc with symbols := some syms } := by
  have hlic : (secAt elf i).name ≠ licenseName := fun h => by
    obtain ⟨data, -, hb⟩ := ho.license i h
    rw [hb] at hc
    cases hc
  have hver : (secAt elf i).name ≠ versionName := fun h => by
    obtain ⟨data, hb⟩ := ho.version i h
    rw [hb] at hc
    cases hc
  have hmaps : (secAt elf i).name ≠ mapsName := fun h => ho.maps_ne_symtab h hc
  have hsize : (secAt elf i).content.size ≠ 0 := by
    have := List.length_pos_iff.2 ho.symtab_ne
    rw [hc, Content.size]
    omega
  rw [scanSec, getSec_some hsize]
  simp only [if_neg hlic, if_neg hver, if_neg hmaps, hc]

theorem scanSec_other (ho : Object elf syms) (hlic : (secAt elf i).name ≠ licenseName)
    (hver : (secAt elf i).name ≠ versionName) (hmaps : (secAt elf i).name ≠ mapsName)
    (hc : (secAt elf i).content ≠ .symtab syms) : scanSec elf sc i = .ok sc := by
  by_cases hs : (secAt elf i).content.size = 0
  · rw [scanSec, getSec_none hs]
  · rw [scanSec, getSec_some hs]
    simp only [if_neg hlic, if_neg hver, if_neg hmaps]
    split
    · rename_i l hl
      exact absurd (ho.symtab_only i l hl ▸ hl) hc
    · rfl

/-- What is known when the sections `done` have been looked at. -/
structure Scanned (elf : Elf) (syms : List Sym) (done : List Nat) (sc : Scan) : Prop where
  processed : ∀ i, sc.processed i = true →
    (secAt elf i).name = licenseName ∨ (secAt elf i).name = versionName
  symbols : ∀ i ∈ done, (secAt elf i).content = .symtab syms → sc.symbols = some syms
  maps : ∀ i d, sc.maps = some (i, d) →
    (secAt elf i).name = mapsName ∧ (secAt elf i).content.data = d ∧ i ∈ numbers elf
  found : ∀ i ∈ done, (secAt elf i).name = mapsName → sc.maps ≠ none

theorem scanned_start : Scanned elf syms [] .start where
  processed := fun _ h => by cases h
  symbols := fun _ h => by cases h
  maps := fun _ _ h => by cases h
  found := fun _ h => by cases h

/-- A section that is neither the maps nor the symbols. -/
theorem Scanned.keep (hs : Scanned elf syms done sc) (hmaps : (secAt elf i).name ≠ mapsName)
    (hc : (secAt elf i).content ≠ .symtab syms) : Scanned elf syms (done ++ [i]) sc where
  processed := hs.processed
  symbols := List.forall_mem_append.2 ⟨hs.symbols, List.forall_mem_singleton.2 fun h =>
    absurd h hc⟩
  maps := hs.maps
  found := List.forall_mem_append.2 ⟨hs.found, List.forall_mem_singleton.2 fun h =>
    absurd h hmaps⟩

theorem Scanned.mark (hs : Scanned elf syms done sc)
    (hn : (secAt elf i).name = licenseName ∨ (secAt elf i).name = versionName)
    (license kernVersion : List Byte) :
    Scanned elf syms done { sc with
      processed := Function.update sc.processed i true
      license := license
      kernVersion := kernVersion } where
  processed := by
    intro k hk
    by_cases hki : k = i
    · exact hki ▸ hn
    · exact hs.processed k (by simpa [Function.update_of_ne hki] using hk)
  symbols := hs.symbols
  maps := hs.maps
  found := hs.found

theorem Scanned.step (ho : Object elf syms) (hfit : Fits elf syms) (hs : Scanned elf syms done sc)
    (hi : i ∈ numbers elf) :
    ∃ sc', scanSec elf sc i = .ok sc' ∧ Scanned elf syms (done ++ [i]) sc' := by
  by_cases hc : (secAt elf i).content = .symtab syms
  · have hmaps : (secAt elf i).name ≠ mapsName := fun h => ho.maps_ne_symtab h hc
    exact ⟨_, scanSec_symtab ho hc, hs.processed, fun _ _ _ => rfl, hs.maps,
      List.forall_mem_append.2 ⟨hs.found, List.forall_mem_singleton.2 fun h => absurd h hmaps⟩⟩
  · by_cases hmaps : (secAt elf i).name = mapsName
    · refine ⟨_, scanSec_maps hmaps (ho.maps_size hmaps), hs.processed, ?_, ?_,
        fun _ _ _ h => by cases h⟩
      · exact List.forall_mem_append.2 ⟨hs.symbols, List.forall_mem_singleton.2 fun h =>
          absurd h hc⟩
      · rintro k d ⟨⟩
        exact ⟨hmaps, rfl, hi⟩
    · have hkeep := hs.keep hmaps hc
      by_cases hsize : (secAt elf i).content.size = 0
      · exact ⟨sc, by rw [scanSec, getSec_none hsize], hkeep⟩
      · by_cases hlic : (secAt elf i).name = licenseName
        · exact ⟨_, scanSec_license (hfit.lt hi) hlic hsize (hfit.license i hi hlic),
            hkeep.mark (.inl hlic) _ _⟩
        · by_cases hver : (secAt elf i).name = versionName
          · exact ⟨_, scanSec_version hfit hi hver hsize, hkeep.mark (.inr hver) _ _⟩
          · exact ⟨sc, scanSec_other ho hlic hver hmaps hc, hkeep⟩

theorem scan_spec (ho : Object elf syms) (hfit : Fits elf syms) :
    ∃ sc, (numbers elf).foldlM (scanSec elf) .start = .ok sc ∧
      Scanned elf syms (numbers elf) sc :=
  foldlM_total (Scanned elf syms)
    (fun _ _ _ hpre hs => hs.step ho hfit (mem_of_done hpre)) scanned_start

end Scan

/-! ## Maps -/

/-- The map made for `m`. Descriptors of maps are their numbers. -/
def mapObj (m : MapData) : Obj :=
  .map m.name m.mapDef (if mapOfMaps m.mapDef then some (word m.mapDef 5) else none)

/-- Map `n` refers to one that is there already, if it is one of maps. -/
def Earlier (n : Nat) (m : MapData) : Prop := mapOfMaps m.mapDef = true → word m.mapDef 5 < n

section MapsRun

variable {m : MapData} {ms done : List MapData} {g g' : Globals}

/-- What there is after the maps `done`. -/
structure MapsRun (done : List MapData) (g : Globals) : Prop where
  mapData : g.mapData = done.mapIdx fun n m => { m with fd := n }
  objs : g.objs = done.map mapObj
  mapFd : g.mapFd = List.range done.length
  progFd : g.progFd = []
  earlier : ∀ n m, done[n]? = some m → Earlier n m

/-- What a map can be made with. -/
theorem loadMap_eq_ok (h : loadMap g m = .ok g') :
    (mapOfMaps m.mapDef = true ∧ ∃ innerFd, g.mapFd[word m.mapDef 5]? = some innerFd ∧
      g' = g.addMap m (some innerFd)) ∨
    (mapOfMaps m.mapDef = false ∧ g' = g.addMap m none) := by
  rw [loadMap] at h
  cases hm : mapOfMaps m.mapDef with
  | false =>
    rw [hm] at h
    cases h
    exact .inr ⟨rfl, rfl⟩
  | true =>
    rw [hm, if_pos rfl] at h
    dsimp only at h
    split_ifs at h
    split at h
    · cases h
    · cases h
      exact .inl ⟨rfl, _, ‹_›, rfl⟩

theorem MapsRun.addMap (hr : MapsRun done g) {innerFd : Option Nat}
    (hobj : Obj.map m.name m.mapDef innerFd = mapObj m) (hm : Earlier done.length m) :
    MapsRun (done ++ [m]) (g.addMap m innerFd) := by
  have hlen : g.objs.length = done.length := by rw [hr.objs, List.length_map]
  refine ⟨?_, ?_, ?_, hr.progFd, ?_⟩
  · rw [Globals.addMap, List.mapIdx_append, hr.mapData, hlen]
    simp
  · rw [Globals.addMap, List.map_append, hr.objs, hobj]
    rfl
  · rw [Globals.addMap, hr.mapFd, hlen, List.length_append, List.length_singleton,
      List.range_succ]
  · intro n x hx
    rcases Nat.lt_or_ge n done.length with hn | hn
    · rw [List.getElem?_append_left hn] at hx
      exact hr.earlier n x hx
    · obtain ⟨rfl, rfl⟩ : n = done.length ∧ x = m := by
        rw [List.getElem?_append_right hn, List.getElem?_singleton] at hx
        split_ifs at hx with h0
        exact ⟨by omega, (Option.some.inj hx).symm⟩
      exact hm

theorem loadMap_runs (hr : MapsRun done g) (h : loadMap g m = .ok g') :
    MapsRun (done ++ [m]) g' := by
  rcases loadMap_eq_ok h with ⟨hm, innerFd, hfd, rfl⟩ | ⟨hm, rfl⟩
  · obtain ⟨hlt, rfl⟩ := List.getElem?_eq_some_iff.1 hfd
    simp only [hr.mapFd, List.length_range] at hlt
    refine hr.addMap ?_ fun _ => hlt
    simp [mapObj, hm, hr.mapFd]
  · exact hr.addMap (by rw [mapObj, hm]; rfl) fun h => by rw [hm] at h; cases h

/-- Nothing can go wrong without maps of maps. -/
theorem loadMaps_total (ms : List MapData) (h : ∀ m ∈ ms, mapOfMaps m.mapDef = false) :
    ∃ g, ms.foldlM loadMap .start = .ok g ∧ MapsRun ms g := by
  refine foldlM_total MapsRun (fun done m g hpre hr => ?_) ⟨rfl, rfl, rfl, rfl, by simp⟩
  have hm := h m (hpre.subset (List.mem_append_right done (List.mem_singleton_self m)))
  have hload : loadMap g m = .ok (g.addMap m none) := by rw [loadMap, hm]; rfl
  exact ⟨_, hload, loadMap_runs hr hload⟩

end MapsRun

/-- What there is after the maps have been made. -/
structure Mapped (elf : Elf) (syms : List Sym) (g : Globals) (processed : Nat → Bool) : Prop where
  processed : ∀ i, processed i = true →
    isProgram (secAt elf i).name = false ∧ ∃ data, (secAt elf i).content = .bytes data
  progFd : g.progFd = []
  map : ∀ i ∈ numbers elf, (secAt elf i).name = mapsName → ∃ sorted : List Sym,
    sorted.Perm (syms.filter (·.shndx = i)) ∧ g.mapFd = List.range sorted.length ∧
      g.objs = sorted.map fun s => .map s.name (defAt (secAt elf i).content.data s) none

section Maps

variable {elf : Elf} {syms : List Sym} {sc : Scan} {i : Nat}

theorem copyDef_ok {data : List Byte} {s : Sym} (h : s.value + mapDefSize ≤ data.length) :
    copyDef data mapDefSize s = .ok ⟨0, s.name, s.value, defAt data s⟩ := by
  have hlen : (defAt data s).length = mapDefSize := by
    rw [defAt, List.length_take, List.length_drop]
    omega
  have hdrop : (defAt data s).drop mapDefSize = [] := List.drop_of_length_le hlen.le
  have htake : (defAt data s).take mapDefSize = defAt data s := List.take_of_length_le hlen.le
  rw [defAt] at hlen hdrop htake
  simp only [copyDef, if_neg (Nat.not_lt.2 h), hdrop, htake, hlen, defAt]
  simp

theorem loadElfMapsSection_ok {data : List Byte} (hne : syms.filter (·.shndx = i) ≠ [])
    (hlen : data.length = mapDefSize * (syms.filter (·.shndx = i)).length)
    (hmax : (syms.filter (·.shndx = i)).length ≤ MAX_MAPS)
    (hin : ∀ s ∈ syms.filter (·.shndx = i), s.value + mapDefSize ≤ data.length) :
    ∃ sorted : List Sym, sorted.Perm (syms.filter (·.shndx = i)) ∧
      loadElfMapsSection i data syms =
        .ok (sorted.map fun s => ⟨0, s.name, s.value, defAt data s⟩) := by
  have hperm := List.mergeSort_perm (syms.filter (·.shndx = i)) fun a b => a.value ≤ b.value
  have hpos := List.length_pos_iff.2 hne
  refine ⟨_, hperm, ?_⟩
  rw [loadElfMapsSection, hperm.length_eq, if_neg (by omega), hlen, Nat.mul_div_cancel _ hpos]
  exact mapM_ok fun s hs => copyDef_ok (hin s (hperm.subset hs))

theorem makeMaps_some (ho : Object elf syms) (hi : i < processedSize)
    (hn : (secAt elf i).name = mapsName) (hmax : (syms.filter (·.shndx = i)).length ≤ MAX_MAPS)
    (hm : sc.maps = some (i, (secAt elf i).content.data)) :
    ∃ (sorted : List Sym) (g : Globals), sorted.Perm (syms.filter (·.shndx = i)) ∧
      g.progFd = [] ∧ g.mapFd = List.range sorted.length ∧
      (g.objs = sorted.map fun s => .map s.name (defAt (secAt elf i).content.data s) none) ∧
      makeMaps sc syms = .ok (g, Function.update sc.processed i true) := by
  obtain ⟨data, hc, hne, hlen, hdefs⟩ := ho.maps i hn
  have hdata : (secAt elf i).content.data = data := by rw [hc]; rfl
  obtain ⟨sorted, hperm, hsec⟩ := loadElfMapsSection_ok hne hlen hmax fun s hs => (hdefs s hs).1
  have hplain : ∀ s ∈ sorted, mapOfMaps (defAt data s) = false := fun s hs =>
    (hdefs s (hperm.subset hs)).2
  obtain ⟨g, hload, hr⟩ := loadMaps_total
    (sorted.map fun s => ⟨0, s.name, s.value, defAt data s⟩) (by simpa using hplain)
  refine ⟨sorted, g, hperm, hr.progFd, by simpa using hr.mapFd, ?_, ?_⟩
  · rw [hr.objs, List.map_map, hdata]
    refine List.map_congr_left fun s hs => ?_
    simp [mapObj, hplain s hs]
  · simp only [makeMaps, hm, hdata, hsec, bind, Except.bind, hload, mark_ok hi, pure, Except.pure]

theorem makeMaps_spec (ho : Object elf syms) (hfit : Fits elf syms)
    (hone : ∀ i j, (secAt elf i).name = mapsName → (secAt elf j).name = mapsName → i = j)
    (hs : Scanned elf syms (numbers elf) sc) :
    ∃ g processed, makeMaps sc syms = .ok (g, processed) ∧ Mapped elf syms g processed := by
  have hproc : ∀ i, sc.processed i = true →
      isProgram (secAt elf i).name = false ∧ ∃ data, (secAt elf i).content = .bytes data := by
    intro i h
    rcases hs.processed i h with hn | hn
    · obtain ⟨data, -, hc⟩ := ho.license i hn
      exact ⟨by rw [hn]; decide, data, hc⟩
    · exact ⟨by rw [hn]; decide, ho.version i hn⟩
  cases hm : sc.maps with
  | none =>
    refine ⟨.start, sc.processed, by rw [makeMaps, hm], hproc, rfl, ?_⟩
    exact fun i hi hn => absurd hm (hs.found i hi hn)
  | some md =>
    obtain ⟨m, d⟩ := md
    obtain ⟨hn, rfl, hmem⟩ := hs.maps m d hm
    obtain ⟨sorted, g, hperm, hprog, hfd, hobjs, hmake⟩ :=
      makeMaps_some ho (hfit.lt hmem) hn (hfit.maps m hmem hn) hm
    refine ⟨_, _, hmake, fun i h => ?_, hprog, fun i _ hi => ?_⟩
    · by_cases him : i = m
      · obtain ⟨data, hc, -⟩ := ho.maps m hn
        exact him ▸ ⟨by rw [hn]; decide, data, hc⟩
      · rw [Function.update_of_ne him] at h
        exact hproc i h
    · obtain rfl := hone i m hi hn
      exact ⟨sorted, hperm, hfd, hobjs⟩

end Maps

/-! ## The second time -/

/-- The relocations in section `i`, if they are for section `j`. -/
def relFor (elf : Elf) (j i : Nat) : Option (List Rel) :=
  match (secAt elf i).content with
  | .rel rels => if (secAt elf i).info = j then some rels else none
  | _ => none

/-- The data of section `j` with the relocations from the sections `is`. -/
def relocatedBy (elf : Elf) (syms : List Sym) (maps : List MapData) (is : List Nat) (j : Nat) :
    Except Stop (List Byte) :=
  (is.filterMap (relFor elf j)).foldlM (fun insns rels => parseReloAndApply syms maps rels insns)
    (secAt elf j).content.data

/-- The data of section `j` with its relocations. -/
def relocated (elf : Elf) (syms : List Sym) (maps : List MapData) (j : Nat) :
    Except Stop (List Byte) :=
  relocatedBy elf syms maps (numbers elf) j

section Reloc

variable {elf : Elf} {syms : List Sym} {maps : List MapData} {done : List Nat} {i j : Nat}

theorem applyRel_ok (maps : List MapData) {insns : List Byte} {r : Rel} (hs : r.sym < syms.length)
    (hl : 8 * (r.offset / 8) + 8 ≤ insns.length) :
    ∃ insns' ok, applyRel syms maps insns r = .ok (insns', ok) ∧
      insns'.length = insns.length := by
  have hcode : 8 * (r.offset / 8) < insns.length := by omega
  simp only [applyRel, List.getElem?_eq_getElem hs, List.getElem?_eq_getElem hcode,
    if_neg (Nat.not_lt.2 hl)]
  split
  · exact ⟨_, _, rfl, rfl⟩
  · split
    · refine ⟨_, _, rfl, ?_⟩
      simp only [List.length_append, List.length_take, List.length_drop, List.length_modify, le32,
        List.length_cons, List.length_nil]
      omega
    · exact ⟨_, _, rfl, List.length_modify ..⟩

theorem parseReloAndApply_ok (maps : List MapData) {rels : List Rel} {insns : List Byte}
    (h : ∀ r ∈ rels, r.sym < syms.length ∧ 8 * (r.offset / 8) + 8 ≤ insns.length) :
    ∃ insns', parseReloAndApply syms maps rels insns = .ok insns' ∧
      insns'.length = insns.length := by
  induction rels generalizing insns with
  | nil => exact ⟨insns, rfl, rfl⟩
  | cons r rels ih =>
    obtain ⟨hs, hl⟩ := h r (by simp)
    obtain ⟨insns₁, ok, h₁, hlen₁⟩ := applyRel_ok maps hs hl
    cases ok with
    | false => exact ⟨insns₁, by rw [parseReloAndApply, h₁]; rfl, hlen₁⟩
    | true =>
      obtain ⟨insns₂, h₂, hlen₂⟩ := ih fun x hx => by
        rw [hlen₁]
        exact h x (List.mem_cons_of_mem _ hx)
      exact ⟨insns₂, by rw [parseReloAndApply, h₁]; exact h₂, hlen₂.trans hlen₁⟩

theorem relocatedBy_snoc {insns : List Byte} (h : relocatedBy elf syms maps done j = .ok insns) :
    relocatedBy elf syms maps (done ++ [i]) j =
      match relFor elf j i with
      | some rels => parseReloAndApply syms maps rels insns
      | none => .ok insns := by
  rw [relocatedBy, List.filterMap_append, List.foldlM_append, ← relocatedBy, h]
  cases hr : relFor elf j i with
  | none =>
    rw [List.filterMap_cons_none hr]
    rfl
  | some rels =>
    rw [List.filterMap_cons_some hr]
    simp only [bind, Except.bind, List.filterMap_nil, List.foldlM_cons, List.foldlM_nil]
    cases parseReloAndApply syms maps rels insns <;> rfl

/-- What there is after the sections `done`. Sections that are not executed, or empty, are left
alone whatever relocations there are for them. -/
structure Relocated (elf : Elf) (syms : List Sym) (maps : List MapData) (processed : Nat → Bool)
    (done : List Nat) (st : Reloc) : Prop where
  processed : ∀ i, st.processed i = true →
    processed i = true ∨ i ∈ done ∧ ∃ rels, (secAt elf i).content = .rel rels
  data : ∀ j, (secAt elf j).exec = true → (secAt elf j).content.size ≠ 0 →
    relocatedBy elf syms maps done j = .ok (st.data j)
  length : ∀ j, (st.data j).length = (secAt elf j).content.data.length

theorem relocated_start {processed : Nat → Bool} :
    Relocated elf syms maps processed [] ⟨processed, fun j => (secAt elf j).content.data⟩ where
  processed := fun _ h => .inl h
  data := fun _ _ _ => rfl
  length := fun _ => rfl

variable {processed : Nat → Bool} {st : Reloc}

/-- A section with no relocations for a section that is executed. -/
theorem Relocated.skip (hr : Relocated elf syms maps processed done st)
    (h : ∀ j, (secAt elf j).exec = true → (secAt elf j).content.size ≠ 0 →
      relFor elf j i = none ∨ relFor elf j i = some []) :
    Relocated elf syms maps processed (done ++ [i]) st where
  processed := fun k hk => (hr.processed k hk).imp_right fun h =>
    ⟨List.mem_append_left _ h.1, h.2⟩
  data := by
    intro j hx hne
    rw [relocatedBy_snoc (hr.data j hx hne)]
    rcases h j hx hne with h | h <;> rw [h]
    rfl
  length := hr.length

theorem Relocated.apply (hr : Relocated elf syms maps processed done st) {rels : List Rel}
    (hc : (secAt elf i).content = .rel rels) {insns : List Byte}
    (hp : parseReloAndApply syms maps rels (st.data (secAt elf i).info) = .ok insns)
    (hlen : insns.length = (st.data (secAt elf i).info).length) :
    Relocated elf syms maps processed (done ++ [i])
      ⟨Function.update st.processed i true, Function.update st.data (secAt elf i).info insns⟩ where
  processed := by
    intro k hk
    by_cases hki : k = i
    · exact .inr ⟨by simp [hki], rels, hki ▸ hc⟩
    · dsimp only at hk
      rw [Function.update_of_ne hki] at hk
      exact (hr.processed k hk).imp_right fun h => ⟨List.mem_append_left _ h.1, h.2⟩
  data := by
    intro j hx hne
    rw [relocatedBy_snoc (hr.data j hx hne), relFor, hc]
    dsimp only
    by_cases hj : (secAt elf i).info = j
    · subst hj
      rw [if_pos rfl, Function.update_self]
      exact hp
    · rw [if_neg hj, Function.update_of_ne (Ne.symm hj)]
  length := by
    intro j
    dsimp only
    by_cases hj : j = (secAt elf i).info
    · subst hj
      rw [Function.update_self, hlen, hr.length]
    · rw [Function.update_of_ne hj, hr.length]

theorem relFor_none (hc : ∀ rels, (secAt elf i).content ≠ .rel rels) (j : Nat) :
    relFor elf j i = none := by
  rw [relFor]
  split
  · exact absurd ‹_› (hc _)
  · rfl

theorem relFor_rel {rels : List Rel} (hc : (secAt elf i).content = .rel rels) (j : Nat) :
    relFor elf j i = if (secAt elf i).info = j then some rels else none := by
  rw [relFor, hc]

theorem relocSec_marked (hi : i < processedSize) (hm : st.processed i = true) :
    relocSec elf syms maps st i = .ok st := by
  rw [relocSec, marked_ok hi, hm]
  rfl

/-- The section that relocations are for has to be one with instructions. -/
theorem relocSec_skip (hi : i < processedSize)
    (h : ∀ rels, (secAt elf i).content = .rel rels → (secAt elf i).content.size = 0 ∨
      (secAt elf (secAt elf i).info).content.size = 0 ∨
        (secAt elf (secAt elf i).info).exec = false) :
    relocSec elf syms maps st i = .ok st := by
  cases hm : st.processed i with
  | true => exact relocSec_marked hi hm
  | false =>
    rw [relocSec, marked_ok hi, hm]
    by_cases hs : (secAt elf i).content.size = 0
    · rw [getSec_none hs]
      rfl
    · rw [getSec_some hs]
      cases hc : (secAt elf i).content with
      | bytes | symtab =>
        simp only [bind, Except.bind, hc]
        rfl
      | rel rels =>
        simp only [bind, Except.bind, hc]
        by_cases ht : (secAt elf (secAt elf i).info).content.size = 0
        · rw [getSec_none ht]
          rfl
        · have hx := ((h rels hc).resolve_left hs).resolve_left ht
          rw [getSec_some ht]
          simp only [hx]
          rfl

theorem relocSec_apply (hi : i < processedSize) (hm : st.processed i = false) {rels : List Rel}
    (hc : (secAt elf i).content = .rel rels) (hs : (secAt elf i).content.size ≠ 0)
    (ht : (secAt elf (secAt elf i).info).content.size ≠ 0)
    (hx : (secAt elf (secAt elf i).info).exec = true) {insns : List Byte}
    (hp : parseReloAndApply syms maps rels (st.data (secAt elf i).info) = .ok insns) :
    relocSec elf syms maps st i = .ok ⟨Function.update st.processed i true,
      Function.update st.data (secAt elf i).info insns⟩ := by
  rw [relocSec, marked_ok hi, hm, getSec_some hs]
  simp only [bind, Except.bind, hc, getSec_some ht, hx, mark_ok hi, hp, if_true]
  rfl

theorem Relocated.step (ho : Object elf syms) (hr : Relocated elf syms maps processed done st)
    (hi : i < processedSize) (hdone : i ∉ done)
    (hp : ∀ i, processed i = true → ∀ rels, (secAt elf i).content ≠ .rel rels) :
    ∃ st', relocSec elf syms maps st i = .ok st' ∧
      Relocated elf syms maps processed (done ++ [i]) st' := by
  cases hm : st.processed i with
  | true =>
    have hc := hp i ((hr.processed i hm).resolve_right fun h => hdone h.1)
    exact ⟨st, relocSec_marked hi hm, hr.skip fun j _ _ => .inl (relFor_none hc j)⟩
  | false =>
    by_cases hc : ∃ rels, (secAt elf i).content = .rel rels
    · obtain ⟨rels, hc⟩ := hc
      by_cases hs : (secAt elf i).content.size = 0
      · have hnil : rels = [] := by
          rw [hc, Content.size] at hs
          exact List.length_eq_zero_iff.1 (by omega)
        refine ⟨st, relocSec_skip hi fun _ _ => .inl hs, hr.skip fun j _ _ => ?_⟩
        rw [relFor_rel hc, hnil]
        split <;> simp
      · by_cases ht : (secAt elf (secAt elf i).info).content.size = 0 ∨
            (secAt elf (secAt elf i).info).exec = false
        · refine ⟨st, relocSec_skip hi fun _ _ => .inr ht, hr.skip fun j hx hne => .inl ?_⟩
          rw [relFor_rel hc, if_neg]
          rintro rfl
          rcases ht with ht | ht
          · exact hne ht
          · rw [hx] at ht
            cases ht
        · rw [not_or, Bool.not_eq_false] at ht
          have hwf := ho.rels i rels hc ht.2
          rw [← hr.length] at hwf
          obtain ⟨insns, hparse, hlen⟩ := parseReloAndApply_ok maps hwf
          exact ⟨_, relocSec_apply hi hm hc hs ht.1 ht.2 hparse, hr.apply hc hparse hlen⟩
    · have hc' : ∀ rels, (secAt elf i).content ≠ .rel rels := fun rels h => hc ⟨rels, h⟩
      exact ⟨st, relocSec_skip hi fun rels h => absurd h (hc' rels),
        hr.skip fun j _ _ => .inl (relFor_none hc' j)⟩

theorem reloc_spec (maps : List MapData) (ho : Object elf syms) (hfit : Fits elf syms)
    (hp : ∀ i, processed i = true → ∀ rels, (secAt elf i).content ≠ .rel rels) :
    ∃ st, (numbers elf).foldlM (relocSec elf syms maps)
        ⟨processed, fun i => (secAt elf i).content.data⟩ = .ok st ∧
      Relocated elf syms maps processed (numbers elf) st := by
  refine foldlM_total (Relocated elf syms maps processed) (fun done i st hpre hr => ?_)
    relocated_start
  have hnodup : (done ++ [i]).Nodup := hpre.sublist.nodup (List.nodup_range' ..)
  refine hr.step ho (hfit.lt (mem_of_done hpre)) (fun hd => ?_) hp
  exact (List.nodup_append.1 hnodup).2.2 i hd i (by simp) rfl

end Reloc

/-! ## The third time -/

def lockName : Text := "lock".toList

/-- The numbers of the programs among the sections `is`. -/
def programs (elf : Elf) (is : List Nat) : List Nat :=
  is.filter fun i => isProgram (secAt elf i).name

/-- What is loaded for section `i`. -/
def progOf (sc : Scan) (rl : Reloc) (i : Nat) : Obj :=
  .prog .lockPolicy (wholeInsns (rl.data i)) sc.license sc.kernVersion

/-- What there is after the sections `done`. -/
structure Loaded (elf : Elf) (sc : Scan) (rl : Reloc) (g : Globals) (done : List Nat)
    (st : Globals × Int) : Prop where
  objs : st.1.objs = g.objs ++ (programs elf done).map (progOf sc rl)
  progFd : st.1.progFd = List.range' g.objs.length (programs elf done).length
  mapFd : st.1.mapFd = g.mapFd
  mapData : st.1.mapData = g.mapData
  ret : st.2 = if programs elf done = [] then 1 else 0

section Load

variable {attach : Attach} {elf : Elf} {syms : List Sym} {sc : Scan} {rl : Reloc} {g : Globals}
  {done : List Nat} {st : Globals × Int} {i : Nat}

theorem progType_lock {name : Text} (h : lockName <+: name) :
    progType name = some .lockPolicy := by
  obtain ⟨rest, rfl⟩ := h
  rfl

theorem isProgram_lock {name : Text} (h : lockName <+: name) : isProgram name = true := by
  obtain ⟨rest, rfl⟩ := h
  rfl

theorem Object.program_size (ho : Object elf syms) (hp : isProgram (secAt elf i).name = true) :
    (secAt elf i).content.size ≠ 0 := by
  obtain ⟨-, data, hne, hc⟩ := ho.program i hp
  rw [hc, Content.size]
  exact fun h => hne (List.length_eq_zero_iff.1 h)

theorem loadSec_program (hi : i < processedSize) (hm : rl.processed i = false)
    (hp : lockName <+: (secAt elf i).name) (hs : (secAt elf i).content.size ≠ 0)
    (hmax : st.1.progFd.length ≠ MAX_PROGS) :
    loadSec attach elf sc rl st i = .ok ({ st.1 with
      objs := st.1.objs ++ [progOf sc rl i]
      progFd := st.1.progFd ++ [st.1.objs.length] }, 0) := by
  rw [loadSec, marked_ok hi, hm, getSec_some hs]
  simp only [bind, Except.bind, isProgram_lock hp, if_true, loadAndAttach, progType_lock hp,
    if_neg hmax]
  rfl

theorem loadSec_skip (hi : i < processedSize) (hp : isProgram (secAt elf i).name = false) :
    loadSec attach elf sc rl st i = .ok st := by
  rw [loadSec, marked_ok hi]
  simp only [bind, Except.bind]
  cases rl.processed i with
  | true => rfl
  | false =>
    by_cases hs : (secAt elf i).content.size = 0
    · rw [getSec_none hs]
      rfl
    · rw [getSec_some hs]
      simp only [hp]
      rfl

theorem programs_snoc : programs elf (done ++ [i]) =
    programs elf done ++ if isProgram (secAt elf i).name = true then [i] else [] := by
  simp only [programs, List.filter_append, List.filter_cons, List.filter_nil]

theorem Loaded.step (ho : Object elf syms) (hl : Loaded elf sc rl g done st)
    (hi : i < processedSize) (hm : rl.processed i = true → isProgram (secAt elf i).name = false)
    (hlock : isProgram (secAt elf i).name = true → lockName <+: (secAt elf i).name)
    (hmax : (programs elf (done ++ [i])).length ≤ MAX_PROGS) :
    ∃ st', loadSec attach elf sc rl st i = .ok st' ∧ Loaded elf sc rl g (done ++ [i]) st' := by
  cases hp : isProgram (secAt elf i).name with
  | false =>
    have hsnoc : programs elf (done ++ [i]) = programs elf done := by
      rw [programs_snoc, hp]
      exact List.append_nil _
    refine ⟨st, loadSec_skip hi hp, ?_, ?_, hl.mapFd, hl.mapData, ?_⟩
    · rw [hsnoc]; exact hl.objs
    · rw [hsnoc]; exact hl.progFd
    · rw [hsnoc]; exact hl.ret
  | true =>
    have hsnoc : programs elf (done ++ [i]) = programs elf done ++ [i] := by
      rw [programs_snoc, if_pos hp]
    rw [hsnoc, List.length_append, List.length_singleton] at hmax
    have hun : rl.processed i = false := by
      cases h : rl.processed i with
      | false => rfl
      | true => rw [hm h] at hp; cases hp
    have hcnt : st.1.progFd.length ≠ MAX_PROGS := by
      rw [hl.progFd, List.length_range']
      omega
    refine ⟨_, loadSec_program hi hun (hlock hp) (ho.program_size hp) hcnt, ?_, ?_, hl.mapFd,
      hl.mapData, ?_⟩
    · rw [hsnoc, List.map_append, ← List.append_assoc, ← hl.objs]
      rfl
    · dsimp only
      rw [hsnoc, hl.progFd, hl.objs, List.length_append, List.length_map, List.length_append,
        List.length_singleton, List.range'_concat]
      simp
    · rw [hsnoc, if_neg (by simp)]

theorem load_spec (attach : Attach) (sc : Scan) (ho : Object elf syms) (hfit : Fits elf syms)
    (hg : g.progFd = [])
    (hm : ∀ i, rl.processed i = true → isProgram (secAt elf i).name = false)
    (hlock : ∀ i, isProgram (secAt elf i).name = true → lockName <+: (secAt elf i).name)
    (hmax : (programs elf (numbers elf)).length ≤ MAX_PROGS) :
    ∃ st, (numbers elf).foldlM (loadSec attach elf sc rl) (g, 1) = .ok st ∧
      Loaded elf sc rl g (numbers elf) st := by
  have hstart : Loaded elf sc rl g [] (g, 1) := ⟨by simp [programs], hg, rfl, rfl, rfl⟩
  refine foldlM_total (Loaded elf sc rl g) (fun done i st hpre hl => ?_) hstart
  have hcount := (hpre.sublist.filter fun i => isProgram (secAt elf i).name).length_le
  exact hl.step ho (hfit.lt (mem_of_done hpre)) (hm i) (hlock i) (hcount.trans hmax)

end Load

end Bpf
end SynCord
