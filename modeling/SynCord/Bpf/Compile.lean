import SynCord.Bpf.Checker
import SynCord.Bpf.Passes
import SynCord.CText

/-!
# SynCord.Bpf.Compile

What the compiler makes of the source for the kernel. Nothing is said of the instructions, only of
the sections: there is one for every name that stands in a `SEC` of the code, and those with
programs come in the order of their names.

* `secNames_readyKern` — the names in the source are those in the files. Unlike `get_section` the
  compiler passes over comments, and it sees a `SEC` with blanks in it.
* `Emitted.programs` — the sections with programs are those of the policy files, in the order of the
  files.
* `plainObject_emitted` — there is such an object file for every source.
-/

namespace SynCord
namespace Bpf

open CText

/-! ## Names of sections -/

/-- The name in the `SEC` that begins with the first token. -/
def sectionAt : List Token → Option Text
  | .word ['S', 'E', 'C'] :: .mark '(' :: .literal '\x22' name :: .mark ')' :: _ => some name
  | _ => none

def sections : List Token → List Text
  | [] => []
  | t :: ts => (sectionAt (t :: ts)).toList ++ sections ts

/-- The names in a source, as the compiler reads it. -/
def secNames (src : Text) : List Text := sections (tokens src)

/-- The last token ends a declaration. -/
def Ended (ts : List Token) : Prop := ∀ t ∈ ts.getLast?, t = .mark ';' ∨ t = .mark '\x7d'

/-- A file of declarations: no comment is left open at its end. -/
structure Whole (t : Text) : Prop where
  closed : Closed t
  ended : Ended (tokens t)

instance (t : Text) : Decidable (Whole t) :=
  decidable_of_iff (Closed t ∧ ∀ x ∈ (tokens t).getLast?, x = .mark ';' ∨ x = .mark '\x7d')
    ⟨fun h => ⟨h.1, h.2⟩, fun h => ⟨h.closed, h.ended⟩⟩

section Sections

variable {ts us : List Token}

theorem sectionAt_append (hne : ts ≠ []) (h : Ended ts) :
    sectionAt (ts ++ us) = sectionAt ts := by
  match ts with
  | [] => exact absurd rfl hne
  | [a] =>
    rcases h a rfl with rfl | rfl <;> rfl
  | [a, b] =>
    rcases h b rfl with rfl | rfl <;> simp [sectionAt]
  | [a, b, c] =>
    rcases h c rfl with rfl | rfl <;> simp [sectionAt]
  | a :: b :: c :: d :: rest =>
    show sectionAt (a :: b :: c :: d :: (rest ++ us)) = _
    unfold sectionAt
    split
    · rename_i heq
      simp only [List.cons.injEq] at heq
      obtain ⟨rfl, rfl, rfl, rfl, -⟩ := heq
      rfl
    · rename_i hno
      split
      · rename_i heq
        simp only [List.cons.injEq] at heq
        obtain ⟨rfl, rfl, rfl, rfl, -⟩ := heq
        exact absurd rfl (hno _ _)
      · rfl

theorem sections_append (h : Ended ts) : sections (ts ++ us) = sections ts ++ sections us := by
  induction ts with
  | nil => rfl
  | cons t ts ih =>
    have hts : Ended ts := by
      intro x hx
      refine h x ?_
      rw [List.getLast?_cons, Option.mem_def.1 hx]
      rfl
    have hat : sectionAt (t :: (ts ++ us)) = sectionAt (t :: ts) :=
      sectionAt_append (List.cons_ne_nil t ts) h
    rw [List.cons_append, sections, hat, ih hts, sections, List.append_assoc]

theorem sections_flatMap {l : List Text} (us : List Token) (h : ∀ t ∈ l, Ended (tokens t)) :
    sections (l.flatMap tokens ++ us) = l.flatMap secNames ++ sections us := by
  induction l with
  | nil => rfl
  | cons t l ih =>
    rw [List.forall_mem_cons] at h
    rw [List.flatMap_cons, List.append_assoc, sections_append h.1, ih h.2, List.flatMap_cons,
      List.append_assoc]
    rfl

theorem ended_append (hts : Ended ts) (hus : Ended us) : Ended (ts ++ us) := by
  intro t ht
  rw [List.getLast?_append] at ht
  cases hl : us.getLast? with
  | none => exact hts t (by simpa [hl] using ht)
  | some x => exact hus t (by simpa [hl] using ht)

/-- Whole files one after the other. -/
theorem whole_join {l : List Text} (h : ∀ t ∈ l, Whole t) : Whole (['\n'].intercalate l) := by
  refine ⟨closed_join fun t ht => (h t ht).closed, ?_⟩
  rw [tokens_join fun t ht => (h t ht).closed]
  induction l with
  | nil => exact fun t ht => by cases ht
  | cons t l ih =>
    rw [List.forall_mem_cons] at h
    exact ended_append h.1.ended (ih h.2)

theorem secNames_join {l : List Text} (h : ∀ t ∈ l, Whole t) :
    secNames (['\n'].intercalate l) = l.flatMap secNames := by
  have hsecs := sections_flatMap [] fun t ht => (h t ht).ended
  rw [List.append_nil] at hsecs
  rw [secNames, tokens_join fun t ht => (h t ht).closed, hsecs]
  exact List.append_nil _

end Sections

/-- The names in a source are those of its parts. -/
theorem secNames_readyKern {mapFile : Option Text} {policies : List Policy}
    (h : ∀ t ∈ mapFile.toList ++ policies.map Policy.contents, Whole t) :
    secNames (readyKern mapFile policies) =
      (mapFile.toList ++ policies.map Policy.contents).flatMap secNames ++ [licenseName] := by
  set parts := mapFile.toList ++ policies.map Policy.contents with hparts
  have hclosed : ∀ t ∈ kernLines (['\n'].intercalate parts), Closed t := by
    have hjoin := closed_join fun t ht => (h t ht).closed
    simp only [kernLines, List.forall_mem_cons]
    exact ⟨by decide, by decide, by decide, by decide, hjoin, by decide, by decide, by simp⟩
  rw [secNames, readyKern_eq, ← hparts, tokens_lines hclosed]
  simp only [kernLines, List.flatMap_cons, List.flatMap_nil,
    tokens_join fun t ht => (h t ht).closed]
  rw [show tokens "#include <uapi/linux/bpf.h>".toList = [] from by decide,
    show tokens "#include \"bpf_helpers.h\"".toList = [] from by decide,
    show tokens "#include \"concord.h\"".toList = [] from by decide,
    show tokens [] = [] from rfl, List.nil_append, List.nil_append, List.nil_append,
    List.nil_append, sections_flatMap _ fun t ht => (h t ht).ended]
  rfl

/-! ## Object files -/

/-- Names that mean something to the loader. -/
def special (name : Text) : Bool :=
  isProgram name || name = licenseName || name = versionName || name = mapsName

def names (elf : Elf) : List Text := elf.tail.map Section.name

/-- What is assumed of the object file of a source: it has one section for every name in a `SEC`,
and those for programs are in the order in which they first appear. Between these there are any
others of which the loader knows nothing. -/
structure Emitted (src : Text) (elf : Elf) (syms : List Sym) : Prop extends Object elf syms where
  null : (secAt elf 0).name = []
  once : ∀ n ∈ secNames src, (names elf).count n = 1
  order : (names elf).filter isProgram = ((secNames src).filter isProgram).eraseDups
  foreign : ∀ n ∈ names elf, n ∉ secNames src → special n = false

/-- The files of a policy, with the section of each program. -/
structure Files (mapFile : Option Text) (policies : List Policy) (secs : List Text) : Prop where
  whole : ∀ t ∈ mapFile.toList ++ policies.map Policy.contents, Whole t
  map : ∀ m ∈ mapFile, (secNames m).filter isProgram = [] ∧ mapsName ∈ secNames m
  policy : List.Forall₂ (fun p s => (secNames p.contents).filter isProgram = [s] ∧
    lockSection <+: s) policies secs
  secs_nodup : secs.Nodup

section Names

variable {mapFile : Option Text} {policies : List Policy} {secs : List Text} {src : Text}
  {elf : Elf} {syms : List Sym} {i j : Nat}

theorem Files.flatMap (hf : Files mapFile policies secs) :
    policies.flatMap (fun p => (secNames p.contents).filter isProgram) = secs := by
  have h := hf.policy
  clear hf
  induction h with
  | nil => rfl
  | cons hps _ ih => rw [List.flatMap_cons, hps.1, ih]; rfl

theorem Files.programs (hf : Files mapFile policies secs) :
    (secNames (readyKern mapFile policies)).filter isProgram = secs := by
  have hmap : mapFile.toList.flatMap (fun m => (secNames m).filter isProgram) = [] := by
    cases mapFile with
    | none => rfl
    | some m => simp [(hf.map m rfl).1]
  rw [secNames_readyKern hf.whole, List.filter_append, List.filter_flatMap, List.flatMap_append,
    List.flatMap_map, hmap, hf.flatMap]
  exact List.append_nil _

theorem Files.lock (hf : Files mapFile policies secs) :
    ∀ n ∈ secNames (readyKern mapFile policies), isProgram n = true → lockName <+: n := by
  intro n hn hp
  have hmem : n ∈ secs := by
    rw [← hf.programs]
    exact List.mem_filter.2 ⟨hn, hp⟩
  have hlock : lockName <+: lockSection := ⟨['_'], rfl⟩
  have h := hf.policy
  clear hf hn
  induction h with
  | nil => cases hmem
  | cons hps _ ih =>
    rcases List.mem_cons.1 hmem with rfl | hmem
    · exact hlock.trans hps.2
    · exact ih hmem

theorem Files.maps (hf : Files mapFile policies secs) (h : mapFile.isSome) :
    mapsName ∈ secNames (readyKern mapFile policies) := by
  obtain ⟨m, rfl⟩ := Option.isSome_iff_exists.1 h
  rw [secNames_readyKern hf.whole]
  refine List.mem_append_left _ (List.mem_flatMap.2 ⟨m, ?_, (hf.map m rfl).2⟩)
  simp

theorem map_secAt_numbers (elf : Elf) : (numbers elf).map (secAt elf) = elf.tail := by
  refine List.ext_getElem? fun k => ?_
  rw [List.getElem?_map, List.getElem?_tail, numbers]
  by_cases hk : k < elf.length - 1
  · rw [List.getElem?_range' hk, Option.map_some, Nat.one_mul, secAt, Nat.add_comm,
      List.getElem?_eq_getElem (by omega)]
    rfl
  · rw [List.getElem?_eq_none (by rw [List.length_range']; omega),
      List.getElem?_eq_none (by omega)]
    rfl

theorem map_name_numbers (elf : Elf) :
    (numbers elf).map (fun i => (secAt elf i).name) = names elf := by
  rw [names, ← map_secAt_numbers, List.map_map]
  rfl

theorem mem_numbers_of_name (h0 : (secAt elf 0).name = []) (hn : (secAt elf i).name ≠ []) :
    i ∈ numbers elf := by
  rw [mem_numbers]
  constructor
  · rcases Nat.eq_zero_or_pos i with rfl | hi
    · exact absurd h0 hn
    · exact hi
  · by_contra hge
    rw [secAt, List.getElem?_eq_none (by omega)] at hn
    exact hn rfl

theorem name_mem_names (hi : i ∈ numbers elf) : (secAt elf i).name ∈ names elf := by
  rw [← map_name_numbers]
  exact List.mem_map_of_mem hi

theorem Emitted.mem_numbers (he : Emitted src elf syms) (hs : special (secAt elf i).name = true) :
    i ∈ numbers elf := by
  refine mem_numbers_of_name he.null fun h => ?_
  rw [h] at hs
  exact absurd hs (by decide)

/-- What means something to the loader is named in the source. -/
theorem Emitted.mem_secNames (he : Emitted src elf syms)
    (hs : special (secAt elf i).name = true) : (secAt elf i).name ∈ secNames src := by
  by_contra hnot
  rw [he.foreign _ (name_mem_names (he.mem_numbers hs)) hnot] at hs
  cases hs

theorem Emitted.name_inj (he : Emitted src elf syms) (hs : special (secAt elf i).name = true)
    (hij : (secAt elf i).name = (secAt elf j).name) : i = j := by
  have hcount := he.once _ (he.mem_secNames hs)
  rw [← map_name_numbers, List.count_eq_length_filter, List.filter_map, List.length_map] at hcount
  obtain ⟨k, hk⟩ := List.length_eq_one_iff.1 hcount
  have hmem : ∀ n ∈ numbers elf, (secAt elf n).name = (secAt elf i).name → n = k := by
    intro n hn heq
    rw [← List.mem_singleton, ← hk, List.mem_filter]
    exact ⟨hn, by simp [heq]⟩
  rw [hmem i (he.mem_numbers hs) rfl, hmem j (he.mem_numbers (hij ▸ hs)) hij.symm]

theorem Emitted.exists_section (he : Emitted src elf syms) {n : Text} (hn : n ∈ secNames src) :
    ∃ i ∈ numbers elf, (secAt elf i).name = n := by
  have hmem : n ∈ names elf := List.count_pos_iff.1 (by rw [he.once n hn]; exact Nat.one_pos)
  rw [← map_name_numbers] at hmem
  exact List.mem_map.1 hmem

theorem special_of_isProgram {name : Text} (h : isProgram name = true) : special name = true := by
  rw [special, h]
  rfl

/-- The programs of the object file are those of the source, in the order of first appearance. -/
theorem Emitted.programs (he : Emitted src elf syms) :
    (programs elf (numbers elf)).map (fun i => (secAt elf i).name) =
      ((secNames src).filter isProgram).eraseDups := by
  rw [← he.order, ← map_name_numbers, List.filter_map]
  rfl

end Names

/-! ## Sources with nothing to relocate -/

def symtabName : Text := ".symtab".toList

/-- Eight bytes, or one map. -/
def plainSection (n : Text) : Section :=
  ⟨n, isProgram n, 0, .bytes (if n = mapsName then 1 :: List.replicate 27 0
    else List.replicate 8 0)⟩

/-- The programs come first. -/
def plainNames (src : Text) : List Text :=
  (secNames src).eraseDups.filter isProgram ++ (secNames src).eraseDups.filter (!isProgram ·)

def plainSyms (src : Text) : List Sym :=
  [⟨"hash_map".toList, (plainNames src).idxOf mapsName + 1, 0⟩]

/-- The object file of a source that refers to no map. -/
def plainObject (src : Text) : Elf :=
  .null :: ((plainNames src).map plainSection ++
    [⟨symtabName, false, 0, .symtab (plainSyms src)⟩])

section Plain

variable {src : Text}

theorem mem_plainNames {n : Text} : n ∈ plainNames src ↔ n ∈ secNames src := by
  rw [plainNames, List.mem_append, List.mem_filter, List.mem_filter, List.mem_eraseDups]
  cases isProgram n <;> simp

theorem plainNames_nodup : (plainNames src).Nodup := by
  refine List.nodup_append.2 ⟨(nodup_eraseDups _).filter _, (nodup_eraseDups _).filter _, ?_⟩
  rintro a ha b hb rfl
  have hp := (List.mem_filter.1 ha).2
  have hno := (List.mem_filter.1 hb).2
  rw [hp] at hno
  cases hno

theorem secAt_plainObject (src : Text) (i : Nat) :
    secAt (plainObject src) i = .null ∨
    (∃ k n, i = k + 1 ∧ (plainNames src)[k]? = some n ∧
      secAt (plainObject src) i = plainSection n) ∨
    (i = (plainNames src).length + 1 ∧
      secAt (plainObject src) i = ⟨symtabName, false, 0, .symtab (plainSyms src)⟩) := by
  cases i with
  | zero => exact .inl rfl
  | succ k =>
    rcases Nat.lt_trichotomy k (plainNames src).length with hk | hk | hk
    · have hk' : k < ((plainNames src).map plainSection).length := by simpa using hk
      refine .inr (.inl ⟨k, _, rfl, List.getElem?_eq_getElem hk, ?_⟩)
      rw [secAt, plainObject, List.getElem?_cons_succ, List.getElem?_append_left hk']
      simp [hk]
    · refine .inr (.inr ⟨by rw [hk], ?_⟩)
      rw [secAt, plainObject, List.getElem?_cons_succ, List.getElem?_append_right (by simp [hk])]
      simp [hk]
    · refine .inl ?_
      rw [secAt, plainObject, List.getElem?_eq_none (by simp; omega)]
      rfl

theorem plainObject_rel (i : Nat) (rels : List Rel) :
    (secAt (plainObject src) i).content ≠ .rel rels := by
  intro h
  rcases secAt_plainObject src i with hi | ⟨k, n, -, -, hi⟩ | ⟨-, hi⟩ <;> rw [hi] at h <;> cases h

theorem plainObject_bytes {i : Nat} (hn : (secAt (plainObject src) i).name ≠ symtabName)
    (h0 : (secAt (plainObject src) i).name ≠ []) :
    ∃ data, data ≠ [] ∧ (secAt (plainObject src) i).content = .bytes data := by
  rcases secAt_plainObject src i with hi | ⟨k, n, -, -, hi⟩ | ⟨-, hi⟩
  · exact absurd (by rw [hi]; rfl) h0
  · refine ⟨_, ?_, by rw [hi]; rfl⟩
    split <;> exact List.cons_ne_nil _ _
  · exact absurd (by rw [hi]) hn

theorem plainObject_program {i : Nat} (h : isProgram (secAt (plainObject src) i).name = true) :
    (secAt (plainObject src) i).exec = true ∧
      ∃ data, data ≠ [] ∧ (secAt (plainObject src) i).content = .bytes data := by
  rcases secAt_plainObject src i with hi | ⟨k, n, -, -, hi⟩ | ⟨-, hi⟩ <;> rw [hi] at h ⊢
  · cases h
  · refine ⟨h, _, ?_, rfl⟩
    split <;> exact List.cons_ne_nil _ _
  · exact absurd h (show ¬ isProgram symtabName = true by decide)

theorem plainObject_maps {i : Nat} (h : (secAt (plainObject src) i).name = mapsName) :
    (secAt (plainObject src) i).content = .bytes (1 :: List.replicate 27 0) ∧
      (plainSyms src).filter (·.shndx = i) = plainSyms src := by
  rcases secAt_plainObject src i with hi | ⟨k, n, rfl, hk, hi⟩ | ⟨-, hi⟩ <;> rw [hi] at h ⊢
  · cases h
  · obtain rfl : n = mapsName := h
    obtain ⟨hlt, hget⟩ := List.getElem?_eq_some_iff.1 hk
    have hidx : (plainNames src).idxOf mapsName = k := by
      rw [← hget]
      exact plainNames_nodup.idxOf_getElem k hlt
    exact ⟨rfl, by simp [plainSyms, hidx]⟩
  · exact absurd h (show symtabName ≠ mapsName by decide)

/-- The loader has room for it if there are not too many sections. -/
theorem plainObject_fits (hlen : (plainNames src).length + 2 ≤ processedSize)
    (hv : versionName ∉ secNames src) : Fits (plainObject src) (plainSyms src) where
  sections := by
    simp only [plainObject, List.length_cons, List.length_append, List.length_map,
      List.length_nil]
    omega
  license := by
    intro i _ hn
    rcases secAt_plainObject src i with hi | ⟨k, n, -, -, hi⟩ | ⟨-, hi⟩ <;> rw [hi] at hn ⊢
    · cases hn
    · obtain rfl : n = licenseName := hn
      decide
    · exact absurd hn (show symtabName ≠ licenseName by decide)
  version := by
    intro i _ hn
    rcases secAt_plainObject src i with hi | ⟨k, n, -, hk, hi⟩ | ⟨-, hi⟩ <;> rw [hi] at hn
    · cases hn
    · obtain rfl : n = versionName := hn
      exact absurd (mem_plainNames.1 (List.mem_of_getElem? hk)) hv
    · exact absurd hn (show symtabName ≠ versionName by decide)
  maps := by
    intro i _ hn
    rw [(plainObject_maps hn).2]
    exact show 1 ≤ MAX_MAPS by decide

theorem names_plainObject : names (plainObject src) = plainNames src ++ [symtabName] := by
  simp [names, plainObject, plainSection, Function.comp_def]

/-- There is such an object file for every source. -/
theorem plainObject_emitted (hs : symtabName ∉ secNames src) :
    Emitted src (plainObject src) (plainSyms src) where
  symtab := by
    refine ⟨(plainNames src).length + 1, mem_numbers.2 ?_, ?_⟩
    · simp [plainObject]
    · simp [secAt, plainObject]
  symtab_ne := List.cons_ne_nil _ _
  symtab_only := by
    intro i l h
    rcases secAt_plainObject src i with hi | ⟨k, n, -, -, hi⟩ | ⟨-, hi⟩ <;> rw [hi] at h <;> cases h
    rfl
  license := fun i hn => plainObject_bytes (by rw [hn]; decide) (by rw [hn]; decide)
  version := by
    intro i hn
    obtain ⟨data, -, hc⟩ := plainObject_bytes (by rw [hn]; decide) (by rw [hn]; decide)
    exact ⟨data, hc⟩
  program := fun i => plainObject_program
  maps := by
    intro i hn
    obtain ⟨hc, hsyms⟩ := plainObject_maps hn
    refine ⟨_, hc, ?_⟩
    rw [hsyms]
    refine ⟨List.cons_ne_nil _ _, rfl, fun s hs => ?_⟩
    rw [List.mem_singleton.1 hs]
    exact ⟨Nat.le_of_eq rfl, rfl⟩
  rels := fun i rels h => absurd h (plainObject_rel i rels)
  null := rfl
  once := by
    intro n hn
    have hne : n ≠ symtabName := fun h => hs (h ▸ hn)
    rw [names_plainObject, List.count_append, List.count_singleton,
      if_neg (by simpa using hne.symm), Nat.add_zero]
    exact List.count_eq_one_of_mem plainNames_nodup (mem_plainNames.2 hn)
  order := by
    have hsym : isProgram symtabName = false := by decide
    rw [names_plainObject, plainNames, List.filter_append, List.filter_append, List.filter_filter,
      List.filter_filter, ← filter_eraseDups]
    simp [hsym]
  foreign := by
    intro n hmem hn
    rw [names_plainObject, List.mem_append, mem_plainNames] at hmem
    rw [List.mem_singleton.1 (hmem.resolve_left hn)]
    decide

end Plain

end Bpf
end SynCord
