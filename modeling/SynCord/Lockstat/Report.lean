import SynCord.Lockstat.Machine

/-!
# SynCord.Lockstat.Report

The report on the locks, `print_stacks` in `get_bpflockstat.c`. It walks through the map with
`bpf_map_get_next_key`, from a key that is not initialised. A key that is not in the map leads to
the first one, and a key that happens to be in it leads to the one after it.

* `printStacks_after` — from a key of the map the report has the keys that come after it.
* `report_complete_iff` — every lock is listed once exactly if the walk begins with a key that is
  not in the map.
-/

namespace SynCord
namespace Lockstat

/-- A line of `print_stack`. -/
structure Row where
  key : Word
  contentions : Word
  conBounces : Word
  acquisitions : Word
  acqBounces : Word
  waittime : TimeStat
  holdtime : TimeStat
  deriving DecidableEq

def printStack (key : Word) (data : Data) : Row :=
  ⟨key, data.contentions, data.conBounces, data.acquisitions, data.acqBounces, data.waittime,
    data.holdtime⟩

inductive ReportLine where
  | notFound
  | row (r : Row)
  deriving DecidableEq

/-- The order in which the map hands out its keys. -/
structure Enumeration (m : HashMap) where
  order : List Word
  perm : order.Perm m.keys

/-- `none` is an error. -/
def bpfMapGetNextKey (order : List Word) (key : Word) : Option Word :=
  match order.idxOf? key with
  | none => order.head?
  | some i => order[i + 1]?

/-- The loop, with a bound on the number of rounds. It is `none` if they are not enough. `data` is
what the variable has from the round before. -/
def printStacks (m : HashMap) (order : List Word) : Nat → Word → Data → Option (List ReportLine)
  | 0, _, _ => none
  | rounds + 1, key, data =>
    match bpfMapGetNextKey order key with
    | none => some []
    | some nextKey =>
      match m.lookup nextKey with
      | none =>
        (printStacks m order rounds nextKey data).map fun lines =>
          .notFound :: .row (printStack nextKey data) :: lines
      | some data =>
        (printStacks m order rounds nextKey data).map fun lines =>
          .row (printStack nextKey data) :: lines

/-- The loop stops after these lines. -/
def Prints (m : HashMap) (order : List Word) (key : Word) (data : Data)
    (lines : List ReportLine) : Prop :=
  ∃ rounds, printStacks m order rounds key data = some lines

/-- A line for every entry, and no other line. -/
def Complete (m : HashMap) (lines : List ReportLine) : Prop :=
  lines.Perm (m.entries.map fun e => .row (printStack e.1 e.2))

section Walk

variable {m : HashMap} {order pre rest : List Word} {key : Word} {data : Data}
  {lines lines' : List ReportLine}

theorem printStacks_succ {rounds : Nat} (h : printStacks m order rounds key data = some lines) :
    printStacks m order (rounds + 1) key data = some lines := by
  induction rounds generalizing key data lines with
  | zero => cases h
  | succ rounds ih =>
    rw [printStacks] at h ⊢
    cases hnext : bpfMapGetNextKey order key with
    | none => rw [hnext] at h; exact h
    | some next =>
      rw [hnext] at h
      dsimp only at h ⊢
      cases hd : m.lookup next with
      | none =>
        rw [hd] at h
        obtain ⟨lines', hl, rfl⟩ := Option.map_eq_some_iff.1 h
        exact Option.map_eq_some_iff.2 ⟨lines', ih hl, rfl⟩
      | some d =>
        rw [hd] at h
        obtain ⟨lines', hl, rfl⟩ := Option.map_eq_some_iff.1 h
        exact Option.map_eq_some_iff.2 ⟨lines', ih hl, rfl⟩

theorem printStacks_mono {rounds rounds' : Nat} (hle : rounds ≤ rounds')
    (h : printStacks m order rounds key data = some lines) :
    printStacks m order rounds' key data = some lines := by
  induction hle with
  | refl => exact h
  | step _ ih => exact printStacks_succ ih

theorem Prints.unique (h : Prints m order key data lines) (h' : Prints m order key data lines') :
    lines = lines' := by
  obtain ⟨n, hn⟩ := h
  obtain ⟨n', hn'⟩ := h'
  have hmax := printStacks_mono (Nat.le_max_left n n') hn
  rw [printStacks_mono (Nat.le_max_right n n') hn'] at hmax
  exact (Option.some.inj hmax).symm

/-- The line for a key of the map. -/
def rowOf (m : HashMap) (key : Word) : ReportLine :=
  .row (printStack key ((m.lookup key).getD .zero))

theorem getNextKey_after (hkey : key ∉ pre) :
    bpfMapGetNextKey (pre ++ key :: rest) key = rest.head? := by
  have hidx : (pre ++ key :: rest).idxOf? key = some pre.length := by
    rw [List.idxOf?_eq_some_iff]
    refine ⟨by simp, by simp, fun j hj => ?_⟩
    rw [List.getElem_append_left hj]
    exact fun h => hkey (h ▸ List.getElem_mem hj)
  rw [bpfMapGetNextKey, hidx]
  simp [List.getElem?_append_right, List.head?_eq_getElem?]

theorem getNextKey_absent (hkey : key ∉ order) : bpfMapGetNextKey order key = order.head? := by
  rw [bpfMapGetNextKey, List.idxOf?_eq_none_iff.2 hkey]

theorem printStacks_cons {next : Word} {rounds : Nat}
    (hnext : bpfMapGetNextKey order key = some next) (hmem : next ∈ m.keys)
    (h : printStacks m order rounds next ((m.lookup next).getD .zero) = some lines) :
    printStacks m order (rounds + 1) key data = some (rowOf m next :: lines) := by
  obtain ⟨d, hd⟩ := Option.ne_none_iff_exists'.1 (BoundedMap.lookup_ne_none.2 hmem)
  rw [hd] at h
  rw [printStacks, hnext]
  simp only [hd, rowOf]
  exact Option.map_eq_some_iff.2 ⟨lines, h, rfl⟩

/-- The induction is on the keys that are still to come. -/
theorem printStacks_after (hnodup : (pre ++ key :: rest).Nodup) (hmem : ∀ k ∈ rest, k ∈ m.keys)
    (data : Data) : printStacks m (pre ++ key :: rest) (rest.length + 1) key data =
      some (rest.map (rowOf m)) := by
  have hkey : key ∉ pre := fun h =>
    (List.nodup_append.1 hnodup).2.2 key h key (List.mem_cons_self ..) rfl
  induction rest generalizing pre key data with
  | nil =>
    rw [printStacks, getNextKey_after hkey]
    rfl
  | cons next rest ih =>
    have hassoc : pre ++ key :: next :: rest = (pre ++ [key]) ++ next :: rest := by simp
    refine printStacks_cons (getNextKey_after hkey) (hmem next (List.mem_cons_self ..)) ?_
    rw [hassoc] at hnodup ⊢
    refine ih hnodup (fun k hk => hmem k (List.mem_cons_of_mem _ hk)) _ fun h => ?_
    exact (List.nodup_append.1 hnodup).2.2 next h next (List.mem_cons_self ..) rfl

theorem printStacks_absent (hnodup : order.Nodup) (hmem : ∀ k ∈ order, k ∈ m.keys)
    (hkey : key ∉ order) (data : Data) :
    printStacks m order (order.length + 1) key data = some (order.map (rowOf m)) := by
  match order with
  | [] =>
    rw [printStacks, getNextKey_absent hkey]
    rfl
  | next :: rest =>
    refine printStacks_cons (getNextKey_absent hkey) (hmem next (List.mem_cons_self ..)) ?_
    show printStacks m ([] ++ next :: rest) (rest.length + 1) next _ = _
    exact printStacks_after hnodup (fun k hk => hmem k (List.mem_cons_of_mem _ hk)) _

end Walk

theorem rowOf_entries (m : HashMap) :
    m.keys.map (rowOf m) = m.entries.map fun e => .row (printStack e.1 e.2) := by
  rw [BoundedMap.keys, List.map_map]
  refine List.map_congr_left fun e he => ?_
  show rowOf m e.1 = _
  rw [rowOf, BoundedMap.lookup_of_mem he]
  rfl

theorem report_complete_iff {m : HashMap} (e : Enumeration m) (key : Word) (data : Data) :
    (∃ lines, Prints m e.order key data lines ∧ Complete m lines) ↔ key ∉ m.keys := by
  have hnodup : e.order.Nodup := e.perm.nodup_iff.2 m.nodup
  have hmem : ∀ k ∈ e.order, k ∈ m.keys := fun k hk => e.perm.mem_iff.1 hk
  constructor
  · rintro ⟨lines, hprints, hcomplete⟩ hkey
    obtain ⟨pre, rest, horder⟩ := List.append_of_mem (e.perm.mem_iff.2 hkey)
    have hafter : Prints m e.order key data (rest.map (rowOf m)) := by
      rw [horder] at hnodup hmem ⊢
      exact ⟨_, printStacks_after hnodup (fun k hk => hmem k (by simp [hk])) data⟩
    -- The report has as many lines as there are keys after this one.
    have hlen := hcomplete.length_eq
    have hall := e.perm.length_eq
    rw [hprints.unique hafter, List.length_map, List.length_map] at hlen
    rw [horder, BoundedMap.keys, List.length_map, List.length_append, List.length_cons] at hall
    omega
  · intro hkey
    have habsent : key ∉ e.order := fun h => hkey (hmem key h)
    refine ⟨_, ⟨_, printStacks_absent hnodup hmem habsent data⟩, ?_⟩
    rw [Complete, ← rowOf_entries]
    exact e.perm.map _

/-- A map with the locks at 64 and at 128. -/
def twoLocks : HashMap where
  entries := [(64, .zero), (128, .zero)]
  nodup := by decide
  bound := by decide

/-- The variable happens to have the address of the first lock. -/
theorem report_complete_first :
    Prints twoLocks [64, 128] 64 .zero [.row (printStack 128 .zero)] ∧
    ¬ Complete twoLocks [.row (printStack 128 .zero)] := by
  refine ⟨⟨2, rfl⟩, fun h => ?_⟩
  exact absurd h.length_eq (by decide)

end Lockstat
end SynCord
