import Mathlib.Data.List.Nodup
import Mathlib.Tactic.Common

/-!
# SynCord.BoundedMap

A map that holds at most `n` keys, in the order in which they came. A new key is refused when the
map is full, and a value that was looked up can be written in place.

* `update_new`, `update_full` — what inserting a key that is not there does.
* `lookup_set`, `keys_set` — a write in place changes one value and no key.
-/

namespace SynCord

structure BoundedMap (κ ν : Type) (n : Nat) where
  entries : List (κ × ν)
  nodup : (entries.map Prod.fst).Nodup
  bound : entries.length ≤ n

namespace BoundedMap

variable {κ ν : Type} {n : Nat}

def empty : BoundedMap κ ν n := ⟨[], .nil, Nat.zero_le n⟩

def keys (m : BoundedMap κ ν n) : List κ := m.entries.map Prod.fst

theorem keys_length_le (m : BoundedMap κ ν n) : m.keys.length ≤ n := by
  rw [keys, List.length_map]
  exact m.bound

variable [DecidableEq κ]

def lookup (m : BoundedMap κ ν n) (k : κ) : Option ν :=
  (m.entries.find? fun e => e.1 = k).map Prod.snd

/-- The entries with the value of `k` replaced. -/
def replace (k : κ) (v : ν) (es : List (κ × ν)) : List (κ × ν) :=
  es.map fun e => if e.1 = k then (k, v) else e

theorem map_fst_replace (k : κ) (v : ν) (es : List (κ × ν)) :
    (replace k v es).map Prod.fst = es.map Prod.fst := by
  rw [replace, List.map_map]
  refine List.map_congr_left fun e _ => ?_
  by_cases h : e.1 = k <;> simp [h]

/-- A write through the pointer that `lookup` returned. -/
def set (m : BoundedMap κ ν n) (k : κ) (v : ν) : BoundedMap κ ν n where
  entries := replace k v m.entries
  nodup := by rw [map_fst_replace]; exact m.nodup
  bound := by rw [replace, List.length_map]; exact m.bound

/-- Insert or overwrite; `none` when the key is new and the map is full. -/
def update (m : BoundedMap κ ν n) (k : κ) (v : ν) : Option (BoundedMap κ ν n) :=
  if hk : k ∈ m.keys then some (m.set k v)
  else if hn : m.entries.length < n then
    some ⟨m.entries ++ [(k, v)],
      by simpa using List.nodup_append_comm.1 (List.nodup_cons.2 ⟨hk, m.nodup⟩),
      by rw [List.length_append]; exact hn⟩
  else none

variable {m : BoundedMap κ ν n} {k x : κ} {v : ν}

@[simp] theorem lookup_empty : (empty : BoundedMap κ ν n).lookup k = none := rfl

theorem lookup_eq_none : m.lookup k = none ↔ k ∉ m.keys := by
  simp only [lookup, keys, Option.map_eq_none_iff, List.find?_eq_none, decide_eq_true_eq,
    List.mem_map, not_exists, not_and]

theorem lookup_ne_none : m.lookup k ≠ none ↔ k ∈ m.keys := by
  rw [Ne, lookup_eq_none, not_not]

/-- Keys are distinct, so the entry of a key is the one that is found. -/
theorem lookup_of_mem (h : (k, v) ∈ m.entries) : m.lookup k = some v := by
  obtain ⟨w, hw⟩ := Option.ne_none_iff_exists'.1 (lookup_ne_none.2 (List.mem_map_of_mem h))
  obtain ⟨e, he, rfl⟩ := Option.map_eq_some_iff.1 hw
  have hk : e.1 = k := by simpa using List.find?_some he
  obtain rfl : e = (k, v) := List.inj_on_of_nodup_map m.nodup (List.mem_of_find?_eq_some he) h hk
  exact hw

@[simp] theorem keys_set : (m.set k v).keys = m.keys := map_fst_replace k v m.entries

theorem find?_replace (k x : κ) (v : ν) (es : List (κ × ν)) :
    ((replace k v es).find? fun e => e.1 = x).map Prod.snd =
      ((es.find? fun e => e.1 = x).map Prod.snd).map fun w => if x = k then v else w := by
  induction es with
  | nil => rfl
  | cons e es ih =>
    by_cases hx : e.1 = x
    · by_cases hk : e.1 = k
      · have hxk : k = x := hk.symm.trans hx
        simp [replace, hk, hxk]
      · have hxk : x ≠ k := fun h => hk (hx.trans h)
        simp [replace, hx, hxk]
    · have hx' : (if e.1 = k then (k, v) else e).1 ≠ x := by
        by_cases hk : e.1 = k
        · rw [if_pos hk]; exact fun h => hx (hk.trans h)
        · rwa [if_neg hk]
      simpa [replace, List.find?_cons, hx, hx'] using ih

/-- A write in place does not make an entry where there is none. -/
theorem lookup_set : (m.set k v).lookup x =
    (m.lookup x).map fun w => if x = k then v else w := find?_replace k x v m.entries

theorem lookup_set_of_mem (h : m.lookup k ≠ none) : (m.set k v).lookup x =
    if x = k then some v else m.lookup x := by
  rw [lookup_set]
  by_cases hx : x = k
  · subst hx
    obtain ⟨w, hw⟩ := Option.ne_none_iff_exists'.1 h
    simp [hw]
  · simp [hx]

theorem update_new (h : m.lookup k = none) (hn : m.keys.length < n) (v : ν) :
    ∃ m', m.update k v = some m' ∧ m'.keys = m.keys ++ [k] ∧
      ∀ x, m'.lookup x = if x = k then some v else m.lookup x := by
  have hk := lookup_eq_none.1 h
  have hl : m.entries.length < n := by simpa [keys] using hn
  refine ⟨_, by rw [update, dif_neg hk, dif_pos hl], by simp [keys], fun x => ?_⟩
  by_cases hx : x = k
  · subst hx
    have hf : m.entries.find? (fun e => e.1 = x) = none := by simpa [lookup] using h
    simp [lookup, List.find?_append, hf]
  · simp [lookup, List.find?_append, hx, Ne.symm hx]

theorem update_full (h : m.lookup k = none) (hn : m.keys.length = n) (v : ν) :
    m.update k v = none := by
  have hl : ¬ m.entries.length < n := by
    have : m.entries.length = n := by simpa [keys] using hn
    omega
  rw [update, dif_neg (lookup_eq_none.1 h), dif_neg hl]

end BoundedMap

end SynCord
