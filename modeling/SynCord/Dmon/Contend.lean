import SynCord.Strings
import Mathlib.Data.Char
import Mathlib.Data.List.Destutter
import Mathlib.Data.List.Lex

/-!
# SynCord.Dmon.Contend

The end of `run_copy.sh`, which takes the callers of the lock out of the samples of `perf script`:
`grep -A 1 rwsem` prints a line that names the lock together with the next one and puts `--` between
groups, two `sed` commands drop the lines of the lock and those with `--`, and `awk`, `sort` and
`uniq` make a list of the names in the second column.

* `result_eq` — `result.txt` has the lines that are right below a line with `rwsem` and have neither
  `rwsem` nor `--`, in their order, and no other line.
* `contend_exact` — `contend_func.txt` is in order, has no name twice and has exactly the names of
  these lines. A line with less than two columns gives the empty name.
-/

namespace SynCord
namespace Dmon
namespace Contend

open Text

/-! ## The commands -/

/-- Nothing has been printed, lines are being printed and so many more follow the last match, or
lines have been left out since. -/
inductive Grep where
  | start
  | printing (left : Nat)
  | gap
  deriving DecidableEq

def dashes : Text := ['-', '-']

/-- `grep -A context` -/
def grepAfter (context : Nat) (hit : Text → Bool) : Grep → List Text → List Text
  | _, [] => []
  | st, line :: rest =>
    if hit line then
      (if st = .gap then [dashes] else []) ++ line :: grepAfter context hit (.printing context) rest
    else
      match st with
      | .printing (left + 1) => line :: grepAfter context hit (.printing left) rest
      | .printing 0 => grepAfter context hit .gap rest
      | .gap => grepAfter context hit .gap rest
      | .start => grepAfter context hit .start rest

/-- `sed /needle/d` -/
def sedDelete (needle : Text) (lines : List Text) : List Text :=
  lines.filter fun line => !contains needle line

def target : Text := "rwsem".toList

def kept (lines : List Text) : List Text := sedDelete dashes (sedDelete target lines)

/-- `result.txt` -/
def result (lines : List Text) : List Text := kept (grepAfter 1 (contains target) .start lines)

/-- `awk '{print $2}'` -/
def secondField (line : Text) : Text :=
  ((line.splitOnP fun c => c = ' ' || c = '\t').filter (· ≠ [])).getD 1 []

/-- `uniq` -/
def uniq (lines : List Text) : List Text := lines.destutter (· ≠ ·)

/-- `contend_func.txt`. The order of `sort` is `le`. -/
def contendFunc (le : Text → Text → Bool) (lines : List Text) : List Text :=
  uniq (((result lines).map secondField).mergeSort le)

/-! ## The lines below -/

/-- The line `b` is looked for if it is right below `a`. -/
def Below (a b : Text) : Bool :=
  contains target a && !contains target b && !contains dashes b

/-- The lines that are looked for, with the line above each of them. -/
def pairs (lines : List Text) : List (Text × Text) :=
  (lines.zip lines.tail).filter fun p => Below p.1 p.2

theorem grepAfter_hit {hit : Text → Bool} {line : Text} (h : hit line = true) (context : Nat)
    (st : Grep) (rest : List Text) : grepAfter context hit st (line :: rest) =
      (if st = .gap then [dashes] else []) ++
        line :: grepAfter context hit (.printing context) rest := by
  match st with
  | .start | .gap | .printing 0 | .printing (_ + 1) => simp [grepAfter, h]

theorem kept_hit {line : Text} (h : contains target line = true) (l : List Text) :
    kept (line :: l) = kept l := by
  simp [kept, sedDelete, h]

theorem kept_dashes (l : List Text) : kept (dashes :: l) = kept l := by
  have ht : contains target dashes = false := by decide
  have hd : contains dashes dashes = true := by decide
  simp [kept, sedDelete, ht, hd]

theorem kept_line {line : Text} (h : contains target line = false) (l : List Text) :
    kept (line :: l) = (if contains dashes line then [] else [line]) ++ kept l := by
  cases hd : contains dashes line <;> simp [kept, sedDelete, h, hd]

theorem pairs_cons (a b : Text) (l : List Text) : (pairs (a :: b :: l)).map (·.2) =
    (if Below a b then [b] else []) ++ (pairs (b :: l)).map (·.2) := by
  cases h : Below a b <;> simp [pairs, h]

/-- What the state says of the line before. -/
def Last (a : Text) : Grep → Prop
  | .printing 0 => contains target a = false
  | .printing 1 => contains target a = true
  | .printing (_ + 2) => False
  | _ => contains target a = false

/-- The induction is on the lines that are left, with the line before them and the state. -/
theorem kept_grepAfter {a : Text} {st : Grep} (h : Last a st) (rest : List Text) :
    kept (grepAfter 1 (contains target) st rest) = (pairs (a :: rest)).map (·.2) := by
  induction rest generalizing a st with
  | nil => rfl
  | cons b rest ih =>
    rw [pairs_cons]
    cases hb : contains target b with
    | true =>
      have hbelow : Below a b = false := by simp [Below, hb]
      rw [grepAfter_hit hb, hbelow, ← ih (show Last b (.printing 1) from hb)]
      split <;> simp [kept_dashes, kept_hit hb]
    | false =>
      have hbelow (ha : contains target a = false) : Below a b = false := by simp [Below, ha]
      match st, h with
      | .printing 1, ha =>
        have ha : contains target a = true := ha
        simp only [grepAfter, hb, Bool.false_eq_true, if_false, kept_line hb, Below, ha,
          ih (show Last b (.printing 0) from hb)]
        cases contains dashes b <;> rfl
      | .printing 0, ha => simp [grepAfter, hb, hbelow ha, ih (show Last b .gap from hb)]
      | .gap, ha => simp [grepAfter, hb, hbelow ha, ih (show Last b .gap from hb)]
      | .start, ha => simp [grepAfter, hb, hbelow ha, ih (show Last b .start from hb)]

theorem result_eq (lines : List Text) : result lines = (pairs lines).map (·.2) := by
  rw [result]
  cases lines with
  | nil => rfl
  | cons a rest =>
    cases ha : contains target a with
    | true =>
      rw [grepAfter_hit ha, if_neg (by simp), List.nil_append, kept_hit ha]
      exact kept_grepAfter (show Last a (.printing 1) from ha) rest
    | false =>
      simp only [grepAfter, ha, Bool.false_eq_true, if_false]
      exact kept_grepAfter (show Last a .start from ha) rest

theorem mem_pairs {lines : List Text} {a b : Text} :
    (a, b) ∈ pairs lines ↔ [a, b] <:+: lines ∧ Below a b = true := by
  rw [pairs, List.mem_filter, and_congr_left_iff]
  intro _
  induction lines with
  | nil => simp
  | cons c lines ih =>
    cases lines with
    | nil => simp [List.infix_cons_iff]
    | cons d lines =>
      rw [List.tail_cons, List.zip_cons_cons, List.mem_cons, List.infix_cons_iff, ← ih]
      simp

/-! ## Sorted and without repetitions -/

theorem mem_destutter_ne' {x a : Text} {l : List Text} :
    x ∈ l.destutter' (· ≠ ·) a ↔ x ∈ a :: l := by
  induction l generalizing a with
  | nil => simp
  | cons b l ih =>
    by_cases hab : a = b
    · subst hab
      rw [List.destutter'_cons_neg _ (by simp), ih]
      simp
    · rw [List.destutter'_cons_pos _ hab, List.mem_cons, ih, List.mem_cons (b := a)]

theorem mem_uniq {x : Text} {l : List Text} : x ∈ uniq l ↔ x ∈ l := by
  cases l with
  | nil => simp [uniq]
  | cons a l => rw [uniq, List.destutter_cons', mem_destutter_ne']

section Order

variable {le : Text → Text → Bool} (htrans : ∀ a b c, le a b → le b c → le a c)
  (hanti : ∀ a b, le a b → le b a → a = b)
include htrans hanti

/-- What is in order has equal lines next to each other. -/
theorem uniq_pairwise {l : List Text} (h : l.Pairwise fun a b => le a b) :
    (uniq l).Pairwise fun a b => le a b ∧ a ≠ b := by
  have htr : IsTrans Text fun a b => le a b ∧ a ≠ b := by
    refine ⟨fun a b c hab hbc => ⟨htrans a b c hab.1 hbc.1, ?_⟩⟩
    rintro rfl
    exact hab.2 (hanti _ _ hab.1 hbc.1)
  have hle : (uniq l).IsChain fun a b => le a b :=
    (h.sublist (List.destutter_sublist _ l)).isChain
  have hne : (uniq l).IsChain (· ≠ ·) := List.isChain_destutter _ l
  rw [List.isChain_iff_forall_rel_of_append_cons_cons] at hle hne
  rw [← List.isChain_iff_pairwise, List.isChain_iff_forall_rel_of_append_cons_cons]
  exact fun a b l₁ l₂ hl => ⟨hle hl, hne hl⟩

end Order

theorem contend_exact (le : Text → Text → Bool) (htrans : ∀ a b c, le a b → le b c → le a c)
    (htotal : ∀ a b, le a b || le b a) (hanti : ∀ a b, le a b → le b a → a = b)
    (lines : List Text) :
    ((contendFunc le lines).Pairwise fun a b => le a b ∧ a ≠ b) ∧
      ∀ name, name ∈ contendFunc le lines ↔ ∃ a b, [a, b] <:+: lines ∧
        target <:+: a ∧ ¬ target <:+: b ∧ ¬ dashes <:+: b ∧ secondField b = name := by
  refine ⟨uniq_pairwise htrans hanti (List.pairwise_mergeSort htrans htotal _), fun name => ?_⟩
  rw [contendFunc, mem_uniq, List.mem_mergeSort, result_eq, List.mem_map]
  simp only [List.mem_map, Prod.exists, mem_pairs, Below, ← contains_iff, Bool.and_eq_true,
    Bool.not_eq_true', Bool.not_eq_true]
  constructor
  · rintro ⟨b, ⟨a, b, ⟨hnext, ⟨ha, hb⟩, hd⟩, rfl⟩, hname⟩
    exact ⟨a, b, hnext, ha, hb, hd, hname⟩
  · rintro ⟨a, b, hnext, ha, hb, hd, hname⟩
    exact ⟨b, ⟨a, b, ⟨hnext, ⟨ha, hb⟩, hd⟩, rfl⟩, hname⟩

/-- The order of the `C` locale. -/
def lex (a b : Text) : Bool := decide (a ≤ b)

def sample : List Text :=
  ["\tffff1 rwsem_wake+0x39 (vmlinux)".toList, "\tffff2 sys_brk+0x22f (vmlinux)".toList, []]

theorem contend_exact_sample : "sys_brk+0x22f".toList ∈ contendFunc lex sample := by
  have hlex : ∀ a b : Text, lex a b = true ↔ a ≤ b := fun a b => decide_eq_true_iff
  refine ((contend_exact lex ?_ ?_ ?_ sample).2 _).2 ⟨_, _, ⟨[], [[]], rfl⟩, ?_⟩
  · simp only [hlex]
    exact fun a b c => le_trans
  · simp only [Bool.or_eq_true, hlex]
    exact fun a b => le_total a b
  · simp only [hlex]
    exact fun a b => le_antisymm
  · simp only [← contains_iff]
    decide

end Contend
end Dmon
end SynCord
