import Mathlib.Data.List.Infix
import Mathlib.Data.List.DropRight
import SynCord.Text

/-!
# SynCord.Strings

The methods of Python's `str` that split, strip and search, and how a file is read as text.

* `replace_readlines` — what contains no line break can be replaced line by line.
* `readlines_lines` — the lines that were written are the lines that are read.
-/

namespace SynCord
namespace Text

/-- `str.isspace` -/
def isSpace (c : Char) : Bool :=
  let n := c.toNat
  (9 ≤ n && n ≤ 13) || (28 ≤ n && n ≤ 32) || n == 0x85 || n == 0xa0 || n == 0x1680 ||
    (0x2000 ≤ n && n ≤ 0x200a) || n == 0x2028 || n == 0x2029 || n == 0x202f || n == 0x205f ||
    n == 0x3000

/-- The class `\w`, for ASCII. -/
def isWord (c : Char) : Bool := c.isAlphanum || c == '_'

/-- The characters at which `splitlines` splits. -/
def isLineBreak (c : Char) : Bool :=
  let n := c.toNat
  (10 ≤ n && n ≤ 13) || (28 ≤ n && n ≤ 30) || n == 0x85 || n == 0x2028 || n == 0x2029

/-- `str.splitlines()`. The end of a line does not begin another one. -/
def splitlines : Text → List Text
  | [] => []
  | '\r' :: '\n' :: cs => [] :: splitlines cs
  | c :: cs =>
    if isLineBreak c then [] :: splitlines cs
    else
      match splitlines cs with
      | [] => [[c]]
      | l :: ls => (c :: l) :: ls

def strip (t : Text) : Text := (t.dropWhile isSpace).rdropWhile isSpace

/-- `str.split()` without a separator. -/
def words (t : Text) : List Text := (t.splitOnP isSpace).filter (· ≠ [])

/-- `t[start:stop]`, for indices that are not negative. -/
def slice (t : Text) (start stop : Nat) : Text := (t.take stop).drop start

def find (c : Char) (t : Text) : Option Nat := t.idxOf? c

def rfind (c : Char) (t : Text) : Option Nat := (t.reverse.idxOf? c).map (t.length - 1 - ·)

/-- `needle in t` -/
def contains (needle t : Text) : Bool := t.tails.any (needle.isPrefixOf ·)

/-! ## Searching and splitting -/

theorem not_mem_of_class {p : Char → Bool} {t : Text} (h : ∀ c ∈ t, p c = true) {c : Char}
    (hc : p c = false) : c ∉ t := by
  intro hmem
  rw [h c hmem] at hc
  cases hc

theorem isWord_range {c : Char} (h : isWord c = true) :
    (48 ≤ c.toNat ∧ c.toNat ≤ 57) ∨ (65 ≤ c.toNat ∧ c.toNat ≤ 122) := by
  delta isWord Char.isAlphanum Char.isAlpha Char.isUpper Char.isLower Char.isDigit at h
  simp only [Bool.or_eq_true, Bool.and_eq_true, decide_eq_true_eq, beq_iff_eq, ge_iff_le,
    UInt32.le_iff_toNat_le] at h
  have hval : c.toNat = c.val.toNat := rfl
  have hletters : 'A'.val.toNat = 65 ∧ 'Z'.val.toNat = 90 ∧ 'a'.val.toNat = 97 ∧
      'z'.val.toNat = 122 ∧ '0'.val.toNat = 48 ∧ '9'.val.toNat = 57 := by decide
  rcases h with h | rfl
  · omega
  · decide

theorem isSpace_of_isWord {c : Char} (h : isWord c = true) : isSpace c = false := by
  have hrange := isWord_range h
  simp only [isSpace, Bool.or_eq_false_iff, Bool.and_eq_false_imp, decide_eq_true_eq,
    decide_eq_false_iff_not, beq_eq_false_iff_ne]
  omega

theorem find_append {c : Char} {t : Text} (h : c ∉ t) (u : Text) :
    find c (t ++ c :: u) = some t.length := by
  have ht : t.findIdx? (· == c) = none := by
    rw [List.findIdx?_eq_none_iff]
    intro x hx
    rw [beq_eq_false_iff_ne]
    rintro rfl
    exact h hx
  rw [find, List.idxOf?, List.findIdx?_append, ht, List.findIdx?_cons]
  simp

theorem rfind_append {c : Char} {u : Text} (h : c ∉ u) (t : Text) :
    rfind c (t ++ c :: u) = some t.length := by
  have hidx : (t ++ c :: u).reverse.idxOf? c = some u.length := by
    have hfind := find_append (fun h' => h (List.mem_reverse.1 h')) t.reverse
    rw [List.length_reverse] at hfind
    rw [List.reverse_append, List.reverse_cons, List.append_assoc]
    exact hfind
  have hlength : t.length + (u.length + 1) - 1 - u.length = t.length := by omega
  rw [rfind, hidx, Option.map_some, List.length_append, List.length_cons, hlength]

theorem rfind_of_not_mem {c : Char} {t : Text} (h : c ∉ t) : rfind c t = none := by
  have hidx : t.reverse.idxOf? c = none := by
    rw [List.idxOf?_eq_none_iff]
    simp [h]
  rw [rfind, hidx]
  rfl

theorem contains_iff {needle t : Text} : contains needle t = true ↔ needle <:+: t := by
  simp only [contains, List.any_eq_true, List.mem_tails, List.isPrefixOf_iff_prefix,
    List.infix_iff_prefix_suffix]
  constructor
  · rintro ⟨u, hu, hpre⟩
    exact ⟨u, hpre, hu⟩
  · rintro ⟨u, hpre, hu⟩
    exact ⟨u, hu, hpre⟩

theorem mem_intersperse {x : Text} {l : List Text} (h : x ∈ l) (sep : Text) :
    x ∈ l.intersperse sep := by
  induction l with
  | nil => cases h
  | cons a l ih =>
    cases l with
    | nil => exact h
    | cons b l =>
      rw [List.intersperse_cons_cons]
      rcases List.mem_cons.1 h with rfl | h
      · exact List.mem_cons_self
      · exact List.mem_cons_of_mem _ (List.mem_cons_of_mem _ (ih h))

theorem dropWhile_stop {p : Char → Bool} {c : Char} (hc : p c = false) (t u : Text) :
    (t ++ c :: u).dropWhile p = t.dropWhile p ++ c :: u := by
  have hstop : (c :: u).dropWhile p = c :: u := List.dropWhile_cons_of_neg (by simp [hc])
  rw [List.dropWhile_append, hstop]
  split
  · rename_i h
    rw [List.isEmpty_iff.1 h]
    rfl
  · rfl

theorem rdropWhile_stop {p : Char → Bool} {c : Char} (hc : p c = false) (t u : Text) :
    (t ++ c :: u).rdropWhile p = t ++ c :: u.rdropWhile p := by
  have hrev : (t ++ c :: u).reverse = u.reverse ++ c :: t.reverse := by simp
  rw [List.rdropWhile, hrev, dropWhile_stop hc]
  simp [List.rdropWhile]

theorem infix_strip (t : Text) : strip t <:+: t :=
  (List.rdropWhile_prefix _ _).isInfix.trans (List.dropWhile_suffix _).isInfix

theorem dropWhile_of_forall {p : Char → Bool} {t : Text} (h : ∀ c ∈ t, p c = false) :
    t.dropWhile p = t := by
  cases t with
  | nil => rfl
  | cons c t => exact List.dropWhile_cons_of_neg (by simp [h c List.mem_cons_self])

theorem strip_append {a t b : Text} (ha : ∀ c ∈ a, isSpace c = true)
    (ht : ∀ c ∈ t, isSpace c = false) (hb : ∀ c ∈ b, isSpace c = true) :
    strip (a ++ (t ++ b)) = t := by
  have hfront : (t ++ b).dropWhile isSpace = if t = [] then [] else t ++ b := by
    cases t with
    | nil => simpa using hb
    | cons c t => exact List.dropWhile_cons_of_neg (by simp [ht c List.mem_cons_self])
  have hback : (t ++ b).rdropWhile isSpace = t := by
    rw [List.rdropWhile, List.reverse_append,
      List.dropWhile_append_of_pos fun c hc => hb c (List.mem_reverse.1 hc),
      dropWhile_of_forall fun c hc => ht c (List.mem_reverse.1 hc), List.reverse_reverse]
  rw [strip, List.dropWhile_append_of_pos ha, hfront]
  split
  · rename_i hnil
    rw [hnil]
    rfl
  · exact hback

theorem not_mem_splitOnP {p : Char → Bool} {x t : Text} (h : x ∈ t.splitOnP p) :
    ∀ c ∈ x, p c = false := by
  induction t generalizing x with
  | nil =>
    rw [List.splitOnP_nil, List.mem_singleton] at h
    subst h
    exact List.forall_mem_nil _
  | cons d t ih =>
    rw [List.splitOnP_cons_eq_if_modifyHead] at h
    split at h
    · rcases List.mem_cons.1 h with rfl | h
      · exact List.forall_mem_nil _
      · exact ih h
    · rename_i hd
      cases hs : t.splitOnP p with
      | nil => exact absurd hs (List.splitOnP_ne_nil p t)
      | cons y ys =>
        rw [hs, List.modifyHead_cons] at h
        rw [hs] at ih
        rcases List.mem_cons.1 h with rfl | h
        · exact List.forall_mem_cons.2 ⟨by simpa using hd, ih List.mem_cons_self⟩
        · exact ih (List.mem_cons_of_mem y h)

theorem not_isSpace_of_mem_words {x t : Text} (h : x ∈ words t) :
    x ≠ [] ∧ ∀ c ∈ x, isSpace c = false := by
  obtain ⟨hmem, hne⟩ := List.mem_filter.1 h
  exact ⟨by simpa using hne, not_mem_splitOnP hmem⟩

/-! ## Files -/

/-- What reading in text mode makes of line ends: `\r\n` and `\r` become `\n`. `cr` tells that the
last character was `\r`. -/
def universalFrom : Bool → Text → Text
  | _, [] => []
  | cr, c :: cs =>
    if c = '\r' then '\n' :: universalFrom true cs
    else if c = '\n' ∧ cr = true then universalFrom false cs
    else c :: universalFrom false cs

def universal (t : Text) : Text := universalFrom false t

/-- `readlines()`: the lines, each with its end. -/
def readlines : Text → List Text
  | [] => []
  | c :: cs =>
    if c = '\n' then [c] :: readlines cs
    else
      match readlines cs with
      | [] => [[c]]
      | l :: ls => (c :: l) :: ls

theorem universalFrom_of_not_mem {t : Text} (h : '\r' ∉ t) : universalFrom false t = t := by
  induction t with
  | nil => rfl
  | cons c t ih =>
    rw [List.mem_cons, not_or] at h
    rw [universalFrom, if_neg (Ne.symm h.1), if_neg (by simp), ih h.2]

theorem universal_of_not_mem {t : Text} (h : '\r' ∉ t) : universal t = t :=
  universalFrom_of_not_mem h

theorem not_mem_universalFrom (cr : Bool) (t : Text) : '\r' ∉ universalFrom cr t := by
  induction t generalizing cr with
  | nil => simp [universalFrom]
  | cons c t ih =>
    rw [universalFrom]
    split
    · simp [ih]
    · rename_i hc
      split
      · exact ih false
      · simp [Ne.symm hc, ih]

theorem readlines_append {l : Text} (h : '\n' ∉ l) (t : Text) :
    readlines (l ++ '\n' :: t) = (l ++ ['\n']) :: readlines t := by
  induction l with
  | nil => simp [readlines]
  | cons c l ih =>
    rw [List.mem_cons, not_or] at h
    rw [List.cons_append, readlines, if_neg (Ne.symm h.1), ih h.2]
    rfl

theorem readlines_of_not_mem {l : Text} (h : '\n' ∉ l) (hl : l ≠ []) : readlines l = [l] := by
  induction l with
  | nil => exact absurd rfl hl
  | cons c l ih =>
    rw [List.mem_cons, not_or] at h
    rw [readlines, if_neg (Ne.symm h.1)]
    cases l with
    | nil => rfl
    | cons d l =>
      rw [ih h.2 (by simp)]

theorem readlines_lines {ls : List Text} (h : ∀ l ∈ ls, '\n' ∉ l) :
    readlines (ls.flatMap (· ++ ['\n'])) = ls.map (· ++ ['\n']) := by
  induction ls with
  | nil => rfl
  | cons l ls ih =>
    have hl := h l List.mem_cons_self
    have hls := ih fun x hx => h x (List.mem_cons_of_mem _ hx)
    rw [List.flatMap_cons, List.append_assoc, List.singleton_append, readlines_append hl, hls,
      List.map_cons]

/-- A text has no line break, or a first one. -/
theorem newline_cases (t : Text) :
    '\n' ∉ t ∨ ∃ l rest, t = l ++ '\n' :: rest ∧ '\n' ∉ l := by
  by_cases h : '\n' ∈ t
  · obtain ⟨l, rest, rfl, hl⟩ := List.eq_append_cons_of_mem h
    exact .inr ⟨l, rest, rfl, hl⟩
  · exact .inl h

section Replace

variable {needle new : Text}

/-- `skip` is used up before the line break: a match does not reach beyond it. -/
theorem replaceFrom_newline (hne : needle ≠ []) (hn : '\n' ∉ needle) (a b : Text) {skip : Nat}
    (h : skip ≤ a.length) : replaceFrom needle new skip (a ++ '\n' :: b) =
      replaceFrom needle new skip (a ++ ['\n']) ++ replaceFrom needle new 0 b := by
  induction a generalizing skip with
  | nil =>
    obtain rfl : skip = 0 := Nat.le_zero.1 h
    have hno : ∀ t : Text, needle.isPrefixOf ('\n' :: t) = false := by
      intro t
      have hnil : needle.isPrefixOf [] = false := by
        cases needle with
        | nil => exact absurd rfl hne
        | cons c needle => rfl
      rw [← hnil]
      exact prefix_before_newline hn [] t
    simp [replaceFrom, hno]
  | cons c a ih =>
    cases skip with
    | succ skip => exact ih (Nat.le_of_succ_le_succ h)
    | zero =>
      have hfull := prefix_before_newline hn (c :: a) b
      have hline := prefix_before_newline hn (c :: a) []
      rw [List.cons_append] at hfull hline
      rw [List.cons_append, List.cons_append, replaceFrom, replaceFrom, hfull, hline]
      split
      · rename_i hp
        have hlen := (List.isPrefixOf_iff_prefix.1 hp).length_le
        rw [List.length_cons] at hlen
        rw [ih (by omega), List.append_assoc]
      · rw [ih (Nat.zero_le _)]
        rfl

theorem replace_readlines (hne : needle ≠ []) (hn : '\n' ∉ needle) (t : Text) :
    ((readlines t).map (replace needle new)).flatten = replace needle new t := by
  induction hlen : t.length using Nat.strong_induction_on generalizing t with
  | _ n ih =>
    rcases newline_cases t with ht | ⟨l, rest, rfl, hl⟩
    · cases t with
      | nil => rfl
      | cons c cs =>
        rw [readlines_of_not_mem ht (by simp)]
        simp
    · have hrest := ih rest.length (by
        rw [← hlen]
        simp
        omega) rest rfl
      rw [readlines_append hl, List.map_cons, List.flatten_cons, hrest]
      exact (replaceFrom_newline hne hn l rest (Nat.zero_le _)).symm

end Replace

end Text
end SynCord
