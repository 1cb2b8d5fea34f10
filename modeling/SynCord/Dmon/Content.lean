import SynCord.Strings

/-!
# SynCord.Dmon.Content

What `adapt_to_bpf.py` reads of a definition: the file and line that `cscope` lists for a name, the
lines of its body and the names of its parameters.

A Python function that returns `None`, and one that catches an exception, has the result `none`.

* `scan_eq` — the loop over the lines of the file does nothing before the line that is listed, and
  after it looks for a line that begins with a closing brace.
* `findFunctionContent_eq` — what is read, by the line that is listed and the one below it.
-/

namespace SynCord
namespace Dmon

open Text

/-- A line of the output of `cscope`. Lines are counted from 1. -/
structure Def where
  path : Text
  line : Nat
  deriving DecidableEq

/-- What the search is given. Paths are those below `source_path`. -/
structure Project where
  /-- `execute_global_command` -/
  index : Text → List Def
  /-- `none` for a file that cannot be read. -/
  file : Text → Option Text

def define : Text := "#define".toList

def emptyBraces : Text := ['\x7b', ' ', '\x7d']

/-- `re.findall(r"\{(.*?)\}", line)`, with what a group has so far, in reverse. -/
def braced : Option Text → Text → List Text
  | _, [] => []
  | none, c :: cs => braced (if c = '\x7b' then some [] else none) cs
  | some group, c :: cs =>
    if c = '\x7d' then group.reverse :: braced none cs else braced (some (c :: group)) cs

/-- The statements between braces. -/
def statements (line : Text) : List Text :=
  (braced none line).flatMap fun group => (group.splitOn ';').map strip

/-- The line is not continued: `#define name mapping`, or something with more or fewer words. -/
def mapping (line : Text) : List Text :=
  match words line with
  | [_, _, mapping] => [mapping]
  | _ => [line]

/-! ## The loop over the lines -/

/-- The variables of the loop. -/
structure Markers where
  startMarker : Option Text
  startIndex : Option Nat
  endIndex : Option Nat
  isMapping : Bool

def Markers.start : Markers := ⟨none, none, none, false⟩

/-- What a turn of the loop ends with. -/
inductive Turn where
  | next (m : Markers)
  /-- `break` -/
  | stop (m : Markers)
  /-- `return`, also of what an exception leads to -/
  | ret (content : Option (List Text))

/-- The test for the end marker. -/
def Markers.close (m : Markers) (i : Nat) (line : Text) : Turn :=
  if ['\x7d'].isPrefixOf line ∧ m.startMarker ≠ none ∧ m.endIndex = none then
    .stop { m with endIndex := some i }
  else .next m

/-- The last tests on the line that is listed. -/
def Markers.open (m : Markers) (i : Nat) (line : Text) : Turn :=
  if define.isPrefixOf line ∧ line.getLast? ≠ some '\\' then
    .stop { m with startIndex := some i, endIndex := some (i + 1), isMapping := true }
  else { m with startMarker := some line, startIndex := some (i + 2) : Markers }.close i line

/-- `own` is what is done at the line that is listed, which is line `n`. -/
def scanFrom (own : Markers → Nat → Text → Turn) (n : Nat) : Markers → Nat → List Text → Turn
  | m, _, [] => .next m
  | m, i, line :: rest =>
    match if i + 1 = n then own m i line else m.close i line with
    | .next m => scanFrom own n m (i + 1) rest
    | turn => turn

/-- What is returned after the loop. -/
def Markers.content (m : Markers) (lines : List Text) : Option (List Text) :=
  match m.startIndex, m.endIndex with
  | some start, some stop =>
    if m.isMapping then some (mapping ((lines[start]?).getD []))
    else some ((lines.take stop).drop start)
  | _, _ => none

def Turn.content (lines : List Text) : Turn → Option (List Text)
  | .ret content => content
  | .next m => m.content lines
  | .stop m => m.content lines

def scan (own : Markers → Nat → Text → Turn) (lines : List Text) (n : Nat) : Option (List Text) :=
  (scanFrom own n .start 0 lines).content lines

/-- The tests that are left when the next line has been looked at. -/
def functionOrMapping (m : Markers) (i : Nat) (line : Text) : Turn :=
  if line.getLast? = some ';' then .ret none else m.open i line

def listedLine (lines : List Text) (m : Markers) (i : Nat) (line : Text) : Turn :=
  if define.isPrefixOf line ∧ (find '\\' line).any (0 < ·) then
    match lines[i + 1]? with
    -- `lines[int(line_number)]` raises an exception.
    | none => .ret none
    | some next =>
      if find '\x7b' next = none then .ret (some [next])
      else if contains emptyBraces line then .ret none
      else if (find '\x7b' next).any (0 < ·) ∧ (find '\x7d' next).any (0 < ·) then
        .ret (some (statements next))
      else functionOrMapping m i line
  else if define.isPrefixOf line ∧ contains emptyBraces line then .ret none
  else functionOrMapping m i line

def findFunctionContent (lines : List Text) (n : Nat) : Option (List Text) :=
  scan (listedLine lines) lines n

/-- What is between the first opening and the last closing parenthesis, at the commas. -/
def parameters (line : Text) : Option (List Text) :=
  match find '(' line, rfind ')' line with
  | some start, some stop => some ((slice line (start + 1) stop).splitOn ',')
  | _, _ => none

def findFunctionArguments (lines : List Text) : Nat → Option (List Text)
  | 0 => none
  | i + 1 => (lines[i]?).map fun line => ((parameters line).getD []).map strip

namespace Project

variable (p : Project)

/-- `open(path, 'r')` turns `\r` and `\r\n` into `\n`; to `splitlines` they are the same. -/
def content (d : Def) : Option (List Text) := do
  findFunctionContent (splitlines (← p.file d.path)) d.line

def arguments (d : Def) : Option (List Text) := do
  findFunctionArguments (splitlines (← p.file d.path)) d.line

end Project

/-! ## What is read -/

/-- From two lines below `i` up to the first line from `i` on that begins with a brace. -/
def linesBetweenMarkers (lines : List Text) (i : Nat) : Option (List Text) :=
  ((lines.drop i).findIdx? fun line => ['\x7d'].isPrefixOf line).map fun k =>
    (lines.take (i + k)).drop (i + 2)

section Scan

variable {own : Markers → Nat → Text → Turn} {lines : List Text} {n : Nat}

/-- Nothing happens before the line that is listed. -/
theorem scanFrom_skip (own : Markers → Nat → Text → Turn) (i : Nat) (front rest : List Text)
    (h : i + front.length < n) :
    scanFrom own n .start i (front ++ rest) =
      scanFrom own n .start (i + front.length) rest := by
  induction front generalizing i with
  | nil => rfl
  | cons line front ih =>
    rw [List.length_cons] at h
    rw [List.cons_append, scanFrom, if_neg (by omega)]
    have hclose : Markers.start.close i line = .next .start := if_neg (by simp [Markers.start])
    rw [hclose]
    refine (ih (i + 1) (by omega)).trans ?_
    rw [List.length_cons]
    congr 1
    omega

/-- After it, the first line that begins with a brace is looked for. -/
theorem scanFrom_close (own : Markers → Nat → Text → Turn) {m : Markers}
    (hstart : m.startMarker ≠ none) (hend : m.endIndex = none) (i : Nat) (h : n ≤ i)
    (rest : List Text) : scanFrom own n m i rest =
      match rest.findIdx? fun line => ['\x7d'].isPrefixOf line with
      | some k => .stop { m with endIndex := some (i + k) }
      | none => .next m := by
  induction rest generalizing i with
  | nil => rfl
  | cons line rest ih =>
    rw [scanFrom, if_neg (by omega), List.findIdx?_cons, Markers.close]
    by_cases hc : ['\x7d'].isPrefixOf line = true
    · rw [if_pos ⟨hc, hstart, hend⟩, if_pos hc]
      rfl
    · rw [if_neg fun h => hc h.1, if_neg hc]
      refine (ih (i + 1) (by omega)).trans ?_
      cases rest.findIdx? fun line => ['\x7d'].isPrefixOf line with
      | none => rfl
      | some k => simp [Nat.add_comm, Nat.add_left_comm]

theorem scan_of_none (h : ∀ i, n = i + 1 → lines[i]? = none) : scan own lines n = none := by
  have hskip : ∀ i (rest : List Text), (∀ k, n = k + 1 → i + rest.length ≤ k ∨ k < i) →
      scanFrom own n .start i rest = .next .start := by
    intro i rest
    induction rest generalizing i with
    | nil => exact fun _ => rfl
    | cons line rest ih =>
      intro hk
      have hne : i + 1 ≠ n := fun heq => by
        have := hk i heq.symm
        rw [List.length_cons] at this
        omega
      have hclose : Markers.start.close i line = .next .start := if_neg (by simp [Markers.start])
      rw [scanFrom, if_neg hne, hclose]
      refine ih (i + 1) fun k hn => ?_
      have := hk k hn
      rw [List.length_cons] at this
      omega
  rw [scan, hskip 0 lines fun k hn => ?_]
  · rfl
  · have := List.getElem?_eq_none_iff.1 (h k hn)
    omega

/-- What is read is decided at the line that is listed, or by the next brace. -/
theorem scan_eq {i : Nat} {line : Text} (hline : lines[i]? = some line) :
    scan own lines (i + 1) =
      match own .start i line with
      | .next m => (scanFrom own (i + 1) m (i + 1) (lines.drop (i + 1))).content lines
      | turn => turn.content lines := by
  obtain ⟨hlt, rfl⟩ := List.getElem?_eq_some_iff.1 hline
  have hsplit : lines = lines.take i ++ lines[i] :: lines.drop (i + 1) := by
    rw [List.getElem_cons_drop, List.take_append_drop]
  have hlen : (lines.take i).length = i := by
    rw [List.length_take]
    omega
  have hskip := scanFrom_skip (n := i + 1) own 0 (lines.take i) (lines[i] :: lines.drop (i + 1))
    (by omega)
  rw [← hsplit, hlen, Nat.zero_add] at hskip
  rw [scan, hskip, scanFrom, if_pos rfl]
  cases own .start i lines[i] <;> rfl

theorem scan_open {i : Nat} {line : Text} (hline : lines[i]? = some line)
    (hown : own .start i line = Markers.start.open i line) : scan own lines (i + 1) =
      if define.isPrefixOf line ∧ line.getLast? ≠ some '\\' then some (mapping line)
      else linesBetweenMarkers lines i := by
  rw [scan_eq hline, hown, Markers.open]
  split_ifs with hmap
  · simp [Turn.content, Markers.content, hline]
  · obtain ⟨hlt, rfl⟩ := List.getElem?_eq_some_iff.1 hline
    rw [linesBetweenMarkers, List.drop_eq_getElem_cons hlt, List.findIdx?_cons, Markers.close]
    by_cases hc : ['\x7d'].isPrefixOf lines[i] = true
    · rw [if_pos ⟨hc, by simp, rfl⟩, if_pos hc]
      rfl
    · rw [if_neg fun h => hc h.1, if_neg hc]
      dsimp only
      rw [scanFrom_close own (by simp) rfl _ (le_refl _)]
      cases (lines.drop (i + 1)).findIdx? fun line => ['\x7d'].isPrefixOf line with
      | none => rfl
      | some k =>
        simp [Turn.content, Markers.content, Markers.start, Nat.add_comm, Nat.add_left_comm]

end Scan

/-- What is read where the tests on the next line and for empty braces do not decide. -/
def functionOrMappingContent (lines : List Text) (i : Nat) (line : Text) : Option (List Text) :=
  if line.getLast? = some ';' then none
  else if define.isPrefixOf line ∧ line.getLast? ≠ some '\\' then some (mapping line)
  else linesBetweenMarkers lines i

theorem findFunctionContent_eq {lines : List Text} {i : Nat} {line : Text}
    (hline : lines[i]? = some line) : findFunctionContent lines (i + 1) =
      if define.isPrefixOf line ∧ (find '\\' line).any (0 < ·) then
        match lines[i + 1]? with
        | none => none
        | some next =>
          if find '\x7b' next = none then some [next]
          else if contains emptyBraces line then none
          else if (find '\x7b' next).any (0 < ·) ∧ (find '\x7d' next).any (0 < ·) then
            some (statements next)
          else functionOrMappingContent lines i line
      else if define.isPrefixOf line ∧ contains emptyBraces line then none
      else functionOrMappingContent lines i line := by
  have hret : ∀ content, listedLine lines .start i line = .ret content →
      findFunctionContent lines (i + 1) = content := by
    intro content h
    rw [findFunctionContent, scan_eq hline, h]
    rfl
  have hrest : listedLine lines .start i line = functionOrMapping .start i line →
      findFunctionContent lines (i + 1) = functionOrMappingContent lines i line := by
    intro h
    rw [functionOrMapping] at h
    rw [functionOrMappingContent]
    split_ifs at h ⊢
    · exact hret none h
    · rw [findFunctionContent, scan_open hline h, if_pos ‹_›]
    · rw [findFunctionContent, scan_open hline h, if_neg ‹_›]
  by_cases hb : define.isPrefixOf line ∧ (find '\\' line).any (0 < ·)
  · rw [if_pos hb]
    cases hnext : lines[i + 1]? with
    | none => exact hret none (by simp only [listedLine, if_pos hb, hnext])
    | some next =>
      dsimp only
      split_ifs with hplain hempty hbraces
      · exact hret _ (by simp only [listedLine, if_pos hb, hnext, if_pos hplain])
      · exact hret _ (by simp only [listedLine, if_pos hb, hnext, if_neg hplain, if_pos hempty])
      · exact hret _ (by
          simp only [listedLine, if_pos hb, hnext, if_neg hplain, if_neg hempty, if_pos hbraces])
      · exact hrest (by
          simp only [listedLine, if_pos hb, hnext, if_neg hplain, if_neg hempty, if_neg hbraces])
  · rw [if_neg hb]
    split_ifs with hempty
    · exact hret _ (by simp only [listedLine, if_neg hb, if_pos hempty])
    · exact hrest (by simp only [listedLine, if_neg hb, if_neg hempty])

theorem findFunctionContent_none {lines : List Text} {n : Nat}
    (h : ∀ i, n = i + 1 → lines[i]? = none) : findFunctionContent lines n = none :=
  scan_of_none h

end Dmon
end SynCord
