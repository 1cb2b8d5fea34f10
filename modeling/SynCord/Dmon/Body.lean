import SynCord.Dmon.Search

/-!
# SynCord.Dmon.Body

`find_function_content` on a line that does not begin a macro. The scan for the closing brace
begins at the line itself, the body two lines below it.

* `content_of_closing`, `content_of_no_closing` — what is returned, by the first line that begins
  with a brace.
* `content_kernelStyle` — the body of a function that is laid out as in the kernel.
* `body_exact` — both, and that the loop of `find_call_stack` is over the lines of the body.
-/

namespace SynCord
namespace Dmon

open Text

/-- Lines are counted from 1. -/
def lineAt (lines : List Text) : Nat → Option Text
  | 0 => none
  | i + 1 => lines[i]?

def closing : Text := ['\x7d']

def semicolon : Text := [';']

/-- Line `k` is the first one from line `n` on that begins with a closing brace. -/
structure ClosesAt (lines : List Text) (n k : Nat) : Prop where
  from_line : n ≤ k
  closes : ∃ line, lineAt lines k = some line ∧ closing <+: line
  first : ∀ j line, n ≤ j → j < k → lineAt lines j = some line → ¬ closing <+: line

/-- The lines after line `m` and before line `k`, in their order. -/
def linesWithin (lines : List Text) (m k : Nat) : List Text :=
  ((lines.zipIdx 1).filter fun x => m < x.2 && x.2 < k).map Prod.fst

/-- A function as it is written in the kernel: the signature on one line, the opening brace on a
line of its own, and no brace at the beginning of a line before the one that ends it. -/
structure KernelStyle (lines : List Text) (n : Nat) (body : List Text) : Prop where
  signature_line : ∃ pre signature opening last post,
    lines = pre ++ signature :: opening :: (body ++ last :: post) ∧ n = pre.length + 1 ∧
      ¬ define <+: signature ∧ ¬ semicolon <:+ signature ∧ ¬ closing <+: signature ∧
        strip opening = ['\x7b'] ∧ closing <+: last
  body_open : ∀ line ∈ body, ¬ closing <+: line

theorem suffix_semicolon {line : Text} : semicolon <:+ line ↔ line.getLast? = some ';' := by
  constructor
  · rintro ⟨t, rfl⟩
    simp [semicolon]
  · intro h
    obtain ⟨t, rfl⟩ := List.getLast?_eq_some_iff.1 h
    exact ⟨t, rfl⟩

/-- A line that is no macro and no declaration is scanned from. -/
theorem content_scan {lines : List Text} {i : Nat} {line : Text} (hline : lines[i]? = some line)
    (hdef : ¬ define <+: line) (hsemi : ¬ semicolon <:+ line) :
    findFunctionContent lines (i + 1) = linesBetweenMarkers lines i := by
  have hd : define.isPrefixOf line = false := by
    rw [← Bool.not_eq_true, List.isPrefixOf_iff_prefix]
    exact hdef
  have hs : line.getLast? ≠ some ';' := fun h => hsemi (suffix_semicolon.2 h)
  simp [findFunctionContent_eq hline, functionOrMappingContent, hd, hs]

/-- The filter by line number is a `take` and a `drop`. -/
theorem linesWithin_eq (lines : List Text) (m k : Nat) :
    linesWithin lines m (k + 1) = (lines.take k).drop m := by
  suffices h : ∀ s, ((lines.zipIdx (s + 1)).filter fun x => m < x.2 && x.2 < k + 1).map Prod.fst
      = (lines.take (k - s)).drop (m - s) by
    simpa [linesWithin] using h 0
  intro s
  induction lines generalizing s with
  | nil => simp
  | cons line lines ih =>
    have hrest := ih (s + 1)
    rw [List.zipIdx_cons, List.filter_cons]
    by_cases hk : s < k
    · obtain ⟨j, hj⟩ : ∃ j, k - s = j + 1 := ⟨k - s - 1, by omega⟩
      rw [show k - (s + 1) = j by omega] at hrest
      by_cases hm : m ≤ s
      · have hin : (decide (m < s + 1) && decide (s + 1 < k + 1)) = true := by
          rw [Bool.and_eq_true, decide_eq_true_eq, decide_eq_true_eq]
          omega
        rw [show m - (s + 1) = 0 by omega, List.drop_zero] at hrest
        rw [if_pos hin, List.map_cons, hrest, hj, show m - s = 0 by omega, List.take_succ_cons,
          List.drop_zero]
      · obtain ⟨d, hd⟩ : ∃ d, m - s = d + 1 := ⟨m - s - 1, by omega⟩
        have hout : ¬ (decide (m < s + 1) && decide (s + 1 < k + 1)) = true := by
          rw [Bool.and_eq_true, decide_eq_true_eq, decide_eq_true_eq]
          omega
        rw [show m - (s + 1) = d by omega] at hrest
        rw [if_neg hout, hrest, hj, hd, List.take_succ_cons, List.drop_succ_cons]
    · have hout : ¬ (decide (m < s + 1) && decide (s + 1 < k + 1)) = true := by
        rw [Bool.and_eq_true, decide_eq_true_eq, decide_eq_true_eq]
        omega
      rw [show k - (s + 1) = 0 by omega, List.take_zero, List.drop_nil] at hrest
      rw [if_neg hout, hrest, show k - s = 0 by omega, List.take_zero, List.drop_nil]

theorem linesBetweenMarkers_of_closesAt {lines : List Text} {i k : Nat}
    (h : ClosesAt lines (i + 1) (k + 1)) :
    linesBetweenMarkers lines i = some (linesWithin lines (i + 2) (k + 1)) := by
  obtain ⟨last, hlast, hclose⟩ := h.closes
  have hik : i ≤ k := Nat.le_of_succ_le_succ h.from_line
  have hget : (lines.drop i)[k - i]? = some last := by
    rw [List.getElem?_drop, show i + (k - i) = k by omega]
    exact hlast
  have hidx : (lines.drop i).findIdx? (fun line => closing.isPrefixOf line) = some (k - i) := by
    obtain ⟨hlt, heq⟩ := List.getElem?_eq_some_iff.1 hget
    rw [List.findIdx?_eq_some_iff_getElem]
    refine ⟨hlt, ?_, ?_⟩
    · rw [heq]
      exact List.isPrefixOf_iff_prefix.2 hclose
    · intro j hj
      have hjlt : i + j < lines.length := by
        rw [List.length_drop] at hlt
        omega
      have hjline : lineAt lines (i + j + 1) = some lines[i + j] := by
        simp [lineAt, hjlt]
      have hno := h.first (i + j + 1) _ (by omega) (by omega) hjline
      rw [List.getElem_drop, List.isPrefixOf_iff_prefix]
      exact hno
  have hmark : linesBetweenMarkers lines i = some ((lines.take (i + (k - i))).drop (i + 2)) := by
    rw [linesBetweenMarkers]
    exact congrArg _ hidx
  rw [hmark, linesWithin_eq, show i + (k - i) = k by omega]

theorem closesAt_of_findIdx? {lines : List Text} {i k : Nat}
    (h : (lines.drop i).findIdx? (fun line => closing.isPrefixOf line) = some k) :
    ClosesAt lines (i + 1) (i + k + 1) := by
  obtain ⟨hlt, hclose, hfirst⟩ := List.findIdx?_eq_some_iff_getElem.1 h
  rw [List.getElem_drop, List.isPrefixOf_iff_prefix] at hclose
  have hk : i + k < lines.length := by
    rw [List.length_drop] at hlt
    omega
  refine ⟨by omega, ⟨lines[i + k], by simp [lineAt, hk], hclose⟩, ?_⟩
  intro j line hj hjk hline
  obtain ⟨j, rfl⟩ : ∃ d, j = i + d + 1 := ⟨j - i - 1, by omega⟩
  obtain ⟨_, rfl⟩ := List.getElem?_eq_some_iff.1 hline
  have hno := hfirst j (by omega)
  rw [List.getElem_drop, List.isPrefixOf_iff_prefix] at hno
  exact hno

theorem linesBetweenMarkers_of_not_closesAt {lines : List Text} {i : Nat}
    (h : ∀ k, ¬ ClosesAt lines (i + 1) k) : linesBetweenMarkers lines i = none := by
  have hidx : (lines.drop i).findIdx? (fun line => closing.isPrefixOf line) = none := by
    cases hf : (lines.drop i).findIdx? (fun line => closing.isPrefixOf line) with
    | none => rfl
    | some k => exact absurd (closesAt_of_findIdx? hf) (h _)
  rw [linesBetweenMarkers]
  exact congrArg _ hidx

section Line

variable {lines : List Text} {n : Nat} {line : Text}

theorem content_of_closing (hline : lineAt lines n = some line) (hdef : ¬ define <+: line)
    (hsemi : ¬ semicolon <:+ line) {k : Nat} (hk : ClosesAt lines n k) :
    findFunctionContent lines n = some (linesWithin lines (n + 1) k) := by
  cases n with
  | zero => cases hline
  | succ i =>
    cases k with
    | zero => exact absurd hk.from_line (by omega)
    | succ k =>
      rw [content_scan hline hdef hsemi]
      exact linesBetweenMarkers_of_closesAt hk

theorem content_of_no_closing (hline : lineAt lines n = some line) (hdef : ¬ define <+: line)
    (hsemi : ¬ semicolon <:+ line) (hk : ∀ k, ¬ ClosesAt lines n k) :
    findFunctionContent lines n = none := by
  cases n with
  | zero => cases hline
  | succ i =>
    rw [content_scan hline hdef hsemi]
    exact linesBetweenMarkers_of_not_closesAt hk

theorem content_of_no_line (hline : lineAt lines n = none) :
    findFunctionContent lines n = none := by
  refine findFunctionContent_none ?_
  rintro i rfl
  exact hline

end Line

/-- What begins with a brace still begins with it when it is stripped. -/
theorem not_closing_of_opening {line : Text} (h : strip line = ['\x7b']) : ¬ closing <+: line := by
  rintro ⟨t, rfl⟩
  have hdrop : (closing ++ t).dropWhile isSpace = closing ++ t := by
    rw [closing, List.singleton_append, List.dropWhile_cons_of_neg (by decide)]
  rw [strip, hdrop] at h
  have hpre : ['\x7b'] <+: closing ++ t := by
    rw [← h]
    exact List.rdropWhile_prefix _ _
  obtain ⟨rest, hrest⟩ := hpre
  simp [closing] at hrest

theorem content_kernelStyle {lines body : List Text} {n : Nat} (h : KernelStyle lines n body) :
    findFunctionContent lines n = some body := by
  obtain ⟨pre, signature, opening, last, post, rfl, rfl, hdef, hsemi, hsig, hopen, hlast⟩ :=
    h.signature_line
  have hfind : ((pre ++ signature :: opening :: (body ++ last :: post)).drop pre.length).findIdx?
      (fun line => closing.isPrefixOf line) = some (body.length + 2) := by
    have hno : ∀ line, ¬ closing <+: line → closing.isPrefixOf line = false := by
      intro line hl
      rw [← Bool.not_eq_true, List.isPrefixOf_iff_prefix]
      exact hl
    have hbody : body.findIdx? (fun line => closing.isPrefixOf line) = none := by
      rw [List.findIdx?_eq_none_iff]
      intro line hl
      exact hno line (h.body_open line hl)
    rw [List.drop_left, List.findIdx?_cons, hno _ hsig, List.findIdx?_cons,
      hno _ (not_closing_of_opening hopen), List.findIdx?_append, hbody, List.findIdx?_cons,
      List.isPrefixOf_iff_prefix.2 hlast]
    simp
  have hline : (pre ++ signature :: opening :: (body ++ last :: post))[pre.length]? =
      some signature := by simp
  rw [content_scan hline hdef hsemi, linesBetweenMarkers]
  refine (congrArg _ hfind).trans ?_
  simp only [Option.map_some, Option.some.injEq]
  have htake : pre ++ signature :: opening :: (body ++ last :: post) =
      (pre ++ signature :: opening :: body) ++ last :: post := by simp
  have hlen : pre.length + (body.length + 2) = (pre ++ signature :: opening :: body).length := by
    simp
  rw [htake, hlen, List.take_left]
  have hdrop : pre ++ signature :: opening :: body = (pre ++ [signature, opening]) ++ body := by
    simp
  have hlen' : pre.length + 2 = (pre ++ [signature, opening]).length := by simp
  rw [hdrop, hlen', List.drop_left]

theorem body_exact (p : Project) (path text : Text) (hfile : p.file path = some text) :
    (∀ n line, lineAt (splitlines text) n = some line → ¬ define <+: line →
      ¬ semicolon <:+ line →
        (∀ k, ClosesAt (splitlines text) n k →
          p.content ⟨path, n⟩ = some (linesWithin (splitlines text) (n + 1) k)) ∧
        ((∀ k, ¬ ClosesAt (splitlines text) n k) → p.content ⟨path, n⟩ = none)) ∧
    (∀ n, lineAt (splitlines text) n = none → p.content ⟨path, n⟩ = none) ∧
    ∀ n body, KernelStyle (splitlines text) n body →
      p.content ⟨path, n⟩ = some body ∧
      ∀ nested f fr, p.definition nested f fr ⟨path, n⟩ =
        body.foldlM (fun fr instruction => act nested f ⟨path, n⟩ fr (p.action instruction))
          { fr with found := some false } := by
  have hcontent : ∀ n, p.content ⟨path, n⟩ = findFunctionContent (splitlines text) n := by
    intro n
    simp [Project.content, hfile]
  refine ⟨?_, ?_, ?_⟩
  · intro n line hline hdef hsemi
    rw [hcontent]
    exact ⟨fun k hk => content_of_closing hline hdef hsemi hk,
      fun hk => content_of_no_closing hline hdef hsemi hk⟩
  · intro n hline
    rw [hcontent]
    exact content_of_no_line hline
  · intro n body hbody
    have hsome : p.content ⟨path, n⟩ = some body := by
      rw [hcontent]
      exact content_kernelStyle hbody
    refine ⟨hsome, ?_⟩
    intro nested f fr
    simp only [Project.definition, hsome]

def oneFunction : Project :=
  .ofTables [] [(header, "static void spin_lock(spinlock_t *lock)\n\x7b\n".toList ++
    "\traw_spin_lock(&lock->rlock);\n\x7d\n".toList)]

def oneBody : List Text := ["\traw_spin_lock(&lock->rlock);".toList]

theorem body_exact_oneFunction : oneFunction.content ⟨header, 1⟩ = some oneBody ∧
    oneFunction.content ⟨header, 2⟩ = some [] ∧ oneFunction.content ⟨header, 5⟩ = none := by
  obtain ⟨hscan, hline, hkernel⟩ := body_exact oneFunction header _ rfl
  refine ⟨(hkernel 1 oneBody ⟨⟨[], _, _, _, [], rfl, rfl, ?_⟩, ?_⟩).1,
    (hscan 2 ['\x7b'] (by decide) (by decide) (by decide)).1 4 ⟨by decide, ?_, ?_⟩,
    hline 5 (by decide)⟩
  · decide
  · decide
  · exact ⟨['\x7d'], by decide, by decide⟩
  · intro j line hj hk hline
    obtain rfl | rfl : j = 2 ∨ j = 3 := by omega
    · cases hline
      decide
    · cases hline
      decide

end Dmon
end SynCord
