import SynCord.Dmon.Search
import Mathlib.Data.List.TakeWhile

/-!
# SynCord.Dmon.Graph

`find_call_graph.py`, which prints the calls from `spin_lock` down to the functions of the kernel
that can be given a policy. It goes on for every call, does not look at what a nested call returns,
and says `End of Stack: Found` where it meets a target.

`find_call_stack_with_arguments` has the line number where the path should be, and the other way
round. The listing has only paths that begin with `kernel/` or `include/`, and none of these is a
number, so it never returns a name (`withArguments_eq_none`): a lock function that is handed to a
macro is not looked at.

* `graph_found_iff` — a search that ends by itself says that it has found something exactly if a
  function with a target is reached by direct calls, each before anything that ends its function's
  turn; and it ends by itself exactly if the recursion limit is not less than the depth of the
  calls.
-/

namespace SynCord
namespace Dmon
namespace Graph

open Text

/-! ## Bodies -/

def listedLine (lines : List Text) (m : Markers) (i : Nat) (line : Text) : Turn :=
  if define.isPrefixOf line ∧ (find '\\' line).any (0 < ·) then
    match lines[i + 1]? with
    -- `lines[int(line_number)]` raises an exception.
    | none => .ret none
    | some next =>
      if find '\x7b' next = none then .ret (some [next])
      else if (find '\x7b' next).any (0 < ·) ∧ (find '\x7d' next).any (0 < ·) then
        .ret (some (statements next))
      else m.open i line
  else m.open i line

def findFunctionContent (lines : List Text) (n : Nat) : Option (List Text) :=
  scan (listedLine lines) lines n

/-- Digits, with single underscores between them. -/
def natOf (ds : Text) : Option Nat :=
  if ds ≠ [] ∧ (ds.all fun c => c.isDigit || c = '_') ∧ ds.head? ≠ some '_' ∧
      ds.getLast? ≠ some '_' ∧ contains ['_', '_'] ds = false then
    some (Nat.ofDigitChars 10 (ds.filter (· ≠ '_')) 0)
  else none

/-- `int(t)`; `none` is a `ValueError`. -/
def pyInt (t : Text) : Option Int :=
  match strip t with
  | '-' :: ds => (natOf ds).map fun n => -(n : Int)
  | '+' :: ds => (natOf ds).map Int.ofNat
  | ds => (natOf ds).map Int.ofNat

/-- The line number as it stands in the listing. -/
def decimalText (n : Nat) : Text := Nat.toDigits 10 n

/-- A body by a path and the text of a line number. In a file without lines the number is not
read. -/
def contentAt (p : Project) (path number : Text) : Option (List Text) := do
  let lines := splitlines (← p.file path)
  if lines = [] then none else findFunctionContent lines (← pyInt number).toNat

def argumentsAt (p : Project) (path number : Text) : Option (List Text) := do
  let lines := splitlines (← p.file path)
  if lines = [] then none else findFunctionArguments lines (← pyInt number).toNat

def content (p : Project) (d : Def) : Option (List Text) := do
  findFunctionContent (splitlines (← p.file d.path)) d.line

/-! ## The search -/

/-- `find_call_stack_with_arguments`, which takes the parts of the listing in the wrong order. -/
def withArguments (p : Project) (f : Text) (parameters : List Text) : Option Text :=
  match p.index f with
  | [] => none
  | d :: _ =>
    match contentAt p (decimalText d.line) d.path, argumentsAt p (decimalText d.line) d.path with
    | some content, some arguments => Dmon.resolve arguments parameters content
    | _, _ => none

inductive Action where
  | target
  | invalid
  | parseError
  | nothing
  | call (g : Text)
  | argument (g : Text)
  deriving DecidableEq

def action (p : Project) (instruction : Text) : Action :=
  match callee instruction with
  | none => .invalid
  | some callee =>
    if targetBpfFunctions.contains callee then .target
    else if contains keyword callee then .call callee
    else
      match parameters (strip instruction) with
      | none => .parseError
      | some parameters =>
        match withArguments p callee parameters with
        | none => .nothing
        | some g => .argument g

inductive Error where
  /-- `'NoneType' object is not iterable` -/
  | noContent
  /-- `maximum recursion depth exceeded` -/
  | recursion
  deriving DecidableEq

inductive Line where
  | sourceFiles (parts : List Def)
  | content (lines : Option (List Text))
  | endOfStack
  | parseError
  | callee (g : Text)
  | foundInCallee (g : Text)
  | invalid
  | error (e : Error)
  deriving DecidableEq

/-- The steps of the two loops: a definition is opened, and its instructions are looked at. -/
inductive Step where
  | definition (lines : Option (List Text))
  | instruction (i : Text)
  deriving DecidableEq

def stepsOf (p : Project) (d : Def) : List Step :=
  .definition (content p d) :: ((content p d).getD []).map .instruction

def steps (p : Project) (f : Text) : List Step := (p.index f).flatMap (stepsOf p)

/-- What is printed from here on. `nested` is the recursive call. An exception ends the function. -/
def run (p : Project) (nested : Text → List Line) : List Step → List Line
  | [] => []
  | .definition none :: _ => [.content none, .error .noContent]
  | .definition (some lines) :: rest => .content (some lines) :: run p nested rest
  | .instruction i :: rest =>
    match action p i with
    | .target => [.endOfStack]
    | .invalid => .invalid :: run p nested rest
    | .parseError => .parseError :: run p nested rest
    | .nothing => run p nested rest
    | .call g => .callee g :: nested g ++ run p nested rest
    | .argument g => .foundInCallee g :: nested g ++ run p nested rest

/-- `limit` is the number of calls of this function that the interpreter still has frames for. If
there are none left, the call catches the exception itself and its caller goes on. -/
def findCallStack (p : Project) : Nat → Text → List Line
  | 0, _ => [.error .recursion]
  | limit + 1, f => .sourceFiles (p.index f) :: run p (findCallStack p limit) (steps p f)

/-! ## Swapped parts -/

/-- `awk '/^(kernel\/|include\/)/'` -/
def Filtered (p : Project) : Prop :=
  ∀ f, ∀ d ∈ p.index f, "kernel/".toList <+: d.path ∨ "include/".toList <+: d.path

theorem natOf_eq_none {c : Char} {ds : Text} (hc : c ∈ ds) (h : (c.isDigit || c = '_') = false) :
    natOf ds = none := by
  rw [natOf, if_neg]
  rintro ⟨-, hall, -⟩
  have := List.all_eq_true.1 hall c hc
  rw [h] at this
  cases this

theorem mem_dropWhile {q : Char → Bool} {c : Char} {t : Text} (hc : c ∈ t) (h : q c = false) :
    c ∈ t.dropWhile q := by
  rw [← List.takeWhile_append_dropWhile (p := q) (l := t), List.mem_append] at hc
  refine hc.resolve_left fun hm => ?_
  rw [List.mem_takeWhile_imp hm] at h
  cases h

theorem mem_strip {c : Char} {t : Text} (hc : c ∈ t) (h : isSpace c = false) : c ∈ strip t := by
  rw [strip, List.rdropWhile, List.mem_reverse]
  exact mem_dropWhile (List.mem_reverse.2 (mem_dropWhile hc h)) h

theorem pyInt_eq_none {c : Char} {t : Text} (hc : c ∈ t) (hspace : isSpace c = false)
    (hdigit : (c.isDigit || c = '_') = false) (hminus : c ≠ '-') (hplus : c ≠ '+') :
    pyInt t = none := by
  have hmem := mem_strip hc hspace
  rw [pyInt]
  split
  · rename_i ds heq
    rw [heq] at hmem
    rw [natOf_eq_none ((List.mem_cons.1 hmem).resolve_left hminus) hdigit]
    rfl
  · rename_i ds heq
    rw [heq] at hmem
    rw [natOf_eq_none ((List.mem_cons.1 hmem).resolve_left hplus) hdigit]
    rfl
  · rw [natOf_eq_none hmem hdigit]
    rfl

theorem contentAt_eq_none {p : Project} {path number : Text} (h : pyInt number = none) :
    contentAt p path number = none := by
  rw [contentAt]
  cases p.file path with
  | none => rfl
  | some t =>
    simp [h]

theorem pyInt_filtered {p : Project} (hp : Filtered p) {f : Text} {d : Def}
    (hd : d ∈ p.index f) : pyInt d.path = none := by
  rcases hp f d hd with h | h
  · exact pyInt_eq_none (h.subset (by decide : 'k' ∈ "kernel/".toList)) (by decide) (by decide)
      (by decide) (by decide)
  · exact pyInt_eq_none (h.subset (by decide : 'i' ∈ "include/".toList)) (by decide) (by decide)
      (by decide) (by decide)

theorem withArguments_eq_none {p : Project} (hp : Filtered p) (f : Text) (ps : List Text) :
    withArguments p f ps = none := by
  rw [withArguments]
  cases hi : p.index f with
  | nil => rfl
  | cons d rest =>
    have hd : d ∈ p.index f := by simp [hi]
    simp only [contentAt_eq_none (pyInt_filtered hp hd)]

/-! ## What a call looks at -/

/-- Here the function ends. -/
def stops : Step → Bool
  | .definition lines => lines.isNone
  | .instruction i => (callee i).any fun g => targetBpfFunctions.contains g

/-- A direct call of a function that has `spin_lock` in its name. -/
def called : Step → Option Text
  | .definition _ => none
  | .instruction i => (callee i).filter fun g => contains keyword g

/-- The direct calls before the function ends. -/
def callsOf (l : List Step) : List Text := (l.takeWhile fun s => !stops s).filterMap called

/-- The function ends with a target. -/
def HitsOf (l : List Step) : Prop := ∃ i, l.find? stops = some (.instruction i)

def calls (p : Project) (f : Text) : List Text := callsOf (steps p f)

/-- Direct calls lead to a function that ends with a target. -/
def Leads (p : Project) (f : Text) : Prop :=
  ∃ g, Relation.ReflTransGen (Edge (calls p)) f g ∧ HitsOf (steps p g)

section Lists

variable {s : Step} {l : List Step} {g : Text}

theorem callsOf_stop (h : stops s = true) : callsOf (s :: l) = [] := by
  simp [callsOf, h]

theorem callsOf_skip (h : stops s = false) (hs : called s = none) :
    callsOf (s :: l) = callsOf l := by
  simp [callsOf, h, hs]

theorem callsOf_call (h : stops s = false) (hs : called s = some g) :
    callsOf (s :: l) = g :: callsOf l := by
  simp [callsOf, h, hs]

theorem hitsOf_cons (h : stops s = false) : HitsOf (s :: l) ↔ HitsOf l := by
  simp [HitsOf, h]

theorem hitsOf_instruction {i : Text} (h : stops (.instruction i) = true) :
    HitsOf (.instruction i :: l) :=
  ⟨i, by simp [h]⟩

theorem not_hitsOf_broken : ¬ HitsOf (.definition none :: l) := by
  simp [HitsOf, stops]

end Lists

/-- What is done with an instruction, once `find_call_stack_with_arguments` returns nothing. -/
theorem action_cases {p : Project} (hp : Filtered p) (i : Text) :
    (action p i = .target ∧ stops (.instruction i) = true) ∨
      (∃ g, action p i = .call g ∧ stops (.instruction i) = false ∧
        called (.instruction i) = some g) ∨
      ((action p i = .invalid ∨ action p i = .parseError ∨ action p i = .nothing) ∧
        stops (.instruction i) = false ∧ called (.instruction i) = none) := by
  simp only [action, stops, called]
  cases callee i with
  | none => exact .inr (.inr ⟨.inl rfl, rfl, rfl⟩)
  | some g =>
    simp only [Option.any_some, Option.filter_some]
    by_cases ht : targetBpfFunctions.contains g = true
    · exact .inl ⟨if_pos ht, ht⟩
    · rw [if_neg ht]
      have ht := Bool.eq_false_iff.2 ht
      by_cases hk : contains keyword g = true
      · rw [if_pos hk, if_pos hk]
        exact .inr (.inl ⟨g, rfl, ht, rfl⟩)
      · rw [if_neg hk, if_neg hk]
        refine .inr (.inr ⟨?_, ht, rfl⟩)
        cases parameters (strip i) with
        | none => exact .inr (.inl rfl)
        | some ps =>
          exact .inr (.inr (by simp only [withArguments_eq_none hp]))

/-! ## What is printed -/

section Run

variable {p : Project} (hp : Filtered p) {nested : Text → List Line} {l : List Step}
include hp

/-- The loop runs into the recursion limit if a call does, or something that it calls. -/
theorem mem_run_recursion : .error .recursion ∈ run p nested l ↔
    ∃ g ∈ callsOf l, .error .recursion ∈ nested g := by
  induction l with
  | nil => simp [run, callsOf]
  | cons s l ih =>
    cases s with
    | definition lines =>
      cases lines with
      | none =>
        rw [callsOf_stop rfl]
        simp [run]
      | some lines =>
        rw [callsOf_skip rfl rfl, ← ih]
        simp [run]
    | instruction i =>
      rcases action_cases hp i with ⟨ha, hs⟩ | ⟨g, ha, hs, hg⟩ | ⟨ha, hs, hg⟩
      · rw [callsOf_stop hs]
        simp [run, ha]
      · rw [callsOf_call hs hg, List.exists_mem_cons_iff, ← ih]
        simp [run, ha]
      · rw [callsOf_skip hs hg, ← ih]
        rcases ha with ha | ha | ha <;> simp [run, ha]

/-- A target is met here or in a call. -/
theorem mem_run_endOfStack : .endOfStack ∈ run p nested l ↔
    HitsOf l ∨ ∃ g ∈ callsOf l, .endOfStack ∈ nested g := by
  induction l with
  | nil => simp [run, HitsOf, callsOf]
  | cons s l ih =>
    cases s with
    | definition lines =>
      cases lines with
      | none =>
        rw [callsOf_stop rfl]
        simp [run, not_hitsOf_broken]
      | some lines =>
        rw [callsOf_skip rfl rfl, hitsOf_cons rfl, ← ih]
        simp [run]
    | instruction i =>
      rcases action_cases hp i with ⟨ha, hs⟩ | ⟨g, ha, hs, hg⟩ | ⟨ha, hs, hg⟩
      · simp [run, ha, hitsOf_instruction hs]
      · rw [callsOf_call hs hg, hitsOf_cons hs, List.exists_mem_cons_iff, or_left_comm, ← ih]
        simp [run, ha]
      · rw [callsOf_skip hs hg, hitsOf_cons hs, ← ih]
        rcases ha with ha | ha | ha <;> simp [run, ha]

end Run

/-! ## The whole search -/

variable {p : Project} {f g : Text}

theorem Leads.head (hcall : g ∈ calls p f) (h : Leads p g) : Leads p f := by
  obtain ⟨t, hr, ht⟩ := h
  exact ⟨t, .head hcall hr, ht⟩

theorem Leads.cases (h : Leads p f) : HitsOf (steps p f) ∨ ∃ g ∈ calls p f, Leads p g := by
  obtain ⟨t, hr, ht⟩ := h
  rcases hr.cases_head with rfl | ⟨g, hcall, hr⟩
  · exact .inl ht
  · exact .inr ⟨g, hcall, t, hr, ht⟩

theorem leads_of_found (hp : Filtered p) {limit : Nat}
    (h : .endOfStack ∈ findCallStack p limit f) : Leads p f := by
  induction limit generalizing f with
  | zero => simp [findCallStack] at h
  | succ limit ih =>
    rw [findCallStack, List.mem_cons] at h
    rcases (mem_run_endOfStack hp).1 (h.resolve_left (by simp)) with h | ⟨g, hg, h⟩
    · exact ⟨f, .refl, h⟩
    · exact (ih h).head hg

theorem found_of_leads (hp : Filtered p) {limit : Nat} (hw : Within (calls p) limit f)
    (h : Leads p f) : .endOfStack ∈ findCallStack p limit f := by
  induction limit generalizing f with
  | zero => cases hw
  | succ limit ih =>
    refine List.mem_cons_of_mem _ ((mem_run_endOfStack hp).2 ?_)
    exact h.cases.imp_right fun ⟨g, hg, hl⟩ => ⟨g, hg, ih (hw g hg) hl⟩

theorem recursion_iff (hp : Filtered p) {limit : Nat} :
    .error .recursion ∈ findCallStack p limit f ↔ ¬ Within (calls p) limit f := by
  induction limit generalizing f with
  | zero => simp [findCallStack, Within]
  | succ limit ih =>
    rw [findCallStack, List.mem_cons, mem_run_recursion hp]
    simp [Within, calls, ih]

theorem graph_found_iff (hp : Filtered p) (limit : Nat) (f : Text) :
    (.endOfStack ∈ findCallStack p limit f → Leads p f) ∧
      (.error .recursion ∈ findCallStack p limit f ↔ ¬ Within (calls p) limit f) ∧
      (.error .recursion ∉ findCallStack p limit f →
        (.endOfStack ∈ findCallStack p limit f ↔ Leads p f)) := by
  refine ⟨leads_of_found hp, recursion_iff hp, fun h => ⟨leads_of_found hp, ?_⟩⟩
  rw [recursion_iff hp, not_not] at h
  exact found_of_leads hp h

theorem twoMacros_filtered : Filtered twoMacros := by
  intro f d hd
  have hheader : "include/".toList <+: header := by decide
  change d ∈ (List.lookup f [(spinLock, [Def.mk header 1]),
    (rawSpinLock, [Def.mk header 2])]).getD [] at hd
  rw [List.lookup_cons, List.lookup_cons, List.lookup_nil] at hd
  refine .inr ?_
  split at hd
  · cases List.mem_singleton.1 hd
    exact hheader
  · split at hd
    · cases List.mem_singleton.1 hd
      exact hheader
    · cases hd

theorem graph_found_iff_twoMacros : Filtered twoMacros ∧
    .error .recursion ∉ findCallStack twoMacros 2 spinLock ∧ Leads twoMacros spinLock :=
  ⟨twoMacros_filtered, by decide,
    ((graph_found_iff twoMacros_filtered 2 spinLock).2.2 (by decide)).1
      (by decide)⟩

end Graph
end Dmon
end SynCord
