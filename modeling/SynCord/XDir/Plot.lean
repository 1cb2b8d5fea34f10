import SynCord.Regex
import SynCord.Strings
import SynCord.XDir.Benchmark

/-!
# SynCord.XDir.Plot

What the rename benchmark prints, and how `plot.py` reads it: it takes the first, second and third
number of a line, whatever stands between them.

* `numbers_taskLine` — the numbers on the line of a task.
* `parse_printout` — the totals of `plot.py` are the sums over the bullies and over the victims, if
  the fairness is a finite number; otherwise it raises an exception.
* `plot_reads_back` — these are the sums of `benchmark.c`, as far as `int` and `double` have them.
-/

namespace SynCord
namespace XDir

open Text

/-! ## What is printed -/

/-- `%d` and `%lu` -/
def decimal (n : Nat) : Text := Nat.toDigits 10 n

/-- A finite number as `%f` prints it. -/
structure Fixed where
  negative : Bool
  whole : Nat
  micros : Nat
  micros_lt : micros < 1000000
  deriving DecidableEq

/-- The digits, without the sign. -/
def Fixed.digits (x : Fixed) : Text :=
  decimal x.whole ++ '.' :: (List.replicate (6 - (decimal x.micros).length) '0' ++ decimal x.micros)

def Fixed.text (x : Fixed) : Text := (if x.negative then ['-'] else []) ++ x.digits

/-- A `double` as `%f` prints it. -/
inductive Printed where
  | finite (x : Fixed)
  | inf (negative : Bool)
  | nan (negative : Bool)
  deriving DecidableEq

def Printed.text : Printed → Text
  | .finite x => x.text
  | .inf negative => (if negative then ['-'] else []) ++ "inf".toList
  | .nan negative => (if negative then ['-'] else []) ++ "nan".toList

/-- The line of a task, `tag` being the letter of its group. -/
def taskLine (tag : Char) (tasks : Nat → Task) (i : Nat) : Text :=
  '[' :: tag :: ("] task ".toList ++ (decimal i ++ (": lock_hold=".toList ++
    (decimal (tasks i).lockHold ++ (", runs=".toList ++ decimal (tasks i).runs)))))

/-- How `%f` prints a value that is not negative. The sign of what is no number is up to the
processor. -/
def printed (negative : Bool) : Double.Value → Printed
  | .num x =>
    let micros := (Double.nearestEven (x * 1000000)).toNat
    .finite ⟨false, micros / 1000000, micros % 1000000, Nat.mod_lt _ (by decide)⟩
  | .inf => .inf false
  | .nan => .nan negative

/-- What the benchmark prints behind the tasks. -/
structure Tail where
  fairness : Printed
  ops : Printed
  bullyOps : Printed
  victimOps : Printed

def Tail.lines (x : Tail) : List Text :=
  ["fairness=".toList ++ x.fairness.text, "Ops/sec: ".toList ++ x.ops.text,
    "Bully  Ops/sec: ".toList ++ x.bullyOps.text, "Victim Ops/sec: ".toList ++ x.victimOps.text]

/-- What it prints there, if the fairness is a finite number. -/
structure Summary where
  fairness : Fixed
  ops : Printed
  bullyOps : Printed
  victimOps : Printed

def summaryLines (s : Summary) : List Text :=
  Tail.lines ⟨.finite s.fairness, s.ops, s.bullyOps, s.victimOps⟩

def Role.tag : Role → Char
  | .bully => 'b'
  | .victim => 'v'

def taskLines (tasks : Nat → Task) (n : Nat) : List Text :=
  (evenBelow n).map (taskLine 'b' tasks) ++ (oddBelow n).map (taskLine 'v' tasks)

def printout (tasks : Nat → Task) (n : Nat) (lines : List Text) : Text :=
  (taskLines tasks n ++ lines).flatMap (· ++ ['\n'])

def output (tasks : Nat → Task) (n : Nat) (s : Summary) : Text :=
  printout tasks n (summaryLines s)

/-! ## What is read -/

/-- The class `[0-9.]`. -/
def isNumeric (c : Char) : Bool := c.isDigit || c == '.'

/-- `re.findall('[0-9.]+', line)` -/
def numbers (line : Text) : List Text :=
  (Regex.finditer (Regex.plus isNumeric) line).map Regex.Match.whole

/-- `int(t)`, for a text of digits and dots. -/
def readInt (t : Text) : Option Nat :=
  if t ≠ [] ∧ t.all Char.isDigit then some (Nat.ofDigitChars 10 t 0) else none

structure Totals where
  bullyThroughput : Nat
  victimThroughput : Nat
  fairness : Option Text
  bullyHoldtime : Nat
  victimHoldtime : Nat

/-- What a line of a group adds. -/
def Totals.add (t : Totals) (throughput holdtime : Nat) : Role → Totals
  | .bully =>
    { t with
      bullyThroughput := t.bullyThroughput + throughput
      bullyHoldtime := t.bullyHoldtime + holdtime }
  | .victim =>
    { t with
      victimThroughput := t.victimThroughput + throughput
      victimHoldtime := t.victimHoldtime + holdtime }

/-- An index that is out of range and a text that is no number raise an exception. -/
def parseLine (t : Totals) (line : Text) : Option Totals :=
  let run := numbers line
  if "[b]".toList.isPrefixOf line then do
    let throughput ← run[2]?.bind readInt
    let holdtime ← run[1]?.bind readInt
    some (t.add throughput holdtime .bully)
  else if "[v]".toList.isPrefixOf line then do
    let throughput ← run[2]?.bind readInt
    let holdtime ← run[1]?.bind readInt
    some (t.add throughput holdtime .victim)
  else if "fairness".toList.isPrefixOf line then do
    let fairness ← run[0]?
    some { t with fairness := some fairness }
  else some t

def parse (text : Text) : Option Totals :=
  (readlines (universal text)).foldlM parseLine ⟨0, 0, none, 0, 0⟩

def total (f : Nat → Nat) (l : List Nat) : Nat := l.foldr (fun i x => f i + x) 0

/-! ## Numbers -/

theorem readInt_decimal (n : Nat) : readInt (decimal n) = some n := by
  have hdigits : (decimal n).all Char.isDigit = true := by
    rw [List.all_eq_true]
    intro c hc
    exact Nat.isDigit_of_mem_toDigits (by decide) (by decide) hc
  have hne : decimal n ≠ [] := Nat.toDigits_ne_nil
  rw [readInt, if_pos ⟨hne, hdigits⟩, decimal, Nat.ofDigitChars_ten_toDigits]

theorem numeric_of_mem_decimal {n : Nat} {c : Char} (h : c ∈ decimal n) : isNumeric c = true := by
  have hdigit : c.isDigit = true := Nat.isDigit_of_mem_toDigits (by decide) (by decide) h
  simp [isNumeric, hdigit]

theorem numeric_of_mem_digits {x : Fixed} {c : Char} (h : c ∈ x.digits) : isNumeric c = true := by
  rw [Fixed.digits, List.mem_append, List.mem_cons, List.mem_append] at h
  rcases h with h | rfl | h | h
  · exact numeric_of_mem_decimal h
  · rfl
  · rw [List.eq_of_mem_replicate h]
    rfl
  · exact numeric_of_mem_decimal h

theorem digits_ne_nil (x : Fixed) : x.digits ≠ [] := by
  simp [Fixed.digits]

section Find

open Regex

/-- A number behind a text without digits. -/
theorem numbers_step {prev : Option Char} {a t u : Text} (ha : a.any isNumeric = false)
    (hne : t ≠ []) (ht : ∀ c ∈ t, isNumeric c = true) (hu : Stops isNumeric u) :
    (findFrom (plus isNumeric) 0 prev (a ++ (t ++ u))).map Match.whole =
      t :: (findFrom (plus isNumeric) 0 (last (last prev a) t) u).map Match.whole := by
  have ha' : ∀ c ∈ a, isNumeric c = false := by
    intro c hc
    exact Bool.eq_false_iff.2 (List.any_eq_false.1 ha c hc)
  rw [finditer_plus_skip ha', finditer_plus hne ht hu]
  rfl

theorem stops_append {a u : Text} (hne : a ≠ []) (ha : a.any isNumeric = false) :
    Stops isNumeric (a ++ u) := by
  cases a with
  | nil => exact absurd rfl hne
  | cons c a =>
    intro d hd
    cases hd
    simp at ha
    exact ha.1

theorem stops_newline : Stops isNumeric ['\n'] := by
  intro c hc
  cases hc
  rfl

end Find

theorem numbers_taskLine {tag : Char} (htag : isNumeric tag = false) (tasks : Nat → Task)
    (i : Nat) : numbers (taskLine tag tasks i ++ ['\n']) =
      [decimal i, decimal (tasks i).lockHold, decimal (tasks i).runs] := by
  have hopen : ('[' :: tag :: "] task ".toList).any isNumeric = false := by
    simp [htag]
    decide
  have hdec : ∀ n, ∀ c ∈ decimal n, isNumeric c = true := fun n c => numeric_of_mem_decimal
  have hne : ∀ n, decimal n ≠ [] := fun n => Nat.toDigits_ne_nil
  have hline : taskLine tag tasks i ++ ['\n'] = ('[' :: tag :: "] task ".toList) ++ (decimal i ++
      (": lock_hold=".toList ++ (decimal (tasks i).lockHold ++ (", runs=".toList ++
        (decimal (tasks i).runs ++ ['\n']))))) := by
    simp [taskLine]
  rw [numbers, Regex.finditer, hline, numbers_step hopen (hne _) (hdec _)
    (stops_append (by decide) (by decide)), numbers_step (by decide) (hne _) (hdec _)
    (stops_append (by decide) (by decide)), numbers_step (by decide) (hne _) (hdec _)
    stops_newline]
  rfl

theorem numbers_fairness (x : Fixed) :
    numbers ("fairness=".toList ++ x.text ++ ['\n']) = [x.digits] := by
  have hsign : ("fairness=".toList ++ if x.negative then ['-'] else []).any isNumeric = false := by
    cases x.negative
    · decide
    · decide
  have hline : "fairness=".toList ++ x.text ++ ['\n'] =
      ("fairness=".toList ++ if x.negative then ['-'] else []) ++ (x.digits ++ ['\n']) := by
    simp [Fixed.text]
  rw [numbers, Regex.finditer, hline, numbers_step hsign (digits_ne_nil x)
    (fun c => numeric_of_mem_digits) stops_newline]
  rfl

/-! ## Lines -/

theorem parseLine_task (t : Totals) (tasks : Nat → Task) (i : Nat) (r : Role) :
    parseLine t (taskLine r.tag tasks i ++ ['\n']) =
      some (t.add (tasks i).runs (tasks i).lockHold r) := by
  have htag : parseLine t (taskLine r.tag tasks i ++ ['\n']) =
      ((numbers (taskLine r.tag tasks i ++ ['\n']))[2]?.bind readInt).bind fun throughput =>
        ((numbers (taskLine r.tag tasks i ++ ['\n']))[1]?.bind readInt).bind fun holdtime =>
          some (t.add throughput holdtime r) := by
    cases r <;> rfl
  rw [htag, numbers_taskLine (by cases r <;> rfl)]
  simp [readInt_decimal]

theorem numbers_infinite (x : Printed) (h : ∀ y, x ≠ .finite y) :
    numbers ("fairness=".toList ++ x.text ++ ['\n']) = [] := by
  cases x with
  | finite y => exact absurd rfl (h y)
  | inf negative => cases negative <;> rfl
  | nan negative => cases negative <;> rfl

/-- A fairness that is no finite number has no digits to take. -/
theorem parse_tail (t : Totals) (x : Tail) :
    (x.lines.map (· ++ ['\n'])).foldlM parseLine t =
      match x.fairness with
      | .finite y => some { t with fairness := some y.digits }
      | _ => none := by
  have hops : ∀ t, parseLine t ("Ops/sec: ".toList ++ x.ops.text ++ ['\n']) = some t :=
    fun t => rfl
  have hbully : ∀ t, parseLine t ("Bully  Ops/sec: ".toList ++ x.bullyOps.text ++ ['\n']) =
      some t := fun t => rfl
  have hvictim : ∀ t, parseLine t ("Victim Ops/sec: ".toList ++ x.victimOps.text ++ ['\n']) =
      some t := fun t => rfl
  have hfair : parseLine t ("fairness=".toList ++ x.fairness.text ++ ['\n']) =
      (numbers ("fairness=".toList ++ x.fairness.text ++ ['\n']))[0]?.bind fun fairness =>
        some { t with fairness := some fairness } := rfl
  simp only [Tail.lines, List.map_cons, List.map_nil, List.foldlM_cons, List.foldlM_nil, hfair,
    hops, hbully, hvictim]
  cases hx : x.fairness with
  | finite y =>
    rw [Printed.text, numbers_fairness]
    rfl
  | inf negative =>
    rw [numbers_infinite _ (by simp)]
    rfl
  | nan negative =>
    rw [numbers_infinite _ (by simp)]
    rfl

theorem parse_summary (t : Totals) (s : Summary) :
    ((summaryLines s).map (· ++ ['\n'])).foldlM parseLine t =
      some { t with fairness := some s.fairness.digits } :=
  parse_tail t _

theorem total_append (f : Nat → Nat) (l : List Nat) (i : Nat) :
    total f (l ++ [i]) = total f l + f i := by
  induction l with
  | nil => simp [total]
  | cons j l ih =>
    simp only [total, List.cons_append, List.foldr_cons] at ih ⊢
    omega

theorem parse_tasks (tasks : Nat → Task) (l : List Nat) (t : Totals) (r : Role) :
    ((l.map (taskLine r.tag tasks)).map (· ++ ['\n'])).foldlM parseLine t =
      some (t.add (total (fun i => (tasks i).runs) l) (total (fun i => (tasks i).lockHold) l)
        r) := by
  induction l generalizing t with
  | nil => cases r <;> rfl
  | cons i l ih =>
    rw [List.map_cons, List.map_cons, List.foldlM_cons, parseLine_task]
    refine (ih _).trans ?_
    cases r <;> simp [Totals.add, total, Nat.add_assoc]

/-! ## The whole output -/

section Output

variable {tasks : Nat → Task} {n : Nat} {x : Tail} {c : Char}

theorem not_mem_decimal (hc : isNumeric c = false) (k : Nat) : c ∉ decimal k :=
  not_mem_of_class (fun _ => numeric_of_mem_decimal) hc

theorem not_mem_text (hc : isNumeric c = false) (hsign : c ≠ '-') (x : Fixed) : c ∉ x.text := by
  intro h
  rw [Fixed.text, List.mem_append] at h
  rcases h with h | h
  · split at h
    · exact hsign (List.mem_singleton.1 h)
    · cases h
  · exact not_mem_of_class (fun _ => numeric_of_mem_digits) hc h

theorem not_mem_printed (hc : c = '\n' ∨ c = '\r') (x : Printed) : c ∉ x.text := by
  cases x with
  | finite x =>
    refine not_mem_text ?_ ?_ x
    · rcases hc with rfl | rfl <;> rfl
    · rcases hc with rfl | rfl <;> decide
  | inf negative => rcases hc with rfl | rfl <;> cases negative <;> decide
  | nan negative => rcases hc with rfl | rfl <;> cases negative <;> decide

/-- A line break is not in what is printed on a line. -/
theorem not_mem_line (hc : c = '\n' ∨ c = '\r') :
    ∀ line ∈ taskLines tasks n ++ x.lines, c ∉ line := by
  have hnum : isNumeric c = false := by
    rcases hc with rfl | rfl <;> rfl
  have htask : ∀ tag, (tag = 'b' ∨ tag = 'v') → ∀ i, c ∉ taskLine tag tasks i := by
    intro tag htag i
    have hopen : c ∉ '[' :: tag :: "] task ".toList := by
      rcases hc with rfl | rfl <;> rcases htag with rfl | rfl <;> decide
    have hhold : c ∉ ": lock_hold=".toList := by
      rcases hc with rfl | rfl <;> decide
    have hruns : c ∉ ", runs=".toList := by
      rcases hc with rfl | rfl <;> decide
    have hline : taskLine tag tasks i = ('[' :: tag :: "] task ".toList) ++ (decimal i ++
        (": lock_hold=".toList ++ (decimal (tasks i).lockHold ++ (", runs=".toList ++
          decimal (tasks i).runs)))) := rfl
    rw [hline]
    simp only [List.mem_append, not_or]
    exact ⟨hopen, not_mem_decimal hnum _, hhold, not_mem_decimal hnum _, hruns,
      not_mem_decimal hnum _⟩
  intro line hline
  rcases List.mem_append.1 hline with hline | hline
  · rcases List.mem_append.1 hline with hline | hline
    · obtain ⟨i, _, rfl⟩ := List.mem_map.1 hline
      exact htask 'b' (.inl rfl) i
    · obtain ⟨i, _, rfl⟩ := List.mem_map.1 hline
      exact htask 'v' (.inr rfl) i
  · simp only [Tail.lines, List.mem_cons, List.not_mem_nil, or_false] at hline
    rcases hline with rfl | rfl | rfl | rfl
    all_goals
      rw [List.mem_append, not_or]
      refine ⟨?_, not_mem_printed hc _⟩
      rcases hc with rfl | rfl <;> decide

theorem readlines_printout : readlines (universal (printout tasks n x.lines)) =
    (taskLines tasks n ++ x.lines).map (· ++ ['\n']) := by
  have hcr : '\r' ∉ printout tasks n x.lines := by
    intro h
    obtain ⟨line, hline, h⟩ := List.mem_flatMap.1 h
    rcases List.mem_append.1 h with h | h
    · exact not_mem_line (.inr rfl) line hline h
    · exact absurd h (by decide)
  rw [universal_of_not_mem hcr]
  exact readlines_lines (not_mem_line (.inl rfl))

end Output

theorem parse_printout (tasks : Nat → Task) (n : Nat) (x : Tail) :
    parse (printout tasks n x.lines) =
      match x.fairness with
      | .finite y => some
        { bullyThroughput := total (fun i => (tasks i).runs) (evenBelow n)
          victimThroughput := total (fun i => (tasks i).runs) (oddBelow n)
          fairness := some y.digits
          bullyHoldtime := total (fun i => (tasks i).lockHold) (evenBelow n)
          victimHoldtime := total (fun i => (tasks i).lockHold) (oddBelow n) }
      | _ => none := by
  have hbully := parse_tasks tasks (evenBelow n) ⟨0, 0, none, 0, 0⟩ .bully
  have hvictim := fun t => parse_tasks tasks (oddBelow n) t .victim
  rw [Role.tag] at hbully
  simp only [Role.tag] at hvictim
  rw [parse, readlines_printout, taskLines, List.map_append, List.map_append, List.foldlM_append,
    List.foldlM_append, hbully]
  simp only [Option.bind_eq_bind, Option.bind_some, hvictim, parse_tail, Totals.add, Nat.zero_add]

theorem parse_output (tasks : Nat → Task) (n : Nat) (s : Summary) :
    parse (output tasks n s) = some
      { bullyThroughput := total (fun i => (tasks i).runs) (evenBelow n)
        victimThroughput := total (fun i => (tasks i).runs) (oddBelow n)
        fairness := some s.fairness.digits
        bullyHoldtime := total (fun i => (tasks i).lockHold) (evenBelow n)
        victimHoldtime := total (fun i => (tasks i).lockHold) (oddBelow n) } :=
  parse_printout tasks n _

/-! ## The sums of `benchmark.c` -/

theorem runs_sums (tasks : Nat → Task) (n : Nat) (r : Role) :
    (sums tasks n).runs r = wrap (total (fun i => (tasks i).runs) (below r n)) := by
  induction n with
  | zero => cases r <;> simp [sums, Sums.runs, total, below, wrap]
  | succ n ih =>
    rw [sums_succ, Sums.runs_add, below_succ]
    split
    · rw [total_append, Int.natCast_add, ih, wrap, wrap, wrap, Int.bmod_add_bmod]
    · rw [List.append_nil, ← ih]

theorem wrap_of_lt {x : Nat} (h : x < 2147483648) : wrap x = x := by
  rw [wrap, Int.bmod_def]
  split
  · omega
  · omega

/-- Every hold time and every partial sum of them is a double. -/
structure ExactSums (tasks : Nat → Task) (l : List Nat) : Prop where
  terms : ∀ i ∈ l, Double.IsDouble (tasks i).lockHold
  partials : ∀ k, Double.IsDouble (total (fun i => (tasks i).lockHold) (l.take k))

theorem holdSum_of_exact {tasks : Nat → Task} {l : List Nat} (h : ExactSums tasks l) :
    holdSum tasks l = total (fun i => (tasks i).lockHold) l := by
  induction l using List.reverseRecOn with
  | nil => rfl
  | append_singleton l i ih =>
    have hl : ExactSums tasks l := by
      refine ⟨fun j hj => h.terms j (List.mem_append_left _ hj), ?_⟩
      intro k
      have hk := h.partials (min k l.length)
      rw [List.take_append_of_le_length (Nat.min_le_right ..), ← List.take_take,
        List.take_length] at hk
      exact hk
    have hlast := h.partials (l.length + 1)
    rw [List.take_of_length_le (by simp), total_append] at hlast
    rw [holdSum_append, ih hl, total_append,
      Double.round_of_isDouble (h.terms i (by simp))]
    exact Double.round_of_isDouble hlast

theorem plot_reads_back (tasks : Nat → Task) (n : Nat) (s : Summary) :
    parse (output tasks n s) = some
      { bullyThroughput := total (fun i => (tasks i).runs) (evenBelow n)
        victimThroughput := total (fun i => (tasks i).runs) (oddBelow n)
        fairness := some s.fairness.digits
        bullyHoldtime := total (fun i => (tasks i).lockHold) (evenBelow n)
        victimHoldtime := total (fun i => (tasks i).lockHold) (oddBelow n) } ∧
    (∀ t, ((summaryLines s).map (· ++ ['\n'])).foldlM parseLine t =
      some { t with fairness := some s.fairness.digits }) ∧
    (total (fun i => (tasks i).runs) (evenBelow n) < 2147483648 →
      (sums tasks n).bullyRuns = total (fun i => (tasks i).runs) (evenBelow n)) ∧
    (total (fun i => (tasks i).runs) (oddBelow n) < 2147483648 →
      (sums tasks n).victimRuns = total (fun i => (tasks i).runs) (oddBelow n)) ∧
    (ExactSums tasks (evenBelow n) → (sums tasks n).bullyLockHold =
      total (fun i => (tasks i).lockHold) (evenBelow n)) ∧
    (ExactSums tasks (oddBelow n) → (sums tasks n).victimLockHold =
      total (fun i => (tasks i).lockHold) (oddBelow n)) := by
  refine ⟨parse_output tasks n s, fun t => parse_summary t s, ?_, ?_, ?_, ?_⟩
  · intro h
    exact (runs_sums tasks n .bully).trans (wrap_of_lt h)
  · intro h
    exact (runs_sums tasks n .victim).trans (wrap_of_lt h)
  · intro h
    exact (lockHold_sums tasks n .bully).trans (holdSum_of_exact h)
  · intro h
    exact (lockHold_sums tasks n .victim).trans (holdSum_of_exact h)

def oneFixed : Fixed := ⟨false, 1, 0, by decide⟩

def oneSummary : Summary := ⟨oneFixed, .finite oneFixed, .finite oneFixed, .finite oneFixed⟩

/-- A bully and a victim. -/
def twoTasks (i : Nat) : Task :=
  if i = 0 then ⟨5, 7, by decide, by decide⟩ else ⟨9, 2, by decide, by decide⟩

theorem plot_reads_back_small :
    (sums twoTasks 2).bullyLockHold = 5 ∧ (sums twoTasks 2).victimLockHold = 9 ∧
      (sums twoTasks 2).bullyRuns = 7 ∧ (sums twoTasks 2).victimRuns = 2 := by
  obtain ⟨_, _, hbully, hvictim, hhold, hheld⟩ := plot_reads_back twoTasks 2 oneSummary
  have hexact : ∀ i l, l = [i] → i < 2 → ExactSums twoTasks l := by
    rintro i _ rfl hi
    have hsmall : (twoTasks i).lockHold < 10 := by
      rw [twoTasks]
      split <;> decide
    refine ⟨fun j hj => ?_, fun k => Double.isDouble_of_lt ?_⟩
    · rw [List.mem_singleton.1 hj]
      exact Double.isDouble_of_lt (hsmall.trans (by decide))
    · cases k with
      | zero => exact Nat.two_pow_pos 53
      | succ k =>
        rw [List.take_of_length_le (by simp)]
        exact Nat.lt_trans (by simpa [total] using hsmall) (by decide)
  exact ⟨hhold (hexact 0 _ rfl (by decide)), hheld (hexact 1 _ rfl (by decide)),
    hbully (by decide), hvictim (by decide)⟩

/-- A bully and a victim whose hold time is no double. -/
def oddTasks (i : Nat) : Task :=
  if i = 0 then ⟨5, 7, by decide, by decide⟩ else ⟨9007199254740993, 1, by decide, by decide⟩

theorem plot_reads_back_rounded :
    (∃ t, parse (output oddTasks 2 oneSummary) = some t ∧ t.victimHoldtime = 9007199254740993) ∧
    (sums oddTasks 2).victimLockHold = 9007199254740992 := by
  refine ⟨⟨_, parse_output _ 2 oneSummary, ?_⟩, ?_⟩
  · decide
  · decide

end XDir
end SynCord
