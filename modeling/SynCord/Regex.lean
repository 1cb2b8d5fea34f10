import SynCord.Text

/-!
# SynCord.Regex

Regular expressions as Python and Perl match them, with backtracking: a match has a list of ways to
go on, the preferred one first. Only classes of characters are repeated, and groups are not nested.

* `First`, `Fails` — what is tried first leads to a match, or nothing does; with one rule for each
  kind of expression.
* `first_star_seq`, `first_plus_seq` — how much a repetition takes when it has to give back.
* `finditer_match`, `finditer_fail` — how the search for all matches goes on.
-/

namespace SynCord

inductive Regex where
  | lit (t : Text)
  | one (p : Char → Bool)
  /-- As many characters of a class as possible. -/
  | star (p : Char → Bool)
  | seq (a b : Regex)
  | alt (a b : Regex)
  | group (a : Regex)
  /-- `(?=a)` -/
  | ahead (a : Regex)
  /-- `^` at the beginning of any line. -/
  | bol

namespace Regex

/-- The character before, what comes after, and the groups that have been matched. -/
structure State where
  prev : Option Char
  rest : Text
  groups : List Text

/-- The last character of a text that comes behind `prev`. -/
def last (prev : Option Char) (t : Text) : Option Char := t.getLast?.or prev

def runStar (p : Char → Bool) (groups : List Text) : Option Char → Text → List State
  | prev, [] => [⟨prev, [], groups⟩]
  | prev, c :: cs =>
    if p c then runStar p groups (some c) cs ++ [⟨prev, c :: cs, groups⟩]
    else [⟨prev, c :: cs, groups⟩]

def run : Regex → State → List State
  | .lit t, s =>
    if t.isPrefixOf s.rest then [⟨last s.prev t, s.rest.drop t.length, s.groups⟩] else []
  | .one p, s =>
    match s.rest with
    | [] => []
    | c :: cs => if p c then [⟨some c, cs, s.groups⟩] else []
  | .star p, s => runStar p s.groups s.prev s.rest
  | .seq a b, s => (run a s).flatMap (run b)
  | .alt a b, s => run a s ++ run b s
  | .group a, s =>
    (run a s).map fun s' =>
      ⟨s'.prev, s'.rest, s'.groups ++ [s.rest.take (s.rest.length - s'.rest.length)]⟩
  | .ahead a, s => if (run a s).isEmpty then [] else [s]
  | .bol, s => if s.prev = none ∨ s.prev = some '\n' then [s] else []

section Run

variable (a b : Regex) (p : Char → Bool) (s : State)

@[simp] theorem run_lit (t : Text) : run (.lit t) s =
    if t.isPrefixOf s.rest then [⟨last s.prev t, s.rest.drop t.length, s.groups⟩] else [] := rfl

@[simp] theorem run_one_cons (c : Char) (cs : Text) (prev : Option Char) (groups : List Text) :
    run (.one p) ⟨prev, c :: cs, groups⟩ = if p c then [⟨some c, cs, groups⟩] else [] := rfl

@[simp] theorem run_seq : run (.seq a b) s = (run a s).flatMap (run b) := rfl

@[simp] theorem run_alt : run (.alt a b) s = run a s ++ run b s := rfl

@[simp] theorem run_group : run (.group a) s = (run a s).map fun s' =>
    ⟨s'.prev, s'.rest, s'.groups ++ [s.rest.take (s.rest.length - s'.rest.length)]⟩ := rfl

@[simp] theorem run_ahead : run (.ahead a) s = if (run a s).isEmpty then [] else [s] := rfl

@[simp] theorem run_bol :
    run .bol s = if s.prev = none ∨ s.prev = some '\n' then [s] else [] := rfl

end Run

def plus (p : Char → Bool) : Regex := .seq (.one p) (.star p)

structure Match where
  whole : Text
  groups : List Text
  deriving DecidableEq

/-- `skip` counts the characters of the last match that are still to be passed over. An expression
that matches the empty text is not foreseen. -/
def findFrom (r : Regex) : Nat → Option Char → Text → List Match
  | _, _, [] => []
  | skip + 1, _, c :: cs => findFrom r skip (some c) cs
  | 0, prev, c :: cs =>
    match (run r ⟨prev, c :: cs, []⟩).head? with
    | none => findFrom r 0 (some c) cs
    | some s =>
      ⟨(c :: cs).take ((c :: cs).length - s.rest.length), s.groups⟩ ::
        findFrom r ((c :: cs).length - s.rest.length - 1) (some c) cs

/-- `re.finditer` -/
def finditer (r : Regex) (t : Text) : List Match := findFrom r 0 none t

/-! ## Rules -/

def First (r : Regex) (s s' : State) : Prop := (run r s).head? = some s'

def Fails (r : Regex) (s : State) : Prop := run r s = []

/-- The text does not begin with a character of the class. -/
def Stops (p : Char → Bool) (u : Text) : Prop := ∀ c ∈ u.head?, p c = false

theorem last_cons (prev : Option Char) (c : Char) (t : Text) :
    last prev (c :: t) = last (some c) t := by
  cases t with
  | nil => rfl
  | cons d t => simp [last, List.getLast?_cons]

theorem last_append (prev : Option Char) (t u : Text) :
    last prev (t ++ u) = last (last prev t) u := by
  induction t generalizing prev with
  | nil => rfl
  | cons c t ih => rw [List.cons_append, last_cons, last_cons, ih]

section First

variable {a b : Regex} {p : Char → Bool} {prev : Option Char} {gs : List Text} {s s' s'' : State}

theorem first_lit (t u : Text) : First (.lit t) ⟨prev, t ++ u, gs⟩ ⟨last prev t, u, gs⟩ := by
  have h : t.isPrefixOf (t ++ u) = true := List.isPrefixOf_iff_prefix.2 (List.prefix_append t u)
  simp [First, h]

theorem first_one {c : Char} (h : p c = true) (u : Text) :
    First (.one p) ⟨prev, c :: u, gs⟩ ⟨some c, u, gs⟩ := by
  simp [First, h]

theorem head?_runStar {t u : Text} (ht : ∀ c ∈ t, p c = true) (hu : Stops p u) :
    (runStar p gs prev (t ++ u)).head? = some ⟨last prev t, u, gs⟩ := by
  induction t generalizing prev with
  | nil =>
    cases u with
    | nil => rfl
    | cons c u =>
      have hc : p c = false := hu c rfl
      simp [runStar, hc, last]
  | cons c t ih =>
    have hc := ht c List.mem_cons_self
    have ht' : ∀ d ∈ t, p d = true := fun d hd => ht d (List.mem_cons_of_mem _ hd)
    rw [List.cons_append, runStar, if_pos hc, List.head?_append, ih ht', last_cons]
    rfl

theorem first_star {t u : Text} (ht : ∀ c ∈ t, p c = true) (hu : Stops p u) :
    First (.star p) ⟨prev, t ++ u, gs⟩ ⟨last prev t, u, gs⟩ :=
  head?_runStar ht hu

theorem first_seq (ha : First a s s') (hb : First b s' s'') : First (.seq a b) s s'' := by
  obtain ⟨l, hl⟩ := List.head?_eq_some_iff.1 ha
  rw [First, run_seq, hl, List.flatMap_cons, List.head?_append, hb]
  rfl

theorem first_alt_left (ha : First a s s') : First (.alt a b) s s' := by
  rw [First, run_alt, List.head?_append, ha]
  rfl

theorem first_alt_right (ha : Fails a s) (hb : First b s s') : First (.alt a b) s s' := by
  rw [First, run_alt, ha, List.nil_append]
  exact hb

theorem first_group {t u : Text} {q : Option Char} {hs : List Text}
    (ha : First a ⟨prev, t ++ u, gs⟩ ⟨q, u, hs⟩) :
    First (.group a) ⟨prev, t ++ u, gs⟩ ⟨q, u, hs ++ [t]⟩ := by
  have hlen : (t ++ u).length - u.length = t.length := by simp
  rw [First, run_group, List.head?_map, ha]
  simp only [Option.map_some, hlen, List.take_left]

theorem first_bol (h : prev = none ∨ prev = some '\n') (u : Text) :
    First .bol ⟨prev, u, gs⟩ ⟨prev, u, gs⟩ := by
  simp [First, h]

theorem first_plus {t u : Text} (hne : t ≠ []) (ht : ∀ c ∈ t, p c = true) (hu : Stops p u) :
    First (plus p) ⟨prev, t ++ u, gs⟩ ⟨last prev t, u, gs⟩ := by
  cases t with
  | nil => exact absurd rfl hne
  | cons c t =>
    have ht' : ∀ d ∈ t, p d = true := fun d hd => ht d (List.mem_cons_of_mem _ hd)
    rw [last_cons]
    exact first_seq (first_one (ht c List.mem_cons_self) (t ++ u)) (first_star ht' hu)

end First

section Fails

variable {a b : Regex} {p : Char → Bool} {prev : Option Char} {gs : List Text} {s : State}

theorem fails_lit {t u : Text} (h : ¬ t <+: u) : Fails (.lit t) ⟨prev, u, gs⟩ := by
  have hno : t.isPrefixOf u = false := by
    rw [← Bool.not_eq_true, List.isPrefixOf_iff_prefix]
    exact h
  simp [Fails, hno]

theorem fails_one {u : Text} (h : Stops p u) : Fails (.one p) ⟨prev, u, gs⟩ := by
  cases u with
  | nil => rfl
  | cons c u =>
    have hc : p c = false := h c rfl
    simp [Fails, hc]

theorem fails_seq_left (ha : Fails a s) : Fails (.seq a b) s := by
  rw [Fails, run_seq, ha, List.flatMap_nil]

theorem fails_seq (h : ∀ s' ∈ run a s, Fails b s') : Fails (.seq a b) s := by
  rw [Fails, run_seq, List.flatMap_eq_nil_iff]
  exact h

theorem fails_alt (ha : Fails a s) (hb : Fails b s) : Fails (.alt a b) s := by
  rw [Fails, run_alt, ha, hb, List.nil_append]

theorem fails_group (ha : Fails a s) : Fails (.group a) s := by
  rw [Fails, run_group, ha, List.map_nil]

theorem fails_bol {c : Char} (h : c ≠ '\n') (u : Text) : Fails .bol ⟨some c, u, gs⟩ := by
  have hno : ¬ (some c = none ∨ some c = some '\n') := by
    rintro (hc | hc)
    · cases hc
    · exact h (Option.some.inj hc)
  exact if_neg hno

/-- A repetition passes over some characters of the class. -/
theorem mem_runStar {t : Text} {s' : State} (h : s' ∈ runStar p gs prev t) :
    ∃ x, t = x ++ s'.rest ∧ (∀ c ∈ x, p c = true) ∧ s'.groups = gs := by
  induction t generalizing prev with
  | nil =>
    obtain rfl := List.mem_singleton.1 h
    exact ⟨[], rfl, by simp, rfl⟩
  | cons c t ih =>
    rw [runStar] at h
    split at h
    · rename_i hc
      rcases List.mem_append.1 h with h | h
      · obtain ⟨x, hx, hp, hg⟩ := ih h
        refine ⟨c :: x, by rw [List.cons_append, ← hx], ?_, hg⟩
        intro d hd
        rcases List.mem_cons.1 hd with rfl | hd
        · exact hc
        · exact hp d hd
      · obtain rfl := List.mem_singleton.1 h
        exact ⟨[], rfl, by simp, rfl⟩
    · obtain rfl := List.mem_singleton.1 h
      exact ⟨[], rfl, by simp, rfl⟩

end Fails

/-! ## Going back -/

section Back

variable {a b : Regex} {p : Char → Bool} {prev : Option Char} {gs : List Text} {s s' : State}

/-- A repetition tries to take more before it takes what it is given. -/
theorem runStar_append (gs : List Text) (prev : Option Char) {t : Text}
    (ht : ∀ c ∈ t, p c = true) (v : Text) :
    ∃ l, runStar p gs prev (t ++ v) = runStar p gs (last prev t) v ++ l := by
  induction t generalizing prev with
  | nil => exact ⟨[], (List.append_nil _).symm⟩
  | cons c t ih =>
    obtain ⟨l, hl⟩ := ih (some c) fun d hd => ht d (List.mem_cons_of_mem _ hd)
    refine ⟨l ++ [⟨prev, c :: (t ++ v), gs⟩], ?_⟩
    rw [List.cons_append, runStar, if_pos (ht c List.mem_cons_self), hl, last_cons,
      List.append_assoc]

/-- The last way to go on takes nothing, the others take something. -/
theorem runStar_last (p : Char → Bool) (gs : List Text) (prev : Option Char) (v : Text) :
    ∃ l, runStar p gs prev v = l ++ [⟨prev, v, gs⟩] ∧
      ∀ s ∈ l, ∃ x, x ≠ [] ∧ v = x ++ s.rest ∧ (∀ c ∈ x, p c = true) ∧ s.groups = gs := by
  cases v with
  | nil => exact ⟨[], rfl, List.forall_mem_nil _⟩
  | cons c v =>
    by_cases hc : p c = true
    · refine ⟨runStar p gs (some c) v, by rw [runStar, if_pos hc], ?_⟩
      intro s hs
      obtain ⟨x, hx, hp, hgs⟩ := mem_runStar hs
      exact ⟨c :: x, by simp, by rw [hx, List.cons_append], List.forall_mem_cons.2 ⟨hc, hp⟩, hgs⟩
    · exact ⟨[], by rw [runStar, if_neg hc, List.nil_append], List.forall_mem_nil _⟩

/-- The repetition takes `t`, if what follows fails wherever it takes more. -/
theorem first_star_seq {t v : Text} (ht : ∀ c ∈ t, p c = true)
    (hb : First b ⟨last prev t, v, gs⟩ s')
    (hno : ∀ x y q, v = x ++ y → x ≠ [] → (∀ c ∈ x, p c = true) → Fails b ⟨q, y, gs⟩) :
    First (.seq (.star p) b) ⟨prev, t ++ v, gs⟩ s' := by
  obtain ⟨l, hl⟩ := runStar_append gs prev ht v
  obtain ⟨more, hmore, hrest⟩ := runStar_last p gs (last prev t) v
  have hfail : more.flatMap (run b) = [] := by
    rw [List.flatMap_eq_nil_iff]
    rintro ⟨q, y, groups⟩ hs
    obtain ⟨x, hx, hv, hp, hgs⟩ := hrest _ hs
    cases hgs
    exact hno x y q hv hx hp
  have hrun : run (.star p) ⟨prev, t ++ v, gs⟩ = (more ++ [⟨last prev t, v, gs⟩]) ++ l := by
    rw [← hmore, ← hl]
    rfl
  rw [First, run_seq, hrun, List.flatMap_append, List.flatMap_append, hfail, List.nil_append,
    List.flatMap_singleton, List.head?_append, hb]
  rfl

theorem first_plus_seq {t v : Text} (hne : t ≠ []) (ht : ∀ c ∈ t, p c = true)
    (hb : First b ⟨last prev t, v, gs⟩ s')
    (hno : ∀ x y q, v = x ++ y → x ≠ [] → (∀ c ∈ x, p c = true) → Fails b ⟨q, y, gs⟩) :
    First (.seq (plus p) b) ⟨prev, t ++ v, gs⟩ s' := by
  cases t with
  | nil => exact absurd rfl hne
  | cons c t =>
    have ht' : ∀ d ∈ t, p d = true := fun d hd => ht d (List.mem_cons_of_mem _ hd)
    rw [last_cons] at hb
    have hrun : run (.seq (plus p) b) ⟨prev, c :: (t ++ v), gs⟩ =
        run (.seq (.one p) (.seq (.star p) b)) ⟨prev, c :: (t ++ v), gs⟩ := by
      rw [run_seq, plus, run_seq, List.flatMap_assoc]
      rfl
    rw [First, List.cons_append, hrun]
    exact first_seq (first_one (ht c List.mem_cons_self) _) (first_star_seq ht' hb hno)

theorem first_ahead (h : First a s s') : First (.ahead a) s s := by
  obtain ⟨l, hl⟩ := List.head?_eq_some_iff.1 h
  rw [First, run_ahead, hl]
  rfl

theorem fails_ahead (h : Fails a s) : Fails (.ahead a) s := by
  rw [Fails, run_ahead, h]
  rfl

section Word

variable {c : Char} {w w' x y : Text}

/-- A word whose first letter does not come again is not found again inside of it. -/
theorem fails_lit_inside (hc : c ∉ w) (h : c :: w = x ++ y) (hx : x ≠ []) (q : Option Char) :
    Fails (.lit (c :: w')) ⟨q, y, gs⟩ := by
  cases x with
  | nil => exact absurd rfl hx
  | cons d x =>
    rw [List.cons_append, List.cons.injEq] at h
    apply fails_lit
    rintro ⟨r, rfl⟩
    exact hc (by rw [h.2]; simp)

/-- Nor where something follows the word. -/
theorem fails_lit_inside_append (hc : c ∉ w) (h : c :: w = x ++ y) (hx : x ≠ []) (hy : y ≠ [])
    (u : Text) (q : Option Char) : Fails (.lit (c :: w')) ⟨q, y ++ u, gs⟩ := by
  cases x with
  | nil => exact absurd rfl hx
  | cons d x =>
    cases y with
    | nil => exact absurd rfl hy
    | cons e y =>
      rw [List.cons_append, List.cons.injEq] at h
      apply fails_lit
      rintro ⟨r, hr⟩
      rw [List.cons_append, List.cons_append, List.cons.injEq] at hr
      exact hc (by rw [h.2, hr.1]; simp)

end Word

/-- What is left is an end of what there was. -/
theorem run_suffix {r : Regex} {s s' : State} (h : s' ∈ run r s) : s'.rest <:+ s.rest := by
  induction r generalizing s s' with
  | lit t =>
    rw [run_lit] at h
    split at h
    · rw [List.mem_singleton.1 h]
      exact List.drop_suffix _ _
    · cases h
  | one p =>
    obtain ⟨prev, t, groups⟩ := s
    cases t with
    | nil => cases h
    | cons c t =>
      rw [run_one_cons] at h
      split at h
      · rw [List.mem_singleton.1 h]
        exact List.suffix_cons c t
      · cases h
  | star p =>
    obtain ⟨x, hx, _⟩ := mem_runStar h
    exact ⟨x, hx.symm⟩
  | seq a b iha ihb =>
    rw [run_seq, List.mem_flatMap] at h
    obtain ⟨s₁, h₁, h₂⟩ := h
    exact (ihb h₂).trans (iha h₁)
  | alt a b iha ihb =>
    rw [run_alt, List.mem_append] at h
    exact h.elim iha ihb
  | group a iha =>
    rw [run_group, List.mem_map] at h
    obtain ⟨s₁, h₁, rfl⟩ := h
    have hsuffix := iha h₁
    exact hsuffix
  | ahead a =>
    rw [run_ahead] at h
    split at h
    · cases h
    · rw [List.mem_singleton.1 h]
  | bol =>
    rw [run_bol] at h
    split at h
    · rw [List.mem_singleton.1 h]
    · cases h

/-- An expression that ends with a word fails where the word does not occur. -/
theorem fails_seq_lit {w : Text} (h : ¬ w <:+: s.rest) : Fails (.seq a (.lit w)) s := by
  apply fails_seq
  rintro ⟨q, u, groups⟩ hs
  apply fails_lit
  intro hpre
  exact h (hpre.isInfix.trans (run_suffix hs).isInfix)

end Back

/-! ## All matches -/

theorem findFrom_skip (r : Regex) (prev : Option Char) (t u : Text) :
    findFrom r t.length prev (t ++ u) = findFrom r 0 (last prev t) u := by
  induction t generalizing prev with
  | nil => rfl
  | cons c t ih =>
    rw [List.length_cons, List.cons_append, findFrom, ih, last_cons]

theorem finditer_match {r : Regex} {prev q : Option Char} {t u : Text} {gs : List Text}
    (hne : t ≠ []) (h : First r ⟨prev, t ++ u, []⟩ ⟨q, u, gs⟩) :
    findFrom r 0 prev (t ++ u) = ⟨t, gs⟩ :: findFrom r 0 (last prev t) u := by
  cases t with
  | nil => exact absurd rfl hne
  | cons c t =>
    have hlen : (c :: (t ++ u)).length - u.length = (c :: t).length := by
      simp
      omega
    have hskip : (c :: t).length - 1 = t.length := by simp
    have htake : (c :: t ++ u).take (c :: t).length = c :: t := List.take_left
    rw [First] at h
    rw [List.cons_append, findFrom, ← List.cons_append, h]
    rw [List.cons_append] at htake
    simp only [List.cons_append, hlen, hskip, htake]
    rw [findFrom_skip, last_cons]

theorem finditer_fail {r : Regex} {prev : Option Char} {c : Char} {u : Text}
    (h : Fails r ⟨prev, c :: u, []⟩) :
    findFrom r 0 prev (c :: u) = findFrom r 0 (some c) u := by
  rw [Fails] at h
  rw [findFrom, h]
  rfl

/-- Characters at which nothing begins are passed over. -/
theorem findFrom_pass {r : Regex} {p : Char → Bool}
    (hr : ∀ q c u, p c = false → Fails r ⟨q, c :: u, []⟩) {prev : Option Char} {t : Text}
    (ht : ∀ c ∈ t, p c = false) (u : Text) :
    findFrom r 0 prev (t ++ u) = findFrom r 0 (last prev t) u := by
  induction t generalizing prev with
  | nil => rfl
  | cons c t ih =>
    rw [List.cons_append, finditer_fail (hr prev c (t ++ u) (ht c List.mem_cons_self)), last_cons]
    exact ih fun d hd => ht d (List.mem_cons_of_mem _ hd)

theorem fails_plus {p : Char → Bool} (q : Option Char) {c : Char} (u : Text) (hc : p c = false) :
    Fails (plus p) ⟨q, c :: u, []⟩ := by
  refine fails_seq_left (fails_one ?_)
  intro d hd
  cases hd
  exact hc

/-- The runs of characters of a class: what is between them is passed over. -/
theorem finditer_plus_skip {p : Char → Bool} {prev : Option Char} {t : Text}
    (ht : ∀ c ∈ t, p c = false) (u : Text) :
    findFrom (plus p) 0 prev (t ++ u) = findFrom (plus p) 0 (last prev t) u :=
  findFrom_pass (fun q _ u hc => fails_plus q u hc) ht u

theorem findFrom_plus_seq_skip {b : Regex} {p : Char → Bool} {prev : Option Char} {t : Text}
    (ht : ∀ c ∈ t, p c = false) (u : Text) :
    findFrom (.seq (plus p) b) 0 prev (t ++ u) =
      findFrom (.seq (plus p) b) 0 (last prev t) u :=
  findFrom_pass (fun q _ u hc => fails_seq_left (fails_plus q u hc)) ht u

theorem findFrom_seq_lit {a : Regex} {w : Text} {prev : Option Char} {t : Text}
    (h : ¬ w <:+: t) : findFrom (.seq a (.lit w)) 0 prev t = [] := by
  induction t generalizing prev with
  | nil => rfl
  | cons c t ih =>
    rw [finditer_fail (fails_seq_lit h)]
    exact ih fun hw => h (hw.trans (List.suffix_cons c t).isInfix)

theorem finditer_plus {p : Char → Bool} {prev : Option Char} {t u : Text} (hne : t ≠ [])
    (ht : ∀ c ∈ t, p c = true) (hu : Stops p u) :
    findFrom (plus p) 0 prev (t ++ u) = ⟨t, []⟩ :: findFrom (plus p) 0 (last prev t) u :=
  finditer_match hne (first_plus hne ht hu)

end Regex
end SynCord
