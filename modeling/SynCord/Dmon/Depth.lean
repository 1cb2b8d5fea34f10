import SynCord.Dmon.Search

/-!
# SynCord.Dmon.Depth

How deep the search goes. A call of `find_call_stack` calls itself for the names in `calls`,
whatever these calls return, and nothing remembers which names are being searched for.

* `recursion_iff` — the recursion limit is reached exactly if it is not enough for the depth of
  the calls.
* `findCallStack_of_le` — a limit that is not reached does not matter.
* `terminates_iff` — the search ends by itself exactly if no cycle of calls is reached.
-/

namespace SynCord
namespace Dmon

def Step.isTarget : Step → Bool
  | .act _ .target => true
  | _ => false

def Step.call? : Step → Option Text
  | .act _ (.call g) => some g
  | _ => none

/-- The nested calls. Nothing is done after a target. -/
def callsOf (l : List Step) : List Text := (l.takeWhile (!·.isTarget)).filterMap Step.call?

def Project.calls (p : Project) (f : Text) : List Text := callsOf (p.steps f)

/-- Some frame has met the recursion limit. -/
def Result.Overflows (r : Result) : Prop := .error .recursion ∈ r.lines

/-- With some recursion limit the search ends before it. -/
def Project.Terminates (p : Project) (f : Text) : Prop :=
  ∃ limit, ¬ (p.findCallStack limit f).Overflows

section Calls

variable {l : List Step} {d : Def} {g : Text}

@[simp] theorem callsOf_target : callsOf (.act d .target :: l) = [] := rfl

@[simp] theorem callsOf_call : callsOf (.act d (.call g) :: l) = g :: callsOf l := rfl

end Calls

variable {p : Project} {nested nested' : Text → Result} {f g : Text}

/-! ## The loop -/

/-- Nothing that was printed is lost. -/
theorem mem_loop_lines {x : Line} {l : List Step} {fr : Frame} (h : x ∈ fr.lines) :
    x ∈ (Project.finish (l.foldlM (step nested f) fr)).lines := by
  have hstep : ∀ s ∈ l, ∀ fr : Frame, x ∈ fr.lines →
      Ends (fun fr => x ∈ fr.lines) (fun r : Result => x ∈ r.lines) (step nested f fr s) := by
    intro s _ fr hx
    match s with
    | .enter => exact hx
    | .act d .skip => exact hx
    | .act d .parseError => exact List.mem_append_left _ hx
    | .act d .target => exact List.mem_append_left _ hx
    | .act d (.call g) => exact Frame.mem_resume.2 (.inl hx)
  exact finish_ends (Q := fun _ lines => x ∈ lines) (fun _ hx => List.mem_append_left _ hx)
    (foldlM_ends hstep h)

theorem loop_overflows_iff {l : List Step} {fr : Frame} (h : .error .recursion ∉ fr.lines) :
    (Project.finish (l.foldlM (step nested f) fr)).Overflows ↔
      ∃ g ∈ callsOf l, (nested g).Overflows := by
  induction l generalizing fr with
  | nil =>
    obtain ⟨found, lines⟩ := fr
    cases found <;> simpa [Project.finish, Result.Overflows, callsOf, pure, Except.pure] using h
  | cons s l ih =>
    rw [List.foldlM_cons]
    match s with
    | .enter => exact ih h
    | .act d .skip => exact ih h
    | .act d .parseError => exact ih (by simpa [Frame.print] using h)
    | .act d .target =>
      simpa [step, act, bind, Except.bind, Project.finish, Result.Overflows] using h
    | .act d (.call g) =>
      rw [callsOf_call, List.exists_mem_cons_iff]
      have hline : .error .recursion ∈ (fr.resume f d (nested g)).lines ↔
          (nested g).Overflows := by
        rw [Frame.mem_resume]
        simp [h, Result.Overflows]
      by_cases hr : (nested g).Overflows
      · exact ⟨fun _ => .inl hr, fun _ => mem_loop_lines (hline.2 hr)⟩
      · rw [or_iff_right hr]
        exact ih (mt hline.1 hr)

theorem frame_overflows_iff : (p.frame nested f).Overflows ↔
    ∃ g ∈ p.calls f, (nested g).Overflows := by
  rw [frame_eq, loop_overflows_iff (by simp)]
  rfl

theorem loop_congr {l : List Step} (h : ∀ g ∈ callsOf l, nested g = nested' g) (fr : Frame) :
    l.foldlM (step nested f) fr = l.foldlM (step nested' f) fr := by
  induction l generalizing fr with
  | nil => rfl
  | cons s l ih =>
    rw [List.foldlM_cons, List.foldlM_cons]
    match s with
    | .enter => exact ih h _
    | .act d .skip => exact ih h _
    | .act d .parseError => exact ih h _
    | .act d .target => rfl
    | .act d (.call g) =>
      rw [callsOf_call, List.forall_mem_cons] at h
      have hstep : step nested f fr (.act d (.call g)) = step nested' f fr (.act d (.call g)) := by
        simp only [step, act, h.1]
      rw [hstep]
      exact bind_congr fun fr => ih h.2 fr

theorem frame_congr (h : ∀ g ∈ p.calls f, nested g = nested' g) :
    p.frame nested f = p.frame nested' f := by
  rw [frame_eq, frame_eq, loop_congr h]

/-! ## The recursion -/

theorem recursion_iff {limit : Nat} :
    (p.findCallStack limit f).Overflows ↔ ¬ Within p.calls limit f := by
  induction limit generalizing f with
  | zero => simp [Project.findCallStack, Result.Overflows, Within]
  | succ limit ih =>
    rw [Project.findCallStack, frame_overflows_iff, Within]
    simp only [ih, not_forall, exists_prop]

theorem findCallStack_succ {limit : Nat} (h : Within p.calls limit f) :
    p.findCallStack (limit + 1) f = p.findCallStack limit f := by
  induction limit generalizing f with
  | zero => cases h
  | succ limit ih => exact frame_congr fun g hg => ih (h g hg)

theorem findCallStack_of_le {m n : Nat} (hmn : m ≤ n) (h : Within p.calls m f) :
    p.findCallStack n f = p.findCallStack m f := by
  induction hmn with
  | refl => rfl
  | step hle ih => exact (findCallStack_succ (h.mono hle)).trans ih

theorem terminates_iff_acc : p.Terminates f ↔ Acc (flip (Edge p.calls)) f := by
  rw [← exists_within_iff_acc]
  exact exists_congr fun _ => by rw [recursion_iff, not_not]

theorem calls_finite (hfin : {g | p.index g ≠ []}.Finite) : {g | p.calls g ≠ []}.Finite := by
  refine hfin.subset fun g hg hidx => hg ?_
  rw [Project.calls, Project.steps, hidx]
  rfl

theorem terminates_iff {p : Project} (hfin : {g | p.index g ≠ []}.Finite) (f : Text) :
    p.Terminates f ↔ ∀ g, Relation.ReflTransGen (Edge p.calls) f g →
      ¬ Relation.TransGen (Edge p.calls) g g := by
  rw [terminates_iff_acc, acc_iff_no_cycle (calls_finite hfin)]

theorem ofTables_finite (index : List (Text × List Def)) (files : List (Text × Text)) :
    {g | (Project.ofTables index files).index g ≠ []}.Finite := by
  refine (List.finite_toSet (index.map Prod.fst)).subset fun g hg => ?_
  by_contra hno
  have hlookup : index.lookup g = none := by
    rw [List.lookup_eq_none_iff]
    intro e he
    rw [bne_iff_ne]
    rintro rfl
    exact hno (List.mem_map_of_mem he)
  exact hg (show (index.lookup g).getD [] = [] by rw [hlookup]; rfl)

theorem twoMacros_terminates : twoMacros.Terminates spinLock ∧
    ∀ g, Relation.ReflTransGen (Edge twoMacros.calls) spinLock g →
      ¬ Relation.TransGen (Edge twoMacros.calls) g g := by
  have hends : twoMacros.Terminates spinLock :=
    ⟨2, by rw [Result.Overflows]; decide⟩
  exact ⟨hends, (terminates_iff (ofTables_finite _ _) spinLock).1 hends⟩

/-- `spin_lock` is a macro for itself. -/
def selfMacro : Project :=
  .ofTables [(spinLock, [⟨header, 1⟩])] [(header, "#define spin_lock(l) spin_lock(l)\n".toList)]

theorem selfMacro_overflows : ¬ selfMacro.Terminates spinLock := by
  have hself : Edge selfMacro.calls spinLock spinLock := by
    rw [Edge]
    decide
  rw [terminates_iff_acc]
  exact fun h => not_self_of_acc h hself

end Dmon
end SynCord
