import SynCord.Descent
import SynCord.Dmon.Content
import SynCord.Loop

/-!
# SynCord.Dmon.Search

The search for the call chain of a lock function, `find_call_stack` in `adapt_to_bpf.py`. A call
looks at every listed definition and every line of its body. It calls itself for a callee that has
`spin_lock` in its name, and for one that a macro gets as an argument.

* `foldlM_definition` — the two loops are one loop over the steps of a call.
* `search_sound` — the search finds only chains that are there, whatever the recursion limit.
-/

namespace SynCord
namespace Dmon

open Text

def targetBpfFunctions : List Text :=
  ["queued_spin_lock_slowpath".toList, "queued_spin_lock".toList]

def keyword : Text := "spin_lock".toList

/-- The text before the first parenthesis. -/
def callee (instruction : Text) : Option Text :=
  (find '(' (strip instruction)).map fun k => strip ((strip instruction).take k)

/-- The loop of `find_call_stack_with_arguments` over the body of a macro. -/
def resolve (arguments parameters : List Text) : List Text → Option Text
  | [] => none
  | instruction :: rest =>
    match callee instruction with
    | none => resolve arguments parameters rest
    | some callee =>
      match arguments.idxOf? callee with
      | none => if contains keyword callee then some callee else resolve arguments parameters rest
      | some which =>
        match parameters[which]? with
        -- `parameters[which_arguments]` raises an exception.
        | none => none
        | some callee =>
          if contains keyword callee then some callee else resolve arguments parameters rest

inductive Error where
  /-- `maximum recursion depth exceeded` -/
  | recursion
  /-- `found` is read without having been written. -/
  | unbound
  deriving DecidableEq

/-- What `find_call_stack` prints. -/
inductive Line where
  | sourceFiles (parts : List Def)
  | endOfStack (f : Text)
  | parseError
  | validCaller (f : Text) (d : Def)
  | error (e : Error)
  deriving DecidableEq

/-- `value` is the value that is returned. -/
structure Result where
  value : Option Bool
  lines : List Line

/-- The variable `found` and what has been printed. -/
structure Frame where
  found : Option Bool
  lines : List Line

def Frame.print (fr : Frame) (l : Line) : Frame := { fr with lines := fr.lines ++ [l] }

/-- A nested call has returned. -/
def Frame.resume (fr : Frame) (f : Text) (d : Def) (r : Result) : Frame :=
  if r.value = some true then ⟨some true, fr.lines ++ r.lines ++ [.validCaller f d]⟩
  else ⟨fr.found, fr.lines ++ r.lines⟩

/-- What is done with an instruction. -/
inductive Action where
  | skip
  | target
  | parseError
  | call (g : Text)
  deriving DecidableEq

namespace Project

variable (p : Project)

/-- What `find_call_stack_with_arguments` makes of a definition. -/
def resolveIn (d : Def) (parameters : List Text) : Option Text :=
  match p.content d, p.arguments d with
  | some content, some arguments => resolve arguments parameters content
  | _, _ => none

/-- Every path through the loop over the definitions returns at the first one. -/
def findCallStackWithArguments (f : Text) (parameters : List Text) : Option Text :=
  match p.index f with
  | [] => none
  | d :: _ => p.resolveIn d parameters

def action (instruction : Text) : Action :=
  match callee instruction with
  | none => .skip
  | some callee =>
    if targetBpfFunctions.contains callee then .target
    else if contains keyword callee then .call callee
    else
      match parameters (strip instruction) with
      | none => .parseError
      | some parameters =>
        match p.findCallStackWithArguments callee parameters with
        | none => .skip
        | some g => .call g

end Project

/-- `nested` is the recursive call. -/
def act (nested : Text → Result) (f : Text) (d : Def) (fr : Frame) : Action → Except Result Frame
  | .skip => .ok fr
  | .target => .error ⟨some true, fr.lines ++ [.endOfStack f]⟩
  | .parseError => .ok (fr.print .parseError)
  | .call g => .ok (fr.resume f d (nested g))

namespace Project

variable (p : Project)

def definition (nested : Text → Result) (f : Text) (fr : Frame) (d : Def) :
    Except Result Frame :=
  match p.content d with
  | none => .ok fr
  | some content =>
    content.foldlM (fun fr instruction => act nested f d fr (p.action instruction))
      { fr with found := some false }

/-- The end of the loop: `return found`. -/
def finish : Except Result Frame → Result
  | .error r => r
  | .ok ⟨some found, lines⟩ => ⟨some found, lines⟩
  | .ok ⟨none, lines⟩ => ⟨none, lines ++ [.error .unbound]⟩

def frame (nested : Text → Result) (f : Text) : Result :=
  finish ((p.index f).foldlM (p.definition nested f) ⟨none, [.sourceFiles (p.index f)]⟩)

/-- `limit` is the number of calls of this function that the interpreter still has frames for. If
there are none left, the call fails with a `RecursionError` in the commands it runs first, catches
it and returns `None`; its caller goes on. -/
def findCallStack : Nat → Text → Result
  | 0, _ => ⟨none, [.error .recursion]⟩
  | limit + 1, f => p.frame (findCallStack limit) f

end Project

/-! ## One loop -/

/-- The steps of the two loops: a definition whose body is known, and its instructions. -/
inductive Step where
  | enter
  | act (d : Def) (a : Action)

def step (nested : Text → Result) (f : Text) (fr : Frame) : Step → Except Result Frame
  | .enter => .ok { fr with found := some false }
  | .act d a => Dmon.act nested f d fr a

namespace Project

variable (p : Project)

def stepsOf (d : Def) : List Step :=
  match p.content d with
  | none => []
  | some content => .enter :: content.map fun instruction => .act d (p.action instruction)

def steps (f : Text) : List Step := (p.index f).flatMap p.stepsOf

end Project

variable {p : Project} {nested : Text → Result} {f g : Text} {d : Def}

theorem Frame.mem_resume {fr : Frame} {r : Result} {x : Line} : x ∈ (fr.resume f d r).lines ↔
    x ∈ fr.lines ∨ x ∈ r.lines ∨ (r.value = some true ∧ x = .validCaller f d) := by
  rw [Frame.resume]
  by_cases h : r.value = some true <;> simp [h]

theorem Frame.found_resume {fr : Frame} {r : Result} :
    (fr.resume f d r).found = if r.value = some true then some true else fr.found := by
  rw [Frame.resume]
  split <;> rfl

theorem definition_eq (fr : Frame) :
    p.definition nested f fr d = (p.stepsOf d).foldlM (step nested f) fr := by
  rw [Project.definition, Project.stepsOf]
  cases p.content d with
  | none => rfl
  | some content =>
    show _ = (content.map fun instruction => Step.act d (p.action instruction)).foldlM
      (step nested f) ⟨some false, fr.lines⟩
    rw [List.foldlM_map]
    rfl

theorem foldlM_definition (fr : Frame) (l : List Def) :
    l.foldlM (p.definition nested f) fr = (l.flatMap p.stepsOf).foldlM (step nested f) fr := by
  induction l generalizing fr with
  | nil => rfl
  | cons d l ih =>
    rw [List.foldlM_cons, List.flatMap_cons, List.foldlM_append, definition_eq]
    exact bind_congr fun fr => ih fr

theorem frame_eq : p.frame nested f =
    Project.finish ((p.steps f).foldlM (step nested f) ⟨none, [.sourceFiles (p.index f)]⟩) := by
  rw [Project.frame, foldlM_definition]
  rfl

/-- What holds of `found` and the lines when the loop ends holds of the result. -/
theorem finish_ends {Q : Option Bool → List Line → Prop} {x : Except Result Frame}
    (hunbound : ∀ lines, Q none lines → Q none (lines ++ [.error .unbound]))
    (h : Ends (fun fr : Frame => Q fr.found fr.lines) (fun r : Result => Q r.value r.lines) x) :
    Q (Project.finish x).value (Project.finish x).lines := by
  rcases x with r | ⟨_ | found, lines⟩
  · exact h
  · exact hunbound lines h
  · exact h

theorem mem_steps {a : Action} (h : Step.act d a ∈ p.steps f) :
    d ∈ p.index f ∧ ∃ content, p.content d = some content ∧
      ∃ instruction ∈ content, a = p.action instruction := by
  obtain ⟨d', hd', h⟩ := List.mem_flatMap.1 h
  rw [Project.stepsOf] at h
  cases hc : p.content d' with
  | none =>
    rw [hc] at h
    cases h
  | some content =>
    rw [hc] at h
    rcases List.mem_cons.1 h with h | h
    · cases h
    · obtain ⟨instruction, hi, heq⟩ := List.mem_map.1 h
      cases heq
      exact ⟨hd', content, hc, instruction, hi, rfl⟩

/-! ## What can be found -/

/-- An instruction in the body of a listed definition of `f`. -/
structure Project.InBody (p : Project) (f : Text) (d : Def) (instruction : Text) : Prop where
  listed : d ∈ p.index f
  body : ∃ content, p.content d = some content ∧ instruction ∈ content

/-- `g` is extracted from the definition `d` of `f`. -/
inductive Project.Extracts (p : Project) (f : Text) (d : Def) (g : Text) : Prop where
  | direct (instruction : Text) (body : p.InBody f d instruction)
      (head : callee instruction = some g) (key : contains keyword g = true)
  | argument (instruction w : Text) (ps : List Text) (body : p.InBody f d instruction)
      (head : callee instruction = some w) (plain : contains keyword w = false)
      (actuals : parameters (strip instruction) = some ps)
      (found : p.findCallStackWithArguments w ps = some g)

def Project.Calls (p : Project) (f g : Text) : Prop := ∃ d, p.Extracts f d g

def Project.HasTarget (p : Project) (f : Text) : Prop :=
  ∃ d instruction g, p.InBody f d instruction ∧ callee instruction = some g ∧
    g ∈ targetBpfFunctions

/-- There is a chain from `f` to a function that calls a target. -/
def Project.Leads (p : Project) (f : Text) : Prop :=
  ∃ g, Relation.ReflTransGen p.Calls f g ∧ p.HasTarget g

/-- The definition `d` of `g` is on such a chain. -/
def Project.OnChain (p : Project) (f g : Text) (d : Def) : Prop :=
  Relation.ReflTransGen p.Calls f g ∧ ∃ h, p.Extracts g d h ∧ p.Leads h

theorem action_target {instruction : Text} : p.action instruction = .target ↔
    ∃ g, callee instruction = some g ∧ g ∈ targetBpfFunctions := by
  rw [Project.action]
  cases callee instruction with
  | none => simp
  | some g =>
    by_cases hg : g ∈ targetBpfFunctions
    · simp [hg]
    · simp only [List.contains_iff_mem, hg, if_false, Option.some.injEq, exists_eq_left', iff_false]
      split
      · simp
      · split
        · simp
        · split <;> simp

theorem action_call {instruction : Text} (h : p.action instruction = .call g) :
    (callee instruction = some g ∧ contains keyword g = true) ∨
      ∃ w ps, callee instruction = some w ∧ contains keyword w = false ∧
        parameters (strip instruction) = some ps ∧
          p.findCallStackWithArguments w ps = some g := by
  rw [Project.action] at h
  split at h
  · cases h
  · rename_i w hw
    split at h
    · cases h
    · split at h
      · rename_i hk
        cases h
        exact .inl ⟨hw, hk⟩
      · rename_i hk
        split at h
        · cases h
        · rename_i ps hps
          split at h
          · cases h
          · rename_i g' hg
            cases h
            exact .inr ⟨w, ps, hw, Bool.eq_false_iff.2 hk, hps, hg⟩

theorem extracts_of_step (h : Step.act d (.call g) ∈ p.steps f) : p.Extracts f d g := by
  obtain ⟨hd, content, hc, instruction, hi, ha⟩ := mem_steps h
  have hbody : p.InBody f d instruction := ⟨hd, content, hc, hi⟩
  rcases action_call ha.symm with ⟨hg, hk⟩ | ⟨w, ps, hw, hk, hps, hg⟩
  · exact .direct instruction hbody hg hk
  · exact .argument instruction w ps hbody hw hk hps hg

theorem hasTarget_of_step (h : Step.act d .target ∈ p.steps f) : p.HasTarget f := by
  obtain ⟨hd, content, hc, instruction, hi, ha⟩ := mem_steps h
  obtain ⟨g, hg, ht⟩ := action_target.1 ha.symm
  exact ⟨d, instruction, g, ⟨hd, content, hc, hi⟩, hg, ht⟩

theorem Project.Leads.head (hcall : p.Calls f g) (h : p.Leads g) : p.Leads f := by
  obtain ⟨t, hr, ht⟩ := h
  exact ⟨t, .head hcall hr, ht⟩

/-! ## Soundness -/

structure Sound (p : Project) (f : Text) (value : Option Bool) (lines : List Line) : Prop where
  value : value = some true → p.Leads f
  callers : ∀ g d, .validCaller g d ∈ lines → p.OnChain f g d

theorem Sound.print {value : Option Bool} {lines : List Line} {l : Line}
    (h : Sound p f value lines) (hl : ∀ g d, l = .validCaller g d → p.OnChain f g d) :
    Sound p f value (lines ++ [l]) := by
  refine ⟨h.value, fun g d hg => ?_⟩
  rcases List.mem_append.1 hg with hg | hg
  · exact h.callers g d hg
  · exact hl g d (List.mem_singleton.1 hg).symm

/-- What a nested call prints is on a chain of the caller. -/
theorem Sound.resume {fr : Frame} (h : Sound p f fr.found fr.lines) {r : Result}
    (hr : Sound p g r.value r.lines) (hext : p.Extracts f d g) :
    Sound p f (fr.resume f d r).found (fr.resume f d r).lines := by
  refine ⟨fun hv => ?_, fun g' d' hline => ?_⟩
  · rw [Frame.found_resume] at hv
    split at hv
    · rename_i htrue
      exact (hr.value htrue).head ⟨d, hext⟩
    · exact h.value hv
  · rcases Frame.mem_resume.1 hline with hline | hline | ⟨htrue, heq⟩
    · exact h.callers g' d' hline
    · obtain ⟨hreach, hrest⟩ := hr.callers g' d' hline
      exact ⟨.head ⟨d, hext⟩ hreach, hrest⟩
    · cases heq
      exact ⟨.refl, g, hext, hr.value htrue⟩

theorem step_sound (hnested : ∀ g, Sound p g (nested g).value (nested g).lines) {s : Step}
    (hs : s ∈ p.steps f) (fr : Frame) (h : Sound p f fr.found fr.lines) :
    Ends (fun fr => Sound p f fr.found fr.lines) (fun r => Sound p f r.value r.lines)
      (step nested f fr s) := by
  match s, hs with
  | .enter, _ => exact ⟨fun hv => (by cases hv), h.callers⟩
  | .act d .skip, _ => exact h
  | .act d .parseError, _ => exact h.print fun _ _ hl => by cases hl
  | .act d .target, hs =>
    have hlead : p.Leads f := ⟨f, .refl, hasTarget_of_step hs⟩
    have hprint : Sound p f fr.found (fr.lines ++ [.endOfStack f]) :=
      h.print fun _ _ hl => by cases hl
    exact ⟨fun _ => hlead, hprint.callers⟩
  | .act d (.call g), hs => exact h.resume (hnested g) (extracts_of_step hs)

theorem frame_sound (hnested : ∀ g, Sound p g (nested g).value (nested g).lines) :
    Sound p f (p.frame nested f).value (p.frame nested f).lines := by
  have hstart : Sound p f none [.sourceFiles (p.index f)] := by
    refine ⟨fun hv => (by cases hv), fun g d hl => ?_⟩
    cases List.mem_singleton.1 hl
  have hloop := foldlM_ends (fun s hs => step_sound hnested hs) hstart
    (b := ⟨none, [.sourceFiles (p.index f)]⟩)
  rw [frame_eq]
  exact finish_ends (fun lines h => h.print fun _ _ hl => by cases hl) hloop

/-- The induction is on the frames that are left. -/
theorem findCallStack_sound (limit : Nat) (f : Text) :
    Sound p f (p.findCallStack limit f).value (p.findCallStack limit f).lines := by
  induction limit generalizing f with
  | zero =>
    refine ⟨fun hv => (by cases hv), fun g d hl => ?_⟩
    cases List.mem_singleton.1 hl
  | succ limit ih => exact frame_sound ih

theorem search_sound (p : Project) (limit : Nat) (f : Text) :
    ((p.findCallStack limit f).value = some true → p.Leads f) ∧
      ∀ g d, .validCaller g d ∈ (p.findCallStack limit f).lines → p.OnChain f g d :=
  ⟨(findCallStack_sound limit f).value, (findCallStack_sound limit f).callers⟩

/-- A project that is given by tables. -/
def Project.ofTables (index : List (Text × List Def)) (files : List (Text × Text)) : Project where
  index f := (index.lookup f).getD []
  file path := files.lookup path

def spinLock : Text := "spin_lock".toList

def rawSpinLock : Text := "raw_spin_lock".toList

def header : Text := "include/linux/spinlock.h".toList

/-- `spin_lock` is `raw_spin_lock`, and this is `queued_spin_lock`. -/
def twoMacros : Project :=
  .ofTables [(spinLock, [⟨header, 1⟩]), (rawSpinLock, [⟨header, 2⟩])]
    [(header, "#define spin_lock(l) raw_spin_lock(l)\n".toList ++
      "#define raw_spin_lock(l) queued_spin_lock(l)\n".toList)]

theorem search_sound_twoMacros : twoMacros.Leads spinLock ∧
    twoMacros.OnChain spinLock spinLock ⟨header, 1⟩ :=
  ⟨(search_sound twoMacros 2 spinLock).1 (by decide),
    (search_sound twoMacros 2 spinLock).2 _ _ (by decide)⟩

end Dmon
end SynCord
