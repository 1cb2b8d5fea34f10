import SynCord.Dmon.Depth

/-!
# SynCord.Dmon.Order

What the search returns, and how that depends on the order in which `cscope` lists the definitions
of a name. `found` is written anew for every definition, so a definition that leads to a target is
forgotten when another one with a body comes after it. Only a target itself ends the search.

* `returns_of_reaches`, `returns_of_not_reaches` — the result of a search that ends.
* `Must.reaches`, `may_of_reaches` — what is found in every order, and what in some order.
* `exists_order_must`, `exists_order_may` — orders in which no more is found, and no less.
* `search_complete_iff` — when the search is complete and does not depend on the order.
-/

namespace SynCord
namespace Dmon

open Text

variable {p p' : Project} {nested : Text → Result} {f g : Text} {d : Def}

/-! ## The value of a call -/

/-- The variable `found`, if `leads` tells what a nested call returns. -/
def Step.next (leads : Text → Bool) (found : Option Bool) : Step → Option Bool
  | .enter => some false
  | .act _ (.call g) => if leads g then some true else found
  | .act _ _ => found

/-- The nested call returns `True`. -/
def Leading (nested : Text → Result) (g : Text) : Bool := (nested g).value = some true

theorem loop_target {l : List Step} {d : Def} (ht : .act d .target ∈ l) (fr : Frame) :
    (Project.finish (l.foldlM (step nested f) fr)).value = some true := by
  induction l generalizing fr with
  | nil => cases ht
  | cons s l ih =>
    rw [List.foldlM_cons]
    match s with
    | .act d .target => rfl
    | .enter => exact ih (by simpa using ht) _
    | .act d .skip => exact ih (by simpa using ht) _
    | .act d .parseError => exact ih (by simpa using ht) _
    | .act d (.call g) => exact ih (by simpa using ht) _

theorem loop_value {l : List Step} (ht : ∀ d, .act d .target ∉ l) (fr : Frame) :
    (Project.finish (l.foldlM (step nested f) fr)).value =
      l.foldl (Step.next (Leading nested)) fr.found := by
  induction l generalizing fr with
  | nil =>
    obtain ⟨_ | _, lines⟩ := fr
    · rfl
    · rfl
  | cons s l ih =>
    have ht' : ∀ d, .act d .target ∉ l := fun d hd => ht d (List.mem_cons_of_mem _ hd)
    rw [List.foldlM_cons, List.foldl_cons]
    match s with
    | .act d .target => exact absurd (List.mem_cons_self ..) (ht d)
    | .enter => exact ih ht' _
    | .act d .skip => exact ih ht' _
    | .act d .parseError => exact ih ht' _
    | .act d (.call g) =>
      have hfound : Step.next (Leading nested) fr.found (.act d (.call g)) =
          (fr.resume f d (nested g)).found := by
        rw [Frame.found_resume, Step.next, Leading]
        simp
      rw [hfound]
      exact ih ht' _

/-- The definitions with a body that is known. -/
def Project.usable (p : Project) (d : Def) : Bool := (p.content d).isSome

def Project.lastUsable (p : Project) (f : Text) : Option Def :=
  ((p.index f).filter p.usable).getLast?

/-- Some instruction of the definition makes a nested call that returns `True`. -/
def Project.leadsFrom (p : Project) (leads : Text → Bool) (d : Def) : Bool :=
  ((p.content d).getD []).any fun instruction =>
    match p.action instruction with
    | .call g => leads g
    | _ => false

theorem foldl_body (leads : Text → Bool) (content : List Text) (b : Bool) :
    (content.map fun instruction => Step.act d (p.action instruction)).foldl (Step.next leads)
      (some b) = some (b || content.any fun instruction =>
        match p.action instruction with
        | .call g => leads g
        | _ => false) := by
  induction content generalizing b with
  | nil => simp
  | cons instruction content ih =>
    rw [List.map_cons, List.foldl_cons, List.any_cons, ← Bool.or_assoc, ← ih]
    congr 1
    cases p.action instruction with
    | skip => simp [Step.next]
    | target => simp [Step.next]
    | parseError => simp [Step.next]
    | call g => cases hg : leads g <;> simp [Step.next, hg]

theorem foldl_stepsOf (leads : Text → Bool) (found : Option Bool) :
    (p.stepsOf d).foldl (Step.next leads) found =
      if p.usable d then some (p.leadsFrom leads d) else found := by
  rw [Project.stepsOf, Project.usable, Project.leadsFrom]
  cases p.content d with
  | none => rfl
  | some content => exact foldl_body leads content false

/-- Only the last definition with a body counts. -/
theorem foldl_steps (leads : Text → Bool) (l : List Def) :
    (l.flatMap p.stepsOf).foldl (Step.next leads) none =
      ((l.filter p.usable).getLast?).map (p.leadsFrom leads) := by
  induction l using List.reverseRecOn with
  | nil => rfl
  | append_singleton l d ih =>
    rw [List.flatMap_append, List.foldl_append, ih, List.flatMap_singleton, foldl_stepsOf,
      List.filter_append]
    cases hd : p.usable d <;> simp [hd]

/-! ## What is returned in the end -/

def Project.Returns (p : Project) (f : Text) (value : Option Bool) : Prop :=
  ∃ limit, ¬ (p.findCallStack limit f).Overflows ∧ (p.findCallStack limit f).value = value

/-- What the search can find: a target in any definition, or what the last one with a body leads
to. -/
inductive Project.Reaches (p : Project) : Text → Prop where
  | target {f : Text} (h : p.HasTarget f) : p.Reaches f
  | last {f g : Text} {d : Def} (last : p.lastUsable f = some d) (extracts : p.Extracts f d g)
      (h : p.Reaches g) : p.Reaches f

theorem Project.InBody.step {instruction : Text} (h : p.InBody f d instruction) :
    .act d (p.action instruction) ∈ p.steps f := by
  obtain ⟨content, hc, hi⟩ := h.body
  refine List.mem_flatMap.2 ⟨d, h.listed, ?_⟩
  rw [Project.stepsOf, hc]
  exact List.mem_cons_of_mem _ (List.mem_map_of_mem hi)

theorem hasTarget_iff : p.HasTarget f ↔ ∃ d, .act d .target ∈ p.steps f := by
  constructor
  · rintro ⟨d, instruction, g, hbody, hg, ht⟩
    have hs := hbody.step
    rw [action_target.2 ⟨g, hg, ht⟩] at hs
    exact ⟨d, hs⟩
  · rintro ⟨d, hs⟩
    exact hasTarget_of_step hs

theorem mem_callsOf {l : List Step} (ht : ∀ d, .act d .target ∉ l)
    (h : .act d (.call g) ∈ l) : g ∈ callsOf l := by
  have hall : l.takeWhile (!·.isTarget) = l := by
    rw [List.takeWhile_eq_self_iff]
    intro s hs
    match s with
    | .act d .target => exact absurd hs (ht d)
    | .enter => rfl
    | .act d .skip => rfl
    | .act d .parseError => rfl
    | .act d (.call g) => rfl
  rw [callsOf, hall]
  exact List.mem_filterMap.2 ⟨_, h, rfl⟩

/-- Without a target, what is extracted from an instruction is what is called. -/
theorem extracts_iff (ht : ¬ p.HasTarget f) : p.Extracts f d g ↔
    ∃ instruction, p.InBody f d instruction ∧ p.action instruction = .call g := by
  constructor
  · intro h
    cases h with
    | direct instruction hbody hg hk =>
      have hno : g ∉ targetBpfFunctions := fun hm => ht ⟨d, instruction, g, hbody, hg, hm⟩
      refine ⟨instruction, hbody, ?_⟩
      rw [Project.action, hg]
      simp only [List.contains_iff_mem, if_neg hno, if_pos hk]
    | argument instruction w ps hbody hw hk hps hg =>
      have hno : w ∉ targetBpfFunctions := fun hm => ht ⟨d, instruction, w, hbody, hw, hm⟩
      refine ⟨instruction, hbody, ?_⟩
      rw [Project.action, hw]
      simp only [List.contains_iff_mem, if_neg hno, hk, Bool.false_eq_true, if_false, hps, hg]
  · rintro ⟨instruction, hbody, ha⟩
    have hs := hbody.step
    rw [ha] at hs
    exact extracts_of_step hs

theorem Project.Extracts.mem_calls (h : p.Extracts f d g) (ht : ¬ p.HasTarget f) :
    g ∈ p.calls f := by
  obtain ⟨instruction, hbody, ha⟩ := (extracts_iff ht).1 h
  have hs := hbody.step
  rw [ha] at hs
  exact mem_callsOf (fun d hd => ht (hasTarget_of_step hd)) hs

theorem lastUsable_listed (h : p.lastUsable f = some d) : d ∈ p.index f :=
  (List.mem_filter.1 (List.mem_of_getLast? h)).1

theorem leadsFrom_iff (ht : ¬ p.HasTarget f) (hd : d ∈ p.index f) {leads : Text → Bool} :
    p.leadsFrom leads d = true ↔ ∃ g, p.Extracts f d g ∧ leads g = true := by
  simp only [extracts_iff ht, Project.leadsFrom, List.any_eq_true]
  constructor
  · rintro ⟨instruction, hi, hl⟩
    split at hl
    · rename_i g ha
      refine ⟨g, ⟨instruction, ⟨hd, ?_⟩, ha⟩, hl⟩
      cases hc : p.content d with
      | none =>
        rw [hc] at hi
        cases hi
      | some content =>
        rw [hc] at hi
        exact ⟨content, rfl, hi⟩
    · cases hl
  · rintro ⟨g, ⟨instruction, hbody, ha⟩, hl⟩
    obtain ⟨content, hc, hi⟩ := hbody.body
    refine ⟨instruction, ?_, ?_⟩
    · rw [hc]
      exact hi
    · rw [ha]
      exact hl

theorem frame_value_of_target (ht : p.HasTarget f) : (p.frame nested f).value = some true := by
  obtain ⟨d, hd⟩ := hasTarget_iff.1 ht
  rw [frame_eq]
  exact loop_target hd _

theorem frame_value (ht : ¬ p.HasTarget f) : (p.frame nested f).value =
    (p.lastUsable f).map (p.leadsFrom (Leading nested)) := by
  rw [frame_eq, loop_value fun d hd => ht (hasTarget_of_step hd)]
  exact foldl_steps _ _

/-- Each of the nested calls of `f` has found what there is to be found. -/
def Answered (p : Project) (nested : Text → Result) (f : Text) : Prop :=
  ∀ g ∈ p.calls f, (nested g).value = some true ↔ p.Reaches g

theorem Answered.leading_iff (h : Answered p nested f) (hg : g ∈ p.calls f) :
    Leading nested g = true ↔ p.Reaches g := by
  rw [Leading, ← h g hg]
  exact decide_eq_true_iff

theorem frame_reaches (h : Answered p nested f) :
    (p.frame nested f).value = some true ↔ p.Reaches f := by
  by_cases ht : p.HasTarget f
  · exact ⟨fun _ => .target ht, fun _ => frame_value_of_target ht⟩
  · rw [frame_value ht, Option.map_eq_some_iff]
    constructor
    · rintro ⟨d, hd, hl⟩
      obtain ⟨g, hext, hg⟩ := (leadsFrom_iff ht (lastUsable_listed hd)).1 hl
      exact .last hd hext ((h.leading_iff (hext.mem_calls ht)).1 hg)
    · intro hr
      cases hr with
      | target ht' => exact absurd ht' ht
      | @last _ g d hd hext hg =>
        exact ⟨d, hd, (leadsFrom_iff ht (lastUsable_listed hd)).2
          ⟨g, hext, (h.leading_iff (hext.mem_calls ht)).2 hg⟩⟩

theorem frame_not_reaches (h : Answered p nested f) (hno : ¬ p.Reaches f) :
    (p.frame nested f).value = (p.lastUsable f).map fun _ => false := by
  have hv := mt (frame_reaches h).1 hno
  rw [frame_value fun ht => hno (.target ht)] at hv ⊢
  cases hd : p.lastUsable f with
  | none => rfl
  | some d =>
    rw [hd] at hv
    exact congrArg some (Bool.eq_false_iff.2 fun hl => hv (congrArg some hl))

theorem findCallStack_eq_frame {limit : Nat} (h : Within p.calls limit f) :
    ∃ nested, p.findCallStack limit f = p.frame nested f ∧ Answered p nested f := by
  induction limit generalizing f with
  | zero => cases h
  | succ limit ih =>
    refine ⟨_, rfl, fun g hg => ?_⟩
    obtain ⟨nested, heq, hans⟩ := ih (h g hg)
    rw [heq]
    exact frame_reaches hans

theorem returns_iff {limit : Nat} (h : Within p.calls limit f) {value : Option Bool} :
    p.Returns f value ↔ (p.findCallStack limit f).value = value := by
  constructor
  · rintro ⟨limit', ho, hv⟩
    rw [recursion_iff, not_not] at ho
    rw [← hv, ← findCallStack_of_le (Nat.le_max_left limit limit') h,
      findCallStack_of_le (Nat.le_max_right limit limit') ho]
  · intro hv
    exact ⟨limit, fun ho => recursion_iff.1 ho h, hv⟩

theorem Project.Returns.terminates {value : Option Bool} (h : p.Returns f value) :
    p.Terminates f := by
  obtain ⟨limit, ho, -⟩ := h
  exact ⟨limit, ho⟩

theorem Project.Terminates.within (h : p.Terminates f) : ∃ limit, Within p.calls limit f := by
  obtain ⟨limit, ho⟩ := h
  exact ⟨limit, not_not.1 (mt recursion_iff.2 ho)⟩

theorem Project.Returns.unique {value value' : Option Bool} (h : p.Returns f value)
    (h' : p.Returns f value') : value = value' := by
  obtain ⟨limit, hw⟩ := h.terminates.within
  exact ((returns_iff hw).1 h).symm.trans ((returns_iff hw).1 h')

theorem returns_of_reaches (h : p.Terminates f) (hr : p.Reaches f) {value : Option Bool} :
    p.Returns f value ↔ value = some true := by
  obtain ⟨limit, hw⟩ := h.within
  obtain ⟨nested, heq, hans⟩ := findCallStack_eq_frame hw
  rw [returns_iff hw, heq, (frame_reaches hans).2 hr]
  exact eq_comm

theorem returns_of_not_reaches (h : p.Terminates f) (hr : ¬ p.Reaches f) {value : Option Bool} :
    p.Returns f value ↔ value = (p.lastUsable f).map fun _ => false := by
  obtain ⟨limit, hw⟩ := h.within
  obtain ⟨nested, heq, hans⟩ := findCallStack_eq_frame hw
  rw [returns_iff hw, heq, frame_not_reaches hans hr]
  exact eq_comm

theorem returns_true_iff (h : p.Terminates f) : p.Returns f (some true) ↔ p.Reaches f := by
  by_cases hr : p.Reaches f
  · simp [returns_of_reaches h hr, hr]
  · simp [returns_of_not_reaches h hr, hr]

/-! ## Order -/

/-- The same files, and the same definitions in another order. -/
structure Project.Reordered (p p' : Project) : Prop where
  file : p'.file = p.file
  index : ∀ g, (p'.index g).Perm (p.index g)

/-- The search returns `True` if some definition of `f` has an instruction that leads to a target,
and it returns the same for every order of the definitions for which it ends. -/
structure Project.Law (p : Project) (f : Text) : Prop where
  complete : ∀ d instruction g, p.InBody f d instruction → callee instruction = some g →
    (g ∈ targetBpfFunctions ∨ contains keyword g = true ∧ p.Returns g (some true)) →
      p.Returns f (some true)
  order : ∀ p', p.Reordered p' → p'.Terminates f → ∀ value, p'.Returns f value ↔ p.Returns f value

/-! ## What every order finds, and what some order may find -/

/-- The definitions of `f` whose bodies are known. -/
def Project.bodies (p : Project) (f : Text) : List Def := (p.index f).filter p.usable

/-- Whichever definition of a macro comes first, the instruction leads to a name in `S`. -/
inductive Project.Sure (p : Project) (S : Text → Prop) (instruction : Text) : Prop where
  | direct (g : Text) (head : callee instruction = some g) (key : contains keyword g = true)
      (next : S g)
  | argument (w : Text) (ps : List Text) (head : callee instruction = some w)
      (plain : contains keyword w = false) (actuals : parameters (strip instruction) = some ps)
      (listed : p.index w ≠ []) (all : ∀ d ∈ p.index w, ∃ g, p.resolveIn d ps = some g ∧ S g)

/-- For some definition of a macro, the instruction leads to a name in `S`. -/
inductive Project.Possible (p : Project) (S : Text → Prop) (instruction : Text) : Prop where
  | direct (g : Text) (head : callee instruction = some g) (key : contains keyword g = true)
      (next : S g)
  | argument (w g : Text) (ps : List Text) (d : Def) (head : callee instruction = some w)
      (plain : contains keyword w = false) (actuals : parameters (strip instruction) = some ps)
      (listed : d ∈ p.index w) (found : p.resolveIn d ps = some g) (next : S g)

/-- A target is found in every order: some definition has one, or each of those with a body has an
instruction from which one is found in every order. -/
inductive Project.Must (p : Project) : Text → Prop where
  | target {f : Text} (h : p.HasTarget f) : p.Must f
  | every {f : Text} (S : Text → Prop) (next : ∀ g, S g → p.Must g) (bodies : p.bodies f ≠ [])
      (sure : ∀ d ∈ p.bodies f, ∃ instruction, p.InBody f d instruction ∧ p.Sure S instruction) :
      p.Must f

/-- A target may be found: some definition has one, or an instruction from which one may be
found. -/
inductive Project.May (p : Project) : Text → Prop where
  | target {f : Text} (h : p.HasTarget f) : p.May f
  | some {f instruction : Text} {d : Def} (S : Text → Prop) (next : ∀ g, S g → p.May g)
      (body : p.InBody f d instruction) (possible : p.Possible S instruction) : p.May f

section Reordered

variable (h : p.Reordered p')

include h

theorem Project.Reordered.content (d : Def) : p'.content d = p.content d := by
  rw [Project.content, Project.content, h.file]

theorem Project.Reordered.inBody {instruction : Text} :
    p'.InBody f d instruction ↔ p.InBody f d instruction := by
  constructor
  · rintro ⟨hd, hb⟩
    exact ⟨(h.index f).mem_iff.1 hd, by rwa [← h.content]⟩
  · rintro ⟨hd, hb⟩
    exact ⟨(h.index f).mem_iff.2 hd, by rwa [h.content]⟩

theorem Project.Reordered.hasTarget : p'.HasTarget f ↔ p.HasTarget f := by
  simp only [Project.HasTarget, h.inBody]

/-- There is a definition with a body in every order or in none. -/
theorem Project.Reordered.lastUsable :
    (p'.lastUsable f).map (fun _ => false) = (p.lastUsable f).map fun _ => false := by
  have hu : p'.usable = p.usable := by
    funext d
    rw [Project.usable, Project.usable, h.content]
  have hperm : ((p'.index f).filter p'.usable).Perm ((p.index f).filter p.usable) := by
    rw [hu]
    exact (h.index f).filter _
  have hnil : p'.lastUsable f = none ↔ p.lastUsable f = none := by
    rw [Project.lastUsable, Project.lastUsable, List.getLast?_eq_none_iff,
      List.getLast?_eq_none_iff]
    exact ⟨fun h0 => (h0 ▸ hperm).nil_eq.symm, fun h0 => (h0 ▸ hperm).eq_nil⟩
  cases h' : p'.lastUsable f with
  | none => rw [hnil.1 h']
  | some d' =>
    cases h₀ : p.lastUsable f with
    | none => rw [hnil.2 h₀] at h'; cases h'
    | some d => rfl

end Reordered

theorem Project.Reordered.refl (p : Project) : p.Reordered p := ⟨rfl, fun _ => .refl _⟩

theorem mem_bodies : d ∈ p.bodies f ↔ d ∈ p.index f ∧ p.usable d = true := List.mem_filter

theorem lastUsable_mem (h : p.lastUsable f = some d) : d ∈ p.bodies f := List.mem_of_getLast? h

theorem exists_lastUsable (h : p.bodies f ≠ []) : ∃ d, p.lastUsable f = some d :=
  ⟨_, List.getLast?_eq_some_getLast h⟩

theorem Project.InBody.mem_bodies {instruction : Text} (h : p.InBody f d instruction) :
    d ∈ p.bodies f := by
  obtain ⟨content, hc, -⟩ := h.body
  exact Dmon.mem_bodies.2 ⟨h.listed, by simp [Project.usable, hc]⟩

/-- What is found through a macro is what its first definition gives. -/
theorem withArguments_iff {w : Text} {ps : List Text} :
    p.findCallStackWithArguments w ps = some g ↔
      ∃ d, (p.index w).head? = some d ∧ p.resolveIn d ps = some g := by
  rw [Project.findCallStackWithArguments]
  cases p.index w <;> simp

section Reordered

variable (h : p.Reordered p')

include h

theorem Project.Reordered.usable (d : Def) : p'.usable d = p.usable d := by
  rw [Project.usable, Project.usable, h.content]

theorem Project.Reordered.mem_bodies : d ∈ p'.bodies f ↔ d ∈ p.bodies f := by
  rw [Dmon.mem_bodies, Dmon.mem_bodies, (h.index f).mem_iff, h.usable]

theorem Project.Reordered.resolveIn (d : Def) (ps : List Text) :
    p'.resolveIn d ps = p.resolveIn d ps := by
  rw [Project.resolveIn, Project.resolveIn, h.content, Project.arguments, Project.arguments, h.file]

/-- A sure instruction leads on in every order. -/
theorem Project.Reordered.extracts_of_sure {S : Text → Prop} {instruction : Text}
    (hbody : p.InBody f d instruction) (hs : p.Sure S instruction) :
    ∃ g, p'.Extracts f d g ∧ S g := by
  cases hs with
  | direct g hg hk hS => exact ⟨g, .direct instruction (h.inBody.2 hbody) hg hk, hS⟩
  | argument w ps hw hk hps hne hall =>
    have hne' : p'.index w ≠ [] := fun h0 => hne ((h0 ▸ h.index w).nil_eq.symm)
    obtain ⟨d', rest, hidx⟩ := List.exists_cons_of_ne_nil hne'
    have hmem : d' ∈ p.index w := (h.index w).mem_iff.1 (by rw [hidx]; simp)
    obtain ⟨g, hres, hS⟩ := hall d' hmem
    refine ⟨g, .argument instruction w ps (h.inBody.2 hbody) hw hk hps ?_, hS⟩
    exact withArguments_iff.2 ⟨d', by rw [hidx]; rfl, by rw [h.resolveIn, hres]⟩

/-- What is extracted in some order is possible. -/
theorem Project.Reordered.possible_of_extracts (hext : p'.Extracts f d g) :
    ∃ instruction, p.InBody f d instruction ∧ p.Possible (· = g) instruction := by
  cases hext with
  | direct instruction hbody hg hk =>
    exact ⟨instruction, h.inBody.1 hbody, .direct g hg hk rfl⟩
  | argument instruction w ps hbody hw hk hps hfound =>
    obtain ⟨d', hd', hres⟩ := withArguments_iff.1 hfound
    refine ⟨instruction, h.inBody.1 hbody, .argument w g ps d' hw hk hps ?_ ?_ rfl⟩
    · exact (h.index w).mem_iff.1 (List.mem_of_mem_head? hd')
    · rw [← h.resolveIn, hres]

end Reordered

theorem Project.Must.reaches (hm : p.Must f) {p' : Project} (h : p.Reordered p') :
    p'.Reaches f := by
  induction hm with
  | target ht => exact .target (h.hasTarget.2 ht)
  | @every f S _ hne hsure ih =>
    have hne' : p'.bodies f ≠ [] := by
      obtain ⟨d, hd⟩ := List.exists_mem_of_ne_nil _ hne
      exact List.ne_nil_of_mem (h.mem_bodies.2 hd)
    obtain ⟨d, hd⟩ := exists_lastUsable hne'
    obtain ⟨instruction, hbody, hs⟩ := hsure d (h.mem_bodies.1 (lastUsable_mem hd))
    obtain ⟨g, hext, hS⟩ := h.extracts_of_sure hbody hs
    exact .last hd hext (ih g hS)

theorem Project.Reordered.may_of_reaches (h : p.Reordered p') (hr : p'.Reaches f) : p.May f := by
  induction hr with
  | target ht => exact .target (h.hasTarget.1 ht)
  | @last f g d _ hext _ ih =>
    obtain ⟨instruction, hbody, hpos⟩ := h.possible_of_extracts hext
    refine .some (· = g) ?_ hbody hpos
    rintro _ rfl
    exact ih

/-- A nested call of a search that ends does so too. -/
theorem Project.Terminates.of_mem_calls (h : p.Terminates f) (hg : g ∈ p.calls f) :
    p.Terminates g := by
  rw [terminates_iff_acc] at h ⊢
  exact h.inv hg

theorem Project.InBody.terminates {instruction : Text} (hbody : p.InBody f d instruction)
    (h : p.Terminates f) (ht : ¬ p.HasTarget f) (hg : callee instruction = some g)
    (hk : contains keyword g = true) : p.Terminates g :=
  h.of_mem_calls (Project.Extracts.mem_calls (.direct instruction hbody hg hk) ht)

theorem law_of_must (h : p.Terminates f) (hm : p.Must f) : p.Law f := by
  have hrp := hm.reaches (.refl p)
  refine ⟨fun _ _ _ _ _ _ => (returns_true_iff h).2 hrp, fun p' hp' h' value => ?_⟩
  rw [returns_of_reaches h' (hm.reaches hp'), returns_of_reaches h hrp]

theorem law_of_not_may (h : p.Terminates f) (hno : ¬ p.May f) : p.Law f := by
  have hr : ∀ p', p.Reordered p' → ¬ p'.Reaches f := fun p' hp' hr =>
    hno (hp'.may_of_reaches hr)
  have ht : ¬ p.HasTarget f := fun ht => hno (.target ht)
  refine ⟨fun d instruction g hbody hg hlead => ?_, fun p' hp' h' value => ?_⟩
  · rcases hlead with htarget | ⟨hk, hret⟩
    · exact absurd ⟨d, instruction, g, hbody, hg, htarget⟩ ht
    · have hreach := (returns_true_iff (hbody.terminates h ht hg hk)).1 hret
      have hmay := (Project.Reordered.refl p).may_of_reaches hreach
      refine absurd (Project.May.some (· = g) ?_ hbody (.direct g hg hk rfl)) hno
      rintro _ rfl
      exact hmay
  · rw [returns_of_not_reaches h' (hr p' hp'), returns_of_not_reaches h (hr p (.refl p)),
      hp'.lastUsable]

/-! ## Orders for what may and may not be found -/

/-- The definitions that are picked are listed last. -/
def Project.reorder (p : Project) (pick : Text → Option Def) : Project where
  index g :=
    match pick g with
    | none => p.index g
    | some d => (p.index g).erase d ++ [d]
  file := p.file

section Pick

variable {pick : Text → Option Def} (hpick : ∀ g, ∀ d ∈ pick g, d ∈ p.bodies g)

include hpick

theorem reorder_reordered : p.Reordered (p.reorder pick) := by
  refine ⟨rfl, fun g => ?_⟩
  simp only [Project.reorder]
  cases h : pick g with
  | none => exact .refl _
  | some d =>
    have hmem := (mem_bodies.1 (hpick g d h)).1
    exact (List.perm_append_singleton d _).trans (List.perm_cons_erase hmem).symm

theorem lastUsable_reorder (h : pick g = some d) : (p.reorder pick).lastUsable g = some d := by
  have hu : (p.reorder pick).usable d = true := by
    rw [(reorder_reordered hpick).usable]
    exact (mem_bodies.1 (hpick g d h)).2
  have hidx : (p.reorder pick).index g = (p.index g).erase d ++ [d] := by
    simp only [Project.reorder, h]
  rw [Project.lastUsable, hidx, List.filter_append, List.filter_cons_of_pos hu, List.filter_nil,
    List.getLast?_concat]

end Pick

/-- The names that a call cannot go on with have one definition at most. -/
def Project.PlainMacros (p : Project) : Prop :=
  ∀ w, contains keyword w = false → (p.index w).length ≤ 1

theorem Project.Reordered.withArguments (h : p.Reordered p') (hp : p.PlainMacros) {w : Text}
    (hw : contains keyword w = false) (ps : List Text) :
    p'.findCallStackWithArguments w ps = p.findCallStackWithArguments w ps := by
  have hidx : p'.index w = p.index w := by
    have hperm := h.index w
    match hg : p.index w, hp w hw with
    | [], _ => rw [hg] at hperm; exact hperm.eq_nil
    | [d], _ => rw [hg] at hperm; exact List.perm_singleton.1 hperm
  rw [Project.findCallStackWithArguments, Project.findCallStackWithArguments, hidx]
  cases p.index w with
  | nil => rfl
  | cons d rest => exact h.resolveIn d ps

/-- With one definition for each macro, what is extracted in some order is sure. -/
theorem Project.Reordered.sure_of_extracts (h : p.Reordered p') (hp : p.PlainMacros)
    {S : Text → Prop} (hext : p'.Extracts f d g) (hS : S g) :
    ∃ instruction, p.InBody f d instruction ∧ p.Sure S instruction := by
  cases hext with
  | direct instruction hbody hg hk =>
    exact ⟨instruction, h.inBody.1 hbody, .direct g hg hk hS⟩
  | argument instruction w ps hbody hw hk hps hfound =>
    rw [h.withArguments hp hk] at hfound
    obtain ⟨d', hd', hres⟩ := withArguments_iff.1 hfound
    obtain ⟨rest, hidx⟩ : ∃ rest, p.index w = d' :: rest := by
      cases hi : p.index w with
      | nil => rw [hi] at hd'; cases hd'
      | cons x rest => rw [hi] at hd'; cases hd'; exact ⟨rest, rfl⟩
    have hrest : rest = [] := by
      have hlen := hp w hk
      rw [hidx, List.length_cons] at hlen
      exact List.length_eq_zero_iff.1 (by omega)
    refine ⟨instruction, h.inBody.1 hbody, .argument w ps hw hk hps (by simp [hidx]) ?_⟩
    intro x hx
    rw [hidx, hrest, List.mem_singleton] at hx
    subst hx
    exact ⟨g, hres, hS⟩

/-- In some order nothing is found but what must be. -/
theorem exists_order_must (hp : p.PlainMacros) :
    ∃ p', p.Reordered p' ∧ ∀ f, p'.Reaches f → p.Must f := by
  classical
  -- a definition with a body, and with no instruction that is sure to lead on
  let Bad (g : Text) (d : Def) : Prop := d ∈ p.bodies g ∧
    ¬ ∃ instruction, p.InBody g d instruction ∧ p.Sure p.Must instruction
  let pick (g : Text) : Option Def := if h : ∃ d, Bad g d then some h.choose else none
  have hbad : ∀ g, ∀ d ∈ pick g, Bad g d := by
    intro g d hd
    simp only [pick] at hd
    split at hd
    · rename_i h
      cases hd
      exact h.choose_spec
    · cases hd
  have hpick : ∀ g, ∀ d ∈ pick g, d ∈ p.bodies g := fun g d hd => (hbad g d hd).1
  have hre := reorder_reordered hpick
  refine ⟨p.reorder pick, hre, fun f hr => ?_⟩
  induction hr with
  | target ht => exact .target (hre.hasTarget.1 ht)
  | @last f g d hd hext _ ih =>
    by_contra hno
    obtain ⟨d₀, hd₀⟩ : ∃ d, Bad f d := by
      by_contra hall
      refine hno (.every p.Must (fun _ h => h) ?_ fun x hx => ?_)
      · exact List.ne_nil_of_mem (hre.mem_bodies.1 (lastUsable_mem hd))
      · by_contra hx'
        exact hall ⟨x, hx, hx'⟩
    obtain ⟨x, hx⟩ : ∃ x, pick f = some x := ⟨_, dif_pos ⟨d₀, hd₀⟩⟩
    have hlast := lastUsable_reorder hpick hx
    rw [hd] at hlast
    cases hlast
    exact (hbad f d hx).2 (hre.sure_of_extracts hp hext ih)

/-- A target may be found in at most this many calls. -/
def Project.MayIn (p : Project) : Nat → Text → Prop
  | 0, f => p.HasTarget f
  | n + 1, f => p.HasTarget f ∨
      ∃ d instruction, p.InBody f d instruction ∧ p.Possible (p.MayIn n) instruction

theorem Project.Possible.mono {S T : Text → Prop} {instruction : Text}
    (h : p.Possible S instruction) (hST : ∀ g, S g → T g) : p.Possible T instruction := by
  cases h with
  | direct g hg hk hS => exact .direct g hg hk (hST g hS)
  | argument w g ps d hw hk hps hd hres hS => exact .argument w g ps d hw hk hps hd hres (hST g hS)

theorem Project.MayIn.mono {m n : Nat} (hmn : m ≤ n) (h : p.MayIn m f) : p.MayIn n f := by
  induction n generalizing m f with
  | zero =>
    obtain rfl : m = 0 := by omega
    exact h
  | succ n ih =>
    cases m with
    | zero => exact .inl h
    | succ m =>
      refine h.imp_right ?_
      rintro ⟨d, instruction, hbody, hpos⟩
      exact ⟨d, instruction, hbody, hpos.mono fun g hg => ih (by omega) hg⟩

/-- One name is enough for an instruction to be possible. -/
theorem Project.Possible.single {S : Text → Prop} {instruction : Text}
    (h : p.Possible S instruction) : ∃ g, S g ∧ p.Possible (· = g) instruction := by
  cases h with
  | direct g hg hk hS => exact ⟨g, hS, .direct g hg hk rfl⟩
  | argument w g ps d hw hk hps hd hres hS =>
    exact ⟨g, hS, .argument w g ps d hw hk hps hd hres rfl⟩

theorem Project.May.exists_mayIn (h : p.May f) : ∃ n, p.MayIn n f := by
  induction h with
  | target ht => exact ⟨0, ht⟩
  | @some f instruction d S _ hbody hpos ih =>
    obtain ⟨g, hS, hone⟩ := hpos.single
    obtain ⟨n, hn⟩ := ih g hS
    refine ⟨n + 1, .inr ⟨d, instruction, hbody, hone.mono ?_⟩⟩
    rintro _ rfl
    exact hn

/-- With one definition for each macro, what is possible is extracted in every order. -/
theorem Project.Reordered.extracts_of_possible (h : p.Reordered p') (hp : p.PlainMacros)
    {S : Text → Prop} {instruction : Text} (hbody : p.InBody f d instruction)
    (hpos : p.Possible S instruction) : ∃ g, p'.Extracts f d g ∧ S g := by
  cases hpos with
  | direct g hg hk hS => exact ⟨g, .direct instruction (h.inBody.2 hbody) hg hk, hS⟩
  | argument w g ps d' hw hk hps hd' hres hS =>
    refine ⟨g, .argument instruction w ps (h.inBody.2 hbody) hw hk hps ?_, hS⟩
    rw [h.withArguments hp hk, withArguments_iff]
    match hidx : p.index w, hp w hk with
    | [], _ => rw [hidx] at hd'; cases hd'
    | [x], _ =>
      rw [hidx, List.mem_singleton] at hd'
      exact ⟨x, rfl, hd' ▸ hres⟩

/-- In some order everything is found that may be. -/
theorem exists_order_may (hp : p.PlainMacros) :
    ∃ p', p.Reordered p' ∧ ∀ f, p.May f → p'.Reaches f := by
  classical
  -- a definition from which a target may be found in the least number of calls
  let Good (g : Text) (d : Def) : Prop := ∃ n, p.MayIn (n + 1) g ∧ ¬ p.MayIn n g ∧
    ∃ instruction, p.InBody g d instruction ∧ p.Possible (p.MayIn n) instruction
  let pick (g : Text) : Option Def := if h : ∃ d, Good g d then some h.choose else none
  have hgood : ∀ g, ∀ d ∈ pick g, Good g d := by
    intro g d hd
    simp only [pick] at hd
    split at hd
    · rename_i h
      cases hd
      exact h.choose_spec
    · cases hd
  have hpick : ∀ g, ∀ d ∈ pick g, d ∈ p.bodies g := by
    intro g d hd
    obtain ⟨n, -, -, instruction, hbody, -⟩ := hgood g d hd
    exact hbody.mem_bodies
  have hre := reorder_reordered hpick
  have hreach : ∀ n g, p.MayIn n g → (p.reorder pick).Reaches g := by
    intro n
    induction n using Nat.strong_induction_on with
    | _ n ih =>
      intro g hn
      by_cases ht : p.HasTarget g
      · exact .target (hre.hasTarget.2 ht)
      obtain ⟨d, hd⟩ : ∃ d, Good g d := by
        have hmin := Nat.find_spec (⟨n, hn⟩ : ∃ n, p.MayIn n g)
        cases hk : Nat.find (⟨n, hn⟩ : ∃ n, p.MayIn n g) with
        | zero =>
          rw [hk] at hmin
          exact absurd hmin ht
        | succ k =>
          rw [hk] at hmin
          obtain ⟨d, instruction, hbody, hpos⟩ := hmin.resolve_left ht
          have hlow := Nat.find_min (⟨n, hn⟩ : ∃ n, p.MayIn n g) (m := k) (by omega)
          exact ⟨d, k, hmin, hlow, instruction, hbody, hpos⟩
      obtain ⟨x, hx⟩ : ∃ x, pick g = some x := ⟨_, dif_pos ⟨d, hd⟩⟩
      obtain ⟨k, -, hno, instruction, hbody, hpos⟩ := hgood g x hx
      have hlt : k < n := by
        by_contra hge
        exact hno (hn.mono (by omega))
      obtain ⟨g', hext, hg'⟩ := hre.extracts_of_possible hp hbody hpos
      exact .last (lastUsable_reorder hpick hx) hext (ih k hlt g' hg')
  exact ⟨p.reorder pick, hre, fun f hf => by
    obtain ⟨n, hn⟩ := hf.exists_mayIn
    exact hreach n f hn⟩

/-- `g` may be called for `f`, whichever definition of a macro comes first. -/
def Project.MayCall (p : Project) (f g : Text) : Prop :=
  ∃ d instruction, p.InBody f d instruction ∧ p.Possible (· = g) instruction

/-- If every chain of such calls ends, the search does in every order. -/
theorem Project.Reordered.terminates (h : p.Reordered p') (ha : Acc (flip p.MayCall) f) :
    p'.Terminates f := by
  rw [terminates_iff_acc]
  refine Subrelation.accessible (fun {g f} hg => ?_) ha
  obtain ⟨s, hs, hcall⟩ := List.mem_filterMap.1 (show g ∈ p'.calls f from hg)
  match s with
  | .act d (.call g') =>
    cases hcall
    obtain ⟨instruction, hbody, hpos⟩ :=
      h.possible_of_extracts (extracts_of_step (List.takeWhile_subset _ hs))
    exact ⟨d, instruction, hbody, hpos⟩

/-- Where the search ends in every order, and macros have one definition each, nothing else will
do. -/
theorem must_or_not_may_of_law (hp : p.PlainMacros) (ha : Acc (flip p.MayCall) f)
    (hl : p.Law f) : p.Must f ∨ ¬ p.May f := by
  rw [or_iff_not_imp_right, not_not]
  intro hmay
  obtain ⟨p₁, h₁, hreach⟩ := exists_order_may hp
  obtain ⟨p₂, h₂, hmust⟩ := exists_order_must hp
  have hret := (returns_true_iff (h₁.terminates ha)).2 (hreach f hmay)
  rw [hl.order p₁ h₁ (h₁.terminates ha), ← hl.order p₂ h₂ (h₂.terminates ha)] at hret
  exact hmust f ((returns_true_iff (h₂.terminates ha)).1 hret)

/-- For every search that ends. The condition is on one listing, whatever its order. -/
theorem search_complete_iff (h : p.Terminates f) :
    (p.Must f ∨ ¬ p.May f → p.Law f) ∧
      (p.PlainMacros → Acc (flip p.MayCall) f → (p.Law f ↔ p.Must f ∨ ¬ p.May f)) := by
  have hlaw : p.Must f ∨ ¬ p.May f → p.Law f := fun hs =>
    hs.elim (law_of_must h) (law_of_not_may h)
  exact ⟨hlaw, fun hp ha => ⟨must_or_not_may_of_law hp ha, hlaw⟩⟩

/-- `spin_lock` with two definitions, both of which lead to `raw_spin_lock`. -/
def twoWays : Project :=
  .ofTables [(spinLock, [⟨"smp.h".toList, 1⟩, ⟨"rt.h".toList, 2⟩]), (rawSpinLock, [⟨header, 1⟩])]
    [("smp.h".toList, "#define spin_lock(l) raw_spin_lock(l)\n".toList),
      ("rt.h".toList, "\n#define spin_lock(l) raw_spin_lock(&(l)->lock)\n".toList),
      (header, "#define raw_spin_lock(l) queued_spin_lock(l)\n".toList)]

theorem twoWays_must : twoWays.Must spinLock := by
  have hraw : twoWays.Must rawSpinLock := by
    refine .target ⟨⟨header, 1⟩, "queued_spin_lock(l)".toList, "queued_spin_lock".toList,
      ⟨by decide, ["queued_spin_lock(l)".toList], by decide, by decide⟩,
      by decide, by decide⟩
  refine .every (· = rawSpinLock) (by rintro _ rfl; exact hraw) (by decide) ?_
  intro d hd
  have hbodies : twoWays.bodies spinLock = [⟨"smp.h".toList, 1⟩, ⟨"rt.h".toList, 2⟩] := by
    decide
  rw [hbodies, List.mem_cons, List.mem_singleton] at hd
  rcases hd with rfl | rfl
  · exact ⟨"raw_spin_lock(l)".toList,
      ⟨by decide, ["raw_spin_lock(l)".toList], by decide, by decide⟩,
      .direct rawSpinLock (by decide) (by decide) rfl⟩
  · exact ⟨"raw_spin_lock(&(l)->lock)".toList,
      ⟨by decide, ["raw_spin_lock(&(l)->lock)".toList], by decide, by decide⟩,
      .direct rawSpinLock (by decide) (by decide) rfl⟩

theorem search_complete_twoWays : twoWays.Law spinLock := by
  have hends : twoWays.Terminates spinLock :=
    ⟨2, by rw [Result.Overflows]; decide⟩
  exact (search_complete_iff hends).1 (.inl twoWays_must)

/-- `spin_lock` once with and once without `CONFIG_SMP`. -/
def smpAndUp (order : List Def) : Project :=
  .ofTables [(spinLock, order), (rawSpinLock, [⟨header, 1⟩])]
    [("smp.h".toList, "#define spin_lock(l) raw_spin_lock(l)\n".toList),
      ("up.h".toList, "#define spin_lock(l) __LOCK(l)\n".toList),
      (header, "#define raw_spin_lock(l) queued_spin_lock(l)\n".toList)]

def smp : Def := ⟨"smp.h".toList, 1⟩

def up : Def := ⟨"up.h".toList, 1⟩

/-- The definition without `CONFIG_SMP` comes last and hides the other one. -/
theorem search_complete_up : (smpAndUp [smp, up]).Terminates spinLock ∧
    (smpAndUp [smp, up]).Returns spinLock (some false) ∧
    (smpAndUp [up, smp]).Returns spinLock (some true) ∧ ¬ (smpAndUp [smp, up]).Law spinLock := by
  have hsmp : (smpAndUp [smp, up]).Returns spinLock (some false) :=
    ⟨2, by rw [Result.Overflows]; decide, by decide⟩
  have hup : (smpAndUp [up, smp]).Returns spinLock (some true) :=
    ⟨2, by rw [Result.Overflows]; decide, by decide⟩
  have hre : (smpAndUp [smp, up]).Reordered (smpAndUp [up, smp]) := by
    refine ⟨rfl, fun g => ?_⟩
    simp only [smpAndUp, Project.ofTables, List.lookup_cons]
    split
    · exact .swap ..
    · exact .refl _
  refine ⟨hsmp.terminates, hsmp, hup, fun hlaw => ?_⟩
  cases hsmp.unique ((hlaw.order _ hre hup.terminates _).1 hup)

end Dmon
end SynCord
