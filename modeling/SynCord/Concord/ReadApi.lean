import SynCord.Regex
import SynCord.Strings
import Mathlib.Logic.Function.Basic

/-!
# SynCord.Concord.ReadApi

`EBPF_GEN.read_API_list`: one regular expression finds the declarations of `list_APIs.h`, another
one splits their arguments, and the type of an argument is what stands before its last blank.

* `findall_render` — in a text of comments, blank lines and declarations, the declarations are what
  the expression matches.
* `addFunc_known`, `addFunc_unknown` — what becomes of one declaration.
* `read_api_list` — the list that is read, or the exit.
-/

namespace SynCord
namespace Concord
namespace Api

open Text Regex

inductive Stop where
  /-- `sys.exit()` -/
  | exit
  /-- `arg[name_index+1]` is out of range. -/
  | index
  deriving DecidableEq

def retType : List Text := ["void".toList, "bool".toList, "int".toList]

def lockPolicyArgs : Text := "struct __lock_policy_args".toList

def argType : List Text := ["struct __lock_policy_args*".toList]

/-- `CONCORD_API` -/
structure ConcordApi where
  ret : Text
  funcName : Text
  numArg : Nat
  args : List Text
  deriving DecidableEq

def ConcordApi.init (ret funcName : Text) (numArg : Nat) : Except Stop ConcordApi :=
  if retType.contains ret ∧ 0 < funcName.length then .ok ⟨ret, funcName, numArg, []⟩
  else .error .exit

def ConcordApi.addArg (api : ConcordApi) (arg : Text) : Except Stop ConcordApi :=
  if api.numArg ≤ api.args.length then .error .exit
  else if argType.contains arg then .ok { api with args := api.args ++ [arg] }
  else .error .exit

/-- The pattern, with its three groups. -/
def pattern : Regex :=
  .seq .bol <| .seq (.star isSpace) <|
    .seq (.group (.alt (.lit "void".toList) (.alt (.lit "bool".toList) (.lit "int".toList)))) <|
      .seq (plus isSpace) <| .seq (.group (plus isWord)) <| .seq (.star isSpace) <|
        .seq (.lit ['(']) <| .seq (.group (.star (· ≠ ')'))) <| .seq (.lit [')']) <|
          .seq (.star isSpace) (.lit [';'])

/-- `re.split(',\s*', t)` -/
def splitArgs (t : Text) : List Text :=
  match t.splitOn ',' with
  | [] => []
  | arg :: args => arg :: args.map (List.dropWhile isSpace)

/-- Without a blank `name_index` is -1, which as the end of a slice means all but one. -/
def typeOf (arg : Text) : Except Stop Text :=
  let star (c : Char) : Text := if c = '*' then ['*'] else []
  match rfind ' ' arg with
  | some k =>
    match arg[k + 1]? with
    | some c => .ok (arg.take k ++ star c)
    | none => .error .index
  | none =>
    match arg with
    | c :: _ => .ok (arg.dropLast ++ star c)
    | [] => .error .index

def addOne (api : ConcordApi) (arg : Text) : Except Stop ConcordApi := do
  api.addArg (← typeOf arg)

/-- `list_API` -/
abbrev Dict := Text → Option ConcordApi

def addFunc (list : Dict) : List Text → Except Stop Dict
  | [ret, name, text] => do
    let args := splitArgs (strip text)
    let api ← ConcordApi.init ret name args.length
    let api ← args.foldlM addOne api
    .ok (Function.update list name (some api))
  | _ => .ok list

/-- `p.findall(lines)` -/
def findall (lines : Text) : List (List Text) := (finditer pattern lines).map Match.groups

def readApiList (file : Text) : Except Stop Dict :=
  (findall (universal file)).foldlM addFunc fun _ => none

/-! ## The texts -/

def IsIdent (t : Text) : Prop :=
  t ≠ [] ∧ (∀ c ∈ t, isWord c = true) ∧ ∀ c ∈ t.head?, c.isDigit = false

/-- `type *ident` -/
structure Arg where
  type : Text
  ident : Text
  type_plain : ∀ c ∈ type, c ≠ ',' ∧ c ≠ '(' ∧ c ≠ ')'
  no_leading : ∀ c ∈ type.head?, isSpace c = false
  no_trailing : ∀ c ∈ type.getLast?, isSpace c = false
  isIdent : IsIdent ident

def Arg.text (a : Arg) : Text := a.type ++ ' ' :: '*' :: a.ident

inductive Ret where
  | void
  | bool
  | int

def Ret.text : Ret → Text
  | .void => "void".toList
  | .bool => "bool".toList
  | .int => "int".toList

/-- White space and line breaks. -/
structure Gap where
  text : Text
  isSpace : ∀ c ∈ text, isSpace c = true

/-- White space on one line. -/
structure Blank extends Gap where
  one_line : '\n' ∉ text

structure Decl where
  ret : Ret
  name : Text
  isIdent : IsIdent name
  first : Arg
  more : List (Gap × Arg)

def Decl.argsText (d : Decl) : Text :=
  d.first.text ++ d.more.flatMap fun x => ',' :: (x.1.text ++ x.2.text)

def Decl.text (d : Decl) : Text :=
  d.ret.text ++ (' ' :: (d.name ++ '(' :: (d.argsText ++ [')', ';'])))

def Decl.args (d : Decl) : List Arg := d.first :: d.more.map Prod.snd

inductive Item where
  | comment (indent : Blank) (t : Text) (one_line : '\n' ∉ t)
  | blank (t : Blank)
  | decl (indent : Blank) (d : Decl) (trail : Blank)

def Item.text : Item → Text
  | .comment indent t _ => indent.text ++ ('/' :: '/' :: t)
  | .blank t => t.text
  | .decl indent d trail => indent.text ++ (d.text ++ trail.text)

def Item.decl? : Item → Option Decl
  | .decl _ d _ => some d
  | _ => none

/-- The items, one after the other, each beginning a line. -/
def render (items : List Item) : Text := ['\n'].intercalate (items.map Item.text)

def decls (items : List Item) : List Decl := items.filterMap Item.decl?

/-- All arguments have the type that the API knows. -/
def Decl.Known (d : Decl) : Prop := ∀ a ∈ d.args, a.type = lockPolicyArgs

def Decl.api (d : Decl) : ConcordApi :=
  ⟨d.ret.text, d.name, d.args.length, d.args.map fun a => a.type ++ ['*']⟩

/-! ## The expression -/

/-- Nothing that could be a return type begins here. -/
def NoKeyword (u : Text) : Prop := ∀ c ∈ u.head?, c ≠ 'v' ∧ c ≠ 'b' ∧ c ≠ 'i'

section Pattern

variable {prev : Option Char} {gs : List Text}

theorem fails_keyword {u : Text} (h : NoKeyword u) :
    Fails (.group (.alt (.lit "void".toList) (.alt (.lit "bool".toList) (.lit "int".toList))))
      ⟨prev, u, gs⟩ := by
  have hno : ∀ c t, c = 'v' ∨ c = 'b' ∨ c = 'i' → ¬ c :: t <+: u := by
    rintro c t hc ⟨r, rfl⟩
    have := h c rfl
    rcases hc with rfl | rfl | rfl <;> simp at this
  exact fails_group (fails_alt (fails_lit (hno 'v' _ (.inl rfl)))
    (fails_alt (fails_lit (hno 'b' _ (.inr (.inl rfl)))) (fails_lit (hno 'i' _ (.inr (.inr rfl))))))

theorem noKeyword_space {w x : Text} (hw : ∀ c ∈ w, isSpace c = true) (hx : NoKeyword x) :
    NoKeyword (w ++ x) := by
  cases w with
  | nil => exact hx
  | cons c w =>
    intro d hd
    cases hd
    have hc := hw c List.mem_cons_self
    refine ⟨?_, ?_, ?_⟩ <;> rintro rfl <;> revert hc <;> decide

/-- White space before something that is no declaration. -/
theorem fails_space {w x : Text} (hw : ∀ c ∈ w, isSpace c = true) (hx : NoKeyword x)
    (hstop : Stops isSpace x) : Fails pattern ⟨prev, w ++ x, gs⟩ := by
  apply fails_seq
  intro s hs
  have hrest : s.rest = w ++ x := by
    rw [run_bol] at hs
    split at hs
    · rw [List.mem_singleton.1 hs]
    · cases hs
  apply fails_seq
  intro s' hs'
  obtain ⟨y, hy, hsp, _⟩ := mem_runStar hs'
  apply fails_seq_left
  apply fails_keyword
  rw [hrest] at hy
  rcases List.append_eq_append_iff.1 hy with ⟨z, rfl, rfl⟩ | ⟨z, rfl, hz⟩
  · cases z with
    | nil => exact hx
    | cons c z =>
      have hc : isSpace c = false := hstop c rfl
      have hc' := hsp c (by simp)
      rw [hc] at hc'
      cases hc'
  · rw [hz]
    exact noKeyword_space (fun c hc => hw c (List.mem_append_right _ hc)) hx

theorem findFrom_space {w x : Text} (hw : ∀ c ∈ w, isSpace c = true) (hx : NoKeyword x)
    (hstop : Stops isSpace x) :
    findFrom pattern 0 prev (w ++ x) = findFrom pattern 0 (last prev w) x := by
  induction w generalizing prev with
  | nil => rfl
  | cons c w ih =>
    have hfail : Fails pattern ⟨prev, c :: (w ++ x), []⟩ := fails_space hw hx hstop
    rw [List.cons_append, finditer_fail hfail, last_cons]
    exact ih fun d hd => hw d (List.mem_cons_of_mem _ hd)

theorem first_ret (r : Ret) (u : Text) :
    First (.group (.alt (.lit "void".toList) (.alt (.lit "bool".toList) (.lit "int".toList))))
      ⟨prev, r.text ++ u, gs⟩ ⟨last prev r.text, u, gs ++ [r.text]⟩ := by
  apply first_group
  cases r with
  | void => exact first_alt_left (first_lit _ u)
  | bool =>
    refine first_alt_right (fails_lit ?_) (first_alt_left (first_lit _ u))
    rintro ⟨t, ht⟩
    simp [Ret.text] at ht
  | int =>
    refine first_alt_right (fails_lit ?_) (first_alt_right (fails_lit ?_) (first_lit _ u))
    · rintro ⟨t, ht⟩
      simp [Ret.text] at ht
    · rintro ⟨t, ht⟩
      simp [Ret.text] at ht

theorem stops_cons {p : Char → Bool} {c : Char} (h : p c = false) (u : Text) :
    Stops p (c :: u) := by
  intro d hd
  cases hd
  exact h

theorem stops_append_left {p : Char → Bool} {t u : Text} (hne : t ≠ [])
    (h : ∀ c ∈ t.head?, p c = false) : Stops p (t ++ u) := by
  cases t with
  | nil => exact absurd rfl hne
  | cons c t => exact stops_cons (h c rfl) _

theorem ret_head (r : Ret) : r.text ≠ [] ∧ ∀ c ∈ r.text.head?, isSpace c = false := by
  cases r <;>
  · refine ⟨by decide, ?_⟩
    intro c hc
    cases hc
    decide

theorem Arg.not_mem_text (a : Arg) {c : Char} (htype : c ∉ a.type) (hmark : c ≠ ' ' ∧ c ≠ '*')
    (hword : isWord c = false) : c ∉ a.text := by
  intro h
  simp only [Arg.text, List.mem_append, List.mem_cons] at h
  rcases h with h | h | h | h
  · exact htype h
  · exact hmark.1 h
  · exact hmark.2 h
  · exact not_mem_of_class a.isIdent.2.1 hword h

theorem paren_not_mem_argsText (d : Decl) : ')' ∉ d.argsText := by
  have harg : ∀ a : Arg, ')' ∉ a.text := fun a =>
    a.not_mem_text (fun h => (a.type_plain _ h).2.2 rfl) (by decide) (by decide)
  intro h
  rw [Decl.argsText, List.mem_append, List.mem_flatMap] at h
  rcases h with h | ⟨x, _, h⟩
  · exact harg _ h
  · rw [List.mem_cons, List.mem_append] at h
    rcases h with h | h | h
    · cases h
    · exact not_mem_of_class x.1.isSpace (by decide) h
    · exact harg _ h

/-- The preferred way through the pattern takes a declaration and nothing of what follows. -/
theorem first_decl (hprev : prev = none ∨ prev = some '\n') {w : Text}
    (hw : ∀ c ∈ w, isSpace c = true) (d : Decl) (u : Text) :
    First pattern ⟨prev, (w ++ d.text) ++ u, []⟩
      ⟨some ';', u, [d.ret.text, d.name, d.argsText]⟩ := by
  obtain ⟨hname, hword, _⟩ := d.isIdent
  have hret := ret_head d.ret
  have hsplit : (w ++ d.text) ++ u = w ++ (d.ret.text ++ ([' '] ++ (d.name ++ ([] ++ (['('] ++
      (d.argsText ++ ([')'] ++ ([] ++ ([';'] ++ u))))))))) := by
    simp [Decl.text]
  have hnameHead : ∀ c ∈ d.name.head?, isSpace c = false := fun c hc =>
    isSpace_of_isWord (hword c (List.mem_of_mem_head? hc))
  have hargs : ∀ c ∈ d.argsText, (decide (c ≠ ')')) = true := by
    intro c hc
    rw [decide_eq_true_eq]
    rintro rfl
    exact paren_not_mem_argsText d hc
  have hblank : ∀ c ∈ [' '], isSpace c = true := by
    intro c hc
    rw [List.mem_singleton.1 hc]
    rfl
  rw [hsplit]
  refine first_seq (first_bol hprev _) ?_
  refine first_seq (first_star hw (stops_append_left hret.1 hret.2)) ?_
  refine first_seq (first_ret d.ret _) ?_
  refine first_seq (first_plus (by decide) hblank (stops_append_left hname hnameHead)) ?_
  refine first_seq (first_group (first_plus hname hword (stops_cons (by decide) _))) ?_
  refine first_seq (first_star (by simp) (stops_cons (by decide) _)) ?_
  refine first_seq (first_lit _ _) ?_
  refine first_seq (first_group (first_star hargs (stops_cons (by decide) _))) ?_
  refine first_seq (first_lit _ _) ?_
  refine first_seq (first_star (by simp) (stops_cons (by decide) _)) ?_
  exact first_lit _ _

end Pattern

/-! ## The items -/

/-- What is left of the text behind an item. -/
def tailText : List Item → Text
  | [] => []
  | y :: items => '\n' :: render (y :: items)

theorem render_cons (x : Item) (items : List Item) :
    render (x :: items) = x.text ++ tailText items := by
  cases items with
  | nil => simp [render, tailText, List.intercalate]
  | cons y items => simp [render, tailText, List.intercalate]

def Decl.groups (d : Decl) : List Text := [d.ret.text, d.name, d.argsText]

theorem last_decl (prev : Option Char) (w : Text) (d : Decl) :
    last prev (w ++ d.text) = some ';' := by
  have htext : w ++ d.text = (w ++ (d.ret.text ++ (' ' :: (d.name ++ '(' :: (d.argsText ++
      [')']))))) ++ [';'] := by
    simp [Decl.text]
  rw [htext, last_append]
  rfl

theorem Gap.append_space (g : Gap) {w : Text} (hw : ∀ c ∈ w, Text.isSpace c = true) :
    ∀ c ∈ w ++ g.text, Text.isSpace c = true := by
  intro c hc
  rcases List.mem_append.1 hc with hc | hc
  · exact hw c hc
  · exact g.isSpace c hc

/-- Behind the beginning of a line nothing is found on it. -/
theorem findFrom_tailText (items : List Item) {c : Char} (hc : c ≠ '\n') {t : Text}
    (ht : '\n' ∉ t) :
    findFrom pattern 0 (some c) (t ++ tailText items) =
      findFrom pattern 0 (some '\n') (render items) := by
  induction t generalizing c with
  | nil =>
    cases items with
    | nil => rfl
    | cons y items => exact finditer_fail (fails_seq_left (fails_bol hc _))
  | cons d t ih =>
    rw [List.mem_cons, not_or] at ht
    have hfail : Fails pattern ⟨some c, d :: (t ++ tailText items), []⟩ :=
      fails_seq_left (fails_bol hc _)
    rw [List.cons_append, finditer_fail hfail]
    exact ih (Ne.symm ht.1) ht.2

section Items

variable (items : List Item) {prev : Option Char} {w : Text}

theorem findFrom_comment (hw : ∀ c ∈ w, isSpace c = true) (indent : Blank) {t : Text}
    (one_line : '\n' ∉ t) :
    findFrom pattern 0 prev (w ++ ((Item.comment indent t one_line).text ++ tailText items)) =
      findFrom pattern 0 (some '\n') (render items) := by
  have hslash : NoKeyword ('/' :: ('/' :: t ++ tailText items)) := by
    intro c hc
    cases hc
    decide
  have hstop : Stops isSpace ('/' :: ('/' :: t ++ tailText items)) := stops_cons (by decide) _
  have hfail : Fails pattern ⟨last prev (w ++ indent.text), '/' :: ('/' :: t ++ tailText items),
      []⟩ := fails_space (w := []) (by simp) hslash hstop
  have htext : w ++ ((Item.comment indent t one_line).text ++ tailText items) =
      (w ++ indent.text) ++ ('/' :: ('/' :: t ++ tailText items)) := by
    simp [Item.text]
  have hrest : '\n' ∉ '/' :: t := by simp [one_line]
  rw [htext, findFrom_space (indent.append_space hw) hslash hstop, finditer_fail hfail]
  exact findFrom_tailText items (by decide) hrest

/-- A blank line is white space before what follows it. -/
theorem exists_space_blank (hw : ∀ c ∈ w, isSpace c = true) (t : Blank) :
    ∃ w', (∀ c ∈ w', isSpace c = true) ∧
      w ++ ((Item.blank t).text ++ tailText items) = w' ++ render items := by
  have hspace := t.append_space hw
  cases items with
  | nil => exact ⟨w ++ t.text, hspace, by simp [Item.text, tailText, render, List.intercalate]⟩
  | cons y items =>
    refine ⟨w ++ t.text ++ ['\n'], ?_, by simp [Item.text, tailText]⟩
    intro c hc
    rcases List.mem_append.1 hc with hc | hc
    · exact hspace c hc
    · rw [List.mem_singleton.1 hc]
      rfl

theorem findFrom_decl (hprev : prev = none ∨ prev = some '\n') (hw : ∀ c ∈ w, isSpace c = true)
    (indent : Blank) (d : Decl) (trail : Blank) :
    findFrom pattern 0 prev (w ++ ((Item.decl indent d trail).text ++ tailText items)) =
      ⟨w ++ indent.text ++ d.text, d.groups⟩ :: findFrom pattern 0 (some '\n') (render items) := by
  have htext : w ++ ((Item.decl indent d trail).text ++ tailText items) =
      ((w ++ indent.text) ++ d.text) ++ (trail.text ++ tailText items) := by
    simp [Item.text]
  have hne : (w ++ indent.text) ++ d.text ≠ [] := by simp [Decl.text]
  rw [htext, finditer_match hne (first_decl hprev (indent.append_space hw) d _), last_decl,
    findFrom_tailText items (by decide) trail.one_line]
  rfl

end Items

/-- `w` is the white space that has been passed over since the beginning of a line. -/
theorem findFrom_render (items : List Item) {prev : Option Char} {w : Text}
    (hprev : prev = none ∨ prev = some '\n') (hw : ∀ c ∈ w, isSpace c = true) :
    (findFrom pattern 0 prev (w ++ render items)).map Match.groups =
      (decls items).map Decl.groups := by
  induction items generalizing prev w with
  | nil =>
    have hnone : findFrom pattern 0 prev (w ++ []) = [] :=
      findFrom_space hw (by intro c hc; cases hc) (by intro c hc; cases hc)
    exact congrArg _ hnone
  | cons x items ih =>
    have hnext := ih (w := []) (.inr rfl : some '\n' = none ∨ _) (by simp)
    rw [List.nil_append] at hnext
    rw [render_cons]
    cases x with
    | comment indent t one_line =>
      rw [findFrom_comment items hw indent one_line]
      exact hnext
    | blank t =>
      obtain ⟨w', hw', htext⟩ := exists_space_blank items hw t
      rw [htext]
      exact ih hprev hw'
    | decl indent d trail =>
      rw [findFrom_decl items hprev hw indent d trail, List.map_cons, hnext]
      rfl

theorem findall_render (items : List Item) :
    findall (render items) = (decls items).map Decl.groups :=
  findFrom_render items (w := []) (.inl rfl) (by simp)

/-! ## The arguments -/

/-- What is left of an argument when the white space before it is gone. -/
def Arg.piece (a : Arg) : Text := a.text.dropWhile isSpace

theorem Arg.piece_of_type {a : Arg} (h : a.type ≠ []) : a.piece = a.text := by
  obtain ⟨c, t, ht⟩ := List.exists_cons_of_ne_nil h
  have hc : isSpace c = false := a.no_leading c (by rw [ht]; rfl)
  rw [piece, text, ht, List.cons_append, List.dropWhile_cons_of_neg (by simp [hc])]

theorem Arg.piece_of_no_type {a : Arg} (h : a.type = []) : a.piece = '*' :: a.ident := by
  rw [piece, text, h, List.nil_append, List.dropWhile_cons_of_pos (by decide),
    List.dropWhile_cons_of_neg (by decide)]

/-- An argument ends with a character of its name. -/
theorem Arg.piece_concat (a : Arg) : ∃ t c, a.piece = t ++ [c] ∧ isWord c = true := by
  obtain ⟨hne, hword, _⟩ := a.isIdent
  obtain ⟨i, c, hi⟩ := (List.eq_nil_or_concat a.ident).resolve_left hne
  rw [List.concat_eq_append] at hi
  have hc : isWord c = true := hword c (by simp [hi])
  by_cases h : a.type = []
  · exact ⟨'*' :: i, c, by simp [a.piece_of_no_type h, hi], hc⟩
  · exact ⟨a.type ++ ' ' :: '*' :: i, c, by simp [a.piece_of_type h, text, hi], hc⟩

theorem Arg.piece_ne_nil (a : Arg) : a.piece ≠ [] := by
  obtain ⟨t, c, h, _⟩ := a.piece_concat
  simp [h]

theorem Arg.comma_not_mem_text (a : Arg) : ',' ∉ a.text :=
  a.not_mem_text (fun h => (a.type_plain _ h).1 rfl) (by decide) (by decide)

/-- The arguments behind the first one. -/
def moreText (more : List (Gap × Arg)) : Text :=
  more.flatMap fun x => ',' :: (x.1.text ++ x.2.text)

theorem splitOn_moreText {t : Text} (ht : ',' ∉ t) (more : List (Gap × Arg)) :
    (t ++ moreText more).splitOn ',' = t :: more.map fun x => x.1.text ++ x.2.text := by
  have hplain : ∀ {t : Text}, ',' ∉ t → ∀ c ∈ t, (c == ',') = false := by
    intro t ht c hc
    rw [beq_eq_false_iff_ne]
    rintro rfl
    exact ht hc
  induction more generalizing t with
  | nil =>
    rw [moreText, List.flatMap_nil, List.append_nil]
    exact List.splitOnP_eq_singleton (hplain ht)
  | cons x more ih =>
    have hx : ',' ∉ x.1.text ++ x.2.text := by
      intro h
      rcases List.mem_append.1 h with h | h
      · exact not_mem_of_class x.1.isSpace (by decide) h
      · exact x.2.comma_not_mem_text h
    have htext : t ++ moreText (x :: more) =
        t ++ ',' :: ((x.1.text ++ x.2.text) ++ moreText more) := by
      simp [moreText]
    have hcomma : (',' == ',') = true := rfl
    have hfirst := List.splitOnP_append_cons_of_forall_mem (hplain ht) ',' hcomma
      ((x.1.text ++ x.2.text) ++ moreText more)
    rw [htext, List.map_cons, ← ih hx]
    exact hfirst

/-- Stripping takes only what is before the first argument. -/
theorem strip_argsText (d : Decl) : strip d.argsText = d.first.piece ++ moreText d.more := by
  have hdrop : d.argsText.dropWhile isSpace = d.first.piece ++ moreText d.more := by
    have hne : (d.first.text.dropWhile isSpace).isEmpty = false := by
      rw [List.isEmpty_eq_false_iff]
      exact d.first.piece_ne_nil
    rw [Decl.argsText, List.dropWhile_append, hne]
    rfl
  have hend : ∃ t c, d.first.piece ++ moreText d.more = t ++ [c] ∧ isWord c = true := by
    rcases List.eq_nil_or_concat d.more with h | ⟨more, x, h⟩
    · obtain ⟨t, c, ht, hc⟩ := d.first.piece_concat
      exact ⟨t, c, by simp [h, moreText, ht], hc⟩
    · obtain ⟨t, c, ht, hc⟩ := x.2.piece_concat
      have hsuffix : x.2.piece <:+ x.2.text := List.dropWhile_suffix _
      obtain ⟨y, hy⟩ := hsuffix
      refine ⟨d.first.piece ++ (moreText more ++ ',' :: (x.1.text ++ (y ++ t))), c, ?_, hc⟩
      rw [h, List.concat_eq_append]
      simp [moreText, ← hy, ht]
  obtain ⟨t, c, ht, hc⟩ := hend
  rw [strip, hdrop, ht, List.rdropWhile_concat_neg]
  simp [isSpace_of_isWord hc]

theorem splitArgs_argsText (d : Decl) :
    splitArgs (strip d.argsText) = d.args.map Arg.piece := by
  have hfirst : ',' ∉ d.first.piece := fun h =>
    d.first.comma_not_mem_text ((List.dropWhile_suffix _).subset h)
  have hmore : ∀ x ∈ d.more, (x.1.text ++ x.2.text).dropWhile isSpace = x.2.piece :=
    fun x _ => List.dropWhile_append_of_pos x.1.isSpace
  rw [strip_argsText, splitArgs, splitOn_moreText hfirst, Decl.args, List.map_cons, List.map_map]
  simp only [List.map_map]
  exact congrArg _ (List.map_congr_left hmore)

theorem Arg.blank_not_mem (a : Arg) : ' ' ∉ '*' :: a.ident := by
  intro h
  rcases List.mem_cons.1 h with h | h
  · cases h
  · exact not_mem_of_class a.isIdent.2.1 (by decide) h

/-- The type that is cut out of an argument. -/
def Arg.cut (a : Arg) : Text :=
  if a.type = [] then ('*' :: a.ident).dropLast ++ ['*'] else a.type ++ ['*']

theorem typeOf_piece (a : Arg) : typeOf a.piece = .ok a.cut := by
  rw [Arg.cut]
  split
  · rename_i h
    rw [a.piece_of_no_type h, typeOf, rfind_of_not_mem a.blank_not_mem]
    rfl
  · rename_i h
    have hget : a.text[a.type.length + 1]? = some '*' := by simp [Arg.text]
    have htake : a.text.take a.type.length = a.type := by simp [Arg.text]
    have hfind : rfind ' ' a.text = some a.type.length := rfind_append a.blank_not_mem _
    simp only [a.piece_of_type h, typeOf.eq_def, hfind, hget, htake]
    rfl

/-- `ARG_TYPE` has one member. -/
theorem argType_eq : argType = [lockPolicyArgs ++ ['*']] := by decide

theorem argType_cut (a : Arg) : argType.contains a.cut = true ↔ a.type = lockPolicyArgs := by
  have hmem : argType.contains a.cut = true ↔ a.cut = lockPolicyArgs ++ ['*'] := by
    rw [argType_eq, List.contains_iff_mem, List.mem_singleton]
  rw [hmem, Arg.cut]
  split
  · rename_i h
    have hident : ('*' :: a.ident).dropLast ≠ lockPolicyArgs := by
      obtain ⟨c, t, ht⟩ := List.exists_cons_of_ne_nil a.isIdent.1
      rw [ht, List.dropLast_cons_cons]
      intro hc
      cases hc
    have hempty : [] ≠ lockPolicyArgs := by decide
    rw [h, List.append_left_inj]
    exact iff_of_false hident hempty
  · exact List.append_left_inj _

section Fold

variable {api : ConcordApi}

theorem addOne_known {a : Arg} (h : a.type = lockPolicyArgs)
    (hlen : api.args.length < api.numArg) :
    addOne api a.piece = .ok { api with args := api.args ++ [a.type ++ ['*']] } := by
  have hne : a.type ≠ [] := by
    rw [h]
    decide
  have hcut : a.cut = a.type ++ ['*'] := if_neg hne
  have hmem : argType.contains (a.type ++ ['*']) = true := by
    rw [← hcut]
    exact (argType_cut a).2 h
  rw [addOne, typeOf_piece, hcut]
  change ConcordApi.addArg api _ = _
  rw [ConcordApi.addArg, if_neg (by omega), if_pos hmem]

theorem addOne_unknown {a : Arg} (h : a.type ≠ lockPolicyArgs) :
    addOne api a.piece = .error .exit := by
  have hmem : ¬ argType.contains a.cut = true := mt (argType_cut a).1 h
  rw [addOne, typeOf_piece]
  change ConcordApi.addArg api _ = _
  rw [ConcordApi.addArg, if_neg hmem, ite_self]

theorem foldlM_known {l : List Arg} (h : ∀ a ∈ l, a.type = lockPolicyArgs)
    (hlen : api.args.length + l.length ≤ api.numArg) :
    (l.map Arg.piece).foldlM addOne api =
      .ok { api with args := api.args ++ l.map fun a => a.type ++ ['*'] } := by
  induction l generalizing api with
  | nil => simp [pure, Except.pure]
  | cons a l ih =>
    rw [List.length_cons] at hlen
    rw [List.map_cons, List.foldlM_cons, addOne_known (h a List.mem_cons_self) (by omega)]
    change (l.map Arg.piece).foldlM addOne _ = _
    rw [ih (fun b hb => h b (List.mem_cons_of_mem _ hb))]
    · simp
    · simp only [List.length_append, List.length_singleton]
      omega

theorem foldlM_unknown {l : List Arg} (h : ¬ ∀ a ∈ l, a.type = lockPolicyArgs)
    (hlen : api.args.length + l.length ≤ api.numArg) :
    (l.map Arg.piece).foldlM addOne api = .error .exit := by
  induction l generalizing api with
  | nil => simp at h
  | cons a l ih =>
    rw [List.map_cons, List.foldlM_cons]
    by_cases ha : a.type = lockPolicyArgs
    · rw [List.forall_mem_cons, not_and] at h
      rw [List.length_cons] at hlen
      rw [addOne_known ha (by omega)]
      change (l.map Arg.piece).foldlM addOne _ = _
      apply ih (h ha)
      simp only [List.length_append, List.length_singleton]
      omega
    · rw [addOne_unknown ha]
      rfl

end Fold

/-! ## The list -/

theorem init_decl (d : Decl) :
    ConcordApi.init d.ret.text d.name d.args.length =
      .ok ⟨d.ret.text, d.name, d.args.length, []⟩ := by
  have hret : retType.contains d.ret.text = true := by cases d.ret <;> decide
  exact if_pos ⟨hret, List.length_pos_of_ne_nil d.isIdent.1⟩

section Dict

variable {list : Dict} {d : Decl}

theorem addFunc_groups : addFunc list d.groups =
    ((d.args.map Arg.piece).foldlM addOne ⟨d.ret.text, d.name, d.args.length, []⟩).map
      fun api => Function.update list d.name (some api) := by
  rw [Decl.groups, addFunc, splitArgs_argsText, List.length_map, init_decl]
  rfl

theorem addFunc_known (h : d.Known) :
    addFunc list d.groups = .ok (Function.update list d.name (some d.api)) := by
  rw [addFunc_groups, foldlM_known h (by simp)]
  rfl

theorem addFunc_unknown (h : ¬ d.Known) : addFunc list d.groups = .error .exit := by
  rw [addFunc_groups, foldlM_unknown h (by simp)]
  rfl

theorem foldlM_addFunc {ds : List Decl} (h : ∀ d ∈ ds, d.Known) (list : Dict) :
    ∃ dict, (ds.map Decl.groups).foldlM addFunc list = .ok dict ∧
      ∀ name, dict name =
        (((ds.filter (·.name = name)).getLast?.map Decl.api).or (list name)) := by
  induction ds generalizing list with
  | nil => exact ⟨list, rfl, fun _ => rfl⟩
  | cons d ds ih =>
    obtain ⟨dict, hdict, hname⟩ := ih (fun e he => h e (List.mem_cons_of_mem _ he))
      (Function.update list d.name (some d.api))
    refine ⟨dict, ?_, ?_⟩
    · rw [List.map_cons, List.foldlM_cons, addFunc_known (h d List.mem_cons_self)]
      exact hdict
    · intro name
      rw [hname name, Function.update_apply]
      by_cases hd : d.name = name
      · rw [if_pos hd.symm, List.filter_cons_of_pos (by simp [hd]), List.getLast?_cons]
        cases (ds.filter (·.name = name)).getLast? <;> rfl
      · rw [if_neg (Ne.symm hd), List.filter_cons_of_neg (by simp [hd])]

theorem foldlM_addFunc_exit {ds : List Decl} (h : ∃ d ∈ ds, ¬ d.Known) (list : Dict) :
    (ds.map Decl.groups).foldlM addFunc list = .error .exit := by
  induction ds generalizing list with
  | nil => simp at h
  | cons d ds ih =>
    rw [List.map_cons, List.foldlM_cons]
    by_cases hd : d.Known
    · rw [addFunc_known hd]
      apply ih
      simpa [hd] using h
    · rw [addFunc_unknown hd]
      rfl

end Dict

/-- The names that are declared, each with its last declaration; an argument of another type stops
the generator. -/
theorem read_api_list {file : Text} {items : List Item} (h : universal file = render items) :
    ((∀ d ∈ decls items, d.Known) →
      ∃ dict, readApiList file = .ok dict ∧
        ∀ name, dict name = ((decls items).filter (·.name = name)).getLast?.map Decl.api) ∧
    ((∃ d ∈ decls items, ¬ d.Known) → readApiList file = .error .exit) := by
  have hread : readApiList file =
      ((decls items).map Decl.groups).foldlM addFunc fun _ => none := by
    rw [readApiList, h, findall_render]
  rw [hread]
  constructor
  · intro hknown
    obtain ⟨dict, hdict, hname⟩ := foldlM_addFunc hknown fun _ => none
    refine ⟨dict, hdict, ?_⟩
    intro name
    rw [hname name, Option.or_none]
  · intro hunknown
    exact foldlM_addFunc_exit hunknown _

theorem isIdent_of_all {c : Char} {t : Text} (h : (c :: t).all isWord = true)
    (hc : c.isDigit = false) : IsIdent (c :: t) := by
  refine ⟨by simp, List.all_eq_true.1 h, ?_⟩
  intro d hd
  cases hd
  exact hc

def policyArg : Arg where
  type := lockPolicyArgs
  ident := "args".toList
  type_plain := by
    intro c hc
    have hplain : lockPolicyArgs.all (fun c => c ≠ ',' && c ≠ '(' && c ≠ ')') = true := by decide
    simpa [and_assoc] using List.all_eq_true.1 hplain c hc
  no_leading := by
    intro c hc
    cases hc
    decide
  no_trailing := by
    intro c hc
    cases hc
    decide
  isIdent := isIdent_of_all (by decide) (by decide)

/-- `bool f(struct __lock_policy_args *args, struct __lock_policy_args *args);` -/
def policyDecl : Decl where
  ret := .bool
  name := ['f']
  isIdent := isIdent_of_all (by decide) (by decide)
  first := policyArg
  more := [(⟨[' '], by simp [isSpace]⟩, policyArg)]

def policyItems : List Item :=
  let none : Blank := ⟨⟨[], by simp⟩, by simp⟩
  [.comment none " int g(int *x);".toList (by decide), .decl none policyDecl none, .blank none]

theorem read_api_list_policy :
    ∃ dict, readApiList (render policyItems) = .ok dict ∧ dict ['g'] = none ∧
      dict ['f'] = some ⟨"bool".toList, ['f'], 2,
        ["struct __lock_policy_args*".toList, "struct __lock_policy_args*".toList]⟩ := by
  have htext : universal (render policyItems) = render policyItems :=
    universal_of_not_mem (by decide)
  have hknown : ∀ d ∈ decls policyItems, d.Known := by
    intro d hd
    obtain rfl : d = policyDecl := List.mem_singleton.1 hd
    intro a ha
    simp only [Decl.args, policyDecl, List.map_cons, List.map_nil, List.mem_cons, List.not_mem_nil,
      or_false, or_self] at ha
    rw [ha]
    rfl
  obtain ⟨dict, hdict, hname⟩ := (read_api_list htext).1 hknown
  refine ⟨dict, hdict, ?_, ?_⟩
  · rw [hname]
    rfl
  · rw [hname]
    rfl

end Api
end Concord
end SynCord
