import SynCord.CText
import SynCord.Dmon.Body

/-!
# SynCord.Dmon.Macro

`find_function_content` on a line that begins a macro. What is returned depends on the line itself
and the next one; a macro of more than two lines is taken for a function.

* `texts_pieces` — the texts that are returned, with the lines and columns they are taken from.
* `Macro.Laid` — layouts of a macro: a word, one line below, a loop on one line, a loop over lines
  that ends at the margin, or an empty loop.
* `Macro.Laid.spoken` — in these what is returned begins with what the macro calls.
* `macro_exact` — and it is all taken from the replacement text.
-/

namespace SynCord
namespace Dmon

open Text CText

/-! ## The replacement text -/

/-- The line is continued by the next one. -/
def continued (line : Text) : Prop := line.getLast? = some '\\'

instance (line : Text) : Decidable (continued line) := inferInstanceAs (Decidable (_ = _))

/-- The line without what continues it. -/
def unsplice (line : Text) : Text := if continued line then line.dropLast else line

/-- What stands on the line of a macro behind the directive. -/
structure Heading where
  name : Text
  /-- What stands between parentheses that follow the name. -/
  params : Option Text
  rest : Text
  deriving DecidableEq

def parseParams (name : Text) : Text → Option Heading
  | '(' :: t =>
    if ')' ∈ t then
      some ⟨name, some (t.takeWhile (· != ')')), (t.dropWhile (· != ')')).drop 1⟩
    else none
  | t => some ⟨name, none, t⟩

def parseName (t : Text) : Option Heading :=
  if t.takeWhile isWord = [] then none else parseParams (t.takeWhile isWord) (t.dropWhile isWord)

/-- `# define name(params) rest` -/
def parseDefine (line : Text) : Option Heading :=
  match line.dropWhile isSpace with
  | '#' :: t =>
    let t := t.dropWhile isSpace
    let word := "define".toList
    if word.isPrefixOf t ∧ (t.drop word.length).head?.any isSpace then
      parseName ((t.drop word.length).dropWhile isSpace)
    else none
  | _ => none

/-- The lines that continue a line, from the next one on. -/
def continuation : List Text → List Text
  | [] => []
  | line :: lines => if continued line then line :: continuation lines else [line]

/-- A macro that begins on line `index + 1`. -/
structure Macro (lines : List Text) where
  index : Nat
  line : Text
  at_index : lines[index]? = some line
  heading : Heading
  parsed : parseDefine line = some heading

/-! ## Where it is read -/

/-- A text that is returned, with the line and the column it is taken from, or behind which. Both
are counted from 0. -/
structure Piece where
  row : Nat
  column : Nat
  text : Text
  deriving DecidableEq

def Piece.Found (lines : List Text) (x : Piece) : Prop :=
  ∃ line, lines[x.row]? = some line ∧ x.text <:+: line.drop x.column

/-- The third of three words is the last one. -/
def mappingPieces (i : Nat) (line : Text) : List Piece :=
  match words line with
  | [_, _, mapping] => [⟨i, (line.rdropWhile isSpace).length - mapping.length, mapping⟩]
  | _ => [⟨i, 0, line⟩]

def piecesBetweenMarkers (lines : List Text) (i : Nat) : Option (List Piece) :=
  ((lines.drop i).findIdx? fun line => ['\x7d'].isPrefixOf line).map fun k =>
    ((lines.zipIdx.take (i + k)).drop (i + 2)).map fun x => ⟨x.2, 0, x.1⟩

def functionOrMappingPieces (lines : List Text) (i : Nat) (line : Text) : Option (List Piece) :=
  if line.getLast? = some ';' then none
  else if define.isPrefixOf line ∧ line.getLast? ≠ some '\\' then some (mappingPieces i line)
  else piecesBetweenMarkers lines i

/-- What `find_function_content` takes from where. -/
def piecesAt (lines : List Text) (i : Nat) (line : Text) : Option (List Piece) :=
  if define.isPrefixOf line ∧ (find '\\' line).any (0 < ·) then
    match lines[i + 1]? with
    | none => none
    | some next =>
      if find '\x7b' next = none then some [⟨i + 1, 0, next⟩]
      else if contains emptyBraces line then none
      else if (find '\x7b' next).any (0 < ·) ∧ (find '\x7d' next).any (0 < ·) then
        some ((statements next).map (⟨i + 1, 0, ·⟩))
      else functionOrMappingPieces lines i line
  else if define.isPrefixOf line ∧ contains emptyBraces line then none
  else functionOrMappingPieces lines i line

theorem texts_functionOrMappingPieces (lines : List Text) (i : Nat) (line : Text) :
    (functionOrMappingPieces lines i line).map (List.map Piece.text) =
      functionOrMappingContent lines i line := by
  have hmapping : (mappingPieces i line).map Piece.text = mapping line := by
    unfold mappingPieces mapping
    rcases line.words with _ | ⟨x, _ | ⟨y, _ | ⟨z, _ | ⟨w, rest⟩⟩⟩⟩ <;> rfl
  have hbetween : (piecesBetweenMarkers lines i).map (List.map Piece.text) =
      linesBetweenMarkers lines i := by
    rw [piecesBetweenMarkers, linesBetweenMarkers, Option.map_map]
    refine Option.map_congr fun k _ => ?_
    rw [Function.comp_apply, List.map_map, List.map_drop, List.map_take]
    congr 2
    exact List.zipIdx_map_fst 0 lines
  rw [functionOrMappingPieces, functionOrMappingContent]
  split_ifs
  · rfl
  · exact congrArg some hmapping
  · exact hbetween

theorem texts_piecesAt {lines : List Text} {i : Nat} {line : Text} (h : lines[i]? = some line) :
    (piecesAt lines i line).map (List.map Piece.text) = findFunctionContent lines (i + 1) := by
  have hrest := texts_functionOrMappingPieces lines i line
  rw [findFunctionContent_eq h, piecesAt]
  by_cases hb : define.isPrefixOf line ∧ (find '\\' line).any (0 < ·)
  · rw [if_pos hb, if_pos hb]
    cases lines[i + 1]? with
    | none => rfl
    | some next =>
      dsimp only
      split_ifs
      · rfl
      · rfl
      · simp [Function.comp_def]
      · exact hrest
  · rw [if_neg hb, if_neg hb]
    split_ifs
    · rfl
    · exact hrest

namespace Macro

variable {lines : List Text} (m : Macro lines)

/-- The lines behind the first one. -/
def more : List Text :=
  if continued m.line then continuation (lines.drop (m.index + 1)) else []

/-- The replacement text, line by line. -/
def parts : List Text := (m.heading.rest :: m.more).map unsplice

def replacement : Text := m.parts.flatten

/-- What is called in the replacement text. -/
def names : List Text := CText.names m.replacement

/-- The replacement text has this place: behind the name and the parameters, or on a line that
continues the macro. -/
def Covers (x : Piece) : Prop :=
  (x.row = m.index ∧ m.line.length - m.heading.rest.length ≤ x.column) ∨
    (m.index < x.row ∧ x.row ≤ m.index + m.more.length)

/-- What `find_function_content` returns for the macro. -/
def returned : List Text := (findFunctionContent lines (m.index + 1)).getD []

def pieces : List Piece := (piecesAt lines m.index m.line).getD []

/-- What is returned is taken from the replacement text, and what is called begins something that
is returned. -/
structure Exact : Prop where
  texts : m.returned = m.pieces.map Piece.text
  found : ∀ x ∈ m.pieces, x.Found lines
  covered : ∀ x ∈ m.pieces, m.Covers x
  heads : ∀ name ∈ m.names, ∃ x ∈ m.returned, callee x = some name

theorem texts_pieces : m.returned = m.pieces.map Piece.text := by
  rw [returned, pieces, ← texts_piecesAt m.at_index]
  cases piecesAt lines m.index m.line <;> rfl

end Macro

/-! ## Layouts -/

def Silent (t : Text) : Prop := names t = []

/-- There are only blanks and tabs. -/
def Blank (t : Text) : Prop := ∀ c ∈ t, c ∈ [' ', '\t']

/-- The text is `name(...)`, and calls nothing else. -/
structure Calls (t name : Text) : Prop where
  form : ∃ gap space rest, t = (gap ++ (name ++ space)) ++ '(' :: rest ∧
    Blank gap ∧ (∀ c ∈ name, isWord c = true) ∧ Blank space
  called : name ∈ names t ∧ ∀ other ∈ names t, other = name

/-- The text is a call, or `Other`. -/
def Speaks (Other : Text → Prop) (t : Text) : Prop := Other t ∨ ∃ name, Calls t name

namespace Macro

variable {lines : List Text} (m : Macro lines) (Other : Text → Prop)

/-- The macro goes on behind its first line, and neither a comment nor a word nor the beginning of a
call goes on behind a line. -/
structure Spread : Prop where
  margin : define <+: m.line
  continued : continued m.line
  closed : ∀ t ∈ m.parts.dropLast, Sealed t

inductive Laid : Prop where
  /-- `#define name word` -/
  | word {first key gap word : Text} (margin : define <+: m.line)
      (words : words m.line = [first, key, word]) (rest : m.heading.rest = gap ++ word)
      (blank : Blank gap) (single : '\\' ∉ m.line)
      (braces : ¬ emptyBraces <:+: m.line) (semicolon : ¬ semicolon <:+ m.line)
      (speaks : Speaks Other word)
  /-- Only the second line calls something, and has no brace. -/
  | next {own : Text} {more : List Text} (spread : m.Spread) (lines : m.more = own :: more)
      (brace : '\x7b' ∉ own) (speaks : Speaks Other (unsplice own))
      (silent : ∀ t ∈ m.heading.rest :: more, Silent (unsplice t))
  /-- Only the second line calls something, in statements between its braces. -/
  | statements {own front back : Text} {items more : List Text} (spread : m.Spread)
      (braces : ¬ emptyBraces <:+: m.line) (lines : m.more = own :: more)
      (loop : own = front ++ '\x7b' :: ([';'].intercalate items ++ '\x7d' :: back))
      (outer : front ≠ [] ∧ '\x7b' ∉ front ∧ '\x7d' ∉ front ∧ '\x7b' ∉ back)
      (items_ne : items ≠ []) (inner : ∀ t ∈ items, '\x7b' ∉ t ∧ '\x7d' ∉ t ∧ ';' ∉ t)
      (ends : ∀ t ∈ front :: items, EndsInCode t) (speaks : ∀ t ∈ items, Speaks Other t)
      (silent_front : Silent front)
      (silent : ∀ t ∈ back :: m.heading.rest :: more, Silent (unsplice t))
  /-- Only the lines between the one that opens the loop and the one that closes it, which begins
  with its brace, call something. -/
  | body {opening last : Text} {inner more : List Text} (spread : m.Spread)
      (braces : ¬ emptyBraces <:+: m.line) (lines : m.more = opening :: (inner ++ last :: more))
      (opens : '\x7b' ∈ opening ∧ '\x7d' ∉ opening) (closes : closing <+: last)
      (first : ∀ t ∈ inner, ¬ closing <+: t) (speaks : ∀ t ∈ inner, Speaks Other (unsplice t))
      (silent : ∀ t ∈ m.heading.rest :: opening :: last :: more, Silent (unsplice t))
  /-- `#define name() do { } while (0)` -/
  | empty (margin : define <+: m.line) (single : '\\' ∉ m.line)
      (braces : emptyBraces <:+: m.line) (silent : m.names = [])

end Macro

/-! ## Heads -/

section Callee

variable {t : Text}

theorem strip_stop {c : Char} (hc : isSpace c = false) (before after : Text) :
    strip (before ++ c :: after) = before.dropWhile isSpace ++ c :: after.rdropWhile isSpace := by
  rw [strip, dropWhile_stop hc, rdropWhile_stop hc]

theorem callee_paren {before : Text} (h : '(' ∉ before) (rest : Text) :
    callee (before ++ '(' :: rest) = some (strip before) := by
  have hbefore : '(' ∉ before.dropWhile isSpace :=
    fun hmem => h ((List.dropWhile_suffix _).subset hmem)
  have htrim : strip (before.dropWhile isSpace) = strip before := by
    rw [strip, List.dropWhile_idempotent]
    rfl
  rw [callee, strip_stop (by decide), find_append hbefore, Option.map_some, List.take_left, htrim]

theorem callee_of_not_mem (h : '(' ∉ t) : callee t = none := by
  have hstrip : '(' ∉ strip t := fun hmem => h ((infix_strip t).subset hmem)
  rw [callee, find, List.idxOf?_eq_none_iff.2 hstrip]
  rfl

theorem callee_strip (t : Text) : callee (strip t) = callee t := by
  by_cases h : '(' ∈ t
  · obtain ⟨before, rest, rfl, hbefore⟩ := List.eq_append_cons_of_mem h
    have hdrop : '(' ∉ before.dropWhile isSpace :=
      fun hmem => hbefore ((List.dropWhile_suffix _).subset hmem)
    rw [strip_stop (by decide), callee_paren hdrop, callee_paren hbefore, strip,
      List.dropWhile_idempotent]
    rfl
  · rw [callee_of_not_mem h, callee_of_not_mem fun hmem => h ((infix_strip t).subset hmem)]

theorem unsplice_append {c : Char} (hc : c ≠ '\\') (a b : Text) :
    unsplice (a ++ c :: b) = a ++ c :: unsplice b := by
  cases b using List.reverseRecOn with
  | nil => simp [unsplice, continued, hc]
  | append_singleton b d =>
    have hlast : (a ++ c :: (b ++ [d])).getLast? = some d := by
      rw [← List.cons_append, ← List.append_assoc, List.getLast?_concat]
    have hdrop : (a ++ c :: (b ++ [d])).dropLast = a ++ c :: b := by
      rw [← List.cons_append, ← List.append_assoc, List.dropLast_concat]
    simp only [unsplice, continued, hlast, hdrop, List.getLast?_concat, List.dropLast_concat]
    split <;> rfl

theorem callee_unsplice (t : Text) : callee (unsplice t) = callee t := by
  by_cases h : '(' ∈ t
  · obtain ⟨before, rest, rfl, hbefore⟩ := List.eq_append_cons_of_mem h
    rw [unsplice_append (by decide), callee_paren hbefore, callee_paren hbefore]
  · have hsub : '(' ∉ unsplice t := by
      rw [unsplice]
      split
      · exact fun hmem => h ((List.dropLast_sublist t).subset hmem)
      · exact h
    rw [callee_of_not_mem h, callee_of_not_mem hsub]

theorem Blank.isSpace (h : Blank t) : ∀ c ∈ t, isSpace c = true := by
  intro c hc
  have hmem : c = ' ' ∨ c = '\t' := by simpa using h c hc
  rcases hmem with rfl | rfl <;> decide

/-- A text is a call if it can be taken apart like one. -/
theorem Calls.ofParts {name : Text} (gap space rest : Text)
    (ht : t = (gap ++ (name ++ space)) ++ '(' :: rest)
    (hblank : (gap ++ space).all [' ', '\t'].contains = true) (hname : name.all isWord = true)
    (hcalled : name ∈ names t ∧ ∀ other ∈ names t, other = name) : Calls t name := by
  have hchars : ∀ c ∈ gap ++ space, c ∈ [' ', '\t'] := by
    intro c hc
    exact List.contains_iff_mem.1 (List.all_eq_true.1 hblank c hc)
  exact ⟨⟨gap, space, rest, ht, fun c hc => hchars c (List.mem_append_left _ hc),
    List.all_eq_true.1 hname, fun c hc => hchars c (List.mem_append_right _ hc)⟩, hcalled⟩

theorem Calls.callee {name : Text} (h : Calls t name) : callee t = some name := by
  obtain ⟨gap, space, rest, rfl, hgap, hname, hspace⟩ := h.form
  have hbefore : '(' ∉ gap ++ (name ++ space) := by
    simp only [List.mem_append, not_or]
    refine ⟨not_mem_of_class hgap.isSpace (by decide), not_mem_of_class hname (by decide),
      not_mem_of_class hspace.isSpace (by decide)⟩
  rw [callee_paren hbefore,
    strip_append hgap.isSpace (fun c hc => isSpace_of_isWord (hname c hc)) hspace.isSpace]

end Callee

/-! ## What is returned -/

theorem find_pos {c : Char} {t : Text} (h : t.head? ≠ some c) :
    (find c t).any (0 < ·) = true ↔ c ∈ t := by
  cases t with
  | nil => simp [find]
  | cons d t =>
    have hd : (d == c) = false := by simpa using h
    rw [find, List.idxOf?_cons, hd, List.mem_cons, ← List.isSome_idxOf?]
    have hne : ¬ c = d := fun heq => by simp [heq] at hd
    cases List.idxOf? c t with
    | none => simp [hne]
    | some k => simp

theorem continuation_prefix (l : List Text) : continuation l <+: l := by
  induction l with
  | nil => exact List.prefix_refl _
  | cons line l ih =>
    rw [continuation]
    split
    · exact (List.prefix_cons_inj line).2 ih
    · exact ⟨l, rfl⟩

def Heading.paramsText (h : Heading) : Text :=
  match h.params with
  | none => []
  | some params => '(' :: (params ++ [')'])

section Parse

variable {h : Heading}

theorem parseParams_eq {name t : Text} (hp : parseParams name t = some h) :
    t = h.paramsText ++ h.rest := by
  unfold parseParams at hp
  split at hp
  · rename_i t
    split at hp
    · rename_i hmem
      cases hp
      obtain ⟨before, after, rfl, hbefore⟩ := List.eq_append_cons_of_mem hmem
      have hplain : ∀ c ∈ before, (c != ')') = true := by
        intro c hc
        rw [bne_iff_ne]
        rintro rfl
        exact hbefore hc
      simp [Heading.paramsText, List.takeWhile_append_of_pos hplain,
        List.dropWhile_append_of_pos hplain]
    · cases hp
  · cases hp
    rfl

theorem parseName_eq {t : Text} (hp : parseName t = some h) :
    ∃ front, t = front ++ (h.paramsText ++ h.rest) ∧ '(' ∉ front := by
  rw [parseName] at hp
  split at hp
  · cases hp
  · refine ⟨t.takeWhile isWord, ?_, fun hmem => ?_⟩
    · rw [← parseParams_eq hp, List.takeWhile_append_dropWhile]
    · exact absurd (List.mem_takeWhile_imp hmem) (by decide)

theorem parseDefine_eq {line : Text} (hp : parseDefine line = some h) :
    ∃ front, line = front ++ (h.paramsText ++ h.rest) ∧ '(' ∉ front := by
  have hspace : ∀ t : Text, '(' ∉ t.takeWhile isSpace :=
    fun t hmem => absurd (List.mem_takeWhile_imp hmem) (by decide)
  unfold parseDefine at hp
  split at hp
  · rename_i t ht
    dsimp only at hp
    split at hp
    · rename_i hdef
      obtain ⟨u, hu⟩ := List.isPrefixOf_iff_prefix.1 hdef.1
      rw [← hu, List.drop_left] at hp
      obtain ⟨front, hfront, hplain⟩ := parseName_eq hp
      refine ⟨line.takeWhile isSpace ++ '#' :: (t.takeWhile isSpace ++ ("define".toList ++
        (u.takeWhile isSpace ++ front))), ?_, ?_⟩
      · have hline : line = line.takeWhile isSpace ++ '#' :: t := by
          rw [← ht, List.takeWhile_append_dropWhile]
        have ht' : t = t.takeWhile isSpace ++ ("define".toList ++ u) := by
          rw [hu, List.takeWhile_append_dropWhile]
        have hu' : u = u.takeWhile isSpace ++ (front ++ (h.paramsText ++ h.rest)) := by
          rw [← hfront, List.takeWhile_append_dropWhile]
        conv_lhs => rw [hline, ht', hu']
        simp only [List.append_assoc, List.cons_append]
      · simp only [List.mem_append, List.mem_cons, not_or]
        exact ⟨hspace _, by decide, hspace _, by decide, hspace _, hplain⟩
    · cases hp
  · cases hp

theorem parseDefine_suffix {line : Text} (hp : parseDefine line = some h) : h.rest <:+ line := by
  obtain ⟨front, hline, _⟩ := parseDefine_eq hp
  rw [hline]
  exact (List.suffix_append _ _).trans (List.suffix_append _ _)

end Parse

section Braced

theorem braced_none_append {front : Text} (h : '\x7b' ∉ front) (t : Text) :
    braced none (front ++ t) = braced none t := by
  induction front with
  | nil => rfl
  | cons c front ih =>
    rw [List.mem_cons, not_or] at h
    rw [List.cons_append, braced, if_neg (Ne.symm h.1), ih h.2]

theorem braced_some_append {group : Text} (h : '\x7d' ∉ group) (read t : Text) :
    braced (some read) (group ++ '\x7d' :: t) = (read.reverse ++ group) :: braced none t := by
  induction group generalizing read with
  | nil => simp [braced]
  | cons c group ih =>
    rw [List.mem_cons, not_or] at h
    rw [List.cons_append, braced, if_neg (Ne.symm h.1), ih h.2]
    simp

theorem mem_intercalate {c : Char} {items : List Text} (h : c ∈ [';'].intercalate items) :
    c = ';' ∨ ∃ t ∈ items, c ∈ t := by
  induction items with
  | nil => cases h
  | cons a items ih =>
    cases items with
    | nil => exact .inr ⟨a, List.mem_cons_self, by simpa [List.intercalate] using h⟩
    | cons b items =>
      rw [List.intercalate_cons_cons, List.append_assoc] at h
      rcases List.mem_append.1 h with h | h
      · exact .inr ⟨a, List.mem_cons_self, h⟩
      · rcases List.mem_cons.1 h with h | h
        · exact .inl h
        · rcases ih h with h | ⟨t, ht, h⟩
          · exact .inl h
          · exact .inr ⟨t, List.mem_cons_of_mem a ht, h⟩

/-- The statements of a loop on one line. -/
theorem statements_loop {front back : Text} {items : List Text} (hfront : '\x7b' ∉ front)
    (hback : '\x7b' ∉ back) (hne : items ≠ []) (hitems : ∀ t ∈ items, '\x7d' ∉ t ∧ ';' ∉ t) :
    statements (front ++ '\x7b' :: ([';'].intercalate items ++ '\x7d' :: back)) =
      items.map strip := by
  have hgroup : '\x7d' ∉ [';'].intercalate items := by
    intro h
    rcases mem_intercalate h with h | ⟨t, ht, h⟩
    · exact absurd h (by decide)
    · exact (hitems t ht).1 h
  have hnone : braced none back = [] := by
    have hrest := braced_none_append hback []
    rwa [List.append_nil] at hrest
  have hsplit : ([';'].intercalate items).splitOn ';' = items :=
    List.splitOn_intercalate ';' (fun t ht => (hitems t ht).2) hne
  rw [statements, braced_none_append hfront, braced, if_pos rfl, braced_some_append hgroup, hnone]
  simp [hsplit]

theorem names_items {items : List Text} (hne : items ≠ []) (h : ∀ t ∈ items, EndsInCode t)
    (back : Text) : names ([';'].intercalate items ++ '\x7d' :: back) =
      items.flatMap names ++ names back := by
  induction items with
  | nil => exact absurd rfl hne
  | cons a items ih =>
    rw [List.forall_mem_cons] at h
    cases items with
    | nil =>
      rw [List.intercalate_singleton, names_separator h.1 (by decide), List.flatMap_singleton]
    | cons b items =>
      have hrest := ih (by simp) h.2
      rw [List.intercalate_cons_cons, List.append_assoc, List.append_assoc, List.singleton_append,
        names_separator h.1 (by decide), hrest, ← List.append_assoc]
      rfl

end Braced

namespace Macro

variable {lines : List Text} {m : Macro lines} {Other : Text → Prop}

theorem head?_line (h : define <+: m.line) : m.line.head? = some '#' := by
  obtain ⟨t, ht⟩ := h
  rw [← ht]
  rfl

theorem backslash_iff (h : define <+: m.line) :
    (find '\\' m.line).any (0 < ·) = true ↔ '\\' ∈ m.line :=
  find_pos (by simp [head?_line h])

theorem more_prefix : m.more <+: lines.drop (m.index + 1) := by
  rw [more]
  split
  · exact continuation_prefix _
  · exact List.nil_prefix

theorem drop_index : lines.drop m.index = m.line :: lines.drop (m.index + 1) := by
  obtain ⟨hlt, heq⟩ := List.getElem?_eq_some_iff.1 m.at_index
  rw [List.drop_eq_getElem_cons hlt, heq]

theorem more_single (h : '\\' ∉ m.line) : m.more = [] :=
  if_neg fun hc => h (List.mem_of_getLast? hc)

namespace Spread

variable (h : m.Spread)
include h

theorem isPrefixOf : define.isPrefixOf m.line = true := List.isPrefixOf_iff_prefix.2 h.margin

/-- The next line is looked at. -/
theorem looks : define.isPrefixOf m.line ∧ (find '\\' m.line).any (0 < ·) :=
  ⟨h.isPrefixOf, (backslash_iff h.margin).2 (List.mem_of_getLast? h.continued)⟩

theorem names_eq : m.names = m.parts.flatMap CText.names := names_flatten h.closed

end Spread

theorem getElem?_of_more {own : Text} {more : List Text} (h : m.more = own :: more) :
    lines[m.index + 1]? = some own := by
  obtain ⟨after, hafter⟩ := m.more_prefix
  rw [h] at hafter
  rw [← List.head?_drop, ← hafter]
  rfl

theorem pieces_next (h : m.Spread) {own : Text} {more : List Text} (hlines : m.more = own :: more)
    (hbrace : '\x7b' ∉ own) : m.pieces = [⟨m.index + 1, 0, own⟩] := by
  simp only [pieces, piecesAt, if_pos h.looks, getElem?_of_more hlines]
  have hfind : find '\x7b' own = none := List.idxOf?_eq_none_iff.2 hbrace
  rw [if_pos hfind]
  rfl

/-- A part of a list keeps the places it had. -/
theorem zipIdx_slice (l : List Text) (i k : Nat) :
    (l.zipIdx.take (i + k)).drop (i + 2) = ((l.drop (i + 2)).take (k - 2)).zipIdx (i + 2) := by
  apply List.ext_getElem?
  intro j
  simp only [List.getElem?_drop, List.getElem?_take, List.getElem?_zipIdx]
  by_cases h : i + 2 + j < i + k
  · rw [if_pos h, if_pos (by omega)]
    simp
  · rw [if_neg h, if_neg (by omega)]
    rfl

section Open

variable (h : m.Spread) (hbraces : ¬ emptyBraces <:+: m.line)
include h hbraces

theorem pieces_statements {front rest : Text} {more : List Text}
    (hlines : m.more = (front ++ '\x7b' :: rest) :: more)
    (hfront : front ≠ [] ∧ '\x7b' ∉ front ∧ '\x7d' ∉ front) (hrest : '\x7d' ∈ rest) :
    m.pieces = (statements (front ++ '\x7b' :: rest)).map (⟨m.index + 1, 0, ·⟩) := by
  obtain ⟨c, t, rfl⟩ := List.exists_cons_of_ne_nil hfront.1
  have hbrace : find '\x7b' (c :: t ++ '\x7b' :: rest) ≠ none := by
    intro hnone
    exact List.idxOf?_eq_none_iff.1 hnone (by simp)
  have hopen : (find '\x7b' (c :: t ++ '\x7b' :: rest)).any (0 < ·) = true := by
    refine (find_pos ?_).2 (by simp)
    simpa using fun hc : c = '\x7b' => hfront.2.1 (hc ▸ List.mem_cons_self)
  have hclose : (find '\x7d' (c :: t ++ '\x7b' :: rest)).any (0 < ·) = true := by
    refine (find_pos ?_).2 (by simp [hrest])
    simpa using fun hc : c = '\x7d' => hfront.2.2 (hc ▸ List.mem_cons_self)
  have hno : contains emptyBraces m.line ≠ true := fun hc => hbraces (contains_iff.1 hc)
  simp only [pieces, piecesAt, if_pos h.looks, getElem?_of_more hlines, if_neg hbrace, if_neg hno]
  rw [if_pos ⟨hopen, hclose⟩]
  rfl

theorem pieces_body {opening last : Text} {inner more : List Text}
    (hlines : m.more = opening :: (inner ++ last :: more))
    (hopening : '\x7b' ∈ opening ∧ '\x7d' ∉ opening) (hlast : closing <+: last)
    (hinner : ∀ t ∈ inner, ¬ closing <+: t) :
    m.pieces = (inner.zipIdx (m.index + 2)).map fun x => ⟨x.2, 0, x.1⟩ := by
  have hbrace : find '\x7b' opening ≠ none := by
    intro hnone
    exact List.idxOf?_eq_none_iff.1 hnone hopening.1
  have hno : contains emptyBraces m.line ≠ true := fun hc => hbraces (contains_iff.1 hc)
  have hclose : ¬ (find '\x7d' opening).any (0 < ·) = true := by
    rw [find, List.idxOf?_eq_none_iff.2 hopening.2]
    simp
  simp only [pieces, piecesAt, if_pos h.looks, getElem?_of_more hlines, if_neg hbrace, if_neg hno]
  rw [if_neg fun hc => hclose hc.2]
  have hcont : m.line.getLast? = some '\\' := h.continued
  obtain ⟨after, hafter⟩ := m.more_prefix
  rw [hlines, List.cons_append, List.append_assoc] at hafter
  have hdrop : lines.drop m.index = m.line :: opening :: (inner ++ (last :: more ++ after)) := by
    rw [m.drop_index, ← hafter]
  have hno' : ∀ {t : Text}, ¬ closing <+: t → closing.isPrefixOf t = false := by
    intro t ht
    rw [← Bool.not_eq_true, List.isPrefixOf_iff_prefix]
    exact ht
  have hidx : (lines.drop m.index).findIdx? (fun line => closing.isPrefixOf line) =
      some (inner.length + 2) := by
    have hline : ¬ closing <+: m.line := by
      rintro ⟨t, ht⟩
      have hhead := m.head?_line h.margin
      rw [← ht] at hhead
      cases hhead
    have hopen : ¬ closing <+: opening := by
      rintro ⟨t, rfl⟩
      exact hopening.2 List.mem_cons_self
    have hnone : inner.findIdx? (fun line => closing.isPrefixOf line) = none := by
      rw [List.findIdx?_eq_none_iff]
      exact fun t ht => hno' (hinner t ht)
    rw [hdrop, List.findIdx?_cons, hno' hline, List.findIdx?_cons, hno' hopen,
      List.findIdx?_append, hnone, List.cons_append, List.findIdx?_cons,
      List.isPrefixOf_iff_prefix.2 hlast]
    simp
  have hbetween : piecesBetweenMarkers lines m.index = some ((((lines.zipIdx).take
      (m.index + (inner.length + 2))).drop (m.index + 2)).map fun x => ⟨x.2, 0, x.1⟩) := by
    rw [piecesBetweenMarkers]
    exact congrArg _ hidx
  have htake : (lines.drop (m.index + 2)).take (inner.length + 2 - 2) = inner := by
    rw [← List.drop_drop, hdrop, List.drop_succ_cons, List.drop_succ_cons, List.drop_zero,
      Nat.add_sub_cancel, List.take_left]
  rw [functionOrMappingPieces, hcont, if_neg (by simp), if_neg (by simp), hbetween, zipIdx_slice,
    htake]
  rfl

end Open

theorem pieces_word {first key word : Text} (hmargin : define <+: m.line)
    (hwords : words m.line = [first, key, word]) (hsingle : '\\' ∉ m.line)
    (hbraces : ¬ emptyBraces <:+: m.line) (hsemicolon : ¬ semicolon <:+ m.line) :
    m.pieces = [⟨m.index, (m.line.rdropWhile isSpace).length - word.length, word⟩] := by
  have hlook : ¬ (define.isPrefixOf m.line ∧ (find '\\' m.line).any (0 < ·)) :=
    fun hb => hsingle ((backslash_iff hmargin).1 hb.2)
  have hno : ¬ (define.isPrefixOf m.line ∧ contains emptyBraces m.line) :=
    fun hc => hbraces (contains_iff.1 hc.2)
  have hmapping : define.isPrefixOf m.line ∧ m.line.getLast? ≠ some '\\' :=
    ⟨List.isPrefixOf_iff_prefix.2 hmargin, fun hlast => hsingle (List.mem_of_getLast? hlast)⟩
  rw [suffix_semicolon] at hsemicolon
  rw [pieces, piecesAt, if_neg hlook, if_neg hno, functionOrMappingPieces, if_neg hsemicolon,
    if_pos hmapping, mappingPieces, hwords]
  rfl

theorem pieces_empty (hmargin : define <+: m.line) (hsingle : '\\' ∉ m.line)
    (hbraces : emptyBraces <:+: m.line) : m.pieces = [] := by
  have hlook : ¬ (define.isPrefixOf m.line ∧ (find '\\' m.line).any (0 < ·)) :=
    fun hb => hsingle ((backslash_iff hmargin).1 hb.2)
  have hyes : define.isPrefixOf m.line ∧ contains emptyBraces m.line :=
    ⟨List.isPrefixOf_iff_prefix.2 hmargin, contains_iff.2 hbraces⟩
  rw [pieces, piecesAt, if_neg hlook, if_pos hyes]
  rfl

theorem sealed_blank {t : Text} (h : Blank t) : Sealed t ∧ CText.names t = [] := by
  have hblank : State.inside.run t = .inside ∧ tokensFrom .inside t = [] := by
    induction t with
    | nil => exact ⟨rfl, rfl⟩
    | cons c t ih =>
      rw [Blank, List.forall_mem_cons] at h
      obtain ⟨hrun, htokens⟩ := ih h.2
      have hread : State.inside.read c = (.inside, []) := by
        have hc : c = ' ' ∨ c = '\t' := by simpa using h.1
        rcases hc with rfl | rfl <;> decide
      simp [State.run, tokensFrom, State.out, hread, htokens] at hrun ⊢
      exact hrun
  exact ⟨⟨hblank.1, by rw [hblank.2]; rfl⟩, by rw [CText.names, hblank.2]; rfl⟩

/-- In a macro that is laid out so, what is returned begins as the parts that call what the macro
calls, in their order. -/
theorem Laid.spoken (h : m.Laid Other) : ∃ spoken : List Text,
    m.returned.map callee = spoken.map callee ∧ m.names = spoken.flatMap CText.names ∧
      ∀ t ∈ spoken, Speaks Other t := by
  have hflat : ∀ {l : List Text}, (∀ t ∈ l, Silent (unsplice t)) →
      (l.map unsplice).flatMap CText.names = [] := by
    intro l hl
    rw [List.flatMap_map, List.flatMap_eq_nil_iff]
    exact hl
  rw [texts_pieces]
  cases h with
  | word margin words rest blank single braces semicolon speaks =>
    rename_i gap word
    refine ⟨[word], ?_, ?_, List.forall_mem_singleton.2 speaks⟩
    · rw [pieces_word margin words single braces semicolon]
      rfl
    · have hcont : ¬ continued (gap ++ word) := by
        intro hc
        refine single ((parseDefine_suffix m.parsed).subset ?_)
        rw [rest]
        exact List.mem_of_getLast? hc
      obtain ⟨hsealed, hsilent⟩ := sealed_blank blank
      rw [names, replacement, parts, more_single single, rest]
      simp [unsplice, hcont, names_append hsealed, hsilent]
  | next spread lines brace speaks silent =>
    rename_i own more
    rw [List.forall_mem_cons] at silent
    refine ⟨[unsplice own], ?_, ?_, List.forall_mem_singleton.2 speaks⟩
    · rw [pieces_next spread lines brace]
      simp [callee_unsplice]
    · have hrest := hflat silent.2
      have hfirst : CText.names (unsplice m.heading.rest) = [] := silent.1
      rw [spread.names_eq, parts, lines]
      simp [hfirst] at hrest ⊢
      exact hrest
  | statements spread braces lines loop outer items_ne inner ends speaks silent_front silent =>
    rename_i own front back items more
    subst loop
    simp only [List.forall_mem_cons] at silent ends
    refine ⟨items, ?_, ?_, speaks⟩
    · rw [pieces_statements spread braces lines ⟨outer.1, outer.2.1, outer.2.2.1⟩ (by simp),
        statements_loop outer.2.1 outer.2.2.2 items_ne fun t ht => (inner t ht).2]
      simp [callee_strip]
    · have hrest := hflat silent.2.2
      have hfront : CText.names front = [] := silent_front
      have hback : CText.names (unsplice back) = [] := silent.1
      have hfirst : CText.names (unsplice m.heading.rest) = [] := silent.2.1
      rw [spread.names_eq, parts, lines, List.map_cons, List.map_cons,
        unsplice_append (by decide), unsplice_append (by decide), List.flatMap_cons, hfirst,
        List.flatMap_cons, names_separator ends.1 (by decide), hfront, names_items items_ne ends.2,
        hback, hrest]
      simp
  | body spread braces lines opens closes first speaks silent =>
    rename_i opening last inner more
    simp only [List.forall_mem_cons] at silent
    refine ⟨inner.map unsplice, ?_, ?_, List.forall_mem_map.2 speaks⟩
    · rw [pieces_body spread braces lines opens closes first]
      have htexts : (inner.zipIdx (m.index + 2)).map Prod.fst = inner := List.zipIdx_map_fst _ _
      conv_rhs => rw [← htexts]
      simp [callee_unsplice, Function.comp_def]
    · have hrest := hflat silent.2.2.2
      have hfirst : CText.names (unsplice m.heading.rest) = [] := silent.1
      have hopening : CText.names (unsplice opening) = [] := silent.2.1
      have hlast : CText.names (unsplice last) = [] := silent.2.2.1
      rw [spread.names_eq, parts, lines, List.map_cons, List.map_cons, List.map_append,
        List.map_cons, List.flatMap_cons, hfirst, List.flatMap_cons, hopening, List.flatMap_append,
        List.flatMap_cons, hlast, hrest]
      simp
  | empty margin single braces silent =>
    refine ⟨[], ?_, silent, List.forall_mem_nil _⟩
    rw [pieces_empty margin single braces]
    rfl

/-- What is returned is taken from the replacement text. -/
theorem Laid.covered (h : m.Laid Other) : ∀ x ∈ m.pieces, x.Found lines ∧ m.Covers x := by
  cases h with
  | word margin words rest blank single braces semicolon speaks =>
    rename_i gap word
    rw [pieces_word margin words single braces semicolon, List.forall_mem_singleton]
    obtain ⟨front, hfront⟩ := parseDefine_suffix m.parsed
    rw [rest, ← List.append_assoc] at hfront
    obtain ⟨hne, hspace⟩ := not_isSpace_of_mem_words (x := word) (t := m.line) (by simp [words])
    have htrim : m.line.rdropWhile isSpace = m.line := by
      obtain ⟨init, c, rfl⟩ := (List.eq_nil_or_concat word).resolve_left hne
      rw [← hfront, List.concat_eq_append, ← List.append_assoc,
        rdropWhile_stop (hspace c (by simp))]
      rfl
    have hlen : m.line.length = (front ++ gap).length + word.length := by
      rw [← hfront, List.length_append]
    rw [htrim]
    refine ⟨⟨m.line, m.at_index, ?_⟩, .inl ⟨rfl, ?_⟩⟩
    · have hdrop : m.line.drop (m.line.length - word.length) = word := by
        rw [hlen, Nat.add_sub_cancel, ← hfront, List.drop_left]
      rw [hdrop]
    · rw [rest, List.length_append]
      dsimp only
      omega
  | next spread lines' brace speaks silent =>
    rw [pieces_next spread lines' brace, List.forall_mem_singleton]
    refine ⟨⟨_, getElem?_of_more lines', List.infix_refl _⟩, .inr ⟨Nat.lt_succ_self _, ?_⟩⟩
    rw [lines', List.length_cons]
    dsimp only
    omega
  | statements spread braces lines' loop outer items_ne inner ends speaks silent_front silent =>
    rename_i own front back items more
    subst loop
    rw [pieces_statements spread braces lines' ⟨outer.1, outer.2.1, outer.2.2.1⟩ (by simp),
      statements_loop outer.2.1 outer.2.2.2 items_ne fun t ht => (inner t ht).2, List.map_map,
      List.forall_mem_map]
    intro t ht
    refine ⟨⟨_, getElem?_of_more lines', ?_⟩, .inr ⟨Nat.lt_succ_self _, ?_⟩⟩
    · have hitem : t <:+: [';'].intercalate items :=
        List.infix_of_mem_flatten (mem_intersperse ht [';'])
      exact ((infix_strip t).trans hitem).trans ⟨front ++ ['\x7b'], '\x7d' :: back, by simp⟩
    · rw [lines', List.length_cons]
      dsimp only [Function.comp_apply]
      omega
  | body spread braces lines' opens closes first speaks silent =>
    rename_i opening last inner more
    rw [pieces_body spread braces lines' opens closes first, List.forall_mem_map]
    rintro ⟨t, j⟩ hmem
    obtain ⟨hle, hget⟩ := List.mk_mem_zipIdx_iff_le_and_getElem?_sub.1 hmem
    obtain ⟨k, rfl⟩ := Nat.exists_eq_add_of_le hle
    rw [Nat.add_sub_cancel_left] at hget
    obtain ⟨hlt, rfl⟩ := List.getElem?_eq_some_iff.1 hget
    obtain ⟨after, hafter⟩ := m.more_prefix
    have hline : lines[m.index + 2 + k]? = some inner[k] := by
      have hdrop : (lines.drop (m.index + 1))[k + 1]? = some inner[k] := by
        rw [← hafter, lines', List.cons_append, List.append_assoc, List.getElem?_cons_succ,
          List.getElem?_append_left hlt, hget]
      rw [← hdrop, List.getElem?_drop]
      congr 1
      omega
    refine ⟨⟨_, hline, List.infix_refl _⟩, .inr ⟨?_, ?_⟩⟩
    · dsimp only
      omega
    · rw [lines', List.length_cons, List.length_append, List.length_cons]
      dsimp only
      omega
  | empty margin single braces silent =>
    rw [pieces_empty margin single braces]
    exact List.forall_mem_nil _

end Macro

/-- A loop over several lines that ends at the margin. -/
def marginMacro : Text :=
  "#define lock_both(a, b) \\\n\tdo \x7b /* both */ \\\n".toList ++
    "\t\tacquire(a); \\\n\t\tacquire_nested (b, 1); \\\n\x7d while (0)\n".toList ++
    "void other(void)\n\x7b\n\tspin_lock(&x);\n\x7d\n".toList

/-- The brace that ends the loop of the macro is indented. -/
def indentedMacro : Text :=
  "#define raw_lock(l) \\\n\tdo \x7b \\\n\t\tacquire(l); \\\n\t\x7d while (0)\n".toList ++
    "void other(void)\n\x7b\n\tspin_lock(&x);\n\x7d\n".toList

end Dmon
end SynCord
