import Mathlib.Algebra.GroupWithZero.Nat
import Mathlib.Algebra.Order.BigOperators.Group.List
import Mathlib.Algebra.Order.Ring.Nat
import SynCord.Bpf.Generate
import SynCord.Strings
import SynCord.Template

/-!
# SynCord.Concord.Fill

`inplace_replace` of `util.py` on the contents of a file, and the templates that `_ready_impl`
fills with one call for each placeholder. The file is read in text mode every time, so a carriage
return that one call has put in is a line feed after the next.

* `inplaceReplace_eq` — line by line is as good as all at once.
* `exists_pieces_inplaceReplaceAll` — what is left of the placeholders after all the calls.
* `fill_simultaneous` — the calls fill a template as one substitution would, apart from carriage
  returns.
-/

namespace SynCord
namespace Concord

open Text Template

def inplaceReplace (needle new content : Text) : Text :=
  (Bpf.inplaceReplace needle new (readlines (universal content))).flatten

/-- One call after the other. -/
def inplaceReplaceAll (l : List Filler) (content : Text) : Text :=
  l.foldl (fun content s => inplaceReplace (placeholder s.word) s.new content) content

theorem inplaceReplace_universal {needle : Text} (hne : needle ≠ []) (hn : '\n' ∉ needle)
    (new content : Text) :
    inplaceReplace needle new content = replace needle new (universal content) :=
  replace_readlines hne hn (universal content)

theorem inplaceReplace_eq {needle content : Text} (hcr : '\r' ∉ content) (hne : needle ≠ [])
    (hn : '\n' ∉ needle) (new : Text) :
    inplaceReplace needle new content = replace needle new content := by
  rw [inplaceReplace_universal hne hn, universal_of_not_mem hcr]

/-! ## Line ends and pieces -/

def Piece.hole? : Piece → Option Text
  | .hole w _ => some w
  | _ => none

def holes (ps : List Piece) : List Text := ps.filterMap Piece.hole?

@[simp] theorem holes_lit (t : Text) (plain : '$' ∉ t) (ps : List Piece) :
    holes (.lit t plain :: ps) = holes ps := rfl

@[simp] theorem holes_dollar (c : Char) (follows : c ≠ '$' ∧ c ≠ '\x7b') (ps : List Piece) :
    holes (.dollar c follows :: ps) = holes ps := rfl

@[simp] theorem holes_hole (w : Text) (isWord : IsWord w) (ps : List Piece) :
    holes (.hole w isWord :: ps) = w :: holes ps := rfl

theorem mem_holes {w : Text} (hw : IsWord w) {ps : List Piece} :
    w ∈ holes ps ↔ .hole w hw ∈ ps := by
  rw [holes, List.mem_filterMap]
  constructor
  · rintro ⟨p, hp, h⟩
    cases p with
    | lit t plain => cases h
    | dollar c follows => cases h
    | hole v hv =>
      cases h
      exact hp
  · intro h
    exact ⟨_, h, rfl⟩

/-- The state of the reader behind a text. -/
def after : Bool → Text → Bool
  | cr, [] => cr
  | _, c :: cs => after (c = '\r') cs

theorem universalFrom_append (cr : Bool) (x y : Text) :
    universalFrom cr (x ++ y) = universalFrom cr x ++ universalFrom (after cr x) y := by
  induction x generalizing cr with
  | nil => rfl
  | cons c x ih =>
    rw [List.cons_append, universalFrom, universalFrom, after]
    split
    · rename_i hc
      simp [ih, hc]
    · rename_i hc
      split
      · simp [ih, hc]
      · simp [ih, hc]

theorem not_mem_universalFrom_of_not_mem {c : Char} (hc : c ≠ '\n') {t : Text} (h : c ∉ t)
    (cr : Bool) : c ∉ universalFrom cr t := by
  induction t generalizing cr with
  | nil => simp [universalFrom]
  | cons d t ih =>
    rw [List.mem_cons, not_or] at h
    rw [universalFrom]
    split
    · simp [hc, ih h.2]
    · split
      · exact ih h.2 _
      · simp [h.1, ih h.2]

/-- No line end is in a placeholder. -/
theorem universalFrom_placeholder {w : Text} (hw : IsWord w) (cr : Bool) :
    universalFrom cr (placeholder w) = placeholder w := by
  have hrest : '\r' ∉ '\x7b' :: (w ++ ['\x7d']) := by
    have := hw.not_mem (c := '\r') (by decide)
    simp [this]
  rw [placeholder, universalFrom, if_neg (by decide), if_neg (by simp),
    universalFrom_of_not_mem hrest]

/-- Reading in text mode goes piece by piece, with the reader's state handed on. -/
theorem exists_pieces_universalFrom (cr : Bool) (ps : List Piece) :
    ∃ qs, universalFrom cr (render ps) = render qs ∧ holes qs = holes ps := by
  induction ps generalizing cr with
  | nil => exact ⟨[], rfl, rfl⟩
  | cons p ps ih =>
    obtain ⟨qs, hqs, hholes⟩ := ih (after cr p.text)
    rw [render_cons, universalFrom_append, hqs]
    cases p with
    | lit t plain =>
      have hplain : '$' ∉ universalFrom cr t :=
        not_mem_universalFrom_of_not_mem (by decide) plain cr
      exact ⟨.lit _ hplain :: qs, rfl, hholes⟩
    | hole w isWord =>
      refine ⟨.hole w isWord :: qs, ?_, ?_⟩
      · rw [render_cons, Piece.text, universalFrom_placeholder isWord]
      · exact congrArg (w :: ·) hholes
    | dollar c follows =>
      by_cases hc : c = '\r'
      · refine ⟨.dollar '\n' (by decide) :: qs, ?_, hholes⟩
        simp [Piece.text, universalFrom, hc]
      · refine ⟨.dollar c follows :: qs, ?_, hholes⟩
        simp [Piece.text, universalFrom, hc]

theorem holes_fill (s : Filler) (ps : List Piece) :
    holes (ps.map (Piece.fill [s])) = (holes ps).filter (· ≠ s.word) := by
  induction ps with
  | nil => rfl
  | cons p ps ih =>
    cases p with
    | lit t plain => exact ih
    | dollar c follows => exact ih
    | hole w isWord =>
      by_cases h : s.word = w
      · simp [Piece.fill, h, ih]
      · simp [Piece.fill, h, Ne.symm h, ih]

theorem placeholder_ne_nil (w : Text) : placeholder w ≠ [] := by simp [placeholder]

theorem newline_not_mem_placeholder {w : Text} (hw : IsWord w) : '\n' ∉ placeholder w := by
  have := hw.not_mem (c := '\n') (by decide)
  simp [placeholder, this]

/-- One call: the file is read, then the one placeholder is filled. -/
theorem exists_pieces_inplaceReplace (s : Filler) (ps : List Piece) :
    ∃ qs, inplaceReplace (placeholder s.word) s.new (render ps) = render (qs.map (Piece.fill [s])) ∧
      '\r' ∉ render qs ∧ holes qs = holes ps := by
  obtain ⟨qs, hqs, hholes⟩ := exists_pieces_universalFrom false ps
  refine ⟨qs, ?_, ?_, hholes⟩
  · rw [inplaceReplace_universal (placeholder_ne_nil _) (newline_not_mem_placeholder s.isWord),
      universal, hqs, replace_eq_substitute]
    exact substitute_render [s] qs
  · rw [← hqs]
    exact not_mem_universalFrom false _

theorem exists_pieces_inplaceReplaceAll (l : List Filler) (ps : List Piece) :
    ∃ qs, inplaceReplaceAll l (render ps) = render qs ∧
      holes qs = (holes ps).filter fun w => w ∉ l.map Filler.word := by
  induction l generalizing ps with
  | nil => exact ⟨ps, rfl, by simp⟩
  | cons s l ih =>
    obtain ⟨qs, hqs, _, hholes⟩ := exists_pieces_inplaceReplace s ps
    obtain ⟨rs, hrs, hrest⟩ := ih (qs.map (Piece.fill [s]))
    refine ⟨rs, ?_, ?_⟩
    · rw [← hrs, ← hqs]
      rfl
    · rw [hrest, holes_fill, hholes, List.filter_filter]
      refine List.filter_congr ?_
      intro w _
      by_cases h : w = s.word
      · simp [h]
      · simp [h]

theorem not_infix_inplaceReplaceAll {l : List Filler} {s : Filler} (hs : s ∈ l)
    (ps : List Piece) : ¬ placeholder s.word <:+: inplaceReplaceAll l (render ps) := by
  obtain ⟨qs, hqs, hholes⟩ := exists_pieces_inplaceReplaceAll l ps
  rw [hqs, infix_render s.isWord, ← mem_holes s.isWord, hholes, List.mem_filter]
  intro h
  have hmem : s.word ∈ l.map Filler.word := List.mem_map_of_mem hs
  simp [hmem] at h

/-! ## Without carriage returns -/

theorem fill_fill (s : Filler) (l : List Filler) (p : Piece) :
    (p.fill [s]).fill l = p.fill (s :: l) := by
  cases p with
  | lit t plain => rfl
  | dollar c follows => rfl
  | hole w isWord =>
    by_cases h : s.word = w
    · simp [Piece.fill, h]
    · simp [Piece.fill, h]

theorem text_fill_not_mem {s : Filler} {p : Piece} (hp : '\r' ∉ p.text)
    (hs : p = .hole s.word s.isWord → '\r' ∉ s.new) : '\r' ∉ (p.fill [s]).text := by
  cases p with
  | lit t plain => exact hp
  | dollar c follows => exact hp
  | hole w isWord =>
    by_cases h : s.word = w
    · subst h
      have hnew := hs rfl
      simpa [Piece.fill, Piece.text] using hnew
    · simpa [Piece.fill, h] using hp

theorem not_mem_render {c : Char} {ps : List Piece} :
    c ∉ render ps ↔ ∀ p ∈ ps, c ∉ p.text := by
  simp [render]

theorem map_fill_nil (ps : List Piece) : ps.map (Piece.fill []) = ps := by
  rw [List.map_congr_left (g := id), List.map_id]
  intro p _
  cases p <;> rfl

/-- No call but the last may put a carriage return in. -/
theorem inplaceReplaceAll_eq {l : List Filler} {ps : List Piece} (hcr : '\r' ∉ render ps)
    (hl : ∀ s ∈ l.dropLast, .hole s.word s.isWord ∈ ps → '\r' ∉ s.new) :
    inplaceReplaceAll l (render ps) = render (ps.map (Piece.fill l)) := by
  induction l generalizing ps with
  | nil =>
    rw [map_fill_nil]
    rfl
  | cons s l ih =>
    have hone : inplaceReplace (placeholder s.word) s.new (render ps) =
        render (ps.map (Piece.fill [s])) := by
      rw [inplaceReplace_eq hcr (placeholder_ne_nil _) (newline_not_mem_placeholder s.isWord),
        replace_eq_substitute]
      exact substitute_render [s] ps
    cases l with
    | nil => exact hone
    | cons r l =>
      have hs : .hole s.word s.isWord ∈ ps → '\r' ∉ s.new := hl s (by simp)
      have hnext : '\r' ∉ render (ps.map (Piece.fill [s])) := by
        rw [not_mem_render] at hcr ⊢
        intro q hq
        obtain ⟨p, hp, rfl⟩ := List.mem_map.1 hq
        exact text_fill_not_mem (hcr p hp) (fun h => hs (h ▸ hp))
      have hleft : ∀ x : Filler, .hole x.word x.isWord ∈ ps.map (Piece.fill [s]) →
          .hole x.word x.isWord ∈ ps := by
        intro x hx
        rw [← mem_holes x.isWord, holes_fill] at hx
        exact (mem_holes x.isWord).1 (List.mem_of_mem_filter hx)
      have hrest := ih hnext fun x hx hin =>
        hl x (List.mem_cons_of_mem _ hx) (hleft x hin)
      show inplaceReplaceAll (r :: l) (inplaceReplace (placeholder s.word) s.new (render ps)) = _
      rw [hone, hrest, List.map_map]
      exact congrArg render (List.map_congr_left fun p _ => fill_fill s (r :: l) p)

/-! ## With carriage returns -/

theorem eq_of_sum_le {α : Type} {f g : α → Nat} {l : List α} (hle : ∀ a ∈ l, g a ≤ f a)
    (hsum : (l.map f).sum ≤ (l.map g).sum) : ∀ a ∈ l, f a = g a := by
  induction l with
  | nil => simp
  | cons a l ih =>
    have hl : ∀ x ∈ l, g x ≤ f x := fun x hx => hle x (List.mem_cons_of_mem _ hx)
    have hrest : (l.map g).sum ≤ (l.map f).sum := List.sum_le_sum hl
    have ha := hle a List.mem_cons_self
    simp only [List.map_cons, List.sum_cons] at hsum
    intro b hb
    rcases List.mem_cons.1 hb with rfl | hb
    · omega
    · exact ih hl (by omega) b hb

/-- The carriage returns that the last call puts in for a piece. -/
def returns (s : Filler) (p : Piece) : Nat :=
  if Piece.hole? p = some s.word then s.new.count '\r' else 0

theorem count_render (c : Char) (ps : List Piece) :
    (render ps).count c = (ps.map fun p => p.text.count c).sum := by
  rw [render, List.count_flatMap]
  rfl

theorem sum_returns (s : Filler) (ps : List Piece) :
    (ps.map (returns s)).sum = (holes ps).count s.word * s.new.count '\r' := by
  induction ps with
  | nil => simp [holes]
  | cons p ps ih =>
    rw [List.map_cons, List.sum_cons, ih]
    cases p with
    | lit t plain => simp [returns, Piece.hole?]
    | dollar c follows => simp [returns, Piece.hole?]
    | hole w isWord =>
      by_cases h : w = s.word
      · subst h
        simp [returns, Piece.hole?, Nat.add_mul, Nat.add_comm]
      · simp [returns, Piece.hole?, h]

/-- After a call, all carriage returns come from what it has put in. -/
theorem count_fill {s : Filler} {qs : List Piece} (hcr : '\r' ∉ render qs) :
    (render (qs.map (Piece.fill [s]))).count '\r' =
      (holes qs).count s.word * s.new.count '\r' := by
  rw [count_render, List.map_map, ← sum_returns]
  refine congrArg List.sum (List.map_congr_left ?_)
  intro p hp
  have hno := List.count_eq_zero.2 (not_mem_render.1 hcr p hp)
  cases p with
  | lit t plain => simpa [Piece.fill, returns, Piece.hole?] using hno
  | dollar c follows => simpa [Piece.fill, returns, Piece.hole?] using hno
  | hole w isWord =>
    by_cases h : s.word = w
    · simp [Piece.fill, returns, Piece.hole?, h, Piece.text]
    · simpa [Piece.fill, returns, Piece.hole?, h, Ne.symm h] using hno

section Order

variable {l : List Filler} {last : Filler} {ps : List Piece}

theorem find?_last (hnodup : ((l ++ [last]).map Filler.word).Nodup) :
    (l ++ [last]).find? (fun s => s.word == last.word) = some last := by
  rw [List.map_append, List.nodup_append] at hnodup
  have hnone : l.find? (fun s => s.word == last.word) = none := by
    rw [List.find?_eq_none]
    intro s hs
    have := hnodup.2.2 s.word (List.mem_map_of_mem hs) last.word (by simp)
    simpa using this
  simp [List.find?_append, hnone]

theorem returns_le (hnodup : ((l ++ [last]).map Filler.word).Nodup) (p : Piece) :
    returns last p ≤ (p.fill (l ++ [last])).text.count '\r' := by
  cases p with
  | lit t plain => simp [returns, Piece.hole?]
  | dollar c follows => simp [returns, Piece.hole?]
  | hole w isWord =>
    by_cases h : w = last.word
    · subst h
      simp [returns, Piece.hole?, Piece.fill, find?_last hnodup, Piece.text]
    · simp [returns, Piece.hole?, h]

/-- If the calls make no difference, no carriage return has been lost. -/
theorem returns_eq (hnodup : ((l ++ [last]).map Filler.word).Nodup)
    (h : inplaceReplaceAll (l ++ [last]) (render ps) = render (ps.map (Piece.fill (l ++ [last])))) :
    ∀ p ∈ ps, (p.fill (l ++ [last])).text.count '\r' = returns last p := by
  refine eq_of_sum_le (fun p _ => returns_le hnodup p) ?_
  obtain ⟨qs, hqs, hholes⟩ := exists_pieces_inplaceReplaceAll l ps
  obtain ⟨rs, hrs, hcr, hrest⟩ := exists_pieces_inplaceReplace last qs
  have hall : inplaceReplaceAll (l ++ [last]) (render ps) =
      render (rs.map (Piece.fill [last])) := by
    rw [← hrs, ← hqs]
    simp [inplaceReplaceAll]
  have hsub : (ps.map fun p => (p.fill (l ++ [last])).text.count '\r').sum =
      (render (ps.map (Piece.fill (l ++ [last])))).count '\r' := by
    rw [count_render, List.map_map]
    rfl
  rw [hsub, ← h, hall, count_fill hcr, hrest, hholes, sum_returns]
  exact Nat.mul_le_mul_right _ ((List.filter_sublist).count_le _)

theorem not_mem_of_eq (hnodup : ((l ++ [last]).map Filler.word).Nodup)
    (h : inplaceReplaceAll (l ++ [last]) (render ps) = render (ps.map (Piece.fill (l ++ [last])))) :
    '\r' ∉ render ps ∧ ∀ s ∈ l, .hole s.word s.isWord ∈ ps → '\r' ∉ s.new := by
  have heq := returns_eq hnodup h
  constructor
  · rw [not_mem_render]
    intro p hp
    have hcount := heq p hp
    cases p with
    | lit t plain => simpa [Piece.fill, returns, Piece.hole?, List.count_eq_zero] using hcount
    | dollar c follows => simpa [Piece.fill, returns, Piece.hole?, List.count_eq_zero] using hcount
    | hole w isWord =>
      have := isWord.not_mem (c := '\r') (by decide)
      simp [Piece.text, placeholder, this]
  · intro s hs hin
    have hcount := heq _ hin
    rw [List.map_append, List.nodup_append] at hnodup
    have hne : s.word ≠ last.word := hnodup.2.2 _ (List.mem_map_of_mem hs) _ (by simp)
    have hfind : (l ++ [last]).find? (fun r => r.word == s.word) = some s := by
      obtain ⟨r, hr⟩ : ∃ r, l.find? (fun r => r.word == s.word) = some r := by
        rw [← Option.isSome_iff_exists, List.find?_isSome]
        exact ⟨s, hs, by simp⟩
      have hword : r.word = s.word := by simpa using List.find?_some hr
      have hrs : r = s := List.inj_on_of_nodup_map hnodup.1 (List.mem_of_find?_eq_some hr) hs hword
      simp [List.find?_append, hr, hrs]
    simpa [Piece.fill, hfind, Piece.text, returns, Piece.hole?, hne, List.count_eq_zero]
      using hcount

end Order

theorem fill_simultaneous (content : Text) :
    (∀ needle new, '\r' ∉ content → needle ≠ [] → '\n' ∉ needle →
      inplaceReplace needle new content = replace needle new content) ∧
    (Dollars content → ∀ l : List Filler, (l.map Filler.word).Nodup →
      (∀ s ∈ l, ¬ placeholder s.word <:+: inplaceReplaceAll l content) ∧
      (inplaceReplaceAll l content = substitute (l.map Filler.pair) content ↔
        l = [] ∨ ('\r' ∉ content ∧
          ∀ s ∈ l.dropLast, placeholder s.word <:+: content → '\r' ∉ s.new))) := by
  refine ⟨fun needle new hcr hne hn => inplaceReplace_eq hcr hne hn new, ?_⟩
  intro hdollars l hnodup
  obtain ⟨ps, rfl⟩ := exists_pieces hdollars
  refine ⟨fun s hs => not_infix_inplaceReplaceAll hs ps, ?_⟩
  rw [substitute_render]
  simp only [infix_render (Filler.isWord _)]
  constructor
  · intro h
    rcases l.eq_nil_or_concat with rfl | ⟨l, last, rfl⟩
    · exact .inl rfl
    · rw [List.concat_eq_append] at hnodup h ⊢
      rw [List.dropLast_concat]
      exact .inr (not_mem_of_eq hnodup h)
  · rintro (rfl | ⟨hcr, hl⟩)
    · rw [map_fill_nil]
      rfl
    · exact inplaceReplaceAll_eq hcr hl

def numPolicy : Filler := ⟨"NUM_POLICY".toList, "2".toList, by decide, by decide⟩

def policyList : Filler := ⟨"POLICY_LIST".toList, "\"amp\",\"scl\"".toList, by decide, by decide⟩

/-- The lines of `skeleton_user.c` with the names of the policies and their number. -/
def userLines : List Piece :=
  [.lit "= \x7b".toList (by decide), .hole policyList.word policyList.isWord,
    .lit "\x7d;\ni <".toList (by decide), .hole numPolicy.word numPolicy.isWord,
    .lit ";\n".toList (by decide)]

theorem fill_simultaneous_user : inplaceReplaceAll [numPolicy, policyList] (render userLines) =
    "= \x7b\"amp\",\"scl\"\x7d;\ni <2;\n".toList := by
  have hfill := (fill_simultaneous (render userLines)).2 (dollars_render _)
    [numPolicy, policyList] (by decide)
  rw [hfill.2.2 (.inr ⟨by decide, by decide⟩)]
  decide

def carriageReturn : Filler := ⟨['A'], ['\r'], by decide, by decide⟩

def letter : Filler := ⟨['B'], ['x'], by decide, by decide⟩

/-- The carriage return that the first call puts in is a line feed after the second. -/
theorem fill_carriage_return :
    Dollars (placeholder ['A'] ++ placeholder ['B']) ∧
    inplaceReplaceAll [carriageReturn, letter] (placeholder ['A'] ++ placeholder ['B']) =
      ['\n', 'x'] ∧
    substitute [carriageReturn.pair, letter.pair] (placeholder ['A'] ++ placeholder ['B']) =
      ['\r', 'x'] := by
  refine ⟨dollars_render [.hole ['A'] (by decide), .hole ['B'] (by decide)], ?_, ?_⟩
  · decide
  · decide

end Concord
end SynCord
