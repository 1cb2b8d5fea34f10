import SynCord.Text

/-!
# SynCord.Template

Texts with placeholders such as `${WORD}`, and the texts that are put in for them.

* `substitute` — every needle of a list replaced in one pass; with one needle this is `replace`.
* `exists_pieces`, `dollars_render` — a text in which every dollar sign is accounted for is a list
  of pieces: plain texts, placeholders, and dollar signs that begin no placeholder.
* `substitute_render` — on such a text the substitution can be done piece by piece.
* `infix_render` — what looks like a placeholder in a list of pieces is one of the pieces.
-/

namespace SynCord
namespace Text

/-- `skip` counts the characters of the last match that are still to be dropped. -/
def substituteFrom (pairs : List (Text × Text)) : Nat → Text → Text
  | _, [] => []
  | skip + 1, _ :: cs => substituteFrom pairs skip cs
  | 0, c :: cs =>
    match pairs.find? fun p => p.1.isPrefixOf (c :: cs) with
    | some p => p.2 ++ substituteFrom pairs (p.1.length - 1) cs
    | none => c :: substituteFrom pairs 0 cs

/-- From the left, what begins with a needle of the list is replaced. -/
def substitute (pairs : List (Text × Text)) (text : Text) : Text := substituteFrom pairs 0 text

theorem replaceFrom_eq_substituteFrom (needle new : Text) (skip : Nat) (text : Text) :
    replaceFrom needle new skip text = substituteFrom [(needle, new)] skip text := by
  induction text generalizing skip with
  | nil => cases skip <;> rfl
  | cons c cs ih =>
    cases skip with
    | succ skip => exact ih skip
    | zero =>
      rw [replaceFrom, substituteFrom]
      by_cases h : needle.isPrefixOf (c :: cs) = true
      · simp [h, ih]
      · simp [h, ih]

theorem replace_eq_substitute (needle new text : Text) :
    replace needle new text = substitute [(needle, new)] text :=
  replaceFrom_eq_substituteFrom needle new 0 text

theorem substituteFrom_drop (pairs : List (Text × Text)) (t post : Text) :
    substituteFrom pairs t.length (t ++ post) = substituteFrom pairs 0 post := by
  induction t with
  | nil => rfl
  | cons c t ih => exact ih

end Text

namespace Template

open Text

/-- Letters, digits and underscores, or whatever else cannot be mistaken for the end of a
placeholder or of a line. -/
def IsWord (w : Text) : Prop := ∀ c ∈ w, c ∉ ['$', '\x7b', '\x7d', '\n', '\r']

instance (w : Text) : Decidable (IsWord w) :=
  List.decidableBAll _ w

def placeholder (w : Text) : Text := '$' :: '\x7b' :: (w ++ ['\x7d'])

/-- A word and the text that is put in for it. -/
structure Filler where
  word : Text
  new : Text
  isWord : IsWord word
  plain : '$' ∉ new

def Filler.pair (s : Filler) : Text × Text := (placeholder s.word, s.new)

inductive Piece where
  | lit (t : Text) (plain : '$' ∉ t)
  | hole (w : Text) (isWord : IsWord w)
  | dollar (c : Char) (follows : c ≠ '$' ∧ c ≠ '\x7b')

def Piece.text : Piece → Text
  | .lit t _ => t
  | .hole w _ => placeholder w
  | .dollar c _ => ['$', c]

def render (ps : List Piece) : Text := ps.flatMap Piece.text

/-- Every dollar sign is followed by a word in braces, or by a character that is neither a dollar
sign nor a brace. -/
def Dollars (t : Text) : Prop :=
  ∀ pre post, t = pre ++ '$' :: post →
    (∃ w rest, IsWord w ∧ post = '\x7b' :: (w ++ '\x7d' :: rest)) ∨
      ∃ c rest, post = c :: rest ∧ c ≠ '$' ∧ c ≠ '\x7b'

/-- The fillers for one piece; the first one for its word is used. -/
def Piece.fill (l : List Filler) : Piece → Piece
  | .hole w isWord =>
    match l.find? fun s => s.word == w with
    | some s => .lit s.new s.plain
    | none => .hole w isWord
  | p => p

/-! ## Pieces -/

@[simp] theorem render_nil : render [] = [] := rfl

@[simp] theorem render_cons (p : Piece) (ps : List Piece) :
    render (p :: ps) = p.text ++ render ps := rfl

theorem IsWord.not_mem {w : Text} (h : IsWord w) {c : Char}
    (hc : c ∈ ['$', '\x7b', '\x7d', '\n', '\r']) : c ∉ w :=
  fun hm => h c hm hc

/-- Where a dollar sign can be in a text that goes on behind a plain one. -/
theorem Dollars.append {a b : Text} (ha : '$' ∉ a) (hb : Dollars b) : Dollars (a ++ b) := by
  intro pre post h
  rcases List.append_eq_append_iff.1 h with ⟨t, ht, hbt⟩ | ⟨t, ht, hbt⟩
  · exact hb t post hbt
  · cases t with
    | nil => exact hb [] post hbt.symm
    | cons c t =>
      obtain ⟨rfl, rfl⟩ := List.cons.inj hbt
      exact absurd (by simp [ht]) ha

theorem Dollars.cons {t : Text} (h : Dollars t)
    (hhead : (∃ w rest, IsWord w ∧ t = '\x7b' :: (w ++ '\x7d' :: rest)) ∨
      ∃ c rest, t = c :: rest ∧ c ≠ '$' ∧ c ≠ '\x7b') : Dollars ('$' :: t) := by
  intro pre post hp
  cases pre with
  | nil =>
    cases hp
    exact hhead
  | cons c pre => exact h pre post (List.cons.inj hp).2

theorem dollars_render (ps : List Piece) : Dollars (render ps) := by
  induction ps with
  | nil =>
    intro pre post h
    simp at h
  | cons p ps ih =>
    cases p with
    | lit t plain => exact ih.append plain
    | hole w isWord =>
      have htail : '$' ∉ '\x7b' :: (w ++ ['\x7d']) := by
        have := isWord.not_mem (c := '$') (by decide)
        simp [this]
      exact (ih.append htail).cons (.inl ⟨w, render ps, isWord, by simp⟩)
    | dollar c follows =>
      have hc : '$' ∉ [c] := by simp [Ne.symm follows.1]
      exact (ih.append hc).cons (.inr ⟨c, render ps, rfl, follows⟩)

theorem Dollars.of_append {a b : Text} (h : Dollars (a ++ b)) : Dollars b := by
  intro pre post hb
  exact h (a ++ pre) post (by rw [hb, List.append_assoc])

/-- The text is cut from the left; what is left is shorter. -/
theorem exists_pieces {t : Text} (h : Dollars t) : ∃ ps : List Piece, t = render ps := by
  induction hn : t.length using Nat.strong_induction_on generalizing t with
  | _ n ih =>
    cases t with
    | nil => exact ⟨[], rfl⟩
    | cons c cs =>
      have hrest : ∀ a b : Text, c :: cs = a ++ b → a ≠ [] → ∃ ps : List Piece, b = render ps := by
        intro a b hab ha
        have hlen : b.length < n := by
          have hpos := List.length_pos_iff.2 ha
          have := congrArg List.length hab
          rw [List.length_append] at this
          omega
        rw [hab] at h
        exact ih b.length hlen h.of_append rfl
      by_cases hc : c = '$'
      · subst hc
        rcases h [] cs rfl with ⟨w, rest, hw, rfl⟩ | ⟨d, rest, rfl, hd⟩
        · obtain ⟨ps, hps⟩ := hrest (placeholder w) rest (by simp [placeholder]) (by
            simp [placeholder])
          exact ⟨.hole w hw :: ps, by simp [Piece.text, placeholder, hps]⟩
        · obtain ⟨ps, hps⟩ := hrest ['$', d] rest rfl (by simp)
          exact ⟨.dollar d hd :: ps, by simp [Piece.text, hps]⟩
      · obtain ⟨ps, hps⟩ := hrest [c] cs rfl (by simp)
        exact ⟨.lit [c] (by simp [Ne.symm hc]) :: ps, by simp [Piece.text, hps]⟩

/-- Two placeholders of which one begins like the other are the same. -/
theorem placeholder_begins {v w : Text} (hv : IsWord v) (hw : IsWord w) {rest : Text} :
    placeholder v <+: placeholder w ++ rest ↔ v = w := by
  constructor
  · rintro ⟨t, ht⟩
    simp only [placeholder, List.cons_append, List.append_assoc, List.cons.injEq,
      true_and] at ht
    induction v generalizing w with
    | nil =>
      cases w with
      | nil => rfl
      | cons d w =>
        have hd : '\x7d' = d := by
          simp at ht
          exact ht.1
        exact absurd (hd ▸ List.mem_cons_self ..) (hw.not_mem (c := '\x7d') (by decide))
    | cons c v ihv =>
      cases w with
      | nil =>
        have hc : c = '\x7d' := by
          simp at ht
          exact ht.1
        exact absurd (hc ▸ List.mem_cons_self ..) (hv.not_mem (c := '\x7d') (by decide))
      | cons d w =>
        simp only [List.cons_append, List.cons.injEq] at ht
        have hvw := ihv (fun x hx => hv x (List.mem_cons_of_mem _ hx))
          (fun x hx => hw x (List.mem_cons_of_mem _ hx)) ht.2
        rw [ht.1, hvw]
  · rintro rfl
    exact List.prefix_append _ _

theorem placeholder_not_dollar (v : Text) {c : Char} (hc : c ≠ '\x7b') (rest : Text) :
    ¬ placeholder v <+: '$' :: c :: rest := by
  rintro ⟨t, ht⟩
  simp [placeholder] at ht
  exact hc ht.1.symm

/-! ## Substitution, piece by piece -/

section Substitute

variable {l : List Filler}

theorem find?_pairs (t : Text) :
    (l.map Filler.pair).find? (fun p => p.1.isPrefixOf t) =
      (l.find? fun s => (placeholder s.word).isPrefixOf t).map Filler.pair := by
  rw [List.find?_map]
  rfl

theorem substitute_cons_of_none {c : Char} {cs : Text}
    (h : ∀ s ∈ l, ¬ placeholder s.word <+: c :: cs) :
    substitute (l.map Filler.pair) (c :: cs) = c :: substitute (l.map Filler.pair) cs := by
  have hnone : l.find? (fun s => (placeholder s.word).isPrefixOf (c :: cs)) = none := by
    rw [List.find?_eq_none]
    intro s hs
    rw [List.isPrefixOf_iff_prefix]
    exact h s hs
  rw [substitute, substituteFrom, find?_pairs, hnone]
  rfl

/-- Before a dollar sign nothing happens. -/
theorem substitute_append {pre : Text} (hpre : '$' ∉ pre) (post : Text) :
    substitute (l.map Filler.pair) (pre ++ post) = pre ++ substitute (l.map Filler.pair) post := by
  induction pre with
  | nil => rfl
  | cons c pre ih =>
    rw [List.mem_cons, not_or] at hpre
    have hno : ∀ s ∈ l, ¬ placeholder s.word <+: c :: (pre ++ post) := by
      rintro s _ ⟨t, ht⟩
      simp [placeholder] at ht
      exact hpre.1 ht.1
    rw [List.cons_append, substitute_cons_of_none hno, ih hpre.2]
    rfl

theorem substitute_hole {w : Text} (hw : IsWord w) (post : Text) :
    substitute (l.map Filler.pair) (placeholder w ++ post) =
      ((Piece.hole w hw).fill l).text ++ substitute (l.map Filler.pair) post := by
  have hfind : (l.find? fun s => (placeholder s.word).isPrefixOf (placeholder w ++ post)) =
      l.find? fun s => s.word == w := by
    congr 1
    funext s
    rw [Bool.eq_iff_iff, List.isPrefixOf_iff_prefix, placeholder_begins s.isWord hw, beq_iff_eq]
  rw [Piece.fill]
  cases hs : l.find? fun s => s.word == w with
  | none =>
    have htail : '$' ∉ '\x7b' :: (w ++ ['\x7d']) := by
      have := hw.not_mem (c := '$') (by decide)
      simp [this]
    have hno : ∀ s ∈ l, ¬ placeholder s.word <+: '$' :: ('\x7b' :: (w ++ ['\x7d']) ++ post) := by
      intro s hs' hp
      have hword := (placeholder_begins s.isWord hw).1 hp
      have := List.find?_eq_none.1 hs s hs'
      simp [hword] at this
    show substitute _ ('$' :: ('\x7b' :: (w ++ ['\x7d']) ++ post)) = _
    rw [substitute_cons_of_none hno, substitute_append htail]
    rfl
  | some s =>
    have hword : s.word = w := by
      have := List.find?_some hs
      simpa using this
    have hskip : ((placeholder s.word).length - 1) = ('\x7b' :: (w ++ ['\x7d'])).length := by
      simp [placeholder, hword]
    rw [hs] at hfind
    show substituteFrom _ 0 ('$' :: ('\x7b' :: (w ++ ['\x7d']) ++ post)) = s.new ++ _
    rw [substituteFrom, find?_pairs]
    have hfind' : (l.find? fun s => (placeholder s.word).isPrefixOf
        ('$' :: ('\x7b' :: (w ++ ['\x7d']) ++ post))) = some s := hfind
    rw [hfind']
    show s.new ++ substituteFrom _ ((placeholder s.word).length - 1) _ = _
    rw [hskip, substituteFrom_drop]
    rfl

theorem substitute_render (l : List Filler) (ps : List Piece) :
    substitute (l.map Filler.pair) (render ps) = render (ps.map (Piece.fill l)) := by
  induction ps with
  | nil => rfl
  | cons p ps ih =>
    rw [render_cons, List.map_cons, render_cons, ← ih]
    cases p with
    | lit t plain => exact substitute_append plain _
    | hole w isWord => exact substitute_hole isWord _
    | dollar c follows =>
      have hno : ∀ s ∈ l, ¬ placeholder s.word <+: '$' :: c :: render ps :=
        fun s _ => placeholder_not_dollar s.word follows.2 _
      have hc : '$' ∉ [c] := by simp [Ne.symm follows.1]
      show substitute _ ('$' :: c :: render ps) = '$' :: c :: _
      rw [substitute_cons_of_none hno]
      exact congrArg _ (substitute_append hc _)

end Substitute

/-! ## Placeholders that are left -/

theorem infix_of_append {n pre post : Text} (hpre : '$' ∉ pre) (h : '$' :: n <:+: pre ++ post) :
    '$' :: n <:+: post := by
  induction pre with
  | nil => exact h
  | cons c pre ih =>
    rw [List.mem_cons, not_or] at hpre
    rcases List.infix_cons_iff.1 h with h | h
    · obtain ⟨t, ht⟩ := h
      exact absurd (List.cons.inj ht).1 hpre.1
    · exact ih hpre.2 h

theorem infix_render {w : Text} (hw : IsWord w) {ps : List Piece} :
    placeholder w <:+: render ps ↔ .hole w hw ∈ ps := by
  constructor
  · intro h
    induction ps with
    | nil => simp [placeholder] at h
    | cons p ps ih =>
      rw [render_cons] at h
      cases p with
      | lit t plain => exact List.mem_cons_of_mem _ (ih (infix_of_append plain h))
      | hole v hv =>
        rcases List.infix_cons_iff.1 h with h | h
        · obtain rfl := (placeholder_begins hw hv).1 h
          exact List.mem_cons_self ..
        · have htail : '$' ∉ '\x7b' :: (v ++ ['\x7d']) := by
            have := hv.not_mem (c := '$') (by decide)
            simp [this]
          exact List.mem_cons_of_mem _ (ih (infix_of_append htail h))
      | dollar c follows =>
        rcases List.infix_cons_iff.1 h with h | h
        · exact absurd h (placeholder_not_dollar w follows.2 _)
        · have hc : '$' ∉ [c] := by simp [Ne.symm follows.1]
          exact List.mem_cons_of_mem _ (ih (infix_of_append hc h))
  · intro h
    obtain ⟨a, b, rfl⟩ := List.append_of_mem h
    refine ⟨render a, render b, ?_⟩
    simp [render, Piece.text]

end Template
end SynCord
