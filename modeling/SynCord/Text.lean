import Mathlib.Data.List.Infix
import Mathlib.Data.List.Nodup
import Mathlib.Tactic.Common

/-!
# SynCord.Text

Texts as lists of characters.

* `replace` — every occurrence of a needle replaced, from the left, as `str.replace` does it.
* `replace_once`, `replace_eq_self` — a template with one placeholder, or none.
* `prefix_before_newline` — what is looked for on one line is not found across two.
* `filter_eraseDups`, `nodup_eraseDups` — the elements of a list in the order of first appearance.
* `length_eraseDups_flatMap` — lists of at most one element have as many elements together as there
  are lists exactly if none is empty and no two are the same.
-/

namespace SynCord

abbrev Text := List Char

namespace Text

/-- `skip` counts the characters of the last match that are still to be dropped. -/
def replaceFrom (needle new : Text) : Nat → Text → Text
  | _, [] => []
  | skip + 1, _ :: cs => replaceFrom needle new skip cs
  | 0, c :: cs =>
    if needle.isPrefixOf (c :: cs) then new ++ replaceFrom needle new (needle.length - 1) cs
    else c :: replaceFrom needle new 0 cs

def replace (needle new text : Text) : Text := replaceFrom needle new 0 text

section Replace

variable {needle new : Text}

theorem replace_eq_self {text : Text} (h : ∀ t ∈ text.tails, needle.isPrefixOf t = false) :
    replace needle new text = text := by
  induction text with
  | nil => rfl
  | cons c cs ih =>
    have hc : needle.isPrefixOf (c :: cs) = false := h _ (by simp)
    have hcs := ih fun t ht => h t (List.mem_cons_of_mem _ ht)
    rw [replace] at hcs ⊢
    rw [replaceFrom, hc, hcs]
    rfl

theorem replaceFrom_drop (t post : Text) :
    replaceFrom needle new t.length (t ++ post) = replaceFrom needle new 0 post := by
  induction t with
  | nil => rfl
  | cons c t ih => exact ih

/-- Before the first character of the needle nothing happens. -/
theorem replace_append {d : Char} {rest pre : Text} (hpre : d ∉ pre) (post : Text) :
    replace (d :: rest) new (pre ++ post) = pre ++ replace (d :: rest) new post := by
  induction pre with
  | nil => rfl
  | cons c pre ih =>
    rw [List.mem_cons, not_or] at hpre
    have hc : (d :: rest).isPrefixOf (c :: (pre ++ post)) = false := by
      simp [List.isPrefixOf, hpre.1]
    rw [List.cons_append, List.cons_append, ← ih hpre.2, replace, replaceFrom, hc]
    rfl

theorem replace_of_not_mem {d : Char} {rest text : Text} (h : d ∉ text) :
    replace (d :: rest) new text = text := by
  calc replace (d :: rest) new text = replace (d :: rest) new (text ++ []) := by
        rw [List.append_nil]
    _ = text ++ replace (d :: rest) new [] := replace_append h []
    _ = text := List.append_nil text

theorem replace_once {d : Char} {rest : Text} (pre post : Text) (hpre : d ∉ pre)
    (hpost : d ∉ post) :
    replace (d :: rest) new (pre ++ (d :: rest ++ post)) = pre ++ (new ++ post) := by
  have hhead : (d :: rest).isPrefixOf (d :: (rest ++ post)) = true := by
    rw [List.isPrefixOf_iff_prefix]
    exact List.prefix_append (d :: rest) post
  have hmatch : replace (d :: rest) new (d :: rest ++ post) = new ++ post := by
    rw [List.cons_append, replace, replaceFrom, if_pos hhead, List.length_cons,
      Nat.add_sub_cancel, replaceFrom_drop]
    exact congrArg (new ++ ·) (replace_of_not_mem hpost)
  rw [replace_append hpre, hmatch]

end Replace

theorem not_mem_intercalate {c : Char} {sep : Text} (hsep : c ∉ sep) {l : List Text}
    (h : ∀ t ∈ l, c ∉ t) : c ∉ sep.intercalate l := by
  induction l with
  | nil => simp [List.intercalate]
  | cons a l ih =>
    rw [List.forall_mem_cons] at h
    cases l with
    | nil => simpa [List.intercalate] using h.1
    | cons b l =>
      rw [List.intercalate_cons_cons, List.mem_append, List.mem_append, not_or, not_or]
      exact ⟨⟨h.1, hsep⟩, ih h.2⟩

theorem prefix_before_newline {needle : Text} (h : '\n' ∉ needle) (t rest : Text) :
    needle.isPrefixOf (t ++ '\n' :: rest) = needle.isPrefixOf t := by
  induction needle generalizing t with
  | nil => rfl
  | cons c needle ih =>
    rw [List.mem_cons, not_or] at h
    cases t with
    | nil => simp [List.isPrefixOf, Ne.symm h.1]
    | cons x t => simp only [List.cons_append, List.isPrefixOf, ih h.2]

end Text

/-! ## First appearances -/

/-- Lists of at most one element. -/
theorem length_flatMap_single {α β : Type} {l : List β} {f : β → List α}
    (h : ∀ b ∈ l, (f b).length ≤ 1) :
    (l.flatMap f).length ≤ l.length ∧ ((l.flatMap f).length = l.length ↔ ∀ b ∈ l, f b ≠ []) := by
  induction l with
  | nil => simp
  | cons b l ih =>
    rw [List.forall_mem_cons] at h
    obtain ⟨hle, hiff⟩ := ih h.2
    have hb : f b ≠ [] ↔ (f b).length = 1 := by
      rw [← List.length_pos_iff]
      have := h.1
      omega
    rw [List.flatMap_cons, List.length_append, List.length_cons, List.forall_mem_cons, ← hiff, hb]
    have := h.1
    omega

section EraseDups

variable {α : Type} [BEq α]

/-- The induction that goes with `List.eraseDups`. -/
theorem eraseDups_induction {P : List α → Prop} (nil : P [])
    (cons : ∀ a l, P (l.filter fun b => !b == a) → P (a :: l)) : ∀ l, P l
  | [] => nil
  | a :: l => cons a l (eraseDups_induction nil cons (l.filter fun b => !b == a))
termination_by l => l.length
decreasing_by exact Nat.lt_succ_of_le (List.length_filter_le ..)

theorem length_eraseDups_le (l : List α) : l.eraseDups.length ≤ l.length := by
  induction l using eraseDups_induction with
  | nil => exact le_refl _
  | cons a l ih =>
    rw [List.eraseDups_cons, List.length_cons, List.length_cons]
    exact Nat.succ_le_succ (ih.trans (List.length_filter_le ..))

variable [LawfulBEq α]

theorem filter_eraseDups (p : α → Bool) (l : List α) :
    l.eraseDups.filter p = (l.filter p).eraseDups := by
  induction l using eraseDups_induction with
  | nil => rfl
  | cons a l ih =>
    by_cases ha : p a = true
    · rw [List.eraseDups_cons, List.filter_cons_of_pos ha, List.filter_cons_of_pos ha,
        List.eraseDups_cons, ih, List.filter_filter, List.filter_filter]
      simp only [Bool.and_comm]
    · rw [List.eraseDups_cons, List.filter_cons_of_neg ha, List.filter_cons_of_neg ha, ih,
        List.filter_filter]
      congr 1
      refine List.filter_congr fun x _ => ?_
      by_cases hx : x = a
      · simp [hx, ha]
      · simp [hx]

theorem nodup_eraseDups (l : List α) : l.eraseDups.Nodup := by
  induction l using eraseDups_induction with
  | nil => exact List.nodup_nil
  | cons a l ih =>
    rw [List.eraseDups_cons, List.nodup_cons]
    exact ⟨by simp, ih⟩

theorem eraseDups_of_nodup {l : List α} (h : l.Nodup) : l.eraseDups = l := by
  induction l with
  | nil => rfl
  | cons a l ih =>
    rw [List.nodup_cons] at h
    rw [List.eraseDups_cons, List.filter_eq_self.2, ih h.2]
    intro x hx
    have : x ≠ a := fun e => h.1 (e ▸ hx)
    simpa using this

theorem nodup_of_length_eraseDups {l : List α} (h : l.eraseDups.length = l.length) : l.Nodup := by
  induction l using eraseDups_induction with
  | nil => exact List.nodup_nil
  | cons a l ih =>
    have hle := length_eraseDups_le (l.filter fun b => !b == a)
    have hfilter := List.length_filter_le (fun b => !b == a) l
    rw [List.eraseDups_cons, List.length_cons, List.length_cons] at h
    have hlen : (l.filter fun b => !b == a).length = l.length := by omega
    have hall := List.length_filter_eq_length_iff.1 hlen
    refine List.nodup_cons.2 ⟨fun ha => ?_, ?_⟩
    · simpa using hall a ha
    · have hl := ih (by omega)
      rwa [List.filter_eq_self.2 hall] at hl

theorem length_eraseDups_flatMap {β : Type} {l : List β} {f : β → List α}
    (h : ∀ b ∈ l, (f b).length ≤ 1) :
    (l.flatMap f).eraseDups.length = l.length ↔
      (∀ b ∈ l, f b ≠ []) ∧ l.Pairwise fun b c => (f b).Disjoint (f c) := by
  obtain ⟨hle, hiff⟩ := length_flatMap_single h
  have hone : ∀ b ∈ l, (f b).Nodup := by
    intro b hb
    have hlen := h b hb
    match hf : f b with
    | [] => exact List.nodup_nil
    | [x] => exact List.nodup_singleton x
    | x :: y :: t => simp [hf] at hlen
  constructor
  · intro heq
    have hmono := length_eraseDups_le (l.flatMap f)
    have hnodup := nodup_of_length_eraseDups (l := l.flatMap f) (by omega)
    exact ⟨hiff.1 (by omega), (List.nodup_flatMap.1 hnodup).2⟩
  · rintro ⟨hne, hdisj⟩
    rw [eraseDups_of_nodup (List.nodup_flatMap.2 ⟨hone, hdisj⟩), hiff.2 hne]

end EraseDups

end SynCord
