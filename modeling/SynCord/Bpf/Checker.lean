import SynCord.Bpf.Generate
import SynCord.Bpf.Load

/-!
# SynCord.Bpf.Checker

`EBPF_GEN._check_impl` goes over the section names of the source for the kernel. It accepts what
begins with `maps`, `license` or `lock_`, and for a map has the user program pin one.

* `checkImpl_acceptable`, `checkImpl_some` — which lists of names are accepted.
* `checkImpl_pinsMap` — with a name that begins with `maps` the user program pins a map.
* `checkImpl_userLines` — nothing else of the user program is changed, if no policy has a `#` in its
  name.
-/

namespace SynCord
namespace Bpf

def lockSection : Text := "lock_".toList

/-- One section. `none` is `Bad Section`. -/
def checkSection (user : List Text) (sec : Text) : Option (List Text) :=
  if mapsName.isPrefixOf sec then some (inplaceReplace (mapLine '0') (mapLine '1') user)
  else if licenseName.isPrefixOf sec then some user
  else if lockSection.isPrefixOf sec then some user
  else none

/-- The section check of `_check_impl`, with the user program it leaves. -/
def checkImpl (sections : List Text) (user : List Text) : Option (List Text) :=
  sections.foldlM checkSection user

/-- `#if MAP`: the user program pins `map_fd[0]`. -/
def pinsMap (user : List Text) : Bool := user.head? = some (mapLine '1' ++ ['\n'])

/-- What the checker lets through. -/
def acceptable (sec : Text) : Prop := mapsName <+: sec ∨ licenseName <+: sec ∨ lockSection <+: sec

instance (sec : Text) : Decidable (acceptable sec) := inferInstanceAs (Decidable (_ ∨ _ ∨ _))

section Check

variable {sections user user' : List Text} {sec : Text}

/-- What can be done with a section. -/
theorem checkSection_cases (h : checkSection user sec = some user') :
    (mapsName <+: sec ∧ user' = inplaceReplace (mapLine '0') (mapLine '1') user) ∨
      (¬ mapsName <+: sec ∧ (licenseName <+: sec ∨ lockSection <+: sec) ∧ user' = user) := by
  simp only [checkSection, List.isPrefixOf_iff_prefix] at h
  split at h
  · exact .inl ⟨‹_›, (Option.some.inj h).symm⟩
  · rename_i hmaps
    split at h
    · exact .inr ⟨hmaps, .inl ‹_›, (Option.some.inj h).symm⟩
    · split at h
      · exact .inr ⟨hmaps, .inr ‹_›, (Option.some.inj h).symm⟩
      · cases h

theorem checkSection_acceptable (h : checkSection user sec = some user') : acceptable sec := by
  rcases checkSection_cases h with ⟨hmaps, -⟩ | ⟨-, hother, -⟩
  · exact .inl hmaps
  · exact .inr hother

theorem checkSection_some (h : acceptable sec) (user : List Text) :
    ∃ user', checkSection user sec = some user' := by
  simp only [checkSection, List.isPrefixOf_iff_prefix]
  split
  · exact ⟨_, rfl⟩
  · rename_i hmaps
    split
    · exact ⟨_, rfl⟩
    · rename_i hlic
      exact ⟨user, if_pos ((h.resolve_left hmaps).resolve_left hlic)⟩

theorem checkImpl_acceptable (h : checkImpl sections user = some user') :
    ∀ sec ∈ sections, acceptable sec := by
  induction sections generalizing user with
  | nil => simp
  | cons sec sections ih =>
    rw [checkImpl, List.foldlM_cons] at h
    obtain ⟨user₁, hsec, hrest⟩ := Option.bind_eq_some_iff.1 h
    exact List.forall_mem_cons.2 ⟨checkSection_acceptable hsec, ih hrest⟩

theorem checkImpl_some (h : ∀ sec ∈ sections, acceptable sec) (user : List Text) :
    ∃ user', checkImpl sections user = some user' := by
  induction sections generalizing user with
  | nil => exact ⟨user, rfl⟩
  | cons sec sections ih =>
    rw [List.forall_mem_cons] at h
    obtain ⟨user₁, hsec⟩ := checkSection_some h.1 user
    obtain ⟨user', hrest⟩ := ih h.2 user₁
    exact ⟨user', by rw [checkImpl, List.foldlM_cons, hsec]; exact hrest⟩

/-- The user program has its line with `MAP`, and the value in it is the digit. -/
def HasMapLine (user : List Text) (digit : Char) : Prop :=
  user.head? = some (mapLine digit ++ ['\n'])

theorem hasMapLine_readyUser (policies : List Policy) : HasMapLine (readyUser policies) '0' := rfl

theorem HasMapLine.replace {digit : Char} (hd : digit = '0' ∨ digit = '1')
    (hu : HasMapLine user digit) :
    HasMapLine (inplaceReplace (mapLine '0') (mapLine '1') user) '1' := by
  cases user with
  | nil => cases hu
  | cons line user =>
    obtain rfl : line = mapLine digit ++ ['\n'] := Option.some.inj hu
    rcases hd with rfl | rfl <;> rfl

/-- Once there has been a map, `MAP` stays 1. -/
theorem checkImpl_pinsMap {digit : Char} (hd : digit = '0' ∨ digit = '1')
    (hu : HasMapLine user digit) (h : checkImpl sections user = some user')
    (hm : digit = '1' ∨ ∃ sec ∈ sections, mapsName <+: sec) : pinsMap user' = true := by
  induction sections generalizing user digit with
  | nil =>
    cases h
    obtain rfl : digit = '1' := hm.resolve_right (by simp)
    exact decide_eq_true hu
  | cons sec sections ih =>
    rw [checkImpl, List.foldlM_cons] at h
    obtain ⟨user₁, hsec, hrest⟩ := Option.bind_eq_some_iff.1 h
    rcases checkSection_cases hsec with ⟨-, rfl⟩ | ⟨hmaps, -, rfl⟩
    · exact ih (.inr rfl) (hu.replace hd) hrest (.inl rfl)
    · refine ih hd hu hrest (hm.imp_right fun ⟨s, hs, hp⟩ => ?_)
      rcases List.mem_cons.1 hs with rfl | hs
      · exact absurd hp hmaps
      · exact ⟨s, hs, hp⟩

/-- The digit after the sections. -/
def mapDigit (sections : List Text) (digit : Char) : Char :=
  if ∃ sec ∈ sections, mapsName <+: sec then '1' else digit

theorem inplaceReplace_userLines {policies : List Policy} (hn : policies.length ≤ MAX_NUM_POLICY)
    (hname : ∀ p ∈ policies, '#' ∉ p.name) {digit : Char} (hd : digit = '0' ∨ digit = '1') :
    inplaceReplace (mapLine '0') (mapLine '1') (userLines digit policies) =
      userLines '1' policies := by
  have hmap : Text.replace (mapLine '0') (mapLine '1') (mapLine digit ++ ['\n']) =
      mapLine '1' ++ ['\n'] := by
    rcases hd with rfl | rfl <;> rfl
  have hother (line : Text) (h : '#' ∉ line) :
      Text.replace (mapLine '0') (mapLine '1') line = line :=
    Text.replace_of_not_mem (d := '#') h
  have hpin : '#' ∉ ", ".toList.intercalate (policies.map fun p => quoted p.pin) := by
    refine Text.not_mem_intercalate (by decide) fun t ht => ?_
    obtain ⟨p, hp, rfl⟩ := List.mem_map.1 ht
    simp only [quoted, Policy.pin, List.mem_cons, List.mem_append, not_or]
    exact ⟨by decide, ⟨by decide, hname p hp⟩, by decide, by simp⟩
  have hdigits := (readCount_toDigits policies.length hn).2.1
  simp only [inplaceReplace, userLines, List.map_cons, List.map_nil, hmap]
  rw [hother _ (by simp only [List.mem_append, not_or]; exact ⟨by decide, hpin, by decide⟩),
    hother _ (by simp only [List.mem_append, not_or]; exact ⟨by decide, hdigits, by decide⟩)]

theorem checkImpl_userLines {policies : List Policy} (hn : policies.length ≤ MAX_NUM_POLICY)
    (hname : ∀ p ∈ policies, '#' ∉ p.name) {digit : Char} (hd : digit = '0' ∨ digit = '1')
    (h : checkImpl sections (userLines digit policies) = some user') :
    user' = userLines (mapDigit sections digit) policies := by
  induction sections generalizing digit with
  | nil =>
    cases h
    rfl
  | cons sec sections ih =>
    rw [checkImpl, List.foldlM_cons] at h
    obtain ⟨user₁, hsec, hrest⟩ := Option.bind_eq_some_iff.1 h
    rcases checkSection_cases hsec with ⟨hmaps, rfl⟩ | ⟨hmaps, -, rfl⟩
    · rw [inplaceReplace_userLines hn hname hd] at hrest
      rw [ih (.inr rfl) hrest]
      simp [mapDigit, hmaps]
    · rw [ih hd hrest]
      simp [mapDigit, hmaps]

end Check

end Bpf
end SynCord
