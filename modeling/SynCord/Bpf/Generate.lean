import SynCord.Text

/-!
# SynCord.Bpf.Generate

How `EBPF_GEN._ready_impl` makes the two programs of a policy out of its files: the contents of the
map file and of the policy files go into `skeleton_kern.c`, and the paths to pin the programs at go
into `skeleton_user.c` as the initialiser of an array of strings.

* `getSection_readyKern` — the sections that the source for the kernel names, in their order. A
  `SEC("...")` stands on one line, so none arises where two files meet.
* `compileUser_userLines` — the strings that the compiler reads off the initialiser are the paths
  that were printed into it.
-/

namespace SynCord
namespace Bpf

/-! ## Section names -/

def secOpen : Text := "SEC(\"".toList

/-- What the `.*?` of the pattern matches: as little as possible, and no newline. -/
def shortest : Text → Option Text
  | [] => none
  | c :: cs =>
    if c = '"' ∧ cs.head? = some ')' then some []
    else if c = '\n' then none
    else (shortest cs).map (c :: ·)

def matchSec (t : Text) : Option Text :=
  if secOpen.isPrefixOf t then shortest (t.drop secOpen.length) else none

/-- `skip` counts the characters of the last match that are still to be passed over. -/
def findSec : Nat → Text → List Text
  | _, [] => []
  | skip + 1, _ :: cs => findSec skip cs
  | 0, c :: cs =>
    match matchSec (c :: cs) with
    | some name => name :: findSec (name.length + 6) cs
    | none => findSec 0 cs

/-- `re.findall('SEC\(\"(.*?)\"\)', text)` -/
def getSection (text : Text) : List Text := findSec 0 text

theorem shortest_newline (t rest : Text) : shortest (t ++ '\n' :: rest) = shortest t := by
  induction t with
  | nil => rfl
  | cons c t ih =>
    have hhead : (t ++ '\n' :: rest).head? = some ')' ↔ t.head? = some ')' := by
      cases t <;> simp
    rw [List.cons_append, shortest, shortest, ih]
    simp only [hhead]

theorem matchSec_newline (t rest : Text) : matchSec (t ++ '\n' :: rest) = matchSec t := by
  rw [matchSec, matchSec, Text.prefix_before_newline (by decide)]
  by_cases h : secOpen.isPrefixOf t = true
  · have hlen := (List.isPrefixOf_iff_prefix.1 h).length_le
    rw [if_pos h, if_pos h, List.drop_append_of_le_length hlen, shortest_newline]
  · rw [if_neg h, if_neg h]

theorem shortest_length {t name : Text} (h : shortest t = some name) :
    name.length + 2 ≤ t.length := by
  induction t generalizing name with
  | nil => cases h
  | cons c t ih =>
    rw [shortest] at h
    split at h
    · rename_i hc
      cases h
      cases t with
      | nil => cases hc.2
      | cons => simp
    · split at h
      · cases h
      · obtain ⟨n, hn, rfl⟩ := Option.map_eq_some_iff.1 h
        have := ih hn
        simp only [List.length_cons]
        omega

theorem matchSec_length {t name : Text} (h : matchSec t = some name) :
    name.length + 7 ≤ t.length := by
  rw [matchSec] at h
  split at h
  · have := shortest_length h
    rw [List.length_drop, show secOpen.length = 5 from by decide] at this
    omega
  · cases h

/-- The rest of a match never reaches beyond the line, so `skip` is used up before its end. -/
theorem findSec_newline (a b : Text) {skip : Nat} (h : skip ≤ a.length) :
    findSec skip (a ++ '\n' :: b) = findSec skip a ++ findSec 0 b := by
  induction a generalizing skip with
  | nil =>
    obtain rfl : skip = 0 := Nat.le_zero.1 h
    have hm : matchSec ('\n' :: b) = none := matchSec_newline [] b
    have hb : findSec 0 ('\n' :: b) = findSec 0 b := by rw [findSec, hm]
    rw [List.nil_append, hb]
    rfl
  | cons c a ih =>
    cases skip with
    | succ skip => exact ih (Nat.le_of_succ_le_succ h)
    | zero =>
      have hm : matchSec (c :: (a ++ '\n' :: b)) = matchSec (c :: a) :=
        matchSec_newline (c :: a) b
      rw [List.cons_append, findSec, findSec, hm]
      cases hs : matchSec (c :: a) with
      | none => exact ih (Nat.zero_le _)
      | some name =>
        have := matchSec_length hs
        rw [List.length_cons] at this
        exact congrArg (name :: ·) (ih (by omega))

theorem getSection_newline (a b : Text) :
    getSection (a ++ '\n' :: b) = getSection a ++ getSection b :=
  findSec_newline a b (Nat.zero_le _)

theorem getSection_join (l : List Text) :
    getSection (['\n'].intercalate l) = l.flatMap getSection := by
  induction l with
  | nil => rfl
  | cons a l ih =>
    cases l with
    | nil => simp [List.intercalate]
    | cons b l =>
      have : ['\n'].intercalate (a :: b :: l) = a ++ '\n' :: ['\n'].intercalate (b :: l) := by
        simp [List.intercalate]
      rw [this, getSection_newline, ih]
      rfl

/-! ## The generated sources -/

structure Policy where
  path : Text
  contents : Text

/-- `os.path.basename` -/
def basename (path : Text) : Text := (path.reverse.takeWhile (· ≠ '/')).reverse

/-- `os.path.splitext(basename)[0]`: dots at the beginning start no extension. -/
def splitext (base : Text) : Text :=
  let root := base.take (base.length - (base.reverse.takeWhile (· ≠ '.')).length - 1)
  if '.' ∈ base ∧ root.any (· ≠ '.') then root else base

def POLICY_PIN : Text := "/sys/fs/bpf/".toList

def Policy.name (p : Policy) : Text := splitext (basename p.path)

def Policy.pin (p : Policy) : Text := POLICY_PIN ++ p.name

/-- A file is given by its lines. -/
def inplaceReplace (needle new : Text) (lines : List Text) : List Text :=
  lines.map (Text.replace needle new)

def apiContents : Text := "$\x7bAPI_CONTENTS\x7d".toList

def numPolicy : Text := "$\x7bNUM_POLICY\x7d".toList

def policyList : Text := "$\x7bPOLICY_LIST\x7d".toList

/-- Without the newlines at the ends. -/
def skeletonKern : List Text :=
  ["#include <uapi/linux/bpf.h>".toList,
    "#include \"bpf_helpers.h\"".toList,
    "#include \"concord.h\"".toList,
    [],
    apiContents,
    [],
    "char _license[] SEC(\"license\") = \"GPL\";".toList]

def mapOpen : Text := "#define MAP ".toList

/-- Whether the map is to be pinned. -/
def mapLine (digit : Char) : Text := mapOpen ++ [digit]

def namesOpen : Text := "\tchar *policy_name[MAX_NUM_POLICY] = \x7b".toList

def namesEnd : Text := "\x7d;\n".toList

def loopOpen : Text := "\tfor(i = 0; i <".toList

def loopEnd : Text := "; i++)\x7b\n".toList

/-- The lines of `skeleton_user.c` that are filled in. The others are in `main`. -/
def skeletonUser : List Text :=
  [mapLine '0' ++ ['\n'], namesOpen ++ (policyList ++ namesEnd),
    loopOpen ++ (numPolicy ++ loopEnd)]

/-- The source for the kernel. -/
def readyKern (mapFile : Option Text) (policies : List Policy) : Text :=
  let contents := mapFile.toList ++ policies.map Policy.contents
  (inplaceReplace apiContents (['\n'].intercalate contents)
    (skeletonKern.map (· ++ ['\n']))).flatten

def quoted (t : Text) : Text := '"' :: (t ++ ['"'])

/-- The lines of the user program. -/
def readyUser (policies : List Policy) : List Text :=
  let user := inplaceReplace numPolicy (Nat.toDigits 10 policies.length) skeletonUser
  inplaceReplace policyList (", ".toList.intercalate (policies.map fun p => quoted p.pin)) user

/-- The lines of the source for the kernel, with what is filled in for one of them. -/
def kernLines (contents : Text) : List Text :=
  ["#include <uapi/linux/bpf.h>".toList, "#include \"bpf_helpers.h\"".toList,
    "#include \"concord.h\"".toList, [], contents, [],
    "char _license[] SEC(\"license\") = \"GPL\";".toList]

theorem readyKern_eq (mapFile : Option Text) (policies : List Policy) :
    readyKern mapFile policies = ((kernLines (['\n'].intercalate
      (mapFile.toList ++ policies.map Policy.contents))).map (· ++ ['\n'])).flatten := by
  set new := ['\n'].intercalate (mapFile.toList ++ policies.map Policy.contents) with hnew
  have hmark : Text.replace apiContents new (apiContents ++ ['\n']) = new ++ ['\n'] :=
    Text.replace_once (d := '$') [] ['\n'] (by decide) (by decide)
  have hother (line : Text) (h : '$' ∉ line) :
      Text.replace apiContents new (line ++ ['\n']) = line ++ ['\n'] := by
    refine Text.replace_of_not_mem (d := '$') ?_
    rw [List.mem_append, not_or]
    exact ⟨h, by decide⟩
  simp only [readyKern, inplaceReplace, skeletonKern, kernLines, List.map_cons, List.map_nil]
  rw [← hnew, hmark, hother _ (by decide), hother _ (by decide), hother _ (by decide),
    hother _ (by decide), hother _ (by decide)]

theorem getSection_lines (bodies : List Text) :
    getSection (bodies.map (· ++ ['\n'])).flatten = bodies.flatMap getSection := by
  induction bodies with
  | nil => rfl
  | cons a bodies ih =>
    rw [List.map_cons, List.flatten_cons, List.append_assoc, List.singleton_append,
      getSection_newline, ih]
    rfl

/-- The sections of the map file, of the policies one after the other, and the licence. -/
theorem getSection_readyKern (mapFile : Option Text) (policies : List Policy) :
    getSection (readyKern mapFile policies) =
      (mapFile.toList ++ policies.map Policy.contents).flatMap getSection ++
        ["license".toList] := by
  rw [readyKern_eq, getSection_lines]
  simp only [kernLines, List.flatMap_cons, List.flatMap_nil, getSection_join]
  rw [show getSection "#include <uapi/linux/bpf.h>".toList = [] from by decide,
    show getSection "#include \"bpf_helpers.h\"".toList = [] from by decide,
    show getSection "#include \"concord.h\"".toList = [] from by decide,
    show getSection "char _license[] SEC(\"license\") = \"GPL\";".toList =
      ["license".toList] from by decide]
  rfl

/-! ## The user program -/

/-- Where the compiler is in the initialiser. -/
inductive Reading where
  | start
  /-- In a string, with its characters so far, the last first. -/
  | string (acc : Text)
  | after

/-- The strings of an initialiser, from behind its opening brace. A newline ends a string with an
error; escapes are not read. -/
def readInit : Reading → Text → Option (List Text)
  | _, [] => none
  | .start, c :: t =>
    if c = '"' then readInit (.string []) t
    else if c = ' ' then readInit .start t
    else if c = '\x7d' then some []
    else none
  | .string acc, c :: t =>
    if c = '"' then (readInit .after t).map (acc.reverse :: ·)
    else if c = '\n' ∨ c = '\\' then none
    else readInit (.string (c :: acc)) t
  | .after, c :: t =>
    if c = ',' then readInit .start t
    else if c = ' ' then readInit .after t
    else if c = '\x7d' then some []
    else none

/-- The number before the semicolon. -/
def readCount (t : Text) : Option Nat :=
  let digits := t.takeWhile Char.isDigit
  if digits ≠ [] ∧ (t.drop digits.length).head? = some ';' then
    some (digits.foldl (fun n d => 10 * n + (d.toNat - '0'.toNat)) 0)
  else none

/-- What the user program is given by. -/
structure UserProg where
  map : Bool
  policyName : List Text
  numPolicy : Nat

/-- What stands behind the opening of a line. -/
def behind (opening t : Text) : Option Text :=
  if opening.isPrefixOf t then some (t.drop opening.length) else none

/-- The value of `MAP`. -/
def readMap : Text → Option Bool
  | ['0', '\n'] => some false
  | ['1', '\n'] => some true
  | _ => none

def compileUser : List Text → Option UserProg
  | [map, names, loop] => do
    let map ← (behind mapOpen map).bind readMap
    let policyName ← (behind namesOpen names).bind (readInit .start)
    let numPolicy ← (behind loopOpen loop).bind readCount
    return ⟨map, policyName, numPolicy⟩
  | _ => none

abbrev MAX_NUM_POLICY : Nat := 5

theorem readInit_string {s : Text} (hq : '"' ∉ s) (hb : '\\' ∉ s) (acc t : Text) :
    readInit (.string acc) (s ++ '"' :: t) =
      if '\n' ∈ s then none else (readInit .after t).map ((acc.reverse ++ s) :: ·) := by
  induction s generalizing acc with
  | nil => simp [readInit]
  | cons c s ih =>
    rw [List.mem_cons, not_or] at hq hb
    rw [List.cons_append, readInit, if_neg (Ne.symm hq.1)]
    by_cases hc : c = '\n'
    · rw [if_pos (.inl hc), if_pos (by simp [hc])]
    · rw [if_neg (by simp [hc, Ne.symm hb.1]), ih hq.2 hb.2]
      simp [Ne.symm hc]

/-- The strings are read back unless there is a newline in one. -/
theorem readInit_quoted {names : List Text} (h : ∀ s ∈ names, '"' ∉ s ∧ '\\' ∉ s) (t : Text) :
    readInit .start (", ".toList.intercalate (names.map quoted) ++ '\x7d' :: t) =
      if ∃ s ∈ names, '\n' ∈ s then none else some names := by
  induction names with
  | nil => rfl
  | cons s names ih =>
    obtain ⟨hq, hb⟩ := h s (by simp)
    have hrest := ih fun x hx => h x (by simp [hx])
    -- behind a string comes the end, or a comma, a blank and the next string
    have hstart (rest : Text) : readInit .start (quoted s ++ rest) =
        if '\n' ∈ s then none else (readInit .after rest).map (s :: ·) := by
      rw [quoted, List.cons_append, readInit, if_pos rfl, List.append_assoc,
        List.singleton_append, readInit_string hq hb]
      rfl
    cases names with
    | nil =>
      have hone : ", ".toList.intercalate ([s].map quoted) = quoted s := by
        simp [List.intercalate]
      rw [hone, hstart]
      simp [readInit]
    | cons x names =>
      have hmore : ", ".toList.intercalate ((s :: x :: names).map quoted) =
          quoted s ++ (',' :: ' ' :: ", ".toList.intercalate ((x :: names).map quoted)) := by
        simp [List.intercalate]
      rw [hmore, List.append_assoc, hstart]
      have hcomma : readInit .after ((',' :: ' ' :: ", ".toList.intercalate
          ((x :: names).map quoted)) ++ '\x7d' :: t) =
          if ∃ s ∈ x :: names, '\n' ∈ s then none else some (x :: names) := hrest
      rw [hcomma]
      by_cases hs : '\n' ∈ s
      · simp [hs]
      · by_cases hx : ∃ s ∈ x :: names, '\n' ∈ s
        · have hx' : ∃ y ∈ s :: x :: names, '\n' ∈ y := by
            obtain ⟨y, hy, hn⟩ := hx
            exact ⟨y, List.mem_cons_of_mem _ hy, hn⟩
          rw [if_neg hs, if_pos hx, if_pos hx']
          rfl
        · rw [if_neg hs, if_neg hx, if_neg (by simpa [hs] using hx)]
          rfl

theorem behind_append (opening t : Text) : behind opening (opening ++ t) = some t := by
  rw [behind, if_pos (List.isPrefixOf_iff_prefix.2 (List.prefix_append opening t)),
    List.drop_left]

/-- The user program, with what is filled in. -/
def userLines (digit : Char) (policies : List Policy) : List Text :=
  [mapLine digit ++ ['\n'],
    namesOpen ++ (", ".toList.intercalate (policies.map fun p => quoted p.pin) ++ namesEnd),
    loopOpen ++ (Nat.toDigits 10 policies.length ++ loopEnd)]

theorem readyUser_eq (policies : List Policy)
    (hd : '$' ∉ Nat.toDigits 10 policies.length) : readyUser policies = userLines '0' policies := by
  have hnames (new : Text) : Text.replace numPolicy new (namesOpen ++ (policyList ++ namesEnd)) =
      namesOpen ++ (policyList ++ namesEnd) :=
    (Text.replace_append (d := '$') (by decide) _).trans
      (congrArg (namesOpen ++ ·) (Text.replace_eq_self (by decide)))
  have hlist (new : Text) : Text.replace policyList new (namesOpen ++ (policyList ++ namesEnd)) =
      namesOpen ++ (new ++ namesEnd) :=
    Text.replace_once (d := '$') namesOpen namesEnd (by decide) (by decide)
  have hnum (new : Text) : Text.replace numPolicy new (loopOpen ++ (numPolicy ++ loopEnd)) =
      loopOpen ++ (new ++ loopEnd) :=
    Text.replace_once (d := '$') loopOpen loopEnd (by decide) (by decide)
  have hloop (new : Text) : Text.replace policyList new
      (loopOpen ++ (Nat.toDigits 10 policies.length ++ loopEnd)) =
        loopOpen ++ (Nat.toDigits 10 policies.length ++ loopEnd) := by
    refine Text.replace_of_not_mem (d := '$') ?_
    simp only [List.mem_append, not_or]
    exact ⟨by decide, hd, by decide⟩
  have hmap : ∀ needle ∈ [numPolicy, policyList], ∀ new,
      Text.replace needle new (mapLine '0' ++ ['\n']) = mapLine '0' ++ ['\n'] := by
    intro needle hneedle new
    rw [List.mem_pair] at hneedle
    rcases hneedle with rfl | rfl <;> exact Text.replace_of_not_mem (d := '$') (by decide)
  simp only [readyUser, inplaceReplace, skeletonUser, List.map_cons, List.map_nil, userLines]
  rw [hnames, hlist, hnum, hloop, hmap _ (by simp), hmap _ (by simp)]

theorem readCount_toDigits : ∀ n ≤ MAX_NUM_POLICY, '$' ∉ Nat.toDigits 10 n ∧
    '#' ∉ Nat.toDigits 10 n ∧ readCount (Nat.toDigits 10 n ++ loopEnd) = some n := by
  decide

theorem compileUser_userLines {policies : List Policy} (hn : policies.length ≤ MAX_NUM_POLICY)
    (hfree : ∀ p ∈ policies, '"' ∉ p.name ∧ '\\' ∉ p.name) {digit : Char}
    (hd : digit = '0' ∨ digit = '1') {prog : UserProg}
    (h : compileUser (userLines digit policies) = some prog) :
    prog = ⟨digit == '1', policies.map Policy.pin, policies.length⟩ := by
  have hdigits := readCount_toDigits policies.length hn
  have hpins : ∀ s ∈ policies.map Policy.pin, '"' ∉ s ∧ '\\' ∉ s := by
    intro s hs
    obtain ⟨p, hp, rfl⟩ := List.mem_map.1 hs
    obtain ⟨hq, hb⟩ := hfree p hp
    simp only [Policy.pin, List.mem_append, not_or]
    exact ⟨⟨by decide, hq⟩, by decide, hb⟩
  have hnames := readInit_quoted hpins ";\n".toList
  rw [List.map_map] at hnames
  have hlist : readInit .start
      (", ".toList.intercalate (policies.map fun p => quoted p.pin) ++ namesEnd) =
        if ∃ s ∈ policies.map Policy.pin, '\n' ∈ s then none
        else some (policies.map Policy.pin) := hnames
  rw [userLines, mapLine, List.append_assoc, compileUser, behind_append, behind_append,
    behind_append, Option.bind_some, Option.bind_some, Option.bind_some, hdigits.2.2, hlist] at h
  split at h
  · rcases hd with rfl | rfl <;> cases h
  · rcases hd with rfl | rfl <;> cases h <;> rfl

theorem compileUser_readyUser {policies : List Policy} (hn : policies.length ≤ MAX_NUM_POLICY)
    (hfree : ∀ p ∈ policies, '"' ∉ p.name ∧ '\\' ∉ p.name) {prog : UserProg}
    (h : compileUser (readyUser policies) = some prog) :
    prog = ⟨false, policies.map Policy.pin, policies.length⟩ := by
  rw [readyUser_eq policies (readCount_toDigits policies.length hn).1] at h
  exact compileUser_userLines hn hfree (.inl rfl) h

end Bpf
end SynCord
