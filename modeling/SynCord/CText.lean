import SynCord.Strings

/-!
# SynCord.CText

C texts as the tokens they are made of, each with the number of its line. Comments are passed over,
also those of several lines, and so are the lines for the preprocessor.

* `tokens_join` — texts that end outside of comments and literals can be read one by one, with a
  line end between them.
* `lines_le_lex` — tokens come in the order of their lines.
* `callAt`, `calls` — a word before a parenthesis, with the tokens up to the one that closes it.
* `Defines` — the body of a function, between the braces behind its name.
-/

namespace SynCord
namespace CText

open Text

/-! ## Tokens -/

inductive Token where
  /-- An identifier, a keyword or a number. -/
  | word (name : Text)
  /-- What stands between two quotes. -/
  | literal (quote : Char) (text : Text)
  | mark (c : Char)
  deriving DecidableEq

/-- What the next character is part of. The last character that was read comes first. -/
inductive Mode where
  | code
  | word (read : Text)
  /-- A slash, which may open a comment. -/
  | slash
  /-- A backslash, which may continue the line. -/
  | backslash
  | lineComment
  | lineEscape
  | comment
  /-- A star, which may close the comment. -/
  | star
  | literal (quote : Char) (read : Text)
  | escape (quote : Char) (read : Text)
  deriving DecidableEq

structure State where
  mode : Mode
  /-- There has been nothing on the line. -/
  fresh : Bool
  /-- The line is for the preprocessor. -/
  directive : Bool
  deriving DecidableEq

namespace State

/-- Where a line begins. -/
def start : State := ⟨.code, true, false⟩

/-- A character of the code that goes on with nothing. -/
def enter (s : State) (c : Char) : State × List Token :=
  if isWord c then ({ s with mode := .word [c], fresh := false }, [])
  else if c = '/' then ({ s with mode := .slash }, [])
  else if c = '\x22' ∨ c = '\x27' then ({ s with mode := .literal c [], fresh := false }, [])
  else if c = '\\' then ({ s with mode := .backslash }, [])
  else if c = '\n' then (start, [])
  else if isSpace c then ({ s with mode := .code }, [])
  else if c = '#' ∧ s.fresh then (⟨.code, false, true⟩, [])
  else ({ s with mode := .code, fresh := false }, [.mark c])

/-- A token has ended before the character. -/
def leave (s : State) (t : Token) (c : Char) : State × List Token :=
  let r := { s with fresh := false }.enter c
  (r.1, t :: r.2)

def read (s : State) (c : Char) : State × List Token :=
  match s.mode with
  | .code => s.enter c
  | .word read =>
    if isWord c then ({ s with mode := .word (c :: read) }, []) else s.leave (.word read.reverse) c
  | .slash =>
    if c = '/' then ({ s with mode := .lineComment }, [])
    else if c = '*' then ({ s with mode := .comment }, [])
    else s.leave (.mark '/') c
  | .backslash => if c = '\n' then ({ s with mode := .code }, []) else s.enter c
  | .lineComment =>
    if c = '\n' then (start, [])
    else if c = '\\' then ({ s with mode := .lineEscape }, [])
    else (s, [])
  | .lineEscape => ({ s with mode := .lineComment }, [])
  | .comment => if c = '*' then ({ s with mode := .star }, []) else (s, [])
  | .star =>
    if c = '/' then ({ s with mode := .code }, [])
    else if c = '*' then (s, [])
    else ({ s with mode := .comment }, [])
  | .literal quote read =>
    if c = '\\' then ({ s with mode := .escape quote read }, [])
    else if c = '\n' then (start, [])
    else if c = quote then ({ s with mode := .code }, [.literal quote read.reverse])
    else ({ s with mode := .literal quote (c :: read) }, [])
  | .escape quote read => ({ s with mode := .literal quote (c :: '\\' :: read) }, [])

/-- The tokens that end with the character. Those of a line for the preprocessor are left out. -/
def out (s : State) (c : Char) : List Token := if s.directive then [] else (s.read c).2

/-- The tokens that the end of the text ends. -/
def last (s : State) : List Token :=
  if s.directive then []
  else
    match s.mode with
    | .word read => [.word read.reverse]
    | .slash => [.mark '/']
    | _ => []

def run (s : State) (t : Text) : State := t.foldl (fun s c => (s.read c).1) s

end State

structure Located where
  line : Nat
  token : Token
  deriving DecidableEq

def nextLine (c : Char) (line : Nat) : Nat := if c = '\n' then line + 1 else line

def lexFrom : State → Nat → Text → List Located
  | s, line, [] => s.last.map (Located.mk line)
  | s, line, c :: t =>
    (s.out c).map (Located.mk line) ++ lexFrom (s.read c).1 (nextLine c line) t

/-- The tokens of a text. Lines are counted from 0. -/
def lex (t : Text) : List Located := lexFrom .start 0 t

def tokensFrom : State → Text → List Token
  | s, [] => s.last
  | s, c :: t => s.out c ++ tokensFrom (s.read c).1 t

def tokens (t : Text) : List Token := tokensFrom .start t

/-- The text ends outside of comments and literals, and its last line is not continued. -/
def Closed (t : Text) : Prop := State.start.run (t ++ ['\n']) = .start

instance (t : Text) : Decidable (Closed t) := inferInstanceAs (Decidable (_ = _))

/-- The end of a line ends the same tokens as the end of the text. -/
theorem State.out_newline (s : State) : s.out '\n' = s.last := by
  have hident : isWord '\n' = false := by decide
  have henter : ∀ s : State, s.enter '\n' = (.start, []) := by
    intro s
    simp [State.enter, hident]
  rw [State.out, State.last]
  split
  · rfl
  · cases hm : s.mode with
    | code | backslash | lineComment | lineEscape | comment | star | literal | escape =>
      simp [State.read, hm, henter]
    | word | slash => simp [State.read, hm, State.leave, hident, henter]

theorem tokensFrom_newline (s : State) (a b : Text) :
    tokensFrom s (a ++ '\n' :: b) = tokensFrom s a ++ tokensFrom (s.run (a ++ ['\n'])) b := by
  induction a generalizing s with
  | nil => simp [tokensFrom, State.run, State.out_newline]
  | cons c a ih => simp [tokensFrom, State.run, ih]

theorem tokens_newline {a : Text} (h : Closed a) (b : Text) :
    tokens (a ++ '\n' :: b) = tokens a ++ tokens b := by
  rw [tokens, tokensFrom_newline, h]
  rfl

theorem closed_newline {a b : Text} (ha : Closed a) (hb : Closed b) : Closed (a ++ '\n' :: b) := by
  have hsplit : (a ++ '\n' :: b) ++ ['\n'] = (a ++ ['\n']) ++ (b ++ ['\n']) := by simp
  have hrun : State.start.run ((a ++ ['\n']) ++ (b ++ ['\n'])) =
      (State.start.run (a ++ ['\n'])).run (b ++ ['\n']) := List.foldl_append ..
  rw [Closed, hsplit, hrun, ha]
  exact hb

section Join

variable {l : List Text}

theorem closed_join (h : ∀ t ∈ l, Closed t) : Closed (['\n'].intercalate l) := by
  induction l with
  | nil => decide
  | cons a l ih =>
    rw [List.forall_mem_cons] at h
    cases l with
    | nil => simpa [List.intercalate] using h.1
    | cons b l =>
      rw [List.intercalate_cons_cons, List.append_assoc, List.singleton_append]
      exact closed_newline h.1 (ih h.2)

theorem tokens_join (h : ∀ t ∈ l, Closed t) :
    tokens (['\n'].intercalate l) = l.flatMap tokens := by
  induction l with
  | nil => rfl
  | cons a l ih =>
    rw [List.forall_mem_cons] at h
    cases l with
    | nil => simp [List.intercalate]
    | cons b l =>
      rw [List.intercalate_cons_cons, List.append_assoc, List.singleton_append,
        tokens_newline h.1, ih h.2]
      rfl

theorem tokens_lines (h : ∀ t ∈ l, Closed t) :
    tokens (l.map (· ++ ['\n'])).flatten = l.flatMap tokens := by
  induction l with
  | nil => rfl
  | cons a l ih =>
    rw [List.forall_mem_cons] at h
    rw [List.map_cons, List.flatten_cons, List.append_assoc, List.singleton_append,
      tokens_newline h.1, ih h.2]
    rfl

end Join

section Lines

variable {s : State} {line : Nat} {t : Text}

theorem le_nextLine (c : Char) (line : Nat) : line ≤ nextLine c line := by
  rw [nextLine]
  split <;> omega

theorem le_line_of_mem_lexFrom {x : Located} (h : x ∈ lexFrom s line t) : line ≤ x.line := by
  induction t generalizing s line with
  | nil =>
    obtain ⟨_, _, rfl⟩ := List.mem_map.1 h
    exact le_refl _
  | cons c t ih =>
    rcases List.mem_append.1 h with h | h
    · obtain ⟨_, _, rfl⟩ := List.mem_map.1 h
      exact le_refl _
    · exact (le_nextLine c line).trans (ih h)

theorem lines_le_lexFrom : (lexFrom s line t).Pairwise (·.line ≤ ·.line) := by
  induction t generalizing s line with
  | nil =>
    exact List.pairwise_map.2 (List.pairwise_of_forall fun _ _ => le_refl line)
  | cons c t ih =>
    refine List.pairwise_append.2 ⟨?_, ih, ?_⟩
    · exact List.pairwise_map.2 (List.pairwise_of_forall fun _ _ => le_refl line)
    · intro x hx y hy
      obtain ⟨_, _, rfl⟩ := List.mem_map.1 hx
      exact (le_nextLine c line).trans (le_line_of_mem_lexFrom hy)

theorem lines_le_lex (t : Text) : (lex t).Pairwise (·.line ≤ ·.line) := lines_le_lexFrom

end Lines

/-! ## Calls -/

def keywords : List Text :=
  ["auto", "break", "case", "char", "const", "continue", "default", "do", "double", "else", "enum",
    "extern", "float", "for", "goto", "if", "inline", "int", "long", "register", "restrict",
    "return", "short", "signed", "sizeof", "static", "struct", "switch", "typedef", "union",
    "unsigned", "void", "volatile", "while", "_Alignof", "_Bool", "_Generic", "_Static_assert",
    "typeof", "__typeof__", "asm", "__asm__", "__attribute__"].map String.toList

/-- Words that may be the name of a function. -/
def isName (w : Text) : Bool := !w.head?.any Char.isDigit && !keywords.contains w

/-- Up to the parenthesis that closes `depth` more than have been opened. -/
def argument : Nat → List Token → List Token
  | _, [] => []
  | depth, t :: ts =>
    if t = .mark '(' then t :: argument (depth + 1) ts
    else if t = .mark ')' then
      match depth with
      | 0 => []
      | depth + 1 => t :: argument depth ts
    else t :: argument depth ts

/-- What follows `type (` in a cast to a pointer to functions. -/
def isPointer (ts : List Token) : Bool := ts.take 2 == [.mark '*', .mark ')']

/-- The name that is called where the first token stands. -/
def nameAt : List Token → Option Text
  | .word name :: t :: rest =>
    if t = .mark '(' ∧ isName name = true ∧ isPointer rest = false then some name else none
  | _ => none

/-- The names that are called, in their order. -/
def called : List Token → List Text
  | [] => []
  | t :: ts => (nameAt (t :: ts)).toList ++ called ts

structure Call where
  name : Text
  arg : List Token
  line : Nat
  deriving DecidableEq

/-- The call that begins with the first token. -/
def callAt : List Located → Option Call
  | [] => none
  | t :: ts => (nameAt (t.token :: ts.map Located.token)).map fun name =>
    ⟨name, argument 0 ((ts.drop 1).map Located.token), t.line⟩

def calls : List Located → List Call
  | [] => []
  | t :: ts => (callAt (t :: ts)).toList ++ calls ts

example : (calls (lex "\tif (x) spin_lock (\n\t\t&f(a)->l); /* g(x) */".toList)).map
    (fun c => (c.name, c.line)) = [("spin_lock".toList, 0), ("f".toList, 1)] := by decide

section Calls

variable {ts : List Located} {c : Call}

theorem line_callAt {t : Located} (h : callAt (t :: ts) = some c) : c.line = t.line := by
  obtain ⟨name, _, rfl⟩ := Option.map_eq_some_iff.1 h
  rfl

theorem exists_token_of_mem_calls (h : c ∈ calls ts) : ∃ t ∈ ts, t.line = c.line := by
  induction ts with
  | nil => cases h
  | cons t ts ih =>
    rcases List.mem_append.1 h with h | h
    · exact ⟨t, List.mem_cons_self, (line_callAt (Option.mem_toList.1 h)).symm⟩
    · obtain ⟨x, hx, hline⟩ := ih h
      exact ⟨x, List.mem_cons_of_mem t hx, hline⟩

/-- Calls come in the order of their lines. -/
theorem lines_le_calls (h : ts.Pairwise (·.line ≤ ·.line)) :
    (calls ts).Pairwise (·.line ≤ ·.line) := by
  induction ts with
  | nil => exact .nil
  | cons t ts ih =>
    rw [List.pairwise_cons] at h
    rw [calls]
    cases hc : callAt (t :: ts) with
    | none => exact ih h.2
    | some c =>
      refine List.pairwise_cons.2 ⟨fun c' hc' => ?_, ih h.2⟩
      obtain ⟨x, hx, hline⟩ := exists_token_of_mem_calls hc'
      rw [line_callAt hc, ← hline]
      exact h.1 x hx

end Calls

/-! ## Parts of a line -/

/-- Where a line goes on. -/
def State.inside : State := ⟨.code, false, false⟩

/-- What is called in a text that does not begin a line. -/
def names (t : Text) : List Text := called (tokensFrom .inside t)

/-- Behind the token nothing belongs to a call that began before. -/
def Token.ends : Token → Bool
  | .word _ => false
  | .literal _ _ => true
  | .mark c => c != '(' && c != '*'

/-- The text ends outside of comments, literals and words, and not with the beginning of a call. -/
def Sealed (t : Text) : Prop :=
  State.inside.run t = .inside ∧ (tokensFrom .inside t).getLast?.all Token.ends = true

instance (t : Text) : Decidable (Sealed t) := inferInstanceAs (Decidable (_ ∧ _))

/-- Outside of comments, literals and lines for the preprocessor. -/
def State.outside (s : State) : Bool :=
  match s.mode with
  | .code | .word _ | .slash | .backslash => !s.directive
  | _ => false

/-- The text ends outside of comments and literals. -/
def EndsInCode (t : Text) : Prop := (State.inside.run t).outside = true

instance (t : Text) : Decidable (EndsInCode t) := inferInstanceAs (Decidable (_ = _))

def separators : List Char := [';', '\x7b', '\x7d']

section Parts

variable {s : State} {a : Text} {xs : List Token}

theorem tokensFrom_append (h : (s.run a).last = []) (b : Text) :
    tokensFrom s (a ++ b) = tokensFrom s a ++ tokensFrom (s.run a) b := by
  induction a generalizing s with
  | nil =>
    have hlast : s.last = [] := h
    simp [tokensFrom, hlast, State.run]
  | cons c a ih =>
    have hrest := ih (s := (s.read c).1) h
    simp [tokensFrom, hrest, State.run]

/-- What is called before a token that ends it is called whatever follows. -/
theorem called_append (h : xs.getLast?.all Token.ends = true) (ys : List Token) :
    called (xs ++ ys) = called xs ++ called ys := by
  induction xs with
  | nil => rfl
  | cons x xs ih =>
    have hname : nameAt (x :: (xs ++ ys)) = nameAt (x :: xs) := by
      cases x with
      | literal | mark => rfl
      | word name =>
        match xs, h with
        | [y], h =>
          have hy : y ≠ .mark '(' := by
            rintro rfl
            cases h
          cases ys <;> simp [nameAt, hy]
        | [y, z], h =>
          have hz : z ≠ .mark '*' := by
            rintro rfl
            cases h
          simp [nameAt, isPointer, hz]
        | y :: z :: w :: xs, _ => rfl
    have hlast : xs.getLast?.all Token.ends = true := by
      cases xs with
      | nil => rfl
      | cons y xs => simpa using h
    rw [List.cons_append, called, called, hname, ih hlast, List.append_assoc]

theorem names_append (h : Sealed a) (b : Text) : names (a ++ b) = names a ++ names b := by
  have hlast : (State.inside.run a).last = [] := by
    rw [h.1]
    rfl
  rw [names, tokensFrom_append hlast, h.1, called_append h.2]
  rfl

theorem names_flatten {l : List Text} (h : ∀ t ∈ l.dropLast, Sealed t) :
    names l.flatten = l.flatMap names := by
  induction l with
  | nil => rfl
  | cons a l ih =>
    cases l with
    | nil => simp
    | cons b l =>
      rw [List.dropLast_cons_cons, List.forall_mem_cons] at h
      rw [List.flatten_cons, names_append h.1, ih h.2]
      rfl

/-- A separator ends what has been read. -/
theorem State.read_separator {c : Char} (hc : c ∈ separators) (h : s.outside = true) :
    (s.read c).1 = .inside ∧ s.out c = s.last ++ [.mark c] := by
  have henter : ∀ s : State,
      s.enter c = ({ s with mode := .code, fresh := false }, [.mark c]) := by
    intro s
    rcases (by simpa [separators] using hc : c = ';' ∨ c = '\x7b' ∨ c = '\x7d') with
      rfl | rfl | rfl <;> rfl
  have hmarks : ∀ e ∈ separators, isWord e = false ∧ e ≠ '/' ∧ e ≠ '*' ∧ e ≠ '\n' := by
    simp [separators, isWord]
  obtain ⟨hident, hslash, hstar, hline⟩ := hmarks c hc
  obtain ⟨mode, fresh, directive⟩ := s
  cases mode with
  | code | word | slash | backslash =>
    simp only [State.outside, Bool.not_eq_true'] at h
    simp [State.out, State.last, State.read, State.leave, State.inside, henter, hident, hslash,
      hstar, hline, h]
  | lineComment | lineEscape | comment | star | literal | escape => cases h

theorem tokensFrom_separator {c : Char} (hc : c ∈ separators) (h : (s.run a).outside = true)
    (b : Text) :
    tokensFrom s (a ++ c :: b) = tokensFrom s a ++ .mark c :: tokensFrom .inside b := by
  induction a generalizing s with
  | nil =>
    obtain ⟨hstate, hout⟩ := State.read_separator (s := s) hc h
    simp [tokensFrom, hstate, hout]
  | cons d a ih =>
    have hrest := ih (s := (s.read d).1) h
    simp [tokensFrom, hrest]

theorem called_separator {c : Char} (hc : c ∈ separators) (xs ys : List Token) :
    called (xs ++ .mark c :: ys) = called xs ++ called ys := by
  have hmarks : ∀ e ∈ separators, e ≠ '(' ∧ e ≠ '*' ∧ e ≠ ')' := by
    simp [separators]
  obtain ⟨hopen, hstar, hclose⟩ := hmarks c hc
  induction xs with
  | nil => simp [called, nameAt]
  | cons x xs ih =>
    have hname : nameAt (x :: (xs ++ .mark c :: ys)) = nameAt (x :: xs) := by
      cases x with
      | literal | mark => rfl
      | word name =>
        match xs with
        | [] => simp [nameAt, hopen]
        | [y] => simp [nameAt, isPointer, hstar]
        | [y, z] => simp [nameAt, isPointer, hclose]
        | y :: z :: w :: xs => rfl
    rw [List.cons_append, called, called, hname, ih, List.append_assoc]

theorem names_separator {c : Char} (h : EndsInCode a) (hc : c ∈ separators) (b : Text) :
    names (a ++ c :: b) = names a ++ names b := by
  rw [names, tokensFrom_separator hc h, called_separator hc]
  rfl

theorem State.eq_of_mem_read {c d : Char} (hd : d ≠ '/') (h : .mark d ∈ (s.read c).2) : c = d := by
  have henter : ∀ s : State, .mark d ∈ (s.enter c).2 → c = d := by
    intro s h
    unfold State.enter at h
    split_ifs at h <;> simp at h
    exact h.symm
  unfold State.read at h
  split at h
  · exact henter s h
  · split_ifs at h
    · cases h
    · rcases List.mem_cons.1 h with h | h
      · cases h
      · exact henter _ h
  · split_ifs at h
    · cases h
    · cases h
    · rcases List.mem_cons.1 h with h | h
      · exact absurd (Token.mark.inj h) hd
      · exact henter _ h
  · split_ifs at h
    · cases h
    · exact henter s h
  all_goals first | cases h | (split_ifs at h <;> simp at h)

theorem mem_of_mark_mem {t : Text} {d : Char} (hd : d ≠ '/') (h : .mark d ∈ tokensFrom s t) :
    d ∈ t := by
  induction t generalizing s with
  | nil =>
    rw [tokensFrom, State.last] at h
    split at h
    · cases h
    · split at h <;> simp [hd] at h
  | cons c t ih =>
    rcases List.mem_append.1 h with h | h
    · rw [State.out] at h
      split at h
      · cases h
      · rw [State.eq_of_mem_read hd h]
        exact List.mem_cons_self
    · exact List.mem_cons_of_mem c (ih h)

theorem called_of_not_mem (h : .mark '(' ∉ xs) : called xs = [] := by
  induction xs with
  | nil => rfl
  | cons x xs ih =>
    rw [List.mem_cons, not_or] at h
    have hname : nameAt (x :: xs) = none := by
      cases x with
      | literal | mark => rfl
      | word name =>
        cases xs with
        | nil => rfl
        | cons y xs =>
          have hy : y ≠ .mark '(' := fun hy => h.2 (hy ▸ List.mem_cons_self)
          simp [nameAt, hy]
    rw [called, hname, ih h.2]
    rfl

theorem names_of_not_mem {t : Text} (h : '(' ∉ t) : names t = [] :=
  called_of_not_mem fun hmem => h (mem_of_mark_mem (by decide) hmem)

end Parts

/-! ## Functions -/

/-- The number of open braces behind the tokens. It is `none` where one is closed that was not
opened. -/
def depth : Nat → List Token → Option Nat
  | n, [] => some n
  | n, t :: ts =>
    if t = .mark '\x7b' then depth (n + 1) ts
    else if t = .mark '\x7d' then
      match n with
      | 0 => none
      | n + 1 => depth n ts
    else depth n ts

def Balanced (ts : List Located) : Prop := depth 0 (ts.map Located.token) = some 0

instance (ts : List Located) : Decidable (Balanced ts) := inferInstanceAs (Decidable (_ = _))

/-- A function, with the lines of its name and of the brace that closes it. -/
structure Definition where
  heading : Nat
  body : List Located
  closing : Nat

/-- Outside of all braces the name stands before a parenthesis, and nothing from there on to the
body ends a declaration. -/
def Defines (ts : List Located) (name : Text) (f : Definition) : Prop :=
  ∃ before params after, ∃ l₁ l₂ : Nat,
    ts = before ++ ⟨f.heading, .word name⟩ :: ⟨l₁, .mark '('⟩ :: (params ++
      ⟨l₂, .mark '\x7b'⟩ :: (f.body ++ ⟨f.closing, .mark '\x7d'⟩ :: after)) ∧
    Balanced before ∧ Balanced f.body ∧
    ∀ t ∈ params, t.token ∉ [.mark ';', .mark '\x7b', .mark '\x7d']

section Definition

variable {ts : List Located} {name : Text} {f : Definition}

theorem Defines.sorted (h : Defines ts name f) (hs : ts.Pairwise (·.line ≤ ·.line)) :
    f.heading ≤ f.closing ∧ f.body.Pairwise (·.line ≤ ·.line) ∧
      ∀ t ∈ f.body, f.heading ≤ t.line ∧ t.line ≤ f.closing := by
  obtain ⟨before, params, after, l₁, l₂, rfl, -⟩ := h
  have hs := (List.pairwise_append.1 hs).2.1
  rw [List.pairwise_cons] at hs
  have hbody := (List.pairwise_append.1 (List.pairwise_cons.1 hs.2).2).2.1
  rw [List.pairwise_cons] at hbody
  obtain ⟨hsort, -, hclose⟩ := List.pairwise_append.1 hbody.2
  refine ⟨hs.1 ⟨f.closing, .mark '\x7d'⟩ ?_, hsort, fun t ht => ⟨hs.1 t ?_, ?_⟩⟩
  · simp
  · simp [ht]
  · exact hclose t ht _ List.mem_cons_self

theorem Defines.calls_sorted (h : Defines ts name f) (hs : ts.Pairwise (·.line ≤ ·.line)) :
    (calls f.body).Pairwise (·.line ≤ ·.line) ∧
      ∀ c ∈ calls f.body, f.heading ≤ c.line ∧ c.line ≤ f.closing := by
  obtain ⟨-, hsort, hlines⟩ := h.sorted hs
  refine ⟨lines_le_calls hsort, fun c hc => ?_⟩
  obtain ⟨t, ht, hline⟩ := exists_token_of_mem_calls hc
  rw [← hline]
  exact hlines t ht

end Definition

end CText
end SynCord
