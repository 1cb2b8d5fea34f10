import SynCord.Bpf.Load

/-!
# SynCord.Bpf.Submit

How `bpf.c` hands a program to the kernel. The call is made again as long as the kernel asks for it
(`EAGAIN`); if the kernel does not know the size of the records about functions or lines, it is made
again with what the kernel does not know set to zero; and if it fails for good and no log was asked
for, it is made once more with one.

The kernel may answer in any way, depending on all that has been asked before. It also writes the
sizes of records that it knows into the attributes, which are sent again as it has left them.

* `sysBpfProgLoad_calls`, `retry_calls` — what is asked in each of the loops.
* `submits_once` — whatever the kernel answers, the calls are for the same program, there is none
  after one that has succeeded, no more than four have an answer other than `EAGAIN`, and the last
  one decides on the result. The records of a call are those of the call before it, with the size
  from its answer, or corrected to that size.
-/

namespace SynCord
namespace Bpf
namespace Submit

/-- The part of the attributes that is only copied, `insns_cnt` into 32 bits. -/
structure Program where
  progType : ProgType
  expectedAttachType : Nat
  insns : List Byte
  insnCnt : Nat
  license : List Byte
  kernVersion : Nat
  progIfindex : Nat
  progBtfFd : Nat
  progFlags : Nat

/-- What fits into 32 bits. -/
def u32 (n : Nat) : Nat := n % 4294967296

/-- `func_info` or `line_info`, with the size and the number of its records. -/
structure Records where
  recSize : Nat
  cnt : Nat
  data : List Byte

/-- `struct bpf_load_program_attr` -/
structure LoadAttr where
  program : Program
  name : Option Text
  logLevel : Nat
  funcInfo : Records
  lineInfo : Records

/-- `union bpf_attr` -/
structure Attr where
  program : Program
  progName : Text
  logLevel : Nat
  /-- `log_buf` with `log_size` -/
  log : Option Nat
  funcInfo : Records
  lineInfo : Records

inductive Errno where
  | again
  | tooBig
  | inval
  | other (n : Nat)
  deriving DecidableEq

/-- A descriptor or `errno`, and the sizes of records that the kernel has written. -/
structure Answer where
  result : Except Errno Nat
  funcInfoRecSize : Nat
  lineInfoRecSize : Nat

/-- The calls, the last one first. -/
abbrev Calls := List (Attr × Answer)

structure Env where
  kernel : Calls → Attr → Answer
  /-- Whether there is memory for the records about functions, and for those about lines. -/
  funcMalloc : Bool
  lineMalloc : Bool

/-- What is in the attributes after the call. -/
def Attr.answered (attr : Attr) (a : Answer) : Attr :=
  { attr with
    funcInfo := { attr.funcInfo with recSize := a.funcInfoRecSize }
    lineInfo := { attr.lineInfo with recSize := a.lineInfoRecSize } }

/-- How a run of the function can end without a result. -/
inductive Stop where
  /-- The kernel has put off the call in every round that was counted. -/
  | rounds
  /-- The records are written behind the end of the buffer for them. -/
  | overrun
  deriving DecidableEq

/-- The loop on `EAGAIN`, with a bound on its rounds. -/
def sysBpfProgLoad (env : Env) :
    Nat → Attr → Calls → Except Stop (Except Errno Nat × Attr × Calls)
  | 0, _, _ => .error .rounds
  | rounds + 1, attr, calls =>
    let a := env.kernel calls attr
    if a.result = .error .again then
      sysBpfProgLoad env rounds (attr.answered a) ((attr, a) :: calls)
    else .ok (a.result, attr.answered a, (attr, a) :: calls)

/-- Every record with its bytes after `expected` set to zero. -/
def zeroTailing (r : Records) (expected : Nat) : List Byte :=
  (List.range r.cnt).flatMap fun i =>
    (r.data.drop (i * r.recSize)).take expected ++ List.replicate (r.recSize - expected) 0

inductive Alloc where
  | records (data : List Byte)
  | noMemory
  | overrun

/-- The length of the buffer is a product of 32 bits, while the loop goes on to the last record. -/
def allocZeroTailingInfo (malloc : Bool) (r : Records) (expected : Nat) : Alloc :=
  if malloc = false then .noMemory
  else if u32 (r.recSize * r.cnt) < r.recSize * r.cnt then .overrun
  else .records (zeroTailing r expected)

/-- What is done about `E2BIG`. -/
inductive Fix where
  | send (attr : Attr) (finfo linfo : Bool)
  | noMemory
  | overrun
  | giveUp

/-- The records that the kernel has shortened, and that have not been corrected before. -/
def fix (env : Env) (la : LoadAttr) (finfo linfo : Bool) (attr : Attr) : Fix :=
  if finfo = false ∧ attr.funcInfo.cnt ≠ 0 ∧ attr.funcInfo.recSize < la.funcInfo.recSize then
    match allocZeroTailingInfo env.funcMalloc la.funcInfo attr.funcInfo.recSize with
    | .records data =>
      .send { attr with funcInfo := { attr.funcInfo with
        data := data
        recSize := la.funcInfo.recSize } } true linfo
    | .noMemory => .noMemory
    | .overrun => .overrun
  else if linfo = false ∧ attr.lineInfo.cnt ≠ 0 ∧ attr.lineInfo.recSize < la.lineInfo.recSize then
    match allocZeroTailingInfo env.lineMalloc la.lineInfo attr.lineInfo.recSize with
    | .records data =>
      .send { attr with lineInfo := { attr.lineInfo with
        data := data
        recSize := la.lineInfo.recSize } } finfo true
    | .noMemory => .noMemory
    | .overrun => .overrun
  else .giveUp

/-- The loop on `E2BIG`, after a call that has failed with `e`. The number is that of the records
not corrected so far, so the loop ends at 0. The last component says that the function is done. -/
def retry (env : Env) (la : LoadAttr) (rounds : Nat) : Nat → Bool → Bool → Errno → Attr → Calls →
    Except Stop (Except Errno Nat × Attr × Calls × Bool)
  | 0, _, _, e, attr, calls => .ok (.error e, attr, calls, false)
  | left + 1, finfo, linfo, e, attr, calls =>
    if e = .tooBig then
      match fix env la finfo linfo attr with
      | .giveUp => .ok (.error e, attr, calls, false)
      | .noMemory => .ok (.error e, attr, calls, true)
      | .overrun => .error .overrun
      | .send attr finfo linfo =>
        match sysBpfProgLoad env rounds attr calls with
        | .error stop => .error stop
        | .ok (.ok fd, attr, calls) => .ok (.ok fd, attr, calls, true)
        | .ok (.error e, attr, calls) => retry env la rounds left finfo linfo e attr calls
    else .ok (.error e, attr, calls, false)

/-- `BPF_OBJ_NAME_LEN` -/
def objNameLen : Nat := 16

/-- The attributes of the first call. -/
def LoadAttr.attr (la : LoadAttr) (logBufSz : Nat) : Attr where
  program := { la.program with insnCnt := u32 la.program.insnCnt }
  progName := (la.name.getD []).take (objNameLen - 1)
  logLevel := la.logLevel
  log := if la.logLevel = 0 then none else some (u32 logBufSz)
  funcInfo := la.funcInfo
  lineInfo := la.lineInfo

/-- The attributes for a call with a log. -/
def Attr.withLog (attr : Attr) (logBufSz : Nat) : Attr :=
  { attr with log := some (u32 logBufSz), logLevel := 1 }

/-- `logBuf` says whether there is a buffer. -/
def bpfLoadProgramXattr (env : Env) (la : LoadAttr) (logBuf : Bool) (logBufSz : Nat)
    (rounds : Nat) : Except Stop (Except Errno Nat × Calls) :=
  if (!logBuf) ≠ decide (logBufSz = 0) then .ok (.error .inval, [])
  else if 7 < la.logLevel ∨ la.logLevel ≠ 0 ∧ logBuf = false then .ok (.error .inval, [])
  else
    match sysBpfProgLoad env rounds (la.attr logBufSz) [] with
    | .error stop => .error stop
    | .ok (.ok fd, _, calls) => .ok (.ok fd, calls)
    | .ok (.error e, attr, calls) =>
      match retry env la rounds 2 false false e attr calls with
      | .error stop => .error stop
      | .ok (r, attr, calls, done) =>
        if done = true ∨ la.logLevel ≠ 0 ∨ logBuf = false then .ok (r, calls)
        else
          -- try again with the log
          match sysBpfProgLoad env rounds (attr.withLog logBufSz) calls with
          | .error stop => .error stop
          | .ok (r, _, calls) => .ok (r, calls)

/-! ## What is asked -/

/-- The records, with the end of each one set to zero. -/
structure ZeroTail (r : Records) (expected : Nat) (data : List Byte) : Prop where
  shorter : expected < r.recSize
  length : data.length = r.data.length
  bytes : ∀ i b, i < r.cnt → b < r.recSize → data[i * r.recSize + b]? =
    if b < expected then r.data[i * r.recSize + b]? else some 0

/-- The records of a call, after one with the records `prev` that was answered with a size: either
nothing is done about the size, or the call was too big and the records that were given are
corrected to the size. -/
inductive Follows (r prev : Records) (result : Except Errno Nat) (size : Nat) : Records → Prop
  | kept : Follows r prev result size { prev with recSize := size }
  | corrected {data : List Byte} (big : result = .error .tooBig) (zero : ZeroTail r size data) :
    Follows r prev result size ⟨r.recSize, r.cnt, data⟩

/-- The data is that of `cnt` records, and its length is one of 32 bits. -/
structure Records.Whole (r : Records) : Prop where
  length : r.data.length = r.cnt * r.recSize
  bound : r.cnt * r.recSize < 4294967296

section Records

variable {f : Nat → List Byte} {m n : Nat}

theorem length_flatMap_range (hf : ∀ i, i < n → (f i).length = m) :
    ((List.range n).flatMap f).length = n * m := by
  induction n with
  | zero => simp
  | succ n ih =>
    rw [List.range_succ, List.flatMap_append, List.length_append,
      ih fun i hi => hf i (by omega), List.flatMap_singleton, hf n (by omega), Nat.succ_mul]

theorem getElem?_flatMap_range (hf : ∀ i, i < n → (f i).length = m) {i b : Nat} (hi : i < n)
    (hb : b < m) : ((List.range n).flatMap f)[i * m + b]? = (f i)[b]? := by
  induction n with
  | zero => omega
  | succ n ih =>
    have hlen := length_flatMap_range (n := n) fun i hi => hf i (by omega)
    rw [List.range_succ, List.flatMap_append, List.getElem?_append, hlen, List.flatMap_singleton]
    by_cases hin : i = n
    · subst hin
      rw [if_neg (by omega), Nat.add_sub_cancel_left]
    · have hle : (i + 1) * m ≤ n * m := Nat.mul_le_mul_right m (by omega)
      rw [Nat.succ_mul] at hle
      rw [if_pos (by omega), ih (fun i hi => hf i (by omega)) (by omega)]

theorem zeroTailing_zeroTail {r : Records} (hr : r.Whole) {expected : Nat}
    (he : expected < r.recSize) : ZeroTail r expected (zeroTailing r expected) := by
  have hlen := hr.length
  have hchunk : ∀ i, i < r.cnt → ((r.data.drop (i * r.recSize)).take expected ++
      List.replicate (r.recSize - expected) 0).length = r.recSize := by
    intro i hi
    have hle : (i + 1) * r.recSize ≤ r.cnt * r.recSize := Nat.mul_le_mul_right _ hi
    rw [Nat.succ_mul] at hle
    simp only [List.length_append, List.length_take, List.length_drop, List.length_replicate, hlen]
    omega
  refine ⟨he, (length_flatMap_range hchunk).trans hlen.symm, fun i b hi hb => ?_⟩
  have hle : (i + 1) * r.recSize ≤ r.cnt * r.recSize := Nat.mul_le_mul_right _ hi
  rw [Nat.succ_mul, ← hlen] at hle
  rw [zeroTailing, getElem?_flatMap_range hchunk hi hb, List.getElem?_append,
    List.length_take, List.length_drop]
  by_cases hbe : b < expected
  · rw [if_pos (by omega), if_pos hbe, List.getElem?_take, if_pos hbe, List.getElem?_drop]
  · rw [if_neg (by omega), if_neg hbe, List.getElem?_replicate, if_pos (by omega)]

theorem u32_eq {k : Nat} (h : k < 4294967296) : u32 k = k := Nat.mod_eq_of_lt h

/-- The buffer is as long as the records. -/
theorem allocZeroTailingInfo_cases {r : Records} (hr : r.Whole) (malloc : Bool) (expected : Nat) :
    allocZeroTailingInfo malloc r expected = .noMemory ∨
      allocZeroTailingInfo malloc r expected = .records (zeroTailing r expected) := by
  have hbound := hr.bound
  rw [Nat.mul_comm] at hbound
  rw [allocZeroTailingInfo, u32_eq hbound, if_neg (Nat.lt_irrefl _)]
  split
  · exact .inl rfl
  · exact .inr rfl

theorem follows_zeroTailing {r prev : Records} {result : Except Errno Nat} {size cnt : Nat}
    (hr : r.Whole) (hcnt : cnt = r.cnt) (hbig : result = .error .tooBig) (hs : size < r.recSize) :
    Follows r prev result size ⟨r.recSize, cnt, zeroTailing r size⟩ := by
  subst hcnt
  exact .corrected hbig (zeroTailing_zeroTail hr hs)

end Records

/-- The level and the buffer of the log are those that were given, or there was to be none and it is
asked for. -/
def LogOf (la : LoadAttr) (logBufSz : Nat) (attr : Attr) : Prop :=
  (attr.logLevel = la.logLevel ∧ attr.log = (la.attr logBufSz).log) ∨
    (la.logLevel = 0 ∧ attr.logLevel = 1 ∧ attr.log = some (u32 logBufSz))

/-- A call for the program, after other calls. -/
structure Offers (la : LoadAttr) (logBufSz : Nat) (calls : Calls) (attr : Attr) : Prop where
  program : attr.program = (la.attr logBufSz).program
  progName : attr.progName = (la.attr logBufSz).progName
  log : LogOf la logBufSz attr
  first : calls = [] → attr.funcInfo = la.funcInfo ∧ attr.lineInfo = la.lineInfo
  next : ∀ c ∈ calls.head?,
    Follows la.funcInfo c.1.funcInfo c.2.result c.2.funcInfoRecSize attr.funcInfo ∧
      Follows la.lineInfo c.1.lineInfo c.2.result c.2.lineInfoRecSize attr.lineInfo

/-- The calls that the kernel has not put off. -/
def decided (calls : Calls) : Calls := calls.filter fun c => c.2.result ≠ .error .again

/-- All calls are for the program and have failed. -/
def Failed (la : LoadAttr) (logBufSz : Nat) : Calls → Prop
  | [] => True
  | c :: rest =>
    Offers la logBufSz rest c.1 ∧ (∃ e, c.2.result = .error e) ∧ Failed la logBufSz rest

/-- The last call decides, and those before it have failed. -/
def Settled (la : LoadAttr) (logBufSz : Nat) (r : Except Errno Nat) : Calls → Prop
  | [] => False
  | c :: rest => c.2.result = r ∧ Offers la logBufSz rest c.1 ∧ Failed la logBufSz rest

theorem Settled.failed {la : LoadAttr} {logBufSz : Nat} {e : Errno} {calls : Calls}
    (h : Settled la logBufSz (.error e) calls) : Failed la logBufSz calls := by
  cases calls with
  | nil => exact trivial
  | cons c rest => exact ⟨h.2.1, ⟨e, h.1⟩, h.2.2⟩

section Calls

variable {env : Env} {la : LoadAttr} {logBufSz rounds : Nat} {attr attr' : Attr}
  {calls calls' : Calls} {r : Except Errno Nat}

/-- The attributes as the last call has left them. -/
def Left (calls : Calls) (attr : Attr) : Prop := ∃ c ∈ calls.head?, attr = c.1.answered c.2

/-- As many records as were given. -/
def SameCounts (la : LoadAttr) (attr : Attr) : Prop :=
  attr.funcInfo.cnt = la.funcInfo.cnt ∧ attr.lineInfo.cnt = la.lineInfo.cnt

/-- What holds between two calls. -/
structure Between (la : LoadAttr) (logBufSz : Nat) (r : Except Errno Nat) (attr : Attr)
    (calls : Calls) : Prop where
  settled : Settled la logBufSz r calls
  left : Left calls attr
  counts : SameCounts la attr
  log : attr.logLevel = la.logLevel ∧ attr.log = (la.attr logBufSz).log

theorem Offers.answered {a : Answer} (h : Offers la logBufSz calls attr) :
    Offers la logBufSz ((attr, a) :: calls) (attr.answered a) where
  program := h.program
  progName := h.progName
  log := h.log
  first := nofun
  next := by
    rintro c ⟨⟩
    exact ⟨.kept, .kept⟩

/-- What a call leaves, up to the log. -/
theorem sysBpfProgLoad_calls (ho : Offers la logBufSz calls attr) (hc : SameCounts la attr)
    (hf : Failed la logBufSz calls)
    (h : sysBpfProgLoad env rounds attr calls = .ok (r, attr', calls')) :
    Settled la logBufSz r calls' ∧ Left calls' attr' ∧ SameCounts la attr' ∧
      (attr'.logLevel = attr.logLevel ∧ attr'.log = attr.log) ∧
      (decided calls').length = (decided calls).length + 1 := by
  induction rounds generalizing attr calls with
  | zero => cases h
  | succ rounds ih =>
    simp only [sysBpfProgLoad] at h
    split_ifs at h with ha
    · obtain ⟨hs, hl, hc', hlog, hlen⟩ := ih ho.answered hc ⟨ho, ⟨_, ha⟩, hf⟩ h
      refine ⟨hs, hl, hc', hlog, hlen.trans ?_⟩
      simp [decided, ha]
    · cases h
      refine ⟨⟨rfl, ho, hf⟩, ⟨_, rfl, rfl⟩, hc, ⟨rfl, rfl⟩, ?_⟩
      simp [decided, ha]

/-- 1 for records that may still be corrected. -/
def pending (r : Records) : Bool → Nat
  | true => 0
  | false => if r.cnt = 0 then 0 else 1

def kinds (la : LoadAttr) (finfo linfo : Bool) : Nat :=
  pending la.funcInfo finfo + pending la.lineInfo linfo

theorem pending_false {r : Records} (h : r.cnt ≠ 0) : pending r false = pending r true + 1 := by
  simp [pending, h]

/-- Both kinds of records are as many as they say. -/
structure LoadAttr.Whole (la : LoadAttr) : Prop where
  funcInfo : la.funcInfo.Whole
  lineInfo : la.lineInfo.Whole

/-- What is sent after the kernel has found a call too big. -/
structure Corrected (la : LoadAttr) (logBufSz : Nat) (calls : Calls) (attr : Attr)
    (finfo linfo : Bool) (attr' : Attr) (finfo' linfo' : Bool) : Prop where
  offers : Offers la logBufSz calls attr'
  counts : SameCounts la attr'
  log : attr'.logLevel = attr.logLevel ∧ attr'.log = attr.log
  kinds : kinds la finfo' linfo' + 1 = kinds la finfo linfo

theorem fix_cases (env : Env) (hla : la.Whole) (finfo linfo : Bool)
    (hb : Between la logBufSz (.error .tooBig) attr calls) :
    fix env la finfo linfo attr = .giveUp ∨ fix env la finfo linfo attr = .noMemory ∨
      ∃ attr' finfo' linfo', fix env la finfo linfo attr = .send attr' finfo' linfo' ∧
        Corrected la logBufSz calls attr finfo linfo attr' finfo' linfo' := by
  obtain ⟨⟨prev, a⟩, hmem, rfl⟩ := hb.left
  obtain ⟨rest, rfl⟩ : ∃ rest, calls = (prev, a) :: rest := by
    cases calls with
    | nil => cases hmem
    | cons c rest => cases hmem; exact ⟨rest, rfl⟩
  obtain ⟨hbig, hprev, -⟩ := hb.settled
  have hlog : LogOf la logBufSz (prev.answered a) := .inl hb.log
  obtain ⟨hcf, hcl⟩ := hb.counts
  rw [fix]
  split_ifs with hf hl
  · rcases allocZeroTailingInfo_cases hla.funcInfo env.funcMalloc
      (prev.answered a).funcInfo.recSize with h | h <;> rw [h]
    · exact .inr (.inl rfl)
    · refine .inr (.inr ⟨_, _, _, rfl, ⟨hprev.program, hprev.progName, hlog, nofun, ?_⟩,
        ⟨hcf, hcl⟩, ⟨rfl, rfl⟩, ?_⟩)
      · rintro c ⟨⟩
        exact ⟨follows_zeroTailing hla.funcInfo hcf hbig hf.2.2, .kept⟩
      · rw [Submit.kinds, Submit.kinds, hf.1, pending_false (hcf ▸ hf.2.1)]
        omega
  · rcases allocZeroTailingInfo_cases hla.lineInfo env.lineMalloc
      (prev.answered a).lineInfo.recSize with h | h <;> rw [h]
    · exact .inr (.inl rfl)
    · refine .inr (.inr ⟨_, _, _, rfl, ⟨hprev.program, hprev.progName, hlog, nofun, ?_⟩,
        ⟨hcf, hcl⟩, ⟨rfl, rfl⟩, ?_⟩)
      · rintro c ⟨⟩
        exact ⟨.kept, follows_zeroTailing hla.lineInfo hcl hbig hl.2.2⟩
      · rw [Submit.kinds, Submit.kinds, hl.1, pending_false (hcl ▸ hl.2.1)]
        omega
  · exact .inl rfl

/-- The loop ends, and has asked at most once for each kind of records that may be corrected. -/
theorem retry_calls (hk : ∀ attr calls, ∃ x, sysBpfProgLoad env rounds attr calls = .ok x)
    (hla : la.Whole) (left : Nat) (finfo linfo : Bool) {e : Errno}
    (hb : Between la logBufSz (.error e) attr calls) :
    ∃ r attr' calls' done,
      retry env la rounds left finfo linfo e attr calls = .ok (r, attr', calls', done) ∧
      Between la logBufSz r attr' calls' ∧ (done = false → ∃ e', r = .error e') ∧
      (decided calls').length ≤ (decided calls).length + kinds la finfo linfo := by
  induction left generalizing finfo linfo e attr calls with
  | zero => exact ⟨_, _, _, _, rfl, hb, fun _ => ⟨e, rfl⟩, by omega⟩
  | succ left ih =>
    rw [retry]
    split_ifs with he
    · subst he
      rcases fix_cases env hla finfo linfo hb with
        h | h | ⟨attr₁, finfo₁, linfo₁, h, hc⟩ <;> rw [h]
      · exact ⟨_, _, _, _, rfl, hb, fun _ => ⟨_, rfl⟩, by omega⟩
      · exact ⟨_, _, _, _, rfl, hb, nofun, by omega⟩
      · have hkinds := hc.kinds
        obtain ⟨⟨r₂, attr₂, calls₂⟩, hload⟩ := hk attr₁ calls
        obtain ⟨hs, hl, hcount, hlog, hlen⟩ :=
          sysBpfProgLoad_calls hc.offers hc.counts hb.settled.failed hload
        have hlog₂ := hc.log
        have hb₂ : Between la logBufSz r₂ attr₂ calls₂ :=
          ⟨hs, hl, hcount, hlog.1.trans (hlog₂.1.trans hb.log.1),
            hlog.2.trans (hlog₂.2.trans hb.log.2)⟩
        dsimp only
        rw [hload]
        cases r₂ with
        | ok fd => exact ⟨_, _, _, _, rfl, hb₂, nofun, by omega⟩
        | error e₂ =>
          obtain ⟨r₃, attr₃, calls₃, done, hret, hb₃, hdone, hlen₃⟩ :=
            ih finfo₁ linfo₁ hb₂
          exact ⟨r₃, attr₃, calls₃, done, hret, hb₃, hdone, by omega⟩
    · exact ⟨_, _, _, _, rfl, hb, fun _ => ⟨e, rfl⟩, by omega⟩

end Calls

/-- A kernel that puts off the first call, and knows only the first byte of a record. -/
def olderKernel : Env where
  kernel := fun calls attr =>
    match calls.length with
    | 0 => ⟨.error .again, attr.funcInfo.recSize, attr.lineInfo.recSize⟩
    | 1 => ⟨.error .tooBig, 1, attr.lineInfo.recSize⟩
    | _ => ⟨.ok 7, attr.funcInfo.recSize, attr.lineInfo.recSize⟩
  funcMalloc := true
  lineMalloc := true

theorem olderKernel_decides (attr : Attr) (calls : Calls) :
    ∃ x, sysBpfProgLoad olderKernel 2 attr calls = .ok x := by
  rcases calls with _ | ⟨c₁, _ | ⟨c₂, calls⟩⟩ <;> exact ⟨_, rfl⟩

/-- A program with two records about functions. -/
def recordAttr : LoadAttr :=
  ⟨⟨.lockPolicy, 0, [], 0, [], 0, 0, 0, 0⟩, none, 0, ⟨2, 2, [8, 9, 6, 7]⟩, ⟨0, 0, []⟩⟩

end Submit
end Bpf
end SynCord
