import Coherent.HrMsg

/-!
Requests of the processes that share a window of the HR driver, and their answers.

A request is a message to the window manager; the process waits for a busy bit of the window to
be cleared. `CIOACK`, `CIODATA` and `CIOSGTTY` store an answer in the client and clear the bit,
`CIOGETD` has the data of a write copied by whoever calls `xcheck`. A process in the kernel goes
on until it sleeps; a sleeping process may be woken at any time.
-/

namespace Coherent.HrReply

open Coherent.Lib Coherent.HrMsg

abbrev Pid := ℕ
abbrev Byte := ℕ

def XBUF : ℕ := 100

/-- The requests: of `hropen`, `TIOCGETP`, `hrread` and `hrwrite`. -/
inductive Kind
  | WM_OPEN
  | WM_TIOGETP
  | WM_GETC
  | WM_PUTD
  deriving DecidableEq

/-- The busy bits of a client. -/
inductive Bit
  | NEEDDAT
  | READING
  | WRITING
  deriving DecidableEq

def Kind.bit : Kind → Bit
  | .WM_OPEN | .WM_TIOGETP => .NEEDDAT
  | .WM_GETC => .READING
  | .WM_PUTD => .WRITING

structure Sgttyb where
  sg_ispeed : ℕ
  sg_ospeed : ℕ
  sg_erase : ℕ
  sg_kill : ℕ
  sg_flags : ℕ
  deriving DecidableEq

/-- What is stored in `data.i`, `datc` or `data.tty`. -/
inductive Answer
  | i (v : ℤ)
  | tty (t : Sgttyb)
  deriving DecidableEq

/-- The answer is one to such a request. -/
def Kind.fits : Kind → Answer → Bool
  | .WM_OPEN, .i _ | .WM_GETC, .i _ | .WM_TIOGETP, .tty _ => true
  | _, _ => false

/-- A call of a process; a write has an address and a number of bytes. -/
structure Call where
  minor : Dest
  kind : Kind
  base : ℕ
  count : ℕ
  deriving DecidableEq

def Call.bit (c : Call) : Bit := c.kind.bit

structure Request where
  id : ℕ
  call : Call
  proc : Pid
  deriving DecidableEq

/-- Where a process stands. -/
inductive Pc
  | idle
  /-- in `hrlock` -/
  | lock (c : Call)
  /-- in `hralloc` -/
  | alloc (c : Call)
  /-- at the test of `hrwait`, or of `hrwrite` -/
  | wait (c : Call) (id : ℕ)
  /-- asleep in there -/
  | asleep (c : Call) (id : ℕ)
  deriving DecidableEq

inductive Xstate
  | XIDLE
  | XFILL
  | XDRAIN
  | XERROR
  deriving DecidableEq

structure State where
  flags : Dest → Bit → Bool
  ocount : Dest → ℕ
  /-- the answer that is stored for such requests, and to which request it is one -/
  data : Dest → Kind → Answer × ℕ
  xstate : Xstate
  x_src : Dest
  x_count : ℕ
  x_srcp : ℕ
  xbuf : List Byte
  /-- the request that `CIOGETD` answers -/
  xcur : ℕ
  /-- what it has put into the server's memory -/
  sent : List Byte
  mem : Pid → ℕ → Byte
  pc : Pid → Pc
  /-- linked and not answered -/
  pending : List Request
  nextid : ℕ
  /-- which answers the requests consumed, and to which requests they are answers -/
  taken : List (ℕ × Answer × ℕ)
  given : ℕ → Option Answer
  /-- the buffer of a write, as it was at the call -/
  buf : ℕ → List Byte
  /-- what each `CIOGETD` delivered, and if it ended without an error -/
  done : List (ℕ × List Byte × Bool)

/-- The bytes of a buffer. -/
def bytes (m : ℕ → Byte) (base n : ℕ) : List Byte := (List.range n).map fun i => m (base + i)

def setflag (s : State) (d : Dest) (b : Bit) (v : Bool) : State :=
  { s with flags := Function.update s.flags d (Function.update (s.flags d) b v) }

def goes (s : State) (p : Pid) (v : Pc) : State := { s with pc := Function.update s.pc p v }

/-- `hropen` has come to its end. -/
def opened (s : State) (d : Dest) : State :=
  { s with ocount := Function.update s.ocount d (s.ocount d + 1) }

/-- The driver fills `xbuf` from the memory of whoever calls. -/
def xcheck (s : State) (p : Pid) (self : Dest) (ok : Bool) : State × Bool :=
  if s.xstate = .XFILL ∧ s.x_src = self then
    if ok then
      ({ s with xbuf := bytes (s.mem p) s.x_srcp (min XBUF s.x_count), xstate := .XDRAIN },
        min XBUF s.x_count = s.x_count)
    else ({ s with xstate := .XERROR }, true)
  else (s, false)

/-- `hrwait` has returned: the answer that is stored is consumed. -/
def consume (s : State) (p : Pid) (c : Call) (id : ℕ) : State :=
  let a := s.data c.minor c.kind
  let s1 := { goes s p .idle with taken := s.taken ++ [(id, a.1, a.2)] }
  if c.kind = .WM_OPEN ∧ a.1 = .i 0 then opened s1 c.minor else s1

inductive Op
  | call (p : Pid) (c : Call)
  /-- the door of `hrlock` is open -/
  | lock (p : Pid)
  /-- a signal ends the sleep in `hrlock` -/
  | locksig (p : Pid)
  /-- there is no buffer: `hralloc` sleeps again -/
  | nobuf (p : Pid) (ok : Bool)
  /-- a signal ends a sleep in `hralloc` -/
  | allocsig (p : Pid)
  | hrlink (p : Pid)
  /-- one turn of the loop of `hrwait`, or of `hrwrite`, up to its sleep -/
  | look (p : Pid) (ok : Bool)
  | woken (p : Pid) (ssig : Bool)
  /-- `CIOSENDM` at window `d` -/
  | sendm (p : Pid) (d : Dest) (ok : Bool)
  /-- a process writes into its memory -/
  | store (p : Pid) (a : ℕ) (b : Byte)
  /-- `CIOACK`, `CIODATA` or `CIOSGTTY` -/
  | answer (r : Request) (a : Answer)
  /-- `CIOGETD`, up to its first sleep -/
  | getd (r : Request)
  /-- it goes on after `XDRAIN`; `kucopy` may fault -/
  | drain (ok : Bool)
  /-- it goes on after `XERROR` -/
  | xerror

def Pc.isLock : Pc → Bool
  | .lock _ => true
  | _ => false

def Pc.isAlloc : Pc → Bool
  | .alloc _ => true
  | _ => false

def Pc.isWait : Pc → Bool
  | .wait _ _ => true
  | _ => false

def Pc.isAsleep : Pc → Bool
  | .asleep _ _ => true
  | _ => false

/-- The bit that a process in `hrlock` waits for is clear. -/
def Pc.free (pc : Pc) (flags : Dest → Bit → Bool) : Bool :=
  match pc with
  | .lock c => !flags c.minor c.bit
  | _ => false

/-- When an operation can be the next step. -/
def Enabled (s : State) : Op → Prop
  | .call p c => s.pc p = .idle ∧ WINDOW ≤ c.minor.val ∧ (c.kind = .WM_PUTD → 0 < c.count)
  | .lock p => (s.pc p).free s.flags
  | .locksig p => (s.pc p).isLock
  | .nobuf p _ => (s.pc p).isAlloc
  | .allocsig p => (s.pc p).isAlloc
  | .hrlink p => (s.pc p).isAlloc
  | .look p _ => (s.pc p).isWait
  | .woken p _ => (s.pc p).isAsleep
  | .sendm p _ _ => s.pc p = .idle
  | .store p _ _ => s.pc p = .idle
  | .answer r a => r ∈ s.pending ∧ r.call.kind.fits a
  | .getd r => r ∈ s.pending ∧ r.call.kind = .WM_PUTD ∧ s.xstate = .XIDLE
  | .drain _ => s.xstate = .XDRAIN
  | .xerror => s.xstate = .XERROR

instance (s : State) (op : Op) : Decidable (Enabled s op) := by
  cases op <;> simp only [Enabled] <;> infer_instance

/-- The requests that are left when `id` is answered. -/
def unanswered (s : State) (id : ℕ) : List Request := s.pending.filter fun r => r.id ≠ id

/-- `CIOGETD` returns. -/
def returns (s : State) (ok : Bool) : State :=
  { s with xstate := .XIDLE, done := s.done ++ [(s.xcur, s.sent, ok)] }

/-- What the operation does. -/
def exec (s : State) : Op → State
  | .call p c =>
    if c.kind = .WM_OPEN ∧ s.ocount c.minor ≠ 0 then opened s c.minor else goes s p (.lock c)
  | .lock p =>
    match s.pc p with
    | .lock c =>
      -- somebody else has opened it meanwhile: the bit is cleared again
      if c.kind = .WM_OPEN ∧ s.ocount c.minor ≠ 0 then
        setflag (opened (goes s p .idle) c.minor) c.minor c.bit false
      else setflag (goes s p (.alloc c)) c.minor c.bit true
    | _ => s
  | .locksig p => goes s p .idle
  | .nobuf p ok =>
    match s.pc p with
    | .alloc c => (xcheck s p c.minor ok).1
    | _ => s
  | .allocsig p => goes s p .idle
  | .hrlink p =>
    match s.pc p with
    | .alloc c =>
      { goes s p (.wait c s.nextid) with
        pending := s.pending ++ [⟨s.nextid, c, p⟩]
        nextid := s.nextid + 1
        buf := Function.update s.buf s.nextid (bytes (s.mem p) c.base c.count) }
    | _ => s
  | .look p ok =>
    match s.pc p with
    | .wait c id =>
      if c.kind = .WM_PUTD then
        if (xcheck s p c.minor ok).2 then
          setflag (goes (xcheck s p c.minor ok).1 p .idle) c.minor .WRITING false
        else goes (xcheck s p c.minor ok).1 p (.asleep c id)
      else if s.flags c.minor c.bit then goes (xcheck s p c.minor ok).1 p (.asleep c id)
      else consume s p c id
    | _ => s
  | .woken p ssig =>
    match s.pc p with
    | .asleep c id =>
      if ssig ∧ c.kind ≠ .WM_PUTD then setflag (goes s p .idle) c.minor c.bit false
      else goes s p (.wait c id)
    | _ => s
  | .sendm p d ok => (xcheck s p d ok).1
  | .store p a b => { s with mem := Function.update s.mem p (Function.update (s.mem p) a b) }
  | .answer r a =>
    setflag { s with
      data := Function.update s.data r.call.minor
        (Function.update (s.data r.call.minor) r.call.kind (a, r.id))
      pending := unanswered s r.id
      given := Function.update s.given r.id (some a) } r.call.minor r.call.bit false
  | .getd r =>
    { s with
      xstate := .XFILL
      x_src := r.call.minor
      x_count := r.call.count
      x_srcp := r.call.base
      xcur := r.id
      sent := []
      pending := unanswered s r.id }
  | .drain ok =>
    if ok then
      let s1 := { s with
        sent := s.sent ++ s.xbuf
        x_srcp := s.x_srcp + s.xbuf.length
        x_count := s.x_count - s.xbuf.length }
      if s1.x_count = 0 then returns s1 true else { s1 with xstate := .XFILL }
    else returns s false
  | .xerror => returns s false

/-- One step of the processes, the driver and the server. -/
def Step (s : State) (op : Op) (t : State) : Prop := Enabled s op ∧ exec s op = t

/-! ### What is claimed -/

/-- Every request has consumed its own answer, and every `CIOGETD` has delivered bytes of the
buffer of its write: all of them, if it ended without an error. -/
structure Matched (s : State) : Prop where
  own : ∀ x ∈ s.taken, x.2.2 = x.1 ∧ s.given x.1 = some x.2.1
  delivered : ∀ x ∈ s.done, x.2.1 <+: s.buf x.1 ∧ (x.2.2 = true → x.2.1 = s.buf x.1)
  underway : s.xstate ≠ .XIDLE → s.sent <+: s.buf s.xcur

/-- The call with which a process is behind the door of `hrlock`. -/
def Pc.call : Pc → Option Call
  | .alloc c | .wait c _ | .asleep c _ => some c
  | _ => none

/-- The process waits for the answer to request `id`. -/
def Pc.waits (pc : Pc) (c : Call) (id : ℕ) : Prop := pc = .wait c id ∨ pc = .asleep c id

/-- No request that is made under this bit is unanswered, and no answer is still to be consumed. -/
def Quiet (s : State) (d : Dest) (b : Bit) : Prop :=
  (∀ p c id, (s.pc p).waits c id → ¬ (c.minor = d ∧ c.bit = b)) ∧
    ∀ r ∈ s.pending, ¬ (r.call.minor = d ∧ r.call.bit = b)

/-- The driver wants the data of a write at this window. -/
def Filling (s : State) (d : Dest) : Prop := s.xstate = .XFILL ∧ s.x_src = d

/-- No request is made before the earlier ones under its bit are answered and done with, and
nobody but the writing process comes to `xcheck` while its data are wanted. -/
def Careful (s : State) : Op → Prop
  | .lock p =>
    match s.pc p with
    | .lock c => c.kind ≠ .WM_PUTD → ¬ (c.kind = .WM_OPEN ∧ s.ocount c.minor ≠ 0) →
        Quiet s c.minor c.bit
    | _ => True
  | .nobuf p _ =>
    match s.pc p with
    | .alloc c => ¬ Filling s c.minor
    | _ => True
  | .look p _ =>
    match s.pc p with
    | .wait c _ => c.kind ≠ .WM_PUTD → s.flags c.minor c.bit = true → ¬ Filling s c.minor
    | _ => True
  | .sendm _ d _ => ¬ Filling s d
  | _ => True

def CarefulStep (s : State) (op : Op) (t : State) : Prop := Step s op t ∧ Careful s op

/-! ### The invariant -/

/-- The bit is set, and the request is still to be answered. -/
def Asked (s : State) (c : Call) (id : ℕ) : Prop :=
  s.flags c.minor c.bit = true ∧ ∃ r ∈ s.pending, r.id = id ∧ r.call = c

/-- The answer is stored. -/
def Answered (s : State) (c : Call) (id : ℕ) : Prop :=
  (∀ r ∈ s.pending, r.id ≠ id) ∧ (s.data c.minor c.kind).2 = id ∧
    s.given id = some (s.data c.minor c.kind).1

/-- The writing process waits, and its data from `x` on are the rest `r` of those asked for. -/
def Rest (s : State) (base n : ℕ) (r : List Byte) : Prop :=
  ∃ p c, (s.pc p).waits c s.xcur ∧ c.kind = .WM_PUTD ∧ c.minor = s.x_src ∧
    r = bytes (s.mem p) base n

/-- What has been delivered and what is still to come make up the buffer of the write. -/
structure Transfer (s : State) : Prop where
  cur : s.xstate ≠ .XIDLE → s.xcur < s.nextid ∧ ∀ r ∈ s.pending, r.id ≠ s.xcur
  fill : s.xstate = .XFILL → ∃ r, s.buf s.xcur = s.sent ++ r ∧ Rest s s.x_srcp s.x_count r
  drain : s.xstate = .XDRAIN → s.xbuf.length ≤ s.x_count ∧
    ∃ r, s.buf s.xcur = s.sent ++ s.xbuf ++ r ∧ (s.x_count = s.xbuf.length → r = []) ∧
      (s.x_count ≠ s.xbuf.length →
        Rest s (s.x_srcp + s.xbuf.length) (s.x_count - s.xbuf.length) r)
  error : s.xstate = .XERROR → s.sent <+: s.buf s.xcur

structure Inv (s : State) : Prop where
  single : ∀ p q c c', (s.pc p).call = some c → (s.pc q).call = some c' → c.minor = c'.minor →
    c.bit = c'.bit → p = q
  held : ∀ p c, s.pc p = .alloc c → s.flags c.minor c.bit = true
  writing : ∀ p c id, (s.pc p).waits c id → c.kind = .WM_PUTD →
    s.flags c.minor c.bit = true ∧ s.buf id = bytes (s.mem p) c.base c.count
  waiting : ∀ p c id, (s.pc p).waits c id → c.kind ≠ .WM_PUTD → Asked s c id ∨ Answered s c id
  asked : ∀ r ∈ s.pending, ∀ p c, (s.pc p).call = some c → c.minor = r.call.minor →
    c.bit = r.call.bit → (s.pc p).waits r.call r.id
  writer : ∀ r ∈ s.pending, r.call.kind = .WM_PUTD → (s.pc r.proc).waits r.call r.id
  known : ∀ r ∈ s.pending, r.id < s.nextid
  waited : ∀ p c id, (s.pc p).waits c id → id < s.nextid
  distinct : ∀ r ∈ s.pending, ∀ r' ∈ s.pending, r.id = r'.id → r = r'
  transfer : Transfer s
  taken : ∀ x ∈ s.taken, (∀ r ∈ s.pending, r.id ≠ x.1) ∧ x.1 < s.nextid ∧ x.2.2 = x.1 ∧
    s.given x.1 = some x.2.1
  done : ∀ x ∈ s.done, x.1 < s.nextid ∧ x.2.1 <+: s.buf x.1 ∧
    (x.2.2 = true → x.2.1 = s.buf x.1)

section Steps

variable {s t : State} {p q : Pid} {v : Pc} {c c' : Call} {id : ℕ} {d : Dest} {b : Bit} {r : Request}
  {a : Answer} {m : ℕ → Byte} {base n k : ℕ}

lemma bytes_append : bytes m base (n + k) = bytes m base n ++ bytes m (base + n) k := by
  rw [bytes, List.range_add, List.map_append, List.map_map]
  congr 1
  exact List.map_congr_left fun i _ => congrArg m (Nat.add_assoc ..).symm

@[simp] lemma bytes_length : (bytes m base n).length = n := by simp [bytes]

lemma Pc.waits.call (h : v.waits c id) : v.call = some c := by
  rcases h with rfl | rfl <;> rfl

/-- A process waits for one answer. -/
lemma Pc.waits.unique {id' : ℕ} (h : v.waits c id) (h' : v.waits c' id') : c = c' ∧ id = id' := by
  rcases h with rfl | rfl <;> rcases h' with h' | h' <;> cases h' <;> exact ⟨rfl, rfl⟩

lemma Pc.waits.not_alloc (h : v.waits c id) : v ≠ .alloc c' := by
  rcases h with rfl | rfl <;> nofun

@[simp] lemma goes_self : (goes s p v).pc p = v := Function.update_self ..

lemma goes_of_ne (h : q ≠ p) : (goes s p v).pc q = s.pc q := Function.update_of_ne h ..

lemma setflag_self {x : Bool} : (setflag s d b x).flags d b = x := by
  rw [setflag]
  dsimp only
  rw [Function.update_self, Function.update_self]

lemma setflag_of_ne {d' : Dest} {b' : Bit} {x : Bool} (h : ¬ (d' = d ∧ b' = b)) :
    (setflag s d b x).flags d' b' = s.flags d' b' := by
  rw [setflag]
  dsimp only
  by_cases hd : d' = d
  · subst hd
    rw [Function.update_self, Function.update_of_ne fun hb => h ⟨rfl, hb⟩]
  · rw [Function.update_of_ne hd]

lemma setflag_same {x : Bool} (h : s.flags d b = x) : setflag s d b x = s := by
  rw [setflag, ← h, Function.update_eq_self, Function.update_eq_self]

/-- Process `p` goes on, and is behind the same door and waits for the same answer as before. -/
lemma Inv.repc (h : Inv s) (hc : v.call = (s.pc p).call)
    (hw : ∀ c id, v.waits c id ↔ (s.pc p).waits c id) (ha : ∀ c, v = .alloc c → s.pc p = .alloc c) :
    Inv (goes s p v) := by
  have hcall : ∀ q, ((goes s p v).pc q).call = (s.pc q).call := by
    intro q
    by_cases hq : q = p
    · rw [hq, goes_self, hc]
    · rw [goes_of_ne hq]
  have hwait : ∀ q c id, ((goes s p v).pc q).waits c id ↔ (s.pc q).waits c id := by
    intro q c id
    by_cases hq : q = p
    · rw [hq, goes_self, hw]
    · rw [goes_of_ne hq]
  have halloc : ∀ q c, (goes s p v).pc q = .alloc c → s.pc q = .alloc c := by
    intro q c
    by_cases hq : q = p
    · rw [hq, goes_self]
      exact ha c
    · rw [goes_of_ne hq]
      exact fun h => h
  have hrest : ∀ base n l, Rest s base n l → Rest (goes s p v) base n l := by
    rintro base n l ⟨q, c, h1, h2⟩
    exact ⟨q, c, (hwait q c _).mpr h1, h2⟩
  refine ⟨?_, fun q c hq => h.held q c (halloc q c hq), fun q c id hq =>
    h.writing q c id ((hwait q c id).mp hq), fun q c id hq => h.waiting q c id ((hwait q c id).mp hq),
    ?_, fun r hr hk => (hwait _ _ _).mpr (h.writer r hr hk), h.known,
    fun q c id hq => h.waited q c id ((hwait q c id).mp hq), h.distinct, ?_, h.taken, h.done⟩
  · intro q q' c c'
    rw [hcall, hcall]
    exact h.single q q' c c'
  · intro r hr q c
    rw [hcall, hwait]
    exact h.asked r hr q c
  · refine ⟨h.transfer.cur, fun hx => ?_, fun hx => ?_, h.transfer.error⟩
    · obtain ⟨l, h1, h2⟩ := h.transfer.fill hx
      exact ⟨l, h1, hrest _ _ _ h2⟩
    · obtain ⟨h0, l, h1, h2, h3⟩ := h.transfer.drain hx
      exact ⟨h0, l, h1, h2, fun hne => hrest _ _ _ (h3 hne)⟩

/-- Process `p` leaves its call; neither a request to be answered nor a transfer needs it. -/
lemma Inv.exit (h : Inv s) (hv : v.call = none)
    (hr : ∀ r ∈ s.pending, r.call.kind = .WM_PUTD → r.proc ≠ p)
    (ht : ∀ base n l, s.xstate = .XFILL ∨ s.xstate = .XDRAIN ∧ s.x_count ≠ s.xbuf.length →
      Rest s base n l → Rest (goes s p v) base n l) :
    Inv (goes s p v) := by
  have hcall : ∀ q c, ((goes s p v).pc q).call = some c → (s.pc q).call = some c := by
    intro q c
    by_cases hq : q = p
    · rw [hq, goes_self, hv]
      nofun
    · rw [goes_of_ne hq]
      exact fun h => h
  have hwait : ∀ q c id, ((goes s p v).pc q).waits c id → (s.pc q).waits c id := by
    intro q c id
    by_cases hq : q = p
    · rw [hq, goes_self]
      intro hw
      rw [hw.call] at hv
      cases hv
    · rw [goes_of_ne hq]
      exact fun h => h
  have hother : ∀ q c, ((goes s p v).pc q).call = some c → q ≠ p := by
    rintro q c hq rfl
    rw [goes_self, hv] at hq
    cases hq
  refine ⟨fun q q' c c' hq hq' => h.single q q' c c' (hcall q c hq) (hcall q' c' hq'),
    fun q c hq => ?_, fun q c id hq => h.writing q c id (hwait q c id hq),
    fun q c id hq => h.waiting q c id (hwait q c id hq), fun r hr' q c hq h1 h2 => ?_,
    fun r hr' hk => ?_, h.known, fun q c id hq => h.waited q c id (hwait q c id hq), h.distinct, ?_,
    h.taken, h.done⟩
  · have hne := hother q c (by rw [hq]; rfl)
    rw [goes_of_ne hne] at hq
    exact h.held q c hq
  · have hne := hother q c hq
    rw [goes_of_ne hne] at hq ⊢
    exact h.asked r hr' q c hq h1 h2
  · rw [goes_of_ne (hr r hr' hk)]
    exact h.writer r hr' hk
  · refine ⟨h.transfer.cur, fun hx => ?_, fun hx => ?_, h.transfer.error⟩
    · obtain ⟨l, h1, h2⟩ := h.transfer.fill hx
      exact ⟨l, h1, ht _ _ _ (.inl hx) h2⟩
    · obtain ⟨h0, l, h1, h2, h3⟩ := h.transfer.drain hx
      exact ⟨h0, l, h1, h2, fun hne => ht _ _ _ (.inr ⟨hx, hne⟩) (h3 hne)⟩

/-- Nobody else is needed when one leaves who does not wait as a writer. -/
lemma Inv.leave (h : Inv s) (hv : v.call = none)
    (hw : ∀ c id, (s.pc p).waits c id → c.kind ≠ .WM_PUTD) : Inv (goes s p v) := by
  refine h.exit hv (fun r hr hk he => ?_) fun base n l _ ⟨q, c, h1, h2⟩ => ⟨q, c, ?_, h2⟩
  · have := h.writer r hr hk
    rw [he] at this
    exact hw _ _ this hk
  · have hne : q ≠ p := by
      rintro rfl
      exact hw _ _ h1 h2.1
    rwa [goes_of_ne hne]

lemma Inv.opened (h : Inv s) : Inv (opened s d) :=
  ⟨h.single, h.held, h.writing, h.waiting, h.asked, h.writer, h.known, h.waited, h.distinct,
    ⟨h.transfer.cur, h.transfer.fill, h.transfer.drain, h.transfer.error⟩, h.taken, h.done⟩

/-- A bit is cleared, and nobody is behind its door. -/
lemma Inv.unflag (h : Inv s)
    (hno : ∀ q c, (s.pc q).call = some c → ¬ (c.minor = d ∧ c.bit = b)) :
    Inv (setflag s d b false) := by
  refine ⟨h.single, fun q c hq => ?_, fun q c id hq hk => ?_, fun q c id hq hk => ?_, h.asked,
    h.writer, h.known, h.waited, h.distinct,
    ⟨h.transfer.cur, h.transfer.fill, h.transfer.drain, h.transfer.error⟩, h.taken, h.done⟩
  · rw [setflag_of_ne (hno q c (by rw [show s.pc q = .alloc c from hq]; rfl))]
    exact h.held q c hq
  · rw [setflag_of_ne (hno q c hq.call)]
    exact h.writing q c id hq hk
  · rw [Asked, setflag_of_ne (hno q c hq.call)]
    exact h.waiting q c id hq hk

lemma Call.bit_eq_writing : c.bit = .WRITING ↔ c.kind = .WM_PUTD := by
  rw [Call.bit]
  cases c.kind <;> simp [Kind.bit]

lemma Call.putd_of_bit (h : c.bit = c'.bit) (hk : c'.kind = .WM_PUTD) : c.kind = .WM_PUTD :=
  Call.bit_eq_writing.mp (h.trans (Call.bit_eq_writing.mpr hk))

lemma Pc.call_cases (h : v.call = some c) : v = .alloc c ∨ ∃ id, v.waits c id := by
  cases v with
  | alloc c' =>
    obtain rfl := Option.some.inj h
    exact .inl rfl
  | wait c' id =>
    obtain rfl := Option.some.inj h
    exact .inr ⟨id, .inl rfl⟩
  | asleep c' id =>
    obtain rfl := Option.some.inj h
    exact .inr ⟨id, .inr rfl⟩
  | _ => cases h

/-- Whoever is alone behind a door leaves nobody there. -/
lemma Inv.nobody (h : Inv s) (hp : (s.pc p).call = some c) (hv : v.call = none) :
    ∀ q c', ((goes s p v).pc q).call = some c' → ¬ (c'.minor = c.minor ∧ c'.bit = c.bit) := by
  rintro q c' hq ⟨h1, h2⟩
  have hne : q ≠ p := by
    rintro rfl
    rw [goes_self, hv] at hq
    cases hq
  rw [goes_of_ne hne] at hq
  exact hne (h.single q p c' c hq hp h1 h2)

lemma Rest.goes {l : List Byte} (h : Rest s base n l) (hp : (s.pc p).call = none ∨
    ∃ c, s.pc p = .alloc c) : Rest (goes s p v) base n l := by
  obtain ⟨q, c, h1, h2⟩ := h
  have hne : q ≠ p := by
    rintro rfl
    rcases hp with hp | ⟨c', hp⟩
    · rw [h1.call] at hp
      cases hp
    · exact h1.not_alloc hp
  exact ⟨q, c, by rwa [goes_of_ne hne], h2⟩

/-- Process `p` enters through the door of `hrlock`. -/
lemma Inv.enter (h : Inv s) (hp : (s.pc p).call = none) (hf : s.flags c.minor c.bit = false)
    (hq : c.kind ≠ .WM_PUTD → Quiet s c.minor c.bit) :
    Inv (setflag (goes s p (.alloc c)) c.minor c.bit true) := by
  have hno : ∀ q c', (s.pc q).call = some c' → ¬ (c'.minor = c.minor ∧ c'.bit = c.bit) := by
    rintro q c' hc' ⟨h1, h2⟩
    have hclear : ¬ s.flags c'.minor c'.bit = true := by
      rw [h1, h2, hf]
      nofun
    rcases Pc.call_cases hc' with ha | ⟨id, hw⟩
    · exact hclear (h.held q c' ha)
    · by_cases hk : c'.kind = .WM_PUTD
      · exact hclear (h.writing q c' id hw hk).1
      · exact (hq fun hk' => hk (Call.putd_of_bit h2 hk')).1 q c' id hw ⟨h1, h2⟩
  have hpend : ∀ r ∈ s.pending, ¬ (r.call.minor = c.minor ∧ r.call.bit = c.bit) := by
    rintro r hr ⟨h1, h2⟩
    by_cases hk : r.call.kind = .WM_PUTD
    · exact hno r.proc r.call (h.writer r hr hk).call ⟨h1, h2⟩
    · exact (hq fun hk' => hk (Call.putd_of_bit h2 hk')).2 r hr ⟨h1, h2⟩
  have hwait : ∀ q c' id, ((goes s p (.alloc c)).pc q).waits c' id → (s.pc q).waits c' id := by
    intro q c' id hw
    by_cases hqp : q = p
    · rw [hqp, goes_self] at hw
      rcases hw with hw | hw <;> cases hw
    · rwa [goes_of_ne hqp] at hw
  have hcall : ∀ q c', ((goes s p (.alloc c)).pc q).call = some c' → q = p ∧ c' = c ∨
      (s.pc q).call = some c' := by
    intro q c' hc'
    by_cases hqp : q = p
    · rw [hqp, goes_self] at hc'
      exact .inl ⟨hqp, (Option.some.inj hc').symm⟩
    · rw [goes_of_ne hqp] at hc'
      exact .inr hc'
  refine ⟨fun q q' c1 c2 h1 h2 hm hb => ?_, fun q c' ha => ?_, fun q c' id hw hk => ?_,
    fun q c' id hw hk => ?_, fun r hr q c' hc' h1 h2 => ?_, fun r hr hk => ?_, h.known,
    fun q c' id hw => h.waited q c' id (hwait q c' id hw), h.distinct, ?_, h.taken, h.done⟩
  · rcases hcall q c1 h1 with ⟨hqp, he⟩ | hc1
    · rcases hcall q' c2 h2 with ⟨hqp', -⟩ | hc2
      · rw [hqp, hqp']
      · subst he
        exact absurd ⟨hm.symm, hb.symm⟩ (hno q' c2 hc2)
    · rcases hcall q' c2 h2 with ⟨-, he⟩ | hc2
      · subst he
        exact absurd ⟨hm, hb⟩ (hno q c1 hc1)
      · exact h.single q q' c1 c2 hc1 hc2 hm hb
  · change (goes s p (.alloc c)).pc q = .alloc c' at ha
    by_cases hqp : q = p
    · rw [hqp, goes_self] at ha
      cases ha
      exact setflag_self
    · rw [goes_of_ne hqp] at ha
      rw [setflag_of_ne (hno q c' (by rw [ha]; rfl))]
      exact h.held q c' ha
  · have hw' := hwait q c' id hw
    rw [setflag_of_ne (hno q c' hw'.call)]
    exact h.writing q c' id hw' hk
  · have hw' := hwait q c' id hw
    rw [Asked, setflag_of_ne (hno q c' hw'.call)]
    exact h.waiting q c' id hw' hk
  · rcases hcall q c' hc' with ⟨-, rfl⟩ | hc1
    · exact absurd ⟨h1.symm, h2.symm⟩ (hpend r hr)
    · have hw := h.asked r hr q c' hc1 h1 h2
      have hqp : q ≠ p := by
        rintro rfl
        rw [hp] at hc1
        cases hc1
      change ((goes s p (.alloc c)).pc q).waits r.call r.id
      rwa [goes_of_ne hqp]
  · have hw := h.writer r hr hk
    have hqp : r.proc ≠ p := by
      intro he
      rw [he] at hw
      rw [hw.call] at hp
      cases hp
    change ((goes s p (.alloc c)).pc r.proc).waits r.call r.id
    rwa [goes_of_ne hqp]
  · refine ⟨h.transfer.cur, fun hx => ?_, fun hx => ?_, h.transfer.error⟩
    · obtain ⟨l, h1, h2⟩ := h.transfer.fill hx
      exact ⟨l, h1, h2.goes (.inl hp)⟩
    · obtain ⟨h0, l, h1, h2, h3⟩ := h.transfer.drain hx
      exact ⟨h0, l, h1, h2, fun hne => (h3 hne).goes (.inl hp)⟩

/-- The request of process `p` is linked. -/
lemma Inv.hrlink (h : Inv s) (hp : s.pc p = .alloc c) :
    Inv { goes s p (.wait c s.nextid) with
      pending := s.pending ++ [⟨s.nextid, c, p⟩]
      nextid := s.nextid + 1
      buf := Function.update s.buf s.nextid (bytes (s.mem p) c.base c.count) } := by
  have hcp : (s.pc p).call = some c := by rw [hp]; rfl
  have hpend : ∀ r ∈ s.pending, ¬ (c.minor = r.call.minor ∧ c.bit = r.call.bit) := by
    rintro r hr ⟨h1, h2⟩
    exact (h.asked r hr p c hcp h1 h2).not_alloc hp
  have hmem : ∀ r, r ∈ s.pending ++ [(⟨s.nextid, c, p⟩ : Request)] →
      r ∈ s.pending ∨ r = ⟨s.nextid, c, p⟩ := by
    intro r hr
    simpa using hr
  have hcall : ∀ q, ((goes s p (.wait c s.nextid)).pc q).call = (s.pc q).call := by
    intro q
    by_cases hqp : q = p
    · rw [hqp, goes_self, hcp]
      rfl
    · rw [goes_of_ne hqp]
  have hwait : ∀ q c' id, ((goes s p (.wait c s.nextid)).pc q).waits c' id →
      q = p ∧ c' = c ∧ id = s.nextid ∨ q ≠ p ∧ (s.pc q).waits c' id := by
    intro q c' id hw
    by_cases hqp : q = p
    · rw [hqp, goes_self] at hw
      rcases hw with hw | hw
      · cases hw
        exact .inl ⟨hqp, rfl, rfl⟩
      · cases hw
    · rw [goes_of_ne hqp] at hw
      exact .inr ⟨hqp, hw⟩
  have hold : ∀ q c' id, (s.pc q).waits c' id →
      ((goes s p (.wait c s.nextid)).pc q).waits c' id := by
    intro q c' id hw
    have hqp : q ≠ p := by
      rintro rfl
      exact hw.not_alloc hp
    rwa [goes_of_ne hqp]
  have hbuf : ∀ id, id < s.nextid →
      Function.update s.buf s.nextid (bytes (s.mem p) c.base c.count) id = s.buf id :=
    fun id hid => Function.update_of_ne hid.ne ..
  refine ⟨fun q q' c1 c2 => ?_, fun q c' ha => ?_, fun q c' id hw hk => ?_,
    fun q c' id hw hk => ?_, fun r hr q c' hc' h1 h2 => ?_, fun r hr hk => ?_, fun r hr => ?_,
    fun q c' id hw => ?_, fun r hr r' hr' he => ?_, ?_, fun x hx => ?_, fun x hx => ?_⟩
  · change ((goes s p (.wait c s.nextid)).pc q).call = _ →
      ((goes s p (.wait c s.nextid)).pc q').call = _ → _
    rw [hcall, hcall]
    exact h.single q q' c1 c2
  · change (goes s p (.wait c s.nextid)).pc q = .alloc c' at ha
    have hqp : q ≠ p := by
      rintro rfl
      rw [goes_self] at ha
      cases ha
    rw [goes_of_ne hqp] at ha
    exact h.held q c' ha
  · rcases hwait q c' id hw with ⟨rfl, rfl, rfl⟩ | ⟨-, hw⟩
    · exact ⟨h.held q c' hp, Function.update_self ..⟩
    · dsimp only
      rw [hbuf id (h.waited q c' id hw)]
      exact h.writing q c' id hw hk
  · rcases hwait q c' id hw with ⟨rfl, rfl, rfl⟩ | ⟨-, hw⟩
    · exact .inl ⟨h.held q c' hp, _, List.mem_append_right _ (List.mem_singleton_self _), rfl, rfl⟩
    · rcases h.waiting q c' id hw hk with ⟨h1, r, hr, h2⟩ | ⟨h1, h2⟩
      · exact .inl ⟨h1, r, List.mem_append_left _ hr, h2⟩
      · refine .inr ⟨fun r hr => ?_, h2⟩
        rcases hmem r hr with hr | rfl
        · exact h1 r hr
        · exact (h.waited q c' id hw).ne'
  · change ((goes s p (.wait c s.nextid)).pc q).call = some c' at hc'
    rw [hcall] at hc'
    rcases hmem r hr with hr | rfl
    · exact hold q _ _ (h.asked r hr q c' hc' h1 h2)
    · obtain rfl := h.single q p c' c hc' hcp h1 h2
      change ((goes s q (.wait c s.nextid)).pc q).waits c s.nextid
      rw [goes_self]
      exact .inl rfl
  · rcases hmem r hr with hr | rfl
    · exact hold _ _ _ (h.writer r hr hk)
    · change ((goes s p (.wait c s.nextid)).pc p).waits c s.nextid
      rw [goes_self]
      exact .inl rfl
  · rcases hmem r hr with hr | rfl
    · exact (h.known r hr).trans (Nat.lt_succ_self _)
    · exact Nat.lt_succ_self _
  · rcases hwait q c' id hw with ⟨-, -, rfl⟩ | ⟨-, hw⟩
    · exact Nat.lt_succ_self _
    · exact (h.waited q c' id hw).trans (Nat.lt_succ_self _)
  · rcases hmem r hr with hr | rfl <;> rcases hmem r' hr' with hr' | rfl
    · exact h.distinct r hr r' hr' he
    · exact absurd he (h.known r hr).ne
    · exact absurd he (h.known r' hr').ne'
    · rfl
  · refine ⟨fun hx => ⟨(h.transfer.cur hx).1.trans (Nat.lt_succ_self _), fun r hr => ?_⟩,
      fun hx => ?_, fun hx => ?_, fun hx => ?_⟩
    · rcases hmem r hr with hr | rfl
      · exact (h.transfer.cur hx).2 r hr
      · exact (h.transfer.cur hx).1.ne'
    · obtain ⟨l, h1, q, c', hw, h2⟩ := h.transfer.fill hx
      refine ⟨l, ?_, q, c', hold _ _ _ hw, h2⟩
      exact (hbuf _ (h.waited _ _ _ hw)).trans h1
    · obtain ⟨h0, l, h1, h2, h3⟩ := h.transfer.drain hx
      have hlt := (h.transfer.cur (by
        change s.xstate = _ at hx
        rw [hx]
        nofun)).1
      refine ⟨h0, l, (hbuf _ hlt).trans h1, h2, fun hne => ?_⟩
      obtain ⟨q, c', hw, h4⟩ := h3 hne
      exact ⟨q, c', hold _ _ _ hw, h4⟩
    · have hlt := (h.transfer.cur (by
        change s.xstate = _ at hx
        rw [hx]
        nofun)).1
      change s.sent <+: Function.update s.buf s.nextid (bytes (s.mem p) c.base c.count) s.xcur
      rw [hbuf _ hlt]
      exact h.transfer.error hx
  · obtain ⟨h1, h2, h3⟩ := h.taken x hx
    refine ⟨fun r hr => ?_, h2.trans (Nat.lt_succ_self _), h3⟩
    rcases hmem r hr with hr | rfl
    · exact h1 r hr
    · exact h2.ne'
  · obtain ⟨h1, h2⟩ := h.done x hx
    refine ⟨h1.trans (Nat.lt_succ_self _), ?_⟩
    dsimp only
    rw [hbuf _ h1]
    exact h2

/-- Process `p` consumes the answer that is stored. -/
lemma Inv.consume (h : Inv s) (hp : s.pc p = .wait c id) (hk : c.kind ≠ .WM_PUTD)
    (hf : s.flags c.minor c.bit = false) : Inv (consume s p c id) := by
  have hw : (s.pc p).waits c id := .inl hp
  have hans : Answered s c id := by
    rcases h.waiting p c id hw hk with hask | hans
    · exact absurd (hask.1.symm.trans hf) nofun
    · exact hans
  obtain ⟨h1, h2, h3⟩ := hans
  have hl : Inv (goes s p .idle) := h.leave rfl fun c' id' hw' => (hw'.unique hw).1 ▸ hk
  have ht : Inv { goes s p .idle with
      taken := s.taken ++ [(id, s.data c.minor c.kind)] } := by
    refine ⟨hl.single, hl.held, hl.writing, hl.waiting, hl.asked, hl.writer, hl.known, hl.waited,
      hl.distinct, ⟨hl.transfer.cur, hl.transfer.fill, hl.transfer.drain, hl.transfer.error⟩,
      fun x hx => ?_, hl.done⟩
    rcases List.mem_append.mp hx with hx | hx
    · exact h.taken x hx
    · obtain rfl := List.mem_singleton.mp hx
      exact ⟨h1, h.waited p c id hw, h2, h3⟩
  rw [HrReply.consume]
  dsimp only
  split
  · exact ht.opened
  · exact ht

lemma mem_unanswered : r ∈ unanswered s id ↔ r ∈ s.pending ∧ r.id ≠ id := by
  simp [unanswered]

/-- The server answers. -/
lemma Inv.answer (h : Inv s) (hr : r ∈ s.pending) (hk : r.call.kind.fits a = true) :
    Inv (setflag { s with
      data := Function.update s.data r.call.minor
        (Function.update (s.data r.call.minor) r.call.kind (a, r.id))
      pending := unanswered s r.id
      given := Function.update s.given r.id (some a) } r.call.minor r.call.bit false) := by
  have hput : r.call.kind ≠ .WM_PUTD := by
    intro he
    rw [he] at hk
    cases a <;> cases hk
  have hsub : ∀ r' ∈ unanswered s r.id, r' ∈ s.pending := fun r' hr' => (mem_unanswered.mp hr').1
  refine ⟨h.single, fun q c ha => ?_, fun q c id hw hkc => ?_, fun q c id hw hkc => ?_,
    fun r' hr' => h.asked r' (hsub r' hr'), fun r' hr' => h.writer r' (hsub r' hr'),
    fun r' hr' => h.known r' (hsub r' hr'), h.waited,
    fun r1 h1 r2 h2 => h.distinct r1 (hsub r1 h1) r2 (hsub r2 h2),
    ⟨fun hx => ⟨(h.transfer.cur hx).1, fun r' hr' => (h.transfer.cur hx).2 r' (hsub r' hr')⟩,
      h.transfer.fill, h.transfer.drain, h.transfer.error⟩, fun x hx => ?_, h.done⟩
  · have hne : ¬ (c.minor = r.call.minor ∧ c.bit = r.call.bit) := by
      rintro ⟨h1, h2⟩
      exact (h.asked r hr q c (by rw [show s.pc q = .alloc c from ha]; rfl) h1 h2).not_alloc ha
    rw [setflag_of_ne hne]
    exact h.held q c ha
  · have hne : ¬ (c.minor = r.call.minor ∧ c.bit = r.call.bit) := fun he =>
      hput (Call.putd_of_bit he.2.symm hkc)
    rw [setflag_of_ne hne]
    exact h.writing q c id hw hkc
  · by_cases hkey : c.minor = r.call.minor ∧ c.bit = r.call.bit
    · -- this is the answer that `q` waits for
      obtain ⟨rfl, rfl⟩ := (h.asked r hr q c hw.call hkey.1 hkey.2).unique hw
      refine .inr ⟨fun r' hr' => (mem_unanswered.mp hr').2, ?_, ?_⟩
      · simp [setflag]
      · simp [setflag]
    · rcases h.waiting q c id hw hkc with ⟨h1, r', hr', h2, h3⟩ | ⟨h1, h2, h3⟩
      · refine .inl ⟨?_, r', mem_unanswered.mpr ⟨hr', fun he => ?_⟩, h2, h3⟩
        · rw [setflag_of_ne hkey]
          exact h1
        · obtain rfl := h.distinct r' hr' r hr he
          exact hkey (by rw [h3]; exact ⟨rfl, rfl⟩)
      · have hid : id ≠ r.id := (h1 r hr).symm
        have hdata : (Function.update s.data r.call.minor (Function.update (s.data r.call.minor)
            r.call.kind (a, r.id))) c.minor c.kind = s.data c.minor c.kind := by
          by_cases hm : c.minor = r.call.minor
          · rw [hm, Function.update_self, Function.update_of_ne fun he => hkey ⟨hm, by
              rw [Call.bit, he, Call.bit]⟩]
          · rw [Function.update_of_ne hm]
        refine .inr ⟨fun r' hr' => h1 r' (hsub r' hr'), ?_, ?_⟩
        · change (Function.update s.data r.call.minor _ c.minor c.kind).2 = id
          rw [hdata, h2]
        · change Function.update s.given r.id (some a) id =
            some (Function.update s.data r.call.minor _ c.minor c.kind).1
          rw [hdata, Function.update_of_ne hid, h3]
  · obtain ⟨h1, h2, h3, h4⟩ := h.taken x hx
    refine ⟨fun r' hr' => h1 r' (hsub r' hr'), h2, h3, ?_⟩
    change Function.update s.given r.id (some a) x.1 = some x.2.1
    rw [Function.update_of_ne (h1 r hr).symm]
    exact h4

/-- `CIOGETD` takes up a write. -/
lemma Inv.getd (h : Inv s) (hr : r ∈ s.pending) (hk : r.call.kind = .WM_PUTD) :
    Inv { s with
      xstate := .XFILL
      x_src := r.call.minor
      x_count := r.call.count
      x_srcp := r.call.base
      xcur := r.id
      sent := []
      pending := unanswered s r.id } := by
  have hsub : ∀ r' ∈ unanswered s r.id, r' ∈ s.pending := fun r' hr' => (mem_unanswered.mp hr').1
  have hw := h.writer r hr hk
  refine ⟨h.single, h.held, h.writing, fun q c id hwq hkc => ?_,
    fun r' hr' => h.asked r' (hsub r' hr'), fun r' hr' => h.writer r' (hsub r' hr'),
    fun r' hr' => h.known r' (hsub r' hr'), h.waited,
    fun r1 h1 r2 h2 => h.distinct r1 (hsub r1 h1) r2 (hsub r2 h2),
    ⟨fun _ => ⟨h.known r hr, fun r' hr' => (mem_unanswered.mp hr').2⟩,
      fun _ => ⟨_, (h.writing _ _ _ hw hk).2, r.proc, r.call, hw, hk, rfl, rfl⟩, nofun, nofun⟩,
    fun x hx => ?_, h.done⟩
  · rcases h.waiting q c id hwq hkc with ⟨h1, r', hr', h2, h3⟩ | ⟨h1, h2⟩
    · refine .inl ⟨h1, r', mem_unanswered.mpr ⟨hr', fun he => ?_⟩, h2, h3⟩
      obtain rfl := h.distinct r' hr' r hr he
      exact hkc (h3 ▸ hk)
    · exact .inr ⟨fun r' hr' => h1 r' (hsub r' hr'), h2⟩
  · obtain ⟨h1, h2⟩ := h.taken x hx
    exact ⟨fun r' hr' => h1 r' (hsub r' hr'), h2⟩

/-- `CIOGETD` returns with what it has delivered. -/
lemma Inv.returns {ok : Bool} (h : Inv s) (hid : s.xcur < s.nextid)
    (hpre : s.sent <+: s.buf s.xcur) (hall : ok = true → s.sent = s.buf s.xcur) :
    Inv (returns s ok) := by
  refine ⟨h.single, h.held, h.writing, h.waiting, h.asked, h.writer, h.known, h.waited, h.distinct,
    ⟨fun hx => absurd rfl hx, nofun, nofun, nofun⟩, h.taken, fun x hx => ?_⟩
  rcases List.mem_append.mp hx with hx | hx
  · exact h.done x hx
  · obtain rfl := List.mem_singleton.mp hx
    exact ⟨hid, hpre, hall⟩

/-- The transfer engine is in another state. -/
lemma Inv.with_transfer (h : Inv s) (ht : Transfer t) (h1 : t.flags = s.flags) (h2 : t.data = s.data)
    (h3 : t.pc = s.pc) (h4 : t.pending = s.pending) (h5 : t.nextid = s.nextid)
    (h6 : t.taken = s.taken) (h7 : t.given = s.given) (h8 : t.buf = s.buf) (h9 : t.done = s.done)
    (h10 : t.mem = s.mem) : Inv t := by
  refine ⟨?_, ?_, ?_, ?_, ?_, ?_, ?_, ?_, ?_, ht, ?_, ?_⟩
  · rw [h3]
    exact h.single
  · rw [h3, h1]
    exact h.held
  · rw [h3, h1, h8, h10]
    exact h.writing
  · unfold Asked Answered
    rw [h3, h1, h2, h4, h7]
    exact h.waiting
  · rw [h3, h4]
    exact h.asked
  · rw [h3, h4]
    exact h.writer
  · rw [h4, h5]
    exact h.known
  · rw [h3, h5]
    exact h.waited
  · rw [h4]
    exact h.distinct
  · rw [h4, h5, h6, h7]
    exact h.taken
  · rw [h5, h8, h9]
    exact h.done

lemma Inv.drain {ok : Bool} (h : Inv s) (hx : s.xstate = .XDRAIN) : Inv (exec s (.drain ok)) := by
  obtain ⟨hid, hne⟩ := h.transfer.cur (by rw [hx]; nofun)
  obtain ⟨hle, l, hbuf, hlast, hrest⟩ := h.transfer.drain hx
  have hpre : s.sent <+: s.buf s.xcur := by
    rw [hbuf, List.append_assoc]
    exact List.prefix_append _ _
  cases ok with
  | false => exact h.returns hid hpre nofun
  | true =>
    dsimp only [exec]
    rw [if_pos rfl]
    by_cases hz : s.x_count - s.xbuf.length = 0
    · -- all is delivered
      rw [if_pos hz]
      have hl : l = [] := hlast (by omega)
      rw [hl, List.append_nil] at hbuf
      refine ⟨h.single, h.held, h.writing, h.waiting, h.asked, h.writer, h.known, h.waited,
        h.distinct, ⟨fun hx => absurd rfl hx, nofun, nofun, nofun⟩, h.taken, fun x hx => ?_⟩
      rcases List.mem_append.mp hx with hx | hx
      · exact h.done x hx
      · obtain rfl := List.mem_singleton.mp hx
        refine ⟨hid, ?_, fun _ => hbuf.symm⟩
        change s.sent ++ s.xbuf <+: s.buf s.xcur
        rw [hbuf]
    · rw [if_neg hz]
      refine h.with_transfer ⟨fun _ => ⟨hid, hne⟩, fun _ => ⟨l, hbuf, hrest (by omega)⟩, nofun,
        nofun⟩ rfl rfl rfl rfl rfl rfl rfl rfl rfl rfl

lemma Inv.store (h : Inv s) {x : ℕ} {y : Byte} (hp : s.pc p = .idle) :
    Inv { s with mem := Function.update s.mem p (Function.update (s.mem p) x y) } := by
  have hmem : ∀ q c id, (s.pc q).waits c id →
      Function.update s.mem p (Function.update (s.mem p) x y) q = s.mem q := by
    intro q c id hw
    refine Function.update_of_ne ?_ ..
    rintro rfl
    rw [hp] at hw
    rcases hw with hw | hw <;> cases hw
  have hrest : ∀ base n l, Rest s base n l →
      Rest { s with mem := Function.update s.mem p (Function.update (s.mem p) x y) } base n l := by
    rintro base n l ⟨q, c, h1, h2, h3, h4⟩
    refine ⟨q, c, h1, h2, h3, ?_⟩
    dsimp only
    rw [hmem q c _ h1, h4]
  refine ⟨h.single, h.held, fun q c id hw hk => ?_, h.waiting, h.asked, h.writer, h.known, h.waited,
    h.distinct, ⟨h.transfer.cur, fun hx => ?_, fun hx => ?_, h.transfer.error⟩, h.taken, h.done⟩
  · dsimp only
    rw [hmem q c id hw]
    exact h.writing q c id hw hk
  · obtain ⟨l, h1, h2⟩ := h.transfer.fill hx
    exact ⟨l, h1, hrest _ _ _ h2⟩
  · obtain ⟨h0, l, h1, h2, h3⟩ := h.transfer.drain hx
    exact ⟨h0, l, h1, h2, fun hne => hrest _ _ _ (h3 hne)⟩

lemma xcheck_not_filling {ok : Bool} (h : ¬ Filling s d) : xcheck s p d ok = (s, false) := if_neg h

@[simp] lemma xcheck_pc {ok : Bool} : (xcheck s p d ok).1.pc = s.pc := by
  rw [xcheck]
  split
  · split <;> rfl
  · rfl

/-- The writing process calls `xcheck`: if that ends its write, nothing more is wanted of it. -/
lemma Inv.xcheck (h : Inv s) (ok : Bool) (hp : s.pc p = .wait c id) (hk : c.kind = .WM_PUTD) :
    Inv (xcheck s p c.minor ok).1 ∧ ((xcheck s p c.minor ok).2 = true →
      (∀ r ∈ (xcheck s p c.minor ok).1.pending, r.id ≠ id) ∧
      ¬ ((xcheck s p c.minor ok).1.xstate = .XFILL ∨ (xcheck s p c.minor ok).1.xstate = .XDRAIN ∧
        (xcheck s p c.minor ok).1.x_count ≠ (xcheck s p c.minor ok).1.xbuf.length)) := by
  by_cases hfill : Filling s c.minor
  · obtain ⟨hx, hsrc⟩ := hfill
    obtain ⟨hid, hne⟩ := h.transfer.cur (by rw [hx]; nofun)
    obtain ⟨l, hbuf, q, c', hw, hk', hm, rfl⟩ := h.transfer.fill hx
    -- it is the writer of the transfer
    have hbit : c'.bit = c.bit := by rw [Call.bit, hk', Call.bit, hk]
    obtain rfl := h.single q p c' c hw.call (by rw [hp]; rfl) (hm.trans hsrc) hbit
    obtain ⟨rfl, hxid⟩ := hw.unique (.inl hp)
    cases ok with
    | false =>
      have he : HrReply.xcheck s q c'.minor false = ({ s with xstate := .XERROR }, true) := by
        rw [HrReply.xcheck, if_pos ⟨hx, hsrc⟩]
        rfl
      rw [he]
      refine ⟨h.with_transfer ⟨fun _ => ⟨hid, hne⟩, nofun, nofun, fun _ => ?_⟩ rfl rfl rfl rfl rfl
        rfl rfl rfl rfl rfl, fun _ => ⟨hxid ▸ hne, by simp⟩⟩
      dsimp only
      rw [hbuf]
      exact List.prefix_append _ _
    | true =>
      have he : HrReply.xcheck s q c'.minor true =
          ({ s with xbuf := bytes (s.mem q) s.x_srcp (min XBUF s.x_count), xstate := .XDRAIN },
            decide (min XBUF s.x_count = s.x_count)) := by
        rw [HrReply.xcheck, if_pos ⟨hx, hsrc⟩]
        rfl
      have hle : min XBUF s.x_count ≤ s.x_count := Nat.min_le_right ..
      rw [he]
      refine ⟨h.with_transfer ⟨fun _ => ⟨hid, hne⟩, nofun, fun _ => ⟨?_, bytes (s.mem q)
        (s.x_srcp + min XBUF s.x_count) (s.x_count - min XBUF s.x_count), ?_, fun hcount => ?_,
        fun _ => ⟨q, c', hw, hk', hm, ?_⟩⟩, nofun⟩ rfl rfl rfl rfl rfl rfl rfl rfl rfl rfl,
        fun hall => ⟨hxid ▸ hne, ?_⟩⟩
      · rw [bytes_length]
        exact hle
      · dsimp only
        rw [hbuf, List.append_assoc, ← bytes_append, Nat.add_sub_cancel' hle]
      · rw [bytes_length] at hcount
        rw [← hcount, Nat.sub_self]
        rfl
      · dsimp only
        rw [bytes_length]
      · have hcount : min XBUF s.x_count = s.x_count := by simpa using hall
        rintro (hx' | ⟨-, hlen⟩)
        · cases hx'
        · rw [bytes_length] at hlen
          exact hlen hcount.symm
  · rw [xcheck_not_filling hfill]
    exact ⟨h, nofun⟩

lemma Pc.eq_alloc (h : v.isAlloc = true) : ∃ c, v = .alloc c := by
  cases v <;> first | exact ⟨_, rfl⟩ | cases h

lemma Pc.eq_lock (h : v.isLock = true) : ∃ c, v = .lock c := by
  cases v <;> first | exact ⟨_, rfl⟩ | cases h

lemma asleep_waits {c' : Call} {id' : ℕ} (hp : s.pc p = .wait c id) :
    (Pc.asleep c id).waits c' id' ↔ (s.pc p).waits c' id' := by
  rw [hp]
  constructor
  · rintro (h | h) <;> cases h
    exact .inl rfl
  · rintro (h | h) <;> cases h
    exact .inr rfl

/-- One turn of a writer. -/
lemma Inv.look_write (h : Inv s) {ok : Bool} (hp : s.pc p = .wait c id) (hk : c.kind = .WM_PUTD) :
    Inv (if (HrReply.xcheck s p c.minor ok).2 then
        setflag (goes (HrReply.xcheck s p c.minor ok).1 p .idle) c.minor .WRITING false
      else goes (HrReply.xcheck s p c.minor ok).1 p (.asleep c id)) := by
  obtain ⟨hi, hend⟩ := h.xcheck ok hp hk
  have hp' : (HrReply.xcheck s p c.minor ok).1.pc p = .wait c id := by rw [xcheck_pc, hp]
  split
  · next hall =>
    obtain ⟨hne, hdone⟩ := hend hall
    have hbit : Bit.WRITING = c.bit := by rw [Call.bit, hk]; rfl
    have hidle : Inv (goes (HrReply.xcheck s p c.minor ok).1 p .idle) := by
      refine hi.exit rfl (fun r hr hkr he => ?_) fun base n l hx => absurd hx hdone
      have hw := hi.writer r hr hkr
      rw [he] at hw
      exact hne r hr (hw.unique (.inl hp')).2
    rw [hbit]
    exact hidle.unflag (hi.nobody (by rw [hp']; rfl) rfl)
  · exact hi.repc (by rw [hp']; rfl) (fun _ _ => asleep_waits hp') nofun

/-- What every careful step keeps. -/
lemma Inv.step {op : Op} (h : Inv s) (hst : CarefulStep s op t) : Inv t := by
  obtain ⟨⟨hen, rfl⟩, hc⟩ := hst
  cases op with
  | call p c =>
    have hp : s.pc p = .idle := hen.1
    dsimp only [exec]
    split
    · exact h.opened
    · exact h.repc (by rw [hp]; rfl) (fun c id => by rw [hp]; simp [Pc.waits]) nofun
  | lock p =>
    dsimp only [exec]
    cases hp : s.pc p with
    | lock c =>
      have hf : s.flags c.minor c.bit = false := by
        have hfree : (s.pc p).free s.flags = true := hen
        rw [hp] at hfree
        simpa [Pc.free] using hfree
      dsimp only
      split
      · -- the bit is as before
        have hidle : Inv (goes s p .idle) :=
          h.repc (by rw [hp]; rfl) (fun c id => by rw [hp]; simp [Pc.waits]) nofun
        have hclear : (HrReply.opened (goes s p .idle) c.minor).flags c.minor c.bit = false := hf
        rw [setflag_same hclear]
        exact hidle.opened
      · next hno =>
        refine h.enter (by rw [hp]; rfl) hf fun hk => ?_
        simp only [Careful, hp] at hc
        exact hc hk hno
    | _ => exact h
  | locksig p =>
    obtain ⟨c, hp⟩ := Pc.eq_lock hen
    exact h.leave rfl fun c id hw => by
      rw [hp] at hw
      rcases hw with hw | hw <;> cases hw
  | nobuf p ok =>
    dsimp only [exec]
    cases hp : s.pc p with
    | alloc c =>
      simp only [Careful, hp] at hc
      dsimp only
      rw [xcheck_not_filling hc]
      exact h
    | _ => exact h
  | allocsig p =>
    obtain ⟨c, hp⟩ := Pc.eq_alloc hen
    exact h.leave rfl fun c id hw => absurd hp hw.not_alloc
  | hrlink p =>
    dsimp only [exec]
    cases hp : s.pc p with
    | alloc c => exact h.hrlink hp
    | _ => exact h
  | look p ok =>
    dsimp only [exec]
    cases hp : s.pc p with
    | wait c id =>
      dsimp only
      by_cases hk : c.kind = .WM_PUTD
      · rw [if_pos hk]
        exact h.look_write hp hk
      · rw [if_neg hk]
        split
        · next hf =>
          simp only [Careful, hp] at hc
          rw [xcheck_not_filling (hc hk hf)]
          exact h.repc (by rw [hp]; rfl) (fun _ _ => asleep_waits hp) nofun
        · next hf => exact h.consume hp hk (by simpa using hf)
    | _ => exact h
  | woken p ssig =>
    dsimp only [exec]
    cases hp : s.pc p with
    | asleep c id =>
      dsimp only
      split
      · next hs =>
        have hl : Inv (goes s p .idle) := h.leave rfl fun c' id' hw => by
          rw [hp] at hw
          rcases hw with hw | hw <;> cases hw
          exact hs.2
        exact hl.unflag (h.nobody (by rw [hp]; rfl) rfl)
      · refine h.repc (by rw [hp]; rfl) (fun c' id' => ?_) nofun
        rw [hp]
        constructor
        · rintro (h | h) <;> cases h
          exact .inr rfl
        · rintro (h | h) <;> cases h
          exact .inl rfl
    | _ => exact h
  | sendm p d ok =>
    dsimp only [exec]
    rw [xcheck_not_filling hc]
    exact h
  | store p a b => exact h.store hen
  | answer r a => exact h.answer hen.1 hen.2
  | getd r => exact h.getd hen.1 hen.2.1
  | drain ok => exact h.drain hen
  | xerror =>
    have hx : s.xstate = .XERROR := hen
    exact h.returns (h.transfer.cur (by rw [hx]; nofun)).1 (h.transfer.error hx) nofun

lemma Inv.matched (h : Inv s) : Matched s := by
  refine ⟨fun x hx => (h.taken x hx).2.2, fun x hx => (h.done x hx).2, fun hx => ?_⟩
  cases hs : s.xstate with
  | XIDLE => exact absurd hs hx
  | XFILL =>
    obtain ⟨l, hl, -⟩ := h.transfer.fill hs
    exact hl ▸ List.prefix_append _ _
  | XDRAIN =>
    obtain ⟨-, l, hl, -⟩ := h.transfer.drain hs
    rw [hl, List.append_assoc]
    exact List.prefix_append _ _
  | XERROR => exact h.transfer.error hs

end Steps

/-- No request has been made yet. -/
structure Initial (s : State) : Prop where
  flags : ∀ d b, s.flags d b = false
  idle : ∀ p, s.pc p = .idle
  xstate : s.xstate = .XIDLE
  pending : s.pending = []
  taken : s.taken = []
  done : s.done = []

lemma Initial.inv {s : State} (h : Initial s) : Inv s := by
  have hno : ∀ p c, (s.pc p).call ≠ some c := fun p c => by rw [h.idle]; nofun
  have hnw : ∀ p c id, ¬ (s.pc p).waits c id := fun p c id hw => hno p c hw.call
  have hnp : ∀ r, r ∉ s.pending := fun r => by rw [h.pending]; exact List.not_mem_nil
  refine ⟨fun p q c c' hp => absurd hp (hno p c), fun p c hp => absurd hp (by rw [h.idle]; nofun),
    fun p c id hw => absurd hw (hnw p c id), fun p c id hw => absurd hw (hnw p c id),
    fun r hr => absurd hr (hnp r), fun r hr => absurd hr (hnp r), fun r hr => absurd hr (hnp r),
    fun p c id hw => absurd hw (hnw p c id), fun r hr => absurd hr (hnp r), ?_,
    fun x hx => ?_, fun x hx => ?_⟩
  · refine ⟨fun hx => absurd h.xstate hx, ?_, ?_, ?_⟩ <;> (rw [h.xstate]; nofun)
  · rw [h.taken] at hx
    cases hx
  · rw [h.done] at hx
    cases hx

/-- **Requests and their answers**: as long as no request is made before the earlier ones under
its bit are done with, and only the writing process comes to `xcheck` while its data are wanted,
every request consumes its own answer and every write delivers its own bytes. -/
theorem replies {s t : State} {ops : List Op} (hs : Initial s) (h : Run CarefulStep s ops t) :
    Matched t :=
  (h.invariant (fun _ _ _ hi hst => Inv.step hi hst) hs.inv).matched

/-! ### Runs -/

/-- No request yet; the memories of the processes differ. -/
def start : State :=
  { flags := fun _ _ => false
    ocount := fun _ => 1
    data := fun _ _ => (.i 0, 0)
    xstate := .XIDLE
    x_src := 0
    x_count := 0
    x_srcp := 0
    xbuf := []
    xcur := 0
    sent := []
    mem := fun p a => 1000 * p + a
    pc := fun _ => .idle
    pending := []
    nextid := 0
    taken := []
    given := fun _ => none
    buf := fun _ => []
    done := [] }

lemma start_initial : Initial start := ⟨fun _ _ => rfl, fun _ => rfl, rfl, rfl, rfl, rfl⟩

/-- A read at window 6. -/
def readCall : Call := ⟨6, .WM_GETC, 0, 0⟩

/-- A write of three bytes at window 6. -/
def writeCall : Call := ⟨6, .WM_PUTD, 10, 3⟩

/-- Enough for a step to be careful. -/
def plain (s : State) : Op → Bool
  | .lock p =>
    match s.pc p with
    | .lock c => c.kind = .WM_PUTD
    | _ => true
  | .nobuf _ _ => false
  | .look p _ =>
    match s.pc p with
    | .wait c _ => c.kind = .WM_PUTD || s.xstate ≠ .XFILL
    | _ => true
  | .sendm _ _ _ => s.xstate ≠ .XFILL
  | _ => true

lemma plain_careful {s : State} {op : Op} (h : plain s op = true) : Careful s op := by
  cases op with
  | lock p =>
    dsimp only [plain, Careful] at h ⊢
    split
    · next c hp =>
      rw [hp] at h
      exact fun hk => absurd (by simpa using h) hk
    · trivial
  | nobuf => cases h
  | look p ok =>
    dsimp only [plain, Careful] at h ⊢
    split
    · next c id hp =>
      rw [hp] at h
      intro hk _ hf
      simp [hk, hf.1] at h
    · trivial
  | sendm p d ok =>
    have hx : s.xstate ≠ .XFILL := by simpa [plain] using h
    exact fun hf => hx hf.1
  | _ => trivial

/-- Process 0 has entered its read; process 1 writes meanwhile, and both are answered. -/
def answeredOps : List Op :=
  [.hrlink 0, .look 0 true, .call 1 writeCall, .lock 1, .hrlink 1, .look 1 true,
    .answer ⟨0, readCall, 0⟩ (.i 65), .getd ⟨1, writeCall, 1⟩, .woken 1 false, .look 1 true,
    .woken 0 false, .look 0 true, .drain true]

/-- Process 0 enters its read. -/
def enterOps : List Op := [.call 0 readCall, .lock 0]

lemma answered_run :
    Along (fun s op => Enabled s op ∧ plain s op = true) exec (enterOps.foldl exec start)
      answeredOps ∧
    (answeredOps.foldl exec (enterOps.foldl exec start)).taken = [(0, .i 65, 0)] ∧
    (answeredOps.foldl exec (enterOps.foldl exec start)).done =
      [(1, [1010, 1011, 1012], true)] := by
  decide +kernel

lemma enter_run : Run CarefulStep start enterOps (enterOps.foldl exec start) := by
  have hcall : CarefulStep start (.call 0 readCall) (exec start (.call 0 readCall)) :=
    ⟨⟨by decide, rfl⟩, trivial⟩
  have hpc : ∀ p, (exec start (.call 0 readCall)).pc p = if p = 0 then .lock readCall else .idle := by
    intro p
    change Function.update (fun _ => Pc.idle) 0 (.lock readCall) p = _
    rw [Function.update_apply]
  refine .cons hcall (.cons ⟨⟨by decide, rfl⟩, ?_⟩ (.nil _))
  dsimp only [Careful]
  rw [hpc 0, if_pos rfl]
  refine fun _ _ => ⟨fun p c id hw => ?_, fun r hr => absurd hr List.not_mem_nil⟩
  rw [hpc] at hw
  by_cases hp : p = 0
  · rw [if_pos hp] at hw
    rcases hw with hw | hw <;> cases hw
  · rw [if_neg hp] at hw
    rcases hw with hw | hw <;> cases hw

theorem replies_answered : ∃ t, Run CarefulStep start (enterOps ++ answeredOps) t ∧
    t.taken = [(0, .i 65, 0)] ∧ t.done = [(1, [1010, 1011, 1012], true)] ∧ Matched t := by
  have hrun : Run CarefulStep (enterOps.foldl exec start) answeredOps _ :=
    Run.along (fun _ _ h => ⟨⟨h.1, rfl⟩, plain_careful h.2⟩) _ _ answered_run.1
  have hall := enter_run.append hrun
  exact ⟨_, hall, answered_run.2.1, answered_run.2.2, replies start_initial hall⟩

/-- A signal ends the read of process 0; process 1 reads, and the server answers process 0. -/
def interruptedOps : List Op :=
  [.call 0 readCall, .lock 0, .hrlink 0, .look 0 true, .woken 0 true, .call 1 readCall, .lock 1,
    .hrlink 1, .look 1 true, .answer ⟨0, readCall, 0⟩ (.i 65), .woken 1 false, .look 1 true]

/-- Process 0 sends a message at the window while the data of process 1 are wanted. -/
def mixedOps : List Op :=
  [.call 1 writeCall, .lock 1, .hrlink 1, .look 1 true, .getd ⟨0, writeCall, 1⟩, .sendm 0 6 true,
    .drain true]

lemma interrupted_run : Along Enabled exec start interruptedOps ∧
    (1, .i 65, 0) ∈ (interruptedOps.foldl exec start).taken := by
  decide +kernel

lemma mixed_run : Along Enabled exec start mixedOps ∧
    (0, [10, 11, 12], true) ∈ (mixedOps.foldl exec start).done ∧
    (mixedOps.foldl exec start).buf 0 = [1010, 1011, 1012] := by
  decide +kernel

/-- Process 1 consumes the answer to the interrupted read of process 0; and the server gets bytes
of process 0 for the write of process 1. -/
theorem replies_mixed : (∃ ops t, Run Step start ops t ∧ ∃ x ∈ t.taken, x.2.2 ≠ x.1) ∧
    (∃ ops t, Run Step start ops t ∧ ∃ x ∈ t.done, ¬ x.2.1 <+: t.buf x.1) ∧
    ∃ ops t, Initial start ∧ Run Step start ops t ∧ ¬ Matched t := by
  have hint : Run Step start interruptedOps _ :=
    Run.along (fun _ _ h => ⟨h, rfl⟩) _ _ interrupted_run.1
  have hmix : Run Step start mixedOps _ := Run.along (fun _ _ h => ⟨h, rfl⟩) _ _ mixed_run.1
  have hend := interrupted_run.2
  obtain ⟨hend2, hbuf⟩ := mixed_run.2
  generalize interruptedOps.foldl exec start = t at hint hend
  generalize mixedOps.foldl exec start = u at hmix hend2 hbuf
  refine ⟨⟨_, t, hint, _, hend, by decide⟩, ⟨_, u, hmix, _, hend2, ?_⟩, _, t, start_initial, hint,
    fun h => absurd (h.own _ hend).1 (by decide)⟩
  rw [hbuf]
  decide

end Coherent.HrReply
