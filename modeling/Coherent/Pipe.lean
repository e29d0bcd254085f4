import Coherent.PipeIo
import Coherent.Lib.Run

/-!
A pipe under every interleaving of its readers, writers, opens and closes.

Whoever is in `pread` or `pwrite` has the gate of the inode, but gives it up to sleep. A turn
of a loop is one step; it may sleep for a buffer, and the gate keeps everybody else out of the
pipe meanwhile. A process that sleeps for the pipe may wake at any time, as it looks again
after it has woken. The other files of the volume change meanwhile, but not the blocks of the
pipe.
-/

namespace Coherent.Pipe

open Coherent.Can Coherent.Super Coherent.FreeList Coherent.FileMap Coherent.Itable Coherent.FileIo
open Coherent.Lib

abbrev Pid := ℕ

/-- The `f_flag` of an `FD`. -/
structure Mode where
  IPR : Bool
  IPW : Bool
  deriving DecidableEq

/-- Where a process stands. A write is known by its number. -/
inductive Pc
  | idle
  /-- at the test of the first loop of `pread` -/
  | reading (fd : ℕ) (iop : Sink)
  | readAsleep (fd : ℕ) (iop : Sink)
  /-- at the test of the second loop of `pread` -/
  | copying (fd : ℕ) (iop : Sink) (u_error : Option Errno)
  /-- at the test of the loop of `pwrite` -/
  | writing (fd w : ℕ) (iop : Source) (u_error : Option Errno)
  | writeAsleep (fd w : ℕ) (iop : Source)

/-- A read that has returned: what it read and its error, how much was outstanding, and whether
a descriptor was open for writing. -/
structure Return where
  out : List UInt8
  u_error : Option Errno
  pnc : ℕ
  writer : Bool
  deriving DecidableEq

/-- The pipe, the descriptors open on it, the processes, and what has passed through it. -/
structure State where
  fs : Fs
  ip : Inode
  IFEOF : Bool
  IFWFR : Bool
  IFWFW : Bool
  /-- the process that has the gate of the inode, between two of its steps -/
  i_gate : Option Pid
  /-- the open `FD` structures -/
  fds : Finset ℕ
  f_flag : ℕ → Mode
  /-- `FD` structures given up, with `iclose` still to come -/
  closing : ℕ
  /-- references of other calls -/
  others : ℕ
  pc : Pid → Pc
  /-- the bytes accepted, each with the number of its write -/
  accepted : List (ℕ × UInt8)
  delivered : List UInt8
  /-- the number of writes, and the size of each -/
  writes : ℕ
  size : ℕ → ℕ
  returned : List Return

def State.pnc (s : State) : ℕ := i_pnc s.ip.i_addr

def setPc (s : State) (p : Pid) (c : Pc) : State := { s with pc := Function.update s.pc p c }

def setRefc (s : State) (n : ℕ) : State := { s with ip := { s.ip with i_refc := n } }

/-- A descriptor is open for writing. -/
def writer (s : State) : Bool := decide (∃ f ∈ s.fds, (s.f_flag f).IPW = true)

/-- The pipe is left alone, or its last reader or writer is. -/
def alone (s : State) : Prop := s.ip.i_nlink = 0 ∧ s.ip.i_refc < 2

instance (s : State) : Decidable (alone s) := by unfold alone; infer_instance

/-! ### The code -/

/-- Open a pipe. -/
def popen (s : State) : State := if s.IFEOF then { s with IFEOF := false, IFWFR := false } else s

/-- Only one end of the pipe is going to be left. -/
def pevent (s : State) : State := { s with IFWFR := false, IFWFW := false }

/-- Close a pipe. -/
def pclose (s : State) : State := if s.ip.i_refc = 2 then { pevent s with IFEOF := true } else s

/-- The end of `pread`. -/
def readEnd (s : State) (p : Pid) (iop : Sink) (u_error : Option Errno) : State :=
  setPc { s with
    IFWFR := s.IFWFR && !decide (s.pnc < PIPSIZE)
    i_gate := none
    returned := s.returned ++ [⟨iop.io_out, u_error, s.pnc, writer s⟩] } p .idle

/-- A turn of the first loop of `pread`. The test of `IFEOF` behind it finds nothing to do. -/
def readTop (s : State) (p : Pid) (fd : ℕ) (iop : Sink) : State :=
  if s.pnc = 0 then
    if s.IFEOF then readEnd { s with IFEOF := false } p iop none
    else if alone s then readEnd s p iop none
    else setPc { s with IFWFW := true, i_gate := none } p (.readAsleep fd iop)
  else setPc { s with i_gate := some p } p (.copying fd iop none)

/-- A turn of the second loop of `pread`. -/
def copyTurn (s : State) (p : Pid) (fd : ℕ) (iop : Sink) (u_error : Option Errno) : State :=
  if u_error = none ∧ 0 < iop.io_ioc ∧ 0 < s.pnc then
    let r := preadTurn { s.fs with u_error := none } s.ip iop
    setPc { s with
      fs := r.1
      ip := r.2.1
      delivered := s.delivered ++ r.2.2.io_out.drop iop.io_out.length } p
      (.copying fd r.2.2 r.1.u_error)
  else readEnd s p iop u_error

/-- The end of `pwrite`. -/
def writeEnd (s : State) (p : Pid) : State := setPc { s with i_gate := none } p .idle

/-- How much of what is left a turn of `pwrite` can move. -/
def room (s : State) (iop : Source) : ℕ :=
  min (min (PIPSIZE - i_pwx s.ip.i_addr) iop.io_data.length) (PIPSIZE - s.pnc)

/-- A turn of the loop of `pwrite`. -/
def writeTurn (s : State) (p : Pid) (fd w : ℕ) (iop : Source) (u_error : Option Errno) : State :=
  if u_error = none ∧ iop.io_data ≠ [] then
    if alone s then writeEnd s p
    else if room s iop = 0 ∨ s.IFEOF = true then
      setPc { s with IFWFR := true, i_gate := none } p (.writeAsleep fd w iop)
    else
      let r := pwriteTurn { s.fs with u_error := none } s.ip iop
      let n := iop.io_data.length - r.2.2.io_data.length
      setPc { s with
        fs := r.1
        ip := r.2.1
        IFWFW := s.IFWFW && !decide (0 < i_pnc r.2.1.i_addr)
        i_gate := some p
        accepted := s.accepted ++ (iop.io_data.take n).map fun b => (w, b) } p
        (.writing fd w r.2.2 r.1.u_error)
  else writeEnd s p

/-- A descriptor is opened by a call that has a reference to the inode. -/
def opened (s : State) (f : ℕ) (m : Mode) : State :=
  popen { s with
    fds := insert f s.fds
    f_flag := Function.update s.f_flag f m
    others := s.others - 1 }

/-- `creat` of the pipe by name. -/
def creat (s : State) (f : ℕ) : State :=
  let s := opened s f ⟨false, true⟩
  let r := iclear s.fs s.ip
  { s with fs := r.1, ip := r.2 }

/-- `uunlink`, up to its `idetach`. -/
def unlink (s : State) : State :=
  let s := { s with ip := { s.ip with i_nlink := s.ip.i_nlink - 1 } }
  if s.ip.i_nlink = 0 ∧ s.ip.i_refc = 2 then pevent s else s

/-! ### Steps -/

inductive Op
  /-- a call finds the name of the pipe -/
  | attach
  | detach
  | popen (f : ℕ) (m : Mode)
  | creat (f : ℕ)
  /-- the last slot of an `FD` goes -/
  | fdclose (f : ℕ)
  | pclose
  | link
  | unlink
  /-- the inode leaves the table, and comes back -/
  | forget
  | read (p : Pid) (f ioc good : ℕ)
  | readTop (p : Pid)
  | copyTurn (p : Pid)
  | write (p : Pid) (f : ℕ) (data : List UInt8) (good : ℕ)
  | writeTurn (p : Pid)
  | wake (p : Pid)
  /-- a signal for a process that sleeps -/
  | interrupt (p : Pid)
  /-- the volume, as other files change -/
  | volume (fs : Fs)

/-- The `FD` that a process is in a call through. -/
def Pc.fd : Pc → Option ℕ
  | .idle => none
  | .reading f _ | .readAsleep f _ | .copying f _ _ | .writing f _ _ _ | .writeAsleep f _ _ => some f

/-- Where a process goes on after a `sleep`. -/
def Pc.awake : Pc → Pc
  | .readAsleep f iop => .reading f iop
  | .writeAsleep f w iop => .writing f w iop none
  | c => c

def Pc.asleep : Pc → Bool
  | .readAsleep _ _ | .writeAsleep _ _ _ => true
  | _ => false

/-- The gate is not with another process. -/
def Free (s : State) (p : Pid) : Prop := s.i_gate = none ∨ s.i_gate = some p

inductive Step : State → Op → State → Prop
  | attach {s : State} (hn : 0 < s.ip.i_nlink) :
      Step s .attach (setRefc { s with others := s.others + 1 } (s.ip.i_refc + 1))
  | detach {s : State} (ho : 0 < s.others) (hg : s.i_gate = none) :
      Step s .detach (setRefc { s with others := s.others - 1 } (s.ip.i_refc - 1))
  | popen {s : State} {f : ℕ} {m : Mode} (ho : 0 < s.others) (hg : s.i_gate = none)
      (hf : f ∉ s.fds) : Step s (.popen f m) (opened s f m)
  | creat {s : State} {f : ℕ} (ho : 0 < s.others) (hg : s.i_gate = none) (hf : f ∉ s.fds) :
      Step s (.creat f) (creat s f)
  /-- whoever is in a call has a slot -/
  | fdclose {s : State} {f : ℕ} (hf : f ∈ s.fds) (hu : ∀ p, (s.pc p).fd ≠ some f) :
      Step s (.fdclose f) { s with fds := s.fds.erase f, closing := s.closing + 1 }
  | pclose {s : State} (hc : 0 < s.closing) (hg : s.i_gate = none) :
      Step s .pclose (setRefc { pclose s with closing := s.closing - 1 } (s.ip.i_refc - 1))
  | link {s : State} (ho : 0 < s.others) (hg : s.i_gate = none) :
      Step s .link { s with ip := { s.ip with i_nlink := s.ip.i_nlink + 1 } }
  | unlink {s : State} (ho : 0 < s.others) (hg : s.i_gate = none) (hn : 0 < s.ip.i_nlink) :
      Step s .unlink (unlink s)
  | forget {s : State} (hr : s.ip.i_refc = 0) (hg : s.i_gate = none) :
      Step s .forget { s with IFEOF := false, IFWFR := false, IFWFW := false }
  | read {s : State} {p : Pid} {f ioc good : ℕ} (hp : s.pc p = .idle) (hf : f ∈ s.fds)
      (hm : (s.f_flag f).IPR = true) (hn : 0 < ioc) :
      Step s (.read p f ioc good) (setPc s p (.reading f ⟨0, [], ioc, good⟩))
  | readTop {s : State} {p : Pid} {f : ℕ} {iop : Sink} (hp : s.pc p = .reading f iop)
      (hg : Free s p) : Step s (.readTop p) (readTop s p f iop)
  | copyTurn {s : State} {p : Pid} {f : ℕ} {iop : Sink} {e : Option Errno}
      (hp : s.pc p = .copying f iop e) : Step s (.copyTurn p) (copyTurn s p f iop e)
  | write {s : State} {p : Pid} {f : ℕ} {data : List UInt8} {good : ℕ} (hp : s.pc p = .idle)
      (hf : f ∈ s.fds) (hm : (s.f_flag f).IPW = true) (hn : data ≠ []) :
      Step s (.write p f data good) (setPc { s with
        writes := s.writes + 1
        size := Function.update s.size s.writes data.length } p
        (.writing f s.writes ⟨0, data, good⟩ none))
  | writeTurn {s : State} {p : Pid} {f w : ℕ} {iop : Source} {e : Option Errno}
      (hp : s.pc p = .writing f w iop e) (hg : Free s p) :
      Step s (.writeTurn p) (writeTurn s p f w iop e)
  | wake {s : State} {p : Pid} (hp : (s.pc p).asleep = true) :
      Step s (.wake p) (setPc s p (s.pc p).awake)
  | interrupt {s : State} {p : Pid} (hp : (s.pc p).asleep = true) :
      Step s (.interrupt p) (setPc s p .idle)
  | volume {s : State} {fs : Fs} {l : List ℤ} (hs : Sound fs l ND s.ip.i_addr)
      (hd : ∀ b ∈ roots s.fs.disk ND s.ip.i_addr, fs.disk b = s.fs.disk b) :
      Step s (.volume fs) { s with fs := fs }

/-- A pipe with nobody in a call. What it holds, if anything, counts as write 0. -/
structure Initial (s : State) : Prop where
  mode : s.ip.i_mode &&& IFMT = IFPIPE
  sound : ∃ l, Sound s.fs l ND s.ip.i_addr
  ring : RingOk s.ip.i_addr
  eof : s.IFEOF = false
  gate : s.i_gate = none
  refc : s.ip.i_refc = s.fds.card + s.closing + s.others
  pc : ∀ p, s.pc p = .idle
  accepted : s.accepted = (queued s.fs.disk s.ip.i_addr).map fun b => (0, b)
  delivered : s.delivered = []
  returned : s.returned = []
  writes : s.writes = 1

/-- A small write that finds some room finds room for all it has left; a read that ends for want
of a writer is not through a descriptor that is open for writing too; and `creat` finds the pipe
empty. -/
def Careful (s : State) : Op → Prop
  | .writeTurn p => ∀ f w iop, s.pc p = .writing f w iop none → s.size w ≤ PIPSIZE → ¬ alone s →
      s.IFEOF = false → room s iop ≠ 0 → iop.io_data.length ≤ PIPSIZE - s.pnc
  | .readTop p => ∀ f iop, s.pc p = .reading f iop → s.pnc = 0 → s.IFEOF = true ∨ alone s →
      (s.f_flag f).IPW = false
  | .creat _ => s.pnc = 0
  | _ => True

def CarefulStep (s : State) (o : Op) (t : State) : Prop := Step s o t ∧ Careful s o

/-- The bytes of write `w` are one piece of the stream. -/
def Together (w : ℕ) (l : List ℕ) : Prop :=
  ∃ x k z, l = x ++ List.replicate k w ++ z ∧ w ∉ x ∧ w ∉ z

/-- No write of at most `PIPSIZE` bytes has another's bytes in between. -/
def Atomic (s : State) : Prop :=
  ∀ w < s.writes, s.size w ≤ PIPSIZE → Together w (s.accepted.map Prod.fst)

/-- A read that returned nothing, and no error, found nothing outstanding and nobody to write. -/
def EndsWell (s : State) : Prop :=
  ∀ r ∈ s.returned, r.out = [] → r.u_error = none → r.pnc = 0 ∧ r.writer = false

/-! ### The invariant -/

/-- The number of the write that a process is in. -/
def Pc.number : Pc → Option ℕ
  | .writing _ w _ _ | .writeAsleep _ w _ => some w
  | _ => none

/-- A read that has not come to copying asks for something. -/
def Pc.Asks : Pc → Prop
  | .reading _ iop | .readAsleep _ iop => 0 < iop.io_ioc
  | _ => True

/-- The ring and the stream. -/
structure Stream (s : State) : Prop where
  mode : s.ip.i_mode &&& IFMT = IFPIPE
  sound : ∃ l, Sound s.fs l ND s.ip.i_addr
  ring : RingOk s.ip.i_addr
  passed : s.accepted.map Prod.snd = s.delivered ++ queued s.fs.disk s.ip.i_addr

/-- The references. The flag `IFEOF` says that one descriptor is left. -/
structure Refs (s : State) : Prop where
  refc : s.ip.i_refc = s.fds.card + s.closing + s.others
  last : s.IFEOF = true → s.fds.card + s.closing ≤ 1
  uses : ∀ p f, (s.pc p).fd = some f → f ∈ s.fds

/-- The readers that copy have the gate, and do not end before they have read something. -/
structure Copies (s : State) : Prop where
  gate : ∀ p f iop e, s.pc p = .copying f iop e → s.i_gate = some p
  asks : ∀ p, (s.pc p).Asks
  first : ∀ p f iop, s.pc p = .copying f iop none → iop.io_out = [] → 0 < iop.io_ioc ∧ 0 < s.pnc

/-- The numbers of the bytes accepted. -/
def ids (s : State) : List ℕ := s.accepted.map Prod.fst

/-- The order of the writes. A small write that has moved a byte has the gate and will not have
to give it up. -/
structure Order (s : State) : Prop where
  old : ∀ w ∈ ids s, w < s.writes
  number : ∀ p w, (s.pc p).number = some w → w < s.writes
  own : ∀ p q w, (s.pc p).number = some w → (s.pc q).number = some w → p = q
  atomic : Atomic s
  asleep : ∀ p f w iop, s.pc p = .writeAsleep f w iop → s.size w ≤ PIPSIZE → w ∉ ids s
  active : ∀ p f w iop e, s.pc p = .writing f w iop e → s.size w ≤ PIPSIZE → w ∈ ids s →
    s.i_gate = some p ∧ s.IFEOF = false ∧
      (∃ x k, ids s = x ++ List.replicate k w ∧ w ∉ x) ∧
      (e = none → iop.io_data.length ≤ PIPSIZE - s.pnc)

structure Inv (s : State) : Prop where
  stream : Stream s
  refs : Refs s
  copies : Copies s
  order : Order s
  ends : EndsWell s

variable {s t : State} {p : Pid}

lemma Stream.congr (h : Stream s) (hf : t.fs = s.fs) (ha : t.ip.i_addr = s.ip.i_addr)
    (hm : t.ip.i_mode = s.ip.i_mode) (hacc : t.accepted = s.accepted)
    (hd : t.delivered = s.delivered) : Stream t := by
  refine ⟨by rw [hm]; exact h.mode, ?_, by rw [ha]; exact h.ring, ?_⟩
  · rw [hf, ha]; exact h.sound
  · rw [hacc, hd, hf, ha]; exact h.passed

lemma Free.gate_ne (hg : Free s p) {q : Pid} (hq : q ≠ p) : s.i_gate ≠ some q := by
  rintro he
  rcases hg with hg | hg <;> rw [he] at hg
  · cases hg
  · exact hq (Option.some.inj hg)

lemma goto_cases {c : Pc} (hpc : t.pc = Function.update s.pc p c) (q : Pid) :
    q = p ∧ t.pc q = c ∨ q ≠ p ∧ t.pc q = s.pc q := by
  by_cases he : q = p
  · exact .inl ⟨he, by rw [hpc, he, Function.update_self]⟩
  · exact .inr ⟨he, by rw [hpc, Function.update_of_ne he]⟩

/-- Process `p` goes on at `c`. -/
lemma Refs.goto (h : Refs s) {c : Pc} (hpc : t.pc = Function.update s.pc p c)
    (hc : ∀ f, c.fd = some f → f ∈ s.fds) (hr : t.ip.i_refc = s.ip.i_refc) (hf : t.fds = s.fds)
    (hcl : t.closing = s.closing) (ho : t.others = s.others)
    (he : t.IFEOF = true → s.IFEOF = true) : Refs t := by
  refine ⟨by rw [hr, hf, hcl, ho]; exact h.refc, fun h' => ?_, fun q f hq => ?_⟩
  · rw [hf, hcl]; exact h.last (he h')
  · rw [hf]
    rcases goto_cases hpc q with ⟨-, e⟩ | ⟨-, e⟩ <;> rw [e] at hq
    · exact hc f hq
    · exact h.uses q f hq

lemma Refs.still (h : Refs s) (hpc : t.pc = s.pc) (hr : t.ip.i_refc = s.ip.i_refc)
    (hf : t.fds = s.fds) (hcl : t.closing = s.closing) (ho : t.others = s.others)
    (he : t.IFEOF = true → s.IFEOF = true) : Refs t := by
  refine ⟨by rw [hr, hf, hcl, ho]; exact h.refc, fun h' => ?_, fun q f hq => ?_⟩
  · rw [hf, hcl]; exact h.last (he h')
  · rw [hf]
    rw [hpc] at hq
    exact h.uses q f hq

/-- Process `p` goes on at a place where it does not copy; whoever else has the gate keeps it. -/
lemma Copies.goto (h : Copies s) {c : Pc} (hpc : t.pc = Function.update s.pc p c)
    (hc : ∀ f iop e, c ≠ .copying f iop e)
    (ha : c.Asks)
    (hk : ∀ q ≠ p, s.i_gate = some q → t.i_gate = some q ∧ t.pnc = s.pnc) : Copies t := by
  refine ⟨fun q f iop e hq => ?_, fun q => ?_, fun q f iop hq ho => ?_⟩
  · rcases goto_cases hpc q with ⟨-, he⟩ | ⟨hne, he⟩ <;> rw [he] at hq
    · exact absurd hq (hc f iop e)
    · exact (hk q hne (h.gate q f iop e hq)).1
  · rcases goto_cases hpc q with ⟨-, he⟩ | ⟨-, he⟩ <;> rw [he]
    · exact ha
    · exact h.asks q
  · rcases goto_cases hpc q with ⟨-, he⟩ | ⟨hne, he⟩ <;> rw [he] at hq
    · exact absurd hq (hc f iop none)
    · rw [(hk q hne (h.gate q f iop none hq)).2]
      exact h.first q f iop hq ho

/-- Process `p` copies. -/
lemma Copies.copy (h : Copies s) (hg : Free s p) {f : ℕ} {iop : Sink} {e : Option Errno}
    (hpc : t.pc = Function.update s.pc p (.copying f iop e)) (hgt : t.i_gate = some p)
    (hfirst : iop.io_out = [] → e = none → 0 < iop.io_ioc ∧ 0 < t.pnc) : Copies t := by
  refine ⟨fun q f' iop' e' hq => ?_, fun q => ?_, fun q f' iop' hq ho => ?_⟩
  · rcases goto_cases hpc q with ⟨rfl, he⟩ | ⟨hne, he⟩ <;> rw [he] at hq
    · exact hgt
    · exact absurd (h.gate q f' iop' e' hq) (hg.gate_ne hne)
  · rcases goto_cases hpc q with ⟨-, he⟩ | ⟨-, he⟩ <;> rw [he]
    · trivial
    · exact h.asks q
  · rcases goto_cases hpc q with ⟨-, he⟩ | ⟨hne, he⟩ <;> rw [he] at hq
    · cases hq
      exact hfirst ho rfl
    · exact absurd (h.gate q f' iop' none hq) (hg.gate_ne hne)

lemma Copies.still (h : Copies s) (hpc : t.pc = s.pc)
    (hk : ∀ q, s.i_gate = some q → t.i_gate = some q ∧ t.pnc = s.pnc) : Copies t := by
  refine ⟨fun q f iop e hq => ?_, fun q => ?_, fun q f iop hq ho => ?_⟩
  · rw [hpc] at hq
    exact (hk q (h.gate q f iop e hq)).1
  · rw [hpc]; exact h.asks q
  · rw [hpc] at hq
    rw [(hk q (h.gate q f iop none hq)).2]
    exact h.first q f iop hq ho

/-- Process `p` goes on at a place where it is in no write, or in one that has moved nothing. -/
lemma Order.goto (h : Order s) {c : Pc} (hpc : t.pc = Function.update s.pc p c)
    (hacc : t.accepted = s.accepted) (hw : t.writes = s.writes) (hsz : t.size = s.size)
    (hc : ∀ w, c.number = some w →
      (s.pc p).number = some w ∧ (s.size w ≤ PIPSIZE → w ∉ ids s))
    (hk : ∀ q ≠ p, s.i_gate = some q →
      t.i_gate = some q ∧ t.IFEOF = s.IFEOF ∧ t.pnc = s.pnc) : Order t := by
  have hids : ids t = ids s := by rw [ids, ids, hacc]
  have hnum : ∀ q w, (t.pc q).number = some w → (s.pc q).number = some w := by
    intro q w hq
    rcases goto_cases hpc q with ⟨rfl, he⟩ | ⟨-, he⟩ <;> rw [he] at hq
    · exact (hc w hq).1
    · exact hq
  refine ⟨?_, ?_, ?_, ?_, ?_, ?_⟩
  · rw [hids, hw]; exact h.old
  · intro q w hq
    rw [hw]; exact h.number q w (hnum q w hq)
  · exact fun q q' w hq hq' => h.own q q' w (hnum q w hq) (hnum q' w hq')
  · intro w hlt hsmall
    rw [hw] at hlt
    rw [hsz] at hsmall
    rw [hacc]; exact h.atomic w hlt hsmall
  · intro q f w iop hq hsmall
    rw [hsz] at hsmall
    rw [hids]
    rcases goto_cases hpc q with ⟨-, he⟩ | ⟨-, he⟩ <;> rw [he] at hq
    · exact (hc w (by rw [hq]; rfl)).2 hsmall
    · exact h.asleep q f w iop hq hsmall
  · intro q f w iop e hq hsmall hm
    rw [hsz] at hsmall
    rw [hids] at hm ⊢
    rcases goto_cases hpc q with ⟨-, he⟩ | ⟨hne, he⟩ <;> rw [he] at hq
    · exact absurd hm ((hc w (by rw [hq]; rfl)).2 hsmall)
    · obtain ⟨h1, h2, h3, h4⟩ := h.active q f w iop e hq hsmall hm
      obtain ⟨k1, k2, k3⟩ := hk q hne h1
      exact ⟨k1, by rw [k2]; exact h2, h3, by rw [k3]; exact h4⟩

lemma Order.still (h : Order s) (hpc : t.pc = s.pc) (hacc : t.accepted = s.accepted)
    (hw : t.writes = s.writes) (hsz : t.size = s.size)
    (hk : ∀ q, s.i_gate = some q → t.i_gate = some q ∧ t.IFEOF = s.IFEOF ∧ t.pnc = s.pnc) :
    Order t := by
  have hids : ids t = ids s := by rw [ids, ids, hacc]
  refine ⟨?_, ?_, ?_, ?_, ?_, ?_⟩
  · rw [hids, hw]; exact h.old
  · rw [hpc, hw]; exact h.number
  · rw [hpc]; exact h.own
  · intro w hlt hsmall
    rw [hw] at hlt
    rw [hsz] at hsmall
    rw [hacc]; exact h.atomic w hlt hsmall
  · rw [hpc, hsz, hids]; exact h.asleep
  · intro q f w iop e hq hsmall hm
    rw [hsz] at hsmall
    rw [hpc] at hq
    rw [hids] at hm ⊢
    obtain ⟨h1, h2, h3, h4⟩ := h.active q f w iop e hq hsmall hm
    obtain ⟨k1, k2, k3⟩ := hk q h1
    exact ⟨k1, by rw [k2]; exact h2, h3, by rw [k3]; exact h4⟩

/-! ### Writing -/

lemma Together.append_ne {v w m : ℕ} {l : List ℕ} (h : Together v l) (hne : v ≠ w) :
    Together v (l ++ List.replicate m w) := by
  obtain ⟨x, k, z, rfl, hx, hz⟩ := h
  refine ⟨x, k, z ++ List.replicate m w, by simp, hx, fun hm => ?_⟩
  rcases List.mem_append.mp hm with hm | hm
  · exact hz hm
  · exact hne (List.eq_of_mem_replicate hm)

/-- Process `p` has moved `m` bytes of its write. -/
lemma Order.write (h : Order s) {f w m : ℕ} {iop iop' : Source} {e : Option Errno}
    (hp : s.pc p = .writing f w iop none) (hg : Free s p)
    (hroom : s.size w ≤ PIPSIZE → iop.io_data.length ≤ PIPSIZE - s.pnc)
    (hpc : t.pc = Function.update s.pc p (.writing f w iop' e)) (hid : ids t = ids s ++ List.replicate m w)
    (hw : t.writes = s.writes) (hsz : t.size = s.size) (hgt : t.i_gate = some p)
    (heof : t.IFEOF = false) (hlen : iop'.io_data.length = iop.io_data.length - m)
    (hn : t.pnc = s.pnc + m) : Order t := by
  have hnum : ∀ q v, (t.pc q).number = some v → (s.pc q).number = some v := by
    intro q v hq
    rcases goto_cases hpc q with ⟨rfl, he⟩ | ⟨-, he⟩ <;> rw [he] at hq
    · rw [hp]; exact hq
    · exact hq
  have hw' : (s.pc p).number = some w := by rw [hp]; rfl
  -- what the stream ends in
  have hopen : s.size w ≤ PIPSIZE → ∃ x k, ids s = x ++ List.replicate k w ∧ w ∉ x := by
    intro hsmall
    by_cases hm : w ∈ ids s
    · exact (h.active p f w iop none hp hsmall hm).2.2.1
    · exact ⟨ids s, 0, by simp, hm⟩
  have hmem : ∀ v, v ≠ w → v ∈ ids t → v ∈ ids s := by
    intro v hne hv
    rw [hid] at hv
    rcases List.mem_append.mp hv with hv | hv
    · exact hv
    · exact absurd (List.eq_of_mem_replicate hv) hne
  refine ⟨?_, ?_, ?_, ?_, ?_, ?_⟩
  · intro v hv
    rw [hw]
    by_cases he : v = w
    · subst he; exact h.number p v hw'
    · exact h.old v (hmem v he hv)
  · intro q v hq
    rw [hw]; exact h.number q v (hnum q v hq)
  · exact fun q q' v hq hq' => h.own q q' v (hnum q v hq) (hnum q' v hq')
  · intro v hlt hsmall
    rw [hw] at hlt
    rw [hsz] at hsmall
    change Together v (ids t)
    rw [hid]
    by_cases he : v = w
    · subst he
      obtain ⟨x, k, hx, hxn⟩ := hopen hsmall
      exact ⟨x, k + m, [], by rw [hx, List.replicate_add]; simp, hxn, by simp⟩
    · exact Together.append_ne (h.atomic v hlt hsmall) he
  · intro q f' v iop₁ hq hsmall hm
    rw [hsz] at hsmall
    rcases goto_cases hpc q with ⟨rfl, he⟩ | ⟨hne, he⟩ <;> rw [he] at hq
    · cases hq
    · have hv : v ≠ w := by
        rintro rfl
        exact hne (h.own q p v (by rw [hq]; rfl) hw')
      exact h.asleep q f' v iop₁ hq hsmall (hmem v hv hm)
  · intro q f' v iop₁ e₁ hq hsmall hm
    rw [hsz] at hsmall
    rcases goto_cases hpc q with ⟨rfl, he⟩ | ⟨hne, he⟩ <;> rw [he] at hq
    · obtain ⟨rfl, rfl, rfl, rfl⟩ : f = f' ∧ w = v ∧ iop' = iop₁ ∧ e = e₁ := by
        injection hq with h1 h2 h3 h4
        exact ⟨h1, h2, h3, h4⟩
      obtain ⟨x, k, hx, hxn⟩ := hopen hsmall
      refine ⟨hgt, heof, ⟨x, k + m, by rw [hid, hx, List.replicate_add]; simp, hxn⟩, fun _ => ?_⟩
      have := hroom hsmall
      omega
    · have hv : v ≠ w := by
        rintro rfl
        exact hne (h.own q p v (by rw [hq]; rfl) hw')
      have := (h.active q f' v iop₁ e₁ hq hsmall (hmem v hv hm)).1
      exact absurd this (hg.gate_ne hne)

/-! ### The steps keep the invariant -/

lemma Inv.error (h : Inv s) : ∃ l, Sound { s.fs with u_error := none } l ND s.ip.i_addr := by
  obtain ⟨l, hs⟩ := h.stream.sound
  exact ⟨l, hs.kept (.error hs.live none)⟩

/-- A read returns. -/
lemma Inv.readEnd (h : Inv s) (hg : Free s p) (b : Bool) (hb : b = true → s.IFEOF = true)
    (iop : Sink) (e : Option Errno)
    (he : iop.io_out = [] → e = none → s.pnc = 0 ∧ writer s = false) :
    Inv (readEnd { s with IFEOF := b } p iop e) where
  stream := h.stream.congr rfl rfl rfl rfl rfl
  refs := h.refs.goto (c := .idle) rfl nofun rfl rfl rfl rfl hb
  copies := h.copies.goto (c := .idle) rfl nofun trivial fun _ hq hgq =>
    absurd hgq (hg.gate_ne hq)
  order := h.order.goto (c := .idle) rfl rfl rfl rfl nofun fun _ hq hgq =>
    absurd hgq (hg.gate_ne hq)
  ends := by
    intro r hr
    rcases List.mem_append.mp hr with hr | hr
    · exact h.ends r hr
    · rw [List.mem_singleton] at hr
      subst hr
      exact he

/-- The last descriptor is not open for writing. -/
lemma Inv.no_writer (h : Inv s) {f : ℕ} (hf : f ∈ s.fds) (hm : (s.f_flag f).IPW = false)
    (hlast : s.IFEOF = true ∨ alone s) : writer s = false := by
  have hcard : s.fds.card ≤ 1 := by
    rcases hlast with he | ha
    · have := h.refs.last he
      omega
    · have := h.refs.refc
      have := ha.2
      omega
  have hone := Finset.card_le_one.mp hcard
  simp only [writer, decide_eq_false_iff_not, not_exists, not_and]
  intro g hg
  rw [hone g hg f hf, hm]
  simp

lemma Inv.readTop (h : Inv s) {f : ℕ} {iop : Sink} (hp : s.pc p = .reading f iop) (hg : Free s p)
    (hcare : s.pnc = 0 → s.IFEOF = true ∨ alone s → (s.f_flag f).IPW = false) :
    Inv (readTop s p f iop) := by
  have hf : f ∈ s.fds := h.refs.uses p f (by rw [hp]; rfl)
  have hioc : 0 < iop.io_ioc := by
    have := h.copies.asks p
    rwa [hp] at this
  unfold Pipe.readTop
  split_ifs with h0 he ha
  · exact h.readEnd hg false nofun iop none fun _ _ =>
      ⟨h0, h.no_writer hf (hcare h0 (.inl he)) (.inl he)⟩
  · exact h.readEnd hg s.IFEOF id iop none fun _ _ =>
      ⟨h0, h.no_writer hf (hcare h0 (.inr ha)) (.inr ha)⟩
  · -- to sleep
    refine ⟨h.stream.congr rfl rfl rfl rfl rfl,
      h.refs.goto (c := .readAsleep f iop) rfl ?_ rfl rfl rfl rfl id,
      h.copies.goto (c := .readAsleep f iop) rfl nofun hioc fun _ hq hgq =>
        absurd hgq (hg.gate_ne hq),
      h.order.goto (c := .readAsleep f iop) rfl rfl rfl rfl nofun fun _ hq hgq =>
        absurd hgq (hg.gate_ne hq), h.ends⟩
    rintro f' ⟨⟩
    exact hf
  · -- to copy
    refine ⟨h.stream.congr rfl rfl rfl rfl rfl,
      h.refs.goto (c := .copying f iop none) rfl ?_ rfl rfl rfl rfl id,
      h.copies.copy (p := p) hg rfl rfl fun _ _ => ⟨hioc, Nat.pos_of_ne_zero h0⟩,
      h.order.goto (c := .copying f iop none) rfl rfl rfl rfl nofun fun _ hq hgq =>
        absurd hgq (hg.gate_ne hq), h.ends⟩
    rintro f' ⟨⟩
    exact hf

lemma Inv.copyTurn (h : Inv s) {f : ℕ} {iop : Sink} {e : Option Errno}
    (hp : s.pc p = .copying f iop e) : Inv (copyTurn s p f iop e) := by
  have hf : f ∈ s.fds := h.refs.uses p f (by rw [hp]; rfl)
  have hgp : s.i_gate = some p := h.copies.gate p f iop e hp
  have hg : Free s p := .inr hgp
  unfold Pipe.copyTurn
  split_ifs with hc
  · obtain ⟨rfl, hioc, hpnc⟩ := hc
    obtain ⟨l, hs⟩ := h.error
    obtain ⟨bs, hout, hioc', hle, hring, hn, hq⟩ := preadTurn_queued s.ip iop hs h.stream.ring rfl
    obtain ⟨hk, hip, -, -⟩ := preadTurn_kept s.ip iop hs h.stream.ring.toPipeOk
    have hs' := hs.kept hk
    dsimp only
    generalize preadTurn { s.fs with u_error := none } s.ip iop = r at *
    have hdrop : r.2.2.io_out.drop iop.io_out.length = bs := by rw [hout, List.drop_left]
    refine ⟨⟨?_, ⟨l, hs'⟩, hring, ?_⟩,
      h.refs.goto (c := .copying f r.2.2 r.1.u_error) rfl ?_ ?_ rfl rfl rfl id,
      h.copies.copy (p := p) hg rfl hgp fun hnil he => ?_,
      h.order.goto (c := .copying f r.2.2 r.1.u_error) rfl rfl rfl rfl nofun fun _ hq hgq =>
        absurd hgq (hg.gate_ne hq), h.ends⟩
    · change r.2.1.i_mode &&& IFMT = IFPIPE
      rw [hip]; exact h.stream.mode
    · change s.accepted.map Prod.snd = (s.delivered ++ r.2.2.io_out.drop iop.io_out.length) ++
        queued r.1.disk r.2.1.i_addr
      rw [hdrop, h.stream.passed, List.append_assoc, ← hq]
    · rintro f' ⟨⟩
      exact hf
    · change r.2.1.i_refc = _
      rw [hip]
    · rw [hout, List.append_eq_nil_iff] at hnil
      obtain ⟨-, rfl⟩ := hnil
      rw [List.length_nil] at hioc' hn
      refine ⟨by rw [hioc', Nat.sub_zero]; exact hioc, ?_⟩
      change 0 < i_pnc r.2.1.i_addr
      rw [Nat.add_zero] at hn
      rw [hn]; exact hpnc
  · refine h.readEnd hg s.IFEOF id iop e fun hnil he => ?_
    subst he
    obtain ⟨h1, h2⟩ := h.copies.first p f iop hp hnil
    exact absurd ⟨rfl, h1, h2⟩ hc

/-- A write returns. -/
lemma Inv.writeEnd (h : Inv s) (hg : Free s p) : Inv (writeEnd s p) :=
  ⟨h.stream.congr rfl rfl rfl rfl rfl, h.refs.goto (c := .idle) rfl nofun rfl rfl rfl rfl id,
    h.copies.goto (c := .idle) rfl nofun trivial fun _ hq hgq => absurd hgq (hg.gate_ne hq),
    h.order.goto (c := .idle) rfl rfl rfl rfl nofun fun _ hq hgq => absurd hgq (hg.gate_ne hq),
    h.ends⟩

/-- There is room in the ring for something, or what is left does not fit. -/
lemma room_pos (h : Inv s) {iop : Source} (hne : iop.io_data ≠ [])
    (hfit : iop.io_data.length ≤ PIPSIZE - s.pnc) : room s iop ≠ 0 := by
  have hpos := List.length_pos_of_ne_nil hne
  have hpwx := h.stream.ring.pwx
  unfold room
  omega

lemma Inv.writeTurn (h : Inv s) {f w : ℕ} {iop : Source} {e : Option Errno}
    (hp : s.pc p = .writing f w iop e) (hg : Free s p)
    (hcare : e = none → s.size w ≤ PIPSIZE → ¬ alone s → s.IFEOF = false → room s iop ≠ 0 →
      iop.io_data.length ≤ PIPSIZE - s.pnc) : Inv (writeTurn s p f w iop e) := by
  have hf : f ∈ s.fds := h.refs.uses p f (by rw [hp]; rfl)
  unfold Pipe.writeTurn
  split_ifs with hc ha hr
  · exact h.writeEnd hg
  · -- to sleep; a small write that has moved a byte finds room
    obtain ⟨rfl, hne⟩ := hc
    refine ⟨h.stream.congr rfl rfl rfl rfl rfl,
      h.refs.goto (c := .writeAsleep f w iop) rfl ?_ rfl rfl rfl rfl id,
      h.copies.goto (c := .writeAsleep f w iop) rfl nofun trivial fun _ hq hgq =>
        absurd hgq (hg.gate_ne hq),
      h.order.goto (c := .writeAsleep f w iop) rfl rfl rfl rfl ?_ fun _ hq hgq =>
        absurd hgq (hg.gate_ne hq), h.ends⟩
    · rintro f' ⟨⟩
      exact hf
    · rintro w' ⟨⟩
      refine ⟨by rw [hp]; rfl, fun hsmall hm => ?_⟩
      obtain ⟨-, heof, -, hfit⟩ := h.order.active p f w iop none hp hsmall hm
      rcases hr with hr | hr
      · exact room_pos h hne (hfit rfl) hr
      · rw [heof] at hr
        cases hr
  · obtain ⟨rfl, hne⟩ := hc
    rw [not_or] at hr
    have heof : s.IFEOF = false := by simpa using hr.2
    extract_lets src r n
    obtain ⟨l, hs⟩ := h.error
    obtain ⟨m, hm, hdata, hring, hn, hq⟩ := pwriteTurn_queued s.ip iop hs h.stream.ring
    obtain ⟨l', hk, hip, -⟩ := pwriteTurn_kept s.ip iop hs h.stream.ring.toPipeOk
    have hnm : n = m := by
      change iop.io_data.length - (pwriteTurn _ _ _).2.2.io_data.length = m
      rw [hdata, List.length_drop]
      omega
    have hlen : ((iop.io_data.take n).map fun b => (w, b)).map Prod.fst = List.replicate m w := by
      rw [List.map_map, hnm, List.eq_replicate_iff]
      refine ⟨by simp; omega, fun b hb => ?_⟩
      obtain ⟨c, -, rfl⟩ := List.mem_map.mp hb
      rfl
    refine ⟨⟨?_, ⟨l', hs.kept hk⟩, hring, ?_⟩,
      h.refs.goto (c := .writing f w r.2.2 r.1.u_error) rfl ?_ ?_ rfl rfl rfl id,
      h.copies.goto (c := .writing f w r.2.2 r.1.u_error) rfl nofun trivial fun _ hq hgq =>
        absurd hgq (hg.gate_ne hq),
      h.order.write hp hg (m := m) ?_ rfl ?_ rfl rfl rfl heof ?_ hn, h.ends⟩
    · change (pwriteTurn _ _ _).2.1.i_mode &&& IFMT = IFPIPE
      rw [hip]; exact h.stream.mode
    · change (s.accepted ++ (iop.io_data.take n).map fun b => (w, b)).map Prod.snd = _
      rw [List.map_append, h.stream.passed, List.append_assoc, List.map_map, hnm]
      refine congrArg (s.delivered ++ ·) ?_
      refine Eq.trans ?_ hq.symm
      simp only [Function.comp_def, List.map_id']
    · rintro f' ⟨⟩
      exact hf
    · change (pwriteTurn _ _ _).2.1.i_refc = _
      rw [hip]
    · exact fun hsmall => hcare rfl hsmall ha heof hr.1
    · change (s.accepted ++ (iop.io_data.take n).map fun b => (w, b)).map Prod.fst = _
      rw [List.map_append, hlen]
      rfl
    · change (pwriteTurn _ _ _).2.2.io_data.length = _
      rw [hdata, List.length_drop]
  · exact h.writeEnd hg

lemma popen_eof (s : State) : (popen s).IFEOF = false := by
  unfold popen
  split_ifs with h
  · rfl
  · simpa using h

/-- What `popen` leaves alone. -/
lemma popen_frame (s : State) : popen s =
    { s with IFEOF := (popen s).IFEOF, IFWFR := (popen s).IFWFR } := by
  unfold popen
  split_ifs <;> rfl

lemma Inv.opened (h : Inv s) (ho : 0 < s.others) (hg : s.i_gate = none) {f : ℕ} (hf : f ∉ s.fds)
    (m : Mode) : Inv (opened s f m) := by
  have hno : ∀ q, s.i_gate ≠ some q := by rw [hg]; nofun
  have heof := popen_eof { s with
    fds := insert f s.fds
    f_flag := Function.update s.f_flag f m
    others := s.others - 1 }
  unfold Pipe.opened
  rw [popen_frame]
  refine ⟨h.stream.congr rfl rfl rfl rfl rfl, ⟨?_, fun he => ?_, fun p g hp => ?_⟩,
    h.copies.still rfl fun q hq => absurd hq (hno q),
    h.order.still rfl rfl rfl rfl fun q hq => absurd hq (hno q), h.ends⟩
  · have := h.refs.refc
    dsimp only
    rw [Finset.card_insert_of_notMem hf]
    omega
  · rw [heof] at he
    cases he
  · exact Finset.mem_insert_of_mem (h.refs.uses p g hp)

lemma naddr_of_pipe {m : ℕ} (h : m &&& IFMT = IFPIPE) : naddr m = ND := by
  unfold naddr
  rw [h]
  rfl

lemma queued_nil {disk : ℤ → Block} {a : ℕ → ℤ} (h : i_pnc a = 0) : queued disk a = [] := by
  rw [queued, h]; rfl

lemma ringOk_zero : RingOk fun _ => 0 := ⟨pipeOk_zero, by decide⟩

lemma Inv.creat (h : Inv s) (ho : 0 < s.others) (hg : s.i_gate = none) {f : ℕ} (hf : f ∉ s.fds)
    (hn : s.pnc = 0) : Inv (creat s f) := by
  have h' := h.opened ho hg hf ⟨false, true⟩
  have hg' : (Pipe.opened s f ⟨false, true⟩).i_gate = none := by
    rw [Pipe.opened, popen_frame]; exact hg
  have hn' : (Pipe.opened s f ⟨false, true⟩).pnc = 0 := by
    rw [Pipe.opened, popen_frame]; exact hn
  unfold Pipe.creat
  generalize Pipe.opened s f ⟨false, true⟩ = u at h' hg' hn' ⊢
  have hno : ∀ q, u.i_gate ≠ some q := by rw [hg']; nofun
  have hna := naddr_of_pipe h'.stream.mode
  have hip : (iclear u.fs u.ip).2 = iamc { u.ip with i_size := 0, i_addr := fun _ => 0 } := by
    rw [iclear, if_neg (by rw [hna]; decide)]
  obtain ⟨l, hs⟩ := h'.stream.sound
  rw [← hna] at hs
  obtain ⟨l', hfr⟩ := iclear_freed hs
  refine ⟨⟨?_, ⟨l', hfr.live, ?_, ?_⟩, ?_, ?_⟩, h'.refs.still rfl ?_ rfl rfl rfl id,
    h'.copies.still rfl fun q hq => absurd hq (hno q),
    h'.order.still rfl rfl rfl rfl fun q hq => absurd hq (hno q), h'.ends⟩
  · dsimp only
    rw [hip]; exact h'.stream.mode
  · dsimp only
    rw [hip, held]
    change (_ + roots _ ND fun _ => 0).Nodup
    rw [roots_zero, add_zero, hfr.free, add_comm]
    exact hs.nodup
  · dsimp only
    rw [hip, held]
    change InVolume _ (_ + roots _ ND fun _ => 0)
    rw [roots_zero, add_zero, hfr.free, add_comm]
    intro b hb
    rw [hfr.vol.isize, hfr.vol.fsize]
    exact hs.vol b hb
  · dsimp only
    rw [hip]; exact ringOk_zero
  · have hq' : queued (iclear u.fs u.ip).1.disk (iclear u.fs u.ip).2.i_addr = [] := by
      rw [hip]
      exact queued_nil (show i_pnc (fun _ => 0) = 0 by decide)
    dsimp only
    rw [hq', ← queued_nil hn']
    exact h'.stream.passed
  · dsimp only
    rw [hip]; rfl

/-- The references of a step that is in no call of `pread` or `pwrite`. -/
lemma Inv.still (h : Inv s) (hr : Refs t) (hpc : t.pc = s.pc) (hf : t.fs = s.fs)
    (ha : t.ip.i_addr = s.ip.i_addr) (hm : t.ip.i_mode = s.ip.i_mode)
    (hacc : t.accepted = s.accepted) (hd : t.delivered = s.delivered) (hw : t.writes = s.writes)
    (hsz : t.size = s.size) (hret : t.returned = s.returned)
    (hk : ∀ q, s.i_gate = some q → t.i_gate = some q ∧ t.IFEOF = s.IFEOF) : Inv t := by
  have hpnc : t.pnc = s.pnc := by rw [State.pnc, ha]; rfl
  refine ⟨h.stream.congr hf ha hm hacc hd, hr, h.copies.still hpc fun q hq => ⟨(hk q hq).1, hpnc⟩,
    h.order.still hpc hacc hw hsz fun q hq => ⟨(hk q hq).1, (hk q hq).2, hpnc⟩, ?_⟩
  rw [EndsWell, hret]
  exact h.ends

/-- Process `p` goes on at a place where it does not copy and has moved nothing. -/
lemma Inv.goto (h : Inv s) {c : Pc} (hf : ∀ f, c.fd = some f → f ∈ s.fds)
    (hc : ∀ f iop e, c ≠ .copying f iop e) (ha : c.Asks)
    (hw : ∀ w, c.number = some w → (s.pc p).number = some w ∧ (s.size w ≤ PIPSIZE → w ∉ ids s)) :
    Inv (setPc s p c) :=
  ⟨h.stream.congr rfl rfl rfl rfl rfl, h.refs.goto rfl hf rfl rfl rfl rfl id,
    h.copies.goto rfl hc ha fun _ _ hq => ⟨hq, rfl⟩,
    h.order.goto rfl rfl rfl rfl hw fun _ _ hq => ⟨hq, rfl, rfl⟩, h.ends⟩

/-- A new write. -/
lemma Order.start (h : Order s) {f : ℕ} {data : List UInt8} {good : ℕ}
    (ht : t = setPc { s with
      writes := s.writes + 1
      size := Function.update s.size s.writes data.length } p
      (.writing f s.writes ⟨0, data, good⟩ none)) : Order t := by
  have hpc : t.pc = Function.update s.pc p (.writing f s.writes ⟨0, data, good⟩ none) := by
    rw [ht]; rfl
  have hw : t.writes = s.writes + 1 := by rw [ht]; rfl
  have hids : ids t = ids s := by rw [ht]; rfl
  have hnew : s.writes ∉ ids s := fun hm => lt_irrefl _ (h.old _ hm)
  have hsz : ∀ w < s.writes, t.size w = s.size w := by
    intro w hlt
    rw [ht]
    exact Function.update_of_ne (by omega) _ _
  have hnum : ∀ q w, (t.pc q).number = some w →
      q = p ∧ w = s.writes ∨ (s.pc q).number = some w := by
    intro q w hq
    rcases goto_cases hpc q with ⟨hqp, he⟩ | ⟨-, he⟩ <;> rw [he] at hq
    · exact .inl ⟨hqp, (Option.some.inj hq).symm⟩
    · exact .inr hq
  refine ⟨?_, ?_, ?_, ?_, ?_, ?_⟩
  · rw [hids, hw]
    exact fun w hm => (h.old w hm).trans (Nat.lt_succ_self _)
  · intro q w hq
    rw [hw]
    rcases hnum q w hq with ⟨-, rfl⟩ | hq
    · exact Nat.lt_succ_self _
    · exact (h.number q w hq).trans (Nat.lt_succ_self _)
  · intro q q' w hq hq'
    rcases hnum q w hq with ⟨h1, h2⟩ | h1 <;> rcases hnum q' w hq' with ⟨h3, h4⟩ | h3
    · rw [h1, h3]
    · exact absurd (h.number q' w h3) (by omega)
    · exact absurd (h.number q w h1) (by omega)
    · exact h.own q q' w h1 h3
  · intro w hlt hsmall
    change Together w (ids t)
    rw [hids]
    by_cases he : w = s.writes
    · subst he
      exact ⟨ids s, 0, [], by simp, hnew, by simp⟩
    · have hlt' : w < s.writes := by omega
      rw [hsz w hlt'] at hsmall
      exact h.atomic w hlt' hsmall
  · intro q g w iop hq hsmall
    rw [hids]
    rcases goto_cases hpc q with ⟨-, he⟩ | ⟨-, he⟩ <;> rw [he] at hq
    · cases hq
    · rw [hsz w (h.number q w (by rw [hq]; rfl))] at hsmall
      exact h.asleep q g w iop hq hsmall
  · intro q g w iop e hq hsmall hm
    rw [hids] at hm ⊢
    rcases goto_cases hpc q with ⟨-, he⟩ | ⟨-, he⟩ <;> rw [he] at hq
    · cases hq
      exact absurd hm hnew
    · rw [hsz w (h.number q w (by rw [hq]; rfl))] at hsmall
      have hact := h.active q g w iop e hq hsmall hm
      rw [ht]
      exact hact

/-- The bytes outstanding are in the blocks of the pipe. -/
lemma queued_congr {disk disk' : ℤ → Block} {a : ℕ → ℤ}
    (hd : ∀ b ∈ roots disk ND a, disk' b = disk b) : queued disk' a = queued disk a := by
  have hbyte : ∀ o < PIPSIZE, byte disk' a o = byte disk a o := by
    intro o ho
    have hm : a (o / BSIZE) ≠ 0 → a (o / BSIZE) ∈ roots disk ND a := by
      rw [← vblock_direct (a := a) disk (lt_ND ho)]
      exact vblock_mem (lmap_direct (lt_ND ho)) (lt_ND ho)
    rw [byte, byte, vblock_direct disk' (lt_ND ho), vblock_direct disk (lt_ND ho)]
    split_ifs with h0
    · rfl
    · rw [hd _ (hm h0)]
  rw [queued, queued]
  exact Ring.window_congr fun i _ => hbyte _ (Nat.mod_lt _ (by decide))

/-- **One step** keeps the invariant if it is careful. -/
lemma step_inv {o : Op} (h : Inv s) (hst : Step s o t) (hcare : Careful s o) : Inv t := by
  have hrefc := h.refs.refc
  cases hst with
  | attach hn =>
    refine h.still ⟨?_, h.refs.last, h.refs.uses⟩ rfl rfl rfl rfl rfl rfl rfl rfl rfl
      fun q hq => ⟨hq, rfl⟩
    change s.ip.i_refc + 1 = s.fds.card + s.closing + (s.others + 1)
    omega
  | detach ho hg =>
    refine h.still ⟨?_, h.refs.last, h.refs.uses⟩ rfl rfl rfl rfl rfl rfl rfl rfl rfl
      fun q hq => ⟨hq, rfl⟩
    change s.ip.i_refc - 1 = s.fds.card + s.closing + (s.others - 1)
    omega
  | popen ho hg hf => exact h.opened ho hg hf _
  | creat ho hg hf => exact h.creat ho hg hf hcare
  | @fdclose f hf hu =>
    have hcard := Finset.card_erase_add_one hf
    refine h.still ⟨?_, fun he => ?_, fun p g hp => ?_⟩ rfl rfl rfl rfl rfl rfl rfl rfl rfl
      fun q hq => ⟨hq, rfl⟩
    · dsimp only
      omega
    · have := h.refs.last he
      dsimp only
      omega
    · refine Finset.mem_erase.mpr ⟨?_, h.refs.uses p g hp⟩
      rintro rfl
      exact hu p hp
  | pclose hc hg =>
    have hno : ∀ q, s.i_gate ≠ some q := by rw [hg]; nofun
    unfold Pipe.pclose
    split_ifs with h2
    · refine h.still ⟨?_, fun _ => ?_, h.refs.uses⟩ rfl rfl rfl rfl rfl rfl rfl rfl rfl
        fun q hq => absurd hq (hno q)
      · change s.ip.i_refc - 1 = s.fds.card + (s.closing - 1) + s.others
        omega
      · change s.fds.card + (s.closing - 1) ≤ 1
        omega
    · refine h.still ⟨?_, fun he => ?_, h.refs.uses⟩ rfl rfl rfl rfl rfl rfl rfl rfl rfl
        fun q hq => ⟨hq, rfl⟩
      · change s.ip.i_refc - 1 = s.fds.card + (s.closing - 1) + s.others
        omega
      · have := h.refs.last he
        change s.fds.card + (s.closing - 1) ≤ 1
        omega
  | link ho hg =>
    exact h.still (h.refs.still rfl rfl rfl rfl rfl id) rfl rfl rfl rfl rfl rfl rfl rfl rfl
      fun q hq => ⟨hq, rfl⟩
  | unlink ho hg hn =>
    unfold Pipe.unlink
    dsimp only
    split_ifs
    · exact h.still (h.refs.still rfl rfl rfl rfl rfl id) rfl rfl rfl rfl rfl rfl rfl rfl rfl
        fun q hq => ⟨hq, rfl⟩
    · exact h.still (h.refs.still rfl rfl rfl rfl rfl id) rfl rfl rfl rfl rfl rfl rfl rfl rfl
        fun q hq => ⟨hq, rfl⟩
  | forget hr hg =>
    refine h.still (h.refs.still rfl rfl rfl rfl rfl nofun) rfl rfl rfl rfl rfl rfl rfl rfl rfl
      fun q hq => ?_
    rw [hg] at hq
    cases hq
  | @read p f ioc good hp hf hm hn =>
    refine h.goto (c := .reading f ⟨0, [], ioc, good⟩) ?_ nofun hn nofun
    rintro f' ⟨⟩
    exact hf
  | readTop hp hg => exact h.readTop hp hg fun h0 he => hcare _ _ hp h0 he
  | copyTurn hp => exact h.copyTurn hp
  | @write p f data good hp hf hm hn =>
    refine ⟨h.stream.congr rfl rfl rfl rfl rfl,
      h.refs.goto (c := .writing f s.writes ⟨0, data, good⟩ none) rfl ?_ rfl rfl rfl rfl id,
      h.copies.goto (c := .writing f s.writes ⟨0, data, good⟩ none) rfl nofun trivial
        fun q _ hq => ⟨hq, rfl⟩,
      h.order.start rfl, h.ends⟩
    rintro f' ⟨⟩
    exact hf
  | writeTurn hp hg =>
    refine h.writeTurn hp hg ?_
    rintro rfl hsmall ha he hr
    exact hcare _ _ _ hp hsmall ha he hr
  | @wake p hp =>
    cases hc : s.pc p with
    | readAsleep f iop =>
      refine h.goto (c := .reading f iop) ?_ nofun ?_ nofun
      · rintro f' ⟨⟩
        exact h.refs.uses p f (by rw [hc]; rfl)
      · have := h.copies.asks p
        rwa [hc] at this
    | writeAsleep f w iop =>
      refine h.goto (c := .writing f w iop none) ?_ nofun trivial ?_
      · rintro f' ⟨⟩
        exact h.refs.uses p f (by rw [hc]; rfl)
      · rintro w' ⟨⟩
        exact ⟨by rw [hc]; rfl, h.order.asleep p f w iop hc⟩
    | idle | reading | copying | writing =>
      rw [hc] at hp
      cases hp
  | @interrupt p hp => exact h.goto (c := .idle) nofun nofun trivial nofun
  | @volume fs l hs hd =>
    refine ⟨⟨h.stream.mode, ⟨l, hs⟩, h.stream.ring, ?_⟩, h.refs.still rfl rfl rfl rfl rfl id,
      h.copies.still rfl fun q hq => ⟨hq, rfl⟩,
      h.order.still rfl rfl rfl rfl fun q hq => ⟨hq, rfl, rfl⟩, h.ends⟩
    rw [h.stream.passed]
    exact congrArg (s.delivered ++ ·) (queued_congr hd).symm

lemma Initial.ids (h : Initial s) : ids s = List.replicate s.pnc 0 := by
  rw [Pipe.ids, h.accepted, List.map_map, List.eq_replicate_iff]
  refine ⟨by simp [queued, State.pnc], fun w hw => ?_⟩
  obtain ⟨b, -, rfl⟩ := List.mem_map.mp hw
  rfl

lemma Initial.inv (h : Initial s) : Inv s where
  stream := ⟨h.mode, h.sound, h.ring, by
    rw [h.accepted, h.delivered, List.map_map]
    simp [Function.comp_def]⟩
  refs := ⟨h.refc, by rw [h.eof]; nofun, fun p f hp => by rw [h.pc] at hp; cases hp⟩
  copies := ⟨fun p f iop e hp => (by rw [h.pc] at hp; cases hp),
    fun p => by rw [h.pc]; trivial, fun p f iop hp => by rw [h.pc] at hp; cases hp⟩
  order := by
    refine ⟨fun w hw => ?_, fun p w hp => ?_, fun p q w hp => ?_, fun w hw _ => ?_,
      fun p f w iop hp => ?_, fun p f w iop e hp => ?_⟩
    · rw [h.ids] at hw
      rw [List.eq_of_mem_replicate hw, h.writes]
      exact Nat.one_pos
    · rw [h.pc] at hp; cases hp
    · rw [h.pc] at hp; cases hp
    · rw [h.writes] at hw
      obtain rfl : w = 0 := by omega
      exact ⟨[], s.pnc, [], h.ids.trans (by simp), by simp, by simp⟩
    · rw [h.pc] at hp; cases hp
    · rw [h.pc] at hp; cases hp
  ends := by rw [EndsWell, h.returned]; nofun

/-- **A pipe over every interleaving** of careful steps. The counters stay in the ring and agree;
what has been accepted is what has been delivered and the `i_pnc` bytes outstanding; a read that
returns nothing found nothing outstanding and nobody to write; and a write of at most `PIPSIZE`
bytes is one piece of the stream. -/
theorem pipe_runs {s₀ : State} {ops : List Op} (h₀ : Initial s₀)
    (hrun : Run CarefulStep s₀ ops s) :
    RingOk s.ip.i_addr ∧
    s.accepted.map Prod.snd = s.delivered ++ queued s.fs.disk s.ip.i_addr ∧
    (queued s.fs.disk s.ip.i_addr).length = s.pnc ∧ EndsWell s ∧ Atomic s := by
  have h : Inv s := hrun.invariant (I := Inv) (fun _ _ _ h hst => step_inv h hst.1 hst.2) h₀.inv
  exact ⟨h.stream.ring, h.stream.passed, Ring.length_window, h.ends, h.order.atomic⟩

/-! ### Two writers and a full pipe -/

/-- What the calls of a process do, as a function. -/
def exec (s : State) : Op → State
  | .read p f ioc good => setPc s p (.reading f ⟨0, [], ioc, good⟩)
  | .readTop p => match s.pc p with
    | .reading f iop => readTop s p f iop
    | _ => s
  | .copyTurn p => match s.pc p with
    | .copying f iop e => copyTurn s p f iop e
    | _ => s
  | .write p f data good => setPc { s with
      writes := s.writes + 1
      size := Function.update s.size s.writes data.length } p
      (.writing f s.writes ⟨0, data, good⟩ none)
  | .writeTurn p => match s.pc p with
    | .writing f w iop e => writeTurn s p f w iop e
    | _ => s
  | .wake p => setPc s p (s.pc p).awake
  | _ => s

/-- It can be done. -/
def Can (s : State) : Op → Bool
  | .read p f ioc _ => (match s.pc p with | .idle => true | _ => false) && decide (f ∈ s.fds) &&
      (s.f_flag f).IPR && decide (0 < ioc)
  | .readTop p => (match s.pc p with | .reading _ _ => true | _ => false) &&
      decide (s.i_gate = none ∨ s.i_gate = some p)
  | .copyTurn p => (match s.pc p with | .copying _ _ _ => true | _ => false)
  | .write p f data _ => (match s.pc p with | .idle => true | _ => false) && decide (f ∈ s.fds) &&
      (s.f_flag f).IPW && !data.isEmpty
  | .writeTurn p => (match s.pc p with | .writing _ _ _ _ => true | _ => false) &&
      decide (s.i_gate = none ∨ s.i_gate = some p)
  | .wake p => (s.pc p).asleep
  | _ => false

lemma step_exec (s : State) (o : Op) (h : Can s o = true) : Step s o (exec s o) := by
  cases o with
  | read p f ioc good =>
    simp only [Can, Bool.and_eq_true, decide_eq_true_eq] at h
    obtain ⟨⟨⟨h1, h2⟩, h3⟩, h4⟩ := h
    refine .read ?_ h2 h3 h4
    split at h1 <;> simp_all
  | readTop p =>
    simp only [Can, Bool.and_eq_true, decide_eq_true_eq] at h
    obtain ⟨h1, h2⟩ := h
    simp only [exec]
    split at h1
    · rename_i hp
      exact .readTop hp h2
    · cases h1
  | copyTurn p =>
    simp only [Can] at h
    simp only [exec]
    split at h
    · rename_i hp
      exact .copyTurn hp
    · cases h
  | write p f data good =>
    simp only [Can, Bool.and_eq_true, decide_eq_true_eq] at h
    obtain ⟨⟨⟨h1, h2⟩, h3⟩, h4⟩ := h
    refine .write ?_ h2 h3 ?_
    · split at h1 <;> simp_all
    · simpa using h4
  | writeTurn p =>
    simp only [Can, Bool.and_eq_true, decide_eq_true_eq] at h
    obtain ⟨h1, h2⟩ := h
    simp only [exec]
    split at h1
    · rename_i hp
      exact .writeTurn hp h2
    · cases h1
  | wake p => exact .wake h
  | _ => cases h

/-- Ten blocks, and one byte of room. -/
def brim : State where
  fs := ⟨⟨3, 40, 0, fun _ => 0, 0, fun _ => 0, 0, 0, 0, 0, 0, 0⟩, false, fun _ _ => 0, fun _ => true, none, []⟩
  ip := ⟨0, 5, 2, 0, false, false, false, IFPIPE, 1, 5120, fun i =>
    if i < 10 then 20 + i else if i = 10 then 5119 * 65536 + 10 else if i = 11 then 9 * 65536 else 0⟩
  IFEOF := false
  IFWFR := false
  IFWFW := false
  i_gate := none
  fds := {0, 1}
  f_flag f := if f = 0 then ⟨true, false⟩ else ⟨false, true⟩
  closing := 0
  others := 0
  pc _ := .idle
  accepted := (List.replicate 5119 0).map fun b => (0, b)
  delivered := []
  writes := 1
  size _ := 5119
  returned := []

lemma brim_sound : Sound brim.fs [] ND brim.ip.i_addr where
  live := ⟨⟨.empty _, by decide, by simp, by simp, rfl, by decide, by decide⟩, rfl, fun _ => rfl⟩
  nodup := by decide +kernel
  vol := by
    unfold InVolume
    decide +kernel

lemma brim_initial : Initial brim where
  mode := rfl
  sound := ⟨[], brim_sound⟩
  ring := ⟨⟨by decide, by decide, by decide⟩, by decide⟩
  eof := rfl
  gate := rfl
  refc := by decide
  pc _ := rfl
  accepted := by
    have hq : queued brim.fs.disk brim.ip.i_addr = List.replicate 5119 0 := by
      rw [List.eq_replicate_iff]
      refine ⟨Ring.length_window, fun b hb => ?_⟩
      obtain ⟨i, -, rfl⟩ := List.mem_map.mp hb
      simp only [byte]
      split_ifs <;> rfl
    rw [hq]
    rfl
  delivered := rfl
  returned := rfl
  writes := rfl

/-- A piece has no hole. -/
lemma Together.between {w i j m : ℕ} {l : List ℕ} (h : Together w l) (hi : l[i]? = some w)
    (hj : l[j]? = some w) (him : i ≤ m) (hmj : m ≤ j) : l[m]? = some w := by
  obtain ⟨x, k, z, rfl, hx, hz⟩ := h
  have hin : ∀ n, (x ++ List.replicate k w ++ z)[n]? = some w → x.length ≤ n ∧ n < x.length + k := by
    intro n hn
    refine ⟨?_, ?_⟩
    · by_contra hlt
      rw [List.append_assoc, List.getElem?_append_left (by omega)] at hn
      exact hx (List.mem_of_getElem? hn)
    · by_contra hge
      rw [List.getElem?_append_right (by simp; omega)] at hn
      exact hz (List.mem_of_getElem? hn)
  have h1 := hin i hi
  have h2 := hin j hj
  rw [List.append_assoc, List.getElem?_append_right (by omega),
    List.getElem?_append_left (by simp; omega), List.getElem?_replicate, if_pos (by omega)]

/-- The first writer moves one of its two bytes and sleeps, the reader takes a byte, the second
writer comes in between, the reader takes another byte, and the first writer goes on. -/
def crossed : List Op :=
  [.write 1 1 [1, 2] 2, .writeTurn 1, .writeTurn 1,
    .read 3 0 1 1, .readTop 3, .copyTurn 3, .copyTurn 3,
    .write 2 1 [9] 1, .writeTurn 2, .writeTurn 2,
    .read 3 0 1 1, .readTop 3, .copyTurn 3, .copyTurn 3,
    .wake 1, .writeTurn 1]

/-- The same pipe when it is empty, with both descriptors open for reading and writing. -/
def drained : State :=
  { brim with
    ip := { brim.ip with i_addr := setPwx (setPnc brim.ip.i_addr 0) 10 }
    f_flag := fun _ => ⟨true, true⟩
    accepted := [] }

lemma drained_initial : Initial drained where
  mode := rfl
  sound := ⟨[], ⟨brim_sound.live, by decide +kernel, by unfold InVolume; decide +kernel⟩⟩
  ring := ⟨⟨by decide, by decide, by decide⟩, by decide⟩
  eof := rfl
  gate := rfl
  refc := by decide
  pc _ := rfl
  accepted := by rw [queued_nil (by decide)]; rfl
  delivered := rfl
  returned := rfl
  writes := rfl

/-- One byte is written to the empty pipe. -/
theorem drained_write : ∃ ops s, Run CarefulStep drained ops s ∧ s.accepted = [(1, 7)] ∧
    RingOk s.ip.i_addr ∧ s.accepted.map Prod.snd = s.delivered ++ queued s.fs.disk s.ip.i_addr ∧
    EndsWell s ∧ Atomic s := by
  have h1 : CarefulStep drained (.write 1 1 [7] 1) (exec drained (.write 1 1 [7] 1)) :=
    ⟨step_exec _ _ (by decide), trivial⟩
  have h2 : CarefulStep (exec drained (.write 1 1 [7] 1)) (.writeTurn 1)
      (exec (exec drained (.write 1 1 [7] 1)) (.writeTurn 1)) := by
    refine ⟨step_exec _ _ (by decide), ?_⟩
    rintro f w iop ⟨⟩ - - - -
    decide
  obtain ⟨hr, hp, -, he, ha⟩ := pipe_runs drained_initial (.snoc (.snoc (.nil _) h1) h2)
  exact ⟨_, _, .snoc (.snoc (.nil _) h1) h2, by decide +kernel, hr, hp, he, ha⟩

/-- A write of two bytes gets another's byte in between; a read through a descriptor that is
open for writing ends; and `creat` loses what is outstanding. -/
theorem brim_crossed :
    (∃ ops s, Initial brim ∧ Run Step brim ops s ∧ ¬ Atomic s) ∧
    (∃ ops s, Initial drained ∧ Run Step drained ops s ∧ ¬ EndsWell s) ∧
    ∃ ops s, Initial brim ∧ Run Step brim ops s ∧
      s.accepted.map Prod.snd ≠ s.delivered ++ queued s.fs.disk s.ip.i_addr := by
  refine ⟨⟨crossed, _, brim_initial, Run.along step_exec brim crossed (by decide +kernel),
    fun ha => ?_⟩, ?_, ?_⟩
  · have h := Together.between (m := 5120) (ha 1 (by decide +kernel) (by decide +kernel))
      (show (ids (crossed.foldl exec brim))[5119]? = some 1 by decide +kernel)
      (show (ids (crossed.foldl exec brim))[5121]? = some 1 by decide +kernel) (by decide) (by decide)
    have h' : (ids (crossed.foldl exec brim))[5120]? = some 2 := by decide +kernel
    rw [ids] at h'
    rw [h'] at h
    cases h
  · have h1 : Step drained (.fdclose 1) _ := .fdclose (by decide) (fun p => nofun)
    have h2 : Step { drained with fds := drained.fds.erase 1, closing := 1 } .pclose _ :=
      .pclose (by decide) rfl
    have h3 := (Run.nil drained).snoc h1 |>.snoc h2
    refine ⟨_, _, drained_initial, (h3.snoc (step_exec _ (.read 3 0 1 1) (by decide +kernel))).snoc
      (step_exec _ (.readTop 3) (by decide +kernel)), fun he => ?_⟩
    have := he ⟨[], none, 0, true⟩ (by decide +kernel) rfl rfl
    cases this.2
  · have h1 : Step brim .attach _ := .attach (by decide)
    have h2 : Step (setRefc { brim with others := brim.others + 1 } (brim.ip.i_refc + 1)) (.creat 2) _ :=
      .creat (by decide) rfl (by decide)
    refine ⟨_, _, brim_initial, (Run.nil brim).snoc h1 |>.snoc h2, fun he => ?_⟩
    rw [queued_nil (by decide +kernel)] at he
    exact absurd he (by decide +kernel)

end Coherent.Pipe
