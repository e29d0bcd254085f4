import Mathlib.Tactic
import Coherent.Lib.Run

/-!
The buffer cache: `bclaim`, `bread`, `bwrite`, `brelease`, `bsync`, `bflush` and `bdone`.

There is one processor, and a process keeps it until it sleeps or leaves these routines. Interrupts
come between any two turns of the loops of `bclaim`, `bsync` and `bflush`. A process that sleeps
goes on when what it waits for has come; the wakeups themselves, and the mapping of buffers into
the address space, are left out. A request that the driver does not fail moves a whole block, and
writing never fails.
-/

namespace Coherent.Bio

open Coherent.Lib

abbrev Pid := ℕ

/-- `(dev_t)-1` -/
def NODEV : ℕ := 65535

inductive Req
  | BREAD
  | BWRITE
  deriving DecidableEq

structure BUF (Data : Type*) where
  b_gate : Bool
  b_ntp : Bool
  b_err : Bool
  b_mod : Bool
  b_asy : Bool
  b_dev : ℕ
  b_bno : ℤ
  b_req : Req
  b_seqn : UInt16
  b_data : Data

/-- What the driver has to do with a buffer. -/
inductive Io
  | idle
  | queued
  | moved
  deriving DecidableEq

/-- For whom a buffer is locked. -/
inductive Own
  | nobody
  | caller (p : Pid)
  | reading (p : Pid)
  | writing (p : Pid)
  | cleaning (p : Pid)
  | driver
  deriving DecidableEq

/-- A buffer, where it is with the driver, for whom it is locked, and whether its contents are still
those it had when it was claimed or written last. -/
structure Slot (Data : Type*) extends BUF Data where
  drv : Io
  own : Own
  kept : Bool

/-- Who has called `bclaim`: its own caller, or `bread` with `f` set or not. -/
inductive Want
  | claim
  | read
  | ahead
  deriving DecidableEq

structure Call where
  want : Want
  dev : ℕ
  bno : ℤ

/-- What comes after a `bwrite` with `f` set. -/
inductive After
  | caller
  | sync
  | flush (dev : ℕ)

/-- Where a process is. Only in `scan`, `sync` and `flush` it does not sleep. -/
inductive Pc
  | out
  | scan (c : Call) (i : ℕ) (bp1 : Option ℕ) (seqn : UInt16)
  | lockTag (c : Call) (i : ℕ)
  | need (c : Call)
  | lockVictim (c : Call) (i : ℕ)
  | reading (i : ℕ)
  | writing (i : ℕ) (k : After)
  | sync (i : ℕ)
  | lockSync (i : ℕ)
  | flush (dev : ℕ) (i : ℕ)
  | lockFlush (dev : ℕ) (i : ℕ)

def Pc.active : Pc → Bool
  | .scan .. => true
  | .sync _ => true
  | .flush .. => true
  | _ => false

def Pc.outside : Pc → Bool
  | .out => true
  | _ => false

structure Cache (Data : Type*) where
  bufl : ℕ → Slot Data
  bufseqn : UInt16
  disk : ℕ → ℤ → Data
  pc : Pid → Pc
  cpu : Option Pid

/-- What the callers see of the cache: `bread` or `bclaim` has returned a block to a process, or a
process has given one back, with what it then holds. -/
inductive Event (Data : Type*)
  | got (p : Pid) (dev : ℕ) (bno : ℤ) (d : Data)
  | took (p : Pid) (dev : ℕ) (bno : ℤ)
  | left (p : Pid) (dev : ℕ) (bno : ℤ) (d : Data)
  deriving DecidableEq

variable {Data : Type*}

/-- Buffers of no device are not blocks. -/
def note (dev : ℕ) (e : Event Data) : Option (Event Data) := if dev = NODEV then none else some e

/-- What belongs to one block changes. -/
def at2 {α : Type*} (f : ℕ → ℤ → α) (dev : ℕ) (bno : ℤ) (v : α) : ℕ → ℤ → α :=
  Function.update f dev (Function.update (f dev) bno v)

def Slot.tag (x : Slot Data) : ℕ × ℤ := (x.b_dev, x.b_bno)

def Cache.put (s : Cache Data) (i : ℕ) (x : Slot Data) : Cache Data :=
  { s with bufl := Function.update s.bufl i x }

/-- A process goes on at another place, where it keeps the processor or sleeps. -/
def Cache.go (s : Cache Data) (p : Pid) (l : Pc) : Cache Data :=
  { s with pc := Function.update s.pc p l, cpu := if l.active then some p else none }

/-- What `brelease` does to the buffer. -/
def Slot.released (x : Slot Data) (bufseqn : UInt16) : Slot Data :=
  let x := if x.b_err = false then { x with b_seqn := bufseqn }
    else { x with b_err := false, b_dev := NODEV }
  { x with b_ntp := false, b_gate := false, own := .nobody }

def brelease (s : Cache Data) (i : ℕ) : Cache Data :=
  let x := s.bufl i
  { s.put i (x.released s.bufseqn) with
    bufseqn := if x.b_err = false then s.bufseqn + 1 else s.bufseqn }

/-- `bdone`, up to where it calls `brelease`. -/
def Slot.done (x : Slot Data) : Slot Data :=
  let x := if x.b_req = .BWRITE then { x with b_mod := false } else x
  let x := if x.b_req = .BREAD ∧ x.b_err = true then { x with b_dev := NODEV } else x
  { x with drv := .idle }

def bdone (s : Cache Data) (i : ℕ) : Cache Data :=
  let x := (s.bufl i).done
  if x.b_asy then brelease (s.put i { x with b_asy := false }) i
  else s.put i { x with b_ntp := false }

/-- `bread` gives the buffer to the driver. -/
def Slot.fetch (x : Slot Data) (f : Bool) : Slot Data :=
  { x with b_asy := !f, b_req := .BREAD, drv := .queued }

/-- `bwrite` up to `dblock`. -/
def Slot.store (x : Slot Data) (f : Bool) : Slot Data :=
  { x with b_asy := !f, b_ntp := true, b_req := .BWRITE, drv := .queued }

/-- The driver reports an error; what has come into the buffer by then is anything. -/
def Slot.failed (x : Slot Data) (d : Data) : Slot Data := { x with b_err := true, b_data := d }

/-- `bclaim` has found or made the buffer `i`, and returns it; `bread` goes on with it. -/
def returned (s : Cache Data) (p : Pid) (c : Call) (i : ℕ) : Cache Data × Option (Event Data) :=
  let x := s.bufl i
  match c.want with
  | .claim =>
    ((s.put i { x with own := .caller p, kept := !x.b_ntp }).go p .out,
      note c.dev (.took p c.dev c.bno))
  | .read =>
    if x.b_ntp then ((s.put i { x.fetch true with own := .reading p }).go p (.reading i), none)
    else ((s.put i { x with own := .caller p, kept := true }).go p .out,
      note c.dev (.got p c.dev c.bno x.b_data))
  | .ahead =>
    if x.b_ntp then ((s.put i { x.fetch false with own := .driver }).go p .out, none)
    else ((brelease s i).go p .out, none)

/-- The label `again`. -/
def again (s : Cache Data) (p : Pid) (c : Call) : Cache Data := s.go p (.scan c 0 none 0)

/-- `bclaim` has found the tag in buffer `i`: from its `lock` on. -/
def tagLock (s : Cache Data) (p : Pid) (c : Call) (i : ℕ) : Cache Data × Option (Event Data) :=
  let x := s.bufl i
  if x.b_gate then (s.go p (.lockTag c i), none)
  else if x.tag ≠ (c.dev, c.bno) then (again s p c, none)
  else returned (s.put i { x with b_gate := true, b_ntp := x.b_ntp || x.b_err }) p c i

/-- `bclaim` has chosen buffer `i` to be given away: from its `lock` on. -/
def victimLock (s : Cache Data) (p : Pid) (c : Call) (i : ℕ) : Cache Data × Option (Event Data) :=
  let x := s.bufl i
  if x.b_gate then (s.go p (.lockVictim c i), none)
  else if x.b_mod then
    (again (s.put i { x.store false with b_gate := true, own := .driver }) p c, none)
  else
    returned (s.put i { x with
      b_gate := true, b_ntp := true, b_err := false, b_mod := false, b_asy := false
      b_dev := c.dev, b_bno := c.bno }) p c i

variable (NBUF : ℕ)

/-- The second loop of `bclaim`, over the first `i` buffers; it runs at high priority. -/
def pick (s : Cache Data) : ℕ → Option ℕ × UInt16
  | 0 => (none, 0)
  | i + 1 =>
    let r := pick s i
    let x := s.bufl i
    if x.b_gate = false ∧ r.2 ≤ s.bufseqn - x.b_seqn then (some i, s.bufseqn - x.b_seqn) else r

/-- One turn of the first loop of `bclaim`, or what comes after it. -/
def scanTurn (s : Cache Data) (p : Pid) (c : Call) (i : ℕ) (bp1 : Option ℕ) (seqn : UInt16) :
    Cache Data × Option (Event Data) :=
  if i < NBUF then
    let x := s.bufl i
    if x.tag = (c.dev, c.bno) then tagLock s p c i
    else if x.b_gate = false ∧ seqn ≤ s.bufseqn - x.b_seqn then
      (s.go p (.scan c (i + 1) (some i) (s.bufseqn - x.b_seqn)), none)
    else (s.go p (.scan c (i + 1) bp1 seqn), none)
  else match bp1 with
    | some j => victimLock s p c j
    | none => match (pick s NBUF).1 with
      | some j => victimLock s p c j
      | none => (s.go p (.need c), none)

/-- `bsync` from its `lock` on. -/
def syncLock (s : Cache Data) (p : Pid) (i : ℕ) : Cache Data :=
  let x := s.bufl i
  if x.b_gate then s.go p (.lockSync i)
  else if x.b_mod then
    (s.put i { x.store true with b_gate := true, own := .cleaning p }).go p (.writing i .sync)
  else s.go p (.sync (i + 1))

/-- `bflush` from its `lock` on. -/
def flushLock (s : Cache Data) (p : Pid) (dev i : ℕ) : Cache Data :=
  let x := s.bufl i
  if x.b_gate then s.go p (.lockFlush dev i)
  else if x.b_dev = dev then
    if x.b_mod then
      (s.put i { x.store true with b_gate := true, own := .cleaning p }).go p
        (.writing i (.flush dev))
    else (s.put i { x with b_dev := NODEV }).go p (.flush dev (i + 1))
  else s.go p (.flush dev (i + 1))

/-- A process that sleeps until gate `i` is open. -/
def whenOpen {α : Type*} (s : Cache Data) (i : ℕ) (r : α) : Option α :=
  if (s.bufl i).b_gate then none else some r

/-- What comes after a `bwrite` that has waited. -/
def written (s : Cache Data) (p : Pid) (i : ℕ) (k : After) : Cache Data :=
  let x := s.bufl i
  match k with
  | .caller => (s.put i { x with own := .caller p, kept := true }).go p .out
  | .sync => (s.put i { x with b_gate := false, own := .nobody }).go p (.sync (i + 1))
  | .flush dev =>
    (s.put i { x with b_dev := NODEV, b_gate := false, own := .nobody }).go p (.flush dev (i + 1))

/-- What a process in one of the routines does next. -/
def turn (s : Cache Data) (p : Pid) : Option (Cache Data × Option (Event Data)) :=
  match s.pc p with
  | .out => none
  | .scan c i bp1 seqn => some (scanTurn NBUF s p c i bp1 seqn)
  | .lockTag c i => whenOpen s i (tagLock s p c i)
  | .need c => some (again s p c, none)
  | .lockVictim c i => whenOpen s i (victimLock s p c i)
  | .reading i =>
    let x := s.bufl i
    if x.b_ntp then none
    else if x.b_err then some ((brelease s i).go p .out, none)
    else some ((s.put i { x with own := .caller p, kept := true }).go p .out,
      note x.b_dev (.got p x.b_dev x.b_bno x.b_data))
  | .writing i k => if (s.bufl i).b_ntp then none else some (written s p i k, none)
  | .sync i =>
    if i < NBUF then
      if (s.bufl i).b_mod then some (syncLock s p i, none) else some (s.go p (.sync (i + 1)), none)
    else some (s.go p .out, none)
  | .lockSync i => whenOpen s i (syncLock s p i, none)
  | .flush dev i =>
    if i < NBUF then
      if (s.bufl i).b_dev = dev then some (flushLock s p dev i, none)
      else some (s.go p (.flush dev (i + 1)), none)
    else some (s.go p .out, none)
  | .lockFlush dev i => whenOpen s i (flushLock s p dev i, none)

/-- The driver has moved the block. -/
def transferred (s : Cache Data) (i : ℕ) : Cache Data :=
  let x := s.bufl i
  match x.b_req with
  | .BREAD => s.put i { x with drv := .moved, b_data := s.disk x.b_dev x.b_bno }
  | .BWRITE => { s.put i { x with drv := .moved } with
      disk := at2 s.disk x.b_dev x.b_bno x.b_data }

inductive Op (Data : Type*)
  | call (p : Pid) (c : Call)
  | bsync (p : Pid)
  | bflush (p : Pid) (dev : ℕ)
  | turn (p : Pid)
  | store (p : Pid) (i : ℕ) (d : Data)
  | mark (p : Pid) (i : ℕ)
  | brelease (p : Pid) (i : ℕ)
  | bwrite (p : Pid) (i : ℕ) (f : Bool)
  | transfer (i : ℕ)
  | bdone (i : ℕ)
  | fail (i : ℕ) (d : Data)

/-- The process has the processor and is outside of the routines. -/
def Ready (s : Cache Data) (p : Pid) : Prop := s.cpu = none ∧ (s.pc p).outside = true

instance (s : Cache Data) (p : Pid) : Decidable (Ready s p) :=
  inferInstanceAs (Decidable (_ ∧ _))

/-- The process may do what it wants with the buffer. -/
def Has (s : Cache Data) (p : Pid) (i : ℕ) : Prop :=
  Ready s p ∧ i < NBUF ∧ (s.bufl i).own = .caller p

instance (s : Cache Data) (p : Pid) (i : ℕ) : Decidable (Has NBUF s p i) :=
  inferInstanceAs (Decidable (_ ∧ _ ∧ _))

/-- One step, with what the callers see of it. A process that has changed what is in its buffer
sets `BFMOD`, or writes the buffer, before it gives it back; and a buffer of no device is only
looked at. -/
def exec (s : Cache Data) : Op Data → Option (Cache Data × Option (Event Data))
  | .call p c =>
    if Ready s p ∧ (c.want = .claim ∨ c.dev ≠ NODEV) then some (again s p c, none) else none
  | .bsync p => if Ready s p then some (s.go p (.sync 0), none) else none
  | .bflush p dev =>
    if Ready s p ∧ dev ≠ NODEV then some (s.go p (.flush dev 0), none) else none
  | .turn p => if s.cpu = none ∨ s.cpu = some p then turn NBUF s p else none
  | .store p i d =>
    if Has NBUF s p i then some (s.put i { s.bufl i with b_data := d, kept := false }, none)
    else none
  | .mark p i =>
    if Has NBUF s p i ∧ (s.bufl i).b_dev ≠ NODEV then
      some (s.put i { s.bufl i with b_mod := true }, none)
    else none
  | .brelease p i =>
    let x := s.bufl i
    if Has NBUF s p i ∧ (x.b_dev = NODEV ∨ x.b_mod = true ∨ x.kept = true) then
      some (brelease s i, note x.b_dev (.left p x.b_dev x.b_bno x.b_data))
    else none
  | .bwrite p i f =>
    let x := s.bufl i
    if Has NBUF s p i ∧ x.b_dev ≠ NODEV then
      if f then some ((s.put i { x.store true with own := .writing p }).go p (.writing i .caller),
        none)
      else some (s.put i { x.store false with own := .driver },
        some (.left p x.b_dev x.b_bno x.b_data))
    else none
  | .transfer i =>
    if i < NBUF ∧ (s.bufl i).drv = .queued then some (transferred s i, none) else none
  | .bdone i => if i < NBUF ∧ (s.bufl i).drv = .moved then some (bdone s i, none) else none
  | .fail i d =>
    let x := s.bufl i
    if i < NBUF ∧ x.drv ≠ .idle ∧ x.b_req = .BREAD then
      some (bdone (s.put i (x.failed d)) i, none)
    else none

def Step (s : Cache Data) (e : Option (Event Data)) (t : Cache Data) : Prop :=
  ∃ o, exec NBUF s o = some (t, e)

/-- The steps one after the other, and what the callers see of them. -/
def play (s : Cache Data) : List (Op Data) → Option (Cache Data × List (Option (Event Data)))
  | [] => some (s, [])
  | o :: os => do
    let (t, e) ← exec NBUF s o
    let (u, es) ← play t os
    return (u, e :: es)

/-- The cache as `bufinit` leaves it. -/
structure Booted (s : Cache Data) : Prop where
  gate : ∀ i < NBUF, (s.bufl i).b_gate = false
  flags : ∀ i < NBUF, (s.bufl i).b_ntp = false ∧ (s.bufl i).b_err = false ∧
    (s.bufl i).b_mod = false ∧ (s.bufl i).b_asy = false
  dev : ∀ i < NBUF, (s.bufl i).b_dev = NODEV
  drv : ∀ i < NBUF, (s.bufl i).drv = .idle ∧ (s.bufl i).own = .nobody
  pc : ∀ p, s.pc p = .out
  cpu : s.cpu = none

/-! ### What the cache is for -/

/-- Blocks that processes use one at a time. -/
structure Store (Data : Type*) where
  view : ℕ → ℤ → Data
  user : ℕ → ℤ → Option Pid

def Store.lend (a : Store Data) (p : Pid) (dev : ℕ) (bno : ℤ) : Store Data :=
  { a with user := at2 a.user dev bno (some p) }

def Store.back (a : Store Data) (dev : ℕ) (bno : ℤ) (d : Data) : Store Data where
  view := at2 a.view dev bno d
  user := at2 a.user dev bno none

/-- A block is lent to nobody else, comes with what was left in it last, and is given back by
whoever has it. -/
inductive Serves : Store Data → Option (Event Data) → Store Data → Prop
  | none (a : Store Data) : Serves a none a
  | got {a : Store Data} {p : Pid} {dev : ℕ} {bno : ℤ} (h : a.user dev bno = none) :
      Serves a (some (.got p dev bno (a.view dev bno))) (a.lend p dev bno)
  | took {a : Store Data} {p : Pid} {dev : ℕ} {bno : ℤ} (h : a.user dev bno = none) :
      Serves a (some (.took p dev bno)) (a.lend p dev bno)
  | left {a : Store Data} {p : Pid} {dev : ℕ} {bno : ℤ} {d : Data} (h : a.user dev bno = some p) :
      Serves a (some (.left p dev bno d)) (a.back dev bno d)

end Coherent.Bio
