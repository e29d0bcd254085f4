import Mathlib.Data.BitVec
import Coherent.Lib.Run
import Coherent.Lib.Delta

/-!
Processes: sleeping, waking, the run queue and the clock.

The run queue keeps priorities as differences. The `p_cval` of a queued process is not its
priority; its priority is the sum of the `p_cval` of everything behind it, the header
`procq` included, in 16-bit arithmetic. A process that is not queued has its priority in
`p_cval` itself.

There is one processor. What it does between two points at which interrupts can come in is
one step; `Point` says at which of these points it stands.
-/

namespace Coherent.Proc

/-- A process, by the address of its `PROC`. -/
abbrev Pid := ℕ

/-- An event, by its address. -/
abbrev Event := ℕ

/-- The machine's `unsigned`. -/
abbrev Word := BitVec 16

def CVCLOCK : Word := 1
def CVCHILD : Word := 32767
def MAXU : Word := 65535
def NHPLINK : ℕ := 32

inductive PState
  | PSSLEEP | PSRUN | PSDEAD
  deriving DecidableEq, Repr

/-- Add an unsigned number without overflow. -/
def addu (v n : Word) : Word := if v + n ≥ v then v + n else MAXU

/-- Subtract an unsigned number without overflow. -/
def subu (v n : Word) : Word := if v - n ≤ v then v - n else 0

def hash (e : Event) : ℕ := e / 2 % NHPLINK

/-- A point of the code at which interrupts come in. -/
inductive Point
  /-- `SELF` runs, in user mode or in the kernel -/
  | run
  /-- `SELF` has gone to sleep or died, and is about to call `dispatch` -/
  | leaving
  /-- in `dispatch`, after `pp1` was taken off the queue and before `SELF = pp1` -/
  | chosen (pp1 : Pid)
  deriving DecidableEq, Repr

/-- The processes and the processor. The queues are lists, front first. -/
structure Sys where
  p_cval : Pid → Word
  p_state : Pid → PState
  p_event : Pid → Event
  p_lctim : Pid → Word
  /-- `p_flags & PFCORE` -/
  core : Pid → Bool
  /-- `procq.p_cval` -/
  procq : Word
  runq : List Pid
  linkq : ℕ → List Pid
  SELF : Pid
  iprocp : Pid
  utimer : Word
  pc : Point

/-- `p_cval` of what is behind a place in the queue, `b` being the processes behind it. -/
def nextCval (s : Sys) (b : List Pid) : Word :=
  match b with
  | [] => s.procq
  | q :: _ => s.p_cval q

/-- The same, to be added to. -/
def addNext (s : Sys) (b : List Pid) (d : Word) : Sys :=
  { s with
    p_cval := (Lib.Delta.bump s.p_cval s.procq b d).1
    procq := (Lib.Delta.bump s.p_cval s.procq b d).2 }

/-- The loop of `setrun`, from the back of the queue. `r` is what is in front of the place,
last first, `b` what is behind it; the result has the `v` of the `break`. -/
def place (s : Sys) (cval : Word) : List Pid → List Pid → Word → List Pid × List Pid × Word
  | r, b, v =>
    if v + nextCval s b ≥ cval then (r, b, v + nextCval s b)
    else match r with
      | [] => ([], b, v + nextCval s b)
      | q :: r => place s cval r (q :: b) (v + nextCval s b)

/-- Add a process to the run queue. -/
def setrun (s : Sys) (pp1 : Pid) : Sys :=
  let (r, b, v) := place s (s.p_cval pp1) s.runq.reverse [] 0
  let v := v - s.p_cval pp1
  addNext { s with
    runq := r.reverse ++ pp1 :: b
    p_cval := Function.update s.p_cval pp1 v
    p_state := Function.update s.p_state pp1 .PSRUN } b (-v)

/-- The loop of `dispatch`: what was passed over, the process found, what is behind it, and
its `v`. -/
def pick (s : Sys) : List Pid → Word → Option (List Pid × Pid × List Pid × Word)
  | [], _ => none
  | q :: l, v =>
    if s.core q then some ([], q, l, v - s.p_cval q)
    else (pick s l (v - s.p_cval q)).map fun (a, q', b, v) => (q :: a, q', b, v)

/-- `dispatch` up to its first `spl`: take a process off the queue. -/
def dispatch (s : Sys) : Pid × Sys :=
  match pick s s.runq 0 with
  | none => (s.iprocp, s)
  | some (a, pp2, b, v) =>
    let s := addNext s b (s.p_cval pp2)
    (pp2, { s with runq := a ++ b, p_cval := Function.update s.p_cval pp2 v })

/-- `sleep` up to its `spl`: `SELF` goes to the back of a sleep queue. -/
def sleep (s : Sys) (e : Event) (cl : Word) : Sys :=
  { s with
    p_state := Function.update s.p_state s.SELF .PSSLEEP
    p_event := Function.update s.p_event s.SELF e
    p_lctim := Function.update s.p_lctim s.SELF s.utimer
    p_cval := Function.update s.p_cval s.SELF (addu (s.p_cval s.SELF) cl)
    linkq := Function.update s.linkq (hash e) (s.linkq (hash e) ++ [s.SELF])
    pc := .leaving }

/-- Unlink a sleeping process, credit it with the time it slept, and make it run. -/
def wake (s : Sys) (pp : Pid) : Sys :=
  setrun { s with
    linkq := Function.update s.linkq (hash (s.p_event pp)) ((s.linkq (hash (s.p_event pp))).erase pp)
    p_cval := Function.update s.p_cval pp
      (addu (s.p_cval pp) ((s.utimer - s.p_lctim pp) * CVCLOCK)) } pp

/-- One turn of the loop of `wakeup`, between two points at which interrupts come in. -/
def wakeup (s : Sys) (e : Event) : Sys :=
  match (s.linkq (hash e)).find? fun pp => s.p_event pp = e with
  | none => s
  | some pp => wake s pp

/-- `sendsig`, of a signal that is not ignored. -/
def sendsig (s : Sys) (pp : Pid) : Sys :=
  if s.p_state pp = .PSSLEEP then wake s pp else s

/-- A clock tick. -/
def clock (s : Sys) : Sys :=
  let s := { s with utimer := s.utimer + 1 }
  let s :=
    if nextCval s s.runq > CVCLOCK then
      let s := addNext s s.runq (-CVCLOCK)
      { s with procq := s.procq + CVCLOCK }
    else s
  { s with p_cval := Function.update s.p_cval s.SELF (s.p_cval s.SELF >>> 1) }

/-- The processor goes over to `pp1`. -/
def switch (s : Sys) (pp1 : Pid) : Sys := { s with SELF := pp1, pc := .run }

/-- `setrun` of `SELF` and `dispatch` at high priority. -/
def yield (s : Sys) : Sys :=
  let s := dispatch (setrun s s.SELF)
  switch s.2 s.1

/-- The rescheduling part of `stand`. -/
def stand (s : Sys) : Sys :=
  if s.SELF ≠ s.iprocp then yield s
  else switch (dispatch s).2 (dispatch s).1

/-- `segfinm`, of a segment that is not in memory. -/
def segfinm (s : Sys) : Sys := yield { s with core := Function.update s.core s.SELF false }

/-- The end of `pfork`: the child is made to run. -/
def pfork (s : Sys) (cpp : Pid) : Sys :=
  setrun { s with p_cval := Function.update s.p_cval cpp CVCHILD } cpp

inductive Op
  | sleep (e : Event) (cl : Word)
  | pexit
  | dispatch
  | switch
  /-- the end of `sleep` -/
  | awake (cl : Word)
  | stand
  | segfinm
  | pfork (cpp : Pid)
  /-- the swapper moves a process in or out -/
  | setcore (pp : Pid) (b : Bool)
  | wakeup (e : Event)
  | sendsig (pp : Pid)
  | clock

/-- What `SELF` does at the points where it stands, and what interrupts do anywhere. -/
inductive Step : Sys → Op → Sys → Prop
  | sleep {s : Sys} (e : Event) (cl : Word) : s.pc = .run → s.SELF ≠ s.iprocp →
      Step s (.sleep e cl) (sleep s e cl)
  | pexit {s : Sys} : s.pc = .run → s.SELF ≠ s.iprocp →
      Step s .pexit { s with p_state := Function.update s.p_state s.SELF .PSDEAD, pc := .leaving }
  | dispatch {s : Sys} : s.pc = .leaving →
      Step s .dispatch { (dispatch s).2 with pc := .chosen (dispatch s).1 }
  | switch {s : Sys} {pp1 : Pid} : s.pc = .chosen pp1 → Step s .switch (switch s pp1)
  | awake {s : Sys} (cl : Word) : s.pc = .run → Step s (.awake cl)
      { s with p_cval := Function.update s.p_cval s.SELF (subu (s.p_cval s.SELF) cl) }
  | stand {s : Sys} : s.pc = .run → Step s .stand (stand s)
  | segfinm {s : Sys} : s.pc = .run → s.SELF ≠ s.iprocp → Step s .segfinm (segfinm s)
  /-- `process` has just made `cpp`: it is on no queue -/
  | pfork {s : Sys} {cpp : Pid} : s.pc = .run → cpp ∉ s.runq → s.p_state cpp ≠ .PSSLEEP →
      cpp ≠ s.SELF → cpp ≠ s.iprocp → Step s (.pfork cpp) (pfork s cpp)
  | setcore {s : Sys} (pp : Pid) (b : Bool) : s.pc = .run →
      Step s (.setcore pp b) { s with core := Function.update s.core pp b }
  | wakeup {s : Sys} (e : Event) : Step s (.wakeup e) (wakeup s e)
  | sendsig {s : Sys} (pp : Pid) : Step s (.sendsig pp) (sendsig s pp)
  | clock {s : Sys} : Step s .clock (clock s)

end Coherent.Proc
