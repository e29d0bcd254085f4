import Mathlib.Tactic
import Mathlib.Data.BitVec
import Coherent.Lib.Run
import Coherent.Lib.Ring

/-!
An event ring in shared memory: one producer, the server, and one consumer, a client, with the
doorbell of the graphics driver behind them.

In user mode one load or store of a shared word is one step. `hrevwait` and `hrevwake` run at
high priority in the driver, so that they are one step each up to a `sleep`.
-/

namespace Coherent.EventRing

open Coherent.Lib

abbrev Word := BitVec 16

/-- An event: eight words. -/
abbrev WMSG := Fin 8 → Word

def EVQ_SLOTS : ℕ := 16

def EVQ_MASK : Word := 15

def HR_MAGIC : Word := 0x4846

structure HREVQ where
  eq_head : Word
  eq_tail : Word
  eq_wait : Word
  eq_over : Word
  eq_ev : ℕ → WMSG

/-- Where the server stands in `hr_evput`. -/
inductive Server
  | idle
  /-- about to load `eq_head`, and `eq_tail`, for the test -/
  | head (ev : WMSG)
  | tail (ev : WMSG) (h : Word)
  /-- has found the ring full -/
  | full
  /-- about to load `eq_head` for the slot -/
  | slot (ev : WMSG)
  /-- about to store word `k` into slot `d` -/
  | copy (ev : WMSG) (d : ℕ) (k : Fin 8)
  /-- about to load `eq_head`, and to store it, for the increment -/
  | inc (ev : WMSG)
  | bump (ev : WMSG) (h : Word)
  /-- about to load `eq_wait` -/
  | wait (ev : WMSG)
  /-- about to call `hr_evio(CIOEVWAKE)` -/
  | wake (ev : WMSG)
  deriving DecidableEq

/-- Where the client stands. -/
inductive Client
  | idle
  -- `hr_evget`
  | head
  | tail (h : Word)
  | slot
  | copy (d : ℕ) (k : Fin 8) (ev : WMSG)
  | inc (ev : WMSG)
  | bump (ev : WMSG) (t : Word)
  -- `hr_evover`
  | overflow
  | clear (was : Word)
  -- `hr_evwait`
  | magic
  | head1
  | tail1 (h : Word)
  | announce
  | head2
  | tail2 (h : Word)
  | retract
  /-- about to call `hr_evio(CIOEVWAIT)` -/
  | evio
  /-- asleep in `hrevwait` -/
  | asleep
  /-- made to run again in `hrevwait`, its `sleep` has not returned -/
  | woken
  /-- `hr_evio` has returned -/
  | reset
  | magic2
  /-- it has called `exit` -/
  | gone
  deriving DecidableEq

/-- What the callers of the ring's functions see. -/
inductive Obs
  /-- `hr_evput` returns 0 -/
  | put (ev : WMSG)
  /-- `hr_evput` drops its event -/
  | dropped
  /-- `hr_evget` returns 1 -/
  | got (ev : WMSG)
  /-- `hr_evover` is called -/
  | called
  /-- `hr_evover` returns -/
  | was (w : Word)
  deriving DecidableEq

def slotOf (i : Word) : ℕ := (i &&& EVQ_MASK).toNat

/-- The next load or store of `hr_evput`. -/
def Server.step (q : HREVQ) : Server → HREVQ × Server
  | .head ev => (q, .tail ev q.eq_head)
  | .tail ev h => (q, if (h - q.eq_tail).toInt ≥ EVQ_SLOTS then .full else .slot ev)
  | .full => ({ q with eq_over := 1 }, .idle)
  | .slot ev => (q, .copy ev (slotOf q.eq_head) 0)
  | .copy ev d k =>
    ({ q with eq_ev := Function.update q.eq_ev d (Function.update (q.eq_ev d) k (ev k)) },
      if h : k.val + 1 < 8 then .copy ev d ⟨k.val + 1, h⟩ else .inc ev)
  | .inc ev => (q, .bump ev q.eq_head)
  | .bump ev h => ({ q with eq_head := h + 1 }, .wait ev)
  | .wait ev => (q, if q.eq_wait ≠ 0 then .wake ev else .idle)
  | .idle => (q, .idle)
  | .wake ev => (q, .wake ev)

/-- What that step shows to the caller. -/
def Server.obs (q : HREVQ) : Server → List Obs
  | .full => [.dropped]
  | .wait ev => if q.eq_wait ≠ 0 then [] else [.put ev]
  | _ => []

/-- The next load or store of `hr_evget`, `hr_evover` or `hr_evwait`. -/
def Client.step (magic : Word) (q : HREVQ) : Client → HREVQ × Client
  | .head => (q, .tail q.eq_head)
  | .tail h => (q, if h = q.eq_tail then .idle else .slot)
  | .slot => (q, .copy (slotOf q.eq_tail) 0 fun _ => 0)
  | .copy d k ev =>
    let ev := Function.update ev k (q.eq_ev d k)
    (q, if h : k.val + 1 < 8 then .copy d ⟨k.val + 1, h⟩ ev else .inc ev)
  | .inc ev => (q, .bump ev q.eq_tail)
  | .bump _ t => ({ q with eq_tail := t + 1 }, .idle)
  | .overflow => (q, .clear q.eq_over)
  | .clear _ => ({ q with eq_over := 0 }, .idle)
  | .magic => (q, if magic ≠ HR_MAGIC then .gone else .head1)
  | .head1 => (q, .tail1 q.eq_head)
  | .tail1 h => (q, if h ≠ q.eq_tail then .idle else .announce)
  | .announce => ({ q with eq_wait := 1 }, .head2)
  | .head2 => (q, .tail2 q.eq_head)
  | .tail2 h => (q, if h ≠ q.eq_tail then .retract else .evio)
  | .retract => ({ q with eq_wait := 0 }, .idle)
  | .reset => ({ q with eq_wait := 0 }, .magic2)
  | .magic2 => (q, if magic ≠ HR_MAGIC then .gone else .idle)
  | c => (q, c)

/-- What that step shows to the caller. -/
def Client.obs : Client → List Obs
  | .bump ev _ => [.got ev]
  | .clear was => [.was was]
  | _ => []

/-! ### The driver -/

/-- `hrevwait`, from the test of its loop to its `sleep` or its end; `ssig` says that a signal
keeps the `sleep` from sleeping. -/
def hrevwait (q : HREVQ) (ssig : Bool) : HREVQ × Client :=
  if q.eq_head = q.eq_tail then ({ q with eq_wait := 1 }, if ssig then .reset else .asleep)
  else ({ q with eq_wait := 0 }, .reset)

/-- What the signals that have come do to a `sleep` that returns. -/
inductive Signal
  | none
  /-- one that is ignored, the loop is left -/
  | ignored
  /-- the call is interrupted -/
  | caught
  deriving DecidableEq

/-- `hrevwait` after its `sleep`. -/
def awake (q : HREVQ) : Signal → HREVQ × Client
  | .none => hrevwait q false
  | .ignored => ({ q with eq_wait := 0 }, .reset)
  | .caught => (q, .reset)

/-- `hrevwake`: the ring after it, and whether it calls `wakeup`. -/
def hrevwake (q : HREVQ) : HREVQ × Bool :=
  if q.eq_wait ≠ 0 then ({ q with eq_wait := 0 }, true) else (q, false)

/-- `wakeup(&hrevchan[i])`, for a process that uses ring `i`. -/
def Client.wakeup (up : Bool) (c : Client) : Client :=
  if up = true ∧ c = .asleep then .woken else c

/-! ### The system -/

structure State where
  magic : Word
  q : HREVQ
  server : Server
  client : Client
  /-- `evfd >= 0` in the server, and in the client -/
  srvfd : Bool
  clfd : Bool
  /-- all that the callers have seen -/
  log : List Obs

/-- The functions a client calls. -/
inductive Call
  | hr_evget
  | hr_evover
  | hr_evwait
  deriving DecidableEq

def Call.enter : Call → Client
  | .hr_evget => .head
  | .hr_evover => .overflow
  | .hr_evwait => .magic

inductive Op
  | hr_evput (ev : WMSG)
  /-- a load or a store of the server -/
  | server
  /-- `open` in `hr_evio`, and whether it succeeds -/
  | srvopen (ok : Bool)
  | hrevwake
  | call (f : Call)
  /-- a load or a store of the client -/
  | client
  | clopen (ok : Bool)
  | hrevwait (ssig : Bool)
  | awake (sig : Signal)
  /-- a signal comes for the sleeping client -/
  | sendsig
  /-- another process rings the doorbell -/
  | doorbell
  /-- the session ends -/
  | unmagic
  deriving DecidableEq

/-- The client is between two loads or stores. -/
def Client.user : Client → Prop
  | .idle | .evio | .asleep | .woken | .gone => False
  | _ => True

/-- The server is about to ring the doorbell. -/
def Server.waking : Server → Prop
  | .wake _ => True
  | _ => False

instance (c : Server) : Decidable c.waking := by
  cases c <;> simp only [Server.waking] <;> infer_instance

instance (c : Client) : Decidable c.user := by
  cases c <;> simp only [Client.user] <;> infer_instance

/-- When an operation can be the next step. -/
def Enabled (s : State) : Op → Prop
  | .hr_evput _ => s.server = .idle
  | .server => s.server ≠ .idle ∧ ¬ s.server.waking
  | .srvopen _ => s.server.waking ∧ s.srvfd = false
  | .hrevwake => s.server.waking ∧ s.srvfd = true
  | .call _ => s.client = .idle
  | .client => s.client.user
  | .clopen _ => s.client = .evio ∧ s.clfd = false
  | .hrevwait _ => s.client = .evio ∧ s.clfd = true
  | .awake _ => s.client = .woken
  | .sendsig => s.client = .asleep
  | .doorbell | .unmagic => True

instance (s : State) (op : Op) : Decidable (Enabled s op) := by
  cases op <;> simp only [Enabled] <;> infer_instance

/-- The event of a call of `hr_evput` that has published it and has not returned. -/
def Server.inflight : Server → List WMSG
  | .wait ev | .wake ev => [ev]
  | _ => []

/-- `hr_evput` returns 0. -/
def return0 (s : State) : State :=
  { s with server := .idle, log := s.log ++ s.server.inflight.map .put }

/-- `hrevwake`, whoever calls it. -/
def ring (s : State) : State :=
  { s with q := (hrevwake s.q).1, client := s.client.wakeup (hrevwake s.q).2 }

/-- What the operation does. -/
def exec (s : State) : Op → State
  | .hr_evput ev => { s with server := .head ev }
  | .server => { s with
      q := (s.server.step s.q).1
      server := (s.server.step s.q).2
      log := s.log ++ s.server.obs s.q }
  | .srvopen true => { s with srvfd := true }
  -- without a descriptor `hr_evio` makes no call
  | .srvopen false => return0 s
  | .hrevwake => return0 (ring s)
  | .call f => { s with
      client := f.enter
      log := s.log ++ if f = .hr_evover then [.called] else [] }
  | .client => { s with
      q := (s.client.step s.magic s.q).1
      client := (s.client.step s.magic s.q).2
      log := s.log ++ s.client.obs }
  | .clopen true => { s with clfd := true }
  | .clopen false => { s with client := .reset }
  | .hrevwait ssig => { s with
      q := (hrevwait s.q ssig).1
      client := (hrevwait s.q ssig).2 }
  | .awake sig => { s with q := (awake s.q sig).1, client := (awake s.q sig).2 }
  | .sendsig => { s with client := .woken }
  | .doorbell => ring s
  | .unmagic => { s with magic := 0 }

/-- One step of the server, the client, a signal or another process. -/
def Step (s : State) (op : Op) (t : State) : Prop := Enabled s op ∧ t = exec s op

/-- The ring is empty, and nobody is in a call. -/
structure Initial (s : State) : Prop where
  empty : s.q.eq_head = s.q.eq_tail
  server : s.server = .idle
  client : s.client = .idle
  log : s.log = []

/-! ### What is to be shown -/

/-- How many events the ring holds. -/
def HREVQ.count (q : HREVQ) : ℕ := (q.eq_head - q.eq_tail).toNat

/-- The events in the ring. -/
def HREVQ.queued (q : HREVQ) : List WMSG :=
  Ring.window EVQ_SLOTS q.eq_ev q.eq_tail.toNat q.count

/-- The events for which `hr_evput` has returned 0. -/
def sent (l : List Obs) : List WMSG :=
  l.filterMap fun o => match o with
    | .put ev => some ev
    | _ => none

/-- The events that `hr_evget` has returned. -/
def received (l : List Obs) : List WMSG :=
  l.filterMap fun o => match o with
    | .got ev => some ev
    | _ => none

/-- What the client has obtained, and after it what it has yet to obtain, is what was sent. -/
def Exact (s : State) : Prop :=
  received s.log ++ s.q.queued = sent s.log ++ s.server.inflight

/-- Once `hr_evover` has been called and has returned after an event was dropped, a call of it
has returned nonzero after that. -/
def Reported (l : List Obs) : Prop :=
  ∀ l₁ l₂ l₃ l₄ w, l = l₁ ++ .dropped :: (l₂ ++ .called :: (l₃ ++ .was w :: l₄)) →
    ∃ w', w' ≠ 0 ∧ Obs.was w' ∈ l₂ ++ l₃ ++ [.was w]

/-- The server will ring the doorbell before `hr_evput` returns. -/
def WakePending (s : State) : Prop :=
  s.server.waking ∨ (∃ ev, s.server = .wait ev) ∧ s.q.eq_wait ≠ 0

/-- The client does not sleep over an event. -/
def NotAsleep (s : State) : Prop :=
  s.client = .asleep → s.q.eq_head ≠ s.q.eq_tail → WakePending s

/-- The server does not drop an event while `hr_evover` has read 0 and has yet to store 0; and
it finds a descriptor for the doorbell. -/
def Careful (s : State) : Op → Prop
  | .server => s.server = .full → s.client ≠ .clear 0
  | .srvopen ok => ok = true
  | _ => True

def CarefulStep (s : State) (op : Op) (t : State) : Prop := Step s op t ∧ Careful s op

instance (s : State) (op : Op) : Decidable (Careful s op) := by
  cases op <;> simp only [Careful] <;> infer_instance

/-! ### The indices -/

section Indices

variable {q q' : HREVQ}

lemma slotOf_eq (i : Word) : slotOf i = i.toNat % EVQ_SLOTS := by
  unfold slotOf EVQ_MASK EVQ_SLOTS
  rw [BitVec.toNat_and, show (15 : Word).toNat = 2 ^ 4 - 1 from rfl, Nat.and_two_pow_sub_one_eq_mod]

lemma count_zero : q.count = 0 ↔ q.eq_head = q.eq_tail := by
  unfold HREVQ.count
  bv_omega

/-- The place behind the events in the ring is the one for the next. -/
lemma place_head (q : HREVQ) : (q.eq_tail.toNat + q.count) % EVQ_SLOTS = slotOf q.eq_head := by
  rw [slotOf_eq]
  unfold HREVQ.count EVQ_SLOTS
  bv_omega

lemma full_iff (h : q.count ≤ EVQ_SLOTS) :
    (q.eq_head - q.eq_tail).toInt ≥ EVQ_SLOTS ↔ q.count = EVQ_SLOTS := by
  unfold HREVQ.count EVQ_SLOTS at *
  rw [BitVec.toInt_eq_toNat_of_lt (by omega)]
  omega

lemma count_put (hh : q'.eq_head = q.eq_head + 1) (ht : q'.eq_tail = q.eq_tail)
    (hc : q.count < EVQ_SLOTS) : q'.count = q.count + 1 := by
  unfold HREVQ.count EVQ_SLOTS at *
  rw [hh, ht]
  bv_omega

lemma count_get (hh : q'.eq_head = q.eq_head) (ht : q'.eq_tail = q.eq_tail + 1)
    (hc : 0 < q.count) : q.count = q'.count + 1 := by
  unfold HREVQ.count at *
  rw [hh, ht]
  bv_omega

lemma count_congr (hh : q'.eq_head = q.eq_head) (ht : q'.eq_tail = q.eq_tail) :
    q'.count = q.count := by
  unfold HREVQ.count
  rw [hh, ht]

lemma place_succ (t : Word) : (t + 1).toNat % EVQ_SLOTS = (t.toNat + 1) % EVQ_SLOTS := by
  unfold EVQ_SLOTS
  bv_omega

/-- **Putting**: the event in the place of the head comes behind the others. -/
lemma queued_put (hh : q'.eq_head = q.eq_head + 1) (ht : q'.eq_tail = q.eq_tail)
    (he : q'.eq_ev = q.eq_ev) (hc : q.count < EVQ_SLOTS) :
    q'.queued = q.queued ++ [q.eq_ev (slotOf q.eq_head)] := by
  unfold HREVQ.queued
  rw [count_put hh ht hc, ht, he, Ring.window_add, ← place_head]
  rfl

/-- **Getting**: the event in the place of the tail comes before the others. -/
lemma queued_get (hh : q'.eq_head = q.eq_head) (ht : q'.eq_tail = q.eq_tail + 1)
    (he : q'.eq_ev = q.eq_ev) (hc : 0 < q.count) :
    q.queued = q.eq_ev (slotOf q.eq_tail) :: q'.queued := by
  have h1 := count_get hh ht hc
  unfold HREVQ.queued
  rw [h1, Nat.add_comm, Ring.window_add, he, slotOf_eq, ht]
  nth_rewrite 2 [← Ring.window_mod]
  nth_rewrite 3 [← Ring.window_mod]
  rw [place_succ]
  rfl

/-- A store into the place of the head leaves the events in the ring as they are. -/
lemma queued_store (hh : q'.eq_head = q.eq_head) (ht : q'.eq_tail = q.eq_tail)
    (hc : q.count < EVQ_SLOTS)
    (he : ∀ d, d ≠ slotOf q.eq_head → q'.eq_ev d = q.eq_ev d) : q'.queued = q.queued := by
  unfold HREVQ.queued
  rw [count_congr hh ht, ht]
  refine Ring.window_congr fun i hi => he _ ?_
  rw [← place_head]
  simpa using Ring.place_ne (r := q.eq_tail.toNat) (j := 0) hi (by omega)

end Indices

/-! ### What each side relies on -/

/-- What the server has found so far in `hr_evput` still holds. -/
def ServerOk (q : HREVQ) : Server → Prop
  | .tail _ h => h = q.eq_head
  | .slot _ => q.count < EVQ_SLOTS
  | .copy ev d k => q.count < EVQ_SLOTS ∧ d = slotOf q.eq_head ∧ ∀ j < k, q.eq_ev d j = ev j
  | .inc ev => q.count < EVQ_SLOTS ∧ q.eq_ev (slotOf q.eq_head) = ev
  | .bump ev h => q.count < EVQ_SLOTS ∧ q.eq_ev (slotOf q.eq_head) = ev ∧ h = q.eq_head
  | _ => True

/-- What the client has found so far in `hr_evget` still holds. -/
def ClientOk (q : HREVQ) : Client → Prop
  | .tail h => h ≠ q.eq_tail → 0 < q.count
  | .slot => 0 < q.count
  | .copy d k ev => 0 < q.count ∧ d = slotOf q.eq_tail ∧ ∀ j < k, ev j = q.eq_ev d j
  | .inc ev => 0 < q.count ∧ q.eq_ev (slotOf q.eq_tail) = ev
  | .bump ev t => 0 < q.count ∧ q.eq_ev (slotOf q.eq_tail) = ev ∧ t = q.eq_tail
  | _ => True

/-- All that the server does to the ring, as far as the client is concerned. -/
structure Produces (q q' : HREVQ) : Prop where
  tail : q'.eq_tail = q.eq_tail
  count : q.count ≤ q'.count
  first : 0 < q.count → q'.eq_ev (slotOf q.eq_tail) = q.eq_ev (slotOf q.eq_tail)

/-- All that the client does to the ring, as far as the server is concerned. -/
structure Consumes (q q' : HREVQ) : Prop where
  head : q'.eq_head = q.eq_head
  count : q'.count ≤ q.count
  ev : q'.eq_ev = q.eq_ev

section Rely

variable {q q' : HREVQ} {c : Server} {d : Client}

lemma Produces.same (hh : q'.eq_head = q.eq_head) (ht : q'.eq_tail = q.eq_tail)
    (he : q'.eq_ev = q.eq_ev) : Produces q q' :=
  ⟨ht, (count_congr hh ht).ge, fun _ => by rw [he]⟩

lemma Consumes.same (hh : q'.eq_head = q.eq_head) (ht : q'.eq_tail = q.eq_tail)
    (he : q'.eq_ev = q.eq_ev) : Consumes q q' :=
  ⟨hh, (count_congr hh ht).le, he⟩

lemma ServerOk.mono (h : ServerOk q c) (hq : Consumes q q') : ServerOk q' c := by
  have hn := hq.count
  cases c with
  | tail ev i => exact Eq.trans h hq.head.symm
  | slot ev => exact lt_of_le_of_lt hn h
  | copy ev i k =>
    obtain ⟨h1, h2, h3⟩ := h
    refine ⟨by omega, by rw [hq.head, h2], fun j hj => ?_⟩
    rw [hq.ev]
    exact h3 j hj
  | inc ev =>
    obtain ⟨h1, h2⟩ := h
    exact ⟨by omega, by rw [hq.head, hq.ev, h2]⟩
  | bump ev i =>
    obtain ⟨h1, h2, h3⟩ := h
    exact ⟨by omega, by rw [hq.head, hq.ev, h2], by rw [hq.head, h3]⟩
  | _ => trivial

lemma ClientOk.mono (h : ClientOk q d) (hq : Produces q q') : ClientOk q' d := by
  have hn := hq.count
  cases d with
  | tail i =>
    intro hi
    rw [hq.tail] at hi
    have := h hi
    omega
  | slot =>
    have : 0 < q.count := h
    exact lt_of_lt_of_le this hn
  | copy i k ev =>
    obtain ⟨h1, h2, h3⟩ := h
    refine ⟨by omega, by rw [hq.tail, h2], fun j hj => ?_⟩
    rw [h3 j hj, h2, hq.first h1]
  | inc ev =>
    obtain ⟨h1, h2⟩ := h
    exact ⟨by omega, by rw [hq.tail, hq.first h1, h2]⟩
  | bump ev i =>
    obtain ⟨h1, h2, h3⟩ := h
    exact ⟨by omega, by rw [hq.tail, hq.first h1, h2], by rw [hq.tail, h3]⟩
  | _ => trivial

/-- The place of the tail is not the place of the head, as long as the ring is neither empty nor
full. -/
lemma slot_ne (h0 : 0 < q.count) (h1 : q.count < EVQ_SLOTS) :
    slotOf q.eq_tail ≠ slotOf q.eq_head := by
  rw [← place_head, slotOf_eq]
  simpa using Ring.place_ne (r := q.eq_tail.toNat) (j := 0) h0 (by omega)

end Rely

/-! ### One step of each side -/

/-- Word `k` is copied, and the ones before it have been. -/
lemma copied {x y : WMSG} {k : Fin 8} (h : ∀ j < k, x j = y j) :
    ∀ j ≤ k, Function.update x k (y k) j = y j := by
  intro j hj
  rcases eq_or_lt_of_le hj with rfl | hj
  · exact Function.update_self ..
  · rw [Function.update_of_ne hj.ne, h j hj]

/-- The last word is copied, and the ones before it have been. -/
lemma copied_all {x y : WMSG} {k : Fin 8} (h : ∀ j < k, x j = y j) (hk : ¬ k.val + 1 < 8) :
    Function.update x k (y k) = y :=
  funext fun j => copied h j (by omega)

/-- What one load or store of `hr_evput` does. -/
structure Puts (q : HREVQ) (c : Server) (q' : HREVQ) (c' : Server) : Prop where
  produces : Produces q q'
  count : q'.count ≤ EVQ_SLOTS
  ok : ServerOk q' c'
  events : ∃ new, q'.queued = q.queued ++ new ∧
    sent (c.obs q) ++ c'.inflight = c.inflight ++ new
  wait : q'.eq_wait = q.eq_wait
  head : q'.eq_head = q.eq_head ∨ ∃ ev, c' = .wait ev
  flag : q'.eq_over = if c = .full then 1 else q.eq_over

lemma Puts.of_same {q : HREVQ} {c c' : Server} (hn : q.count ≤ EVQ_SLOTS) (hc : c ≠ .full)
    (hok : ServerOk q c') (h : sent (c.obs q) ++ c'.inflight = c.inflight) : Puts q c q c' where
  produces := .same rfl rfl rfl
  count := hn
  ok := hok
  events := ⟨[], by simp, by simpa using h⟩
  wait := rfl
  head := .inl rfl
  flag := by rw [if_neg hc]

lemma Server.step_puts {q : HREVQ} {c : Server} (hn : q.count ≤ EVQ_SLOTS) (h : ServerOk q c) :
    Puts q c (c.step q).1 (c.step q).2 := by
  cases c with
  | idle => exact .of_same hn (by simp) trivial rfl
  | head ev => exact .of_same hn (by simp) rfl rfl
  | tail ev i =>
    have hi : i = q.eq_head := h
    simp only [Server.step]
    rw [hi]
    split_ifs with hf
    · exact .of_same hn (by simp) trivial rfl
    · rw [full_iff hn] at hf
      exact .of_same hn (by simp) (lt_of_le_of_ne hn hf) rfl
  | full =>
    exact ⟨.same rfl rfl rfl, hn, trivial, ⟨[], by simp [Server.step, HREVQ.queued, HREVQ.count],
      rfl⟩, rfl, .inl rfl, by simp [Server.step]⟩
  | slot ev => exact .of_same hn (by simp) ⟨h, rfl, fun j hj => absurd hj (by simp)⟩ rfl
  | copy ev d k =>
    obtain ⟨h1, rfl, h2⟩ := h
    have hst : ∀ e, e ≠ slotOf q.eq_head →
        (Server.step q (.copy ev (slotOf q.eq_head) k)).1.eq_ev e = q.eq_ev e :=
      fun e he => Function.update_of_ne he ..
    have hself : (Server.step q (.copy ev (slotOf q.eq_head) k)).1.eq_ev (slotOf q.eq_head) =
        Function.update (q.eq_ev (slotOf q.eq_head)) k (ev k) := Function.update_self ..
    refine ⟨⟨rfl, le_rfl, fun h0 => hst _ (slot_ne h0 h1)⟩, hn, ?_, ⟨[], ?_, ?_⟩, rfl, .inl rfl,
      by simp [Server.step]⟩
    · by_cases hk : k.val + 1 < 8
      · have hc : (Server.step q (.copy ev (slotOf q.eq_head) k)).2 =
            .copy ev (slotOf q.eq_head) ⟨k.val + 1, hk⟩ := dif_pos hk
        rw [hc]
        refine ⟨h1, rfl, fun j hj => ?_⟩
        rw [hself]
        exact copied h2 j (Nat.lt_succ_iff.mp hj)
      · have hc : (Server.step q (.copy ev (slotOf q.eq_head) k)).2 = .inc ev := dif_neg hk
        rw [hc]
        exact ⟨h1, hself.trans (copied_all h2 hk)⟩
    · rw [List.append_nil]
      exact queued_store rfl rfl h1 hst
    · simp only [Server.step]
      split_ifs <;> rfl
  | inc ev =>
    obtain ⟨h1, h2⟩ := h
    exact .of_same hn (by simp) ⟨h1, h2, rfl⟩ rfl
  | bump ev i =>
    obtain ⟨h1, h2, rfl⟩ := h
    have hc : (Server.step q (.bump ev q.eq_head)).1.count = q.count + 1 := count_put rfl rfl h1
    refine ⟨⟨rfl, by omega, fun _ => rfl⟩, by omega, trivial, ⟨[ev], ?_, rfl⟩, rfl, .inr ⟨ev, rfl⟩,
      by simp [Server.step]⟩
    rw [← h2]
    exact queued_put rfl rfl rfl h1
  | wait ev =>
    by_cases hw : q.eq_wait ≠ 0
    · have ho : Server.obs q (.wait ev) = [] := if_pos hw
      have hc : (Server.step q (.wait ev)).2 = .wake ev := if_pos hw
      rw [hc]
      exact .of_same hn (by simp) trivial (by rw [ho]; rfl)
    · have ho : Server.obs q (.wait ev) = [.put ev] := if_neg hw
      have hc : (Server.step q (.wait ev)).2 = .idle := if_neg hw
      rw [hc]
      exact .of_same hn (by simp) trivial (by rw [ho]; rfl)
  | wake ev => exact .of_same hn (by simp) trivial rfl

/-- What one load or store of `hr_evget`, `hr_evover` or `hr_evwait` does. -/
structure Gets (q : HREVQ) (c : Client) (q' : HREVQ) (c' : Client) : Prop where
  consumes : Consumes q q'
  ok : ClientOk q' c'
  events : received c.obs ++ q'.queued = q.queued
  awake : c.user → c' ≠ .asleep
  flag : q'.eq_over = q.eq_over ∨ ∃ w, c = .clear w
  clear : ∀ w, c' = .clear w → w = q.eq_over

lemma Gets.of_same {q : HREVQ} {c c' : Client} (hok : ClientOk q c') (hr : c.obs = [])
    (ha : c' ≠ .asleep) (hw : ∀ w, c' = .clear w → w = q.eq_over) : Gets q c q c' where
  consumes := .same rfl rfl rfl
  ok := hok
  events := by rw [hr]; rfl
  awake _ := ha
  flag := .inl rfl
  clear := hw

lemma Gets.of_wait {q : HREVQ} {c c' : Client} (w : Word) (hok : ClientOk q c')
    (hr : c.obs = []) (ha : c' ≠ .asleep) (hw : ∀ w, c' = .clear w → w = q.eq_over) :
    Gets q c { q with eq_wait := w } c' where
  consumes := .same rfl rfl rfl
  ok := ClientOk.mono hok (.same rfl rfl rfl)
  events := by rw [hr]; rfl
  awake _ := ha
  flag := .inl rfl
  clear := hw

lemma Client.step_gets {q : HREVQ} {c : Client} (magic : Word) (h : ClientOk q c)
    (hu : c.user) : Gets q c (c.step magic q).1 (c.step magic q).2 := by
  cases c with
  | head =>
    have hok : ClientOk q (.tail q.eq_head) := fun hne =>
      Nat.pos_of_ne_zero fun h0 => hne (count_zero.mp h0)
    exact .of_same hok rfl nofun nofun
  | tail i =>
    have hi : i ≠ q.eq_tail → 0 < q.count := h
    by_cases he : i = q.eq_tail
    · have hc : (Client.step magic q (.tail i)).2 = .idle := if_pos he
      rw [hc]
      exact .of_same trivial rfl nofun nofun
    · have hc : (Client.step magic q (.tail i)).2 = .slot := if_neg he
      rw [hc]
      exact .of_same (hi he) rfl nofun nofun
  | slot =>
    have hok : ClientOk q (.copy (slotOf q.eq_tail) 0 fun _ => 0) :=
      ⟨h, rfl, fun j hj => absurd hj (by simp)⟩
    exact .of_same hok rfl nofun nofun
  | copy d k ev =>
    obtain ⟨h1, rfl, h2⟩ := h
    by_cases hk : k.val + 1 < 8
    · have hc : (Client.step magic q (.copy (slotOf q.eq_tail) k ev)).2 =
          .copy (slotOf q.eq_tail) ⟨k.val + 1, hk⟩
            (Function.update ev k (q.eq_ev (slotOf q.eq_tail) k)) := dif_pos hk
      rw [hc]
      refine .of_same ⟨h1, rfl, fun j hj => ?_⟩ rfl nofun nofun
      exact copied h2 j (Nat.lt_succ_iff.mp hj)
    · have hc : (Client.step magic q (.copy (slotOf q.eq_tail) k ev)).2 =
          .inc (Function.update ev k (q.eq_ev (slotOf q.eq_tail) k)) := dif_neg hk
      rw [hc]
      exact .of_same ⟨h1, (copied_all h2 hk).symm⟩ rfl nofun nofun
  | inc ev =>
    obtain ⟨h1, h2⟩ := h
    have hok : ClientOk q (.bump ev q.eq_tail) := ⟨h1, h2, rfl⟩
    exact .of_same hok rfl nofun nofun
  | bump ev t =>
    obtain ⟨h1, h2, rfl⟩ := h
    have hc : q.count = (Client.step magic q (.bump ev q.eq_tail)).1.count + 1 :=
      count_get rfl rfl h1
    have hq : q.queued = _ :: (Client.step magic q (.bump ev q.eq_tail)).1.queued :=
      queued_get rfl rfl rfl h1
    refine ⟨⟨rfl, by omega, rfl⟩, trivial, ?_, nofun, .inl rfl, nofun⟩
    rw [hq, h2]
    rfl
  | overflow =>
    have hw : ∀ w, Client.clear q.eq_over = .clear w → w = q.eq_over := fun w hw => by
      injection hw with hw
      exact hw.symm
    exact .of_same trivial rfl nofun hw
  | clear was =>
    exact ⟨.same rfl rfl rfl, trivial, rfl, nofun, .inr ⟨was, rfl⟩, nofun⟩
  | magic | tail1 | tail2 | magic2 =>
    unfold Client.step
    dsimp only
    split
    · exact .of_same trivial rfl nofun nofun
    · exact .of_same trivial rfl nofun nofun
  | head1 | head2 => exact .of_same trivial rfl nofun nofun
  | announce | retract | reset => exact .of_wait _ trivial rfl nofun nofun
  | idle | evio | asleep | woken | gone => exact hu.elim

/-! ### What the callers have seen -/

lemma sent_append (l m : List Obs) : sent (l ++ m) = sent l ++ sent m := List.filterMap_append

lemma received_append (l m : List Obs) : received (l ++ m) = received l ++ received m :=
  List.filterMap_append

lemma received_server (q : HREVQ) (c : Server) : received (c.obs q) = [] := by
  cases c with
  | wait ev => simp only [Server.obs]; split <;> rfl
  | _ => rfl

lemma sent_client (c : Client) : sent c.obs = [] := by
  cases c <;> rfl

/-- An event has been dropped, and `hr_evover` has not returned nonzero since. -/
def owed : Bool → List Obs → Bool
  | b, [] => b
  | _, .dropped :: l => owed true l
  | b, .was w :: l => owed (b && w == 0) l
  | b, _ :: l => owed b l

lemma owed_append (b : Bool) (l m : List Obs) : owed b (l ++ m) = owed (owed b l) m := by
  induction l generalizing b with
  | nil => rfl
  | cons o l ih => cases o <;> exact ih _

lemma owed_true {l : List Obs} (h : ∀ w, Obs.was w ∈ l → w = 0) : owed true l = true := by
  induction l with
  | nil => rfl
  | cons o l ih =>
    have hl : owed true l = true := ih fun w hw => h w (List.mem_cons_of_mem _ hw)
    cases o with
    | was w =>
      have hw : w = 0 := h w List.mem_cons_self
      rw [owed, hw]
      exact hl
    | _ => exact hl

/-- What does not end a call of `hr_evover` reports nothing. -/
lemma Reported.snoc {l : List Obs} {o : Obs} (h : Reported l)
    (ho : ∀ w, o = .was w → owed false l = true → w ≠ 0) : Reported (l ++ [o]) := by
  intro l₁ l₂ l₃ l₄ w he
  rcases List.eq_nil_or_concat l₄ with rfl | ⟨l₄, o', rfl⟩
  · -- the call that ends now
    have he' : l ++ [o] = (l₁ ++ .dropped :: (l₂ ++ .called :: l₃)) ++ [.was w] := by
      rw [he]; simp
    obtain ⟨hl, ho'⟩ := List.append_inj' he' rfl
    by_contra hno
    simp only [List.mem_append, not_exists, not_and] at hno
    have hz : ∀ w', Obs.was w' ∈ l₂ ++ .called :: l₃ → w' = 0 := by
      intro w' hw'
      by_contra hne
      refine hno w' hne (.inl ?_)
      simpa using hw'
    have hw : owed false l = true := by
      rw [hl, owed_append]
      exact owed_true hz
    exact hno w (ho w (by simpa using ho') hw) (.inr (by simp))
  · -- one that has ended before
    have he' : l ++ [o] = (l₁ ++ .dropped :: (l₂ ++ .called :: (l₃ ++ .was w :: l₄))) ++ [o'] := by
      rw [he]; simp
    obtain ⟨hl, -⟩ := List.append_inj' he' rfl
    exact h l₁ l₂ l₃ l₄ w hl

/-! ### The invariant -/

/-- As long as a dropped event has not been reported, its flag is set or the client has read
it. -/
def FlagKept (s : State) : Prop :=
  owed false s.log = true →
    (∃ w, s.client = .clear w ∧ w ≠ 0) ∨ (∀ w, s.client ≠ .clear w) ∧ s.q.eq_over ≠ 0

/-- Whoever sleeps has announced it, on an empty ring or before an event whose sender has yet to
look. -/
def Announced (s : State) : Prop :=
  s.client = .asleep →
    s.q.eq_wait ≠ 0 ∧ (s.q.eq_head = s.q.eq_tail ∨ s.server.inflight ≠ [])

structure Inv (s : State) : Prop where
  count : s.q.count ≤ EVQ_SLOTS
  exact : Exact s
  server : ServerOk s.q s.server
  client : ClientOk s.q s.client
  announced : Announced s
  flag : FlagKept s
  reported : Reported s.log

section Steps

variable {s t : State}

lemma inv_server (h : Inv s) (hf : s.server = .full → s.client ≠ .clear 0) :
    Inv (exec s .server) := by
  obtain ⟨hp, hn, hok, ⟨new, hq, he⟩, hw, hh, ho⟩ := Server.step_puts h.count h.server
  refine ⟨hn, ?_, hok, h.client.mono hp, ?_, ?_, ?_⟩
  · -- what is published comes behind what was sent
    have hx : received s.log ++ s.q.queued = sent s.log ++ s.server.inflight := h.exact
    change received (s.log ++ s.server.obs s.q) ++ (s.server.step s.q).1.queued =
      sent (s.log ++ s.server.obs s.q) ++ (s.server.step s.q).2.inflight
    rw [received_append, received_server, List.append_nil, sent_append, List.append_assoc, he, hq,
      ← List.append_assoc, hx, List.append_assoc]
  · intro hs
    obtain ⟨h1, h2⟩ := h.announced hs
    refine ⟨by change (s.server.step s.q).1.eq_wait ≠ 0; rw [hw]; exact h1, ?_⟩
    change (s.server.step s.q).1.eq_head = (s.server.step s.q).1.eq_tail ∨ _
    rw [hp.tail]
    rcases hh with hh | ⟨ev, hh⟩
    · rw [hh]
      refine h2.imp_right fun hi => ?_
      change (s.server.step s.q).2.inflight ≠ []
      -- the call returns only if nobody waits
      cases hc : s.server with
      | wait ev =>
        have : (Server.step s.q (.wait ev)).2 = .wake ev := if_pos h1
        rw [this]
        simp [Server.inflight]
      | wake ev => simp [Server.step, Server.inflight]
      | _ => rw [hc] at hi; exact absurd rfl hi
    · right
      change (s.server.step s.q).2.inflight ≠ []
      rw [hh]
      simp [Server.inflight]
  · intro howed
    change owed false (s.log ++ s.server.obs s.q) = true at howed
    change (∃ w, s.client = .clear w ∧ w ≠ 0) ∨
      (∀ w, s.client ≠ .clear w) ∧ (s.server.step s.q).1.eq_over ≠ 0
    by_cases hc : s.server = .full
    · rw [if_pos hc] at ho
      rw [ho]
      by_cases hcl : ∃ w, s.client = .clear w
      · obtain ⟨w, hcl⟩ := hcl
        exact .inl ⟨w, hcl, fun hw0 => hf hc (by rw [hcl, hw0])⟩
      · exact .inr ⟨not_exists.mp hcl, by decide⟩
    · rw [if_neg hc] at ho
      rw [ho]
      refine h.flag ?_
      cases hd : s.server with
      | full => exact absurd hd hc
      | wait ev =>
        rw [hd, owed_append] at howed
        simp only [Server.obs] at howed
        split at howed <;> exact howed
      | _ =>
        rw [hd] at howed
        simpa [Server.obs] using howed
  · change Reported (s.log ++ s.server.obs s.q)
    cases hd : s.server with
    | full => exact h.reported.snoc nofun
    | wait ev =>
      simp only [Server.obs]
      split
      · simpa using h.reported
      · exact h.reported.snoc nofun
    | _ => simpa [Server.obs] using h.reported

lemma inv_client (h : Inv s) (hu : s.client.user) : Inv (exec s .client) := by
  obtain ⟨hp, hok, he, ha, hfl, hcl⟩ := Client.step_gets s.magic h.client hu
  have ha' := ha hu
  refine ⟨hp.count.trans h.count, ?_, h.server.mono hp, hok, fun hs => absurd hs ha', ?_, ?_⟩
  · -- what is obtained came before the rest of the ring
    have hx : received s.log ++ s.q.queued = sent s.log ++ s.server.inflight := h.exact
    change received (s.log ++ s.client.obs) ++ (s.client.step s.magic s.q).1.queued =
      sent (s.log ++ s.client.obs) ++ s.server.inflight
    rw [received_append, List.append_assoc, he, sent_append, sent_client, List.append_nil, hx]
  · intro howed
    change owed false (s.log ++ s.client.obs) = true at howed
    change (∃ w, (s.client.step s.magic s.q).2 = .clear w ∧ w ≠ 0) ∨
      (∀ w, (s.client.step s.magic s.q).2 ≠ .clear w) ∧ (s.client.step s.magic s.q).1.eq_over ≠ 0
    rcases hfl with hfl | ⟨w, hw⟩
    · -- `hr_evover` does not end
      by_cases hc : ∃ w, s.client = .clear w
      · obtain ⟨w, hc⟩ := hc
        have hfk : owed false s.log = true → w ≠ 0 := by
          intro h1
          rcases h.flag h1 with ⟨w', h2, h3⟩ | ⟨h2, -⟩
          · rw [hc] at h2
            injection h2 with h2
            rwa [h2]
          · exact absurd hc (h2 w)
        rw [hc, owed_append] at howed
        simp only [Client.obs, owed, Bool.and_eq_true, beq_iff_eq] at howed
        exact absurd howed.2 (hfk howed.1)
      · have hno := not_exists.mp hc
        have h1 : owed false s.log = true := by
          rw [owed_append] at howed
          cases hd : s.client with
          | clear w => exact absurd hd (hno w)
          | _ =>
            rw [hd] at howed
            exact howed
        rcases h.flag h1 with ⟨w, h2, -⟩ | ⟨-, h2⟩
        · exact absurd h2 (hno w)
        · by_cases hc' : ∃ w, (s.client.step s.magic s.q).2 = .clear w
          · obtain ⟨w, hc'⟩ := hc'
            exact .inl ⟨w, hc', by rw [hcl w hc']; exact h2⟩
          · exact .inr ⟨not_exists.mp hc', by rw [hfl]; exact h2⟩
    · -- `hr_evover` ends: what it has read is not 0
      rw [hw, owed_append] at howed
      simp only [Client.obs, owed, Bool.and_eq_true, beq_iff_eq] at howed
      rcases h.flag howed.1 with ⟨w', h2, h3⟩ | ⟨h2, -⟩
      · rw [hw] at h2
        injection h2 with h2
        exact absurd (h2 ▸ howed.2) h3
      · exact absurd hw (h2 w)
  · change Reported (s.log ++ s.client.obs)
    cases hd : s.client with
    | clear w =>
      refine h.reported.snoc fun w' hw' howed => ?_
      injection hw' with hw'
      rcases h.flag howed with ⟨w'', h2, h3⟩ | ⟨h2, -⟩
      · rw [hd] at h2
        injection h2 with h2
        rwa [← hw', h2]
      · exact absurd hd (h2 w)
    | bump ev t => exact h.reported.snoc nofun
    | _ => simpa [Client.obs] using h.reported

/-- A step of the driver changes nothing of the ring but `eq_wait`. -/
lemma Inv.driver (h : Inv s) {c : Client} {w : Word} (hc : ∀ w, s.client ≠ .clear w)
    (hc' : ∀ w, c ≠ .clear w) (hok : ClientOk s.q c)
    (ha : c = .asleep → w ≠ 0 ∧ (s.q.eq_head = s.q.eq_tail ∨ s.server.inflight ≠ [])) :
    Inv { s with q := { s.q with eq_wait := w }, client := c } where
  count := h.count
  exact := h.exact
  server := h.server.mono (.same rfl rfl rfl)
  client := ClientOk.mono hok (.same rfl rfl rfl)
  announced := ha
  flag howed := by
    rcases h.flag howed with ⟨w, h2, -⟩ | ⟨-, h2⟩
    · exact absurd h2 (hc w)
    · exact .inr ⟨hc', h2⟩
  reported := h.reported

/-- The client goes on without a look at the ring. -/
lemma Inv.goes (h : Inv s) {c : Client} (hc : ∀ w, s.client ≠ .clear w)
    (hc' : ∀ w, c ≠ .clear w) (hok : ClientOk s.q c) (ha : c ≠ .asleep) :
    Inv { s with client := c } :=
  h.driver (w := s.q.eq_wait) hc hc' hok fun h1 => absurd h1 ha

lemma inv_hrevwait (h : Inv s) {ssig : Bool} (hc : ∀ w, s.client ≠ .clear w) :
    Inv { s with q := (hrevwait s.q ssig).1, client := (hrevwait s.q ssig).2 } := by
  unfold hrevwait
  split
  · -- the ring is empty
    rename_i he
    cases ssig with
    | true => exact h.driver hc nofun trivial nofun
    | false => exact h.driver hc nofun trivial fun _ => ⟨by decide, .inl he⟩
  · exact h.driver hc nofun trivial nofun

/-- After `hrevwake` nobody sleeps, as whoever slept had announced it. -/
lemma inv_ring (h : Inv s) : Inv (ring s) ∧ (ring s).client ≠ .asleep := by
  unfold ring hrevwake
  split
  · rename_i hw
    by_cases hs : s.client = .asleep
    · have hc : s.client.wakeup true = .woken := if_pos ⟨rfl, hs⟩
      simp only [hc]
      exact ⟨h.driver (by rw [hs]; nofun) nofun trivial nofun, nofun⟩
    · have hc : s.client.wakeup true = s.client := if_neg fun h1 => hs h1.2
      simp only [hc]
      refine ⟨⟨h.count, h.exact, h.server.mono (.same rfl rfl rfl),
        h.client.mono (.same rfl rfl rfl), fun h1 => absurd h1 hs, h.flag, h.reported⟩, hs⟩
  · rename_i hw
    have hs : s.client ≠ .asleep := fun hs => hw (h.announced hs).1
    have hc : s.client.wakeup false = s.client := if_neg fun h1 => Bool.false_ne_true h1.1
    simp only [hc]
    exact ⟨h, hs⟩

lemma inv_return0 (h : Inv s) (hw : s.server.waking) (hs : s.client ≠ .asleep) :
    Inv (return0 s) := by
  cases hd : s.server with
  | wake ev =>
    have hx : received s.log ++ s.q.queued = sent s.log ++ s.server.inflight := h.exact
    have hl : (return0 s).log = s.log ++ [.put ev] := by
      change s.log ++ s.server.inflight.map .put = _
      rw [hd]
      rfl
    refine ⟨h.count, ?_, trivial, h.client, fun h1 => absurd h1 hs, ?_, ?_⟩
    · change received (return0 s).log ++ s.q.queued = sent (return0 s).log ++ []
      rw [hd] at hx
      rw [hl, received_append, show received [.put ev] = [] from rfl, sent_append,
        List.append_nil, List.append_nil]
      exact hx
    · intro howed
      rw [hl, owed_append] at howed
      exact h.flag howed
    · rw [hl]
      exact h.reported.snoc nofun
  | _ => rw [hd] at hw; exact hw.elim

theorem inv_step {op : Op} (h : Inv s) (hst : CarefulStep s op t) : Inv t := by
  obtain ⟨⟨hen, rfl⟩, hcare⟩ := hst
  cases op with
  | hr_evput ev =>
    have hs : s.server = .idle := hen
    have hx := h.exact
    unfold Exact at hx
    rw [hs] at hx
    refine ⟨h.count, hx, trivial, h.client, fun h1 => ?_, h.flag, h.reported⟩
    have h2 := h.announced h1
    rwa [hs] at h2
  | server => exact inv_server h hcare
  | srvopen ok =>
    have hok : ok = true := hcare
    rw [hok]
    exact ⟨h.count, h.exact, h.server, h.client, h.announced, h.flag, h.reported⟩
  | hrevwake =>
    obtain ⟨h1, h2⟩ := inv_ring h
    exact inv_return0 h1 hen.1 h2
  | call f =>
    have hc : s.client = .idle := hen
    have h1 : Inv { s with client := f.enter } := by
      cases f <;> exact h.goes (by rw [hc]; nofun) nofun trivial nofun
    cases f with
    | hr_evover =>
      have hx : received s.log ++ s.q.queued = sent s.log ++ s.server.inflight := h.exact
      refine ⟨h1.count, ?_, h1.server, h1.client, h1.announced, fun howed => ?_,
        h.reported.snoc nofun⟩
      · change received (s.log ++ [.called]) ++ _ = sent (s.log ++ [.called]) ++ _
        rw [received_append, show received [.called] = [] from rfl, sent_append,
          show sent [.called] = [] from rfl, List.append_nil, List.append_nil]
        exact hx
      · change owed false (s.log ++ [.called]) = true at howed
        rw [owed_append] at howed
        exact h1.flag howed
    | _ => simpa [exec] using h1
  | client => exact inv_client h hen
  | clopen ok =>
    cases ok with
    | true => exact ⟨h.count, h.exact, h.server, h.client, h.announced, h.flag, h.reported⟩
    | false => exact h.goes (by rw [hen.1]; nofun) nofun trivial nofun
  | hrevwait ssig => exact inv_hrevwait h (by rw [hen.1]; nofun)
  | awake sig =>
    have hc : s.client = .woken := hen
    have hc' : ∀ w, s.client ≠ .clear w := by rw [hc]; nofun
    cases sig with
    | none => exact inv_hrevwait h hc'
    | ignored => exact h.driver hc' nofun trivial nofun
    | caught => exact h.goes hc' nofun trivial nofun
  | sendsig =>
    have hc : s.client = .asleep := hen
    exact h.goes (by rw [hc]; nofun) nofun trivial nofun
  | doorbell => exact (inv_ring h).1
  | unmagic => exact ⟨h.count, h.exact, h.server, h.client, h.announced, h.flag, h.reported⟩

lemma Initial.inv (h : Initial s) : Inv s := by
  have h0 : s.q.count = 0 := count_zero.mpr h.empty
  have hq : s.q.queued = [] := by
    unfold HREVQ.queued
    rw [h0]
    rfl
  refine ⟨by rw [h0]; exact Nat.zero_le _, ?_, by rw [h.server]; trivial, by rw [h.client]; trivial,
    fun h1 => ?_, fun h1 => ?_, ?_⟩
  · unfold Exact
    rw [h.log, hq, h.server]
    rfl
  · rw [h.client] at h1
    exact absurd h1 nofun
  · rw [h.log] at h1
    exact absurd h1 (by decide)
  · intro l₁ l₂ l₃ l₄ w he
    rw [h.log] at he
    simp at he

/-- Whoever sleeps over an event will be woken. -/
lemma Inv.notAsleep (h : Inv s) : NotAsleep s := by
  intro hs hne
  obtain ⟨hw, he | he⟩ := h.announced hs
  · exact absurd he hne
  · cases hc : s.server with
    | wait ev => exact .inr ⟨⟨ev, hc⟩, hw⟩
    | wake ev => exact .inl (by rw [hc]; trivial)
    | _ => rw [hc] at he; exact absurd rfl he

end Steps

/-- **The event ring**: as long as the server does not drop an event between the two halves of
`hr_evover` and has its descriptor, the client obtains what was sent, it learns of what was
dropped, and it does not sleep over an event. -/
theorem event_ring {s t : State} {ops : List Op} (hs : Initial s) (h : Run CarefulStep s ops t) :
    Exact t ∧ Reported t.log ∧ NotAsleep t := by
  have hi : Inv t := h.invariant (fun _ _ _ hi hst => inv_step hi hst) hs.inv
  exact ⟨hi.exact, hi.reported, hi.notAsleep⟩

/-- A ring as `hr_evinit` leaves it. -/
def evinit : State :=
  { magic := HR_MAGIC
    q := ⟨0, 0, 0, 0, fun _ _ => 0⟩
    server := .idle
    client := .idle
    srvfd := false
    clfd := false
    log := [] }

lemma evinit_initial : Initial evinit := ⟨rfl, rfl, rfl, rfl⟩

def anEvent : WMSG := fun k => k.val

/-- The client goes to sleep, is woken by an event and gets it. -/
def wokenOps : List Op :=
  List.flatten [[.call .hr_evwait], List.replicate 6 .client, [.clopen true, .hrevwait false],
    [.hr_evput anEvent], List.replicate 14 .server, [.srvopen true, .hrevwake],
    [.awake .none, .client, .client, .call .hr_evget], List.replicate 13 .client]

lemma woken_run : Along (fun s op => Enabled s op ∧ Careful s op) exec evinit wokenOps ∧
    received (wokenOps.foldl exec evinit).log = [anEvent] := by
  decide +kernel

theorem event_ring_woken : ∃ t, Run CarefulStep evinit wokenOps t ∧
    received t.log = [anEvent] ∧ Exact t ∧ Reported t.log ∧ NotAsleep t := by
  have hrun : Run CarefulStep evinit wokenOps _ :=
    Run.along (fun _ _ h => ⟨⟨h.1, rfl⟩, h.2⟩) _ _ woken_run.1
  exact ⟨_, hrun, woken_run.2, event_ring evinit_initial hrun⟩

/-! ### A flag that is lost -/

/-- The client reads the flag, the server fills the ring and drops an event, the client clears
the flag; and calls again. -/
def lostOps : List Op :=
  List.flatten [[.call .hr_evover, .client],
    (List.replicate 16 (.hr_evput anEvent :: List.replicate 14 .server)).flatten,
    .hr_evput anEvent :: List.replicate 3 .server,
    [.client, .call .hr_evover, .client, .client]]

lemma lost_run : Along Enabled exec evinit lostOps ∧ (lostOps.foldl exec evinit).log =
    (Obs.called :: List.replicate 16 (Obs.put anEvent)) ++
      Obs.dropped :: ([Obs.was 0] ++ Obs.called :: ([] ++ Obs.was 0 :: [])) := by
  decide +kernel

/-- The client never learns that an event was dropped. -/
theorem evover_loses : ∃ s ops t, Initial s ∧ Run Step s ops t ∧
    ¬ (Exact t ∧ Reported t.log ∧ NotAsleep t) := by
  have hrun : Run Step evinit lostOps _ := Run.along (fun _ _ h => ⟨h, rfl⟩) _ _ lost_run.1
  refine ⟨evinit, lostOps, _, evinit_initial, hrun, fun ⟨_, h, _⟩ => ?_⟩
  obtain ⟨w, hw, hmem⟩ := h _ _ _ _ _ lost_run.2
  simp only [List.append_nil, List.mem_append, List.mem_singleton, Obs.was.injEq, or_self] at hmem
  exact hw hmem

end Coherent.EventRing
