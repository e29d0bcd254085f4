import Coherent.EventRing

/-!
The end of a session: the server, its clients at their event rings, and the watchdog that
outlives the server.

The watchdog clears the magic word of the shared memory, and rings the doorbell of every event
ring. The rings and what is done to them are those of `EventRing`; any number of clients may
wait at one ring, as the clients that connect do.
-/

namespace Coherent.Session

open Coherent.Lib Coherent.EventRing

abbrev Pid := ℕ

def EVQ_N : ℕ := 17

/-- Where the watchdog stands. -/
inductive Watch
  /-- in `wait`, the server lives -/
  | waiting
  /-- the server is dead, the magic is about to be cleared -/
  | unmagic
  /-- about to open the driver -/
  | open
  /-- about to ring the doorbell of ring `i` -/
  | ringing (i : ℕ)
  /-- the doorbells have been rung -/
  | done
  /-- there was no driver to open -/
  | deaf
  deriving DecidableEq

structure State where
  magic : Word
  q : ℕ → HREVQ
  server : Server
  /-- the ring of the server's call -/
  srvring : ℕ
  /-- `evfd >= 0` in the server -/
  srvfd : Bool
  client : Pid → Client
  /-- the ring of the client's call -/
  ring : Pid → ℕ
  /-- `evfd >= 0` in the client -/
  clfd : Pid → Bool
  watch : Watch

/-- The words that `hr_evinit` clears. -/
inductive Field
  | eq_head
  | eq_tail
  | eq_wait
  | eq_over
  deriving DecidableEq

/-- One store of `hr_evinit`. -/
def evinit (q : HREVQ) : Field → HREVQ
  | .eq_head => { q with eq_head := 0 }
  | .eq_tail => { q with eq_tail := 0 }
  | .eq_wait => { q with eq_wait := 0 }
  | .eq_over => { q with eq_over := 0 }

inductive Op
  | hr_evput (i : ℕ) (ev : WMSG)
  | hr_evinit (i : ℕ) (f : Field)
  /-- a load or a store of the server in `hr_evput` -/
  | server
  | srvopen (ok : Bool)
  | hrevwake
  /-- the server dies -/
  | die
  | call (p : Pid) (i : ℕ) (f : Call)
  /-- a load or a store of client `p` -/
  | client (p : Pid)
  | clopen (p : Pid) (ok : Bool)
  | hrevwait (p : Pid) (ssig : Bool)
  | awake (p : Pid) (sig : Signal)
  | sendsig (p : Pid)
  | exit (p : Pid)
  /-- the watchdog clears the magic -/
  | unmagic
  | wopen (ok : Bool)
  /-- the watchdog rings a doorbell -/
  | wake
  deriving DecidableEq

def Watch.isRinging : Watch → Bool
  | .ringing _ => true
  | _ => false

/-- When an operation can be the next step. -/
def Enabled (s : State) : Op → Prop
  | .hr_evput i _ => s.watch = .waiting ∧ s.server = .idle ∧ i < EVQ_N
  | .hr_evinit i _ => s.watch = .waiting ∧ s.server = .idle ∧ i < EVQ_N
  | .server => s.watch = .waiting ∧ s.server ≠ .idle ∧ ¬ s.server.waking
  | .srvopen _ => s.watch = .waiting ∧ s.server.waking ∧ s.srvfd = false
  | .hrevwake => s.watch = .waiting ∧ s.server.waking ∧ s.srvfd = true
  | .die => s.watch = .waiting
  | .call p i _ => s.client p = .idle ∧ i < EVQ_N
  | .client p => (s.client p).user
  | .clopen p _ => s.client p = .evio ∧ s.clfd p = false
  | .hrevwait p _ => s.client p = .evio ∧ s.clfd p = true
  | .awake p _ => s.client p = .woken
  | .sendsig p => s.client p = .asleep
  | .exit p => s.client p = .idle ∨ (s.client p).user
  | .unmagic => s.watch = .unmagic
  | .wopen _ => s.watch = .open
  | .wake => s.watch.isRinging = true

instance (s : State) (op : Op) : Decidable (Enabled s op) := by
  cases op <;> simp only [Enabled] <;> infer_instance

/-- Client `p` goes on to `c`, and its ring is `q` then. -/
def goes (s : State) (p : Pid) (r : HREVQ × Client) : State :=
  { s with
    q := Function.update s.q (s.ring p) r.1
    client := Function.update s.client p r.2 }

/-- `hrevwake` of ring `i`. -/
def doorbell (s : State) (i : ℕ) : State :=
  { s with
    q := Function.update s.q i (EventRing.hrevwake (s.q i)).1
    client := fun p =>
      if s.ring p = i then (s.client p).wakeup (EventRing.hrevwake (s.q i)).2 else s.client p }

/-- What the operation does. -/
def exec (s : State) : Op → State
  | .hr_evput i ev => { s with server := .head ev, srvring := i }
  | .hr_evinit i f => { s with q := Function.update s.q i (evinit (s.q i) f) }
  | .server => { s with
      q := Function.update s.q s.srvring (s.server.step (s.q s.srvring)).1
      server := (s.server.step (s.q s.srvring)).2 }
  | .srvopen true => { s with srvfd := true }
  | .srvopen false => { s with server := .idle }
  | .hrevwake => { doorbell s s.srvring with server := .idle }
  | .die => { s with watch := .unmagic }
  | .call p i f => { s with
      client := Function.update s.client p f.enter
      ring := Function.update s.ring p i }
  | .client p => goes s p ((s.client p).step s.magic (s.q (s.ring p)))
  | .clopen p true => { s with clfd := Function.update s.clfd p true }
  | .clopen p false => { s with client := Function.update s.client p .reset }
  | .hrevwait p ssig => goes s p (EventRing.hrevwait (s.q (s.ring p)) ssig)
  | .awake p sig => goes s p (EventRing.awake (s.q (s.ring p)) sig)
  | .sendsig p => { s with client := Function.update s.client p .woken }
  | .exit p => { s with client := Function.update s.client p .gone }
  | .unmagic => { s with magic := 0, watch := .open }
  | .wopen ok => { s with watch := if ok then .ringing 0 else .deaf }
  | .wake =>
    match s.watch with
    | .ringing i =>
      { doorbell s i with watch := if i + 1 < EVQ_N then .ringing (i + 1) else .done }
    | _ => s

/-- One step of the server, a client, a signal or the watchdog. -/
def Step (s : State) (op : Op) (t : State) : Prop := Enabled s op ∧ t = exec s op

/-- The session has begun, nobody waits yet. -/
structure Initial (s : State) : Prop where
  watch : s.watch = .waiting
  client : ∀ p, s.client p = .idle
  ring : ∀ p, s.ring p < EVQ_N

/-! ### What is to be shown -/

/-- Nobody sleeps. -/
def AllAwake (s : State) : Prop := ∀ p, s.client p ≠ .asleep

/-- The process whose step it is. -/
def Op.proc : Op → Option Pid
  | .call p _ _ | .client p | .clopen p _ | .hrevwait p _ | .awake p _ | .exit p => some p
  | _ => none

/-- How many steps of its own a client that has called the driver, or sleeps in it, has to
`exit`; `fd` says that it has the driver open. -/
def toGo (fd : Bool) : Client → Option ℕ
  | .evio => some (if fd then 3 else 4)
  | .woken => some 3
  | .reset => some 2
  | .magic2 => some 1
  | .gone => some 0
  | _ => none

def toExit (s : State) (p : Pid) : Option ℕ := toGo (s.clfd p) (s.client p)

/-- How many of the steps are those of process `p`. -/
def ownSteps (p : Pid) (ops : List Op) : ℕ := ops.countP fun op => op.proc = some p

/-- The doorbell of ring `i` has been rung by the watchdog. -/
def rung (s : State) (i : ℕ) : Prop :=
  match s.watch with
  | .ringing j => i < j
  | .done => True
  | _ => False

/-- Nobody sleeps at ring `i`. -/
def Vacant (s : State) (i : ℕ) : Prop := ∀ p, s.client p = .asleep → s.ring p ≠ i

/-- What the loop of `hrevwait` may find at its test: not an empty ring whose doorbell the
watchdog has rung, unless a signal ends the wait; and not an event, while another client sleeps
at the ring. -/
def CarefulTest (s : State) (p : Pid) (ssig : Bool) : Prop :=
  ((s.q (s.ring p)).eq_head = (s.q (s.ring p)).eq_tail → rung s (s.ring p) → ssig = true) ∧
    ((s.q (s.ring p)).eq_head ≠ (s.q (s.ring p)).eq_tail → Vacant s (s.ring p))

/-- No client takes back `eq_wait` while another sleeps at the ring, and `hrevwait` does not go
back to sleep once the watchdog has rung. -/
def Careful (s : State) : Op → Prop
  | .hrevwait p ssig => CarefulTest s p ssig
  | .awake p .none => CarefulTest s p false
  | .awake p .ignored => Vacant s (s.ring p)
  | .client p => s.client p = .retract ∨ s.client p = .reset → Vacant s (s.ring p)
  | .hr_evinit i .eq_wait => Vacant s i
  | _ => True

def CarefulStep (s : State) (op : Op) (t : State) : Prop := Step s op t ∧ Careful s op

/-! ### What one load or store can do -/

lemma server_wait (q : HREVQ) (c : Server) : (c.step q).1.eq_wait = q.eq_wait := by
  cases c <;> rfl

lemma client_awake {q : HREVQ} {c : Client} {magic : Word} (hu : c.user) :
    (c.step magic q).2 ≠ .asleep := by
  cases c with
  | tail | copy | magic | tail1 | tail2 | magic2 =>
    unfold Client.step
    dsimp only
    split <;> nofun
  | idle | evio | asleep | woken | gone => exact hu.elim
  | _ => nofun

/-- Only two stores of `hr_evwait` take `eq_wait` back. -/
lemma client_wait {q : HREVQ} {c : Client} {magic : Word} (hw : q.eq_wait ≠ 0)
    (h1 : c ≠ .retract) (h2 : c ≠ .reset) : (c.step magic q).1.eq_wait ≠ 0 := by
  cases c with
  | retract => exact absurd rfl h1
  | reset => exact absurd rfl h2
  | announce => exact show (1 : Word) ≠ 0 by decide
  | _ => exact hw

/-! ### The invariant -/

structure Inv (s : State) : Prop where
  ring : ∀ p, s.ring p < EVQ_N
  /-- whoever sleeps has announced it -/
  announced : ∀ p, s.client p = .asleep → (s.q (s.ring p)).eq_wait ≠ 0
  /-- and sleeps at a ring whose doorbell is still to be rung -/
  quiet : ∀ p, s.client p = .asleep → ¬ rung s (s.ring p)
  magic : s.watch = .waiting ∨ s.watch = .unmagic ∨ s.magic = 0

section Steps

variable {s t : State}

lemma Inv.mono (h : Inv s) (hw : t.watch = s.watch) (hm : t.magic = s.magic)
    (hr : ∀ p, t.ring p < EVQ_N)
    (hs : ∀ p, t.client p = .asleep → s.client p = .asleep ∧ t.ring p = s.ring p)
    (hq : ∀ p, t.client p = .asleep → (t.q (s.ring p)).eq_wait ≠ 0) : Inv t where
  ring := hr
  announced p hp := by
    rw [(hs p hp).2]
    exact hq p hp
  quiet p hp := by
    obtain ⟨h1, h2⟩ := hs p hp
    have h3 := h.quiet p h1
    unfold rung at *
    rwa [hw, h2]
  magic := by
    rw [hw, hm]
    exact h.magic

/-- Client `p` goes on and does not sleep. -/
lemma inv_goes (h : Inv s) {p : Pid} {r : HREVQ × Client} (hr : r.2 ≠ .asleep)
    (hw : (s.q (s.ring p)).eq_wait ≠ 0 → r.1.eq_wait ≠ 0 ∨ Vacant s (s.ring p)) :
    Inv (goes s p r) := by
  have hsame : ∀ p', (goes s p r).client p' = .asleep → s.client p' = .asleep := by
    intro p' hp'
    by_cases hpp : p' = p
    · rw [hpp] at hp'
      exact absurd ((Function.update_self ..).symm.trans hp') hr
    · exact (Function.update_of_ne hpp ..).symm.trans hp'
  refine h.mono rfl rfl h.ring (fun p' hp' => ⟨hsame p' hp', rfl⟩) fun p' hp' => ?_
  have hs := hsame p' hp'
  have ha := h.announced p' hs
  by_cases hi : s.ring p' = s.ring p
  · -- the ring at which `p'` sleeps
    have hq : (goes s p r).q (s.ring p') = r.1 := by
      rw [hi]
      exact Function.update_self ..
    rw [hq]
    rw [hi] at ha
    exact (hw ha).resolve_right fun hv => hv p' hs hi
  · have hq : (goes s p r).q (s.ring p') = s.q (s.ring p') := Function.update_of_ne hi ..
    rwa [hq]

/-- The same, without a look at the ring. -/
lemma inv_turns (h : Inv s) {p : Pid} {c : Client} (hc : c ≠ .asleep) :
    Inv { s with client := Function.update s.client p c } := by
  have hg := inv_goes h (p := p) (r := (s.q (s.ring p), c)) hc fun hw => .inl hw
  unfold goes at hg
  rwa [Function.update_eq_self] at hg

/-- Client `p` goes to sleep. -/
lemma inv_sleeps (h : Inv s) {p : Pid} {q : HREVQ} (hq : q.eq_wait ≠ 0)
    (hr : ¬ rung s (s.ring p)) : Inv (goes s p (q, .asleep)) where
  ring := h.ring
  announced p' hp' := by
    change (Function.update s.q (s.ring p) q (s.ring p')).eq_wait ≠ 0
    by_cases hi : s.ring p' = s.ring p
    · rw [hi, Function.update_self]
      exact hq
    · rw [Function.update_of_ne hi]
      have hpp : p' ≠ p := fun h1 => hi (by rw [h1])
      exact h.announced p' ((Function.update_of_ne hpp ..).symm.trans hp')
  quiet p' hp' := by
    by_cases hpp : p' = p
    · rw [hpp]
      exact hr
    · exact h.quiet p' ((Function.update_of_ne hpp ..).symm.trans hp')
  magic := h.magic

lemma inv_hrevwait (h : Inv s) {p : Pid} {ssig : Bool} (hc : CarefulTest s p ssig) :
    Inv (goes s p (EventRing.hrevwait (s.q (s.ring p)) ssig)) := by
  unfold EventRing.hrevwait
  split
  · rename_i he
    cases ssig with
    | true => exact inv_goes h nofun fun _ => .inl (show (1 : Word) ≠ 0 by decide)
    | false =>
      exact inv_sleeps h (show (1 : Word) ≠ 0 by decide) fun h1 =>
        Bool.false_ne_true (hc.1 he h1)
  · rename_i he
    exact inv_goes h nofun fun _ => .inr (hc.2 he)

/-- Whoever sleeps at the ring is woken, as it has announced it. -/
lemma doorbell_asleep (h : Inv s) {i : ℕ} {p : Pid} (hp : (doorbell s i).client p = .asleep) :
    s.client p = .asleep ∧ s.ring p ≠ i := by
  change (if s.ring p = i then (s.client p).wakeup (EventRing.hrevwake (s.q i)).2
    else s.client p) = .asleep at hp
  split at hp
  · rename_i hi
    exfalso
    unfold Client.wakeup at hp
    split at hp
    · cases hp
    · rename_i hno
      have ha := h.announced p hp
      rw [hi] at ha
      have hw : (EventRing.hrevwake (s.q i)).2 = true := by
        unfold EventRing.hrevwake
        rw [if_pos ha]
      exact hno ⟨hw, hp⟩
  · exact ⟨hp, ‹_›⟩

lemma inv_doorbell (h : Inv s) (i : ℕ) : Inv (doorbell s i) := by
  refine h.mono rfl rfl h.ring (fun p hp => ⟨(doorbell_asleep h hp).1, rfl⟩) fun p hp => ?_
  obtain ⟨h1, h2⟩ := doorbell_asleep h hp
  have hq : (doorbell s i).q (s.ring p) = s.q (s.ring p) := Function.update_of_ne h2 ..
  rw [hq]
  exact h.announced p h1

/-- The watchdog rings the next doorbell. -/
lemma inv_wake (h : Inv s) (hr : s.watch.isRinging = true) : Inv (exec s .wake) := by
  cases hw : s.watch with
  | ringing i =>
    have hd := inv_doorbell h i
    have he : exec s .wake = { doorbell s i with
        watch := if i + 1 < EVQ_N then .ringing (i + 1) else .done } := by
      simp only [exec, hw]
    rw [he]
    refine ⟨hd.ring, hd.announced, fun p hp hrung => ?_, ?_⟩
    · obtain ⟨h1, h2⟩ := doorbell_asleep h hp
      have hlt := h.ring p
      have hno : ¬ s.ring p < i := by
        have := h.quiet p h1
        unfold rung at this
        rwa [hw] at this
      change ¬ s.ring p = i at h2
      by_cases hi : i + 1 < EVQ_N
      · rw [if_pos hi] at hrung
        have hle : s.ring p < i + 1 := hrung
        omega
      · omega
    · refine .inr (.inr ?_)
      rcases h.magic with hm | hm | hm
      · rw [hw] at hm; cases hm
      · rw [hw] at hm; cases hm
      · exact hm
  | _ => rw [hw] at hr; cases hr

theorem inv_step {op : Op} (h : Inv s) (hst : CarefulStep s op t) : Inv t := by
  obtain ⟨⟨hen, rfl⟩, hc⟩ := hst
  cases op with
  | hr_evput i ev => exact h.mono rfl rfl h.ring (fun p hp => ⟨hp, rfl⟩) h.announced
  | hr_evinit i f =>
    refine h.mono rfl rfl h.ring (fun p hp => ⟨hp, rfl⟩) fun p hp => ?_
    have ha := h.announced p hp
    change (Function.update s.q i (evinit (s.q i) f) (s.ring p)).eq_wait ≠ 0
    by_cases hi : s.ring p = i
    · rw [hi, Function.update_self]
      rw [hi] at ha
      cases f with
      | eq_wait => exact absurd hi (hc p hp)
      | _ => exact ha
    · rwa [Function.update_of_ne hi]
  | server =>
    refine h.mono rfl rfl h.ring (fun p hp => ⟨hp, rfl⟩) fun p hp => ?_
    have ha := h.announced p hp
    change (Function.update s.q s.srvring _ (s.ring p)).eq_wait ≠ 0
    by_cases hi : s.ring p = s.srvring
    · rw [hi, Function.update_self, server_wait]
      rwa [hi] at ha
    · rwa [Function.update_of_ne hi]
  | srvopen ok => cases ok <;> exact h.mono rfl rfl h.ring (fun p hp => ⟨hp, rfl⟩) h.announced
  | hrevwake =>
    have hd := inv_doorbell h s.srvring
    exact hd.mono rfl rfl hd.ring (fun p hp => ⟨hp, rfl⟩) hd.announced
  | die =>
    refine ⟨h.ring, h.announced, fun p hp => ?_, .inr (.inl rfl)⟩
    exact id
  | call p i f =>
    have hs : ∀ p', (exec s (.call p i f)).client p' = .asleep → p' ≠ p := by
      intro p' hp' hpp
      rw [hpp] at hp'
      have : f.enter = .asleep := (Function.update_self ..).symm.trans hp'
      cases f <;> cases this
    refine h.mono rfl rfl (fun p' => ?_) (fun p' hp' => ⟨?_, ?_⟩) fun p' hp' => ?_
    · change Function.update s.ring p i p' < EVQ_N
      by_cases hpp : p' = p
      · rw [hpp, Function.update_self]
        exact hen.2
      · rw [Function.update_of_ne hpp]
        exact h.ring p'
    · exact (Function.update_of_ne (hs p' hp') ..).symm.trans hp'
    · exact Function.update_of_ne (hs p' hp') ..
    · exact h.announced p' ((Function.update_of_ne (hs p' hp') ..).symm.trans hp')
  | client p =>
    refine inv_goes h (client_awake hen) fun hw => ?_
    by_cases hcl : s.client p = .retract ∨ s.client p = .reset
    · exact .inr (hc hcl)
    · exact .inl (client_wait hw (fun h1 => hcl (.inl h1)) fun h1 => hcl (.inr h1))
  | clopen p ok =>
    cases ok with
    | true => exact h.mono rfl rfl h.ring (fun p hp => ⟨hp, rfl⟩) h.announced
    | false => exact inv_turns h nofun
  | hrevwait p ssig => exact inv_hrevwait h hc
  | awake p sig =>
    cases sig with
    | none => exact inv_hrevwait h hc
    | ignored => exact inv_goes h nofun fun _ => .inr hc
    | caught => exact inv_goes h nofun fun hw => .inl hw
  | sendsig p | exit p => exact inv_turns h nofun
  | unmagic => exact ⟨h.ring, h.announced, fun p hp => id, .inr (.inr rfl)⟩
  | wopen ok =>
    have hw : s.watch = .open := hen
    have hm : s.magic = 0 := by
      have := h.magic
      rw [hw] at this
      simpa using this
    cases ok with
    | true => exact ⟨h.ring, h.announced, fun p hp => Nat.not_lt_zero _, .inr (.inr hm)⟩
    | false => exact ⟨h.ring, h.announced, fun p hp => id, .inr (.inr hm)⟩
  | wake => exact inv_wake h hen

lemma Initial.inv (h : Initial s) : Inv s := by
  have hno : ∀ p, s.client p ≠ .asleep := fun p => by rw [h.client p]; nofun
  exact ⟨h.ring, fun p hp => absurd hp (hno p), fun p hp => absurd hp (hno p), .inl h.watch⟩

/-- Once every doorbell has been rung, nobody sleeps. -/
lemma Inv.allAwake (h : Inv s) (hw : s.watch = .done) : AllAwake s := by
  intro p hp
  refine h.quiet p hp ?_
  unfold rung
  rw [hw]
  trivial

/-! ### The way to `exit` -/

/-- The session is over, and every doorbell has been rung. -/
structure Over (s : State) : Prop where
  watch : s.watch = .done
  magic : s.magic = 0

lemma Over.step {op : Op} (h : Over s) (hst : Step s op t) : Over t := by
  obtain ⟨hen, rfl⟩ := hst
  cases op with
  | hr_evput | hr_evinit | server | srvopen | hrevwake => exact absurd (h.watch.symm.trans hen.1) nofun
  | die | unmagic | wopen => exact absurd (h.watch.symm.trans hen) nofun
  | wake =>
    have hr : s.watch.isRinging = true := hen
    rw [h.watch] at hr
    cases hr
  | clopen p ok => cases ok <;> exact ⟨h.watch, h.magic⟩
  | _ => exact ⟨h.watch, h.magic⟩

/-- After the end `hrevwait` returns. -/
lemma Over.hrevwait {p : Pid} {ssig : Bool} (h : Over s) (hc : CarefulTest s p ssig) :
    (EventRing.hrevwait (s.q (s.ring p)) ssig).2 = .reset := by
  unfold EventRing.hrevwait
  split
  · rename_i he
    have hr : rung s (s.ring p) := by
      unfold rung
      rw [h.watch]
      trivial
    rw [hc.1 he hr]
    rfl
  · rfl

/-- Whoever does not move keeps its way. -/
lemma toExit_congr {p : Pid} (hc : t.client p = s.client p) (hf : t.clfd p = s.clfd p) :
    toExit t p = toExit s p := by
  unfold toExit
  rw [hc, hf]

lemma toExit_of {p : Pid} {c : Client} (hc : s.client p = c) : toExit s p = toGo (s.clfd p) c := by
  unfold toExit
  rw [hc]

lemma toGo_pos {fd : Bool} {c : Client} {n : ℕ} (hu : c = .idle ∨ c.user)
    (hn : toGo fd c = some n) : 1 ≤ n := by
  cases c with
  | reset | magic2 => cases hn; decide
  | gone => rcases hu with hu | hu <;> cases hu
  | evio | woken => rcases hu with hu | hu <;> cases hu
  | _ => cases hn

/-- The steps of its own bring a client nearer to `exit`, and the others' do not keep it from
it. -/
lemma toExit_step {p : Pid} {op : Op} {n : ℕ} (h : Over s) (hn : toExit s p = some n)
    (hst : CarefulStep s op t) : ∃ m, toExit t p = some m ∧ m + ownSteps p [op] ≤ n := by
  obtain ⟨⟨hen, rfl⟩, hc⟩ := hst
  have hother : ∀ t : State, t.client p = s.client p → t.clfd p = s.clfd p → op.proc ≠ some p →
      ∃ m, toExit t p = some m ∧ m + ownSteps p [op] ≤ n := by
    intro t h1 h2 h3
    refine ⟨n, (toExit_congr h1 h2).trans hn, ?_⟩
    simp [ownSteps, h3]
  have hown : ∀ {t : State} {m : ℕ}, toExit t p = some m → m + 1 ≤ n →
      ∃ m, toExit t p = some m ∧ m + ownSteps p [op] ≤ n := by
    intro t m h2 h3
    have hle : ownSteps p [op] ≤ 1 := List.countP_le_length
    exact ⟨m, h2, by omega⟩
  cases op with
  | hr_evput | hr_evinit | server | srvopen | hrevwake =>
    exact absurd (h.watch.symm.trans hen.1) nofun
  | die | unmagic | wopen => exact absurd (h.watch.symm.trans hen) nofun
  | wake =>
    have hr : s.watch.isRinging = true := hen
    rw [h.watch] at hr
    cases hr
  | call p' i f =>
    by_cases hp : p = p'
    · subst hp
      rw [toExit_of hen.1] at hn
      cases hn
    · exact hother _ (Function.update_of_ne hp ..) rfl fun h1 => hp (Option.some.inj h1).symm
  | client p' =>
    by_cases hp : p = p'
    · subst hp
      have hu : (s.client p).user := hen
      have hcl : (exec s (.client p)).client p =
        ((s.client p).step s.magic (s.q (s.ring p))).2 := Function.update_self ..
      cases hd : s.client p with
      | reset =>
        rw [toExit_of hd] at hn
        cases hn
        rw [hd] at hcl
        exact hown (toExit_of hcl) le_rfl
      | magic2 =>
        rw [toExit_of hd] at hn
        cases hn
        rw [hd] at hcl
        have hm : s.magic ≠ HR_MAGIC := by rw [h.magic]; decide
        have hg : (Client.step s.magic (s.q (s.ring p)) .magic2).2 = .gone := if_pos hm
        rw [hg] at hcl
        exact hown (toExit_of hcl) le_rfl
      | evio | woken | gone => rw [hd] at hu; exact hu.elim
      | _ => rw [toExit_of hd] at hn; cases hn
    · exact hother _ (Function.update_of_ne hp ..) rfl fun h1 => hp (Option.some.inj h1).symm
  | clopen p' ok =>
    by_cases hp : p = p'
    · subst hp
      rw [toExit_of hen.1] at hn
      have hn4 : 4 = n := by
        rw [hen.2] at hn
        exact Option.some.inj hn
      cases ok with
      | true =>
        have hcl : (exec s (.clopen p true)).client p = .evio := hen.1
        have hfd : (exec s (.clopen p true)).clfd p = true := Function.update_self ..
        refine hown (m := 3) ?_ (by omega)
        rw [toExit_of hcl, hfd]
        rfl
      | false =>
        have hcl : (exec s (.clopen p false)).client p = .reset := Function.update_self ..
        exact hown (toExit_of hcl) (by omega)
    · cases ok with
      | true =>
        exact hother _ rfl (Function.update_of_ne hp ..) fun h1 => hp (Option.some.inj h1).symm
      | false =>
        exact hother _ (Function.update_of_ne hp ..) rfl fun h1 => hp (Option.some.inj h1).symm
  | hrevwait p' ssig =>
    by_cases hp : p = p'
    · subst hp
      rw [toExit_of hen.1] at hn
      have hn3 : 3 = n := by
        rw [hen.2] at hn
        exact Option.some.inj hn
      have hcl : (exec s (.hrevwait p ssig)).client p = .reset :=
        (Function.update_self ..).trans (h.hrevwait hc)
      exact hown (toExit_of hcl) (by omega)
    · exact hother _ (Function.update_of_ne hp ..) rfl fun h1 => hp (Option.some.inj h1).symm
  | awake p' sig =>
    by_cases hp : p = p'
    · subst hp
      rw [toExit_of hen] at hn
      cases hn
      have hcl : (exec s (.awake p sig)).client p = .reset := by
        refine (Function.update_self ..).trans ?_
        cases sig with
        | none => exact h.hrevwait hc
        | _ => rfl
      exact hown (toExit_of hcl) le_rfl
    · exact hother _ (Function.update_of_ne hp ..) rfl fun h1 => hp (Option.some.inj h1).symm
  | sendsig p' =>
    have hp : p ≠ p' := by
      rintro rfl
      rw [toExit_of hen] at hn
      cases hn
    exact hother _ (Function.update_of_ne hp ..) rfl nofun
  | exit p' =>
    by_cases hp : p = p'
    · subst hp
      have hcl : (exec s (.exit p)).client p = .gone := Function.update_self ..
      exact hown (toExit_of hcl) (by have := toGo_pos hen hn; omega)
    · exact hother _ (Function.update_of_ne hp ..) rfl fun h1 => hp (Option.some.inj h1).symm

/-- The run lemma: a client that makes as many steps as it has to go is gone. -/
lemma Over.exits {p : Pid} {n : ℕ} {ops : List Op} (h : Over s) (hn : toExit s p = some n)
    (hr : Run CarefulStep s ops t) :
    Over t ∧ ∃ m, toExit t p = some m ∧ m + ownSteps p ops ≤ n := by
  induction hr with
  | nil => exact ⟨h, n, hn, le_rfl⟩
  | snoc _ hst ih =>
    obtain ⟨hover, m, hm, hle⟩ := ih
    obtain ⟨m', hm', hle'⟩ := toExit_step hover hm hst
    refine ⟨hover.step hst.1, m', hm', ?_⟩
    unfold ownSteps at *
    rw [List.countP_append]
    omega

end Steps

/-- Once the watchdog has rung every doorbell, nobody sleeps; and whoever was in `hrevwait`, or
is on its way there, exits as soon as it has made the few steps that are left to it. -/
def Ends (t : State) : Prop :=
  t.watch = .done → AllAwake t ∧ ∀ p n, toExit t p = some n → ∀ ops u,
    Run CarefulStep t ops u → n ≤ ownSteps p ops → u.client p = .gone

/-- **The end of a session**: it reaches every client, as long as `hrevwait` does not go back to
sleep after the watchdog has rung, and no client takes back the announcement of another. -/
theorem session_ends {s t : State} {ops : List Op} (hs : Initial s)
    (h : Run CarefulStep s ops t) : Ends t := by
  have hi : Inv t := h.invariant (fun _ _ _ hi hst => inv_step hi hst) hs.inv
  intro hw
  have hover : Over t := ⟨hw, by simpa [hw] using hi.magic⟩
  refine ⟨hi.allAwake hw, fun p n hn ops u hr hle => ?_⟩
  obtain ⟨-, m, hm, hle'⟩ := hover.exits hn hr
  have h0 : m = 0 := by omega
  rw [h0] at hm
  unfold toExit at hm
  cases hc : u.client p with
  | gone => rfl
  | evio =>
    rw [hc] at hm
    cases hfd : u.clfd p <;> rw [hfd] at hm <;> cases hm
  | _ => rw [hc] at hm; cases hm

/-- Nobody has called anything. -/
def begin : State :=
  { magic := HR_MAGIC
    q := fun _ => ⟨0, 0, 0, 0, fun _ _ => 0⟩
    server := .idle
    srvring := 0
    srvfd := false
    client := fun _ => .idle
    ring := fun _ => 0
    clfd := fun _ => false
    watch := .waiting }

lemma begin_initial : Initial begin := ⟨rfl, fun _ => rfl, fun _ => show 0 < EVQ_N by decide⟩

/-- Client 0 goes to sleep at ring 0; the server dies, and the watchdog does its part. -/
def deathOps : List Op :=
  List.flatten [[.call 0 0 .hr_evwait], List.replicate 6 (.client 0),
    [.clopen 0 true, .hrevwait 0 false, .die, .unmagic, .wopen true], List.replicate 17 .wake]

/-- Enough for a step to be careful: it wakes nobody, and clients wait only as long as the server
lives. -/
def Plain (s : State) : Op → Prop
  | .hrevwait p _ =>
    s.watch = .waiting ∧ (s.q (s.ring p)).eq_head = (s.q (s.ring p)).eq_tail
  | .client p => s.client p ≠ .retract ∧ s.client p ≠ .reset
  | .awake _ _ | .hr_evinit _ _ => False
  | _ => True

instance (s : State) (op : Op) : Decidable (Plain s op) := by
  cases op <;> simp only [Plain] <;> infer_instance

lemma Plain.careful {s : State} {op : Op} (h : Plain s op) : Careful s op := by
  cases op with
  | hrevwait p ssig =>
    refine ⟨fun _ hr => ?_, fun hne => absurd h.2 hne⟩
    unfold rung at hr
    rw [h.1] at hr
    exact hr.elim
  | client p => exact fun hc => hc.elim (absurd · h.1) (absurd · h.2)
  | awake | hr_evinit => exact h.elim
  | _ => trivial

lemma death_run : Along (fun s op => Enabled s op ∧ Plain s op) exec begin deathOps ∧
    (deathOps.foldl exec begin).watch = .done := by
  decide +kernel

theorem session_ends_once : ∃ t, Run CarefulStep begin deathOps t ∧ AllAwake t := by
  have hrun : Run CarefulStep begin deathOps _ :=
    Run.along (fun _ _ h => ⟨⟨h.1, rfl⟩, h.2.careful⟩) _ _ death_run.1
  exact ⟨_, hrun, (session_ends begin_initial hrun death_run.2).1⟩

/-! ### A client that stays -/

lemma stays_run : Along Enabled exec begin (deathOps ++ [Op.awake 0 .none]) ∧
    ((deathOps ++ [Op.awake 0 .none]).foldl exec begin).watch = .done ∧
    ((deathOps ++ [Op.awake 0 .none]).foldl exec begin).client 0 = .asleep := by
  decide +kernel

/-- The client wakes up, finds its ring empty and goes back to sleep. -/
theorem session_does_not_end : ∃ s ops t, Initial s ∧ Run Step s ops t ∧ ¬ Ends t := by
  have hrun : Run Step begin (deathOps ++ [Op.awake 0 .none]) _ :=
    Run.along (fun _ _ h => ⟨h, rfl⟩) _ _ stays_run.1
  refine ⟨begin, _, _, begin_initial, hrun, fun h => ?_⟩
  obtain ⟨hw, hc⟩ := stays_run.2
  exact (h hw).1 0 hc

end Coherent.Session
