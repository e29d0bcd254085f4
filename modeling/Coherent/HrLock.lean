import Mathlib.Tactic
import Mathlib.Data.BitVec
import Coherent.Lib.Run

/-!
The drawing lock of the graphics driver: a word in shared memory that user code takes by a
test-and-set, and the driver's routines behind it, which are entered on contention only.

What a process does between two points at which it can be preempted is one step. In user mode
that is one load or store of a shared word; `hrlockwait` and `hrlockwake` run at high
priority, so that they are one step each up to a `sleep`.
-/

namespace Coherent.HrLock

open Coherent.Lib

/-- A process, by its process id. Ids are below `NPID`, so a `short` counts the waiters. -/
abbrev Pid := ℕ

/-- Where a process stands. -/
inductive Pc
  /-- no such process, or `PSDEAD` -/
  | dead
  /-- outside the lock -/
  | idle
  /-- `hr_lock`: about to call `hr_tas` -/
  | tas
  /-- `hr_lock`: has found the word free, about to store `OWNER` -/
  | stamp
  /-- `hr_lock`: about to call `hr_lkio(CIOMLOCK)` -/
  | mlock
  /-- asleep in `hrlockwait` -/
  | asleep
  /-- made to run again in `hrlockwait`, its `sleep` has not returned -/
  | woken
  /-- `hr_lock` has returned, `hr_unlock` has not been called -/
  | held
  /-- `hr_unlock`: about to clear `OWNER` -/
  | unstamp
  /-- `hr_unlock`: about to read `WAITERS` -/
  | waiters
  /-- `hr_unlock`: has read 0, about to clear the word -/
  | clear
  /-- `hr_unlock`: has read a count, about to call `hr_lkio(CIOMUNLOCK)` -/
  | munlock
  deriving DecidableEq, Repr

/-- The shared words, the driver's variables, and each process with its statics. -/
structure State where
  HRFUTEX : BitVec 16
  HRWAIT : ℕ
  HROWNER : Pid
  hrhandoff : Bool
  hrreleaser : Pid
  /-- the watchdog is armed -/
  hrwdon : Bool
  hrlast : ℤ
  hrstrk : ℕ
  pc : Pid → Pc
  /-- 0 until `hr_lock` asks for it -/
  mypid : Pid → Pid
  /-- `lkfd >= 0` -/
  lkfd : Pid → Bool

/-- `p` goes on to `c`. -/
def goto (s : State) (p : Pid) (c : Pc) : State := { s with pc := Function.update s.pc p c }

/-- `wakeup(&hrlkchan)`. -/
def wakeup (s : State) : State :=
  { s with pc := fun p => if s.pc p = .asleep then .woken else s.pc p }

/-- The first lines of `hr_lock`. -/
def hr_lock (s : State) (p : Pid) : State :=
  goto { s with
    mypid := Function.update s.mypid p (if s.mypid p = 0 then p else s.mypid p) } p .tas

/-- The test-and-set: the top bit of the word decides, and the word is all ones after it. -/
def hr_tas (s : State) (p : Pid) : State :=
  goto { s with HRFUTEX := BitVec.allOnes 16 } p (if s.HRFUTEX.msb then .mlock else .stamp)

/-- The condition of the loop of `hrlockwait`. -/
def mustSleep (s : State) (p : Pid) : Prop :=
  s.HRFUTEX ≠ 0 ∧ ¬ (s.hrhandoff = true ∧ p ≠ s.hrreleaser)

instance (s : State) (p : Pid) : Decidable (mustSleep s p) := by
  unfold mustSleep; infer_instance

/-- `hrlockwait`, from the test of its loop up to its `sleep` or its end. -/
def hrlockwait (s : State) (p : Pid) : State :=
  if mustSleep s p then goto { s with HRWAIT := s.HRWAIT + 1, hrwdon := true } p .asleep
  else goto { s with
    hrhandoff := if s.hrhandoff = true ∧ p ≠ s.hrreleaser then false else s.hrhandoff
    HRFUTEX := BitVec.allOnes 16
    HROWNER := p } p .held

/-- `hrlockwake`. -/
def hrlockwake (s : State) (p : Pid) : State :=
  let s := goto s p .idle
  if s.HRWAIT ≠ 0 then wakeup { s with hrreleaser := p, hrhandoff := true }
  else { s with HRFUTEX := 0 }

def hralive (s : State) (p : Pid) : Bool := s.pc p ≠ .dead

/-- The first half of `hrlockwd`: how often in a row the watchdog found the same owner. -/
def strike (s : State) : State :=
  let held := s.HRFUTEX ≠ 0
  let own := s.HROWNER
  { s with
    hrstrk := if s.HRWAIT ≠ 0 ∧ held ∧ own ≠ 0 ∧ own = s.hrlast then s.hrstrk + 1 else 0
    hrlast := if held then own else -1 }

/-- `hrlockwd`: the word is reclaimed from an owner that is gone. -/
def hrlockwd (s : State) : State :=
  let s := strike s
  let s := if s.hrstrk ≥ 2 ∧ s.HROWNER ≠ 0 ∧ ¬ hralive s s.HROWNER then
      wakeup { s with HRFUTEX := 0, HROWNER := 0, hrhandoff := false, hrstrk := 0 }
    else s
  { s with hrwdon := s.HRWAIT ≠ 0 }

inductive Op
  | fork (p c : Pid)
  | exec (p : Pid)
  | exit (p : Pid)
  | hr_lock (p : Pid)
  | hr_tas (p : Pid)
  | stamp (p : Pid)
  /-- `open` in `hr_lkio`, and whether it succeeds -/
  | open (p : Pid) (ok : Bool)
  | hrlockwait (p : Pid)
  /-- a signal comes for a sleeping process -/
  | sendsig (p : Pid)
  /-- the `sleep` of `hrlockwait` returns -/
  | awake (p : Pid)
  | hr_unlock (p : Pid)
  | unstamp (p : Pid)
  | waiters (p : Pid)
  | clear (p : Pid)
  | hrlockwake (p : Pid)
  | hrlockwd
  deriving DecidableEq, Repr

/-- When an operation can be the next step. Processes fork and exec outside the lock; in the
driver they are not killed. -/
def Enabled (s : State) : Op → Prop
  | .fork p c => s.pc p = .idle ∧ s.pc c = .dead
  | .exec p | .hr_lock p => s.pc p = .idle
  | .exit p => s.pc p ≠ .asleep ∧ s.pc p ≠ .woken
  | .hr_tas p => s.pc p = .tas
  | .stamp p => s.pc p = .stamp
  | .open p _ => (s.pc p = .mlock ∨ s.pc p = .munlock) ∧ s.lkfd p = false
  | .hrlockwait p => s.pc p = .mlock ∧ s.lkfd p = true
  | .sendsig p => s.pc p = .asleep
  | .awake p => s.pc p = .woken
  | .hr_unlock p => s.pc p = .held
  | .unstamp p => s.pc p = .unstamp
  | .waiters p => s.pc p = .waiters
  | .clear p => s.pc p = .clear
  | .hrlockwake p => s.pc p = .munlock ∧ s.lkfd p = true
  | .hrlockwd => s.hrwdon = true

instance (s : State) (op : Op) : Decidable (Enabled s op) := by
  cases op <;> simp only [Enabled] <;> infer_instance

/-- What the operation does. -/
def exec (s : State) : Op → State
  | .fork p c => goto { s with
      mypid := Function.update s.mypid c (s.mypid p)
      lkfd := Function.update s.lkfd c (s.lkfd p) } c .idle
  | .exec p => { s with
      mypid := Function.update s.mypid p 0
      lkfd := Function.update s.lkfd p false }
  | .exit p => goto s p .dead
  | .hr_lock p => hr_lock s p
  | .hr_tas p => hr_tas s p
  | .stamp p => goto { s with HROWNER := s.mypid p } p .held
  | .open p true => { s with lkfd := Function.update s.lkfd p true }
  -- without a descriptor `hr_lkio` makes no call, and `hr_lock` or `hr_unlock` returns
  | .open p false => goto s p (if s.pc p = .mlock then .held else .idle)
  | .hrlockwait p => hrlockwait s p
  | .sendsig p => goto s p .woken
  | .awake p => hrlockwait { s with HRWAIT := s.HRWAIT - 1 } p
  | .hr_unlock p => goto s p .unstamp
  | .unstamp p => goto { s with HROWNER := 0 } p .waiters
  | .waiters p => goto s p (if s.HRWAIT ≠ 0 then .munlock else .clear)
  | .clear p => goto { s with HRFUTEX := 0 } p .idle
  | .hrlockwake p => hrlockwake s p
  | .hrlockwd => hrlockwd s

/-- One step of one process, of a signal or of the clock. -/
def Step (s : State) (op : Op) (t : State) : Prop := Enabled s op ∧ t = exec s op

/-- The server has cleared the shared words, the driver is as it was loaded, and nobody is
inside. -/
structure Initial (s : State) : Prop where
  word : s.HRFUTEX = 0
  wait : s.HRWAIT = 0
  owner : s.HROWNER = 0
  handoff : s.hrhandoff = false
  pc : ∀ p, s.pc p = .dead ∨ s.pc p = .idle

/-- At most one process is between `hr_lock` and `hr_unlock`. -/
def Exclusive (s : State) : Prop := ∀ p q, s.pc p = .held → s.pc q = .held → p = q

/-- The word is free, no hand-off is pending, and a process sleeps that nobody is about to
wake. -/
def LostWake (s : State) : Prop :=
  s.HRFUTEX = 0 ∧ s.hrhandoff = false ∧ (∃ p, s.pc p = .asleep) ∧ ∀ q, s.pc q ≠ .munlock

/-- The steps on which the protocol relies: a process calls `hr_lock` with its own id or none in
`mypid`, the `open` in `hr_lock` succeeds, and nobody goes to sleep while a process stands
between its read of `WAITERS` and its store to the word. -/
def Careful (s : State) : Op → Prop
  | .hr_lock p => s.mypid p = 0 ∨ s.mypid p = p
  | .open p ok => s.pc p = .mlock → ok = true
  | .hrlockwait p => mustSleep s p → ∀ q, s.pc q ≠ .clear
  | _ => True

def CarefulStep (s : State) (op : Op) (t : State) : Prop := Step s op t ∧ Careful s op

/-! ### The invariant -/

/-- From the test-and-set to the release the lock is the process's own. -/
def Pc.owns : Pc → Bool
  | .stamp | .held | .unstamp | .waiters | .clear | .munlock => true
  | _ => false

/-- The process owns the lock and its id is not in `OWNER`. -/
def Pc.bare : Pc → Bool
  | .stamp | .waiters | .clear | .munlock => true
  | _ => false

/-- The process counts in `HRWAIT`. -/
def Pc.sleeps : Pc → Bool
  | .asleep | .woken => true
  | _ => false

structure Inv (s : State) : Prop where
  word : s.HRFUTEX = 0 ∨ s.HRFUTEX = BitVec.allOnes 16
  free : s.HRFUTEX = 0 → s.hrhandoff = false ∧ s.HROWNER = 0 ∧
    ∀ p, (s.pc p).owns = false ∧ s.pc p ≠ .asleep
  handoff : s.hrhandoff = true → ∀ p, (s.pc p).owns = false
  one : ∀ p q, (s.pc p).owns = true → (s.pc q).owns = true → p = q
  stamped : s.HROWNER ≠ 0 → ∀ p, (s.pc p).owns = true → p = s.HROWNER
  unstamped : ∀ p, (s.pc p).bare = true → s.HROWNER = 0
  self : ∀ p, s.pc p = .tas ∨ s.pc p = .stamp → s.mypid p = p
  count : ∃ S : Finset Pid, (∀ p, p ∈ S ↔ (s.pc p).sleeps = true) ∧ S.card = s.HRWAIT
  quiet : ∀ q, s.pc q = .clear → ∀ p, (s.pc p).sleeps = false

lemma inv_initial {s : State} (h : Initial s) : Inv s := by
  have hpc : ∀ p, (s.pc p).owns = false ∧ (s.pc p).bare = false ∧ (s.pc p).sleeps = false := by
    intro p
    rcases h.pc p with h | h <;> rw [h] <;> exact ⟨rfl, rfl, rfl⟩
  refine ⟨.inl h.word, fun _ => ⟨h.handoff, h.owner, ?_⟩, ?_, ?_, ?_, ?_, ?_, ⟨∅, ?_, ?_⟩, ?_⟩
  · intro p
    refine ⟨(hpc p).1, ?_⟩
    rcases h.pc p with h | h <;> simp [h]
  · simp [h.handoff]
  · simp [hpc]
  · simp [hpc]
  · simp [hpc]
  · intro p hp
    rcases h.pc p with h | h <;> simp [h] at hp
  · simp [hpc]
  · simp [h.wait]
  · exact fun _ _ p => (hpc p).2.2

/-- A process goes on to a point at which it has no more of the lock than before. -/
lemma Inv.goto {s : State} (h : Inv s) (p : Pid) (c : Pc)
    (howns : c.owns = true → (s.pc p).owns = true) (hbare : c.bare = true → s.HROWNER = 0)
    (hself : c = .tas ∨ c = .stamp → s.mypid p = p) (hsleeps : c.sleeps = (s.pc p).sleeps)
    (hasleep : c = .asleep → s.pc p = .asleep)
    (hclear : c = .clear → ∀ q, (s.pc q).sleeps = false) : Inv (goto s p c) := by
  obtain ⟨S, hS, hcard⟩ := h.count
  refine ⟨h.word, fun hf => ⟨(h.free hf).1, (h.free hf).2.1, ?_⟩, fun hh => ?_, ?_, fun ho => ?_,
    ?_, ?_, ⟨S, ?_, hcard⟩, ?_⟩
  · have := (h.free hf).2.2
    simp only [HrLock.goto, Function.update_apply]; grind
  · have := h.handoff hh
    simp only [HrLock.goto, Function.update_apply]; grind
  · have := h.one
    simp only [HrLock.goto, Function.update_apply]; grind
  · have := h.stamped ho
    simp only [HrLock.goto, Function.update_apply]; grind
  · have := h.unstamped
    simp only [HrLock.goto, Function.update_apply]; grind
  · have := h.self
    simp only [HrLock.goto, Function.update_apply]; grind
  · simp only [HrLock.goto, Function.update_apply]; grind
  · have := h.quiet
    simp only [HrLock.goto, Function.update_apply]; grind

/-- The statics of a process matter from `hr_lock` to the store of `OWNER` only. -/
lemma Inv.statics {s : State} (h : Inv s) (m : Pid → Pid) (l : Pid → Bool)
    (hm : ∀ p, s.pc p = .tas ∨ s.pc p = .stamp → m p = s.mypid p) :
    Inv { s with mypid := m, lkfd := l } :=
  ⟨h.word, h.free, h.handoff, h.one, h.stamped, h.unstamped,
    fun p hp => (hm p hp).trans (h.self p hp), h.count, h.quiet⟩

/-- The watchdog's own variables do not matter. -/
lemma Inv.watchdog {s : State} (h : Inv s) (on : Bool) (last : ℤ) (strk : ℕ) :
    Inv { s with hrwdon := on, hrlast := last, hrstrk := strk } :=
  ⟨h.word, h.free, h.handoff, h.one, h.stamped, h.unstamped, h.self, h.count, h.quiet⟩

lemma inv_hr_lock {s : State} (h : Inv s) {p : Pid} (hp : s.pc p = .idle)
    (hm : s.mypid p = 0 ∨ s.mypid p = p) : Inv (hr_lock s p) := by
  refine (h.statics _ s.lkfd fun q hq => ?_).goto p .tas (by simp [Pc.owns]) (by simp [Pc.bare])
    ?_ ?_ (by simp) (by simp)
  · have : q ≠ p := by rintro rfl; simp [hp] at hq
    rw [Function.update_of_ne this]
  · intro _
    simp only [Function.update_self]
    split_ifs with h0
    · rfl
    · exact hm.resolve_left h0
  · simp [hp, Pc.sleeps]

lemma inv_fork {s : State} (h : Inv s) {p c : Pid} (hc : s.pc c = .dead) :
    Inv (exec s (.fork p c)) := by
  refine (h.statics _ _ fun q hq => ?_).goto c .idle (by simp [Pc.owns]) (by simp [Pc.bare])
    (by simp) ?_ (by simp) (by simp)
  · have : q ≠ c := by rintro rfl; simp [hc] at hq
    rw [Function.update_of_ne this]
  · simp [hc, Pc.sleeps]

lemma inv_exec {s : State} (h : Inv s) {p : Pid} (hp : s.pc p = .idle) :
    Inv (exec s (.exec p)) := by
  refine h.statics _ _ fun q hq => ?_
  have : q ≠ p := by rintro rfl; simp [hp] at hq
  rw [Function.update_of_ne this]

/-- The process that finds the word free is the only one to own the lock. -/
lemma inv_hr_tas {s : State} (h : Inv s) {p : Pid} (hp : s.pc p = .tas) : Inv (hr_tas s p) := by
  obtain ⟨S, hS, hcard⟩ := h.count
  rcases h.word with hw | hw
  · -- case 1: free
    obtain ⟨hh, ho, hn⟩ := h.free hw
    have e : hr_tas s p = goto { s with HRFUTEX := BitVec.allOnes 16 } p .stamp := by
      simp [hr_tas, hw]
    rw [e]
    refine ⟨.inr rfl, fun hf => absurd hf (by simp [goto]), ?_, ?_, ?_, ?_, ?_,
      ⟨S, ?_, hcard⟩, ?_⟩
    · simp [goto, hh]
    · simp only [goto, Function.update_apply]; grind
    · simp [goto, ho]
    · simp [goto, ho]
    · have := h.self
      simp only [goto, Function.update_apply]; grind
    · simp only [goto, Function.update_apply]; grind [Pc.sleeps]
    · have := h.quiet
      simp only [goto, Function.update_apply]; grind [Pc.sleeps]
  · -- case 2: held
    have e : hr_tas s p = goto s p .mlock := by
      have hm : (BitVec.allOnes 16).msb = true := by decide
      unfold hr_tas
      rw [hw, if_pos hm, ← hw]
    rw [e]
    exact h.goto p .mlock (by simp [Pc.owns]) (by simp [Pc.bare]) (by simp)
      (by simp [hp, Pc.sleeps]) (by simp) (by simp)

/-- Nobody else owns the lock. -/
lemma Inv.others {s : State} (h : Inv s) {p : Pid} (hp : (s.pc p).owns = true) :
    s.hrhandoff = false ∧ s.HRFUTEX ≠ 0 ∧ ∀ q, q ≠ p → (s.pc q).owns = false := by
  refine ⟨?_, fun hf => ?_, fun q hq => ?_⟩
  · cases hh : s.hrhandoff with
    | false => rfl
    | true => have := h.handoff hh p; simp [hp] at this
  · have := ((h.free hf).2.2 p).1; simp [hp] at this
  · cases ho : (s.pc q).owns with
    | false => rfl
    | true => exact absurd (h.one q p ho hp) hq

lemma Pc.bare_owns {c : Pc} (h : c.bare = true) : c.owns = true := by
  cases c <;> first | rfl | simp [Pc.bare] at h

/-- The owner stores to `OWNER`. -/
lemma Inv.store {s : State} (h : Inv s) {p : Pid} (hp : (s.pc p).owns = true) (o : Pid) (c : Pc)
    (hc : c = .held ∧ o = p ∨ c = .waiters ∧ o = 0) : Inv (HrLock.goto { s with HROWNER := o } p c) := by
  obtain ⟨S, hS, hcard⟩ := h.count
  obtain ⟨hh, hf, hq⟩ := h.others hp
  have hbare := @Pc.bare_owns
  have hsleeps : (s.pc p).sleeps = false := by
    cases hpc : s.pc p <;> first | rfl | simp [hpc, Pc.owns] at hp
  have hcs : c.sleeps = false := by rcases hc with ⟨rfl, -⟩ | ⟨rfl, -⟩ <;> rfl
  refine ⟨h.word, fun h0 => absurd h0 hf, ?_, ?_, ?_, ?_, ?_, ⟨S, ?_, hcard⟩, ?_⟩
  · simp [HrLock.goto, hh]
  · simp only [HrLock.goto, Function.update_apply]; grind
  · simp only [HrLock.goto, Function.update_apply]; grind
  · simp only [HrLock.goto, Function.update_apply]; grind [Pc.bare]
  · have := h.self
    simp only [HrLock.goto, Function.update_apply]; grind
  · simp only [HrLock.goto, Function.update_apply]; grind
  · have := h.quiet
    simp only [HrLock.goto, Function.update_apply]; grind

/-- The owner clears the word, with nobody asleep behind it. -/
lemma Inv.release {s : State} (h : Inv s) {p : Pid} (hp : (s.pc p).bare = true)
    (hs : ∀ q, s.pc q ≠ .asleep) : Inv (HrLock.goto { s with HRFUTEX := 0 } p .idle) := by
  obtain ⟨S, hS, hcard⟩ := h.count
  obtain ⟨hh, hf, hq⟩ := h.others (Pc.bare_owns hp)
  have ho := h.unstamped p hp
  have hsleeps : (s.pc p).sleeps = false := by
    cases hpc : s.pc p <;> first | rfl | simp [hpc, Pc.bare] at hp
  refine ⟨.inl rfl, fun _ => ⟨hh, ho, ?_⟩, ?_, ?_, ?_, ?_, ?_, ⟨S, ?_, hcard⟩, ?_⟩
  · simp only [HrLock.goto, Function.update_apply]; grind [Pc.owns]
  · simp [HrLock.goto, hh]
  · simp only [HrLock.goto, Function.update_apply]; grind [Pc.owns]
  · simp [HrLock.goto, ho]
  · simp [HrLock.goto, ho]
  · have := h.self
    simp only [HrLock.goto, Function.update_apply]; grind
  · simp only [HrLock.goto, Function.update_apply]; grind [Pc.sleeps]
  · have := h.quiet
    simp only [HrLock.goto, Function.update_apply]; grind [Pc.sleeps]

lemma Inv.wait_zero {s : State} (h : Inv s) (h0 : s.HRWAIT = 0) (p : Pid) :
    (s.pc p).sleeps = false := by
  obtain ⟨S, hS, hcard⟩ := h.count
  rw [h0, Finset.card_eq_zero] at hcard
  cases hp : (s.pc p).sleeps with
  | false => rfl
  | true => simpa [hcard] using (hS p).mpr hp

/-- The process takes the lock in the driver: the word is free, or it is handed over. -/
lemma inv_take {s : State} (h : Inv s) {p : Pid} (hp : s.pc p = .mlock) (hm : ¬ mustSleep s p) :
    Inv (hrlockwait s p) := by
  obtain ⟨S, hS, hcard⟩ := h.count
  have hbare := @Pc.bare_owns
  -- nobody owns the lock, and no hand-off is left
  have hn : ∀ q, (s.pc q).owns = false := by
    unfold mustSleep at hm
    rcases h.word with hw | hw
    · exact fun q => ((h.free hw).2.2 q).1
    · have : s.hrhandoff = true := by simp [hw] at hm; exact hm.1
      exact h.handoff this
  have hh : (if s.hrhandoff = true ∧ p ≠ s.hrreleaser then false else s.hrhandoff) = false := by
    split_ifs with h1
    · rfl
    · rcases h.word with hw | hw
      · exact (h.free hw).1
      · exact absurd ⟨by simp [hw], h1⟩ hm
  unfold hrlockwait
  rw [if_neg hm, hh]
  refine ⟨.inr rfl, fun hf => absurd hf (by simp [goto]), ?_, ?_, ?_, ?_, ?_, ⟨S, ?_, hcard⟩, ?_⟩
  · simp [goto]
  · simp only [goto, Function.update_apply]; grind
  · simp only [goto, Function.update_apply]; grind
  · simp only [goto, Function.update_apply]; grind [Pc.bare]
  · have := h.self
    simp only [goto, Function.update_apply]; grind
  · simp only [goto, Function.update_apply]; grind [Pc.sleeps]
  · have := h.quiet
    simp only [goto, Function.update_apply]; grind [Pc.sleeps]

/-- The process goes to sleep, with nobody about to clear the word. -/
lemma inv_sleep {s : State} (h : Inv s) {p : Pid} (hp : s.pc p = .mlock) (hm : mustSleep s p)
    (hc : ∀ q, s.pc q ≠ .clear) : Inv (hrlockwait s p) := by
  obtain ⟨S, hS, hcard⟩ := h.count
  have hpS : p ∉ S := by rw [hS, hp]; simp [Pc.sleeps]
  unfold hrlockwait
  rw [if_pos hm]
  refine ⟨h.word, fun hf => absurd hf hm.1, fun hh => ?_, ?_, fun ho => ?_, ?_, ?_,
    ⟨insert p S, ?_, ?_⟩, ?_⟩
  · have := h.handoff hh
    simp only [goto, Function.update_apply]; grind [Pc.owns]
  · have := h.one
    simp only [goto, Function.update_apply]; grind [Pc.owns]
  · have := h.stamped ho
    simp only [goto, Function.update_apply]; grind [Pc.owns]
  · have := h.unstamped
    simp only [goto, Function.update_apply]; grind [Pc.bare]
  · have := h.self
    simp only [goto, Function.update_apply]; grind
  · simp only [goto, Function.update_apply, Finset.mem_insert]; grind [Pc.sleeps]
  · simp [goto, Finset.card_insert_of_notMem hpS, hcard]
  · simp only [goto, Function.update_apply]; grind

lemma inv_hrlockwait {s : State} (h : Inv s) {p : Pid} (hp : s.pc p = .mlock)
    (hc : mustSleep s p → ∀ q, s.pc q ≠ .clear) : Inv (hrlockwait s p) := by
  by_cases hm : mustSleep s p
  · exact inv_sleep h hp hm (hc hm)
  · exact inv_take h hp hm

/-- Out of its `sleep` and out of the count, a process is where it was when it came in. -/
lemma inv_uncount {s : State} (h : Inv s) {p : Pid} (hp : s.pc p = .woken) :
    Inv (goto { s with HRWAIT := s.HRWAIT - 1 } p .mlock) := by
  obtain ⟨S, hS, hcard⟩ := h.count
  have hpS : p ∈ S := by rw [hS, hp]; rfl
  refine ⟨h.word, fun hf => ⟨(h.free hf).1, (h.free hf).2.1, ?_⟩, fun hh => ?_, ?_, fun ho => ?_,
    ?_, ?_, ⟨S.erase p, ?_, ?_⟩, ?_⟩
  · have := (h.free hf).2.2
    simp only [goto, Function.update_apply]; grind [Pc.owns]
  · have := h.handoff hh
    simp only [goto, Function.update_apply]; grind [Pc.owns]
  · have := h.one
    simp only [goto, Function.update_apply]; grind [Pc.owns]
  · have := h.stamped ho
    simp only [goto, Function.update_apply]; grind [Pc.owns]
  · have := h.unstamped
    simp only [goto, Function.update_apply]; grind [Pc.bare]
  · have := h.self
    simp only [goto, Function.update_apply]; grind
  · simp only [goto, Function.update_apply, Finset.mem_erase]; grind [Pc.sleeps]
  · simp [goto, Finset.card_erase_of_mem hpS, hcard]
  · have := h.quiet
    simp only [goto, Function.update_apply]; grind [Pc.sleeps]

lemma inv_awake {s : State} (h : Inv s) {p : Pid} (hp : s.pc p = .woken) :
    Inv (exec s (.awake p)) := by
  have e : exec s (.awake p) =
      hrlockwait (goto { s with HRWAIT := s.HRWAIT - 1 } p .mlock) p := by
    simp only [exec, hrlockwait, goto, mustSleep, Function.update_idem]
    rfl
  rw [e]
  refine inv_hrlockwait (inv_uncount h hp) (by simp [goto]) fun _ q hq => ?_
  -- a process about to clear the word has read a count of 0, and `p` was counted
  have hqc : s.pc q = .clear := by
    by_cases hqp : q = p
    · subst hqp; simp [goto] at hq
    · simpa [goto, hqp] using hq
  have := h.quiet q hqc p
  simp [hp, Pc.sleeps] at this

lemma Inv.wakeup {s : State} (h : Inv s) : Inv (wakeup s) := by
  obtain ⟨S, hS, hcard⟩ := h.count
  refine ⟨h.word, fun hf => ⟨(h.free hf).1, (h.free hf).2.1, ?_⟩, fun hh => ?_, ?_, fun ho => ?_,
    ?_, ?_, ⟨S, ?_, hcard⟩, ?_⟩
  · have := (h.free hf).2.2
    simp only [HrLock.wakeup]; grind [Pc.owns]
  · have := h.handoff hh
    simp only [HrLock.wakeup]; grind [Pc.owns]
  · have := h.one
    simp only [HrLock.wakeup]; grind [Pc.owns]
  · have := h.stamped ho
    simp only [HrLock.wakeup]; grind [Pc.owns]
  · have := h.unstamped
    simp only [HrLock.wakeup]; grind [Pc.bare]
  · have := h.self
    simp only [HrLock.wakeup]; grind
  · simp only [HrLock.wakeup]; grind [Pc.sleeps]
  · have := h.quiet
    simp only [HrLock.wakeup]; grind [Pc.sleeps]

lemma wakeup_asleep (s : State) (p : Pid) : (wakeup s).pc p ≠ .asleep := by
  simp only [wakeup]; grind

lemma wakeup_owns (s : State) (p : Pid) : ((wakeup s).pc p).owns = (s.pc p).owns := by
  simp only [wakeup]; grind [Pc.owns]

/-- Nobody owns the lock, and the word stays held for whoever comes out of its `sleep`. -/
lemma Inv.hand {s : State} (h : Inv s) (hn : ∀ q, (s.pc q).owns = false) (hw : s.HRFUTEX ≠ 0)
    (p : Pid) : Inv { s with hrreleaser := p, hrhandoff := true } :=
  ⟨h.word, fun hf => absurd hf hw, fun _ => hn, h.one, h.stamped, h.unstamped, h.self, h.count,
    h.quiet⟩

/-- Nobody owns the lock, nobody is asleep, and the word becomes free. -/
lemma Inv.reclaim {s : State} (h : Inv s) (hn : ∀ q, (s.pc q).owns = false)
    (hs : ∀ q, s.pc q ≠ .asleep) :
    Inv { s with HRFUTEX := 0, HROWNER := 0, hrhandoff := false } :=
  ⟨.inl rfl, fun _ => ⟨rfl, rfl, fun q => ⟨hn q, hs q⟩⟩, fun _ => hn, h.one, by simp, by simp, h.self,
    h.count, h.quiet⟩

lemma inv_hrlockwake {s : State} (h : Inv s) {p : Pid} (hp : s.pc p = .munlock) :
    Inv (hrlockwake s p) := by
  have hown : (s.pc p).owns = true := by rw [hp]; rfl
  by_cases hw : s.HRWAIT = 0
  · -- case 1: the waiters are gone
    have e : hrlockwake s p = goto { s with HRFUTEX := 0 } p .idle := by
      simp [hrlockwake, goto, hw]
    rw [e]
    refine h.release (by rw [hp]; rfl) fun q hq => ?_
    have := h.wait_zero hw q
    simp [hq, Pc.sleeps] at this
  · -- case 2: one of them is to have the lock
    have e : hrlockwake s p =
        wakeup { goto s p .idle with hrreleaser := p, hrhandoff := true } := by
      simp [hrlockwake, goto, hw]
    rw [e]
    obtain ⟨-, hf, hq⟩ := h.others hown
    have h1 : Inv (goto s p .idle) := h.goto p .idle (by simp [Pc.owns]) (by simp [Pc.bare])
      (by simp) (by simp [hp, Pc.sleeps]) (by simp) (by simp)
    refine (h1.hand ?_ hf p).wakeup
    simp only [goto, Function.update_apply]; grind [Pc.owns]

/-- The watchdog takes the word from an owner that is dead, and from no other. -/
lemma inv_hrlockwd {s : State} (h : Inv s) : Inv (hrlockwd s) := by
  obtain ⟨t, ht⟩ : ∃ t, t = strike s := ⟨_, rfl⟩
  have hI : Inv t := by rw [ht]; exact h.watchdog _ _ _
  unfold hrlockwd
  simp only [← ht]
  split_ifs with hd
  · obtain ⟨-, ho, hdead⟩ := hd
    have hdead : t.pc t.HROWNER = .dead := by simpa [hralive] using hdead
    have hn : ∀ q, ((wakeup t).pc q).owns = false := by
      intro q
      rw [wakeup_owns]
      cases hq : (t.pc q).owns with
      | false => rfl
      | true =>
        rw [hI.stamped ho q hq, hdead] at hq
        simp [Pc.owns] at hq
    exact (hI.wakeup.reclaim hn (wakeup_asleep t)).watchdog (t.HRWAIT ≠ 0) t.hrlast 0
  · exact hI.watchdog _ _ _

lemma inv_step {s t : State} {op : Op} (h : Inv s) (hst : CarefulStep s op t) : Inv t := by
  obtain ⟨⟨hen, rfl⟩, hc⟩ := hst
  cases op with
  | fork p c => exact inv_fork h hen.2
  | exec p => exact inv_exec h hen
  | exit p =>
    refine h.goto p .dead (by simp [Pc.owns]) (by simp [Pc.bare]) (by simp) ?_ (by simp) (by simp)
    obtain ⟨h1, h2⟩ := hen
    cases hp : s.pc p <;> first | rfl | exact absurd hp h1 | exact absurd hp h2
  | hr_lock p => exact inv_hr_lock h hen hc
  | hr_tas p => exact inv_hr_tas h hen
  | stamp p =>
    have hp : (s.pc p).owns = true := by rw [hen]; rfl
    exact h.store hp _ .held (.inl ⟨rfl, h.self p (.inr hen)⟩)
  | «open» p ok =>
    cases ok with
    | true => exact h.statics s.mypid _ fun _ _ => rfl
    | false =>
      -- `hr_unlock` returns with the word held and nobody to free it
      have hp : s.pc p = .munlock := hen.1.resolve_left fun hp => absurd (hc hp) (by simp)
      have e : exec s (.open p false) = goto s p .idle := by simp [exec, hp]
      rw [e]
      exact h.goto p .idle (by simp [Pc.owns]) (by simp [Pc.bare]) (by simp)
        (by simp [hp, Pc.sleeps]) (by simp) (by simp)
  | hrlockwait p => exact inv_hrlockwait h hen.1 hc
  | sendsig p =>
    exact h.goto p .woken (by simp [Pc.owns]) (by simp [Pc.bare]) (by simp)
      (by rw [hen]; rfl) (by simp) (by simp)
  | awake p => exact inv_awake h hen
  | hr_unlock p =>
    exact h.goto p .unstamp (by rw [hen]; simp [Pc.owns]) (by simp [Pc.bare]) (by simp)
      (by rw [hen]; rfl) (by simp) (by simp)
  | unstamp p =>
    have hp : (s.pc p).owns = true := by rw [hen]; rfl
    exact h.store hp 0 .waiters (.inr ⟨rfl, rfl⟩)
  | waiters p =>
    have ho := h.unstamped p (by rw [hen]; rfl)
    by_cases hw : s.HRWAIT = 0
    · have e : exec s (.waiters p) = goto s p .clear := by simp [exec, hw]
      rw [e]
      exact h.goto p .clear (by rw [hen]; simp [Pc.owns]) (fun _ => ho) (by simp)
        (by rw [hen]; rfl) (by simp) fun _ => h.wait_zero hw
    · have e : exec s (.waiters p) = goto s p .munlock := by simp [exec, hw]
      rw [e]
      exact h.goto p .munlock (by rw [hen]; simp [Pc.owns]) (fun _ => ho) (by simp)
        (by rw [hen]; rfl) (by simp) (by simp)
  | clear p =>
    refine h.release (by rw [hen]; rfl) fun q hq => ?_
    have := h.quiet p hen q
    simp [hq, Pc.sleeps] at this
  | hrlockwake p => exact inv_hrlockwake h hen.1
  | hrlockwd => exact inv_hrlockwd h

/-- **The drawing lock**: in every run of any number of processes whose steps are all careful, at
most one process at a time is between `hr_lock` and `hr_unlock`, and no wake-up is lost. -/
theorem drawing_lock_runs {s t : State} {ops : List Op} (hs : Initial s)
    (h : Run CarefulStep s ops t) : Exclusive t ∧ ¬ LostWake t := by
  have hI : Inv t := h.invariant (fun _ _ _ hI hst => inv_step hI hst) (inv_initial hs)
  refine ⟨fun p q hp hq => ?_, fun ⟨hw, _, ⟨p, hp⟩, _⟩ => ?_⟩
  · exact hI.one p q (by rw [hp]; rfl) (by rw [hq]; rfl)
  · exact ((hI.free hw).2.2 p).2 hp

/-! ### Runs of three clients -/

/-- Clients 1, 2 and 3, outside the lock. -/
def clients : State where
  HRFUTEX := 0
  HRWAIT := 0
  HROWNER := 0
  hrhandoff := false
  hrreleaser := 0
  hrwdon := false
  hrlast := 0
  hrstrk := 0
  pc p := if p = 1 ∨ p = 2 ∨ p = 3 then .idle else .dead
  mypid _ := 0
  lkfd _ := false

lemma clients_initial : Initial clients := by
  refine ⟨rfl, rfl, rfl, rfl, fun p => ?_⟩
  simp only [clients]
  split_ifs
  · exact .inr rfl
  · exact .inl rfl

/-- Client 1 takes the word, client 2 finds it held. -/
def contend : List Op :=
  [.hr_lock 1, .hr_tas 1, .stamp 1, .hr_lock 2, .hr_tas 2, .open 2 true]

/-- Client 2 sleeps, client 1 finds it counted and hands the lock over. -/
def handOver : List Op :=
  contend ++ [.hrlockwait 2, .hr_unlock 1, .unstamp 1, .waiters 1, .open 1 true, .hrlockwake 1,
    .awake 2]

theorem handOver_exclusive : (handOver.foldl exec clients).pc 2 = .held ∧
    Exclusive (handOver.foldl exec clients) ∧ ¬ LostWake (handOver.foldl exec clients) := by
  have hen : Along Enabled exec clients handOver := by decide +kernel
  have hc : Along Careful exec clients handOver := by
    refine ⟨.inl rfl, trivial, trivial, .inl rfl, trivial, fun _ => rfl, fun _ q => ?_, trivial,
      trivial, trivial, fun h => ?_, trivial, trivial, trivial⟩
    · match q with
      | 0 | 1 | 2 | 3 => decide +kernel
      | q + 4 =>
        have hq : (contend.foldl exec clients).pc (q + 4) = .dead := rfl
        exact fun h => Pc.noConfusion (hq.symm.trans h)
    · exact absurd h (by decide +kernel)
  have hrun : Run CarefulStep clients handOver (handOver.foldl exec clients) :=
    Run.along (fun _ _ h => ⟨⟨h.1, rfl⟩, h.2⟩) clients handOver (hen.and hc)
  exact ⟨by decide +kernel, drawing_lock_runs clients_initial hrun⟩

/-- Client 1 reads a count of 0, client 2 goes to sleep, and client 1 clears the word. -/
def loseWake : List Op :=
  contend ++ [.hr_unlock 1, .unstamp 1, .waiters 1, .hrlockwait 2, .clear 1]

/-- `open` fails in client 2, and its `hr_lock` returns. -/
def openFails : List Op :=
  [.hr_lock 1, .hr_tas 1, .stamp 1, .hr_lock 2, .hr_tas 2, .open 2 false]

/-- Client 1 forks client 4, which holds the lock under the id of client 1. Client 1 exits, and
client 3 has the watchdog reclaim the lock. -/
def staleId : List Op :=
  [.hr_lock 1, .hr_tas 1, .stamp 1, .hr_unlock 1, .unstamp 1, .waiters 1, .clear 1, .fork 1 4,
    .hr_lock 4, .hr_tas 4, .stamp 4, .exit 1, .hr_lock 3, .hr_tas 3, .open 3 true, .hrlockwait 3,
    .hrlockwd, .hrlockwd, .hrlockwd, .awake 3]

theorem clients_lose_wake :
    (∃ t, Run Step clients loseWake t ∧ LostWake t) ∧
      (∃ t, Run Step clients openFails t ∧ ¬ Exclusive t) ∧
      ∃ t, Run Step clients staleId t ∧ ¬ Exclusive t := by
  have hrun : ∀ ops, Along Enabled exec clients ops →
      Run Step clients ops (ops.foldl exec clients) :=
    fun ops => Run.along (fun _ _ h => ⟨h, rfl⟩) clients ops
  refine ⟨⟨_, hrun _ (by decide +kernel), ?_⟩, ⟨_, hrun _ (by decide +kernel), fun h => ?_⟩,
    ⟨_, hrun _ (by decide +kernel), fun h => ?_⟩⟩
  · refine ⟨by decide +kernel, by decide +kernel, ⟨2, by decide +kernel⟩, fun q => ?_⟩
    match q with
    | 0 | 1 | 2 | 3 => decide +kernel
    | q + 4 =>
      have hq : (loseWake.foldl exec clients).pc (q + 4) = .dead := rfl
      rw [hq]
      decide
  · exact absurd (h 1 2 (by decide +kernel) (by decide +kernel)) (by decide)
  · exact absurd (h 3 4 (by decide +kernel) (by decide +kernel)) (by decide)

end Coherent.HrLock
