import Coherent.RunQueue

/-!
Gates: `lock` and `unlock` over the processes of `Proc`.

A gate is two characters at one address, which is also the event its waiters sleep on: the
first says that it is locked, the second counts the processes in `lock` that wait. `lock` runs
at high priority up to its `sleep`; `unlock` does not, so that its store, its look at the
count and each turn of its `wakeup` are steps of their own.
-/

namespace Coherent.Gate

open Coherent.Proc Coherent.Lib

def CVGATE : Word := 16384

/-- The processes and the gates. -/
structure Gates where
  sys : Sys
  /-- `g[0]` -/
  locked : Event → Bool
  /-- `g[1]` -/
  waiters : Event → BitVec 8
  /-- the gate for which a process waits in `lock` -/
  wants : Pid → Option Event
  /-- the process is between `lock(g)` and the matching `unlock(g)` -/
  holds : Pid → Event → Bool
  /-- how many `unlock(g)` have made their store and not looked at the count yet -/
  testing : Event → ℕ
  /-- how many `unlock(g)` are in their `wakeup(g)` -/
  waking : Event → ℕ

/-- The loop of `lock` from its test on: `SELF` sleeps or has the gate. -/
def tryLock (s : Gates) (g : Event) : Gates :=
  if s.locked g then { s with
    waiters := Function.update s.waiters g (s.waiters g + 1)
    wants := Function.update s.wants s.sys.SELF (some g)
    sys := sleep s.sys g CVGATE }
  else { s with
    locked := Function.update s.locked g true
    wants := Function.update s.wants s.sys.SELF none
    holds := Function.update s.holds s.sys.SELF
      (Function.update (s.holds s.sys.SELF) g true) }

/-- `lock` after its `sleep`. -/
def relock (s : Gates) (g : Event) : Gates :=
  tryLock { s with waiters := Function.update s.waiters g (s.waiters g - 1) } g

/-- The store of `unlock`, on behalf of process `q`. -/
def unlock (s : Gates) (q : Pid) (g : Event) : Gates :=
  { s with
    locked := Function.update s.locked g false
    holds := Function.update s.holds q (Function.update (s.holds q) g false)
    testing := Function.update s.testing g (s.testing g + 1) }

/-- `unlock` looks at the count. -/
def test (s : Gates) (g : Event) : Gates :=
  { s with
    testing := Function.update s.testing g (s.testing g - 1)
    waking := if s.waiters g ≠ 0 then Function.update s.waking g (s.waking g + 1) else s.waking }

/-- One turn of the `wakeup` of `unlock`. -/
def turn (s : Gates) (g : Event) : Gates :=
  match (s.sys.linkq (Proc.hash g)).find? fun pp => s.sys.p_event pp = g with
  | none => { s with waking := Function.update s.waking g (s.waking g - 1) }
  | some _ => { s with sys := wakeup s.sys g }

inductive Op
  | proc (o : Proc.Op)
  | lock (g : Event)
  | relock
  | unlock (q : Pid) (g : Event)
  | test (g : Event)
  | turn (g : Event)

variable (gate : Event → Prop)

/-- Only `lock` sleeps on a gate. A process does not lock a gate that it has; `unlock` may be
called by an interrupt on behalf of the process that has the gate. -/
inductive Step : Gates → Op → Gates → Prop
  | proc {s : Gates} {o : Proc.Op} {t : Sys} (hst : Proc.Step s.sys o t)
      (hsleep : ∀ e cl, o = .sleep e cl → ¬ gate e) : Step s (.proc o) { s with sys := t }
  | lock {s : Gates} {g : Event} (hg : gate g) (hpc : s.sys.pc = .run)
      (hi : s.sys.SELF ≠ s.sys.iprocp) (hw : s.wants s.sys.SELF = none)
      (hh : s.holds s.sys.SELF g = false) : Step s (.lock g) (tryLock s g)
  | relock {s : Gates} {g : Event} (hpc : s.sys.pc = .run) (hi : s.sys.SELF ≠ s.sys.iprocp)
      (hw : s.wants s.sys.SELF = some g) : Step s .relock (relock s g)
  | unlock {s : Gates} {q : Pid} {g : Event} (hh : s.holds q g = true) :
      Step s (.unlock q g) (unlock s q g)
  | test {s : Gates} {g : Event} (ht : 0 < s.testing g) : Step s (.test g) (test s g)
  | turn {s : Gates} {g : Event} (ht : 0 < s.waking g) : Step s (.turn g) (turn s g)

/-- Nothing is locked, and the processes are as `pcsinit` leaves them. -/
structure Initial (s : Gates) : Prop where
  booted : Booted s.sys
  locked : ∀ g, s.locked g = false
  waiters : ∀ g, s.waiters g = 0
  wants : ∀ p, s.wants p = none
  holds : ∀ p g, s.holds p g = false

/-- The count of the waiters has room for one more. -/
def Roomy (s : Gates) : Op → Prop
  | .lock g => s.locked g = true → s.waiters g ≠ 255
  | _ => True

def RoomyStep (s : Gates) (o : Op) (t : Gates) : Prop := Step gate s o t ∧ Roomy s o

/-- At most one process is inside a gate. -/
def Exclusive (s : Gates) : Prop := ∀ p q g, s.holds p g = true → s.holds q g = true → p = q

/-- Process `p` sleeps at gate `g`. -/
def SleepsAt (s : Sys) (p : Pid) (g : Event) : Prop := s.p_state p = .PSSLEEP ∧ s.p_event p = g

/-- Whoever sleeps at a gate has another process inside it, or an `unlock` that wakes it or is
about to find the count not zero. -/
def Guarded (s : Gates) : Prop := ∀ p g, gate g → SleepsAt s.sys p g →
  (∃ q, q ≠ p ∧ s.holds q g = true) ∨ 0 < s.testing g ∧ s.waiters g ≠ 0 ∨ 0 < s.waking g

/-- A process is on the run queue, on one sleep queue or on none, and on that once; one that
sleeps is on the queue of its event. -/
structure OnQueues (s : Sys) : Prop where
  run : s.runq.Nodup
  link : ∀ h, (s.linkq h).Nodup
  one : ∀ p h, p ∈ s.linkq h → p ∉ s.runq ∧ ∀ h', p ∈ s.linkq h' → h' = h
  asleep : ∀ p, s.p_state p = .PSSLEEP → p ∈ s.linkq (Proc.hash (s.p_event p))

/-! ### The queues -/

/-- What the queues hold, whatever the priorities are. -/
structure Lists (s : Sys) : Prop where
  nodup : s.runq.Nodup
  linked : ∀ h, (s.linkq h).Nodup
  asleep : ∀ p h, p ∈ s.linkq h ↔ s.p_state p = .PSSLEEP ∧ Proc.hash (s.p_event p) = h
  queued : ∀ p ∈ s.runq, s.p_state p = .PSRUN
  idle : s.iprocp ∉ s.runq ∧ s.p_state s.iprocp = .PSRUN

/-- Whoever runs, or has been chosen to, is off the queues. -/
structure Off (s : Sys) : Prop extends Lists s where
  self : s.pc = .run → s.SELF ∉ s.runq ∧ s.p_state s.SELF = .PSRUN
  chosen : ∀ p, s.pc = .chosen p → p ∉ s.runq ∧ s.p_state p = .PSRUN

section Queues

variable {s t : Sys} {p : Pid}

lemma Lists.congr (h : Lists s) (hr : t.runq = s.runq) (hl : t.linkq = s.linkq)
    (hs : t.p_state = s.p_state) (he : t.p_event = s.p_event) (hi : t.iprocp = s.iprocp) :
    Lists t := by
  refine ⟨?_, ?_, ?_, ?_, ?_⟩
  · rw [hr]; exact h.nodup
  · rw [hl]; exact h.linked
  · rw [hl, hs, he]; exact h.asleep
  · rw [hr, hs]; exact h.queued
  · rw [hr, hs, hi]; exact h.idle

/-- `setrun` of a process that is on no queue; its state may still say that it sleeps. -/
lemma lists_setrun (hnd : s.runq.Nodup) (hp : p ∉ s.runq) (hi : p ≠ s.iprocp)
    (hl : ∀ h, (s.linkq h).Nodup)
    (ha : ∀ q h, q ∈ s.linkq h ↔ q ≠ p ∧ s.p_state q = .PSSLEEP ∧ Proc.hash (s.p_event q) = h)
    (hr : ∀ q ∈ s.runq, s.p_state q = .PSRUN)
    (hidle : s.iprocp ∉ s.runq ∧ s.p_state s.iprocp = .PSRUN) : Lists (setrun s p) where
  nodup := by
    obtain ⟨a, b, he, he', -⟩ := setrun_spec hnd hp
    rw [he] at hnd hp
    rw [he']
    exact List.nodup_middle.mpr (List.nodup_cons.mpr ⟨hp, hnd⟩)
  linked := hl
  asleep q h := by
    rw [setrun_linkq, ha, setrun_state, setrun_event]
    by_cases he : q = p
    · subst he; simp
    · simp [he]
  queued q hq := by
    rw [setrun_state]
    rcases (mem_setrun hnd hp).mp hq with rfl | hm
    · simp
    · have hne : q ≠ p := by rintro rfl; exact hp hm
      rw [Function.update_of_ne hne]
      exact hr q hm
  idle := by
    rw [setrun_iprocp, setrun_state, Function.update_of_ne hi.symm, mem_setrun hnd hp]
    exact ⟨fun h => h.elim (fun e => hi e.symm) hidle.1, hidle.2⟩

/-- `setrun` of a process that runs. -/
lemma Lists.setrun (h : Lists s) (hp : p ∉ s.runq) (hst : s.p_state p ≠ .PSSLEEP)
    (hi : p ≠ s.iprocp) : Lists (setrun s p) := by
  refine lists_setrun h.nodup hp hi h.linked (fun q k => ?_) h.queued h.idle
  rw [h.asleep]
  refine ⟨fun hs => ⟨?_, hs⟩, fun hs => hs.2⟩
  rintro rfl
  exact hst hs.1

/-- Waking a process that sleeps. -/
lemma Lists.wake (h : Lists s) (hst : s.p_state p = .PSSLEEP) : Lists (wake s p) := by
  have hp : p ∉ s.runq := fun hm => by simpa [hst] using h.queued p hm
  have hi : p ≠ s.iprocp := by rintro rfl; simpa [hst] using h.idle.2
  refine lists_setrun h.nodup hp hi ?_ ?_ h.queued h.idle
  · intro k
    by_cases hk : k = Proc.hash (s.p_event p)
    · subst hk
      simp only [Function.update_self]
      exact (h.linked _).erase p
    · simp only [Function.update_of_ne hk]
      exact h.linked k
  · intro q k
    by_cases hk : k = Proc.hash (s.p_event p)
    · subst hk
      simp only [Function.update_self]
      rw [(h.linked _).mem_erase_iff, h.asleep]
    · simp only [Function.update_of_ne hk]
      rw [h.asleep]
      refine ⟨fun hs => ⟨?_, hs⟩, fun hs => hs.2⟩
      rintro rfl
      exact hk hs.2.symm

/-- What `dispatch` does to the run queue. -/
lemma dispatch_runq (s : Sys) : (dispatch s).1 = s.iprocp ∧ (dispatch s).2.runq = s.runq ∨
    ∃ a b, s.runq = a ++ (dispatch s).1 :: b ∧ (dispatch s).2.runq = a ++ b := by
  unfold dispatch
  cases hpk : pick s s.runq 0 with
  | none => exact .inl ⟨rfl, rfl⟩
  | some x =>
    obtain ⟨a, q, b, w⟩ := x
    exact .inr ⟨a, b, (pick_some hpk).1, rfl⟩

/-- `dispatch` chooses a process that is on no queue afterwards. -/
lemma Lists.dispatch (h : Lists s) : Lists (dispatch s).2 ∧
    (dispatch s).1 ∉ (dispatch s).2.runq ∧ (dispatch s).2.p_state (dispatch s).1 = .PSRUN := by
  obtain ⟨hl, he, hst, hi, -, -⟩ := dispatch_frame s
  rcases dispatch_runq s with ⟨e, hr⟩ | ⟨a, b, hr, hr'⟩
  · refine ⟨h.congr hr hl hst he hi, ?_⟩
    rw [e, hr, hst]
    exact h.idle
  · have hnd := h.nodup
    rw [hr, List.nodup_middle, List.nodup_cons] at hnd
    have hsub : ∀ q ∈ a ++ b, q ∈ s.runq := by
      intro q hq
      rw [hr]
      rcases List.mem_append.mp hq with hq | hq <;> simp [hq]
    refine ⟨⟨?_, ?_, ?_, ?_, ?_⟩, ?_, ?_⟩
    · rw [hr']; exact hnd.2
    · rw [hl]; exact h.linked
    · rw [hl, he, hst]; exact h.asleep
    · rw [hr', hst]; exact fun q hq => h.queued q (hsub q hq)
    · rw [hr', hi, hst]; exact ⟨fun hm => h.idle.1 (hsub _ hm), h.idle.2⟩
    · rw [hr']; exact hnd.1
    · rw [hst]; exact h.queued _ (by rw [hr]; simp)

/-- The processor goes over to a process that is on no queue. -/
lemma Lists.switch (h : Lists s) (hp : p ∉ s.runq) (hst : s.p_state p = .PSRUN) :
    Off (switch s p) :=
  ⟨h.congr rfl rfl rfl rfl rfl, fun _ => ⟨hp, hst⟩, fun _ he => by simp [Proc.switch] at he⟩

lemma Off.yield (h : Off s) (hpc : s.pc = .run) (hi : s.SELF ≠ s.iprocp) : Off (yield s) := by
  obtain ⟨hself, hst⟩ := h.self hpc
  obtain ⟨hq, h1, h2⟩ := (h.toLists.setrun hself (by simp [hst]) hi).dispatch
  exact hq.switch h1 h2

/-- Whoever runs is not the process that is made to run. -/
lemma Off.setrun (h : Off s) (hp : p ∉ s.runq) (hL : Lists (setrun s p))
    (hself : s.pc = .run → s.SELF ≠ p) (hchosen : ∀ q, s.pc = .chosen q → q ≠ p) :
    Off (setrun s p) := by
  have hrun : ∀ q, q ≠ p → q ∉ s.runq ∧ s.p_state q = .PSRUN →
      q ∉ (Proc.setrun s p).runq ∧ (Proc.setrun s p).p_state q = .PSRUN := by
    rintro q hne ⟨hq, hqs⟩
    rw [mem_setrun h.nodup hp, setrun_state, Function.update_of_ne hne]
    exact ⟨fun hm => hm.elim hne hq, hqs⟩
  exact ⟨hL, fun hpc => hrun _ (hself hpc) (h.self hpc),
    fun q hpc => hrun _ (hchosen q hpc) (h.chosen q hpc)⟩

lemma Off.wake (h : Off s) (hst : s.p_state p = .PSSLEEP) : Off (wake s p) := by
  have hp : p ∉ s.runq := fun hm => by simpa [hst] using h.queued p hm
  have hrun : ∀ q, q ∉ s.runq ∧ s.p_state q = .PSRUN →
      q ∉ (Proc.wake s p).runq ∧ (Proc.wake s p).p_state q = .PSRUN := by
    rintro q ⟨hq, hqs⟩
    have hne : q ≠ p := by rintro rfl; simp [hst] at hqs
    refine ⟨fun hm => ?_, ?_⟩
    · have hnd : ({ s with
          linkq := Function.update s.linkq (Proc.hash (s.p_event p))
            ((s.linkq (Proc.hash (s.p_event p))).erase p)
          p_cval := Function.update s.p_cval p
            (addu (s.p_cval p) ((s.utimer - s.p_lctim p) * CVCLOCK)) } : Sys).runq.Nodup := h.nodup
      exact ((mem_setrun hnd hp).mp hm).elim hne hq
    · rw [Proc.wake, setrun_state, Function.update_of_ne hne]
      exact hqs
  exact ⟨h.toLists.wake hst, fun hpc => hrun _ (h.self hpc), fun q hpc => hrun _ (h.chosen q hpc)⟩

lemma Off.sleep (h : Off s) (hpc : s.pc = .run) (hi : s.SELF ≠ s.iprocp) (e : Event) (cl : Word) :
    Off (sleep s e cl) := by
  obtain ⟨hself, hrun⟩ := h.self hpc
  have hnl : ∀ k, s.SELF ∉ s.linkq k := fun k hm => by simpa [hrun] using ((h.asleep _ _).mp hm).1
  refine ⟨⟨h.nodup, ?_, ?_, ?_, h.idle.1, ?_⟩, fun hpc' => by simp [Proc.sleep] at hpc',
    fun q hpc' => by simp [Proc.sleep] at hpc'⟩
  · intro k
    by_cases hk : k = Proc.hash e
    · subst hk
      simp only [Proc.sleep, Function.update_self]
      exact (List.nodup_append.mpr ⟨h.linked _, by simp, by
        rintro a ha b hb rfl
        exact hnl _ (List.mem_singleton.mp hb ▸ ha)⟩)
    · simp only [Proc.sleep, Function.update_of_ne hk]
      exact h.linked k
  · intro q k
    by_cases hq : q = s.SELF
    · subst hq
      simp only [Proc.sleep, Function.update_self, true_and]
      by_cases hk : k = Proc.hash e
      · subst hk; simp
      · simp only [Function.update_of_ne hk]
        exact ⟨fun hm => absurd hm (hnl k), fun he => absurd he.symm hk⟩
    · simp only [Proc.sleep, Function.update_of_ne hq]
      by_cases hk : k = Proc.hash e
      · subst hk
        simp only [Function.update_self, List.mem_append, List.mem_singleton, hq, or_false]
        exact h.asleep q _
      · simp only [Function.update_of_ne hk]
        exact h.asleep q k
  · intro q hq
    have hne : q ≠ s.SELF := by rintro rfl; exact hself hq
    simp only [Proc.sleep, Function.update_of_ne hne]
    exact h.queued q hq
  · simp only [Proc.sleep, Function.update_of_ne hi.symm]
    exact h.idle.2

/-- **One step** keeps the queues in order. -/
lemma off_step {o : Proc.Op} (h : Off s) (hst : Proc.Step s o t) : Off t := by
  cases hst with
  | sleep e cl hpc hi => exact h.sleep hpc hi e cl
  | pexit hpc hi =>
    obtain ⟨hself, hrun⟩ := h.self hpc
    have hne : ∀ q, s.p_state q = .PSSLEEP → q ≠ s.SELF := by rintro q hq rfl; simp [hrun] at hq
    refine ⟨⟨h.nodup, h.linked, fun q k => ?_, fun q hq => ?_, h.idle.1, ?_⟩,
      fun hpc' => by simp at hpc', fun q hpc' => by simp at hpc'⟩
    · rw [h.asleep]
      by_cases hq : q = s.SELF
      · subst hq; simp [hrun]
      · simp [Function.update_of_ne hq]
    · have hqs : q ≠ s.SELF := by rintro rfl; exact hself hq
      simpa [Function.update_of_ne hqs] using h.queued q hq
    · simpa [Function.update_of_ne hi.symm] using h.idle.2
  | dispatch hpc =>
    obtain ⟨hq, h1, h2⟩ := h.toLists.dispatch
    refine ⟨hq.congr rfl rfl rfl rfl rfl, fun hpc' => by simp at hpc', fun q hpc' => ?_⟩
    obtain rfl : (Proc.dispatch s).1 = q := by simpa using hpc'
    exact ⟨h1, h2⟩
  | switch hpc =>
    obtain ⟨h1, h2⟩ := h.chosen _ hpc
    exact h.toLists.switch h1 h2
  | awake cl hpc => exact ⟨h.toLists.congr rfl rfl rfl rfl rfl, h.self, h.chosen⟩
  | stand hpc =>
    unfold Proc.stand
    split_ifs with hi
    · exact h.yield hpc hi
    · obtain ⟨hq, h1, h2⟩ := h.toLists.dispatch
      exact hq.switch h1 h2
  | segfinm hpc hi =>
    have h' : Off { s with core := Function.update s.core s.SELF false } :=
      ⟨h.toLists.congr rfl rfl rfl rfl rfl, h.self, h.chosen⟩
    exact h'.yield hpc hi
  | @pfork cpp hpc hr hs hne hi =>
    have h' : Off { s with p_cval := Function.update s.p_cval cpp CVCHILD } :=
      ⟨h.toLists.congr rfl rfl rfl rfl rfl, h.self, h.chosen⟩
    refine h'.setrun hr (h'.toLists.setrun hr hs hi) (fun _ => hne.symm) fun q hq => ?_
    have hq' : s.pc = .chosen q := hq
    rw [hpc] at hq'
    cases hq'
  | setcore pp b hpc => exact ⟨h.toLists.congr rfl rfl rfl rfl rfl, h.self, h.chosen⟩
  | wakeup e =>
    unfold Proc.wakeup
    split
    · exact h
    · rename_i pp hf
      exact h.wake ((h.asleep _ _).mp (List.mem_of_find?_eq_some hf)).1
  | sendsig pp =>
    unfold Proc.sendsig
    split_ifs with hs
    · exact h.wake hs
    · exact h
  | clock =>
    have hr : (Proc.clock s).runq = s.runq := by rw [clock_eq]; exact aged_runq s
    obtain ⟨hl, he, hs, hi, hS, hp⟩ := clock_frame s
    refine ⟨h.toLists.congr hr hl hs he hi, ?_, ?_⟩
    · rw [hr, hs, hS, hp]; exact h.self
    · rw [hr, hs, hp]; exact h.chosen

end Queues

/-! ### Waiting -/

section Waiting

variable {gate} {s t : Gates} {p q : Pid} {g : Event}

lemma sleepsAt_setrun {s : Sys} (h : SleepsAt (setrun s q) p g) : SleepsAt s p g := by
  obtain ⟨h1, h2⟩ := h
  rw [setrun_state] at h1
  rw [setrun_event] at h2
  by_cases he : p = q
  · subst he; simp at h1
  · exact ⟨by rwa [Function.update_of_ne he] at h1, h2⟩

lemma sleepsAt_dispatch {s : Sys} (h : SleepsAt (dispatch s).2 p g) : SleepsAt s p g := by
  obtain ⟨-, he, hst, -⟩ := dispatch_frame s
  rwa [SleepsAt, he, hst] at h

lemma wakeup_cases (s : Sys) (e : Event) : wakeup s e = s ∨ ∃ q, wakeup s e = wake s q := by
  unfold wakeup
  split
  · exact .inl rfl
  · exact .inr ⟨_, rfl⟩

lemma sleepsAt_wake {s : Sys} (h : SleepsAt (wake s q) p g) : SleepsAt s p g := by
  have h' := sleepsAt_setrun h
  exact ⟨h'.1, h'.2⟩

lemma sleepsAt_wakeup {s : Sys} {e : Event} (h : SleepsAt (wakeup s e) p g) : SleepsAt s p g := by
  rcases wakeup_cases s e with he | ⟨q, he⟩ <;> rw [he] at h
  · exact h
  · exact sleepsAt_wake h

/-- Only `sleep` puts a process to sleep. -/
lemma sleepsAt_step {s t : Sys} {o : Proc.Op} (hst : Proc.Step s o t) (h : SleepsAt t p g) :
    SleepsAt s p g ∨ ∃ cl, o = .sleep g cl := by
  cases hst with
  | sleep e cl hpc hi =>
    obtain ⟨h1, h2⟩ := h
    by_cases he : p = s.SELF
    · subst he
      simp only [Proc.sleep, Function.update_self] at h2
      exact .inr ⟨cl, by rw [h2]⟩
    · simp only [Proc.sleep, Function.update_of_ne he] at h1 h2
      exact .inl ⟨h1, h2⟩
  | pexit hpc hi =>
    obtain ⟨h1, h2⟩ := h
    by_cases he : p = s.SELF
    · subst he; simp at h1
    · exact .inl ⟨by simpa [Function.update_of_ne he] using h1, h2⟩
  | dispatch hpc => exact .inl (sleepsAt_dispatch h)
  | switch hpc => exact .inl h
  | awake cl hpc => exact .inl h
  | stand hpc =>
    unfold Proc.stand at h
    split_ifs at h with hi
    · exact .inl (sleepsAt_setrun (sleepsAt_dispatch h))
    · exact .inl (sleepsAt_dispatch h)
  | segfinm hpc hi =>
    have h' := sleepsAt_setrun (sleepsAt_dispatch h)
    exact .inl ⟨h'.1, h'.2⟩
  | pfork hpc hr hs hne hi =>
    have h' := sleepsAt_setrun h
    exact .inl ⟨h'.1, h'.2⟩
  | setcore pp b hpc => exact .inl h
  | wakeup e => exact .inl (sleepsAt_wakeup h)
  | sendsig pp =>
    unfold Proc.sendsig at h
    split_ifs at h with hs
    · exact .inl (sleepsAt_wake h)
    · exact .inl h
  | clock =>
    obtain ⟨-, he, hs, -⟩ := clock_frame s
    rw [SleepsAt, he, hs] at h
    exact .inl h

/-- The processes in `lock(g)` that wait are as many as the count says. -/
def Counted (s : Gates) (g : Event) : Prop :=
  ∃ S : Finset Pid, (∀ p, p ∈ S ↔ s.wants p = some g) ∧ S.card = (s.waiters g).toNat

/-- **The gate invariant**, but for the count. -/
structure Core (gate : Event → Prop) (s : Gates) : Prop where
  queues : Off s.sys
  waits : ∀ p g, gate g → SleepsAt s.sys p g → s.wants p = some g
  inside : ∀ p g, s.holds p g = true → s.locked g = true
  alone : Exclusive s
  occupied : ∀ g, s.locked g = true → ∃ q, s.holds q g = true
  woken : ∀ p g, gate g → SleepsAt s.sys p g →
    s.locked g = true ∨ 0 < s.testing g ∨ 0 < s.waking g
  outside : ∀ p g, s.wants p = some g → s.holds p g = false

structure Inv (gate : Event → Prop) (s : Gates) : Prop extends Core gate s where
  counted : ∀ g, Counted s g

/-- A step of the processes alone. -/
lemma Core.proc (h : Core gate s) {o : Proc.Op} {u : Sys} (hst : Proc.Step s.sys o u)
    (hsleep : ∀ e cl, o = .sleep e cl → ¬ gate e) : Core gate { s with sys := u } := by
  have hold : ∀ p g, gate g → SleepsAt u p g → SleepsAt s.sys p g := by
    intro p g hg hs
    rcases sleepsAt_step hst hs with hs | ⟨cl, ho⟩
    · exact hs
    · exact absurd hg (hsleep g cl ho)
  exact ⟨off_step h.queues hst, fun p g hg hs => h.waits p g hg (hold p g hg hs), h.inside, h.alone,
    h.occupied, fun p g hg hs => h.woken p g hg (hold p g hg hs), h.outside⟩

lemma update_update_apply (f : Pid → Event → Bool) (q p : Pid) (g g' : Event) (b : Bool) :
    Function.update f q (Function.update (f q) g b) p g' =
      if p = q ∧ g' = g then b else f p g' := by
  by_cases hp : p = q
  · subst hp
    by_cases hg : g' = g
    · subst hg; simp
    · simp [hg]
  · simp [hp]

/-- `SELF` takes a gate that is not locked. -/
lemma Core.take (h : Core gate s) (hl : s.locked g = false) (hpc : s.sys.pc = .run) :
    Core gate { s with
      locked := Function.update s.locked g true
      wants := Function.update s.wants s.sys.SELF none
      holds := Function.update s.holds s.sys.SELF
        (Function.update (s.holds s.sys.SELF) g true) } := by
  have hfree : ∀ p, s.holds p g = false := fun p => by
    by_contra hp
    simpa [hl] using h.inside p g (by simpa using hp)
  refine ⟨h.queues, ?_, ?_, ?_, ?_, ?_, ?_⟩
  · intro p g' hg' hs
    have hne : p ≠ s.sys.SELF := by
      rintro rfl
      simpa [(h.queues.self hpc).2] using hs.1
    dsimp only
    rw [Function.update_of_ne hne]
    exact h.waits p g' hg' hs
  · intro p g' hp
    dsimp only at hp ⊢
    rw [update_update_apply] at hp
    by_cases hg : g' = g
    · subst hg; simp
    · rw [Function.update_of_ne hg]
      exact h.inside p g' (by simpa [hg] using hp)
  · intro p q g' hp hq
    dsimp only at hp hq
    rw [update_update_apply] at hp hq
    by_cases hg : g' = g
    · subst hg
      simp only [and_true, hfree, Bool.if_false_right, Bool.and_true, decide_eq_true_eq] at hp hq
      rw [hp, hq]
    · simp only [hg, and_false, if_false] at hp hq
      exact h.alone p q g' hp hq
  · intro g' hl'
    dsimp only at hl' ⊢
    by_cases hg : g' = g
    · subst hg
      exact ⟨s.sys.SELF, by simp⟩
    · rw [Function.update_of_ne hg] at hl'
      obtain ⟨q, hq⟩ := h.occupied g' hl'
      refine ⟨q, ?_⟩
      rw [update_update_apply]
      simp [hg, hq]
  · intro p g' hg' hs
    dsimp only
    by_cases hg : g' = g
    · subst hg; simp
    · rw [Function.update_of_ne hg]
      exact h.woken p g' hg' hs
  · intro p g' hw
    dsimp only at hw ⊢
    by_cases hp : p = s.sys.SELF
    · subst hp; simp at hw
    · rw [Function.update_of_ne hp] at hw ⊢
      exact h.outside p g' hw

/-- `SELF` goes to sleep at a gate that is locked. -/
lemma Core.wait (h : Core gate s) (hl : s.locked g = true) (hpc : s.sys.pc = .run)
    (hi : s.sys.SELF ≠ s.sys.iprocp) (hh : s.holds s.sys.SELF g = false) (w : Event → BitVec 8) :
    Core gate { s with
      waiters := w
      wants := Function.update s.wants s.sys.SELF (some g)
      sys := sleep s.sys g CVGATE } := by
  have hold : ∀ p g', SleepsAt (sleep s.sys g CVGATE) p g' →
      p = s.sys.SELF ∧ g' = g ∨ p ≠ s.sys.SELF ∧ SleepsAt s.sys p g' := by
    rintro p g' ⟨h1, h2⟩
    by_cases hp : p = s.sys.SELF
    · subst hp
      simp only [Proc.sleep, Function.update_self] at h2
      exact .inl ⟨rfl, h2.symm⟩
    · simp only [Proc.sleep, Function.update_of_ne hp] at h1 h2
      exact .inr ⟨hp, h1, h2⟩
  refine ⟨h.queues.sleep hpc hi g CVGATE, ?_, h.inside, h.alone, h.occupied, ?_, ?_⟩
  · intro p g' hg' hs
    dsimp only
    rcases hold p g' hs with ⟨rfl, rfl⟩ | ⟨hne, hs⟩
    · rw [Function.update_self]
    · rw [Function.update_of_ne hne]
      exact h.waits p g' hg' hs
  · intro p g' hg' hs
    rcases hold p g' hs with ⟨rfl, rfl⟩ | ⟨-, hs⟩
    · exact .inl hl
    · exact h.woken p g' hg' hs
  · intro p g' hw
    dsimp only at hw
    by_cases hp : p = s.sys.SELF
    · subst hp
      rw [Function.update_self] at hw
      obtain rfl : g = g' := by simpa using hw
      exact hh
    · rw [Function.update_of_ne hp] at hw
      exact h.outside p g' hw

/-- The test in `lock`, whatever the count is. -/
lemma Core.tryLock (h : Core gate s) (hpc : s.sys.pc = .run) (hi : s.sys.SELF ≠ s.sys.iprocp)
    (hh : s.holds s.sys.SELF g = false) : Core gate (tryLock s g) := by
  unfold Gate.tryLock
  split_ifs with hl
  · exact h.wait hl hpc hi hh _
  · exact h.take (by simpa using hl) hpc

lemma Core.unlock (h : Core gate s) (hh : s.holds q g = true) : Core gate (unlock s q g) := by
  refine ⟨h.queues, h.waits, ?_, ?_, ?_, ?_, ?_⟩
  · intro p g' hp
    simp only [Gate.unlock, update_update_apply] at hp ⊢
    by_cases hg : g' = g
    · subst hg
      -- the only process inside was `q`
      split_ifs at hp with hc
      exact absurd ⟨h.alone p q g' hp hh, rfl⟩ hc
    · rw [Function.update_of_ne hg]
      exact h.inside p g' (by simpa [hg] using hp)
  · intro p r g' hp hr
    simp only [Gate.unlock, update_update_apply] at hp hr
    split_ifs at hp hr
    exact h.alone p r g' hp hr
  · intro g' hl
    by_cases hg : g' = g
    · subst hg; simp [Gate.unlock] at hl
    · simp only [Gate.unlock, Function.update_of_ne hg] at hl
      obtain ⟨r, hr⟩ := h.occupied g' hl
      refine ⟨r, ?_⟩
      simp [Gate.unlock, update_update_apply, hg, hr]
  · intro p g' hg' hs
    by_cases hg : g' = g
    · subst hg
      right; left
      simp [Gate.unlock]
    · simp only [Gate.unlock, Function.update_of_ne hg]
      exact h.woken p g' hg' hs
  · intro p g' hw
    simp only [Gate.unlock, update_update_apply]
    split_ifs
    · rfl
    · exact h.outside p g' hw

/-- With a count of zero nobody sleeps at the gate. -/
lemma Inv.waiters_ne (h : Inv gate s) (hg : gate g) (hs : SleepsAt s.sys p g) :
    s.waiters g ≠ 0 := by
  intro hw
  obtain ⟨S, hS, hc⟩ := h.counted g
  have hp : p ∈ S := (hS p).mpr (h.waits p g hg hs)
  rw [hw] at hc
  have h0 : S = ∅ := Finset.card_eq_zero.mp (by simpa using hc)
  simp [h0] at hp

lemma Inv.test (h : Inv gate s) : Core gate (test s g) := by
  refine ⟨h.queues, h.waits, h.inside, h.alone, h.occupied, ?_, h.outside⟩
  intro p g' hg' hs
  simp only [Gate.test]
  by_cases hg : g' = g
  · subst hg
    right; right
    rw [if_pos (h.waiters_ne hg' hs), Function.update_self]
    exact Nat.succ_pos _
  · rw [Function.update_of_ne hg]
    rcases h.woken p g' hg' hs with hl | ht | hk
    · exact .inl hl
    · exact .inr (.inl ht)
    · right; right
      split_ifs
      · rwa [Function.update_of_ne hg]
      · exact hk

/-- The last turn finds nobody asleep at the gate. -/
lemma Core.turn (h : Core gate s) (ht : 0 < s.waking g) : Core gate (turn s g) := by
  unfold Gate.turn
  split
  · rename_i hf
    refine ⟨h.queues, h.waits, h.inside, h.alone, h.occupied, ?_, h.outside⟩
    intro p g' hg' hs
    by_cases hg : g' = g
    · subst hg
      have hp : p ∈ s.sys.linkq (Proc.hash g') :=
        (h.queues.asleep p _).mpr ⟨hs.1, by rw [hs.2]⟩
      rw [List.find?_eq_none] at hf
      exact absurd hs.2 (by simpa using hf p hp)
    · simp only [Function.update_of_ne hg]
      exact h.woken p g' hg' hs
  · exact h.proc (.wakeup g) (by rintro e cl ⟨⟩)

/-- One more waits. -/
lemma Counted.add {g' : Event} (h : Counted s g') (hroom : s.waiters g ≠ 255)
    (hp : s.wants p = none) {t : Gates}
    (hwt : t.wants = Function.update s.wants p (some g))
    (hct : t.waiters = Function.update s.waiters g (s.waiters g + 1)) : Counted t g' := by
  obtain ⟨S, hS, hc⟩ := h
  have hnot : p ∉ S := fun hm => by simpa [hp] using (hS p).mp hm
  by_cases hg : g' = g
  · subst hg
    refine ⟨insert p S, fun q => ?_, ?_⟩
    · rw [Finset.mem_insert, hS, hwt]
      by_cases hq : q = p
      · subst hq; simp
      · simp [hq]
    · rw [Finset.card_insert_of_notMem hnot, hc, hct, Function.update_self]
      bv_omega
  · refine ⟨S, fun q => ?_, ?_⟩
    · rw [hS, hwt]
      by_cases hq : q = p
      · subst hq
        simp [hp, Ne.symm hg]
      · simp [hq]
    · rw [hc, hct, Function.update_of_ne hg]

/-- One less waits. -/
lemma Counted.drop {g' : Event} (h : Counted s g') (hp : s.wants p = some g) {t : Gates}
    (hwt : t.wants = Function.update s.wants p none)
    (hct : t.waiters = Function.update s.waiters g (s.waiters g - 1)) : Counted t g' := by
  obtain ⟨S, hS, hc⟩ := h
  by_cases hg : g' = g
  · subst hg
    have hm : p ∈ S := (hS p).mpr hp
    refine ⟨S.erase p, fun q => ?_, ?_⟩
    · rw [Finset.mem_erase, hS, hwt]
      by_cases hq : q = p
      · subst hq; simp
      · simp [hq]
    · have hpos : 0 < S.card := Finset.card_pos.mpr ⟨p, hm⟩
      rw [Finset.card_erase_of_mem hm, hct, Function.update_self]
      bv_omega
  · refine ⟨S, fun q => ?_, ?_⟩
    · rw [hS, hwt]
      by_cases hq : q = p
      · subst hq
        simp [hp, Ne.symm hg]
      · simp [hq]
    · rw [hc, hct, Function.update_of_ne hg]

lemma Counted.congr {g' : Event} (h : Counted s g') {t : Gates} (hwt : t.wants = s.wants)
    (hct : t.waiters = s.waiters) : Counted t g' := by
  rwa [Counted, hwt, hct]

lemma Inv.lock (h : Inv gate s) (hpc : s.sys.pc = .run) (hi : s.sys.SELF ≠ s.sys.iprocp)
    (hw : s.wants s.sys.SELF = none) (hh : s.holds s.sys.SELF g = false)
    (hroom : s.locked g = true → s.waiters g ≠ 255) : Inv gate (tryLock s g) := by
  refine ⟨h.toCore.tryLock hpc hi hh, fun g' => ?_⟩
  unfold Gate.tryLock
  split_ifs with hl
  · exact (h.counted g').add (hroom hl) hw rfl rfl
  · refine (h.counted g').congr ?_ rfl
    rw [← hw, Function.update_eq_self]

lemma Inv.relock (h : Inv gate s) (hpc : s.sys.pc = .run) (hi : s.sys.SELF ≠ s.sys.iprocp)
    (hw : s.wants s.sys.SELF = some g) : Inv gate (relock s g) := by
  have hc : Core gate { s with waiters := Function.update s.waiters g (s.waiters g - 1) } :=
    ⟨h.queues, h.waits, h.inside, h.alone, h.occupied, h.woken, h.outside⟩
  refine ⟨hc.tryLock hpc hi (h.outside _ _ hw), fun g' => ?_⟩
  unfold Gate.relock Gate.tryLock
  split_ifs with hl
  · refine (h.counted g').congr ?_ ?_
    · rw [← hw, Function.update_eq_self]
    · simp
  · exact (h.counted g').drop hw rfl rfl

/-- **One step** keeps the invariant if the count has room. -/
lemma step_inv {o : Op} (h : Inv gate s) (hst : Step gate s o t) (hroom : Roomy s o) :
    Inv gate t := by
  cases hst with
  | proc hst hsleep =>
    exact ⟨h.toCore.proc hst hsleep, fun g => (h.counted g).congr rfl rfl⟩
  | lock hg hpc hi hw hh => exact h.lock hpc hi hw hh hroom
  | relock hpc hi hw => exact h.relock hpc hi hw
  | unlock hh => exact ⟨h.toCore.unlock hh, fun g => (h.counted g).congr rfl rfl⟩
  | test ht => exact ⟨h.test, fun g => (h.counted g).congr rfl rfl⟩
  | turn ht =>
    refine ⟨h.toCore.turn ht, fun g => ?_⟩
    unfold Gate.turn
    split <;> exact (h.counted g).congr rfl rfl

lemma Initial.inv (h : Initial s) : Inv gate s where
  queues := ⟨⟨h.booted.inv.nodup, h.booted.inv.linked, h.booted.inv.asleep, h.booted.inv.queued,
    h.booted.inv.idle⟩, h.booted.inv.self, h.booted.inv.chosen⟩
  waits p g _ hs := absurd hs.1 (h.booted.awake p)
  inside p g hp := by simp [h.holds] at hp
  alone p q g hp := by simp [h.holds] at hp
  occupied g hl := by simp [h.locked] at hl
  woken p g _ hs := absurd hs.1 (h.booted.awake p)
  outside p g hw := by simp [h.wants] at hw
  counted g := ⟨∅, by simp [h.wants], by simp [h.waiters]⟩

lemma Inv.guarded (h : Inv gate s) : Guarded gate s := by
  intro p g hg hs
  rcases h.woken p g hg hs with hl | ht | hk
  · obtain ⟨q, hq⟩ := h.occupied g hl
    refine .inl ⟨q, ?_, hq⟩
    rintro rfl
    simp [h.outside _ _ (h.waits _ g hg hs)] at hq
  · exact .inr (.inl ⟨ht, h.waiters_ne hg hs⟩)
  · exact .inr (.inr hk)

lemma Inv.onQueues (h : Inv gate s) : OnQueues s.sys where
  run := h.queues.nodup
  link := h.queues.linked
  one p k hp := by
    obtain ⟨hs, hk⟩ := (h.queues.asleep p k).mp hp
    refine ⟨fun hm => by simpa [hs] using h.queues.queued p hm, fun k' hp' => ?_⟩
    rw [← hk, ((h.queues.asleep p k').mp hp').2]
  asleep p hs := (h.queues.asleep p _).mpr ⟨hs, rfl⟩

end Waiting

/-! ### The 256th waiter -/

section Full

def quiet : Gates where
  sys := booted
  locked _ := false
  waiters _ := 0
  wants _ := none
  holds _ _ := false
  testing _ := 0
  waking _ := 0

lemma quiet_initial : Initial quiet :=
  ⟨booted_booted, fun _ => rfl, fun _ => rfl, fun _ => rfl, fun _ _ => rfl⟩

/-- The one gate of the example is at address 2. -/
abbrev Door (e : Event) : Prop := e = 2

/-- Process 1 is inside, and processes 2 to `k + 1` wait. -/
structure Crowd (k : ℕ) (s : Gates) : Prop where
  runq : s.sys.runq = []
  self : s.sys.SELF = 1
  pc : s.sys.pc = .run
  iprocp : s.sys.iprocp = 0
  core : ∀ p, s.sys.core p = true
  linkq : s.sys.linkq 2 = []
  fresh : ∀ p, k + 2 ≤ p → s.sys.p_state p ≠ .PSSLEEP ∧ s.wants p = none
  locked : s.locked 2 = true
  waiters : s.waiters 2 = BitVec.ofNat 8 k
  holds : ∀ p, s.holds p 2 = true ↔ p = 1
  first : 0 < k → SleepsAt s.sys 2 2
  testing : s.testing 2 = 0
  waking : s.waking 2 = 0

lemma setrun_runq_nil {s : Sys} {p : Pid} (h : s.runq = []) : (setrun s p).runq = [p] := by
  obtain ⟨a, b, he, he', -⟩ := setrun_spec (s := s) (p := p) (by simp [h]) (by simp [h])
  rw [h] at he
  obtain ⟨rfl, rfl⟩ := List.append_eq_nil_iff.mp he.symm
  exact he'

lemma dispatch_one {s : Sys} {p : Pid} (h : s.runq = [p]) (hc : s.core p = true) :
    (dispatch s).1 = p ∧ (dispatch s).2.runq = [] ∧ (dispatch s).2.core = s.core := by
  simp [dispatch, h, pick, hc, addNext]

/-- The processor goes over to the only process on the run queue. -/
lemma handover {s₀ s : Gates} {ops : List Op} {p : Pid} (hrun : Run (Step Door) s₀ ops s)
    (hpc : s.sys.pc = .leaving) (hr : s.sys.runq = [p]) (hc : s.sys.core p = true) :
    ∃ ops t, Run (Step Door) s₀ ops { s with sys := t } ∧ t.SELF = p ∧ t.pc = .run ∧ t.runq = [] ∧
      t.linkq = s.sys.linkq ∧ t.p_state = s.sys.p_state ∧ t.p_event = s.sys.p_event ∧
      t.iprocp = s.sys.iprocp ∧ t.core = s.sys.core := by
  obtain ⟨hd, hr', hc'⟩ := dispatch_one hr hc
  obtain ⟨hl, he, hst, hi, -, -⟩ := dispatch_frame s.sys
  have h1 : Step Door s (.proc .dispatch) _ := .proc (.dispatch hpc) (by rintro e cl ⟨⟩)
  have h2 : Step Door { s with sys := { (dispatch s.sys).2 with pc := .chosen (dispatch s.sys).1 } }
      (.proc .switch) _ := .proc (.switch rfl) (by rintro e cl ⟨⟩)
  exact ⟨_, _, (hrun.snoc h1).snoc h2, hd, rfl, hr', hl, hst, he, hi, hc'⟩

lemma wakeup_one {s : Sys} {e : Event} {p : Pid} (hl : s.linkq (Proc.hash e) = [p])
    (he : s.p_event p = e) (hr : s.runq = []) : (wakeup s e).runq = [p] ∧
      (wakeup s e).p_state = Function.update s.p_state p .PSRUN ∧
      (wakeup s e).linkq = Function.update s.linkq (Proc.hash e) [] ∧
      (wakeup s e).p_event = s.p_event ∧ (wakeup s e).iprocp = s.iprocp ∧
      (wakeup s e).SELF = s.SELF ∧ (wakeup s e).pc = s.pc ∧ (wakeup s e).core = s.core := by
  have hf : (s.linkq (Proc.hash e)).find? (fun pp => s.p_event pp = e) = some p := by
    rw [hl]; simp [he]
  unfold wakeup
  rw [hf]
  refine ⟨setrun_runq_nil hr, rfl, ?_, rfl, rfl, rfl, rfl, rfl⟩
  simp only [wake, setrun_linkq]
  rw [he, hl]
  simp

/-- Process 1 makes a child, gives it the processor for as long as it sleeps on the event 4,
and is woken. -/
lemma Crowd.child {s₀ s : Gates} {ops : List Op} {k : ℕ} (h : Crowd k s)
    (hrun : Run (Step Door) s₀ ops s) :
    ∃ ops u, Run (Step Door) s₀ ops { s with sys := u } ∧ u.SELF = k + 2 ∧ u.pc = .run ∧
      u.runq = [1] ∧ u.linkq 2 = [] ∧ u.iprocp = 0 ∧ (∀ p, u.core p = true) ∧
      ∀ p, p ≠ 1 → p ≠ k + 2 → u.p_state p = s.sys.p_state p ∧ u.p_event p = s.sys.p_event p := by
  have h1 : Step Door s (.proc (.pfork (k + 2))) _ :=
    .proc (.pfork h.pc (by simp [h.runq]) (h.fresh _ le_rfl).1 (by rw [h.self]; simp)
      (by rw [h.iprocp]; exact Nat.succ_ne_zero _)) (by rintro e cl ⟨⟩)
  have h2 : Step Door { s with sys := pfork s.sys (k + 2) } (.proc (.sleep 4 0)) _ :=
    .proc (.sleep 4 0 h.pc (by simp [pfork, h.self, h.iprocp])) (by rintro e cl ⟨⟩; decide)
  obtain ⟨ops3, u, r3, uself, upc, urunq, ulinkq, ustate, uevent, uiprocp, ucore⟩ :=
    handover (p := k + 2) ((hrun.snoc h1).snoc h2) rfl (setrun_runq_nil h.runq) (h.core _)
  have hself : (pfork s.sys (k + 2)).SELF = 1 := h.self
  -- process 1 sleeps alone on the event 4
  have ul : u.linkq (Proc.hash 4) = [1] := by
    rw [ulinkq]
    simp only [Proc.sleep, Function.update_self, hself]
    show s.sys.linkq 2 ++ [1] = [1]
    rw [h.linkq]; rfl
  have ue : u.p_event 1 = 4 := by
    rw [uevent]
    simp only [Proc.sleep, hself, Function.update_self]
  have h4 : Step Door { s with sys := u } (.proc (.wakeup 4)) _ :=
    .proc (.wakeup 4) (by rintro e cl ⟨⟩)
  obtain ⟨wr, ws, wl, we, wi, wself, wpc, wc⟩ := wakeup_one ul ue urunq
  refine ⟨_, _, r3.snoc h4, wself.trans uself, wpc.trans upc, wr, ?_, ?_, ?_, ?_⟩
  · rw [wl]; exact Function.update_self ..
  · rw [wi, uiprocp]; exact h.iprocp
  · intro p
    rw [wc, ucore]; exact h.core p
  · intro p hp1 hpk
    rw [ws, we, ustate, uevent, Function.update_of_ne hp1]
    simp only [Proc.sleep, hself, Function.update_of_ne hp1]
    simp only [pfork, setrun_state, setrun_event, Function.update_of_ne hpk, and_self]

/-- The child waits at the gate. -/
lemma Crowd.more {s₀ s : Gates} {ops : List Op} {k : ℕ} (h : Crowd k s)
    (hrun : Run (Step Door) s₀ ops s) : ∃ ops t, Run (Step Door) s₀ ops t ∧ Crowd (k + 1) t := by
  obtain ⟨ops', u, r, uself, upc, urunq, ulinkq, uiprocp, ucore, uframe⟩ := h.child hrun
  have hck : k + 2 ≠ 1 := by omega
  have hlock : Step Door { s with sys := u } (.lock 2) (tryLock { s with sys := u } 2) := by
    refine .lock rfl upc ?_ ?_ ?_ <;> dsimp only <;> rw [uself]
    · rw [uiprocp]; exact Nat.succ_ne_zero _
    · exact (h.fresh _ le_rfl).2
    · by_contra hh
      exact hck ((h.holds _).mp (by simpa using hh))
  have r5 := r.snoc hlock
  rw [tryLock, if_pos h.locked] at r5
  obtain ⟨ops6, v, r6, vself, vpc, vrunq, vlinkq, vstate, vevent, viprocp, vcore⟩ :=
    handover (p := 1) r5 rfl urunq (ucore 1)
  refine ⟨_, _, r6, ⟨vrunq, vself, vpc, viprocp.trans uiprocp, ?_, ?_, ?_, h.locked, ?_, h.holds, ?_,
    h.testing, h.waking⟩⟩
  · intro p
    rw [vcore]; exact ucore p
  · rw [vlinkq]
    simp only [Proc.sleep]
    rw [Function.update_of_ne (by decide)]
    exact ulinkq
  · intro p hp
    have hpk : p ≠ k + 2 := by omega
    dsimp only
    rw [vstate, uself, Function.update_of_ne hpk]
    simp only [Proc.sleep, uself, Function.update_of_ne hpk]
    rw [(uframe p (by omega) hpk).1]
    exact h.fresh p (by omega)
  · simp only [Function.update_self, h.waiters]
    rw [BitVec.ofNat_add]
    rfl
  · intro _
    rw [SleepsAt, vstate, vevent]
    simp only [Proc.sleep, uself]
    rcases Nat.eq_zero_or_pos k with rfl | hk
    · simp
    · have hne : (2 : ℕ) ≠ k + 2 := by omega
      simp only [Function.update_of_ne hne]
      rw [(uframe 2 (by decide) hne).1, (uframe 2 (by decide) hne).2]
      exact h.first hk

/-- Process 1 has locked the gate. -/
lemma crowd_zero : Run (Step Door) quiet [.lock 2] (tryLock quiet 2) ∧ Crowd 0 (tryLock quiet 2) := by
  refine ⟨.snoc (.nil _) (.lock rfl rfl (by decide) rfl rfl), rfl, rfl, rfl, rfl, fun _ => rfl, rfl,
    fun p hp => ⟨by simp [tryLock, quiet, booted], ?_⟩, rfl, rfl, fun p => ?_, by simp, rfl, rfl⟩
  · simp [tryLock, quiet]
  · simp [tryLock, quiet, update_update_apply, booted]

lemma crowd_run (k : ℕ) : ∃ ops s, Run (Step Door) quiet ops s ∧ Crowd k s := by
  induction k with
  | zero => exact ⟨_, _, crowd_zero⟩
  | succ k ih =>
    obtain ⟨ops, s, hrun, h⟩ := ih
    exact h.more hrun

lemma run_proc {s₀ s : Gates} {ops : List Op} {o : Proc.Op} {u : Sys}
    (hrun : Run (RoomyStep Door) s₀ ops s) (hst : Proc.Step s.sys o u) (hne : ∀ cl, o ≠ .sleep 2 cl) :
    Run (RoomyStep Door) s₀ (ops ++ [.proc o]) { s with sys := u } :=
  hrun.snoc ⟨.proc hst (by rintro e cl rfl rfl; exact hne cl rfl), trivial⟩

end Full

end Coherent.Gate
