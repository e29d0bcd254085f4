import Coherent.Lib.Run
import Coherent.TtyErase

/-!
Processes that wait for a terminal's output: `ttwrite`, `ttclose`, the drain of `ttioctl`, and the
interrupts that start output.

A process runs until it sleeps, but interrupts come wherever it is not at high priority. The drivers
give `ttwrite` the high priority and call `ttclose` and `ttioctl` with it.
-/

namespace Coherent.Tty

open Coherent.Lib

/-- A device that interrupts when it can take more. -/
structure Device (δ : Type*) extends Driver δ where
  /-- a transmit interrupt will come -/
  due : δ → Bool
  /-- the device when the interrupt has been taken -/
  taken : δ → δ

/-- Where a process is. -/
inductive Pc
  | idle
  /-- at the head of the loop of `ttwrite` -/
  | ttwrite (cs : List ℕ)
  /-- with a character to put into the queue -/
  | put (c : ℕ) (cs : List ℕ)
  /-- asleep until the queue is short -/
  | full (c : ℕ) (cs : List ℕ)
  /-- at the head of the loop of `ttclose` -/
  | ttclose
  /-- behind its test -/
  | closing
  /-- asleep in there -/
  | linger
  /-- behind the loop -/
  | shut
  /-- at the loop of `ttioctl` -/
  | drain (flush : Bool)
  /-- asleep in there -/
  | draining (flush : Bool)
  deriving DecidableEq

def Pc.wake : Pc → Pc
  | full c cs => put c cs
  | linger => ttclose
  | draining flush => drain flush
  | pc => pc

/-- Asleep for the queue to drain. -/
def Pc.Drains : Pc → Prop
  | linger | draining _ => True
  | _ => False

/-- Asleep for the queue to fall below its limit. -/
def Pc.Limited : Pc → Prop
  | full _ _ => True
  | _ => False

/-- A terminal, and the processes `ι` that use it. -/
structure System (ι δ : Type*) where
  tp : TTY δ
  pc : ι → Pc

variable {ι δ : Type*}

/-- The calls of `wakeup` take effect. -/
def System.wake (s : System ι δ) : System ι δ :=
  { tp := { s.tp with woken := [] }
    pc := if .t_oq ∈ s.tp.woken then fun p => (s.pc p).wake else s.pc }

/-- The process `p` has left the terminal like this, and has got there. -/
def System.go [DecidableEq ι] (s : System ι δ) (p : ι) (r : TTY δ × Pc) : System ι δ :=
  let s := System.wake ⟨r.1, s.pc⟩
  { s with pc := Function.update s.pc p r.2 }

/-- The inner loop of `ttwrite`. -/
def putTurn (dr : Driver δ) (tp : TTY δ) (c : ℕ) (cs : List ℕ) : TTY δ × Pc :=
  if tp.t_oq.length ≥ OHILIM then
    let tp := ttstart dr tp
    if tp.t_oq.length < OHILIM then (putoq tp c, .ttwrite cs)
    else ({ tp with T_HILIM := true }, .full c cs)
  else (putoq tp c, .ttwrite cs)

/-- The end of `ttioctl`. -/
def endioctl (tp : TTY δ) (flush : Bool) : TTY δ × Pc :=
  (if flush then ttflush tp else tp, .idle)

/-- The loop of `ttioctl`. -/
def drainTurn (tp : TTY δ) (flush : Bool) : TTY δ × Pc :=
  if tp.t_oq ≠ [] then ({ tp with T_DRAIN := true }, .draining flush) else endioctl tp flush

/-- What `ttioctl` does in front of it. -/
def unstop (dr : Driver δ) (tp : TTY δ) : TTY δ :=
  if tp.t_sgttyb.RAWIN ∧ tp.T_STOP then ttstart dr { tp with T_STOP := false } else tp

/-- A step of a process, or of the device, a signal or another interrupt. -/
inductive Waits [DecidableEq ι] (dev : Device δ) : System ι δ → Option ι → System ι δ → Prop
  | write {s : System ι δ} {p : ι} (hp : s.pc p = .idle) (cs : List ℕ) :
      Waits dev s (some p) { s with pc := Function.update s.pc p (.ttwrite cs) }
  | next {s : System ι δ} {p : ι} {c : ℕ} {cs : List ℕ} (hp : s.pc p = .ttwrite (c :: cs)) :
      Waits dev s (some p)
        { s with pc := Function.update s.pc p (if s.tp.T_CARR then .put c cs else .idle) }
  | put {s : System ι δ} {p : ι} {c : ℕ} {cs : List ℕ} (hp : s.pc p = .put c cs) :
      Waits dev s (some p) (s.go p (putTurn dev.toDriver s.tp c cs))
  | last {s : System ι δ} {p : ι} (hp : s.pc p = .ttwrite []) :
      Waits dev s (some p) (s.go p (ttstart dev.toDriver s.tp, .idle))
  | close {s : System ι δ} {p : ι} (hp : s.pc p = .idle) :
      Waits dev s (some p) { s with pc := Function.update s.pc p .ttclose }
  | test {s : System ι δ} {p : ι} (hp : s.pc p = .ttclose) :
      Waits dev s (some p)
        { s with pc := Function.update s.pc p (if s.tp.t_oq ≠ [] then .closing else .shut) }
  | retest {s : System ι δ} {p : ι} (hp : s.pc p = .closing) :
      Waits dev s (some p)
        (s.go p (if s.tp.t_oq ≠ [] then ({ s.tp with T_DRAIN := true }, .linger)
          else (s.tp, .ttclose)))
  | shut {s : System ι δ} {p : ι} (hp : s.pc p = .shut) :
      Waits dev s (some p)
        (s.go p ({ ttflush s.tp with T_CARR := false, T_BRD := false, t_group := 0 }, .idle))
  | ioctl {s : System ι δ} {p : ι} (hp : s.pc p = .idle) (m : Sgttyb) (h : Tchars)
      (drain flush : Bool) :
      Waits dev s (some p)
        (s.go p (if drain then
            drainTurn (unstop dev.toDriver { s.tp with t_sgttyb := m, t_tchars := h }) flush
          else endioctl { s.tp with t_sgttyb := m, t_tchars := h } flush))
  | drain {s : System ι δ} {p : ι} {flush : Bool} (hp : s.pc p = .drain flush) :
      Waits dev s (some p) (s.go p (drainTurn s.tp flush))
  /-- something else wakes up a process -/
  | resume {s : System ι δ} (p : ι) :
      Waits dev s none { s with pc := Function.update s.pc p (s.pc p).wake }
  /-- a signal is found -/
  | quitput {s : System ι δ} {p : ι} {c : ℕ} {cs : List ℕ} (hp : s.pc p = .put c cs) :
      Waits dev s (some p) { s with pc := Function.update s.pc p .idle }
  | quitclose {s : System ι δ} {p : ι} (hp : s.pc p = .ttclose) :
      Waits dev s (some p) { s with pc := Function.update s.pc p .shut }
  | quitdrain {s : System ι δ} {p : ι} {flush : Bool} (hp : s.pc p = .drain flush) :
      Waits dev s (some p) (s.go p (endioctl s.tp flush))
  | transmit {s : System ι δ} (hd : dev.due s.tp.t_ddp) :
      Waits dev s none
        (System.wake
          ⟨ttstart dev.toDriver { s.tp with t_ddp := dev.taken s.tp.t_ddp }, s.pc⟩)
  | receive {s : System ι δ} (c : ℕ) :
      Waits dev s none (System.wake ⟨ttin dev.toDriver s.tp c, s.pc⟩)
  | device {s : System ι δ} {d : δ} (hd : dev.due s.tp.t_ddp → dev.due d) :
      Waits dev s none { s with tp := { s.tp with t_ddp := d } }
  | hangup {s : System ι δ} (carr : Bool) :
      Waits dev s none (System.wake ⟨ttflush { s.tp with T_CARR := carr }, s.pc⟩)

/-- Output is stopped, an interrupt is due, or the queue is not empty. -/
def Live (dev : Device δ) (tp : TTY δ) : Prop :=
  tp.T_STOP ∨ dev.due tp.t_ddp ∨ tp.t_oq ≠ []

/-- The device will interrupt when it has been started with something to go out. -/
def Interrupts (dev : Device δ) : Prop :=
  ∀ tp, ¬ Drained tp → dev.due (dev.t_start tp).t_ddp

/-- All who wait are woken up, or what they wait for is still going to come. -/
structure Keeps (dev : Device δ) (tp tp' : TTY δ) : Prop where
  woken : .t_oq ∈ tp.woken → .t_oq ∈ tp'.woken
  kept : .t_oq ∈ tp'.woken ∨ ((tp.T_DRAIN → tp'.T_DRAIN) ∧ (tp.T_HILIM → tp'.T_HILIM) ∧
    (tp.T_DRAIN ∨ tp.T_HILIM → Live dev tp → Live dev tp'))

variable {tp tp' tp'' : TTY δ} {dev : Device δ} {c dc k : ℕ} {s s' : System ι δ} {p : ι}

/-! ### What keeps a wake-up coming -/

@[refl] lemma Keeps.refl (tp : TTY δ) : Keeps dev tp tp := ⟨id, .inr ⟨id, id, fun _ hl => hl⟩⟩

lemma Keeps.trans (h : Keeps dev tp tp') (h' : Keeps dev tp' tp'') : Keeps dev tp tp'' := by
  refine ⟨fun hw => h'.woken (h.woken hw), ?_⟩
  rcases h.kept with hw | ⟨h1, h2, h3⟩
  · exact .inl (h'.woken hw)
  rcases h'.kept with hw | ⟨h4, h5, h6⟩
  · exact .inl hw
  · exact .inr ⟨fun hd => h4 (h1 hd), fun hh => h5 (h2 hh),
      fun hd hl => h6 (hd.imp h1 h2) (h3 hd hl)⟩

lemma keeps_puts {cs : List ℕ} : Keeps dev tp (puts tp cs) := by
  refine ⟨id, .inr ⟨id, id, fun _ hl => hl.imp_right fun hl => hl.imp_right fun hne hnil => ?_⟩⟩
  exact hne (List.append_eq_nil_iff.mp hnil).1

lemma keeps_putoq : Keeps dev tp (putoq tp c) := keeps_puts

lemma keeps_ttflush : Keeps dev tp (ttflush tp) :=
  ⟨fun _ => List.mem_cons_self, .inl List.mem_cons_self⟩

/-- What a pull leaves alone. -/
lemma pull_flags : (pull k tp).T_DRAIN = tp.T_DRAIN ∧ (pull k tp).T_HILIM = tp.T_HILIM ∧
    (pull k tp).T_STOP = tp.T_STOP ∧ (pull k tp).woken = tp.woken := by
  induction k generalizing tp with
  | zero => exact ⟨rfl, rfl, rfl, rfl⟩
  | succ k ih =>
    rw [pull]
    cases hr : ttout tp with
    | none => exact ⟨rfl, rfl, rfl, rfl⟩
    | some r =>
      have hout : r.2.T_DRAIN = tp.T_DRAIN ∧ r.2.T_HILIM = tp.T_HILIM ∧
          r.2.T_STOP = tp.T_STOP ∧ r.2.woken = tp.woken := by
        obtain ⟨f, hf, rfl⟩ := Option.map_eq_some_iff.mp hr
        have hfetch : f.2.T_DRAIN = tp.T_DRAIN ∧ f.2.T_HILIM = tp.T_HILIM ∧
            f.2.T_STOP = tp.T_STOP ∧ f.2.woken = tp.woken := by
          unfold fetch at hf
          split at hf
          · obtain rfl := Option.some.inj hf
            exact ⟨rfl, rfl, rfl, rfl⟩
          split at hf
          · obtain rfl := Option.some.inj hf
            exact ⟨rfl, rfl, rfl, rfl⟩
          split at hf
          · cases hf
          split_ifs at hf
          all_goals
            obtain rfl := Option.some.inj hf
            exact ⟨rfl, rfl, rfl, rfl⟩
        dsimp only
        split_ifs <;> exact hfetch
      obtain ⟨h1, h2, h3, h4⟩ := @ih r.2
      exact ⟨h1.trans hout.1, h2.trans hout.2.1, h3.trans hout.2.2.1, h4.trans hout.2.2.2⟩

lemma ttout_drained (hd : Drained tp) : ttout tp = none := by
  obtain ⟨h1, h2, h3⟩ := hd
  simp [ttout, fetch, h1, h2, h3]

lemma pull_drained (hd : Drained tp) : pull k tp = tp := by
  cases k with
  | zero => rfl
  | succ k => rw [pull, ttout_drained hd]

/-- **`ttstart`** wakes up all who wait, or has output going on. -/
lemma ttstart_live (hdev : Interrupts dev) : .t_oq ∈ (ttstart dev.toDriver tp).woken ∨
    ((tp.T_DRAIN → (ttstart dev.toDriver tp).T_DRAIN) ∧
      (tp.T_HILIM → (ttstart dev.toDriver tp).T_HILIM) ∧
      (tp.T_DRAIN ∨ tp.T_HILIM → Live dev (ttstart dev.toDriver tp))) := by
  unfold ttstart
  by_cases hstop : tp.T_STOP
  · rw [if_pos hstop]
    exact .inr ⟨id, id, fun _ => .inl hstop⟩
  rw [if_neg hstop]
  by_cases hdrain : tp.T_DRAIN ∧ tp.t_oq = [] ∧ tp.T_INL = false ∧ tp.t_nfill = 0
  · rw [if_pos hdrain]
    exact .inl List.mem_cons_self
  rw [if_neg hdrain]
  have hdue := hdev tp
  obtain ⟨k, d, hk⟩ := dev.pulls tp
  obtain ⟨h1, h2, -, -⟩ := @pull_flags δ tp k
  dsimp only
  rw [hk] at hdue ⊢
  dsimp only at hdue ⊢
  by_cases hlow : tp.T_HILIM ∧ (pull k tp).t_oq.length ≤ OLOLIM
  · rw [if_pos hlow]
    exact .inl List.mem_cons_self
  rw [if_neg hlow]
  refine .inr ⟨fun hd => h1.trans hd, fun hh => h2.trans hh, fun hwait => ?_⟩
  by_cases hd : Drained tp
  · -- nothing was left to go out
    have hnil : (pull k tp).t_oq = [] := by rw [pull_drained hd, hd.1]
    rcases hwait with hw | hw
    · exact absurd ⟨hw, hd.1, hd.2.2, hd.2.1⟩ hdrain
    · exact absurd ⟨hw, by rw [hnil]; exact Nat.zero_le _⟩ hlow
  · exact .inr (.inl (hdue hd))

lemma ttstart_woken (hw : .t_oq ∈ tp.woken) : .t_oq ∈ (ttstart dev.toDriver tp).woken := by
  unfold ttstart
  split_ifs with h1 h2
  · exact hw
  · exact List.mem_cons_of_mem _ hw
  · obtain ⟨k, d, hk⟩ := dev.pulls tp
    obtain ⟨-, -, -, h3⟩ := @pull_flags δ tp k
    dsimp only
    rw [hk]
    split_ifs
    · exact List.mem_cons_self
    · rw [← h3] at hw
      exact hw

/-- Starting output, whatever has happened to the device and to flow control. -/
lemma keeps_restart (hdev : Interrupts dev) (hd : tp'.T_DRAIN = tp.T_DRAIN)
    (hh : tp'.T_HILIM = tp.T_HILIM) (hw : tp'.woken = tp.woken) :
    Keeps dev tp (ttstart dev.toDriver tp') := by
  refine ⟨fun h => ttstart_woken (by rwa [hw]), ?_⟩
  rw [← hd, ← hh]
  exact (ttstart_live hdev).imp_right fun h => ⟨h.1, h.2.1, fun hw _ => h.2.2 hw⟩

lemma keeps_ttstart (hdev : Interrupts dev) : Keeps dev tp (ttstart dev.toDriver tp) :=
  keeps_restart hdev rfl rfl rfl

/-- Output and its waiters are left alone. -/
structure SameOutput (tp tp' : TTY δ) : Prop where
  t_oq : tp'.t_oq = tp.t_oq
  t_ddp : tp'.t_ddp = tp.t_ddp
  T_DRAIN : tp'.T_DRAIN = tp.T_DRAIN
  T_HILIM : tp'.T_HILIM = tp.T_HILIM
  T_STOP : tp'.T_STOP = tp.T_STOP
  woken : .t_oq ∈ tp.woken → .t_oq ∈ tp'.woken

lemma SameOutput.keeps (h : SameOutput tp tp') : Keeps dev tp tp' := by
  refine ⟨h.woken, .inr ⟨fun hd => h.T_DRAIN.trans hd, fun hh => h.T_HILIM.trans hh,
    fun _ hl => ?_⟩⟩
  unfold Live
  rw [h.T_STOP, h.t_ddp, h.t_oq]
  exact hl

/-! ### Input -/

lemma sameOutput_ttstash : SameOutput tp (ttstash tp c) := by
  unfold ttstash
  dsimp only
  split_ifs
  · exact ⟨rfl, rfl, rfl, rfl, rfl, List.mem_cons_of_mem _⟩
  · exact ⟨rfl, rfl, rfl, rfl, rfl, id⟩
  · exact ⟨rfl, rfl, rfl, rfl, rfl, id⟩
  · exact ⟨rfl, rfl, rfl, rfl, rfl, id⟩

lemma sameOutput_enter : SameOutput tp (enter tp c) := by
  unfold enter
  dsimp only
  split_ifs
  · exact ⟨rfl, rfl, rfl, rfl, rfl, List.mem_cons_of_mem _⟩
  · exact ⟨rfl, rfl, rfl, rfl, rfl, id⟩
  · exact ⟨rfl, rfl, rfl, rfl, rfl, id⟩
  · exact ⟨rfl, rfl, rfl, rfl, rfl, id⟩
  · obtain ⟨h1, h2, h3, h4, h5, h6⟩ := @sameOutput_ttstash δ { tp with t_opos := tp.t_hpos } c
    exact ⟨h1, h2, h3, h4, h5, h6⟩
  · exact sameOutput_ttstash

lemma keeps_unecho (hdev : Interrupts dev) : Keeps dev tp (unecho dev.toDriver tp c dc) := by
  unfold unecho
  split
  · exact .refl tp
  · exact keeps_puts.trans (keeps_ttstart hdev)

lemma keeps_ttsignal : Keeps dev tp (ttsignal tp) := by
  unfold ttsignal
  split_ifs
  · exact .refl tp
  · exact keeps_ttflush

/-- Something is put out. -/
lemma keeps_echo (hdev : Interrupts dev) (h : SameOutput tp tp') :
    Keeps dev tp (ttstart dev.toDriver (putoq tp' c)) :=
  (h.keeps.trans keeps_putoq).trans (keeps_ttstart hdev)

lemma keeps_accept (hdev : Interrupts dev) : Keeps dev tp (accept dev.toDriver tp c) := by
  unfold accept
  dsimp only
  have hecho : Keeps dev tp (if (enter tp c).t_sgttyb.ECHO ∧
      ((enter tp c).t_sgttyb.RAWIN ∨ ¬ (enter tp c).ISEOF c) then
        ttstart dev.toDriver (putoq (enter tp c) c) else enter tp c) := by
    split_ifs
    · exact keeps_echo hdev sameOutput_enter
    · exact sameOutput_enter.keeps
  refine hecho.trans ?_
  generalize (if (enter tp c).t_sgttyb.ECHO ∧
      ((enter tp c).t_sgttyb.RAWIN ∨ ¬ (enter tp c).ISEOF c) then
        ttstart dev.toDriver (putoq (enter tp c) c) else enter tp c) = tp₁
  split_ifs
  · exact SameOutput.keeps ⟨rfl, rfl, rfl, rfl, rfl, id⟩
  · exact keeps_echo hdev ⟨rfl, rfl, rfl, rfl, rfl, id⟩
  · exact .refl tp₁

lemma keeps_edit (hdev : Interrupts dev) : Keeps dev tp (edit dev.toDriver tp c) := by
  unfold edit
  by_cases hesc : tp.t_escape ≠ 0
  · -- behind escapes
    rw [if_pos hesc]
    have hstash : ∀ {tp' : TTY δ} {k : ℕ}, SameOutput tp tp' →
        SameOutput tp (ttstash (unescape tp') k) := by
      intro tp' k h
      obtain ⟨h1, h2, h3, h4, h5, h6⟩ := @sameOutput_ttstash δ (unescape tp') k
      exact ⟨h1.trans h.t_oq, h2.trans h.t_ddp, h3.trans h.T_DRAIN, h4.trans h.T_HILIM,
        h5.trans h.T_STOP, fun hw => h6 (h.woken hw)⟩
    have hecho : ∀ r : TTY δ × ℕ, SameOutput tp r.1 → Keeps dev tp
        (if tp.t_sgttyb.ECHO then ttstart dev.toDriver (putoq r.1 (r.2 % 128)) else r.1) := by
      intro r hr
      split_ifs
      · exact keeps_echo hdev hr
      · exact hr.keeps
    refine hecho _ ?_
    split_ifs
    · exact ⟨rfl, rfl, rfl, rfl, rfl, id⟩
    · exact hstash ⟨rfl, rfl, rfl, rfl, rfl, id⟩
    · exact hstash ⟨rfl, rfl, rfl, rfl, rfl, id⟩
  rw [if_neg hesc]
  by_cases hE : tp.ISERASE c ∧ tp.t_sgttyb.CBREAK = false
  · -- erase
    rw [if_pos hE]
    dsimp only
    split
    · exact SameOutput.keeps ⟨rfl, rfl, rfl, rfl, rfl, id⟩
    · split_ifs
      · refine Keeps.trans (SameOutput.keeps ?_) (keeps_unecho hdev)
        exact ⟨rfl, rfl, rfl, rfl, rfl, id⟩
      · exact SameOutput.keeps ⟨rfl, rfl, rfl, rfl, rfl, id⟩
  rw [if_neg hE]
  by_cases hK : tp.ISKILL c ∧ tp.t_sgttyb.CBREAK = false
  · -- kill
    have hclear : SameOutput tp { tp with t_ib := [], t_escape := 0 } :=
      ⟨rfl, rfl, rfl, rfl, rfl, id⟩
    rw [if_pos hK]
    dsimp only
    split_ifs
    · refine Keeps.trans ?_ (keeps_ttstart hdev)
      exact ((hclear.keeps.trans keeps_putoq).trans keeps_putoq).trans keeps_putoq
    · refine Keeps.trans ?_ (keeps_ttstart hdev)
      exact (hclear.keeps.trans keeps_putoq).trans keeps_putoq
    · exact hclear.keeps
  · rw [if_neg hK]
    exact keeps_accept hdev

lemma keeps_ttin (hdev : Interrupts dev) : Keeps dev tp (ttin dev.toDriver tp c) := by
  unfold ttin
  dsimp only
  split_ifs
  · exact .refl tp
  · exact keeps_accept hdev
  · exact keeps_ttsignal
  · exact keeps_ttsignal
  · exact ⟨id, .inr ⟨id, id, fun _ _ => .inl rfl⟩⟩
  · exact keeps_restart hdev rfl rfl rfl
  · exact .refl tp
  · exact keeps_edit hdev
  · exact keeps_edit hdev

/-! ### Processes -/

/-- Who sleeps has set the flag, and a wake-up will come. -/
structure Safe (dev : Device δ) (s : System ι δ) : Prop where
  woken : s.tp.woken = []
  drain : ∀ p, (s.pc p).Drains → s.tp.T_DRAIN
  hilim : ∀ p, (s.pc p).Limited → s.tp.T_HILIM
  live : ∀ p, (s.pc p).Drains ∨ (s.pc p).Limited → Live dev s.tp

lemma not_asleep_wake (pc : Pc) : ¬ (pc.wake.Drains ∨ pc.wake.Limited) := by
  cases pc <;> simp [Pc.wake, Pc.Drains, Pc.Limited]

lemma Safe.wake (hs : Safe dev s) (hk : Keeps dev s.tp tp') :
    Safe dev (System.wake ⟨tp', s.pc⟩) := by
  unfold System.wake
  dsimp only
  by_cases hw : Event.t_oq ∈ tp'.woken
  · rw [if_pos hw]
    exact ⟨rfl, fun p hp => absurd (.inl hp) (not_asleep_wake (s.pc p)),
      fun p hp => absurd (.inr hp) (not_asleep_wake (s.pc p)),
      fun p hp => absurd hp (not_asleep_wake (s.pc p))⟩
  · rw [if_neg hw]
    obtain ⟨h1, h2, h3⟩ := hk.kept.resolve_left hw
    exact ⟨rfl, fun p hp => h1 (hs.drain p hp), fun p hp => h2 (hs.hilim p hp),
      fun p hp => h3 (hp.imp (hs.drain p) (hs.hilim p)) (hs.live p hp)⟩

/-- A process goes somewhere, awake or asleep for what is still to come. -/
lemma Safe.update [DecidableEq ι] {pc : Pc} (hs : Safe dev s) (hd : pc.Drains → s.tp.T_DRAIN)
    (hl : pc.Limited → s.tp.T_HILIM) (hlive : pc.Drains ∨ pc.Limited → Live dev s.tp) :
    Safe dev { s with pc := Function.update s.pc p pc } := by
  refine ⟨hs.woken, fun q hq => ?_, fun q hq => ?_, fun q hq => ?_⟩
  all_goals
    dsimp only at hq
    rcases eq_or_ne q p with rfl | hne
    · rw [Function.update_self] at hq
      first
        | exact hd hq
        | exact hl hq
        | exact hlive hq
    · rw [Function.update_of_ne hne] at hq
      first
        | exact hs.drain q hq
        | exact hs.hilim q hq
        | exact hs.live q hq

/-- A process that does not sleep. -/
lemma Safe.awake [DecidableEq ι] {pc : Pc} (hs : Safe dev s) (hpc : ¬ (pc.Drains ∨ pc.Limited)) :
    Safe dev { s with pc := Function.update s.pc p pc } :=
  hs.update (fun hd => absurd (.inl hd) hpc) (fun hl => absurd (.inr hl) hpc)
    fun h => absurd h hpc

lemma Safe.go [DecidableEq ι] {r : TTY δ × Pc} (hs : Safe dev s) (hk : Keeps dev s.tp r.1)
    (hd : r.2.Drains → r.1.T_DRAIN) (hl : r.2.Limited → r.1.T_HILIM)
    (hlive : r.2.Drains ∨ r.2.Limited → Live dev r.1) : Safe dev (s.go p r) :=
  (hs.wake hk).update hd hl hlive

lemma Safe.go_awake [DecidableEq ι] {r : TTY δ × Pc} (hs : Safe dev s) (hk : Keeps dev s.tp r.1)
    (hpc : ¬ (r.2.Drains ∨ r.2.Limited)) : Safe dev (s.go p r) :=
  (hs.wake hk).awake hpc

lemma keeps_unstop (hdev : Interrupts dev) : Keeps dev tp (unstop dev.toDriver tp) := by
  unfold unstop
  split_ifs
  · exact keeps_restart hdev rfl rfl rfl
  · exact .refl tp

lemma keeps_endioctl {flush : Bool} : Keeps dev tp (endioctl tp flush).1 := by
  unfold endioctl
  dsimp only
  split_ifs
  · exact keeps_ttflush
  · exact .refl tp

/-- A process goes to sleep where the queue is not empty. -/
lemma Safe.sleep [DecidableEq ι] {pc : Pc} (hs : Safe dev s) (hk : Keeps dev s.tp tp')
    (hd : pc.Drains → tp'.T_DRAIN) (hl : pc.Limited → tp'.T_HILIM) (hne : tp'.t_oq ≠ []) :
    Safe dev (s.go p (tp', pc)) :=
  hs.go hk hd hl fun _ => .inr (.inr hne)

lemma Safe.drainTurn [DecidableEq ι] {flush : Bool} (hs : Safe dev s)
    (hk : Keeps dev s.tp tp') : Safe dev (s.go p (drainTurn tp' flush)) := by
  unfold Tty.drainTurn
  split_ifs with hne
  · have hset : Keeps dev tp' { tp' with T_DRAIN := true } :=
      ⟨id, .inr ⟨fun _ => rfl, id, fun _ hl => hl⟩⟩
    exact hs.sleep (hk.trans hset) (fun _ => rfl) (fun hl => hl.elim) hne
  · exact hs.go_awake (hk.trans keeps_endioctl) (by simp [endioctl, Pc.Drains, Pc.Limited])

lemma Safe.putTurn [DecidableEq ι] {cs : List ℕ} (hdev : Interrupts dev) (hs : Safe dev s) :
    Safe dev (s.go p (putTurn dev.toDriver s.tp c cs)) := by
  unfold Tty.putTurn
  dsimp only
  split_ifs with hhigh hlow
  · exact hs.go_awake ((keeps_ttstart hdev).trans keeps_putoq) (by simp [Pc.Drains, Pc.Limited])
  · have hset : Keeps dev (ttstart dev.toDriver s.tp)
        { ttstart dev.toDriver s.tp with T_HILIM := true } :=
      ⟨id, .inr ⟨id, fun _ => rfl, fun _ hl => hl⟩⟩
    refine hs.sleep ((keeps_ttstart hdev).trans hset) (fun hd => hd.elim) (fun _ => rfl) ?_
    intro hnil
    dsimp only at hnil
    rw [hnil] at hlow
    exact hlow (by decide)
  · exact hs.go_awake keeps_putoq (by simp [Pc.Drains, Pc.Limited])

/-- **One step.** -/
lemma Safe.step [DecidableEq ι] {a : Option ι} (hdev : Interrupts dev) (hs : Safe dev s)
    (hst : Waits dev s a s') : Safe dev s' := by
  cases hst with
  | write hp cs => exact hs.awake (by simp [Pc.Drains, Pc.Limited])
  | next hp => exact hs.awake (by split_ifs <;> simp [Pc.Drains, Pc.Limited])
  | put hp => exact hs.putTurn hdev
  | last hp => exact hs.go_awake (keeps_ttstart hdev) (by simp [Pc.Drains, Pc.Limited])
  | close hp => exact hs.awake (by simp [Pc.Drains, Pc.Limited])
  | test hp => exact hs.awake (by split_ifs <;> simp [Pc.Drains, Pc.Limited])
  | retest hp =>
    split_ifs with hne
    · have hset : Keeps dev s.tp { s.tp with T_DRAIN := true } :=
        ⟨id, .inr ⟨fun _ => rfl, id, fun _ hl => hl⟩⟩
      exact hs.sleep hset (fun _ => rfl) (fun hl => hl.elim) hne
    · exact hs.go_awake (.refl s.tp) (by simp [Pc.Drains, Pc.Limited])
  | shut hp =>
    exact hs.go_awake ⟨fun _ => List.mem_cons_self, .inl List.mem_cons_self⟩
      (by simp [Pc.Drains, Pc.Limited])
  | ioctl hp m h drain flush =>
    have hmode : Keeps dev s.tp { s.tp with t_sgttyb := m, t_tchars := h } :=
      SameOutput.keeps ⟨rfl, rfl, rfl, rfl, rfl, id⟩
    split_ifs
    · exact hs.drainTurn (hmode.trans (keeps_unstop hdev))
    · exact hs.go_awake (hmode.trans keeps_endioctl) (by simp [endioctl, Pc.Drains, Pc.Limited])
  | drain hp => exact hs.drainTurn (.refl s.tp)
  | resume p => exact hs.awake (not_asleep_wake (s.pc p))
  | quitput hp => exact hs.awake (by simp [Pc.Drains, Pc.Limited])
  | quitclose hp => exact hs.awake (by simp [Pc.Drains, Pc.Limited])
  | quitdrain hp =>
    exact hs.go_awake keeps_endioctl (by simp [endioctl, Pc.Drains, Pc.Limited])
  | transmit hd => exact hs.wake (keeps_restart hdev rfl rfl rfl)
  | receive c => exact hs.wake (keeps_ttin hdev)
  | device hd =>
    exact ⟨hs.woken, hs.drain, hs.hilim,
      fun p hp => (hs.live p hp).imp_right fun hl => hl.imp_left hd⟩
  | hangup carr =>
    exact hs.wake ⟨fun _ => List.mem_cons_self, .inl List.mem_cons_self⟩

/-- **No wake-up is lost**, on a device that interrupts when it has been started with something to
go out: nobody sleeps for the queue to drain or to fall below its limit when it is empty, output is
not stopped and no transmit interrupt is due. -/
theorem output_waiters [DecidableEq ι] {as : List (Option ι)} (hdev : Interrupts dev)
    (hwoken : s.tp.woken = []) (hidle : ∀ p, s.pc p = .idle) (hrun : Run (Waits dev) s as s') :
    ¬ ∃ p, ((s'.pc p).Drains ∨ (s'.pc p).Limited) ∧ s'.tp.t_oq = [] ∧ s'.tp.T_STOP = false ∧
      dev.due s'.tp.t_ddp = false := by
  have hinit : Safe dev s := by
    refine ⟨hwoken, fun p hp => ?_, fun p hp => ?_, fun p hp => ?_⟩
    all_goals
      rw [hidle p] at hp
      simp [Pc.Drains, Pc.Limited] at hp
  have hend := hrun.invariant (fun s a t hs hst => hs.step hdev hst) hinit
  rintro ⟨p, hp, hnil, hstop, hdue⟩
  rcases hend.live p hp with h | h | h
  · rw [hstop] at h
    exact Bool.false_ne_true h
  · rw [hdue] at h
    exact Bool.false_ne_true h
  · exact h hnil

/-! ### Devices -/

lemma ttout_some (hd : ¬ Drained tp) : ∃ r, ttout tp = some r := by
  have hfetch : ∃ f, fetch tp = some f := by
    unfold fetch
    by_cases h1 : tp.t_nfill ≠ 0
    · exact ⟨_, if_pos h1⟩
    rw [if_neg h1]
    by_cases h2 : tp.T_INL
    · exact ⟨_, if_pos h2⟩
    rw [if_neg h2]
    split
    next h3 =>
      rw [not_not] at h1
      exact absurd ⟨h3, h1, by simpa using h2⟩ hd
    next => split_ifs <;> exact ⟨_, rfl⟩
  obtain ⟨f, hf⟩ := hfetch
  exact ⟨_, by rw [ttout, hf]; rfl⟩

/-- The start routine of the serial lines; the state is that the transmitter is not empty. -/
def alstart (tp : TTY Bool) : TTY Bool :=
  if tp.t_ddp then tp
  else match ttout tp with
    | none => tp
    | some r => { r.2 with t_ddp := true }

/-- A serial line, which interrupts when its transmitter gets empty. -/
def al : Device Bool where
  t_start := alstart
  pulls tp := by
    unfold alstart
    split
    · exact ⟨0, tp.t_ddp, rfl⟩
    · cases hr : ttout tp with
      | none => exact ⟨0, tp.t_ddp, rfl⟩
      | some r => exact ⟨1, true, by rw [pull, hr]; rfl⟩
  due := id
  taken _ := false

lemma al_interrupts : Interrupts al := by
  intro tp hd
  obtain ⟨r, hr⟩ := ttout_some hd
  change (alstart tp).t_ddp = true
  unfold alstart
  split
  · assumption
  · rw [hr]

/-- What is still to go out, counted generously. -/
def load (tp : TTY δ) : ℕ := tp.t_nfill + (if tp.T_INL then 1 else 0) + 8 * tp.t_oq.length

/-- The start routine of the screens, which take all there is. -/
def mmstart (tp : TTY δ) : TTY δ := pull (load tp) tp

/-- A screen, which never interrupts. -/
def mm : Device Unit where
  t_start := mmstart
  pulls tp := ⟨load tp, (), rfl⟩
  due _ := false
  taken _ := ()

/-- On a serial line, a process that has written two characters waits for the second. -/
lemma waits_al : ∃ (s : System Unit Bool) (as : List (Option Unit)),
    Run (Waits al) ⟨{ opened with t_ddp := false }, fun _ => .idle⟩ as s ∧
      s.pc () = .draining false := by
  have h1 : Run (Waits al) (⟨{ opened with t_ddp := false }, fun _ => .idle⟩ : System Unit Bool)
      [some (), some (), some ()] _ :=
    .snoc (.snoc (.snoc (.nil _) (.write (p := ()) rfl [0x61, 0x62])) (.next rfl)) (.put rfl)
  have h2 := Run.snoc h1 (@Waits.next Unit Bool _ al _ () 0x62 [] (by decide +kernel))
  have h3 := Run.snoc h2 (@Waits.put Unit Bool _ al _ () 0x62 [] (by decide +kernel))
  have h4 := Run.snoc h3 (@Waits.last Unit Bool _ al _ () (by decide +kernel))
  exact ⟨_, _, .snoc h4 (@Waits.ioctl Unit Bool _ al _ () (by decide +kernel) opened.t_sgttyb
    opened.t_tchars true false), by decide +kernel⟩

theorem output_waiters_al : ∃ (s : System Unit Bool) (as : List (Option Unit)),
    Run (Waits al) ⟨{ opened with t_ddp := false }, fun _ => .idle⟩ as s ∧
      s.pc () = .draining false ∧ ¬ ∃ p, ((s.pc p).Drains ∨ (s.pc p).Limited) ∧ s.tp.t_oq = [] ∧
        s.tp.T_STOP = false ∧ al.due s.tp.t_ddp = false := by
  obtain ⟨s, as, hrun, hd⟩ := waits_al
  exact ⟨s, as, hrun, hd, output_waiters al_interrupts rfl (fun _ => rfl) hrun⟩

/-- On a screen, a process drains output that is stopped; when it is started again all of it goes
out, and the process sleeps on. -/
theorem waits_mm : ∃ (s : System Unit Unit) (as : List (Option Unit)),
    Run (Waits mm) ⟨opened, fun _ => .idle⟩ as s ∧ s.pc () = .draining false ∧ s.tp.t_oq = [] ∧
      s.tp.T_STOP = false ∧ mm.due s.tp.t_ddp = false := by
  have h1 : Run (Waits mm) (⟨opened, fun _ => .idle⟩ : System Unit Unit)
      [none, some (), some (), some ()] _ :=
    .snoc (.snoc (.snoc (.snoc (.nil _) (.receive 0x13)) (.write (p := ()) rfl [0x61]))
      (@Waits.next Unit Unit _ mm _ () 0x61 [] (by decide +kernel)))
      (@Waits.put Unit Unit _ mm _ () 0x61 [] (by decide +kernel))
  have h2 := Run.snoc h1 (@Waits.last Unit Unit _ mm _ () (by decide +kernel))
  have h3 := Run.snoc h2 (@Waits.ioctl Unit Unit _ mm _ () (by decide +kernel) opened.t_sgttyb
    opened.t_tchars true false)
  exact ⟨_, _, .snoc h3 (.receive 0x11), by decide +kernel, by decide +kernel, by decide +kernel,
    by decide +kernel⟩

end Coherent.Tty
