import Mathlib.Tactic

/-!
The common part of the typewriter drivers: `ttin`, `ttout`, `ttread`, `ttstart` and what they call.

Characters are numbers, and the queues are lists into which a character always fits. The special
characters are of type `char`, which has a sign. Columns are counted without a limit.
-/

namespace Coherent.Tty

def NCIB : ℕ := 256
def OHILIM : ℕ := 128
def OLOLIM : ℕ := 40
def IHILIM : ℕ := 512
def ILOLIM : ℕ := 40
def ITSLIM : ℕ := IHILIM - IHILIM / 4

/-- The backslash. -/
def ESC : ℕ := 0x5c

structure Sgttyb where
  sg_erase : Int8
  sg_kill : Int8
  RAWIN : Bool
  RAWOUT : Bool
  CRMOD : Bool
  XTABS : Bool
  ECHO : Bool
  CRT : Bool
  CBREAK : Bool
  TANDEM : Bool

structure Tchars where
  t_intrc : Int8
  t_quitc : Int8
  t_startc : Int8
  t_stopc : Int8
  t_eofc : Int8
  t_brkc : Int8

/-- What processes sleep on. -/
inductive Event
  | t_iq
  | t_oq
  deriving DecidableEq

/-- A `TTY`, with the bits of its flag word that the functions here use. The buffer `t_ib` holds
`t_ibx` characters. -/
structure TTY (δ : Type*) where
  t_oq : List ℕ
  t_iq : List ℕ
  t_ddp : δ
  T_HILIM : Bool
  T_DRAIN : Bool
  T_INPUT : Bool
  T_INL : Bool
  T_STOP : Bool
  T_TSTOP : Bool
  T_ISTOP : Bool
  T_CARR : Bool
  T_BRD : Bool
  t_nfill : ℕ
  t_fillb : ℕ
  t_ib : List ℕ
  t_hpos : ℕ
  t_opos : ℕ
  t_sgttyb : Sgttyb
  t_tchars : Tchars
  t_group : ℕ
  t_escape : ℕ
  /-- the calls of `wakeup`, the last one first -/
  woken : List Event

variable {δ : Type*}

def TTY.ISINTR (tp : TTY δ) (c : ℕ) : Prop := tp.t_tchars.t_intrc.toInt = c
def TTY.ISQUIT (tp : TTY δ) (c : ℕ) : Prop := tp.t_tchars.t_quitc.toInt = c
def TTY.ISSTOP (tp : TTY δ) (c : ℕ) : Prop := tp.t_tchars.t_stopc.toInt = c
def TTY.ISSTART (tp : TTY δ) (c : ℕ) : Prop := tp.t_tchars.t_startc.toInt = c
def TTY.ISEOF (tp : TTY δ) (c : ℕ) : Prop := tp.t_tchars.t_eofc.toInt = c
def TTY.ISBRK (tp : TTY δ) (c : ℕ) : Prop := tp.t_tchars.t_brkc.toInt = c
def TTY.ISERASE (tp : TTY δ) (c : ℕ) : Prop := tp.t_sgttyb.sg_erase.toInt = c
def TTY.ISKILL (tp : TTY δ) (c : ℕ) : Prop := tp.t_sgttyb.sg_kill.toInt = c
def TTY.ISBBYB (tp : TTY δ) : Bool := tp.t_sgttyb.RAWIN || tp.t_sgttyb.CBREAK

section
variable (tp : TTY δ) (c : ℕ)
instance : Decidable (tp.ISINTR c) := inferInstanceAs (Decidable (_ = _))
instance : Decidable (tp.ISQUIT c) := inferInstanceAs (Decidable (_ = _))
instance : Decidable (tp.ISSTOP c) := inferInstanceAs (Decidable (_ = _))
instance : Decidable (tp.ISSTART c) := inferInstanceAs (Decidable (_ = _))
instance : Decidable (tp.ISEOF c) := inferInstanceAs (Decidable (_ = _))
instance : Decidable (tp.ISBRK c) := inferInstanceAs (Decidable (_ = _))
instance : Decidable (tp.ISERASE c) := inferInstanceAs (Decidable (_ = _))
instance : Decidable (tp.ISKILL c) := inferInstanceAs (Decidable (_ = _))
end

/-- The defaults of a terminal that is opened. -/
def ttopen (tp : TTY δ) : TTY δ :=
  { tp with
    t_escape := 0
    t_sgttyb :=
      { sg_erase := 0x08, sg_kill := 0x40, RAWIN := false, RAWOUT := false, CRMOD := true
        XTABS := true, ECHO := true, CRT := true, CBREAK := false, TANDEM := false }
    t_tchars :=
      { t_intrc := 0x03, t_quitc := 0x1c, t_startc := 0x11, t_stopc := 0x13, t_eofc := 0x04
        t_brkc := -1 } }

def putoq (tp : TTY δ) (c : ℕ) : TTY δ := { tp with t_oq := tp.t_oq ++ [c] }
def puts (tp : TTY δ) (cs : List ℕ) : TTY δ := { tp with t_oq := tp.t_oq ++ cs }
def putiq (tp : TTY δ) (c : ℕ) : TTY δ := { tp with t_iq := tp.t_iq ++ [c] }
def wakeup (tp : TTY δ) (e : Event) : TTY δ := { tp with woken := e :: tp.woken }

/-- The column behind a tab, `(h | 07) + 1`. -/
def tabstop (h : ℤ) : ℤ := h / 8 * 8 + 8

/-- The column after the character `c` has gone out. -/
def column (h c : ℕ) : ℕ :=
  if c = 0x08 then h - 1
  else if c = 0x0d then 0
  else if c = 0x09 then (tabstop h).toNat
  else if 0x20 ≤ c ∧ c ≤ 0x7e then h + 1
  else h

/-- The first half of `ttout`: where the next character comes from. -/
def fetch (tp : TTY δ) : Option (ℕ × TTY δ) :=
  if tp.t_nfill ≠ 0 then some (tp.t_fillb, { tp with t_nfill := tp.t_nfill - 1 })
  else if tp.T_INL then some (0x0a, { tp with T_INL := false })
  else match tp.t_oq with
    | [] => none
    | c :: oq =>
      if tp.t_sgttyb.RAWOUT then some (c, { tp with t_oq := oq })
      else if c = 0x0a ∧ tp.t_sgttyb.CRMOD then some (0x0d, { tp with t_oq := oq, T_INL := true })
      else if c = 0x09 ∧ tp.t_sgttyb.XTABS then
        -- `~(t_hpos | ~07)`
        some (0x20, { tp with t_oq := oq, t_nfill := 7 - tp.t_hpos % 8, t_fillb := 0x20 })
      else some (c, { tp with t_oq := oq })

/-- The next character for the device; `none` is the result `-1`. -/
def ttout (tp : TTY δ) : Option (ℕ × TTY δ) :=
  (fetch tp).map fun r =>
    (r.1, if r.2.t_sgttyb.RAWOUT then r.2 else { r.2 with t_hpos := column r.2.t_hpos r.1 })

/-- The device takes so many characters, if there are that many. -/
def pull : ℕ → TTY δ → TTY δ
  | 0, tp => tp
  | k + 1, tp =>
    match ttout tp with
    | none => tp
    | some r => pull k r.2

/-- A device: its start routine takes characters, and keeps its own state. -/
structure Driver (δ : Type*) where
  t_start : TTY δ → TTY δ
  pulls : ∀ tp, ∃ k d, t_start tp = { pull k tp with t_ddp := d }

/-- Start output, unless it is stopped, and wake up who waits for that. -/
def ttstart (dr : Driver δ) (tp : TTY δ) : TTY δ :=
  if tp.T_STOP then tp
  else if tp.T_DRAIN ∧ tp.t_oq = [] ∧ tp.T_INL = false ∧ tp.t_nfill = 0 then
    wakeup { tp with T_DRAIN := false } .t_oq
  else
    let n := tp.T_HILIM
    let tp := dr.t_start tp
    if n ∧ tp.t_oq.length ≤ OLOLIM then wakeup { tp with T_HILIM := false } .t_oq else tp

def ttflush (tp : TTY δ) : TTY δ :=
  let tp := { tp with
    t_iq := [], t_oq := [], t_ib := [], t_escape := 0
    T_HILIM := false, T_DRAIN := false, T_INPUT := false, T_INL := false
    T_STOP := false, T_TSTOP := false, T_ISTOP := false }
  wakeup (wakeup tp .t_iq) .t_oq

/-- What a signal to the process group does to the terminal. -/
def ttsignal (tp : TTY δ) : TTY δ := if tp.t_group = 0 then tp else ttflush tp

/-- Put a character into the buffer, or the buffer with the end of its line into the queue. -/
def ttstash (tp : TTY δ) (c : ℕ) : TTY δ :=
  if c = 0x0a ∨ tp.ISEOF c ∨ tp.ISBRK c then
    let tp := { tp with
      t_iq := tp.t_iq ++ (tp.t_ib ++ [c]).map (· % 128)
      t_ib := []
      t_escape := 0 }
    if tp.T_INPUT then wakeup { tp with T_INPUT := false } .t_iq else tp
  else if tp.t_ib.length < NCIB - 1 then { tp with t_ib := tp.t_ib ++ [c] }
  else tp

/-- The escapes that were counted go into the buffer, as far as there is room. -/
def unescape (tp : TTY δ) : TTY δ :=
  let k := min tp.t_escape (NCIB - 1 - tp.t_ib.length)
  { tp with t_ib := tp.t_ib ++ List.replicate k ESC, t_escape := tp.t_escape - k }

/-- The column that `ttin` counts for the characters of the buffer. -/
def recount (n : ℤ) (ib : List ℕ) : ℤ :=
  ib.foldl (fun n c =>
    let n := if 0x80 ≤ c then n + 1 else n
    let c := c % 128
    if c = 0x08 then n - 1 else if c = 0x09 then tabstop n else n + 1) n

/-- What `ttin` puts out for an erase, where the erased character was `dc` and `c` was typed;
`none` if it returns at once. -/
def erasure (tp : TTY δ) (c dc : ℕ) : Option (List ℕ) :=
  let quoted : List ℕ :=
    if 0x80 ≤ dc then (if dc % 128 ≠ 0x08 then [0x08] else []) ++ [0x20, 0x08] else []
  if tp.t_sgttyb.CRT = false then some ([c] ++ quoted)
  else
    let c := dc % 128
    if c = 0x07 ∨ c = 0 ∨ c = 0x7f then none
    else if c ≠ 0x08 ∧ c ≠ 0x09 then some ([0x08, 0x20, 0x08] ++ quoted)
    else if c = 0x09 then
      let n := recount (tp.t_opos + tp.t_escape) tp.t_ib
      some (List.replicate (tp.t_hpos - n).toNat 0x08 ++ quoted)
    else some quoted

def unecho (dr : Driver δ) (tp : TTY δ) (c dc : ℕ) : TTY δ :=
  match erasure tp c dc with
  | none => tp
  | some cs => ttstart dr (puts tp cs)

/-- A character that is neither erase nor kill goes into the queue, or the buffer. -/
def enter (tp : TTY δ) (c : ℕ) : TTY δ :=
  if tp.ISBBYB then
    let tp := putiq tp c
    if tp.T_INPUT then wakeup { tp with T_INPUT := false } .t_iq else tp
  else
    let tp := if tp.t_ib = [] then { tp with t_opos := tp.t_hpos } else tp
    if c = ESC then { tp with t_escape := (tp.t_escape + 1) % 65536 } else ttstash tp c

/-- The end of `ttin`. -/
def accept (dr : Driver δ) (tp : TTY δ) (c : ℕ) : TTY δ :=
  let tp := enter tp c
  let tp :=
    if tp.t_sgttyb.ECHO ∧ (tp.t_sgttyb.RAWIN ∨ ¬ tp.ISEOF c) then ttstart dr (putoq tp c) else tp
  if tp.t_iq.length ≥ IHILIM then { tp with T_ISTOP := true }
  else if tp.t_sgttyb.TANDEM ∧ tp.T_TSTOP = false ∧ tp.t_iq.length ≥ ITSLIM then
    ttstart dr (putoq { tp with T_TSTOP := true } tp.t_tchars.t_stopc.toUInt8.toNat)
  else tp

/-- The part of `ttin` behind the checks for signals and flow control. -/
def edit (dr : Driver δ) (tp : TTY δ) (c : ℕ) : TTY δ :=
  if tp.t_escape ≠ 0 then
    let r : TTY δ × ℕ :=
      if c = ESC then ({ tp with t_escape := (tp.t_escape + 1) % 65536 }, c)
      else
        let r := if tp.ISERASE c ∨ tp.ISKILL c then
          ({ tp with t_escape := tp.t_escape - 1 }, c ||| 0x80) else (tp, c)
        (ttstash (unescape r.1) r.2, r.2)
    if tp.t_sgttyb.ECHO then ttstart dr (putoq r.1 (r.2 % 128)) else r.1
  else if tp.ISERASE c ∧ tp.t_sgttyb.CBREAK = false then
    let tp := unescape tp
    match tp.t_ib.getLast? with
    | none => tp
    | some dc =>
      let tp := { tp with t_ib := tp.t_ib.dropLast }
      if tp.t_sgttyb.ECHO then unecho dr tp c dc else tp
  else if tp.ISKILL c ∧ tp.t_sgttyb.CBREAK = false then
    let tp := { tp with t_ib := [], t_escape := 0 }
    if tp.t_sgttyb.ECHO then
      let tp := if c < 0x20 then putoq (putoq tp 0x5e) (c + 0x40) else putoq tp c
      ttstart dr (putoq tp 0x0a)
    else tp
  else accept dr tp c

/-- A character has come in. -/
def ttin (dr : Driver δ) (tp : TTY δ) (c : ℕ) : TTY δ :=
  if tp.t_sgttyb.RAWIN then if tp.T_ISTOP then tp else accept dr tp c
  else
    let c := c % 128
    if tp.ISINTR c then ttsignal tp
    else if tp.ISQUIT c then ttsignal tp
    else if tp.ISSTOP c then { tp with T_STOP := true }
    else if tp.ISSTART c then ttstart dr { tp with T_STOP := false }
    else if tp.T_ISTOP then tp
    else edit dr tp (if c = 0x0d ∧ tp.t_sgttyb.CRMOD then 0x0a else c)

/-- How `ttread` ends: with the bytes read, with the error `EIO`, or asleep until there is more
input, with some bytes still wanted. -/
inductive Ending
  | done
  | error
  | sleep (io_ioc : ℕ)
  deriving DecidableEq

/-- What `ttread` does when it has taken a character out of a queue that is getting short. -/
def relieve (dr : Driver δ) (tp : TTY δ) : TTY δ :=
  if tp.t_iq.length ≤ ILOLIM then
    let tp := { tp with T_ISTOP := false }
    if tp.T_TSTOP then
      ttstart dr (putoq { tp with T_TSTOP := false } tp.t_tchars.t_startc.toUInt8.toNat)
    else tp
  else tp

/-- The loop of `ttread`, for a reader that wanted `sioc` bytes and has got `buf`. -/
def ttread (dr : Driver δ) (sioc : ℕ) : ℕ → List ℕ → TTY δ → Ending × List ℕ × TTY δ
  | 0, buf, tp => (.done, buf, tp)
  | n + 1, buf, tp =>
    match tp.t_iq with
    | [] =>
      if tp.T_CARR = false then (.error, buf, tp)
      else if tp.ISBBYB ∧ tp.T_BRD = false ∧ n + 1 < sioc then (.done, buf, tp)
      else (.sleep (n + 1), buf, { tp with T_INPUT := true })
    | c :: iq =>
      let tp := relieve dr { tp with t_iq := iq }
      if tp.ISBBYB = false ∧ tp.ISEOF c then (.done, buf, tp)
      else if tp.ISBBYB = false ∧ (c = 0x0a ∨ tp.ISBRK c) then (.done, buf ++ [c], tp)
      else ttread dr sioc n (buf ++ [c]) tp

/-! ### Output and input are apart -/

/-- What the input side of a terminal consists of. -/
structure SameInput (tp tp' : TTY δ) : Prop where
  t_iq : tp'.t_iq = tp.t_iq
  t_ib : tp'.t_ib = tp.t_ib
  t_escape : tp'.t_escape = tp.t_escape
  T_ISTOP : tp'.T_ISTOP = tp.T_ISTOP
  T_CARR : tp'.T_CARR = tp.T_CARR
  t_sgttyb : tp'.t_sgttyb = tp.t_sgttyb
  t_tchars : tp'.t_tchars = tp.t_tchars

variable {tp tp' tp'' : TTY δ} {dr : Driver δ} {c dc k : ℕ}

@[refl] lemma SameInput.refl (tp : TTY δ) : SameInput tp tp := ⟨rfl, rfl, rfl, rfl, rfl, rfl, rfl⟩

lemma SameInput.trans (h : SameInput tp tp') (h' : SameInput tp' tp'') : SameInput tp tp'' :=
  ⟨h'.t_iq.trans h.t_iq, h'.t_ib.trans h.t_ib, h'.t_escape.trans h.t_escape,
    h'.T_ISTOP.trans h.T_ISTOP, h'.T_CARR.trans h.T_CARR, h'.t_sgttyb.trans h.t_sgttyb,
    h'.t_tchars.trans h.t_tchars⟩

lemma sameInput_putoq : SameInput tp (putoq tp c) := ⟨rfl, rfl, rfl, rfl, rfl, rfl, rfl⟩

lemma sameInput_puts {cs : List ℕ} : SameInput tp (puts tp cs) :=
  ⟨rfl, rfl, rfl, rfl, rfl, rfl, rfl⟩

lemma sameInput_fetch {r : ℕ × TTY δ} (h : fetch tp = some r) : SameInput tp r.2 := by
  unfold fetch at h
  split at h
  · obtain rfl := Option.some.inj h
    exact ⟨rfl, rfl, rfl, rfl, rfl, rfl, rfl⟩
  split at h
  · obtain rfl := Option.some.inj h
    exact ⟨rfl, rfl, rfl, rfl, rfl, rfl, rfl⟩
  split at h
  · cases h
  split_ifs at h
  all_goals
    obtain rfl := Option.some.inj h
    exact ⟨rfl, rfl, rfl, rfl, rfl, rfl, rfl⟩

lemma sameInput_ttout {r : ℕ × TTY δ} (h : ttout tp = some r) : SameInput tp r.2 := by
  obtain ⟨f, hf, rfl⟩ := Option.map_eq_some_iff.mp h
  refine (sameInput_fetch hf).trans ?_
  split_ifs <;> exact ⟨rfl, rfl, rfl, rfl, rfl, rfl, rfl⟩

lemma sameInput_pull : SameInput tp (pull k tp) := by
  induction k generalizing tp with
  | zero => exact .refl tp
  | succ k ih =>
    rw [pull]
    cases h : ttout tp with
    | none => exact .refl tp
    | some r => exact (sameInput_ttout h).trans ih

lemma sameInput_ttstart : SameInput tp (ttstart dr tp) := by
  unfold ttstart
  split
  · exact .refl tp
  split
  · exact ⟨rfl, rfl, rfl, rfl, rfl, rfl, rfl⟩
  · obtain ⟨k, d, hk⟩ := dr.pulls tp
    have hs : SameInput tp (dr.t_start tp) := by
      rw [hk]
      exact sameInput_pull.trans ⟨rfl, rfl, rfl, rfl, rfl, rfl, rfl⟩
    dsimp only
    split
    · exact hs.trans ⟨rfl, rfl, rfl, rfl, rfl, rfl, rfl⟩
    · exact hs

lemma sameInput_unecho : SameInput tp (unecho dr tp c dc) := by
  unfold unecho
  split
  · exact .refl tp
  · exact sameInput_puts.trans sameInput_ttstart

end Coherent.Tty
