import Coherent.Lib.Linked
import Coherent.Lib.Run

/-!
The message buffers of the HR driver: the free list, the queues of the clients, and the mouse
button messages that stand in front of the event manager's queue.

A process that is in the driver is not left for another one before it sleeps or returns, and it
never sleeps with a buffer in its hands. The keyboard interrupts it anywhere outside `sphi`; the
clock runs `hrmouse` only on the way back to the user.
-/

namespace Coherent.HrMsg

open Coherent.Lib

def NMBUF : ℕ := 100
def DESTMAX : ℕ := 20
def WINDOW : ℕ := 6
def DRIVER : ℕ := 0
def SMGR : ℕ := 1
def WMGR : ℕ := 2
def SM_KKEY : ℕ := 0
def SM_MKEY : ℕ := 1

abbrev Mbuf := Fin NMBUF
abbrev Dest := Fin DESTMAX

instance : NeZero NMBUF := ⟨by decide⟩
instance : NeZero DESTMAX := ⟨by decide⟩
local instance neZero_four : NeZero 4 := ⟨by decide⟩

/-- `m_dst` is another name of `m_src`. -/
structure Message where
  m_src : ℕ
  m_msg : Fin 4 → ℕ
  deriving DecidableEq

/-- A mouse button message of the driver. -/
def Message.isButton (m : Message) : Prop := m.m_src = DRIVER ∧ m.m_msg 0 = SM_MKEY

/-- The window manager of a client, as `hrload` sets it. -/
def wtype (d : Dest) : Dest :=
  if d.val < WINDOW + 8 then ⟨WMGR + 1, by decide⟩
  else if d.val < WINDOW + 10 then ⟨WMGR + 3, by decide⟩
  else ⟨WMGR + 2, by decide⟩

/-- The lists that are spliced. -/
structure Lists where
  mb_next : Mbuf → Option Mbuf
  mbufp : Option Mbuf
  head : Dest → Option Mbuf
  tail : Dest → Option Mbuf
  mstail : Option Mbuf
  /-- none: `NOEVMGR` -/
  hrsmgr : Option Dest

/-- What becomes of a message. -/
inductive Fate
  /-- copied out to client `d` as `m` -/
  | got (d : Dest) (m : Message)
  | flushed

/-- A message as it was linked: to client `d`, or to the button messages. -/
structure Entry where
  serial : ℕ
  line : Option Dest
  m : Message

/-- All messages ever linked, and those that have left, in their order. -/
structure Log where
  serial : ℕ
  ent : Mbuf → Entry
  line : Option Dest → List Entry
  past : Option Dest → List (Entry × Fate)

/-- Where the process stands that is in the driver. -/
inductive Pc
  /-- no process is, or it has neither a buffer nor a copied message -/
  | user
  /-- `CIOSENDM` has a buffer, `ukcopy` is next -/
  | sendm (self : Dest) (p : Mbuf)
  /-- `hralloc` has returned -/
  | request (self : Dest) (p : Mbuf)
  /-- at `hrlink` -/
  | link (d : Dest) (p : Mbuf)
  /-- at `hrunalloc` -/
  | unalloc (p : Mbuf)
  /-- `CIOGETM` has copied the message out, `hrfree` is next -/
  | copied (self : Dest) (m : Message)

/-- The buffer in the hands of the process. -/
def Pc.hand : Pc → List Mbuf
  | .sendm _ p | .request _ p | .link _ p | .unalloc p => [p]
  | .user | .copied _ _ => []

def Pc.isUser : Pc → Bool
  | .user => true
  | _ => false

def Pc.isSendm : Pc → Bool
  | .sendm _ _ => true
  | _ => false

def Pc.isRequest : Pc → Bool
  | .request _ _ => true
  | _ => false

def Pc.isLink : Pc → Bool
  | .link _ _ => true
  | _ => false

def Pc.isUnalloc : Pc → Bool
  | .unalloc _ => true
  | _ => false

def Pc.isCopied : Pc → Bool
  | .copied _ _ => true
  | _ => false

/-- What `evmfree` points to. -/
inductive Evmfree
  /-- `n` entries of `evmgr`, with a null pointer behind the last -/
  | entries (n : ℕ)
  /-- an address that was read through the null pointer: that of an entry whose `enext` is the
  `mb_next` of buffer `b`, or anything else -/
  | stray (b : Option Mbuf)
  deriving DecidableEq

structure State where
  q : Lists
  mb_m : Mbuf → Message
  evmfree : Evmfree
  /-- `edev` and `emsen` -/
  evmlist : List (Dest × Bool)
  hrislocked : Bool
  mshide : ℕ
  /-- `mousebuf.ms_en` -/
  ms_en : Bool
  pc : Pc
  /-- who sleeps in `CIOEVMGR` -/
  waiting : List Dest
  /-- something was written through a stray pointer; what comes after is not modelled -/
  broken : Bool
  log : Log

/-! ### The driver -/

/-- `n` buffers are reached from the pointer. -/
def reaches (mb_next : Mbuf → Option Mbuf) : ℕ → Option Mbuf → Bool
  | 0, _ => true
  | _ + 1, none => false
  | n + 1, some p => reaches mb_next n (mb_next p)

def ismbfree (q : Lists) : Bool := reaches q.mb_next 15 q.mbufp

def hrunalloc (q : Lists) (p : Mbuf) : Lists :=
  { q with
    mb_next := Function.update q.mb_next p q.mbufp
    mbufp := some p }

/-- The first message of the queue goes to the free list. -/
def hrfree (q : Lists) (self : Dest) : Lists :=
  match q.head self with
  | none => q
  | some p =>
    { q with
      head := Function.update q.head self (q.mb_next p)
      tail := if q.mb_next p = none then Function.update q.tail self none else q.tail
      mstail := if some p = q.mstail then none else q.mstail
      mb_next := Function.update q.mb_next p q.mbufp
      mbufp := some p }

def hrflush (q : Lists) (self : Dest) : Lists :=
  match q.head self with
  | none => q
  | some p =>
    { q with
      head := Function.update q.head self none
      mb_next :=
        match q.tail self with
        | none => q.mb_next
        | some t => Function.update q.mb_next t q.mbufp
      tail := Function.update q.tail self none
      mbufp := some p
      mstail := if some self = q.hrsmgr then none else q.mstail }

def hrlink (q : Lists) (dst : Dest) (p : Mbuf) : Lists :=
  match q.head dst with
  | some _ =>
    { q with
      mb_next :=
        match q.tail dst with
        | none => Function.update q.mb_next p none
        | some t => Function.update (Function.update q.mb_next t (some p)) p none
      tail := Function.update q.tail dst (some p) }
  | none =>
    { q with
      mb_next := Function.update q.mb_next p none
      head := Function.update q.head dst (some p)
      tail := Function.update q.tail dst (some p) }

/-- The old manager gives up its button messages. -/
def giveUp (q : Lists) (mgr : Dest) (t : Mbuf) : Lists :=
  { q with
    head := Function.update q.head mgr (q.mb_next t)
    tail := if q.mb_next t = none then Function.update q.tail mgr none else q.tail }

/-- The new manager gets them: the first is `p`, the last `t`. -/
def getThem (q : Lists) (self : Dest) (p : Option Mbuf) (t : Mbuf) : Lists :=
  { q with
    mb_next := Function.update q.mb_next t (q.head self)
    tail := if q.head self = none then Function.update q.tail self (some t) else q.tail
    head := Function.update q.head self p }

def hrevmgr (q : Lists) (self : Dest) : Lists :=
  match q.mstail, q.hrsmgr with
  | some t, some mgr =>
    { getThem (giveUp q mgr t) self (q.head mgr) t with hrsmgr := some self }
  | _, _ => { q with hrsmgr := some self }

/-- The button message in `p`, which is off the free list, goes behind the others. -/
def press (q : Lists) (mgr : Dest) (p : Mbuf) : Lists :=
  match q.mstail with
  | some t =>
    { q with
      tail := if q.mb_next t = none then Function.update q.tail mgr (some p) else q.tail
      mb_next := Function.update (Function.update q.mb_next p (q.mb_next t)) t (some p)
      mstail := some p }
  | none =>
    { q with
      tail := if q.head mgr = none then Function.update q.tail mgr (some p) else q.tail
      mb_next := Function.update q.mb_next p (q.head mgr)
      head := Function.update q.head mgr (some p)
      mstail := some p }

/-- The first free buffer is taken off its list. -/
def unlink (q : Lists) (p : Mbuf) : Lists := { q with mbufp := q.mb_next p }

/-! ### What is logged -/

/-- Message `m` in buffer `p` is linked. -/
def Log.note (g : Log) (l : Option Dest) (p : Mbuf) (m : Message) : Log :=
  { g with
    serial := g.serial + 1
    ent := Function.update g.ent p ⟨g.serial, l, m⟩
    line := Function.update g.line l (g.line l ++ [⟨g.serial, l, m⟩]) }

/-- The message in buffer `p` leaves. -/
def Log.leave (f : Fate) (g : Log) (p : Mbuf) : Log :=
  { g with
    past := Function.update g.past (g.ent p).line (g.past (g.ent p).line ++ [(g.ent p, f)]) }

/-! ### The steps -/

inductive Op
  /-- `CIOSENDM`, up to `ukcopy` -/
  | sendm (self : Dest)
  /-- `ukcopy` of the message, or its fault -/
  | copyin (r : Option Message)
  /-- `hralloc` of a window's request returns -/
  | hralloc (self : Dest)
  /-- the request is filled in; `ukcopy` of its parameters may fault -/
  | fill (r : Option (Fin 4 → ℕ))
  | hrlink
  | hrunalloc
  /-- `CIOGETM` has a message, and copies it out if `ok` -/
  | getm (self : Dest) (ok : Bool)
  | hrfree
  /-- `CIOFLUSH` -/
  | flush (self : Dest)
  /-- `CIOEVMGR`; `w` is what a null `evmfree` reads -/
  | evmgr (self : Dest) (w : Option Mbuf)
  /-- who slept in `CIOEVMGR` goes on -/
  | evmgrwoken (self : Dest) (w : Option Mbuf)
  /-- a signal ends the sleep -/
  | evmgrsig (self : Dest)
  /-- `hruevmgr`, from `CIOUEVMGR` or the last close -/
  | uevmgr (self : Dest)
  /-- `CIOHOLD` -/
  | hold (self : Dest)
  /-- `CIOUHOLD` -/
  | uhold (self : Dest)
  | hrmseon
  | hrmseoff
  | hrkey (hrticks key : ℕ)
  /-- `hrmouse` with a button changed -/
  | hrmouse (hrticks x y : ℕ)
  deriving DecidableEq

/-- An entry is taken from `evmfree` for the manager `mgr`. -/
def takeev (s : State) (mgr : Dest) (w : Option Mbuf) : State :=
  match s.evmfree with
  | .entries (n + 1) => { s with evmfree := .entries n, evmlist := (mgr, s.ms_en) :: s.evmlist }
  -- the entry at the null pointer: it is also the new `evmlist`
  | .entries 0 => { s with evmfree := .stray w, evmlist := [] }
  | .stray none => { s with broken := true }
  -- `ev->enext = evmlist`, where `evmlist` is null
  | .stray (some b) =>
    { s with
      q := { s.q with mb_next := Function.update s.q.mb_next b none }
      broken := true }

/-- The end of `CIOEVMGR`. -/
def become (s : State) (self : Dest) (w : Option Mbuf) : State :=
  let s1 := match s.q.hrsmgr with
    | none => s
    | some mgr => takeev s mgr w
  { s1 with q := HrMsg.hrevmgr s1.q self }

/-- `CIOEVMGR` goes on to its wait. -/
def wants (s : State) (self : Dest) : Prop :=
  self.val < WINDOW ∧ s.q.hrsmgr ≠ some self ∧ self ∉ s.evmlist.map Prod.fst

instance (s : State) (self : Dest) : Decidable (wants s self) :=
  inferInstanceAs (Decidable (_ ∧ _ ∧ _))

/-- `hrfree`, with what becomes of the message. -/
def freed (s : State) (self : Dest) (f : Fate) : State :=
  match s.q.head self with
  | none => s
  | some p => { s with q := HrMsg.hrfree s.q self, log := s.log.leave f p }

/-- `while ( mstail ) hrfree(self);` for at most `n` turns. -/
def drain : ℕ → State → Dest → State
  | 0, s, _ => s
  | n + 1, s, self => if s.q.mstail = none then s else drain n (freed s self .flushed) self

def Evmfree.put : Evmfree → Evmfree
  | .entries n => .entries (n + 1)
  | e => e

def hruevmgr (s : State) (self : Dest) : State :=
  if s.q.hrsmgr = some self then
    match s.evmlist with
    | [] =>
      let s1 := drain NMBUF s self
      { s1 with
        q := { s1.q with hrsmgr := none }
        mshide := 0
        ms_en := false
        hrislocked := false }
    | (edev, emsen) :: l =>
      { s with
        q := HrMsg.hrevmgr s.q edev
        evmlist := l
        evmfree := s.evmfree.put
        mshide := 0
        ms_en := emsen
        hrislocked := false }
  else if self ∈ s.evmlist.map Prod.fst then
    { s with
      evmlist := s.evmlist.eraseP fun e => e.1 = self
      evmfree := s.evmfree.put }
  else s

/-- A buffer is taken off the free list, and the process goes on with it. -/
def took (s : State) (f : Mbuf → Pc) : State :=
  match s.q.mbufp with
  | none => s
  | some p => { s with q := unlink s.q p, pc := f p }

/-- A buffer is linked. -/
def linked (s : State) (d : Dest) (p : Mbuf) : State :=
  { s with q := HrMsg.hrlink s.q d p, log := s.log.note (some d) p (s.mb_m p) }

/-- A message is put into a buffer. -/
def filled (s : State) (p : Mbuf) (m : Message) (pc : Pc) : State :=
  { s with mb_m := Function.update s.mb_m p m, pc := pc }

/-- When an operation can be the next step. -/
def Enabled (s : State) : Op → Prop
  | .sendm _ => s.broken = false ∧ s.pc.isUser
  | .copyin _ => s.pc.isSendm
  | .hralloc self => s.broken = false ∧ s.pc.isUser ∧ WINDOW ≤ self.val ∧ ismbfree s.q
  | .fill _ => s.pc.isRequest
  | .hrlink => s.pc.isLink
  | .hrunalloc => s.pc.isUnalloc
  | .getm self _ => s.broken = false ∧ s.pc.isUser ∧ s.q.head self ≠ none
  | .hrfree => s.pc.isCopied
  | .evmgrwoken self _ => s.broken = false ∧ s.pc.isUser ∧ self ∈ s.waiting ∧ s.hrislocked = false
  | .evmgrsig self => s.broken = false ∧ s.pc.isUser ∧ self ∈ s.waiting
  | .uevmgr self => s.broken = false ∧ s.pc.isUser ∧ self.val < WINDOW
  | .hrkey _ _ => s.broken = false
  | .hrmouse _ _ _ => s.broken = false ∧ s.pc.isUser ∧ s.ms_en = true ∧ s.q.hrsmgr ≠ none
  | _ => s.broken = false ∧ s.pc.isUser

instance (s : State) (op : Op) : Decidable (Enabled s op) := by
  cases op <;> simp only [Enabled] <;> infer_instance

/-- What the operation does. -/
def exec (s : State) : Op → State
  | .sendm self => if ismbfree s.q then took s (.sendm self) else s
  | .copyin r =>
    match s.pc, r with
    | .sendm _ p, none => { s with pc := .unalloc p }
    | .sendm self p, some m =>
      if h : m.m_src < DESTMAX then filled s p { m with m_src := self } (.link ⟨m.m_src, h⟩ p)
      else filled s p m (.unalloc p)
    | _, _ => s
  | .hralloc self => took s (.request self)
  | .fill r =>
    match s.pc, r with
    | .request _ p, none => { s with pc := .unalloc p }
    | .request self p, some w => filled s p ⟨self, w⟩ (.link (wtype self) p)
    | _, _ => s
  | .hrlink =>
    match s.pc with
    | .link d p => { linked s d p with pc := .user }
    | _ => s
  | .hrunalloc =>
    match s.pc with
    | .unalloc p => { s with q := HrMsg.hrunalloc s.q p, pc := .user }
    | _ => s
  | .getm self ok =>
    match ok, s.q.head self with
    | true, some p => { s with pc := .copied self (s.mb_m p) }
    | _, _ => s
  | .hrfree =>
    match s.pc with
    | .copied self m => { freed s self (.got self m) with pc := .user }
    | _ => s
  | .flush self =>
    { s with
      q := hrflush s.q self
      log := (reached s.q.mb_next NMBUF (s.q.head self)).foldl (Log.leave .flushed) s.log }
  | .evmgr self w =>
    if wants s self then
      if s.hrislocked then { s with waiting := self :: s.waiting } else become s self w
    else s
  | .evmgrwoken self w => become { s with waiting := s.waiting.erase self } self w
  | .evmgrsig self => { s with waiting := s.waiting.erase self }
  | .uevmgr self => hruevmgr s self
  | .hold self =>
    if s.q.hrsmgr = some self ∧ self.val ≠ SMGR then { s with hrislocked := true } else s
  | .uhold self => if s.q.hrsmgr = some self then { s with hrislocked := false } else s
  | .hrmseon =>
    if s.mshide = 0 then { s with ms_en := true }
    else if s.mshide = 1 then { s with mshide := 0, ms_en := true }
    else { s with mshide := s.mshide - 1 }
  | .hrmseoff => { s with mshide := s.mshide + 1, ms_en := s.ms_en && s.mshide ≠ 0 }
  | .hrkey hrticks key =>
    match s.q.hrsmgr, s.q.mbufp with
    | some mgr, some p =>
      linked { s with
        q := unlink s.q p
        mb_m := Function.update s.mb_m p
          ⟨DRIVER, ![SM_KKEY, hrticks, key, (s.mb_m p).m_msg 3]⟩ } mgr p
    | _, _ => s
  | .hrmouse hrticks x y =>
    match s.q.hrsmgr, s.q.mbufp with
    | some mgr, some p =>
      { s with
        q := press (unlink s.q p) mgr p
        mb_m := Function.update s.mb_m p ⟨DRIVER, ![SM_MKEY, hrticks, x, y]⟩
        log := s.log.note none p ⟨DRIVER, ![SM_MKEY, hrticks, x, y]⟩ }
    | _, _ => s

/-- One step of the driver. -/
def Step (s : State) (op : Op) (t : State) : Prop := Enabled s op ∧ exec s op = t

/-- The state that `hrload` leaves. -/
def hrload : State :=
  { q :=
      { mb_next := fun p => if h : p.val + 1 < NMBUF then some ⟨p.val + 1, h⟩ else none
        mbufp := some ⟨0, by decide⟩
        head := fun _ => none
        tail := fun _ => none
        mstail := none
        hrsmgr := none }
    mb_m := fun _ => ⟨0, fun _ => 0⟩
    evmfree := .entries WINDOW
    evmlist := []
    hrislocked := false
    mshide := 0
    ms_en := false
    pc := .user
    waiting := []
    broken := false
    log := ⟨0, fun _ => ⟨0, none, ⟨0, fun _ => 0⟩⟩, fun _ => [], fun _ => []⟩ }

/-! ### Where the buffers are -/

/-- A message waits in the line of the button messages, or in that of a client. -/
inductive Place
  | free
  | hand
  | waiting (l : Option Dest)
  deriving DecidableEq

/-- The queue of client `d`: the button messages stand in front, at the manager. -/
def queue (A : Place → List Mbuf) (mgr : Option Dest) (d : Dest) : List Mbuf :=
  (if mgr = some d then A (.waiting none) else []) ++ A (.waiting (some d))

/-- Each buffer has one place. -/
structure Placed (A : Place → List Mbuf) : Prop where
  nodup : ∀ pl, (A pl).Nodup
  place : ∃ f : Mbuf → Place, ∀ pl b, b ∈ A pl ↔ f b = pl

/-- The pointers make up the lists. -/
structure Shape (q : Lists) (A : Place → List Mbuf) : Prop where
  free : Linked q.mb_next q.mbufp (A .free)
  chain : ∀ d, Linked q.mb_next (q.head d) (queue A q.hrsmgr d)
  tail : ∀ d, queue A q.hrsmgr d ≠ [] → q.tail d = (queue A q.hrsmgr d).getLast?
  mstail : q.mstail = (A (.waiting none)).getLast?
  nomgr : q.hrsmgr = none → A (.waiting none) = []

/-- The first buffer of place `pl` has gone to `pl'`, where the buffers are now `l`. -/
def moved (A : Place → List Mbuf) (pl pl' : Place) (l : List Mbuf) : Place → List Mbuf :=
  Function.update (Function.update A pl (A pl).tail) pl' l

section Places

variable {q : Lists} {A : Place → List Mbuf} {pl pl' pl'' : Place} {p b : Mbuf} {l l' : List Mbuf}
  {d d' self : Dest} {mgr : Option Dest}

@[simp] lemma moved_to : moved A pl pl' l pl' = l := Function.update_self ..

lemma moved_from (h : pl ≠ pl') : moved A pl pl' l pl = (A pl).tail := by
  rw [moved, Function.update_of_ne h, Function.update_self]

lemma moved_of_ne (h : pl'' ≠ pl) (h' : pl'' ≠ pl') : moved A pl pl' l pl'' = A pl'' := by
  rw [moved, Function.update_of_ne h', Function.update_of_ne h]

lemma mem_queue :
    b ∈ queue A mgr d ↔ mgr = some d ∧ b ∈ A (.waiting none) ∨ b ∈ A (.waiting (some d)) := by
  rw [queue, List.mem_append]
  split <;> simp [*]

lemma queue_congr {A' : Place → List Mbuf} (h : ∀ l, A' (.waiting l) = A (.waiting l)) :
    queue A' mgr d = queue A mgr d := by
  rw [queue, queue, h, h]

lemma Placed.disjoint (h : Placed A) (hb : b ∈ A pl) (hne : pl' ≠ pl) : b ∉ A pl' := by
  obtain ⟨f, hf⟩ := h.place
  exact fun hb' => hne (((hf _ _).mp hb').symm.trans ((hf _ _).mp hb))

lemma Placed.not_mem_queue (h : Placed A) (hb : b ∈ A pl) (hne : ∀ l, Place.waiting l ≠ pl) :
    b ∉ queue A mgr d := by
  rw [mem_queue]
  rintro (⟨-, hm⟩ | hm)
  · exact h.disjoint hb (hne _) hm
  · exact h.disjoint hb (hne _) hm

/-- A buffer is in one queue only. -/
lemma Placed.queue_unique (h : Placed A) (hb : b ∈ queue A mgr d) (hb' : b ∈ queue A mgr d') :
    d = d' := by
  rw [mem_queue] at hb hb'
  rcases hb with ⟨rfl, hb⟩ | hb
  · rcases hb' with ⟨he, -⟩ | hb'
    · exact Option.some.inj he
    · exact absurd hb' (h.disjoint hb (by simp))
  · rcases hb' with ⟨-, hb'⟩ | hb'
    · exact absurd hb' (h.disjoint hb (by simp))
    · by_contra hne
      exact h.disjoint hb (by simpa using Ne.symm hne) hb'

lemma Placed.moved (h : Placed A) (hx : A pl = p :: l) (hp : l'.Perm (p :: A pl'))
    (hne : pl ≠ pl') : Placed (moved A pl pl' l') := by
  obtain ⟨f, hf⟩ := h.place
  have hnd := h.nodup pl
  rw [hx, List.nodup_cons] at hnd
  have hpf : f p = pl := (hf pl p).mp (by simp [hx])
  have hpm : p ∈ A pl := by simp [hx]
  have hp' : p ∉ A pl' := h.disjoint hpm hne.symm
  refine ⟨fun pl'' => ?_, Function.update f p pl', fun pl'' b => ?_⟩
  · by_cases h1 : pl'' = pl'
    · subst h1
      rw [moved_to, hp.nodup_iff, List.nodup_cons]
      exact ⟨hp', h.nodup _⟩
    · by_cases h2 : pl'' = pl
      · subst h2
        rw [moved_from hne, hx]
        exact hnd.2
      · rw [moved_of_ne h2 h1]
        exact h.nodup _
  · by_cases hb : b = p
    · subst hb
      rw [Function.update_self]
      constructor
      · intro hm
        by_contra h1
        by_cases h2 : pl'' = pl
        · subst h2
          rw [moved_from hne, hx] at hm
          exact hnd.1 hm
        · rw [moved_of_ne h2 (Ne.symm h1)] at hm
          exact h2 (((hf _ _).mp hm).symm.trans hpf)
      · rintro rfl
        rw [moved_to, hp.mem_iff]
        simp
    · rw [Function.update_of_ne hb, ← hf]
      by_cases h1 : pl'' = pl'
      · subst h1
        rw [moved_to, hp.mem_iff]
        simp [hb]
      · by_cases h2 : pl'' = pl
        · subst h2
          rw [moved_from hne, hx]
          simp [hb]
        · rw [moved_of_ne h2 h1]

end Places

/-! ### The routines and the lists -/

section Routines

variable {q : Lists} {A : Place → List Mbuf} {p t : Mbuf} {l : List Mbuf} {d self mgr : Dest}

/-- The queues are the same if the lines are, and their buffers' links are. -/
lemma Shape.chain_congr {q' : Lists} {A' : Place → List Mbuf} (h : Shape q A)
    (hw : ∀ l, A' (.waiting l) = A (.waiting l)) (hm : q'.hrsmgr = q.hrsmgr)
    (hh : q'.head d = q.head d)
    (hn : ∀ b ∈ queue A q.hrsmgr d, q'.mb_next b = q.mb_next b) :
    Linked q'.mb_next (q'.head d) (queue A' q'.hrsmgr d) := by
  rw [hh, hm, queue_congr hw]
  exact (h.chain d).congr hn

lemma Shape.unlink (h : Shape q A) (hp : q.mbufp = some p) :
    (∃ l, A .free = p :: l) ∧ Shape (unlink q p) (moved A .free .hand (p :: A .hand)) := by
  have hw : ∀ l, moved A .free .hand (p :: A .hand) (.waiting l) = A (.waiting l) :=
    fun l => moved_of_ne (by simp) (by simp)
  have hfree := h.free
  cases hf : A .free with
  | nil =>
    rw [hf, hp] at hfree
    cases hfree
  | cons b l =>
    rw [hf, hp] at hfree
    obtain ⟨hb, hl⟩ := hfree
    obtain rfl := Option.some.inj hb
    refine ⟨⟨l, rfl⟩, ?_, fun d => h.chain_congr hw rfl rfl fun _ _ => rfl, fun d hd => ?_, ?_, ?_⟩
    · rw [moved_from (by simp), hf]
      exact hl
    · rw [queue_congr hw] at hd ⊢
      exact h.tail d hd
    · rw [hw]
      exact h.mstail
    · rw [hw]
      exact h.nomgr

lemma Shape.hrunalloc (h : Shape q A) (hp : Placed A) (hh : A .hand = p :: l) :
    Shape (hrunalloc q p) (moved A .hand .free (p :: A .free)) := by
  have hw : ∀ l, moved A .hand .free (p :: A .free) (.waiting l) = A (.waiting l) :=
    fun l => moved_of_ne (by simp) (by simp)
  have hpm : p ∈ A .hand := by simp [hh]
  refine ⟨?_, fun d => h.chain_congr hw rfl rfl fun b hb => ?_, fun d hd => ?_, ?_, ?_⟩
  · rw [moved_to]
    exact h.free.push (hp.disjoint hpm (by simp))
  · refine Function.update_of_ne ?_ ..
    rintro rfl
    exact hp.not_mem_queue hpm (by simp) hb
  · rw [queue_congr hw] at hd ⊢
    exact h.tail d hd
  · rw [hw]
    exact h.mstail
  · rw [hw]
    exact h.nomgr

/-- Nothing is in the queue of a client without a head. -/
lemma Shape.head_none (h : Shape q A) : q.head d = none ↔ queue A q.hrsmgr d = [] :=
  (h.chain d).eq_none_iff

lemma queue_linkIn (mgr : Option Dest) (d' : Dest) :
    queue (moved A .hand (.waiting (some d)) (A (.waiting (some d)) ++ [p])) mgr d' =
      queue A mgr d' ++ if d' = d then [p] else [] := by
  have hb : moved A .hand (.waiting (some d)) (A (.waiting (some d)) ++ [p]) (.waiting none) =
      A (.waiting none) := moved_of_ne (by simp) (by simp)
  rw [queue, queue, hb]
  by_cases hd : d' = d
  · subst hd
    rw [moved_to, if_pos rfl, List.append_assoc]
  · rw [moved_of_ne (by simp) (by simpa using hd), if_neg hd, List.append_nil]

lemma Shape.hrlink (h : Shape q A) (hp : Placed A) (hh : A .hand = p :: l) :
    Shape (hrlink q d p)
      (moved A .hand (.waiting (some d)) (A (.waiting (some d)) ++ [p])) := by
  have hpm : p ∈ A .hand := by simp [hh]
  have hpq : ∀ d', p ∉ queue A q.hrsmgr d' := fun d' => hp.not_mem_queue hpm (by simp)
  have hpf : p ∉ A .free := hp.disjoint hpm (by simp)
  have hb : moved A .hand (.waiting (some d)) (A (.waiting (some d)) ++ [p]) (.waiting none) =
      A (.waiting none) := moved_of_ne (by simp) (by simp)
  have hf : moved A .hand (.waiting (some d)) (A (.waiting (some d)) ++ [p]) .free = A .free :=
    moved_of_ne (by simp) (by simp)
  rcases List.eq_nil_or_concat (queue A q.hrsmgr d) with hq | ⟨init, t, hq⟩
  · -- the queue is empty
    have hhd : q.head d = none := h.head_none.mpr hq
    have hl : HrMsg.hrlink q d p =
        { q with
          mb_next := Function.update q.mb_next p none
          head := Function.update q.head d (some p)
          tail := Function.update q.tail d (some p) } := by
      rw [HrMsg.hrlink, hhd]
    rw [hl]
    refine ⟨?_, fun d' => ?_, fun d' hd' => ?_, ?_, ?_⟩
    · rw [hf]
      refine h.free.congr fun b hbf => Function.update_of_ne ?_ ..
      rintro rfl
      exact hpf hbf
    · rw [queue_linkIn]
      by_cases hd : d' = d
      · subst hd
        dsimp only
        rw [if_pos rfl, hq, Function.update_self]
        exact ⟨rfl, Function.update_self ..⟩
      · dsimp only
        rw [if_neg hd, List.append_nil, Function.update_of_ne hd]
        refine (h.chain d').congr fun b hbq => Function.update_of_ne ?_ ..
        rintro rfl
        exact hpq d' hbq
    · rw [queue_linkIn] at hd' ⊢
      by_cases hd : d' = d
      · subst hd
        dsimp only
        rw [if_pos rfl, Function.update_self, List.getLast?_concat]
      · dsimp only at hd' ⊢
        rw [if_neg hd, List.append_nil] at hd' ⊢
        rw [Function.update_of_ne hd]
        exact h.tail d' hd'
    · rw [hb]
      exact h.mstail
    · rw [hb]
      exact h.nomgr
  · -- `t` is the last of the queue
    rw [List.concat_eq_append] at hq
    have htq : t ∈ queue A q.hrsmgr d := by simp [hq]
    have htl : q.tail d = some t := by
      rw [h.tail d (by simp [hq]), hq, List.getLast?_concat]
    have hl : HrMsg.hrlink q d p =
        { q with
          mb_next := Function.update (Function.update q.mb_next t (some p)) p none
          tail := Function.update q.tail d (some p) } := by
      cases hhd : q.head d with
      | none => exact absurd (h.head_none.mp hhd) (by simp [hq])
      | some a => rw [HrMsg.hrlink, hhd, htl]
    rw [hl]
    refine ⟨?_, fun d' => ?_, fun d' hd' => ?_, ?_, ?_⟩
    · rw [hf]
      refine h.free.congr fun b hbf => ?_
      have hbp : b ≠ p := fun he => hpf (he ▸ hbf)
      have hbt : b ≠ t := fun he => hp.not_mem_queue hbf (by simp) (he ▸ htq)
      dsimp only
      rw [Function.update_of_ne hbp, Function.update_of_ne hbt]
    · rw [queue_linkIn]
      by_cases hd : d' = d
      · subst hd
        rw [if_pos rfl, hq]
        have hch := h.chain d'
        rw [hq] at hch
        exact hch.snoc (hq ▸ hpq d')
      · rw [if_neg hd, List.append_nil]
        refine (h.chain d').congr fun b hbq => ?_
        have hbp : b ≠ p := fun he => hpq d' (he ▸ hbq)
        have hbt : b ≠ t := fun he => hd (hp.queue_unique hbq (he ▸ htq))
        dsimp only
        rw [Function.update_of_ne hbp, Function.update_of_ne hbt]
    · rw [queue_linkIn] at hd' ⊢
      by_cases hd : d' = d
      · subst hd
        dsimp only
        rw [if_pos rfl, Function.update_self, List.getLast?_concat]
      · dsimp only at hd' ⊢
        rw [if_neg hd, List.append_nil] at hd' ⊢
        rw [Function.update_of_ne hd]
        exact h.tail d' hd'
    · rw [hb]
      exact h.mstail
    · rw [hb]
      exact h.nomgr

/-- The line of the first message of the queue. -/
def firstLine (A : Place → List Mbuf) (mgr : Option Dest) (d : Dest) : Option Dest :=
  if mgr = some d ∧ A (.waiting none) ≠ [] then none else some d

lemma first_of_queue {mgr : Option Dest} (hq : queue A mgr d = p :: l) :
    ∃ l', A (.waiting (firstLine A mgr d)) = p :: l' ∧
      ∀ d', queue (moved A (.waiting (firstLine A mgr d)) .free (p :: A .free)) mgr d' =
        if d' = d then l else queue A mgr d' := by
  rw [firstLine]
  by_cases hb : mgr = some d ∧ A (.waiting none) ≠ []
  · -- a button message
    rw [if_pos hb]
    obtain ⟨rfl, hb⟩ := hb
    obtain ⟨a, l', ha⟩ := List.exists_cons_of_ne_nil hb
    rw [queue, if_pos rfl, ha, List.cons_append, List.cons_eq_cons] at hq
    obtain ⟨rfl, rfl⟩ := hq
    refine ⟨l', ha, fun d' => ?_⟩
    rw [queue, moved_from (by simp), moved_of_ne (by simp) (by simp), ha, List.tail_cons]
    by_cases hd : d' = d
    · rw [if_pos (by rw [hd]), if_pos hd, hd]
    · have hd' : some d ≠ some d' := by simpa using Ne.symm hd
      rw [if_neg hd', if_neg hd, queue, if_neg hd']
  · rw [if_neg hb]
    have hq' : A (.waiting (some d)) = p :: l := by
      rw [queue] at hq
      by_cases hm : mgr = some d
      · have hnil : A (.waiting none) = [] := by
          by_contra hne
          exact hb ⟨hm, hne⟩
        rwa [if_pos hm, hnil] at hq
      · rwa [if_neg hm] at hq
    refine ⟨l, hq', fun d' => ?_⟩
    by_cases hd : d' = d
    · subst hd
      rw [queue, moved_from (by simp), moved_of_ne (by simp) (by simp), hq', if_pos rfl,
        List.tail_cons]
      split
      · next hm =>
        have hnil : A (.waiting none) = [] := by
          by_contra hne
          exact hb ⟨hm, hne⟩
        rw [hnil, List.nil_append]
      · rfl
    · have hne : Place.waiting (some d') ≠ .waiting (some d) := by simpa using hd
      rw [queue, moved_of_ne hne (by simp), moved_of_ne (by simp) (by simp), if_neg hd, queue]

lemma Shape.hrfree (h : Shape q A) (hp : Placed A) (hq : queue A q.hrsmgr self = p :: l) :
    Shape (hrfree q self)
      (moved A (.waiting (firstLine A q.hrsmgr self)) .free (p :: A .free)) := by
  obtain ⟨l', hl', hqs⟩ := first_of_queue hq
  have hpm : p ∈ A (.waiting (firstLine A q.hrsmgr self)) := by simp [hl']
  have hpf : p ∉ A .free := hp.disjoint hpm (by simp)
  have hpq : p ∈ queue A q.hrsmgr self := by simp [hq]
  have hch := h.chain self
  rw [hq] at hch
  obtain ⟨hhd, hrest⟩ := hch
  have hnd := (h.chain self).nodup
  rw [hq, List.nodup_cons] at hnd
  have hf : HrMsg.hrfree q self =
      { q with
        head := Function.update q.head self (q.mb_next p)
        tail := if q.mb_next p = none then Function.update q.tail self none else q.tail
        mstail := if some p = q.mstail then none else q.mstail
        mb_next := Function.update q.mb_next p q.mbufp
        mbufp := some p } := by
    rw [HrMsg.hrfree, hhd]
  rw [hf]
  refine ⟨?_, fun d' => ?_, fun d' hd' => ?_, ?_, ?_⟩
  · rw [moved_to]
    exact h.free.push hpf
  · rw [hqs]
    by_cases hd : d' = self
    · subst hd
      dsimp only
      rw [if_pos rfl, Function.update_self]
      refine hrest.congr fun b hb => Function.update_of_ne ?_ ..
      rintro rfl
      exact hnd.1 hb
    · dsimp only
      rw [if_neg hd, Function.update_of_ne hd]
      refine (h.chain d').congr fun b hb => Function.update_of_ne ?_ ..
      rintro rfl
      exact hd (hp.queue_unique hb hpq)
  · rw [hqs] at hd' ⊢
    by_cases hd : d' = self
    · subst hd
      dsimp only
      rw [if_pos rfl] at hd' ⊢
      rw [if_neg (mt hrest.eq_none_iff.mp hd'), h.tail d' (by simp [hq]), hq,
        List.getLast?_cons_of_ne_nil hd']
    · rw [if_neg hd] at hd' ⊢
      rw [← h.tail d' hd']
      dsimp only
      split
      · rw [Function.update_of_ne hd]
      · rfl
  · -- `mstail`
    dsimp only
    rw [h.mstail]
    by_cases hb : q.hrsmgr = some self ∧ A (.waiting none) ≠ []
    · have hl : firstLine A q.hrsmgr self = none := if_pos hb
      rw [hl] at hl' ⊢
      have hndb := hp.nodup (.waiting none)
      rw [hl', List.nodup_cons] at hndb
      rw [moved_from (by simp), hl', List.tail_cons]
      cases hlast : l' with
      | nil => simp
      | cons a l2 =>
        rw [List.getLast?_cons_of_ne_nil (by simp), if_neg]
        intro he
        rw [hlast] at hndb
        exact hndb.1 (List.mem_of_getLast? he.symm)
    · have hl : firstLine A q.hrsmgr self = some self := if_neg hb
      rw [hl] at hpm ⊢
      rw [moved_of_ne (by simp) (by simp), if_neg]
      intro he
      exact hp.disjoint hpm (by simp) (List.mem_of_getLast? he.symm)
  · intro hm
    rw [moved, Function.update_of_ne (by simp)]
    have hl : firstLine A q.hrsmgr self = some self := if_neg fun hb => by
      rw [hb.1] at hm
      cases hm
    rw [hl, Function.update_of_ne (by simp)]
    exact h.nomgr hm

lemma queue_pressIn (d' : Dest) :
    queue (moved A .hand (.waiting none) (A (.waiting none) ++ [p])) (some mgr) d' =
      if d' = mgr then A (.waiting none) ++ p :: A (.waiting (some mgr))
      else queue A (some mgr) d' := by
  rw [queue, queue, moved_to, moved_of_ne (by simp) (by simp)]
  by_cases hd : d' = mgr
  · subst hd
    rw [if_pos rfl, if_pos rfl, List.append_assoc, List.singleton_append]
  · have hd' : some mgr ≠ some d' := by simpa using Ne.symm hd
    rw [if_neg hd', if_neg hd, if_neg hd']

lemma Shape.press (h : Shape q A) (hp : Placed A) (hh : A .hand = p :: l)
    (hm : q.hrsmgr = some mgr) :
    Shape (press q mgr p) (moved A .hand (.waiting none) (A (.waiting none) ++ [p])) := by
  have hpm : p ∈ A .hand := by simp [hh]
  have hpq : ∀ d', p ∉ queue A q.hrsmgr d' := fun d' => hp.not_mem_queue hpm (by simp)
  have hpf : p ∉ A .free := hp.disjoint hpm (by simp)
  have hf : moved A .hand (.waiting none) (A (.waiting none) ++ [p]) .free = A .free :=
    moved_of_ne (by simp) (by simp)
  have hqm : queue A q.hrsmgr mgr = A (.waiting none) ++ A (.waiting (some mgr)) := by
    rw [queue, if_pos hm]
  have hch := h.chain mgr
  rcases List.eq_nil_or_concat (A (.waiting none)) with hb | ⟨init, t, hb⟩
  · -- the first button message
    have hms : q.mstail = none := by rw [h.mstail, hb]; rfl
    rw [hqm, hb, List.nil_append] at hch
    have hl : HrMsg.press q mgr p =
        { q with
          tail := if q.head mgr = none then Function.update q.tail mgr (some p) else q.tail
          mb_next := Function.update q.mb_next p (q.head mgr)
          head := Function.update q.head mgr (some p)
          mstail := some p } := by
      rw [HrMsg.press, hms]
    rw [hl]
    refine ⟨?_, fun d' => ?_, fun d' hd' => ?_, ?_, ?_⟩
    · rw [hf]
      refine h.free.congr fun b hbf => Function.update_of_ne ?_ ..
      rintro rfl
      exact hpf hbf
    · dsimp only
      rw [hm, queue_pressIn, hb, List.nil_append]
      by_cases hd : d' = mgr
      · subst hd
        rw [if_pos rfl, Function.update_self]
        refine hch.push fun hmem => hpq d' ?_
        rw [hqm]
        exact List.mem_append_right _ hmem
      · rw [if_neg hd, Function.update_of_ne hd, ← hm]
        refine (h.chain d').congr fun b hbq => Function.update_of_ne ?_ ..
        rintro rfl
        exact hpq d' hbq
    · dsimp only at hd' ⊢
      rw [hm, queue_pressIn] at hd' ⊢
      by_cases hd : d' = mgr
      · subst hd
        rw [if_pos rfl, hb, List.nil_append]
        by_cases hq : A (.waiting (some d')) = []
        · rw [if_pos (hch.eq_none_iff.mpr hq), Function.update_self, hq]
          rfl
        · rw [if_neg (mt hch.eq_none_iff.mp hq), List.getLast?_cons_of_ne_nil hq, h.tail d', hqm,
            hb, List.nil_append]
          rwa [hqm, hb]
      · rw [if_neg hd] at hd' ⊢
        rw [← hm] at hd' ⊢
        rw [← h.tail d' hd']
        split
        · rw [Function.update_of_ne hd]
        · rfl
    · dsimp only
      rw [moved_to, List.getLast?_concat]
    · dsimp only
      rw [hm]
      nofun
  · -- `t` is the last of them
    rw [List.concat_eq_append] at hb
    have hms : q.mstail = some t := by rw [h.mstail, hb, List.getLast?_concat]
    have htb : t ∈ A (.waiting none) := by simp [hb]
    rw [hqm, hb, List.append_assoc, List.singleton_append] at hch
    have hl : HrMsg.press q mgr p =
        { q with
          tail := if q.mb_next t = none then Function.update q.tail mgr (some p) else q.tail
          mb_next := Function.update (Function.update q.mb_next p (q.mb_next t)) t (some p)
          mstail := some p } := by
      rw [HrMsg.press, hms]
    have hafter := hch.after
    rw [hl]
    refine ⟨?_, fun d' => ?_, fun d' hd' => ?_, ?_, ?_⟩
    · rw [hf]
      refine h.free.congr fun b hbf => ?_
      have hbp : b ≠ p := fun he => hpf (he ▸ hbf)
      have hbt : b ≠ t := fun he => hp.disjoint hbf (by simp) (he ▸ htb)
      dsimp only
      rw [Function.update_of_ne hbt, Function.update_of_ne hbp]
    · dsimp only
      rw [hm, queue_pressIn]
      by_cases hd : d' = mgr
      · subst hd
        rw [if_pos rfl, hb, List.append_assoc, List.singleton_append]
        refine hch.insert fun hmem => hpq d' ?_
        rw [hqm, hb, List.append_assoc, List.singleton_append]
        exact hmem
      · rw [if_neg hd, ← hm]
        refine (h.chain d').congr fun b hbq => ?_
        have hbp : b ≠ p := fun he => hpq d' (he ▸ hbq)
        have hbt : b ≠ t := fun he => hd (hp.queue_unique hbq (by
          rw [he, hqm]
          exact List.mem_append_left _ htb))
        rw [Function.update_of_ne hbt, Function.update_of_ne hbp]
    · dsimp only at hd' ⊢
      rw [hm, queue_pressIn] at hd' ⊢
      by_cases hd : d' = mgr
      · subst hd
        rw [if_pos rfl]
        by_cases hq : A (.waiting (some d')) = []
        · rw [if_pos (hafter.eq_none_iff.mpr hq), Function.update_self, hq, List.getLast?_concat]
        · rw [if_neg (mt hafter.eq_none_iff.mp hq), h.tail d', hqm,
            List.getLast?_append_of_ne_nil _ hq, List.getLast?_append_of_ne_nil _ (by simp),
            List.getLast?_cons_of_ne_nil hq]
          rw [hqm, hb]
          simp
      · rw [if_neg hd] at hd' ⊢
        rw [← hm] at hd' ⊢
        rw [← h.tail d' hd']
        split
        · rw [Function.update_of_ne hd]
        · rfl
    · dsimp only
      rw [moved_to, List.getLast?_concat]
    · dsimp only
      rw [hm]
      nofun

/-- The whole queue of `self` has gone to the free list. -/
def flushed (A : Place → List Mbuf) (mgr : Option Dest) (self : Dest) : Place → List Mbuf
  | .free => queue A mgr self ++ A .free
  | .hand => A .hand
  | .waiting none => if mgr = some self then [] else A (.waiting none)
  | .waiting (some d) => if d = self then [] else A (.waiting (some d))

lemma queue_flushed (mgr : Option Dest) (d : Dest) :
    queue (flushed A mgr self) mgr d = if d = self then [] else queue A mgr d := by
  by_cases hd : d = self
  · subst hd
    rw [if_pos rfl, queue]
    by_cases hm : mgr = some d <;> simp [flushed, hm]
  · rw [if_neg hd, queue, queue]
    by_cases hm : mgr = some d
    · have hs : mgr ≠ some self := by simpa [hm] using hd
      simp [flushed, hd, hs]
    · simp [flushed, hd, hm]

lemma flushed_of_empty (mgr : Option Dest) (hq : queue A mgr self = []) :
    flushed A mgr self = A := by
  rw [queue, List.append_eq_nil_iff] at hq
  funext pl
  cases pl with
  | free => simp [flushed, queue, hq]
  | hand => rfl
  | waiting l =>
    cases l with
    | none =>
      rw [flushed]
      split
      · next hm => simpa [hm] using hq.1.symm
      · rfl
    | some d =>
      rw [flushed]
      split
      · next hd => rw [hd, hq.2]
      · rfl

lemma Placed.flushed (h : Placed A) {mgr : Option Dest} (hnd : (queue A mgr self).Nodup) :
    Placed (flushed A mgr self) := by
  obtain ⟨f, hf⟩ := h.place
  refine ⟨fun pl => ?_, fun b => if b ∈ queue A mgr self then .free else f b, fun pl b => ?_⟩
  · cases pl with
    | free =>
      refine List.nodup_append'.mpr ⟨hnd, h.nodup _, ?_⟩
      intro b hb hb'
      exact h.not_mem_queue hb' (by simp) hb
    | hand => exact h.nodup _
    | waiting l => cases l <;> (rw [HrMsg.flushed]; split <;> simp [h.nodup])
  · by_cases hb : b ∈ queue A mgr self
    · dsimp only
      rw [if_pos hb]
      cases pl with
      | free => simp [HrMsg.flushed, hb]
      | hand => simpa [HrMsg.flushed] using fun hm => h.not_mem_queue hm (by simp) hb
      | waiting l =>
        refine iff_of_false (fun hm => ?_) (by simp)
        cases l with
        | none =>
          rw [HrMsg.flushed] at hm
          split at hm
          · cases hm
          · next hs =>
            rcases mem_queue.mp hb with ⟨he, -⟩ | hb'
            · exact hs he
            · exact h.disjoint hb' (by simp) hm
        | some d =>
          rw [HrMsg.flushed] at hm
          split at hm
          · cases hm
          · next hs => exact hs (h.queue_unique (mem_queue.mpr (.inr hm)) hb)
    · dsimp only
      rw [if_neg hb, ← hf]
      cases pl with
      | free => simp [HrMsg.flushed, hb]
      | hand => rfl
      | waiting l =>
        rw [mem_queue, not_or, not_and] at hb
        cases l with
        | none =>
          rw [HrMsg.flushed]
          split
          · next hs => simp [hb.1 hs]
          · rfl
        | some d =>
          rw [HrMsg.flushed]
          split
          · next hs =>
            subst hs
            simp [hb.2]
          · rfl

lemma Shape.hrflush (h : Shape q A) (hp : Placed A) :
    Shape (hrflush q self) (flushed A q.hrsmgr self) := by
  rcases List.eq_nil_or_concat (queue A q.hrsmgr self) with hq | ⟨init, t, hq⟩
  · rw [flushed_of_empty _ hq, HrMsg.hrflush, h.head_none.mpr hq]
    exact h
  · rw [List.concat_eq_append] at hq
    have hch := h.chain self
    have htq : t ∈ queue A q.hrsmgr self := by simp [hq]
    have htl : q.tail self = some t := by
      rw [h.tail self (by simp [hq]), hq, List.getLast?_concat]
    obtain ⟨p, hhd⟩ : ∃ p, q.head self = some p := by
      refine Option.ne_none_iff_exists'.mp fun hn => ?_
      rw [h.head_none.mp hn] at htq
      cases htq
    have hl : HrMsg.hrflush q self =
        { q with
          head := Function.update q.head self none
          mb_next := Function.update q.mb_next t q.mbufp
          tail := Function.update q.tail self none
          mbufp := some p
          mstail := if some self = q.hrsmgr then none else q.mstail } := by
      rw [HrMsg.hrflush, hhd, htl]
    rw [hl]
    refine ⟨?_, fun d => ?_, fun d hd' => ?_, ?_, ?_⟩
    · -- the queue stands in front of the free list
      change Linked _ (some p) (queue A q.hrsmgr self ++ A .free)
      rw [hq, hhd] at hch
      rw [hq]
      exact hch.splice h.free fun hm => hp.not_mem_queue hm (by simp) htq
    · dsimp only
      rw [queue_flushed]
      by_cases hd : d = self
      · rw [if_pos hd, hd, Function.update_self]
        rfl
      · rw [if_neg hd, Function.update_of_ne hd]
        refine (h.chain d).congr fun b hb => Function.update_of_ne ?_ ..
        rintro rfl
        exact hd (hp.queue_unique hb htq)
    · dsimp only at hd' ⊢
      rw [queue_flushed] at hd' ⊢
      by_cases hd : d = self
      · exact absurd (if_pos hd) hd'
      · rw [if_neg hd] at hd' ⊢
        rw [Function.update_of_ne hd]
        exact h.tail d hd'
    · dsimp only [HrMsg.flushed]
      rw [h.mstail]
      by_cases hm : q.hrsmgr = some self
      · rw [if_pos hm.symm, if_pos hm]
        rfl
      · rw [if_neg (Ne.symm hm), if_neg hm]
    · intro hm
      dsimp only [HrMsg.flushed] at hm ⊢
      rw [if_neg (by simp [hm])]
      exact h.nomgr hm

lemma queue_of_no_buttons (hb : A (.waiting none) = []) (mgr : Option Dest) :
    queue A mgr d = A (.waiting (some d)) := by
  rw [queue, hb, ite_self, List.nil_append]

lemma queue_of_ne {mgr : Option Dest} (h : mgr ≠ some d) :
    queue A mgr d = A (.waiting (some d)) := by
  rw [queue, if_neg h, List.nil_append]

/-- Without button messages anybody may be the manager. -/
lemma Shape.leaderless (h : Shape q A) (hb : A (.waiting none) = []) (m : Option Dest) :
    Shape { q with hrsmgr := m } A := by
  have hq : ∀ d, queue A m d = queue A q.hrsmgr d := fun d => by
    rw [queue_of_no_buttons hb, queue_of_no_buttons hb]
  refine ⟨h.free, fun d => ?_, fun d hd => ?_, h.mstail, fun _ => hb⟩
  · dsimp only
    rw [hq]
    exact h.chain d
  · dsimp only at hd ⊢
    rw [hq] at hd ⊢
    exact h.tail d hd

/-- The button messages go over to the new manager. -/
lemma Shape.hrevmgr (h : Shape q A) (hp : Placed A) : Shape (hrevmgr q self) A := by
  rcases List.eq_nil_or_concat (A (.waiting none)) with hb | ⟨init, t, hb⟩
  · -- there are none
    have hms : q.mstail = none := by rw [h.mstail, hb]; rfl
    have hl : HrMsg.hrevmgr q self = { q with hrsmgr := some self } := by
      rw [HrMsg.hrevmgr, hms]
    rw [hl]
    exact h.leaderless hb _
  · rw [List.concat_eq_append] at hb
    have hms : q.mstail = some t := by rw [h.mstail, hb, List.getLast?_concat]
    have htb : t ∈ A (.waiting none) := by simp [hb]
    have htl : ∀ d, t ∉ A (.waiting (some d)) := fun d => hp.disjoint htb (by simp)
    cases hm : q.hrsmgr with
    | none =>
      rw [h.nomgr hm] at htb
      cases htb
    | some mgr =>
      have hch := h.chain mgr
      rw [hm, queue, if_pos rfl, hb, List.append_assoc, List.singleton_append] at hch
      have hafter := hch.after
      have hl : HrMsg.hrevmgr q self =
          { getThem (giveUp q mgr t) self (q.head mgr) t with hrsmgr := some self } := by
        rw [HrMsg.hrevmgr, hms, hm]
      rw [hl]
      by_cases hs : self = mgr
      · -- it was the manager before
        subst hs
        have hnext : Function.update q.mb_next t (q.mb_next t) = q.mb_next :=
          Function.update_eq_self ..
        have hhead : Function.update (Function.update q.head self (q.mb_next t)) self
            (q.head self) = q.head := by
          rw [Function.update_idem, Function.update_eq_self]
        simp only [getThem, giveUp, Function.update_self, hnext, hhead]
        refine ⟨h.free, fun d => ?_, fun d hd => ?_, h.mstail, nofun⟩
        · dsimp only
          rw [← hm]
          exact h.chain d
        · dsimp only at hd ⊢
          rw [← hm] at hd
          have htail := h.tail d hd
          rw [hm] at htail
          rw [← htail]
          by_cases hn : q.mb_next t = none
          · rw [if_pos hn, if_pos hn, Function.update_idem]
            by_cases hd' : d = self
            · subst hd'
              rw [Function.update_self, htail, queue, if_pos rfl, hafter.eq_none_iff.mp hn, hb,
                List.append_nil, List.getLast?_concat]
            · rw [Function.update_of_ne hd']
          · rw [if_neg hn, if_neg hn]
      · have hms' : some mgr ≠ some self := by simpa using Ne.symm hs
        have hself := h.chain self
        rw [hm, queue_of_ne hms'] at hself
        simp only [getThem, giveUp, Function.update_of_ne hs]
        refine ⟨?_, fun d => ?_, fun d hd => ?_, h.mstail, nofun⟩
        · refine h.free.congr fun b hbf => Function.update_of_ne ?_ ..
          rintro rfl
          exact hp.disjoint hbf (by simp) htb
        · dsimp only
          by_cases hd : d = self
          · subst hd
            rw [Function.update_self, queue, if_pos rfl, hb, List.append_assoc,
              List.singleton_append]
            exact hch.relink hself (htl d)
          · have hds : some self ≠ some d := by simpa using Ne.symm hd
            rw [Function.update_of_ne hd, queue_of_ne hds]
            by_cases hdm : d = mgr
            · subst hdm
              rw [Function.update_self]
              refine hafter.congr fun b hbl => Function.update_of_ne ?_ ..
              rintro rfl
              exact htl d hbl
            · have hold := h.chain d
              rw [hm, queue_of_ne (by simpa using Ne.symm hdm)] at hold
              rw [Function.update_of_ne hdm]
              refine hold.congr fun b hbl => Function.update_of_ne ?_ ..
              rintro rfl
              exact htl d hbl
        · dsimp only at hd ⊢
          have hmt : ∀ d, d ≠ mgr →
              (if q.mb_next t = none then Function.update q.tail mgr none else q.tail) d =
                q.tail d := by
            intro d hd
            split
            · rw [Function.update_of_ne hd]
            · rfl
          by_cases hds : d = self
          · subst hds
            rw [queue, if_pos rfl]
            by_cases hq : A (.waiting (some d)) = []
            · rw [if_pos (hself.eq_none_iff.mpr hq), Function.update_self, hq, List.append_nil, hb,
                List.getLast?_concat]
            · have htail := h.tail d
              rw [hm, queue_of_ne hms'] at htail
              rw [if_neg (mt hself.eq_none_iff.mp hq), hmt d hs, htail hq,
                List.getLast?_append_of_ne_nil _ hq]
          · have hds' : some self ≠ some d := by simpa using Ne.symm hds
            rw [queue_of_ne hds'] at hd ⊢
            have hout : (if q.head self = none then Function.update
                (if q.mb_next t = none then Function.update q.tail mgr none else q.tail) self
                  (some t)
                else if q.mb_next t = none then Function.update q.tail mgr none else q.tail) d =
                (if q.mb_next t = none then Function.update q.tail mgr none else q.tail) d := by
              split
              · rw [Function.update_of_ne hds]
              · rfl
            rw [hout]
            by_cases hdm : d = mgr
            · subst hdm
              have htail := h.tail d
              rw [hm, queue, if_pos rfl, List.getLast?_append_of_ne_nil _ hd] at htail
              rw [if_neg (mt hafter.eq_none_iff.mp hd), htail (by simp [hd])]
            · have htail := h.tail d
              rw [hm, queue_of_ne (by simpa using Ne.symm hdm)] at htail
              rw [hmt d hdm, htail hd]

end Routines

/-! ### What becomes of the messages -/

/-- A message that was delivered is the one that was linked, and went to whom it was linked to. -/
def Fate.right (e : Entry) : Fate → Prop
  | .got d m => m = e.m ∧ (e.line = none ∨ e.line = some d)
  | .flushed => True

/-- The messages of a line leave it in the order in which they were linked, those in `W` are
still to leave, and each was linked once. -/
structure Booked (g : Log) (mb_m : Mbuf → Message) (W : Option Dest → List Mbuf) : Prop where
  mine : ∀ l, ∀ b ∈ W l, (g.ent b).line = l ∧ (g.ent b).m = mb_m b
  account : ∀ l, (g.past l).map Prod.fst ++ (W l).map g.ent = g.line l
  right : ∀ l, ∀ x ∈ g.past l, x.2.right x.1
  serials : ∀ l, (g.line l).Pairwise fun e e' => e.serial < e'.serial
  known : ∀ l, ∀ e ∈ g.line l, e.serial < g.serial ∧ e.line = l
  buttons : ∀ b ∈ W none, (mb_m b).isButton

section Booking

variable {g : Log} {mb_m : Mbuf → Message} {W : Option Dest → List Mbuf} {l : Option Dest}
  {p : Mbuf} {bs tl : List Mbuf} {m : Message} {f : Fate}

lemma Booked.fill (h : Booked g mb_m W) (hp : ∀ l, p ∉ W l) :
    Booked g (Function.update mb_m p m) W := by
  have hne : ∀ l, ∀ b ∈ W l, b ≠ p := fun l b hb he => hp l (he ▸ hb)
  refine { h with mine := fun l b hb => ?_, buttons := fun b hb => ?_ }
  · rw [Function.update_of_ne (hne l b hb)]
    exact h.mine l b hb
  · rw [Function.update_of_ne (hne none b hb)]
    exact h.buttons b hb

lemma Booked.note (h : Booked g mb_m W) (hp : ∀ l, p ∉ W l) (hm : mb_m p = m)
    (hb : l = none → m.isButton) :
    Booked (g.note l p m) mb_m (Function.update W l (W l ++ [p])) := by
  have hne : ∀ l, ∀ b ∈ W l, b ≠ p := fun l b hb he => hp l (he ▸ hb)
  have hent : ∀ l', (W l').map (Function.update g.ent p ⟨g.serial, l, m⟩) = (W l').map g.ent :=
    fun l' => List.map_congr_left fun b hb => Function.update_of_ne (hne l' b hb) ..
  refine ⟨fun l' b hbw => ?_, fun l' => ?_, h.right, fun l' => ?_, fun l' e he => ?_,
    fun b hbw => ?_⟩
  · by_cases hl : l' = l
    · subst hl
      rw [Function.update_self, List.mem_append, List.mem_singleton] at hbw
      rcases hbw with hbw | rfl
      · dsimp only [Log.note]
        rw [Function.update_of_ne (hne l' b hbw)]
        exact h.mine l' b hbw
      · dsimp only [Log.note]
        rw [Function.update_self]
        exact ⟨rfl, hm.symm⟩
    · rw [Function.update_of_ne hl] at hbw
      dsimp only [Log.note]
      rw [Function.update_of_ne (hne l' b hbw)]
      exact h.mine l' b hbw
  · dsimp only [Log.note]
    by_cases hl : l' = l
    · subst hl
      rw [Function.update_self, Function.update_self, List.map_append, hent, ← List.append_assoc,
        h.account, List.map_singleton, Function.update_self]
    · rw [Function.update_of_ne hl, Function.update_of_ne hl, hent, h.account]
  · dsimp only [Log.note]
    by_cases hl : l' = l
    · subst hl
      rw [Function.update_self, List.pairwise_append]
      refine ⟨h.serials l', List.pairwise_singleton .., fun e he e' he' => ?_⟩
      rw [List.mem_singleton.mp he']
      exact (h.known l' e he).1
    · rw [Function.update_of_ne hl]
      exact h.serials l'
  · dsimp only [Log.note] at he ⊢
    by_cases hl : l' = l
    · subst hl
      rw [Function.update_self, List.mem_append, List.mem_singleton] at he
      rcases he with he | rfl
      · exact ⟨(h.known l' e he).1.trans (Nat.lt_succ_self _), (h.known l' e he).2⟩
      · exact ⟨Nat.lt_succ_self _, rfl⟩
    · rw [Function.update_of_ne hl] at he
      exact ⟨(h.known l' e he).1.trans (Nat.lt_succ_self _), (h.known l' e he).2⟩
  · by_cases hl : none = l
    · subst hl
      rw [Function.update_self, List.mem_append, List.mem_singleton] at hbw
      rcases hbw with hbw | rfl
      · exact h.buttons b hbw
      · rw [hm]
        exact hb rfl
    · rw [Function.update_of_ne hl] at hbw
      exact h.buttons b hbw

lemma Booked.leave (h : Booked g mb_m W) (hw : W l = p :: tl) (hf : f.right (g.ent p)) :
    Booked (g.leave f p) mb_m (Function.update W l tl) := by
  have hl : (g.ent p).line = l := (h.mine l p (by simp [hw])).1
  have hsub : ∀ l', ∀ b ∈ Function.update W l tl l', b ∈ W l' := by
    intro l' b hb
    by_cases he : l' = l
    · subst he
      rw [Function.update_self] at hb
      rw [hw]
      exact List.mem_cons_of_mem _ hb
    · rwa [Function.update_of_ne he] at hb
  refine ⟨fun l' b hb => h.mine l' b (hsub l' b hb), fun l' => ?_, fun l' x hx => ?_, h.serials,
    h.known, fun b hb => h.buttons b (hsub none b hb)⟩
  · dsimp only [Log.leave]
    rw [hl, ← h.account l']
    by_cases he : l' = l
    · subst he
      rw [Function.update_self, Function.update_self, hw, List.map_append, List.append_assoc]
      rfl
    · rw [Function.update_of_ne he, Function.update_of_ne he]
  · dsimp only [Log.leave] at hx
    rw [hl] at hx
    by_cases he : l' = l
    · subst he
      rw [Function.update_self, List.mem_append, List.mem_singleton] at hx
      rcases hx with hx | rfl
      · exact h.right l' x hx
      · exact hf
    · rw [Function.update_of_ne he] at hx
      exact h.right l' x hx

/-- The first messages of a line are flushed. -/
lemma Booked.flush (h : Booked g mb_m W) (hw : W l = bs ++ tl) :
    Booked (bs.foldl (Log.leave .flushed) g) mb_m (Function.update W l tl) := by
  induction bs generalizing g W with
  | nil =>
    rw [List.nil_append] at hw
    rw [← hw, Function.update_eq_self]
    exact h
  | cons p bs ih =>
    have h1 := h.leave (f := .flushed) hw trivial
    have h2 := ih h1 (Function.update_self ..)
    rwa [Function.update_idem] at h2

end Booking

/-! ### The invariant -/

structure Inv (s : State) (A : Place → List Mbuf) : Prop where
  shape : Shape s.q A
  placed : Placed A
  hand : A .hand = s.pc.hand
  booked : Booked s.log s.mb_m fun l => A (.waiting l)
  copied : ∀ self m, s.pc = .copied self m → ∃ p, s.q.head self = some p ∧ s.mb_m p = m

section Steps

variable {s t : State} {A : Place → List Mbuf} {p : Mbuf} {l : Option Dest} {ls : List Mbuf}
  {d self mgr : Dest} {m : Message} {f : Fate}

lemma lines_moved_to :
    (fun l' => moved A .hand (.waiting l) ls (.waiting l')) =
      Function.update (fun l' => A (.waiting l')) l ls := by
  funext l'
  by_cases hl : l' = l
  · subst hl
    rw [moved_to, Function.update_self]
  · rw [moved_of_ne (by simp) (by simpa using hl), Function.update_of_ne hl]

lemma lines_moved_from :
    (fun l' => moved A (.waiting l) .free ls (.waiting l')) =
      Function.update (fun l' => A (.waiting l')) l (A (.waiting l)).tail := by
  funext l'
  by_cases hl : l' = l
  · subst hl
    rw [moved_from (by simp), Function.update_self]
  · rw [moved_of_ne (by simpa using hl) (by simp), Function.update_of_ne hl]

/-- Nobody waits in a buffer that somebody has in the hands. -/
lemma Placed.in_hand (h : Placed A) (hh : p ∈ A .hand) : ∀ l, p ∉ A (.waiting l) :=
  fun _ => h.disjoint hh (by simp)

/-- A buffer has been taken off the free list. -/
structure Taken (s : State) (p : Mbuf) (A : Place → List Mbuf) : Prop where
  shape : Shape (unlink s.q p) A
  placed : Placed A
  hand : A .hand = p :: s.pc.hand
  booked : Booked s.log s.mb_m fun l => A (.waiting l)

lemma Inv.taken (h : Inv s A) (hp : s.q.mbufp = some p) :
    Taken s p (moved A .free .hand (p :: A .hand)) := by
  obtain ⟨⟨l, hl⟩, hsh⟩ := h.shape.unlink hp
  have hw : ∀ l, moved A .free .hand (p :: A .hand) (.waiting l) = A (.waiting l) :=
    fun l => moved_of_ne (by simp) (by simp)
  refine ⟨hsh, h.placed.moved hl (List.Perm.refl _) (by simp), by rw [moved_to, h.hand], ?_⟩
  simp only [hw]
  exact h.booked

lemma Inv.took (h : Inv s A) (hu : s.pc = .user) {pc : Mbuf → Pc} (hh : ∀ p, (pc p).hand = [p])
    (hc : ∀ p self m, pc p ≠ .copied self m) : ∃ A', Inv (took s pc) A' := by
  rw [HrMsg.took]
  cases hp : s.q.mbufp with
  | none => exact ⟨A, h⟩
  | some p =>
    have ht := h.taken hp
    refine ⟨_, ht.shape, ht.placed, ?_, ht.booked, fun self m he => absurd he (hc p self m)⟩
    rw [ht.hand, hu]
    exact (hh p).symm

/-- The message is put into the buffer at hand. -/
lemma Inv.filled (h : Inv s A) (hh : s.pc.hand = [p]) {pc : Pc} (hp : pc.hand = [p])
    (hc : ∀ self m, pc ≠ .copied self m) : Inv (filled s p m pc) A := by
  have hpm : p ∈ A .hand := by simp [h.hand, hh]
  exact ⟨h.shape, h.placed, h.hand.trans (hh.trans hp.symm),
    h.booked.fill (h.placed.in_hand hpm), fun self m he => absurd he (hc self m)⟩

lemma Inv.unalloc (h : Inv s A) (hh : s.pc.hand = [p]) : Inv { s with pc := .unalloc p } A :=
  ⟨h.shape, h.placed, h.hand.trans hh, h.booked, nofun⟩

lemma Inv.hrlink (h : Inv s A) (hpc : s.pc = .link d p) :
    ∃ A', Inv { linked s d p with pc := .user } A' := by
  have hh : A .hand = [p] := by rw [h.hand, hpc]; rfl
  have hpm : p ∈ A .hand := by simp [hh]
  refine ⟨_, h.shape.hrlink h.placed hh, h.placed.moved hh ?_ (by simp), ?_, ?_, nofun⟩
  · exact List.perm_append_singleton p _
  · rw [moved_from (by simp), hh]
    rfl
  · rw [lines_moved_to]
    exact h.booked.note (h.placed.in_hand hpm) rfl nofun

lemma Inv.hrunalloc (h : Inv s A) (hpc : s.pc = .unalloc p) :
    ∃ A', Inv { s with q := HrMsg.hrunalloc s.q p, pc := .user } A' := by
  have hh : A .hand = [p] := by rw [h.hand, hpc]; rfl
  have hw : ∀ l, moved A .hand .free (p :: A .free) (.waiting l) = A (.waiting l) :=
    fun l => moved_of_ne (by simp) (by simp)
  refine ⟨_, h.shape.hrunalloc h.placed hh, h.placed.moved hh (List.Perm.refl _) (by simp), ?_, ?_,
    nofun⟩
  · rw [moved_from (by simp), hh]
    rfl
  · simp only [hw]
    exact h.booked

/-- The first message of the queue leaves. -/
lemma Inv.freed (h : Inv s A) (self : Dest) (pc : Pc) (hf : ∀ p, s.q.head self = some p → f.right (s.log.ent p))
    (hh : pc.hand = s.pc.hand) (hc : ∀ self m, pc ≠ .copied self m) :
    ∃ A', Inv { freed s self f with pc := pc } A' ∧
      (s.q.head self ≠ none → A' (.waiting (firstLine A s.q.hrsmgr self)) =
        (A (.waiting (firstLine A s.q.hrsmgr self))).tail) := by
  rw [HrMsg.freed]
  cases hp : s.q.head self with
  | none =>
    exact ⟨A, ⟨h.shape, h.placed, h.hand.trans hh.symm, h.booked,
      fun self m he => absurd he (hc self m)⟩, by simp⟩
  | some p =>
    have hch := h.shape.chain self
    rw [hp] at hch
    cases hq : queue A s.q.hrsmgr self with
    | nil =>
      rw [hq] at hch
      cases hch
    | cons p' ls =>
      rw [hq] at hch
      obtain rfl := Option.some.inj hch.1
      obtain ⟨l', hl', -⟩ := first_of_queue hq
      refine ⟨_, ⟨h.shape.hrfree h.placed hq, h.placed.moved hl' (List.Perm.refl _) (by simp), ?_,
        ?_, fun self m he => absurd he (hc self m)⟩, fun _ => moved_from (by simp)⟩
      · rw [moved_of_ne (by simp) (by simp), h.hand]
        exact hh.symm
      · rw [lines_moved_from, hl']
        exact h.booked.leave hl' (hf p hp)

lemma Inv.congr (h : Inv s A) (hq : t.q = s.q) (hm : t.mb_m = s.mb_m) (hp : t.pc = s.pc)
    (hl : t.log = s.log) : Inv t A := by
  refine ⟨hq ▸ h.shape, h.placed, hp ▸ h.hand, ?_, ?_⟩
  · rw [hl, hm]
    exact h.booked
  · rw [hq, hm, hp]
    exact h.copied

@[simp] lemma freed_evmfree : (freed s self f).evmfree = s.evmfree := by
  rw [freed]
  split <;> rfl

@[simp] lemma freed_pc : (freed s self f).pc = s.pc := by
  rw [freed]
  split <;> rfl

@[simp] lemma freed_hrsmgr : (freed s self f).q.hrsmgr = s.q.hrsmgr := by
  rw [freed]
  split
  · rfl
  · rw [HrMsg.hrfree]
    split <;> rfl

/-- `while ( mstail ) hrfree(self);` ends, without button messages. -/
lemma Inv.drain {n : ℕ} (h : Inv s A) (hm : s.q.hrsmgr = some self) (hu : s.pc = .user)
    (hn : (A (.waiting none)).length ≤ n) :
    ∃ A', Inv (drain n s self) A' ∧ A' (.waiting none) = [] ∧ (drain n s self).pc = .user ∧
      (drain n s self).evmfree = s.evmfree := by
  induction n generalizing s A with
  | zero => exact ⟨A, h, List.length_eq_zero_iff.mp (Nat.le_zero.mp hn), hu, rfl⟩
  | succ n ih =>
    rw [HrMsg.drain]
    by_cases hb : s.q.mstail = none
    · rw [if_pos hb]
      rw [h.shape.mstail, List.getLast?_eq_none_iff] at hb
      exact ⟨A, h, hb, hu, rfl⟩
    · rw [if_neg hb]
      rw [h.shape.mstail, List.getLast?_eq_none_iff] at hb
      obtain ⟨A', hi, ha⟩ := h.freed self s.pc (f := .flushed) (fun _ _ => trivial) rfl
        (by rw [hu]; nofun)
      have hhd : s.q.head self ≠ none := by
        rw [Ne, h.shape.head_none, hm, queue, if_pos rfl]
        simp [hb]
      have hl : firstLine A s.q.hrsmgr self = none := if_pos ⟨hm, hb⟩
      have ha := ha hhd
      rw [hl] at ha
      have hlen : (A' (.waiting none)).length ≤ n := by
        rw [ha, List.length_tail]
        omega
      have hi' : Inv (HrMsg.freed s self .flushed) A' := hi.congr rfl rfl freed_pc rfl
      obtain ⟨A2, h2, hb2, hu2, he2⟩ := ih hi' (freed_hrsmgr.trans hm) (freed_pc.trans hu) hlen
      exact ⟨A2, h2, hb2, hu2, he2.trans freed_evmfree⟩

lemma Inv.flush (h : Inv s A) (hu : s.pc = .user) :
    ∃ A', Inv { s with
      q := hrflush s.q self
      log := (reached s.q.mb_next NMBUF (s.q.head self)).foldl (Log.leave .flushed) s.log } A' := by
  have hnd := (h.shape.chain self).nodup
  have hlen : (queue A s.q.hrsmgr self).length ≤ NMBUF := by
    have hcard := hnd.length_le_card
    rwa [Fintype.card_fin] at hcard
  rw [(h.shape.chain self).reached_eq hlen]
  refine ⟨_, h.shape.hrflush h.placed, h.placed.flushed hnd, ?_, ?_, ?_⟩
  · change A .hand = _
    exact h.hand
  · rw [queue, List.foldl_append]
    have hlines : (fun l => flushed A s.q.hrsmgr self (.waiting l)) =
        Function.update (Function.update (fun l => A (.waiting l)) none
          (if s.q.hrsmgr = some self then [] else A (.waiting none))) (some self) [] := by
      funext l
      cases l with
      | none => rfl
      | some d =>
        by_cases hd : d = self
        · subst hd
          rw [Function.update_self]
          exact if_pos rfl
        · rw [Function.update_of_ne (by simpa using hd), Function.update_of_ne (by simp)]
          exact if_neg hd
    have hbuttons : Booked ((if s.q.hrsmgr = some self then A (.waiting none) else []).foldl
        (Log.leave .flushed) s.log) s.mb_m (Function.update (fun l => A (.waiting l)) none
          (if s.q.hrsmgr = some self then [] else A (.waiting none))) := by
      refine h.booked.flush ?_
      split <;> simp
    rw [hlines]
    refine hbuttons.flush ?_
    rw [Function.update_of_ne (by simp), List.append_nil]
  · rw [hu]
    nofun

lemma Inv.hrkey (h : Inv s A) (hp : s.q.mbufp = some p) :
    ∃ A', Inv (linked { s with q := unlink s.q p, mb_m := Function.update s.mb_m p m } mgr p) A' := by
  have ht := h.taken hp
  have hpm : p ∈ moved A .free .hand (p :: A .hand) .hand := by simp
  refine ⟨_, ht.shape.hrlink ht.placed ht.hand, ht.placed.moved ht.hand ?_ (by simp), ?_, ?_, ?_⟩
  · exact List.perm_append_singleton p _
  · rw [moved_from (by simp), ht.hand]
    rfl
  · rw [lines_moved_to]
    exact (ht.booked.fill (ht.placed.in_hand hpm)).note (ht.placed.in_hand hpm) rfl nofun
  · -- what was copied out stays in front
    intro self m' hpc
    obtain ⟨p', hp', hm'⟩ := h.copied self m' hpc
    have hne : p' ≠ p := by
      rintro rfl
      have hq := h.shape.chain self
      rw [hp'] at hq
      cases hqs : queue A s.q.hrsmgr self with
      | nil =>
        rw [hqs] at hq
        cases hq
      | cons b ls =>
        rw [hqs] at hq
        obtain rfl := Option.some.inj hq.1
        obtain ⟨⟨l, hl⟩, -⟩ := h.shape.unlink hp
        have hfree : p' ∈ A .free := by simp [hl]
        exact h.placed.not_mem_queue hfree (by simp) (hqs ▸ List.mem_cons_self ..)
    refine ⟨p', ?_, ?_⟩
    · change (HrMsg.hrlink (unlink s.q p) mgr p).head self = some p'
      rw [HrMsg.hrlink]
      split
      · exact hp'
      · next hn =>
        have hself : self ≠ mgr := by
          rintro rfl
          exact absurd (hn.symm.trans hp') (by simp)
        dsimp only
        rw [Function.update_of_ne hself]
        exact hp'
    · change Function.update s.mb_m p m p' = m'
      rw [Function.update_of_ne hne, hm']

lemma Inv.hrmouse (h : Inv s A) (hu : s.pc = .user) (hp : s.q.mbufp = some p)
    (hm : s.q.hrsmgr = some mgr) (hb : m.isButton) :
    ∃ A', Inv { s with
      q := press (unlink s.q p) mgr p
      mb_m := Function.update s.mb_m p m
      log := s.log.note none p m } A' := by
  have ht := h.taken hp
  have hpm : p ∈ moved A .free .hand (p :: A .hand) .hand := by simp
  refine ⟨_, ht.shape.press ht.placed ht.hand hm, ht.placed.moved ht.hand ?_ (by simp), ?_, ?_, ?_⟩
  · exact List.perm_append_singleton p _
  · rw [moved_from (by simp), ht.hand]
    rfl
  · rw [lines_moved_to]
    refine (ht.booked.fill (ht.placed.in_hand hpm)).note (ht.placed.in_hand hpm) ?_ fun _ => hb
    exact Function.update_self ..
  · rw [hu]
    nofun

lemma Inv.hrevmgr (h : Inv s A) (hu : s.pc = .user) (hq : t.q = HrMsg.hrevmgr s.q self)
    (hm : t.mb_m = s.mb_m) (hp : t.pc = s.pc) (hl : t.log = s.log) : Inv t A := by
  refine ⟨hq ▸ h.shape.hrevmgr h.placed, h.placed, hp ▸ h.hand, ?_, ?_⟩
  · rw [hl, hm]
    exact h.booked
  · rw [hp, hu]
    nofun

end Steps

/-- The operation takes an entry off the list of free ones. -/
def Takes (s : State) : Op → Prop
  | .evmgr self _ => wants s self ∧ s.hrislocked = false ∧ s.q.hrsmgr ≠ none
  | .evmgrwoken _ _ => s.q.hrsmgr ≠ none
  | _ => False

/-- An entry is left if one is taken. -/
def Careful (s : State) (op : Op) : Prop := Takes s op → s.evmfree ≠ .entries 0

instance (s : State) (op : Op) : Decidable (Takes s op) := by
  cases op <;> simp only [Takes] <;> infer_instance

instance (s : State) (op : Op) : Decidable (Careful s op) :=
  inferInstanceAs (Decidable (_ → _))

def CarefulStep (s : State) (op : Op) (t : State) : Prop := Step s op t ∧ Careful s op

/-- The lists are in order, and `evmfree` is a list. -/
structure Fine (s : State) : Prop where
  inv : ∃ A, Inv s A
  evm : ∃ n, s.evmfree = .entries n

section Run

variable {s t : State} {op : Op} {self d : Dest} {w : Option Mbuf} {n : ℕ}

lemma Fine.become (h : Fine s) (hu : s.pc = .user)
    (hc : s.q.hrsmgr ≠ none → s.evmfree ≠ .entries 0) : Fine (become s self w) := by
  obtain ⟨⟨A, hi⟩, n, hn⟩ := h
  rw [HrMsg.become]
  cases hm : s.q.hrsmgr with
  | none => exact ⟨⟨A, hi.hrevmgr hu rfl rfl rfl rfl⟩, n, hn⟩
  | some mgr =>
    cases n with
    | zero => exact absurd hn (hc (by simp [hm]))
    | succ n =>
      simp only [takeev, hn]
      exact ⟨⟨A, hi.hrevmgr hu rfl rfl rfl rfl⟩, n, rfl⟩

lemma Fine.hruevmgr (h : Fine s) (hu : s.pc = .user) : Fine (hruevmgr s self) := by
  obtain ⟨⟨A, hi⟩, n, hn⟩ := h
  rw [HrMsg.hruevmgr]
  split
  · next hm =>
    cases s.evmlist with
    | nil =>
      have hlen : (A (.waiting none)).length ≤ NMBUF := by
        have hcard := (hi.placed.nodup (.waiting none)).length_le_card
        rwa [Fintype.card_fin] at hcard
      obtain ⟨A', hi', hb, hu', he⟩ := hi.drain hm hu hlen
      refine ⟨⟨A', hi'.shape.leaderless hb none, hi'.placed, hi'.hand, hi'.booked, ?_⟩, n,
        he.trans hn⟩
      intro d m hd
      exact absurd (hu'.symm.trans hd) nofun
    | cons e l =>
      refine ⟨⟨A, hi.hrevmgr hu rfl rfl rfl rfl⟩, n + 1, ?_⟩
      change s.evmfree.put = _
      rw [hn]
      rfl
  · split
    · refine ⟨⟨A, hi.congr rfl rfl rfl rfl⟩, n + 1, ?_⟩
      change s.evmfree.put = _
      rw [hn]
      rfl
    · exact ⟨⟨A, hi⟩, n, hn⟩

lemma Pc.eq_user {pc : Pc} (h : pc.isUser = true) : pc = .user := by
  cases pc <;> first | rfl | cases h

/-- `CIOGETM` frees the buffer it has copied out. -/
lemma Inv.hrfree {A : Place → List Mbuf} {m : Message} (h : Inv s A)
    (hpc : s.pc = .copied self m) :
    ∃ A', Inv { HrMsg.freed s self (.got self m) with pc := .user } A' := by
  obtain ⟨p, hp, hm⟩ := h.copied self m hpc
  have hpq : p ∈ queue A s.q.hrsmgr self := by
    have hch := h.shape.chain self
    rw [hp] at hch
    cases hq : queue A s.q.hrsmgr self with
    | nil =>
      rw [hq] at hch
      cases hch
    | cons b ls =>
      rw [hq] at hch
      obtain rfl := Option.some.inj hch.1
      simp
  have hright : (Fate.got self m).right (s.log.ent p) := by
    rcases mem_queue.mp hpq with ⟨-, hb⟩ | hl
    · have := h.booked.mine none p hb
      exact ⟨by rw [this.2, hm], .inl this.1⟩
    · have := h.booked.mine (some self) p hl
      exact ⟨by rw [this.2, hm], .inr this.1⟩
  obtain ⟨A', hi, -⟩ := h.freed self .user (f := .got self m)
    (fun p' hp' => by
      obtain rfl := Option.some.inj (hp.symm.trans hp')
      exact hright) (by rw [hpc]; rfl) nofun
  exact ⟨A', hi⟩

/-- What every careful step keeps. -/
lemma Fine.step (h : Fine s) (hst : CarefulStep s op t) : Fine t := by
  obtain ⟨⟨hen, rfl⟩, hc⟩ := hst
  obtain ⟨A, hi⟩ := h.inv
  obtain ⟨n, hn⟩ := h.evm
  cases op with
  | sendm self =>
    change Fine (if ismbfree s.q then took s (.sendm self) else s)
    split
    · refine ⟨hi.took (Pc.eq_user hen.2) (fun _ => rfl) nofun, n, ?_⟩
      rw [took]
      split <;> exact hn
    · exact h
  | copyin r =>
    dsimp only [exec]
    cases hp : s.pc with
    | sendm self p =>
      have hh : s.pc.hand = [p] := by rw [hp]; rfl
      cases r with
      | none => exact ⟨⟨A, hi.unalloc hh⟩, n, hn⟩
      | some m =>
        dsimp only
        split
        · exact ⟨⟨A, hi.filled hh rfl nofun⟩, n, hn⟩
        · exact ⟨⟨A, hi.filled hh rfl nofun⟩, n, hn⟩
    | _ => exact h
  | hralloc self =>
    refine ⟨hi.took (Pc.eq_user hen.2.1) (fun _ => rfl) nofun, n, ?_⟩
    dsimp only [exec, took]
    split <;> exact hn
  | fill r =>
    dsimp only [exec]
    cases hp : s.pc with
    | request self p =>
      have hh : s.pc.hand = [p] := by rw [hp]; rfl
      cases r with
      | none => exact ⟨⟨A, hi.unalloc hh⟩, n, hn⟩
      | some m => exact ⟨⟨A, hi.filled hh rfl nofun⟩, n, hn⟩
    | _ => exact h
  | hrlink =>
    dsimp only [exec]
    cases hp : s.pc with
    | link d p => exact ⟨hi.hrlink hp, n, hn⟩
    | _ => exact h
  | hrunalloc =>
    dsimp only [exec]
    cases hp : s.pc with
    | unalloc p => exact ⟨hi.hrunalloc hp, n, hn⟩
    | _ => exact h
  | getm self ok =>
    dsimp only [exec]
    split
    · next p hp =>
      refine ⟨⟨A, hi.shape, hi.placed, ?_, hi.booked, ?_⟩, n, hn⟩
      · rw [hi.hand, Pc.eq_user hen.2.1]
        rfl
      · rintro self' m ⟨⟩
        exact ⟨p, hp, rfl⟩
    · exact h
  | hrfree =>
    dsimp only [exec]
    cases hp : s.pc with
    | copied self m => exact ⟨hi.hrfree hp, n, freed_evmfree.trans hn⟩
    | _ => exact h
  | flush self => exact ⟨hi.flush (Pc.eq_user hen.2), n, hn⟩
  | evmgr self w =>
    dsimp only [exec]
    split
    · next hw =>
      split
      · exact ⟨⟨A, hi.congr rfl rfl rfl rfl⟩, n, hn⟩
      · next hl => exact h.become (Pc.eq_user hen.2) fun hm => hc ⟨hw, by simpa using hl, hm⟩
    · exact h
  | evmgrwoken self w =>
    have hf : Fine { s with waiting := s.waiting.erase self } :=
      ⟨⟨A, hi.congr rfl rfl rfl rfl⟩, n, hn⟩
    exact hf.become (Pc.eq_user hen.2.1) hc
  | evmgrsig self => exact ⟨⟨A, hi.congr rfl rfl rfl rfl⟩, n, hn⟩
  | uevmgr self => exact h.hruevmgr (Pc.eq_user hen.2.1)
  | hold self | uhold self =>
    dsimp only [exec]
    split
    · exact ⟨⟨A, hi.congr rfl rfl rfl rfl⟩, n, hn⟩
    · exact h
  | hrmseon =>
    dsimp only [exec]
    split
    · exact ⟨⟨A, hi.congr rfl rfl rfl rfl⟩, n, hn⟩
    · split <;> exact ⟨⟨A, hi.congr rfl rfl rfl rfl⟩, n, hn⟩
  | hrmseoff => exact ⟨⟨A, hi.congr rfl rfl rfl rfl⟩, n, hn⟩
  | hrkey hrticks key =>
    dsimp only [exec]
    split
    · next mgr p _ hp => exact ⟨hi.hrkey hp, n, hn⟩
    · exact h
  | hrmouse hrticks x y =>
    dsimp only [exec]
    split
    · next mgr p hm hp =>
      exact ⟨hi.hrmouse (Pc.eq_user hen.2.1) hp hm ⟨rfl, rfl⟩, n, hn⟩
    · exact h

end Run

/-- What holds of the buffers, the queues and the messages. -/
structure Good (s : State) (A : Place → List Mbuf) : Prop where
  free : Linked s.q.mb_next s.q.mbufp (A .free)
  chain : ∀ d, Linked s.q.mb_next (s.q.head d) (queue A s.q.hrsmgr d)
  once : (List.flatten [A .free, (List.finRange DESTMAX).flatMap (queue A s.q.hrsmgr),
    s.pc.hand]).Perm (List.finRange NMBUF)
  tail : ∀ d, queue A s.q.hrsmgr d ≠ [] → s.q.tail d = (queue A s.q.hrsmgr d).getLast?
  mstail : ∀ t, s.q.mstail = some t → ∃ d l l', s.q.hrsmgr = some d ∧
    queue A s.q.hrsmgr d = l ++ t :: l' ∧ ∀ b ∈ l, (s.mb_m b).isButton
  booked : Booked s.log s.mb_m fun l => A (.waiting l)

/-- Every buffer is in its place, every queue in order, and every message goes its way. -/
def Sound (s : State) : Prop := ∃ A, Good s A

section Result

variable {s t : State} {A : Place → List Mbuf}

lemma Inv.once (h : Inv s A) :
    (List.flatten [A .free, (List.finRange DESTMAX).flatMap (queue A s.q.hrsmgr),
      s.pc.hand]).Perm (List.finRange NMBUF) := by
  have hpl := h.placed
  simp only [List.flatten_cons, List.flatten_nil, List.append_nil]
  rw [List.perm_ext_iff_of_nodup _ (List.nodup_finRange _)]
  · -- each has a place
    intro b
    refine iff_of_true ?_ (List.mem_finRange b)
    obtain ⟨f, hf⟩ := hpl.place
    have hb : b ∈ A (f b) := (hf _ _).mpr rfl
    rw [List.mem_append, List.mem_append, List.mem_flatMap]
    cases hfb : f b with
    | free => exact .inl (hfb ▸ hb)
    | hand =>
      rw [hfb, h.hand] at hb
      exact .inr (.inr hb)
    | waiting l =>
      rw [hfb] at hb
      refine .inr (.inl ?_)
      cases l with
      | some d => exact ⟨d, List.mem_finRange d, mem_queue.mpr (.inr hb)⟩
      | none =>
        cases hm : s.q.hrsmgr with
        | none =>
          rw [h.shape.nomgr hm] at hb
          cases hb
        | some d => exact ⟨d, List.mem_finRange d, mem_queue.mpr (.inl ⟨rfl, hb⟩)⟩
  · -- and no two
    have hqueues : ((List.finRange DESTMAX).flatMap (queue A s.q.hrsmgr)).Nodup := by
      rw [List.nodup_flatMap]
      refine ⟨fun d _ => (h.shape.chain d).nodup, ?_⟩
      refine (List.nodup_finRange _).imp fun hne b hb hb' => ?_
      exact hne (hpl.queue_unique hb hb')
    have hhand : s.pc.hand.Nodup := h.hand ▸ hpl.nodup _
    refine List.nodup_append'.mpr ⟨hpl.nodup _, List.nodup_append'.mpr ⟨hqueues, hhand, ?_⟩, ?_⟩
    · intro b hb hb'
      obtain ⟨d, -, hb⟩ := List.mem_flatMap.mp hb
      rw [← h.hand] at hb'
      exact hpl.not_mem_queue hb' (by simp) hb
    · intro b hb hb'
      rcases List.mem_append.mp hb' with hb' | hb'
      · obtain ⟨d, -, hb'⟩ := List.mem_flatMap.mp hb'
        exact hpl.not_mem_queue hb (by simp) hb'
      · rw [← h.hand] at hb'
        exact hpl.disjoint hb (by simp) hb'

lemma Inv.good (h : Inv s A) : Good s A := by
  refine ⟨h.shape.free, h.shape.chain, h.once, h.shape.tail, fun t ht => ?_, h.booked⟩
  rw [h.shape.mstail] at ht
  rcases List.eq_nil_or_concat (A (.waiting none)) with hb | ⟨l, t', hb⟩
  · rw [hb] at ht
    cases ht
  · rw [List.concat_eq_append] at hb
    rw [hb, List.getLast?_concat] at ht
    obtain rfl := Option.some.inj ht
    cases hm : s.q.hrsmgr with
    | none =>
      rw [h.shape.nomgr hm] at hb
      exact absurd hb (by simp)
    | some d =>
      refine ⟨d, l, A (.waiting (some d)), rfl, ?_, fun b hbl => h.booked.buttons b ?_⟩
      · rw [queue, if_pos rfl, hb, List.append_assoc, List.singleton_append]
      · rw [hb]
        exact List.mem_append_left _ hbl

/-- All buffers are free. -/
def allFree : Place → List Mbuf
  | .free => List.finRange NMBUF
  | _ => []

lemma hrload_linked : Linked hrload.q.mb_next hrload.q.mbufp (List.finRange NMBUF) := by
  decide +kernel

lemma hrload_fine : Fine hrload := by
  have hq : ∀ d, queue allFree none d = [] := fun d => queue_of_no_buttons rfl none
  refine ⟨⟨allFree, ⟨hrload_linked, fun d => ?_, fun d hd => absurd (hq d) hd, rfl, fun _ => rfl⟩,
    ⟨fun pl => ?_, fun _ => .free, fun pl b => ?_⟩, rfl, ?_, nofun⟩, WINDOW, rfl⟩
  · change Linked hrload.q.mb_next none (queue allFree none d)
    rw [hq]
    rfl
  · cases pl with
    | free => exact List.nodup_finRange _
    | _ => exact List.nodup_nil
  · cases pl with
    | free => exact iff_of_true (List.mem_finRange b) rfl
    | _ => exact iff_of_false List.not_mem_nil nofun
  · exact ⟨fun _ _ hb => absurd hb List.not_mem_nil, fun _ => rfl,
      fun _ _ hx => absurd hx List.not_mem_nil, fun _ => List.Pairwise.nil,
      fun _ _ he => absurd he List.not_mem_nil, fun _ hb => absurd hb List.not_mem_nil⟩

end Result

/-- Client 3 becomes the manager; client 1 sends it a message and a key and a button follow; the
manager reads the button message, while a key comes in. -/
def readOps : List Op :=
  [.evmgr 3 none, .hrmseon, .sendm 1, .copyin (some ⟨3, ![7, 0, 0, 0]⟩), .hrkey 0 65, .hrlink,
    .hrmouse 1 0x8000 0x8000, .getm 3 true, .hrkey 2 66, .hrfree]

lemma read_run : Along (fun s op => Enabled s op ∧ Careful s op) exec hrload readOps ∧
    (((readOps.foldl exec hrload).log.past none).map fun x => x.1.m.m_msg 2) = [0x8000] := by
  decide +kernel

/-- Client 3 holds the screen manager while eight processes want to make client 2 the manager.
After the release each of them takes an entry. -/
def strayOps : List Op :=
  List.flatten [[.evmgr 3 none, .hold 3], List.replicate 8 (.evmgr 2 none), [.uhold 3],
    List.replicate 6 (.evmgrwoken 2 none), [.evmgrwoken 2 (some 50), .evmgrwoken 2 none]]

lemma stray_run : Along Enabled exec hrload strayOps ∧
    (reached (strayOps.foldl exec hrload).q.mb_next NMBUF (strayOps.foldl exec hrload).q.mbufp).length
      = 51 ∧
    (∀ d, (strayOps.foldl exec hrload).q.head d = none) ∧
    (strayOps.foldl exec hrload).pc = .user := by
  refine ⟨by decide +kernel, by decide +kernel, by decide +kernel, Pc.eq_user (by decide +kernel)⟩

end Coherent.HrMsg
