import Mathlib.Tactic
import Mathlib.Data.BitVec
import Coherent.Lib.Run

/-!
Drawing without the lock: the handshake between the window server, which raises `stacking` and
waits for the flags of the clients, and the clients, which raise their flag and look at
`stacking`.

One load or store of a shared word is one step. The drawing lock is taken by clients that do not
draw lock-free; here `hr_lock` may return at any time, which covers whatever the lock does.
-/

namespace Coherent.FastPath

open Coherent.Lib

abbrev Word := BitVec 16

abbrev Pid := ℕ

def MAX_WINDOWS : ℕ := 16

def SHM_MAXVIS : Word := 12

def HR_MAGIC : Word := 0x4846

structure HRRECT where
  x0 : Word
  y0 : Word
  x1 : Word
  y1 : Word
  deriving DecidableEq

/-- The words of a descriptor behind `seq`. -/
inductive Field
  | mapped
  | ox
  | oy
  | cw
  | ch
  | nvis
  | x0 (i : ℕ)
  | y0 (i : ℕ)
  | x1 (i : ℕ)
  | y1 (i : ℕ)
  deriving DecidableEq

/-- A descriptor without its `seq`. -/
abbrev Surf := Field → Word

structure HRSURF where
  seq : Word
  fld : Surf

/-- The fields of the first `n` visible rectangles. -/
def visFields (n : ℕ) : List Field :=
  (List.range n).flatMap fun i => [.x0 i, .y0 i, .x1 i, .y1 i]

def visRect (t : Surf) (i : ℕ) : HRRECT := ⟨t (.x0 i), t (.y0 i), t (.x1 i), t (.y1 i)⟩

/-! ### Geometry -/

/-- The test of `cl_pbegin` for the sprite. -/
def meets (b cur : HRRECT) : Bool :=
  b.x0.slt cur.x1 && cur.x0.slt b.x1 && b.y0.slt cur.y1 && cur.y0.slt b.y1

/-- `cl_curbox`. -/
def cl_curbox (curx cury : Word) : HRRECT :=
  let x0 := curx &&& ~~~7
  ⟨x0 - 8, cury - 8, x0 + 24 + 8, cury + 16 + 8⟩

/-- `cl_fullyvis`. -/
def cl_fullyvis (S : Surf) : Bool :=
  S .mapped != 0 && S .nvis == 1 && S (.x0 0) == S .ox && S (.y0 0) == S .oy &&
    S (.x1 0) == S .ox + S .cw && S (.y1 0) == S .oy + S .ch

/-- A rectangle of the content, on the screen. -/
def onScreen (S : Surf) (c : HRRECT) : HRRECT :=
  ⟨S .ox + c.x0, S .oy + c.y0, S .ox + c.x1, S .oy + c.y1⟩

/-- What `cl_sync` leaves of a visible rectangle in the cell `f`. -/
def clampRect (f r : HRRECT) : HRRECT :=
  ⟨if r.x0.slt f.x0 then f.x0 else r.x0, if r.y0.slt f.y0 then f.y0 else r.y0,
    if f.x1.slt r.x1 then f.x1 else r.x1, if f.y1.slt r.y1 then f.y1 else r.y1⟩

def setVis (S : Surf) (n : ℕ) (r : HRRECT) : Surf
  | .x0 i => if i = n then r.x0 else S (.x0 i)
  | .y0 i => if i = n then r.y0 else S (.y0 i)
  | .x1 i => if i = n then r.x1 else S (.x1 i)
  | .y1 i => if i = n then r.y1 else S (.y1 i)
  | f => S f

/-- The end of `cl_sync` for a widget, whose cell in the content of its host is `sub`. -/
def clamp (sub : HRRECT) (S : Surf) : Surf :=
  let f := onScreen S sub
  let r := (List.range (S .nvis).toInt.toNat).foldl (fun (a : Surf × ℕ) i =>
    let r := clampRect f (visRect a.1 i)
    if r.x0.slt r.x1 && r.y0.slt r.y1 then (setVis a.1 a.2 r, a.2 + 1) else a) (S, 0)
  Function.update (Function.update (Function.update (Function.update (Function.update r.1
    .nvis (BitVec.ofNat 16 r.2)) .ox f.x0) .oy f.y0) .cw (sub.x1 - sub.x0)) .ch
    (sub.y1 - sub.y0)

/-! ### The parties -/

/-- The three calls of `cl_sync` and `cl_curbox` in `cl_pbegin`. -/
inductive Stage
  | first
  /-- after the flag was raised -/
  | pinned
  /-- under the lock -/
  | locked
  deriving DecidableEq

/-- Where a client stands in `cl_sync`. -/
inductive Sync
  /-- about to load `seq` for the quick test -/
  | quick
  /-- about to load `s1` -/
  | seq1
  /-- about to load the fields -/
  | copy (s1 : Word) (fs : List Field)
  /-- about to load `s2` -/
  | seq2 (s1 : Word)
  deriving DecidableEq

/-- Where a client stands. -/
inductive Pc
  /-- no such process -/
  | gone
  /-- outside -/
  | idle
  | sync (n : Stage) (k : Sync)
  | magic
  | curx (n : Stage)
  | cury (n : Stage) (x : Word)
  /-- about to load `overlay`, for the first test -/
  | overlay
  /-- about to raise the flag -/
  | raise
  /-- about to load `stacking` -/
  | stacking
  /-- about to make the second test -/
  | test
  /-- about to lower the flag -/
  | lower
  /-- in `hr_lock` -/
  | lock
  /-- `cl_pbegin` has returned 0 -/
  | inside
  /-- `cl_pbegin` has returned 1 -/
  | drawing
  deriving DecidableEq

structure Client where
  pc : Pc
  mywid : ℕ
  /-- the cell of a widget -/
  sub : Option HRRECT
  S : Surf
  lastseq : Word
  /-- `cx0` to `cy1` -/
  c : HRRECT
  /-- `bx0` to `by1` -/
  b : HRRECT
  /-- `curbx0` to `curby1` -/
  cur : HRRECT

/-- Where the server stands. -/
inductive Server
  /-- without the lock -/
  | out
  /-- in `hr_lock` -/
  | lock
  /-- about to raise `stacking` -/
  | raise
  /-- about to load the flag of window `w` -/
  | drain (w : ℕ)
  /-- in what `srvlock` and `srvunlock` enclose -/
  | inside
  /-- `publish_surf` of window `w`: about to clear the flag -/
  | unmap (w : ℕ) (t : Surf)
  /-- about to compare the descriptor with the one that is published -/
  | compare (w : ℕ) (t : Surf)
  /-- about to make `seq` odd -/
  | odd (w : ℕ) (t : Surf)
  /-- about to store the fields -/
  | store (w : ℕ) (t : Surf) (fs : List Field)
  /-- about to make `seq` even -/
  | even (w : ℕ)
  /-- about to lower `stacking` -/
  | lower
  /-- about to call `hr_unlock` -/
  | unlock

structure State where
  magic : Word
  curx : Word
  cury : Word
  overlay : Word
  stacking : Word
  /-- `SHM_INDRAW` -/
  indraw : ℕ → BitVec 8
  surf : ℕ → HRSURF
  server : Server
  locklevel : ℕ
  client : Pid → Client

def setClient (s : State) (p : Pid) (c : Client) : State :=
  { s with client := Function.update s.client p c }

def hr_setdraw (s : State) (wid : ℕ) (v : BitVec 8) : State :=
  { s with indraw := Function.update s.indraw wid v }

/-! ### The clients -/

/-- The fields that `cl_sync` loads before the visible rectangles. -/
def headFields : List Field := [.mapped, .ox, .oy, .cw, .ch, .nvis]

/-- `S.nvis`, with the bound of `cl_sync`. -/
def bounded (n : Word) : Word := if SHM_MAXVIS.slt n then SHM_MAXVIS else n

/-- What follows a `cl_sync`. -/
def afterSync : Stage → Pc
  | .first => .magic
  | n => .curx n

/-- One load of `cl_sync`. -/
def cl_sync (q : HRSURF) (c : Client) (n : Stage) : Sync → Client
  | .quick =>
    { c with pc := if q.seq &&& 1 = 0 ∧ q.seq = c.lastseq then afterSync n else .sync n .seq1 }
  | .seq1 => { c with pc := .sync n (.copy q.seq headFields) }
  | .copy s1 [] => { c with pc := .sync n (.seq2 s1) }
  | .copy s1 (.nvis :: _) =>
    let v := bounded (q.fld .nvis)
    { c with
      S := Function.update c.S .nvis v
      pc := .sync n (.copy s1 (visFields v.toInt.toNat)) }
  | .copy s1 (f :: fs) =>
    { c with S := Function.update c.S f (q.fld f), pc := .sync n (.copy s1 fs) }
  | .seq2 s1 =>
    if s1 &&& 1 ≠ 0 ∨ s1 ≠ q.seq then { c with pc := .sync n .seq1 }
    else { c with
      S := match c.sub with
        | some sub => clamp sub c.S
        | none => c.S
      lastseq := s1
      pc := afterSync n }

/-- What follows a `cl_curbox`. -/
def afterCurbox (c : Client) : Stage → Client
  | .first => { c with b := onScreen c.S c.c, pc := .overlay }
  | .pinned => { c with pc := .test }
  | .locked => { c with pc := .drawing }

/-- The next load or store of client `p` in `cl_pbegin`. -/
def cl_pbegin (s : State) (p : Pid) : State :=
  let c := s.client p
  match c.pc with
  | .sync n k => setClient s p (cl_sync (s.surf c.mywid) c n k)
  | .magic => setClient s p { c with pc := if s.magic ≠ HR_MAGIC then .gone else .curx .first }
  | .curx n => setClient s p { c with pc := .cury n s.curx }
  | .cury n x => setClient s p (afterCurbox { c with cur := cl_curbox x s.cury } n)
  | .overlay => setClient s p { c with
      pc := if c.sub = none ∧ c.S .mapped ≠ 0 ∧ s.overlay = 0 ∧ cl_fullyvis c.S = true ∧
        meets c.b c.cur = false then .raise else .lock }
  | .raise => hr_setdraw (setClient s p { c with pc := .stacking }) c.mywid 1
  | .stacking => setClient s p { c with
      pc := if s.stacking = 0 then .sync .pinned .quick else .lower }
  | .test => setClient s p { c with
      pc := if c.S .mapped ≠ 0 ∧ cl_fullyvis c.S = true ∧ meets c.b c.cur = false
        then .inside else .lower }
  | .lower => hr_setdraw (setClient s p { c with pc := .lock }) c.mywid 0
  | .lock => setClient s p { c with pc := .sync .locked .quick }
  | _ => s

/-- `cl_pend`. -/
def cl_pend (s : State) (p : Pid) : State :=
  let c := s.client p
  match c.pc with
  | .inside => hr_setdraw (setClient s p { c with pc := .idle }) c.mywid 0
  | _ => setClient s p { c with pc := .idle }

/-- A new client: `cl_init`, or `cl_subinit` for a widget. -/
def cl_init (s : State) (p : Pid) (wid : ℕ) (sub : Option HRRECT) (S : Surf) (r : HRRECT) :
    State :=
  let t := setClient s p ⟨.idle, wid, sub, S, -1, r, r, r⟩
  match sub with
  | none => hr_setdraw t wid 0
  | some _ => t

/-! ### The server -/

/-- The fields that `publish_surf` stores, in its order. -/
def pubFields (t : Surf) : List Field :=
  [.mapped, .ox, .oy, .cw, .ch] ++ visFields (t .nvis).toInt.toNat ++ [.nvis]

/-- A descriptor that says nothing new. -/
def unchanged (t q : Surf) : Prop := ∀ f ∈ pubFields t, t f = q f

instance (t q : Surf) : Decidable (unchanged t q) := by
  unfold unchanged; infer_instance

def putSeq (s : State) (w : ℕ) (q : Word) : State :=
  { s with surf := Function.update s.surf w ⟨q, (s.surf w).fld⟩ }

def putField (s : State) (w : ℕ) (f : Field) (v : Word) : State :=
  { s with
    surf := Function.update s.surf w ⟨(s.surf w).seq, Function.update (s.surf w).fld f v⟩ }

/-- The next load or store of the server in `srvlock`, `publish_surf` or `srvunlock`. -/
def srvstep (s : State) : State :=
  match s.server with
  | .lock => { s with server := .raise }
  | .raise => { s with stacking := 1, server := .drain 0 }
  | .drain w => { s with
      server := if s.indraw w ≠ 0 then .drain w
        else if w + 1 < MAX_WINDOWS then .drain (w + 1) else .inside }
  | .unmap w t => { hr_setdraw s w 0 with server := .compare w t }
  | .compare w t => { s with
      server := if unchanged t (s.surf w).fld then .inside else .odd w t }
  | .odd w t => { putSeq s w ((s.surf w).seq + 1) with server := .store w t (pubFields t) }
  | .store w _ [] => { s with server := .even w }
  | .store w t (f :: fs) => { putField s w f (t f) with server := .store w t fs }
  | .even w => { putSeq s w ((s.surf w).seq + 1) with server := .inside }
  | .lower => { s with stacking := 0, server := .unlock }
  | .unlock => { s with server := .out }
  | _ => s

/-! ### Steps -/

inductive Op
  | srvlock
  /-- a load or a store of the server, or the return of its `hr_lock` -/
  | server
  /-- a layer is changed -/
  | layer
  /-- `publish_surf`, and what it makes of the layers -/
  | publish_surf (w : ℕ) (t : Surf)
  | srvunlock
  /-- `killwin`, up to its `srvlock` -/
  | killwin (w : ℕ)
  /-- an overlay comes or goes -/
  | overlay (v : Word)
  /-- the driver moves the sprite -/
  | cursor (x y : Word)
  /-- the session ends -/
  | unmagic
  | cl_init (p : Pid) (wid : ℕ) (sub : Option HRRECT) (S : Surf) (r : HRRECT)
  | call (p : Pid) (c : HRRECT)
  /-- a load or a store of client `p` in `cl_pbegin`, or the return of its `hr_lock` -/
  | client (p : Pid)
  /-- it paints -/
  | paint (p : Pid)
  | cl_pend (p : Pid)
  | die (p : Pid)

def Server.isOut : Server → Bool
  | .out => true
  | _ => false

def Server.isInside : Server → Bool
  | .inside => true
  | _ => false

/-- The client is in `cl_pbegin`. -/
def Pc.begins : Pc → Bool
  | .gone | .idle | .inside | .drawing => false
  | _ => true

/-- The client is in a primitive. -/
def Pc.draws (c : Pc) : Prop := c = .inside ∨ c = .drawing

instance (c : Pc) : Decidable c.draws := by
  unfold Pc.draws; infer_instance

/-- When an operation can be the next step. -/
def Enabled (s : State) : Op → Prop
  | .srvlock => s.server.isOut = true ∨ s.server.isInside = true
  | .server => s.server.isOut = false ∧ s.server.isInside = false
  | .layer | .srvunlock => s.server.isInside = true
  | .publish_surf w _ => s.server.isInside = true ∧ w < MAX_WINDOWS
  | .killwin w => s.server.isOut = true ∧ w < MAX_WINDOWS
  | .overlay _ => s.server.isOut = true ∨ s.server.isInside = true
  | .cursor _ _ | .unmagic => True
  | .cl_init p wid _ _ _ => (s.client p).pc = .gone ∧ wid < MAX_WINDOWS
  | .call p _ => (s.client p).pc = .idle
  | .client p => (s.client p).pc.begins = true
  | .paint p | .cl_pend p => (s.client p).pc.draws
  | .die p => (s.client p).pc ≠ .gone

instance (s : State) (op : Op) : Decidable (Enabled s op) := by
  cases op <;> simp only [Enabled] <;> infer_instance

/-- What the operation does. -/
def exec (s : State) : Op → State
  | .srvlock => { s with
      locklevel := s.locklevel + 1
      server := if s.locklevel = 0 then .lock else s.server }
  | .server => srvstep s
  | .layer => s
  | .publish_surf w t => { s with server := if t .mapped = 0 then .unmap w t else .compare w t }
  | .srvunlock => { s with
      locklevel := s.locklevel - 1
      server := if s.locklevel = 1 then .lower else s.server }
  | .killwin w => { hr_setdraw s w 0 with locklevel := s.locklevel + 1, server := .lock }
  | .overlay v => { s with overlay := v }
  | .cursor x y => { s with curx := x, cury := y }
  | .unmagic => { s with magic := 0 }
  | .cl_init p wid sub S r => cl_init s p wid sub S r
  | .call p c => setClient s p { s.client p with c := c, pc := .sync .first .quick }
  | .client p => cl_pbegin s p
  | .paint _ => s
  | .cl_pend p => cl_pend s p
  | .die p => setClient s p { s.client p with pc := .gone }

/-- One step of the server, a client or the driver. -/
def Step (s : State) (op : Op) (t : State) : Prop := Enabled s op ∧ t = exec s op

/-- The server has cleared the flags, and there are no clients yet. -/
structure Initial (s : State) : Prop where
  stacking : s.stacking = 0
  indraw : ∀ w, s.indraw w = 0
  server : s.server.isOut = true
  locklevel : s.locklevel = 0
  client : ∀ p, (s.client p).pc = .gone

/-! ### What is to be shown -/

/-- The server holds the lock and may change a layer or a descriptor. -/
def Server.changes : Server → Prop
  | .inside | .unmap _ _ | .compare _ _ | .odd _ _ | .store _ _ _ | .even _ => True
  | _ => False

/-- What a primitive paints. -/
def Client.paints (c : Client) : HRRECT := onScreen c.S c.c

/-- Nobody paints lock-free while the server changes layers or descriptors, nor where the sprite
was found after the flag was raised. -/
def Excluded (s : State) : Prop :=
  ∀ p, (s.client p).pc = .inside →
    ¬ s.server.changes ∧ meets (s.client p).paints (s.client p).cur = false

/-- The client has found `stacking` clear, and draws lock-free or may be about to. -/
def Pc.pinned : Pc → Prop
  | .sync .pinned _ | .curx .pinned | .cury .pinned _ | .test | .inside => True
  | _ => False

/-- A live client that may raise the flag of window `w`. -/
def Client.raises (c : Client) (w : ℕ) : Prop := c.pc ≠ .gone ∧ c.sub = none ∧ c.mywid = w

/-- `killwin` finds no client of the window that draws lock-free; a client that finds `stacking`
clear finds its own flag up; the origin is what it was when `bx0` was computed; and a new client
finds the old one of its window gone. -/
def Careful (s : State) : Op → Prop
  | .killwin w => ∀ p, (s.client p).mywid = w → ¬ (s.client p).pc.pinned
  | .client p =>
    let c := s.client p
    (c.pc = .stacking → s.stacking = 0 → s.indraw c.mywid ≠ 0) ∧
      (c.pc = .test → c.b = c.paints)
  | .cl_init p wid sub _ _ => sub = none → ∀ p', p' ≠ p → ¬ (s.client p').raises wid
  | _ => True

def CarefulStep (s : State) (op : Op) (t : State) : Prop := Step s op t ∧ Careful s op

/-! ### The invariant -/

/-- The client has passed the first test. -/
def Pc.flagging : Pc → Prop
  | .raise | .stacking | .lower => True
  | c => c.pinned

/-- The server has raised `stacking` and has yet to lower it. -/
def Server.stacks : Server → Prop
  | .out | .lock | .raise | .unlock => False
  | _ => True

/-- The server has found the flag of window `w` clear since. -/
def Server.drained (w : ℕ) : Server → Prop
  | .out | .lock | .raise | .unlock => False
  | .drain w' => w < w'
  | _ => True

structure Inv (s : State) : Prop where
  stacking : s.server.stacks → s.stacking ≠ 0
  single : ∀ p p' w, (s.client p).raises w → (s.client p').raises w → p = p'
  widget : ∀ p, (s.client p).pc.flagging → (s.client p).sub = none
  window : ∀ p, (s.client p).pc ≠ .gone → (s.client p).mywid < MAX_WINDOWS
  up : ∀ p, (s.client p).pc.pinned → s.indraw (s.client p).mywid ≠ 0
  waited : ∀ p, (s.client p).pc.pinned → ¬ s.server.drained (s.client p).mywid
  clear : ∀ p, (s.client p).pc = .inside → meets (s.client p).paints (s.client p).cur = false

lemma Pc.pinned.flagging {c : Pc} (h : c.pinned) : c.flagging := by
  cases c <;> first | exact h | trivial

lemma Pc.flagging.alive {c : Pc} (h : c.flagging) : c ≠ .gone := by
  rintro rfl
  exact h

lemma Server.drained.stacks {v : Server} {w : ℕ} (h : v.drained w) : v.stacks := by
  cases v <;> trivial

lemma Server.changes.drained {v : Server} (h : v.changes) (w : ℕ) : v.drained w := by
  cases v <;> trivial

lemma Server.isInside.changes {v : Server} (h : v.isInside = true) : v.changes := by
  cases v <;> trivial

section Steps

variable {s t : State} {p : Pid}

lemma Inv.raises (h : Inv s) (hf : (s.client p).pc.flagging) :
    (s.client p).raises (s.client p).mywid := ⟨hf.alive, h.widget p hf, rfl⟩

/-- A step of the server, or of the driver. -/
lemma inv_server (h : Inv s) (hc : t.client = s.client)
    (hs : t.server.stacks → t.stacking ≠ 0)
    (hp : ∀ p, (s.client p).pc.pinned →
      t.indraw (s.client p).mywid ≠ 0 ∧ ¬ t.server.drained (s.client p).mywid) : Inv t where
  stacking := hs
  single := by rw [hc]; exact h.single
  widget := by rw [hc]; exact h.widget
  window := by rw [hc]; exact h.window
  up p hpin := by
    rw [hc] at hpin ⊢
    exact (hp p hpin).1
  waited p hpin := by
    rw [hc] at hpin ⊢
    exact (hp p hpin).2
  clear := by rw [hc]; exact h.clear

/-- A step of client `p`. -/
lemma inv_client (h : Inv s) {c : Client} (hp : (s.client p).pc ≠ .gone)
    (hw : c.mywid = (s.client p).mywid) (hsub : c.sub = (s.client p).sub)
    (hc : t.client = Function.update s.client p c) (hv : t.server = s.server)
    (hk : t.stacking = s.stacking) (hf : c.pc.flagging → (s.client p).sub = none)
    (hpin : c.pc.pinned →
      t.indraw (s.client p).mywid ≠ 0 ∧ ¬ s.server.drained (s.client p).mywid)
    (hin : c.pc = .inside → meets c.paints c.cur = false)
    (hother : ∀ p', p' ≠ p → (s.client p').pc.pinned → t.indraw (s.client p').mywid ≠ 0) :
    Inv t := by
  have hself : t.client p = c := by rw [hc]; exact Function.update_self ..
  have hne : ∀ p', p' ≠ p → t.client p' = s.client p' := fun p' hpp => by
    rw [hc]
    exact Function.update_of_ne hpp ..
  have hraise : ∀ p' w, (t.client p').raises w → (s.client p').raises w := by
    intro p' w hr
    by_cases hpp : p' = p
    · subst hpp
      rw [hself] at hr
      exact ⟨hp, hsub ▸ hr.2.1, hw ▸ hr.2.2⟩
    · rwa [hne p' hpp] at hr
  refine ⟨by rw [hv, hk]; exact h.stacking,
    fun p₁ p₂ w h1 h2 => h.single p₁ p₂ w (hraise _ _ h1) (hraise _ _ h2), fun p' hp' => ?_,
    fun p' hp' => ?_, fun p' hp' => ?_, fun p' hp' => ?_, fun p' hp' => ?_⟩
  all_goals by_cases hpp : p' = p
  · subst hpp
    rw [hself] at hp' ⊢
    exact hsub.trans (hf hp')
  · rw [hne p' hpp] at hp' ⊢
    exact h.widget p' hp'
  · subst hpp
    rw [hself, hw]
    exact h.window p' hp
  · rw [hne p' hpp] at hp' ⊢
    exact h.window p' hp'
  · subst hpp
    rw [hself] at hp' ⊢
    rw [hw]
    exact (hpin hp').1
  · rw [hne p' hpp] at hp' ⊢
    exact hother p' hpp hp'
  · subst hpp
    rw [hself] at hp' ⊢
    rw [hw, hv]
    exact (hpin hp').2
  · rw [hne p' hpp] at hp' ⊢
    rw [hv]
    exact h.waited p' hp'
  · subst hpp
    rw [hself] at hp' ⊢
    exact hin hp'
  · rw [hne p' hpp] at hp' ⊢
    exact h.clear p' hp'

/-- A step of client `p` that stores nothing. -/
lemma inv_goes (h : Inv s) {c : Client} (hp : (s.client p).pc ≠ .gone)
    (hw : c.mywid = (s.client p).mywid) (hsub : c.sub = (s.client p).sub)
    (hf : c.pc.flagging → (s.client p).pc.flagging)
    (hpin : c.pc.pinned → (s.client p).pc.pinned)
    (hin : c.pc = .inside → meets c.paints c.cur = false) : Inv (setClient s p c) :=
  inv_client h hp hw hsub rfl rfl rfl (fun h1 => h.widget p (hf h1))
    (fun h1 => ⟨h.up p (hpin h1), h.waited p (hpin h1)⟩) hin fun p' _ hp' => h.up p' hp'

/-- A step of client `p` that stores its flag. -/
lemma inv_stores (h : Inv s) {c : Client} {v : BitVec 8} (hf : (s.client p).pc.flagging)
    (hw : c.mywid = (s.client p).mywid) (hsub : c.sub = (s.client p).sub)
    (hpin : ¬ c.pc.pinned) : Inv (hr_setdraw (setClient s p c) (s.client p).mywid v) := by
  refine inv_client h hf.alive hw hsub rfl rfl rfl (fun _ => h.widget p hf)
    (fun h1 => absurd h1 hpin) (fun h1 => absurd (by rw [h1]; trivial) hpin) fun p' hpp hp' => ?_
  have hne : (s.client p').mywid ≠ (s.client p).mywid := by
    intro he
    have h1 := h.raises hp'.flagging
    rw [he] at h1
    exact hpp (h.single p' p _ h1 (h.raises hf))
  change Function.update s.indraw _ v (s.client p').mywid ≠ 0
  rw [Function.update_of_ne hne]
  exact h.up p' hp'

/-! ### The steps of `cl_pbegin` -/

lemma cl_sync_same (q : HRSURF) (c : Client) (n : Stage) (k : Sync) :
    (cl_sync q c n k).mywid = c.mywid ∧ (cl_sync q c n k).sub = c.sub := by
  unfold cl_sync
  split
  all_goals first | exact ⟨rfl, rfl⟩ | (split <;> exact ⟨rfl, rfl⟩)

/-- A client stays in `cl_sync` or goes on to what follows it. -/
lemma cl_sync_pc (q : HRSURF) (c : Client) (n : Stage) (k : Sync) :
    (cl_sync q c n k).pc = afterSync n ∨ ∃ k', (cl_sync q c n k).pc = .sync n k' := by
  unfold cl_sync
  split
  · dsimp only
    split
    · exact .inl rfl
    · exact .inr ⟨_, rfl⟩
  · exact .inr ⟨_, rfl⟩
  · exact .inr ⟨_, rfl⟩
  · exact .inr ⟨_, rfl⟩
  · exact .inr ⟨_, rfl⟩
  · split
    · exact .inr ⟨_, rfl⟩
    · exact .inl rfl

/-- Of the three calls of `cl_sync`, one is made with the flag raised. -/
lemma stage_pinned {c : Pc} {n : Stage} {k : Sync} (hc : c = afterSync n ∨ ∃ k', c = .sync n k') :
    (c.flagging → (Pc.sync n k).flagging) ∧ (c.pinned → (Pc.sync n k).pinned) ∧ c ≠ .inside := by
  rcases hc with rfl | ⟨k', rfl⟩
  · cases n <;> exact ⟨id, id, nofun⟩
  · cases n <;> exact ⟨id, id, nofun⟩

lemma inv_cl_pbegin (h : Inv s) (hc : Careful s (.client p)) : Inv (cl_pbegin s p) := by
  have hcare : ((s.client p).pc = .stacking → s.stacking = 0 → s.indraw (s.client p).mywid ≠ 0) ∧
      ((s.client p).pc = .test → (s.client p).b = (s.client p).paints) := hc
  dsimp only [cl_pbegin]
  cases hp : (s.client p).pc with
  | sync n k =>
    obtain ⟨h1, h2⟩ := cl_sync_same (s.surf (s.client p).mywid) (s.client p) n k
    obtain ⟨h3, h4, h5⟩ := stage_pinned (k := k)
      (cl_sync_pc (s.surf (s.client p).mywid) (s.client p) n k)
    refine inv_goes h (by rw [hp]; nofun) h1 h2 ?_ ?_ fun h6 => absurd h6 h5
    · rw [hp]; exact h3
    · rw [hp]; exact h4
  | magic =>
    refine inv_goes h (by rw [hp]; nofun) rfl rfl ?_ ?_ ?_ <;> dsimp only <;> split <;>
      first | exact False.elim | nofun
  | curx n =>
    refine inv_goes h (by rw [hp]; nofun) rfl rfl ?_ ?_ nofun
    · rw [hp]; cases n <;> exact id
    · rw [hp]; cases n <;> exact id
  | cury n x =>
    refine inv_goes h (by rw [hp]; nofun) ?_ ?_ ?_ ?_ ?_
    · cases n <;> rfl
    · cases n <;> rfl
    · rw [hp]; cases n <;> exact id
    · rw [hp]; cases n <;> exact id
    · cases n <;> nofun
  | overlay =>
    dsimp only
    split
    · -- the flag is going to be raised
      rename_i hq
      exact inv_client (c := { s.client p with pc := .raise }) h (by rw [hp]; nofun) rfl rfl rfl
        rfl rfl (fun _ => hq.1) False.elim nofun fun p' _ hp' => h.up p' hp'
    · exact inv_goes h (by rw [hp]; nofun) rfl rfl False.elim False.elim nofun
  | raise => exact inv_stores h (by rw [hp]; trivial) rfl rfl id
  | stacking =>
    dsimp only
    have hf : (s.client p).pc.flagging := by rw [hp]; trivial
    split
    · -- the server does not restack, and it will see the flag when it does
      rename_i hk
      refine inv_client (c := { s.client p with pc := .sync .pinned .quick }) h hf.alive rfl rfl
        rfl rfl rfl (fun _ => h.widget p hf) (fun _ => ?_) nofun fun p' _ hp' => h.up p' hp'
      exact ⟨hcare.1 hp hk, fun hd => h.stacking hd.stacks hk⟩
    · exact inv_goes h hf.alive rfl rfl (fun _ => hf) False.elim nofun
  | test =>
    dsimp only
    have hf : (s.client p).pc.flagging := by rw [hp]; trivial
    have hpin : (s.client p).pc.pinned := by rw [hp]; trivial
    split
    · rename_i hq
      refine inv_goes h hf.alive rfl rfl (fun _ => hf) (fun _ => hpin) fun _ => ?_
      have hm := hq.2.2
      rwa [hcare.2 hp] at hm
    · exact inv_goes h hf.alive rfl rfl (fun _ => hf) False.elim nofun
  | lower => exact inv_stores h (by rw [hp]; trivial) rfl rfl id
  | lock => exact inv_goes h (by rw [hp]; nofun) rfl rfl False.elim False.elim nofun
  | gone | idle | inside | drawing => exact h

lemma inv_cl_pend (h : Inv s) (hp : (s.client p).pc.draws) : Inv (cl_pend s p) := by
  dsimp only [cl_pend]
  rcases hp with hp | hp
  · rw [hp]
    exact inv_stores h (by rw [hp]; trivial) rfl rfl id
  · rw [hp]
    exact inv_goes h (by rw [hp]; nofun) rfl rfl False.elim False.elim nofun

/-- A new client finds nobody else at its window. -/
lemma inv_cl_init (h : Inv s) {wid : ℕ} {sub : Option HRRECT} {S : Surf} {r : HRRECT}
    (hw : wid < MAX_WINDOWS) (hc : sub = none → ∀ p', p' ≠ p → ¬ (s.client p').raises wid) :
    Inv (cl_init s p wid sub S r) := by
  set t := cl_init s p wid sub S r with ht
  have hself : t.client p = ⟨.idle, wid, sub, S, -1, r, r, r⟩ := by
    rw [ht]
    cases sub <;> exact Function.update_self ..
  have hne : ∀ p', p' ≠ p → t.client p' = s.client p' := by
    intro p' hpp
    rw [ht]
    cases sub <;> exact Function.update_of_ne hpp ..
  have hv : t.server = s.server ∧ t.stacking = s.stacking := by
    rw [ht]
    cases sub <;> exact ⟨rfl, rfl⟩
  have hpin : ∀ p', (t.client p').pc.flagging → p' ≠ p := by
    rintro p' hf rfl
    rw [hself] at hf
    exact hf
  have hsingle : ∀ p' w, (t.client p).raises w → (t.client p').raises w → p = p' := by
    intro p' w h1 h2
    by_contra hpp
    rw [hself] at h1
    rw [hne p' (Ne.symm hpp), ← h1.2.2] at h2
    exact hc h1.2.1 p' (Ne.symm hpp) h2
  refine ⟨by rw [hv.1, hv.2]; exact h.stacking, fun p₁ p₂ w h1 h2 => ?_, fun p' hp' => ?_,
    fun p' hp' => ?_, fun p' hp' => ?_, fun p' hp' => ?_, fun p' hp' => ?_⟩
  · -- one client for a window
    by_cases hp₁ : p₁ = p
    · subst hp₁
      exact hsingle p₂ w h1 h2
    · by_cases hp₂ : p₂ = p
      · subst hp₂
        exact (hsingle p₁ w h2 h1).symm
      · rw [hne p₁ hp₁] at h1
        rw [hne p₂ hp₂] at h2
        exact h.single p₁ p₂ w h1 h2
  · have hpp := hpin p' hp'
    rw [hne p' hpp] at hp' ⊢
    exact h.widget p' hp'
  · by_cases hpp : p' = p
    · subst hpp
      rw [hself]
      exact hw
    · rw [hne p' hpp] at hp' ⊢
      exact h.window p' hp'
  · -- the flag of the window is nobody's
    have hpp := hpin p' hp'.flagging
    rw [hne p' hpp] at hp' ⊢
    have hup := h.up p' hp'
    rw [ht]
    cases sub with
    | some r' => exact hup
    | none =>
      have hwid : (s.client p').mywid ≠ wid := fun he =>
        hc rfl p' hpp ⟨hp'.flagging.alive, h.widget p' hp'.flagging, he⟩
      change Function.update s.indraw wid 0 _ ≠ 0
      rwa [Function.update_of_ne hwid]
  · have hpp := hpin p' hp'.flagging
    rw [hne p' hpp] at hp' ⊢
    rw [hv.1]
    exact h.waited p' hp'
  · have hpp : p' ≠ p := by
      rintro rfl
      rw [hself] at hp'
      cases hp'
    rw [hne p' hpp] at hp' ⊢
    exact h.clear p' hp'

/-! ### The steps of the server -/

lemma inv_srvstep (h : Inv s) : Inv (srvstep s) := by
  have hup := h.up
  have hwait := h.waited
  have hstack := h.stacking
  unfold srvstep
  cases hv : s.server with
  | lock => exact inv_server h rfl False.elim fun p hp => ⟨hup p hp, id⟩
  | raise =>
    exact inv_server h rfl (fun _ => show (1 : Word) ≠ 0 by decide) fun p hp =>
      ⟨hup p hp, Nat.not_lt_zero _⟩
  | drain w =>
    rw [hv] at hwait hstack
    have hk : s.stacking ≠ 0 := hstack trivial
    refine inv_server h rfl (fun _ => hk) fun p hp => ⟨hup p hp, ?_⟩
    have hle : ¬ (s.client p).mywid < w := hwait p hp
    by_cases hd : s.indraw w = 0
    · -- whoever draws lock-free has its flag up
      have hne : (s.client p).mywid ≠ w := fun he => hup p hp (by rw [he, hd])
      have hlt := h.window p hp.flagging.alive
      by_cases hl : w + 1 < MAX_WINDOWS
      · simp only [hd, ne_eq, not_true_eq_false, if_false, hl, if_true]
        change ¬ (s.client p).mywid < w + 1
        omega
      · omega
    · simp only [ne_eq, hd, not_false_eq_true, if_true]
      exact hle
  | unmap w t =>
    rw [hv] at hwait hstack
    exact inv_server h rfl (fun _ => hstack trivial) fun p hp => absurd trivial (hwait p hp)
  | compare w t =>
    rw [hv] at hwait hstack
    exact inv_server h rfl (fun _ => hstack trivial) fun p hp => absurd trivial (hwait p hp)
  | odd w t =>
    rw [hv] at hwait hstack
    exact inv_server h rfl (fun _ => hstack trivial) fun p hp => absurd trivial (hwait p hp)
  | store w t fs =>
    rw [hv] at hwait hstack
    cases fs <;>
      exact inv_server h rfl (fun _ => hstack trivial) fun p hp => absurd trivial (hwait p hp)
  | even w =>
    rw [hv] at hwait hstack
    exact inv_server h rfl (fun _ => hstack trivial) fun p hp => absurd trivial (hwait p hp)
  | lower => exact inv_server h rfl False.elim fun p hp => ⟨hup p hp, id⟩
  | unlock => exact inv_server h rfl False.elim fun p hp => ⟨hup p hp, id⟩
  | out | inside => exact h

theorem inv_step {op : Op} (h : Inv s) (hst : CarefulStep s op t) : Inv t := by
  obtain ⟨⟨hen, rfl⟩, hc⟩ := hst
  have hinside : s.server.isInside = true → s.server = .inside := by
    cases s.server <;> simp [Server.isInside]
  cases op with
  | srvlock =>
    by_cases hl : s.locklevel = 0
    · simp only [exec, hl, if_true]
      exact inv_server h rfl False.elim fun p hp => ⟨h.up p hp, id⟩
    · simp only [exec, hl, if_false]
      exact inv_server h rfl h.stacking fun p hp => ⟨h.up p hp, h.waited p hp⟩
  | server => exact inv_srvstep h
  | layer => exact h
  | publish_surf w t =>
    have hk : s.stacking ≠ 0 := h.stacking (by rw [hinside hen.1]; trivial)
    have hno : ∀ p, ¬ (s.client p).pc.pinned := fun p hp =>
      h.waited p hp (by rw [hinside hen.1]; trivial)
    exact inv_server h rfl (fun _ => hk) fun p hp => absurd hp (hno p)
  | srvunlock =>
    have hk : s.stacking ≠ 0 := h.stacking (by rw [hinside hen]; trivial)
    have hno : ∀ p, ¬ (s.client p).pc.pinned := fun p hp =>
      h.waited p hp (by rw [hinside hen]; trivial)
    exact inv_server h rfl (fun _ => hk) fun p hp => absurd hp (hno p)
  | killwin w =>
    refine inv_server h rfl False.elim fun p hp => ⟨?_, id⟩
    change Function.update s.indraw w 0 _ ≠ 0
    rw [Function.update_of_ne fun he => hc p he hp]
    exact h.up p hp
  | overlay v | cursor x y | unmagic =>
    exact inv_server h rfl h.stacking fun p hp => ⟨h.up p hp, h.waited p hp⟩
  | cl_init p wid sub S r => exact inv_cl_init h hen.2 hc
  | call p c =>
    have hp : (s.client p).pc = .idle := hen
    exact inv_goes h (by rw [hp]; nofun) rfl rfl False.elim False.elim nofun
  | client p => exact inv_cl_pbegin h hc
  | paint p => exact h
  | cl_pend p => exact inv_cl_pend h hen
  | die p => exact inv_goes h hen rfl rfl False.elim False.elim nofun

lemma Initial.inv (h : Initial s) : Inv s := by
  have hv : s.server = .out := by
    have := h.server
    cases hd : s.server <;> simp_all [Server.isOut]
  have hno : ∀ p, ¬ (s.client p).pc.flagging := fun p hp => hp.alive (h.client p)
  refine ⟨by rw [hv]; exact False.elim, fun p p' w h1 _ => absurd (h.client p) h1.1,
    fun p hp => absurd hp (hno p), fun p hp => absurd (h.client p) hp,
    fun p hp => absurd hp.flagging (hno p), fun p hp => absurd hp.flagging (hno p), fun p hp => ?_⟩
  rw [h.client p] at hp
  cases hp

lemma Inv.excluded (h : Inv s) : Excluded s := by
  intro p hp
  have hpin : (s.client p).pc.pinned := by rw [hp]; trivial
  exact ⟨fun hc => h.waited p hpin (hc.drained _), h.clear p hp⟩

end Steps

/-- **Drawing without the lock**: nobody paints lock-free while the server changes layers or
descriptors, nor over the sprite. -/
theorem fast_path {s t : State} {ops : List Op} (hs : Initial s) (h : Run CarefulStep s ops t) :
    Excluded t := by
  have hi : Inv t := h.invariant (fun _ _ _ hi hst => inv_step hi hst) hs.inv
  exact hi.excluded

/-! ### Runs -/

/-- A descriptor of a window that is fully visible. -/
def visible (ox oy cw ch : Word) : Surf
  | .mapped | .nvis => 1
  | .ox | .x0 _ => ox
  | .oy | .y0 _ => oy
  | .cw => cw
  | .ch => ch
  | .x1 _ => ox + cw
  | .y1 _ => oy + ch

/-- A rectangle in the corner of the content. -/
def corner : HRRECT := ⟨0, 0, 50, 20⟩

/-- The windows are at (16, 100), the pointer is at (500, 400), and there are no clients. -/
def start : State :=
  { magic := HR_MAGIC
    curx := 500
    cury := 400
    overlay := 0
    stacking := 0
    indraw := fun _ => 0
    surf := fun _ => ⟨0, visible 16 100 200 100⟩
    server := .out
    locklevel := 0
    client := fun _ => ⟨.gone, 0, none, fun _ => 0, 0, corner, corner, corner⟩ }

lemma start_initial : Initial start := ⟨rfl, fun _ => rfl, rfl, rfl, fun _ => rfl⟩

/-- Client 0 comes up at window 0. -/
def comes : Op := .cl_init 0 0 none (fun _ => 0) corner

/-- It draws. -/
def drawOps : List Op := .call 0 corner :: List.replicate 24 (.client 0)

/-- Enough for a step to be careful: windows and clients neither come nor go. -/
def Plain (s : State) : Op → Prop
  | .killwin _ | .cl_init _ _ _ _ _ => False
  | .client p =>
    ((s.client p).pc = .stacking → s.indraw (s.client p).mywid ≠ 0) ∧
      ((s.client p).pc = .test → (s.client p).b = (s.client p).paints)
  | _ => True

instance (s : State) (op : Op) : Decidable (Plain s op) := by
  cases op <;> simp only [Plain] <;> infer_instance

lemma Plain.careful {s : State} {op : Op} (h : Plain s op) : Careful s op := by
  cases op with
  | client p => exact ⟨fun h1 _ => h.1 h1, h.2⟩
  | killwin | cl_init => exact h.elim
  | _ => trivial

lemma draw_run : Along (fun s op => Enabled s op ∧ Plain s op) exec (exec start comes) drawOps ∧
    ((drawOps.foldl exec (exec start comes)).client 0).pc = .inside := by
  decide +kernel

theorem fast_path_taken : ∃ t, Run CarefulStep start (comes :: drawOps) t ∧
    (t.client 0).pc = .inside ∧ Excluded t := by
  have hrun : Run CarefulStep (exec start comes) drawOps _ :=
    Run.along (fun _ _ h => ⟨⟨h.1, rfl⟩, h.2.careful⟩) _ _ draw_run.1
  have hcome : CarefulStep start comes (exec start comes) :=
    ⟨⟨⟨rfl, by decide⟩, rfl⟩, fun _ _ _ h => h.1 rfl⟩
  have hall := Run.cons hcome hrun
  exact ⟨_, hall, draw_run.2, fast_path start_initial hall⟩

/-- `srvlock`, up to its return. -/
def lockOps : List Op := .srvlock :: List.replicate 18 .server

/-- After the first test of the client the server moves its window under the pointer; the client
goes on into its primitive, and the server kills the window. -/
def brokenOps : List Op :=
  List.flatten [[comes, .call 0 corner], List.replicate 18 (.client 0), lockOps,
    [.publish_surf 0 (visible 480 390 200 100)], List.replicate 14 .server,
    [.srvunlock, .server, .server], List.replicate 19 (.client 0),
    .killwin 0 :: List.replicate 18 .server]

lemma broken_run : Along Enabled exec start brokenOps ∧
    (brokenOps.foldl exec start).server.isInside = true ∧
    ((brokenOps.foldl exec start).client 0).pc = .inside ∧
    meets ((brokenOps.foldl exec start).client 0).paints
      ((brokenOps.foldl exec start).client 0).cur = true := by
  decide +kernel

/-- The client paints over the sprite, and while the server changes the layers. -/
theorem fast_path_broken : ∃ s ops t, Initial s ∧ Run Step s ops t ∧ ¬ Excluded t ∧
    ∃ p, (t.client p).pc = .inside ∧ t.server.changes ∧
      meets (t.client p).paints (t.client p).cur = true := by
  have hrun : Run Step start brokenOps _ := Run.along (fun _ _ h => ⟨h, rfl⟩) _ _ broken_run.1
  obtain ⟨hv, hp, hm⟩ := broken_run.2
  generalize brokenOps.foldl exec start = t at hrun hv hp hm
  have hc : t.server.changes := Server.isInside.changes hv
  exact ⟨start, brokenOps, t, start_initial, hrun, fun h => (h 0 hp).1 hc, 0, hp, hc, hm⟩

end Coherent.FastPath
