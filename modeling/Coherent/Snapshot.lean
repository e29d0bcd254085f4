import Coherent.FastPath
import Coherent.Layers
import Coherent.Lib.Seqlock

/-!
The clip descriptors: the server publishes them, for a window and for the dialog, and a client
copies the one it draws by.

One load of the client, or one store of the server, is one step. Only the server stores to a
descriptor, so that what it loads from there is taken together with its next store.
-/

namespace Coherent.Snapshot

open Coherent.Lib
open Coherent.FastPath (Word HRRECT Field Surf HRSURF Sync Stage Pc Client SHM_MAXVIS headFields
  visFields pubFields visRect bounded clampRect setVis clamp onScreen unchanged cl_sync)
open Coherent.Layers (RECT POINT SM_REGION R_null MAX_LRBUF)

/-! ### The descriptors -/

def R_Intersection (s t : RECT) : RECT :=
  ⟨⟨max s.origin.x t.origin.x, max s.origin.y t.origin.y⟩,
    ⟨min s.corner.x t.corner.x, min s.corner.y t.corner.y⟩⟩

instance (r : RECT) : Decidable (R_null r) := by unfold R_null; infer_instance

/-- The loop of `publish_surf` over the regions of a layer, with so many free places. -/
def visible (cr : RECT) : ℕ → List SM_REGION → List RECT
  | 0, _ => []
  | _, [] => []
  | n + 1, rp :: regs =>
    match rp.flag with
    | .L_EMPTY => []
    | .L_OBSCURED => visible cr (n + 1) regs
    | .L_VISIBLE =>
      let dr := R_Intersection cr rp.rect
      if R_null dr then visible cr (n + 1) regs else dr :: visible cr n regs

def word (z : ℤ) : Word := BitVec.ofInt 16 z

/-- The content of a window and the regions of its layer, if it is mapped. -/
abbrev Window := Option (RECT × (ℕ → SM_REGION))

/-- `t` of `publish_surf`. -/
def surfOf : Window → Surf
  | none => fun _ => 0
  | some (cr, reg) =>
    let vis := visible cr SHM_MAXVIS.toNat ((List.range MAX_LRBUF).map reg)
    fun
    | .mapped => 1
    | .ox => word cr.origin.x
    | .oy => word cr.origin.y
    | .cw => word (cr.corner.x - cr.origin.x)
    | .ch => word (cr.corner.y - cr.origin.y)
    | .nvis => BitVec.ofNat 16 vis.length
    | .x0 i => (vis[i]?).elim 0 fun r => word r.origin.x
    | .y0 i => (vis[i]?).elim 0 fun r => word r.origin.y
    | .x1 i => (vis[i]?).elim 0 fun r => word r.corner.x
    | .y1 i => (vis[i]?).elim 0 fun r => word r.corner.y

/-- The stores of `publish_surf` between the two of `seq`. -/
def surfStores (t : Surf) : List (Field × Word) := (pubFields t).map fun f => (f, t f)

/-- Those of `publish_dlg`, for `dlgint` if the dialog is on. -/
def dlgStores : Option RECT → List (Field × Word)
  | some r =>
    [(.mapped, 1), (.ox, word r.origin.x), (.oy, word r.origin.y),
      (.cw, word (r.corner.x - r.origin.x)), (.ch, word (r.corner.y - r.origin.y)), (.nvis, 1),
      (.x0 0, word r.origin.x), (.y0 0, word r.origin.y), (.x1 0, word r.corner.x),
      (.y1 0, word r.corner.y)]
  | none => [(.mapped, 0), (.nvis, 0)]

/-! ### What a descriptor says -/

/-- A descriptor as it is drawn by. -/
structure View where
  mapped : Word
  ox : Word
  oy : Word
  cw : Word
  ch : Word
  vis : List HRRECT
  deriving DecidableEq

def nrects (S : Surf) : ℕ := (S .nvis).toInt.toNat

def shown (S : Surf) : View :=
  ⟨S .mapped, S .ox, S .oy, S .cw, S .ch, (List.range (nrects S)).map (visRect S)⟩

/-- What the server says of the dialog. -/
def dlgView (old : View) : Option RECT → View
  | some r =>
    ⟨1, word r.origin.x, word r.origin.y, word (r.corner.x - r.origin.x),
      word (r.corner.y - r.origin.y),
      [⟨word r.origin.x, word r.origin.y, word r.corner.x, word r.corner.y⟩]⟩
  | none =>
    { old with
      mapped := 0
      vis := [] }

def filled (r : HRRECT) : Bool := r.x0.slt r.x1 && r.y0.slt r.y1

/-- What a widget in the cell `sub` has to draw by: the cell is the content, and the visible
rectangles are cut down to it. -/
def inCell (sub : Option HRRECT) (v : View) : View :=
  match sub with
  | none => v
  | some c =>
    let f : HRRECT := ⟨v.ox + c.x0, v.oy + c.y0, v.ox + c.x1, v.oy + c.y1⟩
    ⟨v.mapped, f.x0, f.y0, c.x1 - c.x0, c.y1 - c.y0, (v.vis.map (clampRect f)).filter filled⟩

/-! ### The parties -/

/-- The descriptors that a client may draw by. -/
inductive Target
  | window
  | dialog
  deriving DecidableEq

/-- Where the server stands. -/
inductive Server
  | idle
  /-- `publish_surf`: about to compare the descriptor with the one that is published -/
  | compare (t : Surf)
  /-- about to make `seq` odd -/
  | odd (w : Target) (fs : List (Field × Word))
  /-- about to store the fields -/
  | store (w : Target) (fs : List (Field × Word))
  /-- about to make `seq` even -/
  | even (w : Target)

structure State where
  surf : Target → HRSURF
  server : Server
  /-- `indlg` -/
  indlg : Target
  client : Client
  /-- how often `seq` has been incremented -/
  bumps : Target → ℕ
  /-- all that the publications said -/
  pubs : Target → List View
  /-- what the one that is under way says -/
  goal : View
  /-- `bumps` when `lastseq` was loaded, and when `s1` was -/
  since : ℕ
  start : ℕ

/-- The client is in `cl_sync`. -/
def syncing : Pc → Bool
  | .sync _ _ => true
  | _ => false

/-- The next step of the server in `publish_surf` or `publish_dlg`. -/
def publish (s : State) : State :=
  match s.server with
  | .idle => s
  | .compare t => { s with
      server := if unchanged t (s.surf .window).fld then .idle else .odd .window (surfStores t) }
  | .odd w fs => { s with
      surf := Function.update s.surf w ⟨(s.surf w).seq + 1, (s.surf w).fld⟩
      bumps := Function.update s.bumps w (s.bumps w + 1)
      server := .store w fs }
  | .store w [] => { s with server := .even w }
  | .store w ((f, v) :: fs) => { s with
      surf := Function.update s.surf w ⟨(s.surf w).seq, Function.update (s.surf w).fld f v⟩
      server := .store w fs }
  | .even w => { s with
      surf := Function.update s.surf w ⟨(s.surf w).seq + 1, (s.surf w).fld⟩
      bumps := Function.update s.bumps w (s.bumps w + 1)
      pubs := Function.update s.pubs w (s.pubs w ++ [s.goal])
      server := .idle }

/-- The next load of the client in `cl_sync`. -/
def load (s : State) : State :=
  match s.client.pc with
  | .sync n k =>
    let c := cl_sync (s.surf s.indlg) s.client n k
    match k with
    | .quick | .copy _ _ => { s with client := c }
    | .seq1 => { s with client := c, start := s.bumps s.indlg }
    | .seq2 _ => { s with client := c, since := if syncing c.pc then s.since else s.start }
  | _ => s

/-- A call of `cl_sync`. -/
def enter (s : State) : State := { s with client := { s.client with pc := .sync .first .quick } }

inductive Op
  | publish_surf (win : Window)
  /-- for `dlgint`, if the dialog is on -/
  | publish_dlg (on : Option RECT)
  | server
  | cl_sync
  | cl_dopen
  | cl_dclose
  | client

def Server.isIdle : Server → Bool
  | .idle => true
  | _ => false

def Enabled (s : State) : Op → Prop
  | .publish_surf _ | .publish_dlg _ => s.server.isIdle = true
  | .server => s.server.isIdle = false
  | .cl_sync | .cl_dopen | .cl_dclose => syncing s.client.pc = false
  | .client => syncing s.client.pc = true

instance (s : State) (op : Op) : Decidable (Enabled s op) := by
  cases op <;> simp only [Enabled] <;> infer_instance

def exec (s : State) : Op → State
  | .publish_surf win => { s with server := .compare (surfOf win), goal := shown (surfOf win) }
  | .publish_dlg on => { s with
      server := .odd .dialog (dlgStores on)
      goal := dlgView (shown (s.surf .dialog).fld) on }
  | .server => publish s
  | .cl_sync => enter s
  | .cl_dopen => enter { s with indlg := .dialog, client := { s.client with lastseq := -1 } }
  | .cl_dclose => enter { s with indlg := .window, client := { s.client with lastseq := -1 } }
  | .client => load s

def Step (s : State) (op : Op) (t : State) : Prop := Enabled s op ∧ t = exec s op

/-- The server has set up the descriptors, and the client has drawn nothing yet. -/
structure Initial (s : State) : Prop where
  seq : ∀ w, (s.surf w).seq = 0
  mapped : ∀ w, (s.surf w).fld .mapped = 0
  nvis : ∀ w, (s.surf w).fld .nvis = 0
  server : s.server = .idle
  indlg : s.indlg = .window
  pc : syncing s.client.pc = false
  lastseq : s.client.lastseq = -1
  bumps : ∀ w, s.bumps w = 0
  pubs : ∀ w, s.pubs w = [shown (s.surf w).fld]

/-! ### What is to be shown -/

/-- The client's copy is what the last publication said, which is what is published. -/
def Synced (s : State) : Prop :=
  ∃ v, (s.pubs s.indlg).getLast? = some v ∧ shown (s.surf s.indlg).fld = v ∧
    shown s.client.S = inCell s.client.sub v

/-- When the client compares `seq` with a value it has loaded before, the increments since are not
a multiple of 2^16: there were no 32768 publications, nor twice as many, and so on. -/
def Timely (s : State) : Op → Prop
  | .client =>
    match s.client.pc with
    | .sync _ .quick => s.client.lastseq ≠ -1 → Unwrapped 16 s.since (s.bumps s.indlg)
    | .sync _ (.seq2 s1) => s1 &&& 1 = 0 → Unwrapped 16 s.start (s.bumps s.indlg)
    | _ => True
  | _ => True

instance (s : State) (op : Op) : Decidable (Timely s op) := by
  cases op <;> unfold Timely
  case client =>
    dsimp only
    split <;> infer_instance
  all_goals infer_instance

def TimelyStep (s : State) (op : Op) (t : State) : Prop := Step s op t ∧ Timely s op

/-! ### Views -/

lemma shown_congr {S T : Surf} (h : ∀ f ∈ headFields ++ visFields (nrects T), S f = T f) :
    shown S = shown T := by
  have hn : nrects S = nrects T := by
    rw [nrects, nrects, h .nvis (by simp [headFields])]
  have hv : (List.range (nrects S)).map (visRect S) = (List.range (nrects T)).map (visRect T) := by
    rw [hn]
    apply List.map_congr_left
    intro i hi
    have hm : ∀ f ∈ [Field.x0 i, .y0 i, .x1 i, .y1 i], S f = T f := by
      intro f hf
      exact h f (List.mem_append_right _ (List.mem_flatMap.mpr ⟨i, hi, hf⟩))
    simp only [List.mem_cons, List.not_mem_nil, or_false, forall_eq_or_imp, forall_eq] at hm
    rw [visRect, visRect, hm.1, hm.2.1, hm.2.2.1, hm.2.2.2]
  have hh : ∀ f ∈ headFields, S f = T f := fun f hf => h f (List.mem_append_left _ hf)
  simp only [headFields, List.mem_cons, List.not_mem_nil, or_false, forall_eq_or_imp,
    forall_eq] at hh
  rw [shown, shown, hv, hh.1, hh.2.1, hh.2.2.1, hh.2.2.2.1, hh.2.2.2.2.1]

/-- The descriptor says `v`, with no more rectangles than there is place for. -/
structure Says (S : Surf) (v : View) : Prop where
  shown : shown S = v
  bounded : SHM_MAXVIS.slt (S .nvis) = false

/-- The descriptor after these stores. -/
def fill (S : Surf) (fs : List (Field × Word)) : Surf :=
  fs.foldl (fun S f => Function.update S f.1 f.2) S

lemma fill_map {t : Surf} {l : List Field} {S : Surf} {f : Field} (h : f ∈ l ∨ S f = t f) :
    fill S (l.map fun f => (f, t f)) f = t f := by
  induction l generalizing S with
  | nil => exact h.resolve_left List.not_mem_nil
  | cons g l ih =>
    apply ih
    change f ∈ l ∨ Function.update S g (t g) f = t f
    rcases eq_or_ne f g with rfl | hfg
    · exact .inr (Function.update_self ..)
    · rw [Function.update_of_ne hfg]
      exact h.imp_left fun h => (List.mem_cons.mp h).resolve_left hfg

lemma mem_pubFields {t : Surf} {f : Field} (h : f ∈ headFields ++ visFields (nrects t)) :
    f ∈ pubFields t := by
  simp only [headFields, pubFields, nrects, List.mem_append, List.mem_cons, List.not_mem_nil,
    or_false] at h ⊢
  tauto

/-- `publish_surf` stores all that its descriptor says. -/
lemma says_surfStores {t : Surf} {v : View} (h : Says t v) (S : Surf) :
    Says (fill S (surfStores t)) v := by
  have ha : ∀ f ∈ headFields ++ visFields (nrects t), fill S (surfStores t) f = t f :=
    fun f hf => fill_map (.inl (mem_pubFields hf))
  refine ⟨(shown_congr ha).trans h.shown, ?_⟩
  rw [ha .nvis (by simp [headFields])]
  exact h.bounded

lemma says_dlgStores (S : Surf) (on : Option RECT) :
    Says (fill S (dlgStores on)) (dlgView (shown S) on) := by
  cases on with
  | none => exact ⟨by simp [shown, fill, dlgStores, dlgView, nrects], by
      simp [fill, dlgStores]; decide⟩
  | some r => exact ⟨by simp [shown, fill, dlgStores, dlgView, nrects, visRect], by
      simp [fill, dlgStores]; decide⟩

lemma length_visible (cr : RECT) (n : ℕ) (regs : List SM_REGION) :
    (visible cr n regs).length ≤ n := by
  induction regs generalizing n with
  | nil => cases n <;> exact Nat.zero_le _
  | cons rp regs ih =>
    cases n with
    | zero => exact le_rfl
    | succ n =>
      rw [visible]
      split
      · exact Nat.zero_le _
      · exact ih (n + 1)
      · dsimp only
        split
        · exact ih (n + 1)
        · exact Nat.succ_le_succ (ih n)

lemma says_surfOf (win : Window) : Says (surfOf win) (shown (surfOf win)) := by
  refine ⟨rfl, ?_⟩
  cases win with
  | none => decide
  | some p =>
    have h := length_visible p.1 SHM_MAXVIS.toNat ((List.range MAX_LRBUF).map p.2)
    have h12 : SHM_MAXVIS.toNat = 12 := rfl
    simp only [surfOf]
    generalize (visible p.1 SHM_MAXVIS.toNat ((List.range MAX_LRBUF).map p.2)).length = n at h ⊢
    rw [h12] at h
    interval_cases n <;> decide

/-! ### The clamp of a widget -/

lemma visRect_setVis (S : Surf) (n : ℕ) (r : HRRECT) (i : ℕ) :
    visRect (setVis S n r) i = if i = n then r else visRect S i := by
  split <;> simp_all [visRect, setVis]

/-- One turn of the loop of `cl_sync` over the visible rectangles. -/
def cutDown (f : HRRECT) (a : Surf × ℕ) (i : ℕ) : Surf × ℕ :=
  if filled (clampRect f (visRect a.1 i))
  then (setVis a.1 a.2 (clampRect f (visRect a.1 i)), a.2 + 1) else a

/-- The loop has done `m` turns: it has moved what is left of the first rectangles to the front,
and has not yet stored over the others. -/
structure CutDown (f : HRRECT) (S : Surf) (m : ℕ) (a : Surf × ℕ) : Prop where
  le : a.2 ≤ m
  mapped : a.1 .mapped = S .mapped
  rest : ∀ i, m ≤ i → visRect a.1 i = visRect S i
  vis : (List.range a.2).map (visRect a.1) =
    (((List.range m).map (visRect S)).map (clampRect f)).filter filled

lemma CutDown.step {f : HRRECT} {S : Surf} {m : ℕ} {a : Surf × ℕ} (h : CutDown f S m a) :
    CutDown f S (m + 1) (cutDown f a m) := by
  have hm := h.rest m le_rfl
  rw [cutDown, hm]
  split
  · -- it goes behind those that are left
    next hf =>
    refine ⟨Nat.succ_le_succ h.le, h.mapped, fun i hi => ?_, ?_⟩
    · rw [visRect_setVis, if_neg (by have := h.le; omega)]
      exact h.rest i (by omega)
    · have hkept : (List.range a.2).map (visRect (setVis a.1 a.2 (clampRect f (visRect S m)))) =
          (List.range a.2).map (visRect a.1) := by
        apply List.map_congr_left
        intro i hi
        rw [visRect_setVis, if_neg (List.mem_range.mp hi).ne]
      simp only [List.range_succ, List.map_append, List.map_cons, List.map_nil,
        List.filter_append, hkept, h.vis, visRect_setVis, if_true, List.filter_cons, hf,
        List.filter_nil]
  · -- it is dropped
    next hf =>
    refine ⟨Nat.le_succ_of_le h.le, h.mapped, fun i hi => h.rest i (by omega), ?_⟩
    simp only [List.range_succ, List.map_append, List.map_cons, List.map_nil,
      List.filter_append, h.vis, List.filter_cons, hf, List.filter_nil]
    simp

lemma cutDown_run (f : HRRECT) (S : Surf) (m : ℕ) :
    CutDown f S m ((List.range m).foldl (cutDown f) (S, 0)) := by
  induction m with
  | zero => exact ⟨le_rfl, rfl, fun _ _ => rfl, rfl⟩
  | succ m ih =>
    rw [List.range_succ, List.foldl_append]
    exact ih.step

lemma nrects_lt (S : Surf) : nrects S < 2 ^ 15 := by
  have := BitVec.toInt_lt (x := S .nvis)
  rw [nrects]
  omega

lemma toInt_ofNat {n : ℕ} (h : n < 2 ^ 15) : (BitVec.ofNat 16 n).toInt.toNat = n := by
  rw [BitVec.toInt_eq_toNat_cond, BitVec.toNat_ofNat]
  split <;> omega

/-- The clamp in place shows what the widget has to draw by. -/
lemma shown_clamp (sub : HRRECT) (S : Surf) :
    shown (clamp sub S) = inCell (some sub) (shown S) := by
  have h := cutDown_run (onScreen S sub) S (nrects S)
  generalize ha : (List.range (nrects S)).foldl (cutDown (onScreen S sub)) (S, 0) = a at h
  have hc : clamp sub S = Function.update (Function.update (Function.update (Function.update
      (Function.update a.1 .nvis (BitVec.ofNat 16 a.2)) .ox (onScreen S sub).x0) .oy
      (onScreen S sub).y0) .cw (sub.x1 - sub.x0)) .ch (sub.y1 - sub.y0) := by
    rw [← ha]
    rfl
  have hn : nrects (clamp sub S) = a.2 := by
    rw [hc, nrects]
    simp only [Function.update_of_ne, ne_eq, reduceCtorEq, not_false_eq_true,
      Function.update_self]
    exact toInt_ofNat (h.le.trans_lt (nrects_lt S))
  have hv : visRect (clamp sub S) = visRect a.1 := by
    funext i
    simp [hc, visRect]
  rw [shown, hn, hv, h.vis, hc]
  simp [inCell, shown, onScreen, h.mapped]

/-! ### The server -/

/-- The server stores to descriptor `w`. -/
def Server.stores (w : Target) : Server → Prop
  | .store w' _ | .even w' => w' = w
  | _ => False

/-- What the server has yet to store makes the descriptor say `v`. -/
def Server.brings (surf : Target → HRSURF) (v : View) : Server → Prop
  | .idle => True
  | .compare t => Says t v
  | .odd w fs | .store w fs => Says (fill (surf w).fld fs) v
  | .even w => Says (surf w).fld v

structure Writes (s : State) : Prop where
  seq : ∀ w, (s.surf w).seq = BitVec.ofNat 16 (s.bumps w)
  odd : ∀ w, s.server.stores w → Odd (s.bumps w)
  even : ∀ w, ¬ s.server.stores w → Even (s.bumps w)
  quiet : ∀ w, ¬ s.server.stores w →
    ∃ v, (s.pubs w).getLast? = some v ∧ Says (s.surf w).fld v
  brings : s.server.brings s.surf s.goal

section Server

variable {s t : State}

lemma Writes.of_client (h : Writes s) (h1 : t.surf = s.surf) (h2 : t.server = s.server)
    (h3 : t.bumps = s.bumps) (h4 : t.pubs = s.pubs) (h5 : t.goal = s.goal) : Writes t := by
  constructor
  · simpa only [h1, h3] using h.seq
  · simpa only [h2, h3] using h.odd
  · simpa only [h2, h3] using h.even
  · simpa only [h1, h2, h4] using h.quiet
  · simpa only [h1, h2, h5] using h.brings

/-- A publication begins, or ends with nothing to say. -/
lemma Writes.of_server (h : Writes s) {v : Server} {g : View}
    (hs : ∀ w, s.server.stores w ↔ v.stores w) (hb : v.brings s.surf g) :
    Writes { s with server := v, goal := g } where
  seq := h.seq
  odd w hw := h.odd w ((hs w).mpr hw)
  even w hw := h.even w (mt (hs w).mp hw)
  quiet w hw := h.quiet w (mt (hs w).mp hw)
  brings := hb

lemma seq_succ {w : Target} (h : Writes s) :
    (s.surf w).seq + 1 = BitVec.ofNat 16 (s.bumps w + 1) := by
  rw [h.seq w, BitVec.ofNat_add]
  rfl

lemma Writes.publish (h : Writes s) : Writes (publish s) := by
  unfold Snapshot.publish
  split
  next => exact h
  next u hu =>
    -- nothing new, or the stores to come are those of `t`
    refine h.of_server (fun w => ?_) ?_
    · rw [hu]
      split <;> exact Iff.rfl
    · have hb := h.brings
      rw [hu] at hb
      split
      · trivial
      · exact says_surfStores hb _
  next w fs hw =>
    have hb := h.brings
    rw [hw] at hb
    have hns : ∀ w', ¬ s.server.stores w' := fun w' => by rw [hw]; exact id
    refine ⟨fun w' => ?_, fun w' hw' => ?_, fun w' hw' => ?_, fun w' hw' => ?_, ?_⟩
    · rcases eq_or_ne w' w with rfl | hne
      · simpa only [Function.update_self] using seq_succ h
      · simpa only [Function.update_of_ne hne] using h.seq w'
    · obtain rfl : w = w' := hw'
      simpa only [Function.update_self] using (h.even w (hns w)).add_one
    · have hne : w' ≠ w := fun he => hw' he.symm
      simpa only [Function.update_of_ne hne] using h.even w' (hns w')
    · have hne : w' ≠ w := fun he => hw' he.symm
      simpa only [Function.update_of_ne hne] using h.quiet w' (hns w')
    · simpa only [Server.brings, Function.update_self] using hb
  next w hw =>
    refine ⟨h.seq, fun w' hw' => h.odd w' ?_, fun w' hw' => h.even w' ?_,
      fun w' hw' => h.quiet w' ?_, ?_⟩
    · rw [hw]
      exact hw'
    · rw [hw]
      exact hw'
    · rw [hw]
      exact hw'
    · have hb := h.brings
      rw [hw] at hb
      exact hb
  next w f v fs hw =>
    have hiff : ∀ w', s.server.stores w' ↔ w = w' := fun w' => by rw [hw]; exact Iff.rfl
    refine ⟨fun w' => ?_, fun w' hw' => h.odd w' ((hiff w').mpr hw'),
      fun w' hw' => h.even w' (mt (hiff w').mp hw'), fun w' hw' => ?_, ?_⟩
    · rcases eq_or_ne w' w with rfl | hne
      · simpa only [Function.update_self] using h.seq w'
      · simpa only [Function.update_of_ne hne] using h.seq w'
    · have hne : w' ≠ w := fun he => hw' he.symm
      simpa only [Function.update_of_ne hne] using h.quiet w' (mt (hiff w').mp hw')
    · have hb := h.brings
      rw [hw] at hb
      simp only [Server.brings, Function.update_self]
      exact hb
  next w hw =>
    have hiff : ∀ w', s.server.stores w' ↔ w = w' := fun w' => by rw [hw]; exact Iff.rfl
    have hb := h.brings
    rw [hw] at hb
    refine ⟨fun w' => ?_, fun w' hw' => hw'.elim, fun w' _ => ?_, fun w' _ => ?_, trivial⟩
    · rcases eq_or_ne w' w with rfl | hne
      · simpa only [Function.update_self] using seq_succ h
      · simpa only [Function.update_of_ne hne] using h.seq w'
    · rcases eq_or_ne w' w with rfl | hne
      · simpa only [Function.update_self] using (h.odd w' ((hiff w').mpr rfl)).add_one
      · simpa only [Function.update_of_ne hne] using h.even w' (mt (hiff w').mp hne.symm)
    · rcases eq_or_ne w' w with rfl | hne
      · refine ⟨s.goal, ?_, ?_⟩
        · simp only [Function.update_self, List.getLast?_append, List.getLast?_singleton,
            Option.some_or]
        · simp only [Function.update_self]
          exact hb
      · simpa only [Function.update_of_ne hne] using h.quiet w' (mt (hiff w').mp hne.symm)

end Server

/-! ### The client -/

/-- The descriptor that the client copies, behind the count of its `seq`. -/
def lock (s : State) : Seqlock Field Word := ⟨s.bumps s.indlg, (s.surf s.indlg).fld⟩

/-- The client is in the loop of `cl_sync`, where its copy is not whole. -/
def looping : Pc → Bool
  | .sync _ .quick => false
  | .sync _ _ => true
  | _ => false

/-- `fs` is what is left to copy of the fields before `nvis`, and of `nvis`, or of all. -/
def Remains (S : Surf) (done fs : List Field) : Prop :=
  done ++ fs = headFields ∧ fs ≠ [] ∨
    ∃ d, done = headFields ++ d ∧ d ++ fs = visFields (nrects S)

def Sync.copied (s : State) : Sync → Prop
  | .quick | .seq1 => True
  | .copy s1 fs => s1 = BitVec.ofNat 16 s.start ∧ ∃ done, Remains s.client.S done fs ∧
      (lock s).Copied s.start s.client.S {f | f ∈ done}
  | .seq2 s1 => s1 = BitVec.ofNat 16 s.start ∧ (lock s).Copied s.start s.client.S
      {f | f ∈ headFields ++ visFields (nrects s.client.S)}

structure Reads (s : State) : Prop where
  lastseq : s.client.lastseq ≠ -1 →
    s.client.lastseq = BitVec.ofNat 16 s.since ∧ s.since ≤ s.bumps s.indlg
  /-- as long as `seq` was not stored to, the copy is what the last publication said -/
  fresh : s.client.lastseq ≠ -1 → looping s.client.pc = false → s.bumps s.indlg = s.since →
    ∀ v, (s.pubs s.indlg).getLast? = some v → shown s.client.S = inCell s.client.sub v
  copied : ∀ n k, s.client.pc = .sync n k → Sync.copied s k

section Client

variable {s t : State}

lemma Reads.of_server (h : Reads s) (hc : t.client = s.client) (hi : t.indlg = s.indlg)
    (h1 : t.since = s.since) (h2 : t.start = s.start)
    (hle : s.bumps s.indlg ≤ t.bumps s.indlg)
    (hp : t.bumps s.indlg = s.bumps s.indlg → t.pubs s.indlg = s.pubs s.indlg)
    (hq : ∀ n S P, (lock s).Copied n S P → (lock t).Copied n S P) : Reads t where
  lastseq := by
    rw [hc, hi, h1]
    exact fun hl => ⟨(h.lastseq hl).1, (h.lastseq hl).2.trans hle⟩
  fresh := by
    rw [hc, hi, h1]
    intro hl hn hb v hv
    have hs := (h.lastseq hl).2
    rw [hp (by omega)] at hv
    exact h.fresh hl hn (by omega) v hv
  copied := by
    rw [hc]
    intro n k hk
    have hcop := h.copied n k hk
    cases k with
    | quick => trivial
    | seq1 => trivial
    | copy s1 fs =>
      obtain ⟨h3, done, h4, h5⟩ := hcop
      refine ⟨by rw [h2]; exact h3, done, by rw [hc]; exact h4, ?_⟩
      rw [hc, h2]
      exact hq _ _ _ h5
    | seq2 s1 =>
      refine ⟨by rw [h2]; exact hcop.1, ?_⟩
      rw [hc, h2]
      exact hq _ _ _ hcop.2

/-- A step of the server that increments `seq`. -/
lemma Reads.bump (h : Reads s) {w : Target} {q : Word} {v : Server} {ps : Target → List View}
    (hp : ∀ w', w' ≠ w → ps w' = s.pubs w') :
    Reads { s with
      surf := Function.update s.surf w ⟨q, (s.surf w).fld⟩
      bumps := Function.update s.bumps w (s.bumps w + 1)
      pubs := ps
      server := v } := by
  refine h.of_server (t := _) rfl rfl rfl rfl ?_ ?_ ?_
  · rcases eq_or_ne s.indlg w with rfl | hne
    · simp
    · simp [hne]
  · intro hb
    apply hp
    rintro rfl
    simp at hb
  · intro n S P hc
    rcases eq_or_ne s.indlg w with rfl | hne
    · simpa [lock, Seqlock.bump] using hc.bump
    · simpa [lock, hne] using hc

lemma Reads.publish (hw : Writes s) (h : Reads s) : Reads (publish s) := by
  unfold Snapshot.publish
  split
  next => exact h
  next => exact h.of_server rfl rfl rfl rfl le_rfl (fun _ => rfl) (fun _ _ _ hc => hc)
  next => exact h.bump (fun _ _ => rfl)
  next => exact h.of_server rfl rfl rfl rfl le_rfl (fun _ => rfl) (fun _ _ _ hc => hc)
  next w f v fs hs =>
    refine h.of_server rfl rfl rfl rfl le_rfl (fun _ => rfl) (fun n S P hc => ?_)
    rcases eq_or_ne s.indlg w with rfl | hne
    · have hodd : Odd (lock s).count := hw.odd s.indlg (by rw [hs]; rfl)
      simpa [lock, Seqlock.store] using hc.store hodd f v
    · simpa [lock, hne] using hc
  next w hs => exact h.bump (fun w' hne => Function.update_of_ne hne _ _)

lemma not_looping {c : Pc} (h : syncing c = false) : looping c = false := by
  cases c <;> first | rfl | cases h

/-- A call begins. -/
lemma Reads.enter (h : Reads s) (hn : syncing s.client.pc = false) : Reads (enter s) where
  lastseq := h.lastseq
  fresh hl _ := h.fresh hl (not_looping hn)
  copied n k hk := by
    cases hk
    trivial

/-- `cl_dopen` and `cl_dclose` give up the copy. -/
lemma reads_invalid (hn : syncing s.client.pc = false) (w : Target) :
    Reads { s with indlg := w, client := { s.client with lastseq := -1 } } where
  lastseq hl := absurd rfl hl
  fresh hl := absurd rfl hl
  copied n k hk := by
    have hk : s.client.pc = .sync n k := hk
    rw [hk] at hn
    cases hn

/-- A step within the loop of `cl_sync`. -/
lemma Reads.turn (h : Reads s) {S : Surf} {n : Stage} {k : Sync} {m : ℕ} (hk : k ≠ .quick)
    (hc : Sync.copied
      { s with client := { s.client with S := S, pc := .sync n k }, start := m } k) :
    Reads { s with client := { s.client with S := S, pc := .sync n k }, start := m } where
  lastseq := h.lastseq
  fresh _ hn := by
    cases k with
    | quick => exact absurd rfl hk
    | seq1 | copy | seq2 => cases hn
  copied n' k' hk' := by
    obtain ⟨rfl, rfl⟩ : n = n' ∧ k = k' := by simpa using hk'
    exact hc

lemma cl_sync_cons {q : HRSURF} {c : Client} {n : Stage} {s1 : Word} {f : Field} {fs : List Field}
    (hf : f ≠ .nvis) : cl_sync q c n (.copy s1 (f :: fs)) =
      { c with S := Function.update c.S f (q.fld f), pc := .sync n (.copy s1 fs) } := by
  cases f <;> first | rfl | exact absurd rfl hf

lemma nvis_not_mem (n : ℕ) : Field.nvis ∉ visFields n := by
  simp [visFields]

lemma Remains.nvis {S : Surf} {done fs : List Field} (h : Remains S done (.nvis :: fs)) :
    done ++ [.nvis] = headFields := by
  rcases h with ⟨h, -⟩ | ⟨d, -, h⟩
  · have hl := congrArg List.length h
    rw [headFields] at h hl
    rcases done with _ | ⟨f1, _ | ⟨f2, _ | ⟨f3, _ | ⟨f4, _ | ⟨f5, _ | ⟨f6, d⟩⟩⟩⟩⟩⟩ <;>
      simp_all [headFields]
  · refine absurd ?_ (nvis_not_mem (nrects S))
    rw [← h]
    exact List.mem_append_right _ List.mem_cons_self

lemma Remains.cons {S : Surf} {done fs : List Field} {f : Field} (h : Remains S done (f :: fs))
    (hf : f ≠ .nvis) (v : Word) : Remains (Function.update S f v) (done ++ [f]) fs := by
  rcases h with ⟨h, -⟩ | ⟨d, rfl, h⟩
  · refine .inl ⟨by simpa using h, ?_⟩
    rintro rfl
    have hl := congrArg List.getLast? h
    simp [headFields] at hl
    exact hf hl
  · refine .inr ⟨d ++ [f], by simp, ?_⟩
    rw [nrects, Function.update_of_ne hf.symm, ← nrects, ← h]
    simp

lemma Remains.nil {S : Surf} {done : List Field} (h : Remains S done []) :
    done = headFields ++ visFields (nrects S) := by
  rcases h with ⟨-, h⟩ | ⟨d, rfl, h⟩
  · exact absurd rfl h
  · rw [← h, List.append_nil]

lemma mem_snoc (done : List Field) (f : Field) :
    insert f {g | g ∈ done} = {g | g ∈ done ++ [f]} := by
  ext g
  simp [or_comm]

/-- While `seq` is even, its descriptor has no more rectangles than there is place for. -/
lemma Writes.bounded (hw : Writes s) (he : Even (s.bumps s.indlg)) :
    bounded ((lock s).cell .nvis) = (lock s).cell .nvis := by
  obtain ⟨v, -, hv⟩ := hw.quiet s.indlg fun hs => Nat.not_even_iff_odd.mpr (hw.odd _ hs) he
  exact if_neg (by simpa [lock] using hv.bounded)

/-- A load of the loop that copies the fields. -/
lemma Reads.copy (hw : Writes s) (h : Reads s) {n : Stage} {s1 : Word} {fs : List Field}
    (hpc : s.client.pc = .sync n (.copy s1 fs)) : Reads (load s) := by
  obtain ⟨h1, done, hr, hc⟩ := h.copied n _ hpc
  have hl : load s =
      { s with client := cl_sync (s.surf s.indlg) s.client n (.copy s1 fs) } := by
    simp only [load, hpc]
  rw [hl]
  cases fs with
  | nil =>
    refine h.turn (S := s.client.S) (m := s.start) nofun ⟨h1, ?_⟩
    rw [hr.nil] at hc
    exact hc
  | cons f fs =>
    rcases eq_or_ne f .nvis with rfl | hf
    · -- the count, from which the loop over the rectangles starts
      refine h.turn (m := s.start) nofun
        ⟨h1, done ++ [.nvis], .inr ⟨[], by rw [hr.nvis, List.append_nil], ?_⟩, ?_⟩
      · simp only [nrects, Function.update_self, List.nil_append]
      · rw [← mem_snoc]
        exact hc.load .nvis fun hn he => hw.bounded (by rw [← hn] at he; exact he)
    · rw [cl_sync_cons hf]
      refine h.turn (m := s.start) nofun ⟨h1, done ++ [f], hr.cons hf _, ?_⟩
      rw [← mem_snoc]
      exact hc.load f fun _ _ => rfl

/-- The copy is whole, and is that of the last publication. -/
lemma Writes.whole (hw : Writes s) (he : Even (s.bumps s.indlg))
    (hc : (lock s).Copied (s.bumps s.indlg) s.client.S
      {f | f ∈ headFields ++ visFields (nrects s.client.S)}) :
    ∃ v, (s.pubs s.indlg).getLast? = some v ∧ shown (s.surf s.indlg).fld = v ∧
      shown s.client.S = v := by
  obtain ⟨v, hv, hs⟩ := hw.quiet s.indlg fun h => Nat.not_even_iff_odd.mpr (hw.odd _ h) he
  refine ⟨v, hv, hs.shown, ?_⟩
  rw [← hs.shown]
  exact (shown_congr fun f hf => (hc.agree rfl he f hf).symm).symm

/-- What `cl_sync` makes of the copy in the end. -/
lemma shown_synced (c : Client) :
    shown (match c.sub with
      | some sub => clamp sub c.S
      | none => c.S) = inCell c.sub (shown c.S) := by
  cases c.sub with
  | none => rfl
  | some sub => exact shown_clamp sub c.S

lemma syncing_copy (q : HRSURF) (c : Client) (n : Stage) (s1 : Word) (fs : List Field) :
    syncing (cl_sync q c n (.copy s1 fs)).pc = true := by
  cases fs with
  | nil => rfl
  | cons f fs =>
    rcases eq_or_ne f .nvis with rfl | hf
    · rfl
    · rw [cl_sync_cons hf]
      rfl

lemma syncing_afterSync (n : Stage) : syncing (FastPath.afterSync n) = false := by
  cases n <;> rfl

/-- `cl_sync` returns with this copy, for which `seq` was `m` times incremented. -/
lemma Reads.returns {n : Stage} {S : Surf} {q : Word} {m : ℕ}
    (hq : q = BitVec.ofNat 16 m) (hm : s.bumps s.indlg = m)
    (hs : ∃ v, (s.pubs s.indlg).getLast? = some v ∧ shown (s.surf s.indlg).fld = v ∧
      shown S = inCell s.client.sub v) {t : State}
    (ht : t = { s with
      client := { s.client with S := S, lastseq := q, pc := FastPath.afterSync n }
      since := m }) : Reads t ∧ Synced t := by
  subst ht
  refine ⟨⟨fun _ => ⟨hq, hm.ge⟩, fun _ _ _ v hv => ?_, fun n' k hk => ?_⟩, hs⟩
  · obtain ⟨v', hv', -, hS⟩ := hs
    obtain rfl : v' = v := Option.some.inj (hv'.symm.trans hv)
    exact hS
  · have hk : FastPath.afterSync n = .sync n' k := hk
    have := syncing_afterSync n
    rw [hk] at this
    cases this

/-- What a load keeps, and what there is when it is the last one of `cl_sync`. -/
lemma Reads.load (hw : Writes s) (h : Reads s) (ht : Timely s .client)
    (hp : syncing s.client.pc = true) :
    Reads (load s) ∧ (syncing (load s).client.pc = false → Synced (load s)) := by
  rcases hpc : s.client.pc with _ | _ | ⟨n, k⟩ | _
  case sync =>
    have hseq := hw.seq s.indlg
    cases k with
    | quick =>
      by_cases hq : (s.surf s.indlg).seq &&& 1 = 0 ∧ (s.surf s.indlg).seq = s.client.lastseq
      · -- nothing new: the copy is kept
        have hl : s.client.lastseq ≠ -1 := by
          rw [← hq.2]
          rintro he
          rw [he] at hq
          exact absurd hq.1 (by decide)
        have htime : Unwrapped 16 s.since (s.bumps s.indlg) := by
          simp only [Timely, hpc] at ht
          exact ht hl
        obtain ⟨hls, hle⟩ := h.lastseq hl
        have hm : s.bumps s.indlg = s.since :=
          htime.eq hle (by rw [← hseq, ← hls, hq.2])
        have he : Even (s.bumps s.indlg) := by
          refine even_of_word (by decide : 0 < 16) ?_
          rw [← hseq]
          exact hq.1
        obtain ⟨v, hv, hs⟩ :=
          hw.quiet s.indlg fun hst => Nat.not_even_iff_odd.mpr (hw.odd _ hst) he
        have hS := h.fresh hl (by rw [hpc]; rfl) hm v hv
        have hr := Reads.returns (n := n) (t := Snapshot.load s) hls hm ⟨v, hv, hs.shown, hS⟩ (by
          simp only [Snapshot.load, hpc, cl_sync, if_pos hq])
        exact ⟨hr.1, fun _ => hr.2⟩
      · have hl : Snapshot.load s = { s with client := { s.client with pc := .sync n .seq1 } } := by
          simp only [Snapshot.load, hpc, cl_sync, if_neg hq]
        rw [hl]
        exact ⟨h.turn (S := s.client.S) (m := s.start) nofun trivial, nofun⟩
    | seq1 =>
      have hl : Snapshot.load s = { s with
          client := { s.client with pc := .sync n (.copy (s.surf s.indlg).seq headFields) }
          start := s.bumps s.indlg } := by
        simp only [Snapshot.load, hpc, cl_sync]
      rw [hl]
      refine ⟨h.turn (S := s.client.S) nofun ⟨hseq, [], .inl ⟨rfl, by decide⟩, ?_⟩, nofun⟩
      have hnil : {f : Field | f ∈ ([] : List Field)} = ∅ := by simp
      rw [hnil]
      exact Seqlock.Copied.start (lock s) s.client.S
    | copy s1 fs =>
      refine ⟨h.copy hw hpc, fun hn => ?_⟩
      have := syncing_copy (s.surf s.indlg) s.client n s1 fs
      simp only [Snapshot.load, hpc] at hn
      rw [this] at hn
      cases hn
    | seq2 s1 =>
      obtain ⟨hs1, hc⟩ := h.copied n _ hpc
      by_cases hq : s1 &&& 1 ≠ 0 ∨ s1 ≠ (s.surf s.indlg).seq
      · -- once more
        have hl : Snapshot.load s = { s with client := { s.client with pc := .sync n .seq1 } } := by
          simp only [Snapshot.load, hpc, cl_sync, if_pos hq, syncing, if_true]
        rw [hl]
        exact ⟨h.turn (S := s.client.S) (m := s.start) nofun trivial, nofun⟩
      · obtain ⟨h1, h2⟩ := not_or.mp hq
        have h1 := not_not.mp h1
        have h2 := not_not.mp h2
        have htime : Unwrapped 16 s.start (s.bumps s.indlg) := by
          simp only [Timely, hpc] at ht
          exact ht h1
        have hm : s.bumps s.indlg = s.start :=
          htime.eq hc.le (by rw [← hseq, ← hs1, h2])
        have he : Even (s.bumps s.indlg) := by
          rw [hm]
          exact even_of_word (by decide : 0 < 16) (by rw [← hs1]; exact h1)
        rw [← hm] at hc
        obtain ⟨v, hv, hf, hS⟩ := hw.whole he hc
        have hr := Reads.returns (n := n) (t := Snapshot.load s) hs1 hm ⟨v, hv, hf, by
          rw [← hS]
          exact shown_synced s.client⟩ (by
          simp only [Snapshot.load, hpc, cl_sync, if_neg hq, syncing_afterSync]
          rfl)
        exact ⟨hr.1, fun _ => hr.2⟩
  all_goals
    rw [hpc] at hp
    cases hp

end Client

/-! ### Runs -/

structure Inv (s : State) : Prop where
  writes : Writes s
  reads : Reads s

lemma Initial.inv {s : State} (h : Initial s) : Inv s where
  writes := by
    have hn : ∀ w, ¬ s.server.stores w := fun w => by rw [h.server]; exact id
    refine ⟨fun w => by rw [h.seq, h.bumps]; rfl, fun w hw => absurd hw (hn w),
      fun w _ => by rw [h.bumps]; exact Even.zero, fun w _ => ⟨shown (s.surf w).fld, ?_, rfl, ?_⟩,
      by rw [h.server]; trivial⟩
    · rw [h.pubs]
      rfl
    · rw [h.nvis]
      rfl
  reads := by
    refine ⟨fun hl => absurd h.lastseq hl, fun hl => absurd h.lastseq hl, fun n k hk => ?_⟩
    have := h.pc
    rw [hk] at this
    cases this

lemma not_stores {v : Server} (h : v.isIdle = true) (w : Target) : ¬ v.stores w := by
  cases v <;> first | exact id | cases h

lemma Inv.step {s t : State} {op : Op} (h : Inv s) (hs : TimelyStep s op t) : Inv t := by
  obtain ⟨⟨he, rfl⟩, ht⟩ := hs
  cases op with
  | publish_surf win =>
    refine ⟨h.writes.of_server (fun w => iff_of_false (not_stores he w) id) (says_surfOf win), ?_⟩
    exact h.reads.of_server rfl rfl rfl rfl le_rfl (fun _ => rfl) (fun _ _ _ hc => hc)
  | publish_dlg on =>
    refine ⟨h.writes.of_server (fun w => iff_of_false (not_stores he w) id)
      (says_dlgStores _ on), ?_⟩
    exact h.reads.of_server rfl rfl rfl rfl le_rfl (fun _ => rfl) (fun _ _ _ hc => hc)
  | server => exact ⟨h.writes.publish, h.reads.publish h.writes⟩
  | cl_sync => exact ⟨h.writes.of_client rfl rfl rfl rfl rfl, h.reads.enter he⟩
  | cl_dopen =>
    exact ⟨h.writes.of_client rfl rfl rfl rfl rfl, (reads_invalid he .dialog).enter he⟩
  | cl_dclose =>
    exact ⟨h.writes.of_client rfl rfl rfl rfl rfl, (reads_invalid he .window).enter he⟩
  | client =>
    refine ⟨h.writes.of_client ?_ ?_ ?_ ?_ ?_, (h.reads.load h.writes ht he).1⟩ <;>
      (simp only [exec, load]; split <;> [skip; rfl]; split <;> rfl)

/-- **Every `cl_sync` that returns leaves the client with the descriptor of the last publication,
which is the one that is published**, in a run in which, at each comparison of `seq` with a value
loaded before, there were not 32768 publications in between, or a multiple of that. -/
theorem snapshot {s t u : State} {as : List Op} {op : Op} (h0 : Initial s)
    (h : Run TimelyStep s as t) (hs : TimelyStep t op u) (hin : syncing t.client.pc = true)
    (hout : syncing u.client.pc = false) : Synced u := by
  have hinv : Inv t := 
    Run.invariant (I := Inv) (fun _ _ _ hi hst => hi.step hst) h h0.inv
  obtain ⟨⟨he, rfl⟩, ht⟩ := hs
  cases op with
  | client => exact (hinv.reads.load hinv.writes ht hin).2 hout
  | publish_surf | publish_dlg => cases hout.symm.trans hin
  | server =>
    have hc : (publish t).client = t.client := by
      simp only [publish]
      split <;> rfl
    rw [exec, hc] at hout
    cases hout.symm.trans hin
  | cl_sync | cl_dopen | cl_dclose => cases he.symm.trans hin

/-- A desktop that has just come up, and a client that has no copy yet. -/
def desk : State where
  surf _ := ⟨0, fun _ => 0⟩
  server := .idle
  indlg := .window
  client := ⟨.idle, 0, none, fun _ => 0, -1, ⟨0, 0, 0, 0⟩, ⟨0, 0, 0, 0⟩, ⟨0, 0, 0, 0⟩⟩
  bumps _ := 0
  pubs _ := [shown fun _ => 0]
  goal := shown fun _ => 0
  since := 0
  start := 0

lemma initial_desk : Initial desk :=
  ⟨fun _ => rfl, fun _ => rfl, fun _ => rfl, rfl, rfl, rfl, rfl, fun _ => rfl, fun _ => rfl⟩

/-- A window whose content is wholly visible. -/
def inFront : Window :=
  some (⟨⟨16, 20⟩, ⟨48, 40⟩⟩, fun i =>
    ⟨⟨⟨0, 0⟩, ⟨1024, 800⟩⟩, if i = 0 then .L_VISIBLE else .L_EMPTY, none⟩)

/-- A publication of that window, and the loads of a `cl_sync` but the last one. -/
def pubAndSync : List Op :=
  .publish_surf inFront :: List.replicate 14 .server ++ .cl_sync :: List.replicate 13 .client

theorem snapshot_inFront : Synced (exec (pubAndSync.foldl exec desk) .client) := by
  have hrun : Run TimelyStep desk pubAndSync (pubAndSync.foldl exec desk) :=
    Run.along (fun s op (h : Enabled s op ∧ Timely s op) => ⟨⟨h.1, rfl⟩, h.2⟩) desk pubAndSync
      (by decide +kernel)
  exact snapshot initial_desk hrun
    (show TimelyStep _ .client _ from ⟨⟨by decide +kernel, rfl⟩, by decide +kernel⟩)
    (by decide +kernel) (by decide +kernel)

/-! ### The counter comes round -/

/-- A covered window that has been moved to column `k`. -/
def movedTo (k : ℕ) : Window :=
  some (⟨⟨k, 0⟩, ⟨k, 0⟩⟩, fun _ => ⟨⟨⟨0, 0⟩, ⟨0, 0⟩⟩, .L_EMPTY, none⟩)

/-- The publication of that. -/
def pub (k : ℕ) : List Op := .publish_surf (movedTo k) :: List.replicate 10 .server

def firstSync : List Op := .cl_sync :: List.replicate 10 .client

/-- After the first `cl_sync`, `k` publications. -/
structure Moved (k : ℕ) (s : State) : Prop where
  server : s.server = .idle
  seq : (s.surf .window).seq = BitVec.ofNat 16 (2 * k)
  ox : (s.surf .window).fld .ox = BitVec.ofNat 16 k
  mapped : 0 < k → (s.surf .window).fld .mapped = 1
  client : s.client = (firstSync.foldl exec desk).client
  indlg : s.indlg = .window

lemma surfStores_movedTo (k : ℕ) : surfStores (surfOf (movedTo k)) =
    [(.mapped, 1), (.ox, word k), (.oy, word 0), (.cw, word (k - k)), (.ch, word (0 - 0)),
      (.nvis, 0)] := rfl

lemma word_natCast (k : ℕ) : word k = BitVec.ofNat 16 k := by
  simp [word]

lemma publish_compare {s : State} {t : Surf} (hs : s.server = .compare t)
    (hn : ¬ unchanged t (s.surf .window).fld) :
    publish s = { s with server := .odd .window (surfStores t) } := by
  simp only [publish, hs, if_neg hn]

/-- One more publication. -/
lemma Moved.pub {k : ℕ} {s : State} (h : Moved k s) :
    ∃ t, Run Step s (pub (k + 1)) t ∧ Moved (k + 1) t := by
  have hnew : ¬ unchanged (surfOf (movedTo (k + 1))) (s.surf .window).fld := by
    intro hu
    have hox := hu .ox (by simp [pubFields])
    rw [h.ox] at hox
    have hox : word ((k + 1 : ℕ) : ℤ) = BitVec.ofNat 16 k := hox
    rw [word_natCast] at hox
    have := congrArg BitVec.toNat hox
    simp only [BitVec.toNat_ofNat] at this
    omega
  set u : State := { s with
    server := .odd .window (surfStores (surfOf (movedTo (k + 1))))
    goal := shown (surfOf (movedTo (k + 1))) } with hu
  have hcmp : exec (exec s (.publish_surf (movedTo (k + 1)))) .server = u :=
    publish_compare (s := exec s (.publish_surf (movedTo (k + 1)))) rfl hnew
  have hrest : Along Enabled exec u (List.replicate 9 .server) :=
    ⟨rfl, rfl, rfl, rfl, rfl, rfl, rfl, rfl, rfl, trivial⟩
  have hall : Along Enabled exec s (Snapshot.pub (k + 1)) := by
    refine ⟨?_, rfl, ?_⟩
    · rw [Enabled, h.server]
      rfl
    · rw [hcmp]
      exact hrest
  refine ⟨_, Run.along (fun _ _ he => ⟨he, rfl⟩) s _ hall, ?_⟩
  have hend : (Snapshot.pub (k + 1)).foldl exec s = (List.replicate 9 Op.server).foldl exec u := by
    rw [Snapshot.pub, List.foldl_cons, @List.replicate_succ Op .server 9, List.foldl_cons, hcmp]
  rw [hend, hu, surfStores_movedTo]
  refine ⟨rfl, ?_, ?_, fun _ => ?_, h.client, h.indlg⟩
  · have h2 : 2 * (k + 1) = 2 * k + 1 + 1 := by ring
    rw [h2, BitVec.ofNat_add, BitVec.ofNat_add, ← h.seq]
    rfl
  · rw [← word_natCast]
    rfl
  · rfl

lemma moved_run (k : ℕ) : ∃ t, Run Step desk
    (firstSync ++ (List.range k).flatMap fun i => pub (i + 1)) t ∧ Moved k t := by
  induction k with
  | zero =>
    refine ⟨_, Run.along (fun _ _ he => ⟨he, rfl⟩) desk _ (by decide +kernel), ?_⟩
    exact ⟨rfl, rfl, rfl, fun h => absurd h (lt_irrefl 0), rfl, rfl⟩
  | succ k ih =>
    obtain ⟨s, hs, hm⟩ := ih
    obtain ⟨t, ht, hm'⟩ := hm.pub
    refine ⟨t, ?_, hm'⟩
    rw [List.range_succ, List.flatMap_append, ← List.append_assoc]
    simpa using hs.append ht

/-- The window is moved 32768 times between two calls of `cl_sync`, and the second one keeps the
copy of the first. -/
theorem seq_wraps : Initial desk ∧ ∃ t u, Run Step desk
    (firstSync ++ ((List.range 32768).flatMap fun i => pub (i + 1)) ++ [.cl_sync]) t ∧
    Step t .client u ∧ syncing t.client.pc = true ∧ syncing u.client.pc = false ∧ ¬ Synced u := by
  obtain ⟨s, hs, hm⟩ := moved_run 32768
  have hpc : syncing s.client.pc = false := by
    rw [hm.client]
    decide +kernel
  have hq : (s.surf .window).seq &&& 1 = 0 ∧ (s.surf .window).seq = s.client.lastseq := by
    rw [hm.seq, hm.client]
    decide +kernel
  have hu : exec (enter s) .client =
      { s with client := { s.client with pc := FastPath.afterSync .first } } := by
    simp only [exec, enter, load, cl_sync, hm.indlg, if_pos hq]
  refine ⟨initial_desk, enter s, exec (enter s) .client, hs.snoc ⟨hpc, rfl⟩, ⟨rfl, rfl⟩, rfl,
    ?_, ?_⟩
  · rw [hu]
    rfl
  · rintro ⟨v, -, hf, hS⟩
    rw [hu] at hf hS
    have hsub : s.client.sub = none := by
      rw [hm.client]
      decide +kernel
    have hmap : shown s.client.S = shown (s.surf .window).fld := by
      simp only [hm.indlg] at hf
      rw [hf]
      simpa only [hsub, inCell] using hS
    have hold : s.client.S .mapped = 0 := by
      rw [hm.client]
      decide +kernel
    have h1 := congrArg View.mapped hmap
    rw [shown, shown, hold, hm.mapped (by decide)] at h1
    have h01 : (0 : Word) = 1 := h1
    exact absurd h01 (by decide)

end Coherent.Snapshot
