import Coherent.Lib.Dissect
import Coherent.Lib.Doubly
import Coherent.Lib.Run

/-!
The layers of the windows on the screen.

The layers are chained from the rearmost to the frontmost one. Each has a table of regions, into
which its rectangle is cut along the rectangles of the layers in front of it.
-/

namespace Coherent.Layers

open Coherent.Lib

/-- A layer, by its address. -/
abbrev Lp := ℕ

def MAX_LRBUF : ℕ := 32
def XMAX : ℤ := 1024
def YMAX : ℤ := 800

@[ext] structure POINT where
  x : ℤ
  y : ℤ
  deriving DecidableEq

structure RECT where
  origin : POINT
  corner : POINT
  deriving DecidableEq

def R_point_in (r : RECT) (p : POINT) : Prop :=
  p.x ≥ r.origin.x ∧ p.y ≥ r.origin.y ∧ p.x < r.corner.x ∧ p.y < r.corner.y

def R_intersect (r s : RECT) : Prop :=
  r.origin.x < s.corner.x ∧ s.origin.x < r.corner.x ∧
    r.origin.y < s.corner.y ∧ s.origin.y < r.corner.y

def R_subset (r s : RECT) : Prop :=
  r.origin.x ≥ s.origin.x ∧ r.origin.y ≥ s.origin.y ∧
    r.corner.x ≤ s.corner.x ∧ r.corner.y ≤ s.corner.y

def R_null (r : RECT) : Prop := r.origin.x ≥ r.corner.x ∨ r.origin.y ≥ r.corner.y

instance (r s : RECT) : Decidable (R_intersect r s) := by unfold R_intersect; infer_instance
instance (r s : RECT) : Decidable (R_subset r s) := by unfold R_subset; infer_instance

inductive Flag
  | L_EMPTY
  | L_VISIBLE
  | L_OBSCURED
  deriving DecidableEq

structure SM_REGION where
  rect : RECT
  flag : Flag
  cov_by : Option Lp
  deriving DecidableEq

/-- The regions of a layer, and if it was reported that they do not fit. -/
structure Table where
  reg : ℕ → SM_REGION
  exceeded : Bool

/-- The scan for the highest layer which obscures such a rectangle. -/
def scan (rect : Lp → RECT) (fronts : List Lp) (g : SM_REGION) : SM_REGION :=
  fronts.foldl (fun g tlp =>
    if R_intersect g.rect (rect tlp) then
      { g with
        flag := .L_OBSCURED
        cov_by := some tlp }
    else g) g

/-- `old` and `new` of `split`. -/
def cut (old frect : RECT) : RECT × RECT :=
  if old.origin.x < frect.origin.x then
    (⟨old.origin, frect.origin.x, old.corner.y⟩, ⟨⟨frect.origin.x, old.origin.y⟩, old.corner⟩)
  else if old.origin.y < frect.origin.y then
    (⟨old.origin, old.corner.x, frect.origin.y⟩, ⟨⟨old.origin.x, frect.origin.y⟩, old.corner⟩)
  else if old.corner.x > frect.corner.x then
    (⟨⟨frect.corner.x, old.origin.y⟩, old.corner⟩, ⟨old.origin, frect.corner.x, old.corner.y⟩)
  else if old.corner.y > frect.corner.y then
    (⟨⟨old.origin.x, frect.corner.y⟩, old.corner⟩, ⟨old.origin, old.corner.x, frect.corner.y⟩)
  else (old, old)

/-- `split`, with the layers in front of the region's one. -/
def split (rect : Lp → RECT) (fronts : List Lp) (front : Lp) (i : ℕ) (t : Table) : Bool × Table :=
  let old := (t.reg i).rect
  if R_subset old (rect front) then
    -- `cov_by` is all that the scan changes
    (false, { t with
      reg := Function.update t.reg i (scan rect fronts { t.reg i with flag := .L_OBSCURED }) })
  else
    match (List.range (MAX_LRBUF - 1)).find? fun j => decide ((t.reg j).flag = .L_EMPTY) with
    | none => (false, { t with exceeded := true })
    | some j =>
      let c := cut old (rect front)
      let ri := scan rect fronts
        { t.reg i with
          rect := c.1
          flag := .L_VISIBLE }
      let rj := scan rect fronts
        { t.reg j with
          rect := c.2
          flag := .L_VISIBLE }
      (true, { t with reg := Function.update (Function.update t.reg i ri) j rj })

/-- The `while` loop about one region, a number of rounds at most. -/
def carve (rect : Lp → RECT) (fronts : List Lp) (front : Lp) (i : ℕ) : ℕ → Table → Table
  | 0, t => t
  | n + 1, t =>
    if R_intersect (rect front) (t.reg i).rect then
      match split rect fronts front i t with
      | (true, t) => carve rect fronts front i n t
      | (false, t) => t
    else t

/-- The regions against one layer in front. -/
def against (rect : Lp → RECT) (back : Lp) (fronts : List Lp) (t : Table) (front : Lp) : Table :=
  if R_intersect (rect front) (rect back) then
    (List.range MAX_LRBUF).foldl (fun t i =>
      if (t.reg i).flag ≠ .L_EMPTY then carve rect fronts front i MAX_LRBUF t else t) t
  else t

/-- The turn of a layer in `make_vis_list`. -/
def regions (rect : Lp → RECT) (back : Lp) (fronts : List Lp) (t : Table) : Table :=
  fronts.foldl (against rect back fronts)
    { t with
      reg := Function.update t.reg 0
        { t.reg 0 with
          rect := rect back
          flag := .L_VISIBLE } }

/-- All buffers are marked as not used. -/
def unused (t : Table) : Table where
  reg i := if i < MAX_LRBUF then { t.reg i with flag := .L_EMPTY } else t.reg i
  exceeded := false

/-! ### Rectangles -/

/-- The points of a rectangle. -/
def pts (r : RECT) : Set POINT := {p | R_point_in r p}

variable {r s u : RECT}

lemma R_intersect_comm : R_intersect r s ↔ R_intersect s r := by
  unfold R_intersect
  tauto

lemma R_subset.trans (h : R_subset r s) (h' : R_subset s u) : R_subset r u :=
  ⟨h'.1.trans h.1, h'.2.1.trans h.2.1, h.2.2.1.trans h'.2.2.1, h.2.2.2.trans h'.2.2.2⟩

lemma R_subset.refl (r : RECT) : R_subset r r := ⟨le_rfl, le_rfl, le_rfl, le_rfl⟩

lemma R_subset.pts_subset (h : R_subset r s) : pts r ⊆ pts s := fun _ hp =>
  ⟨h.1.trans hp.1, h.2.1.trans hp.2.1, hp.2.2.1.trans_le h.2.2.1, hp.2.2.2.trans_le h.2.2.2⟩

lemma R_intersect.mono (h : R_intersect u r) (hs : R_subset r s) : R_intersect u s :=
  ⟨h.1.trans_le hs.2.2.1, hs.1.trans_lt h.2.1, h.2.2.1.trans_le hs.2.2.2, hs.2.1.trans_lt h.2.2.2⟩

/-- Rectangles that share a point intersect. -/
lemma R_intersect_of_mem {p : POINT} (hr : p ∈ pts r) (hs : p ∈ pts s) : R_intersect r s :=
  ⟨hr.1.trans_lt hs.2.2.1, hs.1.trans_lt hr.2.2.1, hr.2.1.trans_lt hs.2.2.2,
    hs.2.1.trans_lt hr.2.2.2⟩

lemma pts_disjoint (h : ¬R_intersect r s) : Disjoint (pts r) (pts s) :=
  Set.disjoint_left.mpr fun _ hr hs => h (R_intersect_of_mem hr hs)

lemma origin_mem (h : ¬R_null r) : r.origin ∈ pts r := by
  unfold R_null at h
  push Not at h
  exact ⟨le_rfl, le_rfl, h.1, h.2⟩

/-- What a cut makes of a rectangle that meets the other one and is no part of it. -/
structure Cut (r s : RECT) (c : RECT × RECT) : Prop where
  left : R_subset c.1 r
  right : R_subset c.2 r
  union : pts c.1 ∪ pts c.2 = pts r
  disjoint : Disjoint (pts c.1) (pts c.2)
  away : ¬R_intersect s c.1

lemma cut_spec (hi : R_intersect s r) (hs : ¬R_subset r s) : Cut r s (cut r s) := by
  obtain ⟨⟨⟨ox, oy⟩, ⟨cx, cy⟩⟩, ⟨⟨fx, fy⟩, ⟨gx, gy⟩⟩⟩ := r, s
  simp only [R_intersect, R_subset, ge_iff_le, not_and_or, not_le] at hi hs
  unfold cut
  dsimp only
  split_ifs with h1 h2 h3 h4
  all_goals
    first
    | omega
    | refine ⟨?_, ?_, ?_, ?_, ?_⟩
      · simp only [R_subset]
        omega
      · simp only [R_subset]
        omega
      · ext p
        simp only [pts, R_point_in, Set.mem_union, Set.mem_ofPred_eq]
        omega
      · rw [Set.disjoint_left]
        intro p
        simp only [pts, R_point_in, Set.mem_ofPred_eq]
        omega
      · simp only [R_intersect]
        omega

/-! ### The regions of one layer -/

variable {rect : Lp → RECT} {R : RECT} {fronts done : List Lp} {f front back : Lp} {t : Table}
  {g : SM_REGION} {n i : ℕ} {P P' : ℕ → Lp → Prop}

@[simp] lemma scan_rect : (scan rect fronts g).rect = g.rect := by
  unfold scan
  induction fronts generalizing g with
  | nil => rfl
  | cons a l ih =>
    rw [List.foldl_cons, ih]
    split_ifs <;> rfl

/-- The region is obscured, by a layer that meets it. -/
structure Covered (rect : Lp → RECT) (fronts : List Lp) (g : SM_REGION) : Prop where
  flag : g.flag = .L_OBSCURED
  by_one : ∃ c ∈ fronts, g.cov_by = some c ∧ R_intersect (rect c) g.rect

/-- The scan finds none, or one that meets the region. -/
lemma scan_cases (rect : Lp → RECT) (fronts : List Lp) (g : SM_REGION) :
    (scan rect fronts g = g ∧ ∀ f ∈ fronts, ¬R_intersect (rect f) g.rect) ∨
      Covered rect fronts (scan rect fronts g) := by
  induction fronts generalizing g with
  | nil => exact .inl ⟨rfl, by simp⟩
  | cons a l ih =>
    have hstep : scan rect (a :: l) g = scan rect l (if R_intersect g.rect (rect a) then
        { g with
          flag := .L_OBSCURED
          cov_by := some a }
      else g) := rfl
    rw [hstep]
    split_ifs with ha
    · right
      rcases ih { g with
          flag := .L_OBSCURED
          cov_by := some a } with ⟨he, -⟩ | ⟨hf, c, hc, hcov⟩
      · rw [he]
        exact ⟨rfl, a, List.mem_cons_self, rfl, R_intersect_comm.mp ha⟩
      · exact ⟨hf, c, List.mem_cons_of_mem _ hc, hcov⟩
    · rcases ih g with ⟨he, hl⟩ | ⟨hf, c, hc, hcov⟩
      · refine .inl ⟨he, fun f hf => ?_⟩
        rcases List.mem_cons.mp hf with rfl | hf
        · exact fun h => ha (R_intersect_comm.mp h)
        · exact hl f hf
      · exact .inr ⟨hf, c, List.mem_cons_of_mem _ hc, hcov⟩

/-- The region is out of the layer's way, or obscured and inside. -/
def Settled (f : RECT) (g : SM_REGION) : Prop :=
  ¬R_intersect f g.rect ∨ (R_subset g.rect f ∧ g.flag = .L_OBSCURED)

/-- A part of a settled region is settled after a scan. -/
lemma Settled.part {r : RECT} {c : Option Lp} (hg : Settled (rect f) g) (hr : R_subset r g.rect)
    (hf : f ∈ fronts) : Settled (rect f) (scan rect fronts ⟨r, .L_VISIBLE, c⟩) := by
  rcases hg with hg | ⟨hg, -⟩
  · left
    rw [scan_rect]
    exact fun h => hg (h.mono hr)
  · rcases scan_cases rect fronts ⟨r, .L_VISIBLE, c⟩ with
      ⟨he, hl⟩ | hc
    · rw [he]
      exact .inl (hl f hf)
    · right
      rw [scan_rect]
      exact ⟨hr.trans hg, hc.flag⟩

/-- **What holds of a table while it is made**: the first `n` regions are in use and are pieces
of the layer's rectangle, and each is settled with the layers it has been tested against. -/
structure Carved (rect : Lp → RECT) (R : RECT) (fronts : List Lp) (P : ℕ → Lp → Prop) (t : Table)
    (n : ℕ) : Prop where
  pos : 0 < n
  lt : n < MAX_LRBUF
  used : ∀ i < MAX_LRBUF, (t.reg i).flag ≠ .L_EMPTY ↔ i < n
  inside : ∀ i < n, R_subset (t.reg i).rect R
  parts : Dissects (fun i => pts (t.reg i).rect) n (pts R)
  covered : ∀ i < n, (t.reg i).flag = .L_OBSCURED → Covered rect fronts (t.reg i)
  tested : ∀ i f, P i f → f ∈ fronts
  settled : t.exceeded = false → ∀ i < n, ∀ f, P i f → Settled (rect f) (t.reg i)

lemma Carved.more (h : Carved rect R fronts P t n) (hf : ∀ i f, P' i f → f ∈ fronts)
    (hs : t.exceeded = false → ∀ i < n, ∀ f, P' i f → P i f ∨ Settled (rect f) (t.reg i)) :
    Carved rect R fronts P' t n where
  __ := h
  tested := hf
  settled he i hi f hP := (hs he i hi f hP).elim (h.settled he i hi f) id

/-- A table that is full. -/
lemma Carved.exceed (h : Carved rect R fronts P t n) (hf : ∀ i f, P' i f → f ∈ fronts) :
    Carved rect R fronts P' { t with exceeded := true } n where
  __ := h
  tested := hf
  settled he := absurd he (by simp)

/-- The region is inside the layer in front. -/
lemma Carved.hide (h : Carved rect R fronts P t n) (hi : i < n) (hf : front ∈ fronts)
    (hm : R_intersect (rect front) (t.reg i).rect) (hs : R_subset (t.reg i).rect (rect front)) :
    Carved rect R fronts (fun j f => P j f ∨ j = i ∧ f = front)
      { t with
        reg := Function.update t.reg i
          (scan rect fronts { t.reg i with flag := .L_OBSCURED }) } n := by
  obtain ⟨g', hg'⟩ : ∃ g', scan rect fronts { t.reg i with flag := .L_OBSCURED } = g' := ⟨_, rfl⟩
  have hr : g'.rect = (t.reg i).rect := by rw [← hg', scan_rect]
  have hc : Covered rect fronts g' := by
    rcases scan_cases rect fronts { t.reg i with flag := .L_OBSCURED } with ⟨-, hl⟩ | hc
    · exact absurd hm (hl front hf)
    · exact hg' ▸ hc
  rw [hg']
  have hrect : ∀ j, (Function.update t.reg i g' j).rect = (t.reg j).rect := by
    intro j
    by_cases hj : j = i
    · rw [hj, Function.update_self, hr]
    · rw [Function.update_of_ne hj]
  refine ⟨h.pos, h.lt, fun j hj => ?_, fun j hj => ?_, ?_, fun j hj hfl => ?_, ?_, ?_⟩
  · by_cases hji : j = i
    · subst hji
      simp only [Function.update_self, hc.flag, hi, ne_eq, reduceCtorEq, not_false_eq_true]
    · simp only [Function.update_of_ne hji]
      exact h.used j hj
  · simp only [hrect]
    exact h.inside j hj
  · simp only [hrect]
    exact h.parts
  · by_cases hji : j = i
    · subst hji
      simpa only [Function.update_self] using hc
    · simp only [Function.update_of_ne hji] at hfl ⊢
      exact h.covered j hj hfl
  · rintro j f (hP | ⟨-, rfl⟩)
    · exact h.tested j f hP
    · exact hf
  · rintro he j hj f hP
    by_cases hji : j = i
    · subst hji
      simp only [Function.update_self, Settled, hr, hc.flag, and_true]
      rcases hP with hP | ⟨-, rfl⟩
      · exact (h.settled he j hj f hP).imp_right And.left
      · exact .inr hs
    · simp only [Function.update_of_ne hji]
      exact h.settled he j hj f (hP.resolve_right fun hp => hji hp.1)

/-- **The region is cut**: it stays outside the layer in front, and the new one goes last. -/
lemma Carved.cut {c : RECT × RECT} {ri rj : SM_REGION} (h : Carved rect R fronts P t n) (hi : i < n)
    (hn : n + 1 < MAX_LRBUF) (hP : ∀ f, P n f → P i f) (hf : front ∈ fronts)
    (hc : Cut (t.reg i).rect (rect front) c)
    (hri : ri = scan rect fronts ⟨c.1, .L_VISIBLE, (t.reg i).cov_by⟩)
    (hrj : rj = scan rect fronts ⟨c.2, .L_VISIBLE, (t.reg n).cov_by⟩) :
    Carved rect R fronts (fun j f => P j f ∨ j = i ∧ f = front)
      { t with reg := Function.update (Function.update t.reg i ri) n rj } (n + 1) := by
  have hir : ri.rect = c.1 := by rw [hri, scan_rect]
  have hjr : rj.rect = c.2 := by rw [hrj, scan_rect]
  have hscan : ∀ r c', (scan rect fronts ⟨r, .L_VISIBLE, c'⟩).flag ≠ .L_EMPTY ∧
      ((scan rect fronts ⟨r, .L_VISIBLE, c'⟩).flag = .L_OBSCURED →
        Covered rect fronts (scan rect fronts ⟨r, .L_VISIBLE, c'⟩)) := by
    intro r c'
    rcases scan_cases rect fronts ⟨r, .L_VISIBLE, c'⟩ with
      ⟨he, -⟩ | hcov
    · rw [he]
      exact ⟨by simp, by simp⟩
    · exact ⟨by simp [hcov.flag], fun _ => hcov⟩
  obtain ⟨reg', hreg⟩ : ∃ reg', Function.update (Function.update t.reg i ri) n rj = reg' := ⟨_, rfl⟩
  have hin : i ≠ n := hi.ne
  have hself : reg' i = ri := by rw [← hreg, Function.update_of_ne hin, Function.update_self]
  have hnew : reg' n = rj := by rw [← hreg, Function.update_self]
  have hold : ∀ j, j ≠ i → j ≠ n → reg' j = t.reg j := by
    intro j hji hjn
    rw [← hreg, Function.update_of_ne hjn, Function.update_of_ne hji]
  rw [hreg]
  -- what holds of the two regions and of the others holds of all of them
  have hall : ∀ {Q : ℕ → SM_REGION → Prop}, Q i ri → Q n rj →
      (∀ j < n, j ≠ i → Q j (t.reg j)) → ∀ j < n + 1, Q j (reg' j) := by
    intro Q hqi hqn hq j hj
    by_cases hjn : j = n
    · rw [hjn, hnew]
      exact hqn
    by_cases hji : j = i
    · rw [hji, hself]
      exact hqi
    · rw [hold j hji hjn]
      exact hq j (by omega) hji
  refine ⟨n.succ_pos, hn, fun j hj => ?_, ?_, ?_, ?_, ?_, fun he => ?_⟩
  · refine ⟨fun hfl => ?_, fun hjn => ?_⟩
    · by_contra hjn
      have hj' : reg' j = t.reg j := hold j (by omega) (by omega)
      simp only [hj', h.used j hj] at hfl
      omega
    · refine hall (Q := fun _ g => g.flag ≠ .L_EMPTY) ?_ ?_ (fun j hj _ => ?_) j hjn
      · exact hri ▸ (hscan ..).1
      · exact hrj ▸ (hscan ..).1
      · exact (h.used j (hj.trans h.lt)).mpr hj
  · refine hall (Q := fun _ g => R_subset g.rect R) ?_ ?_ fun j hj _ => h.inside j hj
    · rw [hir]
      exact hc.left.trans (h.inside i hi)
    · rw [hjr]
      exact hc.right.trans (h.inside i hi)
  · refine h.parts.cut hi hc.union hc.disjoint ?_ ?_ fun j hj hji => ?_
    · simp only [hself, hir]
    · simp only [hnew, hjr]
    · simp only [hold j hji hj.ne]
  · refine hall (Q := fun _ g => g.flag = .L_OBSCURED → Covered rect fronts g) ?_ ?_
      fun j hj _ => h.covered j hj
    · exact hri ▸ (hscan ..).2
    · exact hrj ▸ (hscan ..).2
  · rintro j f (hP | ⟨-, rfl⟩)
    · exact h.tested j f hP
    · exact hf
  · refine hall (Q := fun j g => ∀ f, P j f ∨ j = i ∧ f = front → Settled (rect f) g) ?_ ?_ ?_
    · rintro f (hPf | ⟨-, rfl⟩)
      · rw [hri]
        exact (h.settled he i hi f hPf).part hc.left (h.tested i f hPf)
      · left
        rw [hir]
        exact hc.away
    · rintro f (hPf | ⟨hni, -⟩)
      · rw [hrj]
        exact (h.settled he i hi f (hP f hPf)).part hc.right (h.tested n f hPf)
      · exact absurd hni.symm hin
    · intro j hj hji f hPf
      exact h.settled he j hj f (hPf.resolve_right fun hp => hji hp.1)

lemma split_empty (h : Carved rect R fronts P t n) :
    ((List.range (MAX_LRBUF - 1)).find? fun j => decide ((t.reg j).flag = .L_EMPTY)) =
      if n + 1 < MAX_LRBUF then some n else none := by
  have hlt := h.lt
  unfold MAX_LRBUF at hlt ⊢
  split_ifs with hn
  · rw [List.find?_range_eq_some]
    refine ⟨?_, List.mem_range.mpr (by omega), fun j hj => ?_⟩
    · have := (h.used n (by unfold MAX_LRBUF; omega)).not
      simpa using this
    · have := (h.used j (by unfold MAX_LRBUF; omega)).mpr hj
      simpa using this
  · rw [List.find?_range_eq_none]
    intro j hj
    have := (h.used j (by unfold MAX_LRBUF; omega)).mpr (by omega)
    simpa using this

/-- The three ways a `split` ends. -/
lemma Carved.split (h : Carved rect R fronts P t n) (hi : i < n) (hf : front ∈ fronts)
    (hP : ∀ f, P n f → P i f) (hm : R_intersect (rect front) (t.reg i).rect) :
    ∃ b t', split rect fronts front i t = (b, t') ∧
      (∃ n', Carved rect R fronts (fun j f => P j f ∨ j = i ∧ f = front) t' n') ∧
      (b = true → ¬R_intersect (rect front) (t'.reg i).rect) := by
  have hP' : ∀ j f, P j f ∨ j = i ∧ f = front → f ∈ fronts := by
    rintro j f (hj | ⟨-, rfl⟩)
    · exact h.tested j f hj
    · exact hf
  unfold Layers.split
  by_cases hs : R_subset (t.reg i).rect (rect front)
  · rw [if_pos hs]
    exact ⟨_, _, rfl, ⟨n, h.hide hi hf hm hs⟩, by simp⟩
  · rw [if_neg hs, split_empty h]
    by_cases hn : n + 1 < MAX_LRBUF
    · have hc := cut_spec hm hs
      rw [if_pos hn]
      refine ⟨_, _, rfl, ⟨n + 1, h.cut hi hn hP hf hc rfl rfl⟩, fun _ => ?_⟩
      simp only [Function.update_of_ne hi.ne, Function.update_self, scan_rect]
      exact hc.away
    · rw [if_neg hn]
      exact ⟨_, _, rfl, ⟨n, h.exceed hP'⟩, by simp⟩

/-- **The `while` loop ends** after two tests of its condition at most, with the region tested. -/
theorem Carved.carve (h : Carved rect R fronts P t n) (hi : i < n) (hf : front ∈ fronts)
    (hP : ∀ f, P n f → P i f) (m : ℕ) :
    carve rect fronts front i (m + 2) t = carve rect fronts front i 2 t ∧
      ∃ n', Carved rect R fronts (fun j f => P j f ∨ j = i ∧ f = front)
        (carve rect fronts front i (m + 2) t) n' := by
  have hout : ∀ m t, ¬R_intersect (rect front) (t.reg i).rect →
      Layers.carve rect fronts front i (m + 1) t = t := fun m t ht => if_neg ht
  by_cases hm : R_intersect (rect front) (t.reg i).rect
  · obtain ⟨b, t', hsp, hc, hb⟩ := h.split hi hf hP hm
    have hstep : ∀ m, Layers.carve rect fronts front i (m + 2) t = t' := by
      intro m
      rw [Layers.carve, if_pos hm, hsp]
      cases b with
      | false => rfl
      | true => exact hout m t' (hb rfl)
    rw [hstep m, hstep 0]
    exact ⟨rfl, hc⟩
  · rw [hout _ _ hm, hout _ _ hm]
    refine ⟨rfl, n, h.more ?_ fun _ j _ f hj => ?_⟩
    · rintro j f (hj | ⟨-, rfl⟩)
      · exact h.tested j f hj
      · exact hf
    · rcases hj with hj | ⟨rfl, rfl⟩
      · exact .inl hj
      · exact .inr (.inl hm)

/-- The turn of a layer in front. -/
lemma Carved.against (h : Carved rect (rect back) fronts (fun _ f => f ∈ done) t n)
    (hf : front ∈ fronts) : ∃ n', Carved rect (rect back) fronts (fun _ f => f ∈ done ++ [front])
      (against rect back fronts t front) n' := by
  have hd : ∀ f, f ∈ done ++ [front] → f ∈ fronts := by
    intro f hfd
    rcases List.mem_append.mp hfd with hfd | hfd
    · exact h.tested 0 f hfd
    · exact List.mem_singleton.mp hfd ▸ hf
  unfold Layers.against
  split_ifs with hm
  · -- induction on the regions that have been looked at
    have hloop : ∀ k ≤ MAX_LRBUF, ∃ n', Carved rect (rect back) fronts
        (fun j f => f ∈ done ∨ j < k ∧ f = front)
        ((List.range k).foldl (fun t i => if (t.reg i).flag ≠ .L_EMPTY then
          Layers.carve rect fronts front i MAX_LRBUF t else t) t) n' := by
      intro k hk
      induction k with
      | zero => exact ⟨n, by simpa using h⟩
      | succ k ih =>
        obtain ⟨n', ih⟩ := ih (by omega)
        rw [List.range_succ, List.foldl_append, List.foldl_cons, List.foldl_nil]
        split_ifs with hfl
        · have hkn := (ih.used k hk).mp hfl
          obtain ⟨n'', hc⟩ := (ih.carve hkn hf (fun f hP => hP.imp_right fun hp =>
            absurd hp.1 (by omega)) 30).2
          refine ⟨n'', hc.more (fun j f hj => hd f ?_) fun _ j _ f hj => .inl ?_⟩
          · rcases hj with hj | ⟨-, rfl⟩
            · exact List.mem_append_left _ hj
            · exact List.mem_append_right _ List.mem_cons_self
          · rcases hj with hj | ⟨hj, rfl⟩
            · exact .inl (.inl hj)
            · rcases Nat.lt_succ_iff_lt_or_eq.mp hj with hj | rfl
              · exact .inl (.inr ⟨hj, rfl⟩)
              · exact .inr ⟨rfl, rfl⟩
        · have hkn := (ih.used k hk).not.mp hfl
          refine ⟨n', ih.more (fun j f hj => hd f ?_) fun _ j hjn f hj => .inl ?_⟩
          · rcases hj with hj | ⟨-, rfl⟩
            · exact List.mem_append_left _ hj
            · exact List.mem_append_right _ List.mem_cons_self
          · exact hj.imp_right fun hp => ⟨by omega, hp.2⟩
    obtain ⟨n', hc⟩ := hloop MAX_LRBUF le_rfl
    refine ⟨n', hc.more (fun _ => hd) fun _ j hj f hfd => .inl ?_⟩
    rcases List.mem_append.mp hfd with hfd | hfd
    · exact .inl hfd
    · exact .inr ⟨hj.trans hc.lt, List.mem_singleton.mp hfd⟩
  · refine ⟨n, h.more (fun _ => hd) fun _ j hj f hfd => ?_⟩
    rcases List.mem_append.mp hfd with hfd | hfd
    · exact .inl hfd
    · rw [List.mem_singleton.mp hfd]
      exact .inr (.inl fun hmj => hm (hmj.mono (h.inside j hj)))

/-- What a table says of its layer when all of it fitted. -/
structure Tiled (rect : Lp → RECT) (R : RECT) (fronts : List Lp) (reg : ℕ → SM_REGION) (n : ℕ) :
    Prop where
  le : n ≤ MAX_LRBUF
  used : ∀ i < MAX_LRBUF, (reg i).flag ≠ .L_EMPTY ↔ i < n
  /-- The rectangles are disjoint, and their union is the layer's. -/
  parts : Dissects (fun i => pts (reg i).rect) n (pts R)
  visible : ∀ i < n, (reg i).flag = .L_VISIBLE ↔ ∀ f ∈ fronts, ¬R_intersect (rect f) (reg i).rect
  covered : ∀ i < n, (reg i).flag ≠ .L_VISIBLE → (reg i).flag = .L_OBSCURED ∧
    ∃ c ∈ fronts, (reg i).cov_by = some c ∧ R_subset (reg i).rect (rect c)

lemma Carved.tiled (h : Carved rect R fronts (fun _ f => f ∈ fronts) t n)
    (he : t.exceeded = false) : Tiled rect R fronts t.reg n := by
  have hobs : ∀ i < n, (t.reg i).flag ≠ .L_VISIBLE → (t.reg i).flag = .L_OBSCURED := by
    intro i hi hv
    have := (h.used i (hi.trans h.lt)).mpr hi
    cases hfl : (t.reg i).flag with
    | L_EMPTY => exact absurd hfl this
    | L_VISIBLE => exact absurd hfl hv
    | L_OBSCURED => rfl
  refine ⟨h.lt.le, h.used, h.parts, fun i hi => ⟨fun hv f hf => ?_, fun hl => ?_⟩, fun i hi hv => ?_⟩
  · refine (h.settled he i hi f hf).resolve_right fun hs => ?_
    simp [hs.2] at hv
  · by_contra hv
    obtain ⟨c, hc, -, hm⟩ := (h.covered i hi (hobs i hi hv)).by_one
    exact hl c hc hm
  · obtain ⟨c, hc, hcb, hm⟩ := (h.covered i hi (hobs i hi hv)).by_one
    refine ⟨hobs i hi hv, c, hc, hcb, ?_⟩
    exact ((h.settled he i hi c hc).resolve_left (not_not.mpr hm)).1

/-- **The regions of a layer**, against all the layers in front of it. -/
theorem regions_tiled (t : Table) (he : (regions rect back fronts (unused t)).exceeded = false) :
    ∃ n, Tiled rect (rect back) fronts (regions rect back fronts (unused t)).reg n := by
  -- induction on the layers that are still to come
  have hloop : ∀ todo done t n, fronts = done ++ todo →
      Carved rect (rect back) fronts (fun _ f => f ∈ done) t n →
      ∃ n', Carved rect (rect back) fronts (fun _ f => f ∈ fronts)
        (todo.foldl (against rect back fronts) t) n' := by
    intro todo
    induction todo with
    | nil =>
      intro done t n hd h
      rw [List.append_nil] at hd
      subst hd
      exact ⟨n, h⟩
    | cons a todo ih =>
      intro done t n hd h
      obtain ⟨n', h'⟩ := h.against (show a ∈ fronts by simp [hd])
      exact ih (done ++ [a]) _ n' (by simp [hd]) h'
  have hstart : Carved rect (rect back) fronts (fun _ f => f ∈ ([] : List Lp))
      { unused t with
        reg := Function.update (unused t).reg 0
          { (unused t).reg 0 with
            rect := rect back
            flag := .L_VISIBLE } } 1 := by
    refine ⟨Nat.one_pos, by decide, fun i hi => ?_, ?_, Dissects.one (by simp), ?_, by simp, ?_⟩
    · rcases i with - | i
      · simp
      · simp [unused, hi]
    · intro i hi
      obtain rfl : i = 0 := by omega
      simpa using R_subset.refl _
    · intro i hi
      obtain rfl : i = 0 := by omega
      simp
    · intro _ i _ f hf
      simp at hf
  obtain ⟨n, h⟩ := hloop fronts [] _ 1 rfl hstart
  exact ⟨n, h.tiled he⟩

/-! ### The list of layers -/

structure State where
  rect : Lp → RECT
  tbl : Lp → Table
  front : Lp → Option Lp
  back : Lp → Option Lp
  DM_frontmost : Option Lp
  DM_rearmost : Option Lp
  /-- What `malloc` returned for a layer and was not freed. -/
  heap : Finset Lp

/-- Before the first window. -/
def State.init : State where
  rect _ := ⟨⟨0, 0⟩, 0, 0⟩
  tbl _ := ⟨fun _ => ⟨⟨⟨0, 0⟩, 0, 0⟩, .L_EMPTY, none⟩, false⟩
  front _ := none
  back _ := none
  DM_frontmost := none
  DM_rearmost := none
  heap := ∅

/-- The layers from a pointer on to the front. -/
def State.onward (s : State) (p : Option Lp) : List Lp := reached s.front s.heap.card p

def make_vis_list (s : State) : State :=
  let tbl := (s.onward s.DM_rearmost).foldl
    (fun tbl back => Function.update tbl back (unused (tbl back))) s.tbl
  { s with
    tbl := (s.onward s.DM_rearmost).foldl
      (fun tbl back => Function.update tbl back
        (regions s.rect back (s.onward (s.front back)) (tbl back))) tbl }

/-- `newlayer`, with what `malloc` returns. -/
def newlayer (s : State) (newlp : Option Lp) (r : RECT) : State :=
  match newlp with
  | none => s
  | some newlp =>
    make_vis_list
      { s with
        heap := insert newlp s.heap
        rect := Function.update s.rect newlp r
        front := Function.update (Deque.store s.front s.DM_frontmost (some newlp)) newlp none
        back := Function.update s.back newlp s.DM_frontmost
        DM_frontmost := some newlp
        DM_rearmost := if s.DM_rearmost = none then some newlp else s.DM_rearmost }

/-- `dellayer` unhooks the layer. -/
def unhook (s : State) (lp : Lp) : State :=
  let s := if s.DM_frontmost = some lp then { s with DM_frontmost := s.back lp }
    else { s with back := Deque.store s.back (s.front lp) (s.back lp) }
  if s.DM_rearmost = some lp then { s with DM_rearmost := s.front lp }
  else { s with front := Deque.store s.front (s.back lp) (s.front lp) }

/-- `dellayer`; the caller frees the layer. -/
def dellayer (s : State) (lp : Lp) : State :=
  let s := make_vis_list (unhook s lp)
  { s with heap := s.heap.erase lp }

/-- `upfront` takes the layer out and puts it in front. -/
def raise (s : State) (lp : Lp) : State :=
  let s := { s with back := Deque.store s.back (s.front lp) (s.back lp) }
  let s := if s.back lp ≠ none then
      { s with front := Deque.store s.front (s.back lp) (s.front lp) }
    else { s with DM_rearmost := s.DM_rearmost.bind s.front }
  let s := { s with front := Function.update s.front lp none }
  { s with
    front := Deque.store s.front s.DM_frontmost (some lp)
    back := Function.update s.back lp s.DM_frontmost
    DM_frontmost := some lp }

def upfront (s : State) (lp : Lp) : State :=
  if s.DM_frontmost = some lp then s else make_vis_list (raise s lp)

/-- `pushback` takes the layer out and puts it behind the rearmost one. -/
def lower (s : State) (lp : Lp) : State :=
  let s := if s.DM_frontmost = some lp then
      { s with
        DM_frontmost := s.back lp
        front := Deque.store s.front (s.back lp) none }
    else { s with back := Deque.store s.back (s.front lp) (s.back lp) }
  let s := { s with front := Deque.store s.front (s.back lp) (s.front lp) }
  let s := { s with back := Deque.store s.back s.DM_rearmost (some lp) }
  { s with
    front := Function.update s.front lp s.DM_rearmost
    back := Function.update s.back lp none
    DM_rearmost := some lp }

def pushback (s : State) (lp : Lp) : State :=
  if s.DM_rearmost = some lp then s else make_vis_list (lower s lp)

/-- `new_dimensions`, of the layer `gkLayer`. -/
def new_dimensions (s : State) (gkLayer : Lp) (r : RECT) : State :=
  if r.corner.x > XMAX then s
  else if r.corner.y > YMAX then s
  else make_vis_list { s with rect := Function.update s.rect gkLayer r }

inductive Op
  | newlayer (newlp : Option Lp) (r : RECT)
  | dellayer (lp : Lp)
  | upfront (lp : Lp)
  | pushback (lp : Lp)
  | new_dimensions (gkLayer : Lp) (r : RECT)

def exec (s : State) : Op → State
  | .newlayer newlp r => newlayer s newlp r
  | .dellayer lp => dellayer s lp
  | .upfront lp => upfront s lp
  | .pushback lp => pushback s lp
  | .new_dimensions gkLayer r => new_dimensions s gkLayer r

/-- `malloc` returns no layer that is in use, and the calls are about layers that are. -/
def Enabled (s : State) : Op → Prop
  | .newlayer newlp _ => ∀ lp ∈ newlp, lp ∉ s.heap
  | .dellayer lp | .upfront lp | .pushback lp | .new_dimensions lp _ => lp ∈ s.heap

instance (s : State) (op : Op) : Decidable (Enabled s op) := by
  cases op <;> unfold Enabled <;> infer_instance

def Step (s : State) (op : Op) (s' : State) : Prop := Enabled s op ∧ s' = exec s op

/-- The stacking order, from the frontmost layer to the rearmost one. -/
def order (l : List Lp) : Op → List Lp
  | .newlayer newlp _ => newlp.toList ++ l
  | .dellayer lp => l.erase lp
  | .upfront lp => lp :: l.erase lp
  | .pushback lp => l.erase lp ++ [lp]
  | .new_dimensions _ _ => l

/-- The pointers of the layers. -/
def State.list (s : State) : Deque Lp := ⟨s.back, s.front, s.DM_frontmost, s.DM_rearmost⟩

variable {s s' : State} {lp : Lp} {l l₁ l₂ : List Lp}

lemma unhook_list (hd : s.list.Holds (l₁ ++ lp :: l₂)) :
    (unhook s lp).list = s.list.unlink lp := by
  have hh : s.DM_frontmost = some lp ↔ l₁ = [] := hd.head_iff
  have ht : s.DM_rearmost = some lp ↔ l₂ = [] := hd.tail_iff
  have hf : s.front lp ≠ some lp := hd.prev_ne
  have hb := Deque.store_of_ne (f := s.back) (v := s.back lp) hf
  rcases l₁.eq_nil_or_concat with rfl | ⟨m, a, rfl⟩
  · have hn : s.front lp = none := hd.prev_nil
    rcases l₂ with - | ⟨b, l₂⟩
    · have hn' : s.back lp = none := Deque.Holds.next_nil (l := []) hd
      simp [unhook, State.list, Deque.unlink, hh, ht, hn, hn', Deque.store]
    · simp [unhook, State.list, Deque.unlink, hh, ht, hn, Deque.store]
  · rcases l₂ with - | ⟨b, l₂⟩
    · have hn' : s.back lp = none := hd.next_nil
      simp [unhook, State.list, Deque.unlink, hh, ht, hn', Deque.store]
    · simp [unhook, State.list, Deque.unlink, hh, ht, hb]

lemma raise_list (hd : s.list.Holds (l₁ ++ lp :: l₂)) (hne : s.DM_frontmost ≠ some lp) :
    (raise s lp).list = (s.list.unlink lp).pushFront lp := by
  have hh : s.DM_frontmost = some lp ↔ l₁ = [] := hd.head_iff
  have hf : s.front lp ≠ some lp := hd.prev_ne
  have hb := Deque.store_of_ne (f := s.back) (v := s.back lp) hf
  obtain ⟨m, a, rfl⟩ := l₁.eq_nil_or_concat.resolve_left (hne ∘ hh.mpr)
  rw [List.concat_eq_append] at hd
  have hfa : s.front lp = some a := hd.prev_snoc
  have hcomm : ∀ f : Lp → Option Lp, Function.update (Deque.store f s.DM_frontmost (some lp)) lp none =
      Deque.store (Function.update f lp none) s.DM_frontmost (some lp) := by
    intro f
    cases hfm : s.DM_frontmost with
    | none => rfl
    | some b =>
      refine Function.update_comm ?_ ..
      rintro rfl
      exact hne hfm
  rcases l₂ with - | ⟨b, l₂⟩
  · have hn : s.back lp = none := hd.next_nil
    have ht : s.DM_rearmost = some lp := hd.tail_snoc
    rw [hfa, hn] at hb
    simp [raise, State.list, Deque.unlink, Deque.pushFront, hne, hn, hb, ht, hfa, hcomm]
  · have hn : s.back lp = some b := hd.next_cons
    have ht : s.DM_rearmost ≠ some lp := hd.tail_iff.not.mpr (by simp)
    have hr : s.DM_rearmost ≠ none := hd.behind.eq_none_iff.not.mpr (by simp)
    rw [hfa, hn] at hb
    simp [raise, State.list, Deque.unlink, Deque.pushFront, hne, hn, hb, ht, hr, hfa, hcomm]

lemma lower_list (hd : s.list.Holds (l₁ ++ lp :: l₂)) (hne : s.DM_rearmost ≠ some lp) :
    (lower s lp).list = (s.list.unlink lp).pushBack lp := by
  have ht : s.DM_rearmost = some lp ↔ l₂ = [] := hd.tail_iff
  have hf : s.front lp ≠ some lp := hd.prev_ne
  have hb := Deque.store_of_ne (f := s.back) (v := s.back lp) hf
  have hn : s.back lp ≠ some lp := hd.next_ne
  obtain ⟨b, l₂, rfl⟩ := List.exists_cons_of_ne_nil (hne ∘ ht.mpr)
  have hbb : s.back lp = some b := hd.next_cons
  have hfb : ∀ v, Deque.store s.front (some b) v lp = s.front lp := fun v =>
    Deque.store_of_ne (hbb ▸ hn)
  rcases l₁.eq_nil_or_concat with rfl | ⟨m, a, rfl⟩
  · have hfa : s.front lp = none := hd.prev_nil
    have hh : s.DM_frontmost = some lp := hd.head_cons
    rw [hfa] at hfb
    simp [lower, State.list, Deque.unlink, Deque.pushBack, Deque.pushFront, Deque.flip, hne, hh, hbb,
      hfa, hfb]
  · rw [List.concat_eq_append] at hd
    have hfa : s.front lp = some a := hd.prev_snoc
    have hh : s.DM_frontmost ≠ some lp := hd.head_iff.not.mpr (by simp)
    have hhn : s.DM_frontmost ≠ none := hd.ahead.eq_none_iff.not.mpr (by simp)
    rw [hfa, hbb] at hb
    simp [lower, State.list, Deque.unlink, Deque.pushBack, Deque.pushFront, Deque.flip, hne, hh, hbb,
      hfa, hb, hhn]

/-! ### Whole runs -/

lemma foldl_update_of_notMem {F : Lp → Table → Table} {ls : List Lp} {tbl : Lp → Table}
    (hl : lp ∉ ls) :
    ls.foldl (fun tbl b => Function.update tbl b (F b (tbl b))) tbl lp = tbl lp := by
  induction ls generalizing tbl with
  | nil => rfl
  | cons a ls ih =>
    rw [List.mem_cons, not_or] at hl
    rw [List.foldl_cons, ih hl.2, Function.update_of_ne hl.1]

lemma foldl_update {F : Lp → Table → Table} {ls : List Lp} {tbl : Lp → Table} (hnd : ls.Nodup)
    (hl : lp ∈ ls) :
    ls.foldl (fun tbl b => Function.update tbl b (F b (tbl b))) tbl lp = F lp (tbl lp) := by
  induction ls generalizing tbl with
  | nil => simp at hl
  | cons a ls ih =>
    rw [List.nodup_cons] at hnd
    rw [List.foldl_cons]
    rcases List.mem_cons.mp hl with rfl | hls
    · rw [foldl_update_of_notMem hnd.1, Function.update_self]
    · rw [ih hnd.2 hls, Function.update_of_ne]
      rintro rfl
      exact hnd.1 hls

/-- **The layers are in their order, and their tables are right.** -/
structure Inv (s : State) (l : List Lp) : Prop where
  holds : s.list.Holds l
  live : ∀ lp, lp ∈ l ↔ lp ∈ s.heap
  tiled : ∀ l₁ lp l₂, l = l₁ ++ lp :: l₂ → (s.tbl lp).exceeded = false →
    ∃ n, Tiled s.rect (s.rect lp) l₁ (s.tbl lp).reg n

lemma Tiled.reverse {reg : ℕ → SM_REGION} (h : Tiled rect R fronts.reverse reg n) :
    Tiled rect R fronts reg n := by
  refine ⟨h.le, h.used, h.parts, fun i hi => ?_, fun i hi hv => ?_⟩
  · simpa using h.visible i hi
  · simpa using h.covered i hi hv

/-- `make_vis_list` writes tables only, and these are right whatever they were. -/
lemma make_vis_list_spec (hd : s.list.Holds l) (hc : l.length ≤ s.heap.card) :
    ∃ tbl, make_vis_list s = { s with tbl := tbl } ∧
      ∀ l₁ lp l₂, l = l₁ ++ lp :: l₂ → (tbl lp).exceeded = false →
        ∃ n, Tiled s.rect (s.rect lp) l₁ (tbl lp).reg n := by
  refine ⟨_, rfl, ?_⟩
  have hall : s.onward s.DM_rearmost = l.reverse := hd.behind.reached_eq (by simpa using hc)
  have hnd : l.reverse.Nodup := List.nodup_reverse.mpr hd.nodup
  rintro l₁ lp l₂ rfl he
  have hmem : lp ∈ (l₁ ++ lp :: l₂).reverse := by simp
  have hfr : s.onward (s.front lp) = l₁.reverse := by
    refine hd.before.reached_eq ?_
    simp only [List.length_append, List.length_reverse] at hc ⊢
    omega
  simp only [hall, foldl_update hnd hmem, hfr] at he ⊢
  obtain ⟨n, hn⟩ := regions_tiled (s.tbl lp) he
  exact ⟨n, hn.reverse⟩

lemma length_of_live {H : Finset Lp} (hnd : l.Nodup) (hl : ∀ lp, lp ∈ l ↔ lp ∈ H) :
    l.length = H.card := by
  rw [← List.toFinset_card_of_nodup hnd]
  congr 1
  ext lp
  rw [List.mem_toFinset, hl]

lemma Inv.make (hd : s.list.Holds l) (hl : ∀ lp, lp ∈ l ↔ lp ∈ s.heap) :
    Inv (make_vis_list s) l := by
  obtain ⟨tbl, he, ht⟩ := make_vis_list_spec hd (length_of_live hd.nodup hl).le
  rw [he]
  exact ⟨hd, hl, ht⟩

lemma erase_mid (hnd : (l₁ ++ lp :: l₂).Nodup) : (l₁ ++ lp :: l₂).erase lp = l₁ ++ l₂ := by
  have hl : lp ∉ l₁ := fun h => (List.nodup_append.mp hnd).2.2 lp h lp List.mem_cons_self rfl
  rw [List.erase_append_right _ hl, List.erase_cons_head]

@[simp] lemma heap_unhook : (unhook s lp).heap = s.heap := by
  simp only [unhook, apply_ite State.heap, ite_self]

@[simp] lemma heap_raise : (raise s lp).heap = s.heap := by
  simp only [raise, apply_ite State.heap, ite_self]

@[simp] lemma heap_lower : (lower s lp).heap = s.heap := by
  simp only [lower, apply_ite State.heap, ite_self]

lemma Inv.newlayer {r : RECT} {newlp : Option Lp} (h : Inv s l) (hl : ∀ lp ∈ newlp, lp ∉ s.heap) :
    Inv (newlayer s newlp r) (newlp.toList ++ l) := by
  cases newlp with
  | none => exact h
  | some lp =>
    have hnew : lp ∉ l := (h.live lp).not.mpr (hl lp rfl)
    refine Inv.make (h.holds.pushFront hnew) fun b => ?_
    simp [h.live]

lemma Inv.dellayer (h : Inv s l) (hl : lp ∈ s.heap) : Inv (dellayer s lp) (l.erase lp) := by
  obtain ⟨l₁, l₂, rfl⟩ := List.append_of_mem ((h.live lp).mpr hl)
  have hnd := h.holds.nodup
  have hd : (unhook s lp).list.Holds (l₁ ++ l₂) := unhook_list h.holds ▸ h.holds.unlink
  have hlen := length_of_live hnd h.live
  obtain ⟨tbl, he, ht⟩ := make_vis_list_spec hd (by
    rw [heap_unhook, ← hlen]
    simp only [List.length_append, List.length_cons]
    omega)
  unfold Layers.dellayer
  rw [he, erase_mid hnd]
  refine ⟨hd, fun b => ?_, ht⟩
  have hb := hnd.mem_erase_iff (a := b) (b := lp)
  rw [erase_mid hnd, h.live] at hb
  simpa using hb

lemma Inv.upfront (h : Inv s l) (hl : lp ∈ s.heap) : Inv (upfront s lp) (lp :: l.erase lp) := by
  obtain ⟨l₁, l₂, rfl⟩ := List.append_of_mem ((h.live lp).mpr hl)
  have hnd := h.holds.nodup
  rw [erase_mid hnd]
  unfold Layers.upfront
  split_ifs with hf
  · obtain rfl : l₁ = [] := h.holds.head_iff.mp hf
    exact h
  · refine Inv.make ?_ fun b => ?_
    · rw [raise_list h.holds hf]
      refine h.holds.unlink.pushFront fun hm => ?_
      exact (List.nodup_middle.mp hnd).notMem hm
    · rw [heap_raise, ← h.live]
      simp [or_left_comm]

lemma Inv.pushback (h : Inv s l) (hl : lp ∈ s.heap) : Inv (pushback s lp) (l.erase lp ++ [lp]) := by
  obtain ⟨l₁, l₂, rfl⟩ := List.append_of_mem ((h.live lp).mpr hl)
  have hnd := h.holds.nodup
  rw [erase_mid hnd]
  unfold Layers.pushback
  split_ifs with hr
  · obtain rfl : l₂ = [] := h.holds.tail_iff.mp hr
    rwa [List.append_nil]
  · refine Inv.make ?_ fun b => ?_
    · rw [lower_list h.holds hr]
      refine h.holds.unlink.pushBack fun hm => ?_
      exact (List.nodup_middle.mp hnd).notMem hm
    · rw [heap_lower, ← h.live]
      simp [or_comm, or_left_comm]

lemma Inv.new_dimensions {r : RECT} (h : Inv s l) : Inv (new_dimensions s lp r) l := by
  unfold Layers.new_dimensions
  split_ifs
  · exact h
  · exact h
  · exact Inv.make h.holds h.live

theorem Inv.step {op : Op} (h : Inv s l) (hst : Step s op s') : Inv s' (order l op) := by
  obtain ⟨he, rfl⟩ := hst
  cases op with
  | newlayer newlp r => exact h.newlayer he
  | dellayer lp => exact h.dellayer he
  | upfront lp => exact h.upfront he
  | pushback lp => exact h.pushback he
  | new_dimensions lp r => exact h.new_dimensions

lemma Inv.init : Inv State.init [] where
  holds := ⟨rfl, rfl⟩
  live lp := by simp [State.init]
  tiled l₁ lp l₂ hl := by simp at hl

theorem Inv.run {ops : List Op} (hr : Run Step State.init ops s) : Inv s (ops.foldl order []) := by
  induction hr with
  | nil => exact Inv.init
  | snoc _ hst ih =>
    rw [List.foldl_append]
    exact ih.step hst

/-- A visible region that has points shares none with a layer in front. -/
lemma Tiled.visible_disjoint {reg : ℕ → SM_REGION} (h : Tiled rect R fronts reg n) (hi : i < n)
    (hp : ¬R_null (reg i).rect) :
    (reg i).flag = .L_VISIBLE ↔ ∀ f ∈ fronts, Disjoint (pts (rect f)) (pts (reg i).rect) := by
  refine ⟨fun hv f hf => pts_disjoint ((h.visible i hi).mp hv f hf), fun hd => ?_⟩
  by_contra hv
  obtain ⟨-, c, hc, -, hs⟩ := h.covered i hi hv
  have hm := origin_mem hp
  exact Set.disjoint_left.mp (hd c hc) (hs.pts_subset hm) hm

/-- **The stack of windows**: after any calls the layers are doubly linked in their stacking order,
and of every layer whose table sufficed the regions are disjoint and make up its rectangle; one is
visible just when no layer in front meets it, and else names a layer in front that covers it. -/
theorem window_stack {ops : List Op} (hr : Run Step State.init ops s) :
    s.list.Holds (ops.foldl order []) ∧
    (∀ lp, lp ∈ ops.foldl order [] ↔ lp ∈ s.heap) ∧
    ∀ l₁ lp l₂, ops.foldl order [] = l₁ ++ lp :: l₂ → (s.tbl lp).exceeded = false →
      ∃ n, Tiled s.rect (s.rect lp) l₁ (s.tbl lp).reg n ∧
        ∀ i < n, ¬R_null ((s.tbl lp).reg i).rect → (((s.tbl lp).reg i).flag = .L_VISIBLE ↔
          ∀ f ∈ l₁, Disjoint (pts (s.rect f)) (pts ((s.tbl lp).reg i).rect)) := by
  have h := Inv.run hr
  refine ⟨h.holds, h.live, fun l₁ lp l₂ hl he => ?_⟩
  obtain ⟨n, hn⟩ := h.tiled l₁ lp l₂ hl he
  exact ⟨n, hn, fun i hi hp => hn.visible_disjoint hi hp⟩

/-- Four windows, of which one goes to the back, one to the front, one moves and one is closed. -/
def deskOps : List Op :=
  [.newlayer (some 1) ⟨⟨0, 0⟩, 10, 10⟩, .newlayer (some 2) ⟨⟨5, 5⟩, 15, 15⟩,
    .newlayer (some 3) ⟨⟨2, 2⟩, 7, 20⟩, .newlayer (some 4) ⟨⟨0, 6⟩, 30, 8⟩, .pushback 4, .upfront 1,
    .new_dimensions 3 ⟨⟨3, 3⟩, 8, 21⟩, .dellayer 4]

/-- In this run no table is too small. -/
theorem window_stack_desk :
    (deskOps.foldl exec State.init).list.Holds [1, 3, 2] ∧
    ((deskOps.foldl exec State.init).tbl 2).exceeded = false ∧
    ∃ n, Tiled (deskOps.foldl exec State.init).rect ⟨⟨5, 5⟩, 15, 15⟩ [1, 3]
      ((deskOps.foldl exec State.init).tbl 2).reg n := by
  have hr : Run Step State.init deskOps (deskOps.foldl exec State.init) :=
    Run.along (fun s op (h : Enabled s op) => ⟨h, rfl⟩) _ _ (by decide +kernel)
  obtain ⟨hd, -, ht⟩ := window_stack hr
  have ho : deskOps.foldl order [] = [1, 3, 2] := by decide
  have hfit : ((deskOps.foldl exec State.init).tbl 2).exceeded = false := by decide +kernel
  rw [ho] at hd ht
  obtain ⟨n, hn, -⟩ := ht [1, 3] 2 [] rfl hfit
  have hrect : (deskOps.foldl exec State.init).rect 2 = ⟨⟨5, 5⟩, 15, 15⟩ := by decide +kernel
  rw [hrect] at hn
  exact ⟨hd, hfit, n, hn⟩

end Coherent.Layers
