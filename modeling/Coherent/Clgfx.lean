import Mathlib.Tactic
import Mathlib.Data.BitVec

/-!
The drawing primitives of the clients, clipped to the visible rectangles of their window.

A client paints with `bitblt`, by whole words, or dot by dot. Coordinates are the integers that the
words hold.
-/

namespace Coherent.Clgfx

/-- A pixel of the screen, by column and line. -/
abbrev Pixel := ℤ × ℤ

/-- The frame buffer: which pixels are white. -/
abbrev Screen := Pixel → Bool

def XMAXP : ℤ := 1024
def YMAXP : ℤ := 800

structure HRRECT where
  x0 : ℤ
  y0 : ℤ
  x1 : ℤ
  y1 : ℤ
  deriving DecidableEq

def HRRECT.has (r : HRRECT) (q : Pixel) : Prop :=
  r.x0 ≤ q.1 ∧ q.1 < r.x1 ∧ r.y0 ≤ q.2 ∧ q.2 < r.y1

instance (r : HRRECT) (q : Pixel) : Decidable (r.has q) := by unfold HRRECT.has; infer_instance

structure HRFONT where
  first : ℤ
  nch : ℤ
  cellw : ℤ
  cellh : ℤ

/-- What a client draws by. -/
structure Client where
  -- `S`
  mapped : Bool
  ox : ℤ
  oy : ℤ
  vis : List HRRECT
  /-- `cl_frozen` -/
  frozen : Bool
  hr_font : ℤ → HRFONT
  cllpat : BitVec 16

/-- The source bitmap of a `bitblt`. -/
inductive Source
  | glyph (fslot c : ℤ)
  | image
  /-- none, the operation reads no source -/
  | fill (val : ℤ)
  deriving DecidableEq

inductive Logop
  | L_NSRC
  | L_NAND
  | L_SRC
  | L_NDST
  | L_FALSE
  | L_TRUE
  deriving DecidableEq

/-- A store to the frame buffer. -/
inductive Write
  /-- to the rectangle `dr`, from the source point `sp` on -/
  | bitblt (src : Source) (op : Logop) (dr : HRRECT) (sp : Pixel)
  /-- `cl_ldrow` of `nw` words of row `row` of the image, to `cl_scraddr(x, y)` -/
  | ldrow (x y row nw : ℤ)
  /-- bit `x & 15` of the word at `cl_scraddr(x, y)` -/
  | dot (x y mode : ℤ)
  deriving DecidableEq

/-- The pixel that is shown for bit `x & 15` of the word at `cl_scraddr(x, y)`: a line has 64
words. -/
def pixelAt (x y : ℤ) : Pixel := (x % XMAXP, y + x / XMAXP)

/-! ### The primitives -/

/-- A rectangle cut down to a visible one. -/
def clip (b r : HRRECT) : HRRECT := ⟨max b.x0 r.x0, max b.y0 r.y0, min b.x1 r.x1, min b.y1 r.y1⟩

/-- Nothing is drawn in a window that is not mapped, or frozen. -/
def begun (g : Client) (ws : List Write) : List Write :=
  if g.mapped = false ∨ g.frozen = true then [] else ws

def clglyph1 (g : Client) (fslot gx gy c : ℤ) (r : HRRECT) (op : Logop) : List Write :=
  let f := g.hr_font fslot
  if r.x1 ≤ r.x0 ∨ r.y1 ≤ r.y0 then []
  else if c < f.first ∨ c ≥ f.first + f.nch then []
  else [.bitblt (.glyph fslot c) op r (r.x0 - gx, r.y0 - gy)]

/-- The loop of `cl_text` and `clptext1` over the characters. -/
def textLoop (g : Client) (fslot py advance : ℤ) (op : Logop) : ℤ → List UInt8 → List Write
  | _, [] => []
  | px, c :: s =>
    let f := g.hr_font fslot
    (if c.toNat < 0x20 ∨ c.toNat > 0x7e then []
      else g.vis.flatMap fun r =>
        clglyph1 g fslot px py c.toNat (clip ⟨px, py, px + f.cellw, py + f.cellh⟩ r) op) ++
      textLoop g fslot py advance op (px + advance) s

/-- The string is that of the characters before the NUL. -/
def cl_text (g : Client) (fslot col row : ℤ) (s : List UInt8) (cellw cellh : ℤ) : List Write :=
  begun g (textLoop g fslot (g.oy + row * cellh) cellw .L_NSRC (g.ox + col * cellw) s)

def clptext1 (g : Client) (fslot cx cy : ℤ) (s : List UInt8) (op : Logop) : List Write :=
  begun g (textLoop g fslot (g.oy + cy) (g.hr_font fslot).cellw op (g.ox + cx) s)

def cl_ptext (g : Client) (fslot cx cy : ℤ) (s : List UInt8) : List Write :=
  clptext1 g fslot cx cy s .L_NSRC

def cl_ptextt (g : Client) (fslot cx cy : ℤ) (s : List UInt8) : List Write :=
  clptext1 g fslot cx cy s .L_NAND

def clfill_fb (b r : HRRECT) (val : ℤ) : List Write :=
  let c := clip b r
  if c.x1 ≤ c.x0 ∨ c.y1 ≤ c.y0 then []
  else [.bitblt (.fill val) (if val = 2 then .L_NDST else if val = 0 then .L_FALSE else .L_TRUE) c
    (c.x0, c.y0)]

def cl_fillrect (g : Client) (cx0 cy0 cx1 cy1 val : ℤ) : List Write :=
  begun g (g.vis.flatMap fun r =>
    clfill_fb ⟨g.ox + cx0, g.oy + cy0, g.ox + cx1, g.oy + cy1⟩ r val)

def cl_erase (g : Client) (col row ncol nrow cellw cellh : ℤ) : List Write :=
  cl_fillrect g (col * cellw) (row * cellh) ((col + ncol) * cellw) ((row + nrow) * cellh) 1

/-- The turn of `cl_blit` for one visible rectangle; `b` is the place of the image. -/
def blitIn (b r : HRRECT) : List Write :=
  let c := clip b r
  if c.x1 ≤ c.x0 ∨ c.y1 ≤ c.y0 then []
  else if c.x0 = b.x0 ∧ c.x1 = b.x1 ∧ b.x0 % 16 = 0 ∧ (b.x1 - b.x0) % 16 = 0 then
    (List.range (c.y1 - c.y0).toNat).map fun k : ℕ =>
      .ldrow b.x0 (c.y0 + k) (c.y0 - b.y0 + k) ((b.x1 - b.x0) / 16)
  else [.bitblt .image .L_SRC c (c.x0 - b.x0, c.y0 - b.y0)]

def cl_blit (g : Client) (cx0 cy0 cx1 cy1 : ℤ) : List Write :=
  begun g (g.vis.flatMap (blitIn ⟨g.ox + cx0, g.oy + cy0, g.ox + cx1, g.oy + cy1⟩))

def cl_point (g : Client) (cx cy mode : ℤ) : List Write :=
  if g.mapped = false then []
  else match g.vis.find? fun r => decide (r.has (g.ox + cx, g.oy + cy)) with
    | some _ => [.dot (g.ox + cx) (g.oy + cy) mode]
    | none => []

/-- The turn of `cl_dotrow` for one visible rectangle, with a division that truncates. -/
def dotsIn (fx0 fy n step : ℤ) (r : HRRECT) : List Write :=
  if fy < r.y0 ∨ fy ≥ r.y1 then []
  else
    let k0 := if fx0 < r.x0 then (r.x0 - fx0 + step - 1).tdiv step else 0
    let k1 := if fx0 + (n - 1) * step ≥ r.x1 then (r.x1 - 1 - fx0).tdiv step else n - 1
    if k0 > k1 then []
    else (List.range (k1 - k0 + 1).toNat).map fun k : ℕ => .dot (fx0 + (k0 + k) * step) fy 0

def cl_dotrow (g : Client) (cx cy n step : ℤ) : List Write :=
  if n ≤ 0 ∨ step ≤ 0 then []
  else begun g (g.vis.flatMap (dotsIn (g.ox + cx) (g.oy + cy) n step))

/-- Where the walk of `cl_line` stands: the point, `err` and `cllrun`. -/
structure Walk where
  x : ℤ
  y : ℤ
  err : ℤ
  cllrun : BitVec 16

/-- The end of a turn of the walk. -/
def Walk.next (dx dy sx sy : ℤ) (w : Walk) : Walk :=
  let e2 := w.err + w.err
  let u := if e2 > -dy then
      { w with
        err := w.err - dy
        x := w.x + sx }
    else w
  let v := if e2 < dx then
      { u with
        err := u.err + dx
        y := u.y + sy }
    else u
  { v with cllrun := w.cllrun.rotateLeft 1 }

/-- The loop of `cl_line`, for a number of turns at most. The solid line, which has a loop of its
own, is that of the pattern `0xffff`: it is the same after each turn. -/
def lineLoop (g : Client) (x1 y1 dx dy sx sy mode : ℤ) : ℕ → Walk → Option (List Write)
  | 0, _ => none
  | n + 1, w =>
    let ws := if w.cllrun.msb then cl_point g w.x w.y mode else []
    if w.x = x1 ∧ w.y = y1 then some ws
    else (lineLoop g x1 y1 dx dy sx sy mode n (w.next dx dy sx sy)).map (ws ++ ·)

def dirOf (a b : ℤ) : ℤ := if a < b then 1 else -1

def walkFrom (g : Client) (x0 y0 x1 y1 : ℤ) : Walk :=
  ⟨x0, y0, |x1 - x0| - |y1 - y0|, g.cllpat⟩

/-- `none` if the loop takes more turns than there are steps from the one end to the other. -/
def cl_line (g : Client) (x0 y0 x1 y1 mode : ℤ) : Option (List Write) :=
  if g.mapped = false ∨ g.frozen = true then some []
  else lineLoop g x1 y1 |x1 - x0| |y1 - y0| (dirOf x0 x1) (dirOf y0 y1) mode
    ((|x1 - x0| + |y1 - y0|).toNat + 1) (walkFrom g x0 y0 x1 y1)

/-- The points that `cl_circle` plots in a turn of its loop. -/
def octants (x y : ℤ) : List (ℤ × ℤ) :=
  if x = 0 then [(0, y), (0, -y), (y, 0), (-y, 0)]
  else if x = y then [(x, y), (-x, y), (x, -y), (-x, -y)]
  else [(x, y), (-x, y), (x, -y), (-x, -y), (y, x), (-y, x), (y, -x), (-y, -x)]

/-- `x`, `y` and `d` after such a turn. -/
def arcNext (p : ℤ × ℤ × ℤ) : ℤ × ℤ × ℤ :=
  let (x, y, d) := p
  if d < 0 then (x + 1, y, d + (2 * x + 3)) else (x + 1, y - 1, d + (2 * (x - y) + 5))

def circleLoop (g : Client) (cx cy mode : ℤ) (p : ℤ × ℤ × ℤ) : List Write :=
  if p.1 ≤ p.2.1 then
    ((octants p.1 p.2.1).flatMap fun o => cl_point g (cx + o.1) (cy + o.2) mode) ++
      circleLoop g cx cy mode (arcNext p)
  else []
  termination_by (p.2.1 + 1 - p.1).toNat
  decreasing_by
    obtain ⟨x, y, d⟩ := p
    simp only [arcNext] at *
    split <;> simp only <;> omega

def cl_circle (g : Client) (cx cy r mode : ℤ) : List Write :=
  let r := if r < 0 then -r else r
  begun g (if r = 0 then cl_point g cx cy mode else circleLoop g cx cy mode (0, r, 1 - r))

/-- A call of a primitive. -/
inductive Prim
  | cl_text (fslot col row : ℤ) (s : List UInt8) (cellw cellh : ℤ)
  | cl_ptext (fslot cx cy : ℤ) (s : List UInt8)
  | cl_ptextt (fslot cx cy : ℤ) (s : List UInt8)
  | cl_fillrect (cx0 cy0 cx1 cy1 val : ℤ)
  | cl_erase (col row ncol nrow cellw cellh : ℤ)
  | cl_blit (cx0 cy0 cx1 cy1 : ℤ)
  | cl_point (cx cy mode : ℤ)
  | cl_dotrow (cx cy n step : ℤ)
  | cl_line (x0 y0 x1 y1 mode : ℤ)
  | cl_circle (cx cy r mode : ℤ)

def draw (g : Client) : Prim → Option (List Write)
  | .cl_text fslot col row s cellw cellh => some (cl_text g fslot col row s cellw cellh)
  | .cl_ptext fslot cx cy s => some (cl_ptext g fslot cx cy s)
  | .cl_ptextt fslot cx cy s => some (cl_ptextt g fslot cx cy s)
  | .cl_fillrect cx0 cy0 cx1 cy1 val => some (cl_fillrect g cx0 cy0 cx1 cy1 val)
  | .cl_erase col row ncol nrow cellw cellh => some (cl_erase g col row ncol nrow cellw cellh)
  | .cl_blit cx0 cy0 cx1 cy1 => some (cl_blit g cx0 cy0 cx1 cy1)
  | .cl_point cx cy mode => some (cl_point g cx cy mode)
  | .cl_dotrow cx cy n step => some (cl_dotrow g cx cy n step)
  | .cl_line x0 y0 x1 y1 mode => cl_line g x0 y0 x1 y1 mode
  | .cl_circle cx cy r mode => some (cl_circle g cx cy r mode)

/-! ### What is painted -/

/-- What a pixel is painted with. -/
inductive Ink
  /-- by `op`, from the point `i` of the source -/
  | blt (src : Source) (op : Logop) (i : Pixel)
  | dot (mode : ℤ)
  deriving DecidableEq

/-- The pixels that a store may change. -/
def Write.touches : Write → Pixel → Prop
  | .bitblt _ _ dr _, q => dr.has q
  | .ldrow x y _ nw, q => q.2 = y ∧ x ≤ q.1 ∧ q.1 < x + 16 * nw
  | .dot x y _, q => q = pixelAt x y

instance (w : Write) (q : Pixel) : Decidable (w.touches q) := by
  cases w <;> unfold Write.touches <;> infer_instance

def Write.ink : Write → Pixel → Ink
  | .bitblt src op dr sp, q => .blt src op (q.1 - dr.x0 + sp.1, q.2 - dr.y0 + sp.2)
  | .ldrow x _ row _, q => .blt .image .L_SRC (q.1 - x, row)
  | .dot _ _ mode, _ => .dot mode

def Write.paints (w : Write) (q : Pixel) (ink : Ink) : Prop := w.touches q ∧ w.ink q = ink

section run

variable (bitblt : Source → Logop → HRRECT → Pixel → Screen → Screen) (image : Pixel → Bool)

/-- The frame buffer after a store. -/
def Write.run (fb : Screen) : Write → Screen
  | .bitblt src op dr sp => bitblt src op dr sp fb
  | .ldrow x y row nw => fun q =>
    if (Write.ldrow x y row nw).touches q then image (q.1 - x, row) else fb q
  | .dot x y mode => fun q =>
    if q = pixelAt x y then (if mode = 2 then !fb q else decide (mode ≠ 0)) else fb q

def runAll (ws : List Write) (fb : Screen) : Screen := ws.foldl (Write.run bitblt image) fb

/-- Every pixel that the stores change is in a visible rectangle. -/
def Inside (g : Client) (ws : List Write) : Prop :=
  ∀ fb q, runAll bitblt image ws fb q ≠ fb q → ∃ r ∈ g.vis, r.has q

variable {bitblt image}

lemma runAll_eq_of_not_touches
    (hb : ∀ src op dr sp fb q, ¬ dr.has q → bitblt src op dr sp fb q = fb q)
    {ws : List Write} {q : Pixel} (h : ∀ w ∈ ws, ¬ w.touches q) (fb : Screen) :
    runAll bitblt image ws fb q = fb q := by
  induction ws generalizing fb with
  | nil => rfl
  | cons w ws ih =>
    have hw : (w.run bitblt image fb) q = fb q := by
      have ht := h w List.mem_cons_self
      cases w with
      | bitblt src op dr sp => exact hb src op dr sp fb q ht
      | ldrow x y row nw => exact if_neg ht
      | dot x y mode => exact if_neg ht
    rw [← hw]
    exact ih (fun v hv => h v (List.mem_cons_of_mem _ hv)) _

end run

/-- Stores that stay in the rectangles of `vis`, and paint what of `shape` is in these. -/
structure Draws (vis : List HRRECT) (ws : List Write) (shape : Pixel → Ink → Prop) : Prop where
  inside : ∀ w ∈ ws, ∀ q, w.touches q → ∃ r ∈ vis, r.has q
  painted : ∀ q ink, shape q ink → (∃ r ∈ vis, r.has q) → ∃ w ∈ ws, w.paints q ink

namespace Draws

variable {vis : List HRRECT} {ws vs : List Write} {shape shape' : Pixel → Ink → Prop}

lemma mono (h : Draws vis ws shape) (hs : ∀ q ink, shape' q ink → shape q ink) :
    Draws vis ws shape' :=
  ⟨h.inside, fun q ink hq => h.painted q ink (hs q ink hq)⟩

lemma nil (hs : ∀ q ink, ¬ shape q ink) : Draws vis [] shape :=
  ⟨fun _ hw => absurd hw (by simp), fun q ink hq => absurd hq (hs q ink)⟩

lemma append (h : Draws vis ws shape) (h' : Draws vis vs shape') :
    Draws vis (ws ++ vs) fun q ink => shape q ink ∨ shape' q ink where
  inside w hw q hq := (List.mem_append.mp hw).elim
    (fun hm => h.inside w hm q hq) (fun hm => h'.inside w hm q hq)
  painted q ink hq hv := by
    rcases hq with hq | hq
    · obtain ⟨w, hw, hp⟩ := h.painted q ink hq hv
      exact ⟨w, List.mem_append_left _ hw, hp⟩
    · obtain ⟨w, hw, hp⟩ := h'.painted q ink hq hv
      exact ⟨w, List.mem_append_right _ hw, hp⟩

/-- One rectangle after the other. -/
lemma flatMap {f : HRRECT → List Write} (hin : ∀ r ∈ vis, ∀ w ∈ f r, ∀ q, w.touches q → r.has q)
    (hp : ∀ r ∈ vis, ∀ q ink, shape q ink → r.has q → ∃ w ∈ f r, w.paints q ink) :
    Draws vis (vis.flatMap f) shape where
  inside w hw q hq := by
    obtain ⟨r, hr, hm⟩ := List.mem_flatMap.mp hw
    exact ⟨r, hr, hin r hr w hm q hq⟩
  painted q ink hq := by
    rintro ⟨r, hr, hm⟩
    obtain ⟨w, hw, hpw⟩ := hp r hr q ink hq hm
    exact ⟨w, List.mem_flatMap.mpr ⟨r, hr, hw⟩, hpw⟩

end Draws

/-! ### Rectangles and characters -/

/-- The visible rectangles are on the screen. -/
def OnScreen (g : Client) : Prop :=
  ∀ r ∈ g.vis, 0 ≤ r.x0 ∧ r.x1 ≤ XMAXP ∧ 0 ≤ r.y0 ∧ r.y1 ≤ YMAXP

instance (g : Client) : Decidable (OnScreen g) := by unfold OnScreen; infer_instance

lemma clip_has {b r : HRRECT} {q : Pixel} : (clip b r).has q ↔ b.has q ∧ r.has q := by
  simp only [HRRECT.has, clip, max_le_iff, lt_min_iff]
  tauto

lemma HRRECT.has.not_empty {r : HRRECT} {q : Pixel} (h : r.has q) :
    ¬ (r.x1 ≤ r.x0 ∨ r.y1 ≤ r.y0) := by
  simp only [HRRECT.has] at h
  omega

def glyphShape (g : Client) (fslot gx gy : ℤ) (op : Logop) (c : UInt8) (q : Pixel) (ink : Ink) :
    Prop :=
  let f := g.hr_font fslot
  (0x20 ≤ c.toNat ∧ c.toNat ≤ 0x7e) ∧ (f.first ≤ c.toNat ∧ c.toNat < f.first + f.nch) ∧
    (⟨gx, gy, gx + f.cellw, gy + f.cellh⟩ : HRRECT).has q ∧
    ink = .blt (.glyph fslot c.toNat) op (q.1 - gx, q.2 - gy)

/-- The cells of the characters, one `advance` after the other. -/
def textShape (g : Client) (fslot px py advance : ℤ) (op : Logop) (s : List UInt8) (q : Pixel)
    (ink : Ink) : Prop :=
  ∃ (k : ℕ) (c : UInt8), s[k]? = some c ∧ glyphShape g fslot (px + k * advance) py op c q ink

def rectShape (b : HRRECT) (src : Source) (op : Logop) (o q : Pixel) (ink : Ink) : Prop :=
  b.has q ∧ ink = .blt src op (q.1 - o.1, q.2 - o.2)

/-- A cut rectangle that is blitted from the place of its pixels in the source. -/
lemma blit_spec (b r : HRRECT) (src : Source) (op : Logop) (o : Pixel) :
    let c := clip b r
    let w := Write.bitblt src op c (c.x0 - o.1, c.y0 - o.2)
    (∀ q, w.touches q → r.has q) ∧
      ∀ q ink, rectShape b src op o q ink → r.has q → w.paints q ink := by
  refine ⟨fun q hq => (clip_has.mp hq).2, fun q ink hs hr => ⟨clip_has.mpr ⟨hs.1, hr⟩, ?_⟩⟩
  rw [hs.2]
  simp only [Write.ink, Ink.blt.injEq, true_and, Prod.mk.injEq]
  constructor <;> ring

lemma glyph_draws (g : Client) (fslot gx gy : ℤ) (op : Logop) (c : UInt8) :
    Draws g.vis
      (if c.toNat < 0x20 ∨ c.toNat > 0x7e then []
        else g.vis.flatMap fun r => clglyph1 g fslot gx gy c.toNat
          (clip ⟨gx, gy, gx + (g.hr_font fslot).cellw, gy + (g.hr_font fslot).cellh⟩ r) op)
      (glyphShape g fslot gx gy op c) := by
  split_ifs with hc
  · exact .nil fun q ink h => absurd h.1 (by omega)
  · refine .flatMap (fun r _ w hw q hq => ?_) fun r _ q ink hs hr => ?_
    · unfold clglyph1 at hw
      simp only at hw
      split_ifs at hw
      · cases hw
      · cases hw
      · cases List.mem_singleton.mp hw
        exact (blit_spec _ r _ op (gx, gy)).1 q hq
    · obtain ⟨-, hf, hb, hi⟩ := hs
      have hne := (clip_has.mpr ⟨hb, hr⟩).not_empty
      refine ⟨_, ?_, (blit_spec _ r _ op (gx, gy)).2 q ink ⟨hb, hi⟩ hr⟩
      unfold clglyph1
      simp only
      rw [if_neg hne, if_neg (by omega)]
      exact List.mem_singleton_self _

lemma text_draws (g : Client) (fslot px py advance : ℤ) (op : Logop) (s : List UInt8) :
    Draws g.vis (textLoop g fslot py advance op px s)
      (textShape g fslot px py advance op s) := by
  induction s generalizing px with
  | nil => exact .nil fun q ink ⟨k, c, hk, _⟩ => by simp at hk
  | cons c s ih =>
    refine ((glyph_draws g fslot px py op c).append (ih (px + advance))).mono ?_
    rintro q ink ⟨k, d, hk, hs⟩
    cases k with
    | zero =>
      -- the first character
      cases Option.some.inj hk
      left
      simpa using hs
    | succ k =>
      right
      refine ⟨k, d, hk, ?_⟩
      convert hs using 1
      push_cast
      ring

def fillOp (val : ℤ) : Logop := if val = 2 then .L_NDST else if val = 0 then .L_FALSE else .L_TRUE

lemma fill_draws (g : Client) (b : HRRECT) (val : ℤ) :
    Draws g.vis (g.vis.flatMap fun r => clfill_fb b r val)
      (rectShape b (.fill val) (fillOp val) (0, 0)) := by
  have hspec (r : HRRECT) := blit_spec b r (.fill val) (fillOp val) (0, 0)
  simp only [sub_zero] at hspec
  refine .flatMap (fun r _ w hw q hq => ?_) fun r _ q ink hs hr => ?_
  · unfold clfill_fb at hw
    simp only at hw
    split_ifs at hw
    · cases hw
    all_goals
      cases List.mem_singleton.mp hw
      exact (hspec r).1 q hq
  · have hne := (clip_has.mpr ⟨hs.1, hr⟩).not_empty
    refine ⟨_, ?_, (hspec r).2 q ink hs hr⟩
    unfold clfill_fb
    simp only
    rw [if_neg hne]
    exact List.mem_singleton_self _

/-- **The two ways of `cl_blit`**: row by row, and by `bitblt`. -/
lemma blitIn_draws (g : Client) (b : HRRECT) :
    Draws g.vis (g.vis.flatMap (blitIn b)) (rectShape b .image .L_SRC (b.x0, b.y0)) := by
  refine .flatMap (fun r _ w hw q hq => ?_) fun r _ q ink hs hr => ?_
  · unfold blitIn at hw
    simp only at hw
    split_ifs at hw with he ha
    · cases hw
    · -- whole words, so that the row ends with the rectangle
      obtain ⟨k, hk, rfl⟩ := List.mem_map.mp hw
      rw [List.mem_range] at hk
      obtain ⟨hx0, hx1, -, h16⟩ := ha
      simp only [Write.touches] at hq
      have hc : (clip b r).has q := by
        simp only [HRRECT.has]
        omega
      exact (clip_has.mp hc).2
    · cases List.mem_singleton.mp hw
      exact (blit_spec b r .image .L_SRC (b.x0, b.y0)).1 q hq
  · have hc := clip_has.mpr ⟨hs.1, hr⟩
    unfold blitIn
    simp only
    rw [if_neg hc.not_empty]
    split_ifs with ha
    · obtain ⟨hx0, hx1, -, h16⟩ := ha
      simp only [HRRECT.has] at hc
      refine ⟨_, List.mem_map.mpr ⟨(q.2 - (clip b r).y0).toNat, ?_, rfl⟩, ?_, ?_⟩
      · rw [List.mem_range]
        omega
      · simp only [Write.touches]
        omega
      · rw [hs.2]
        simp only [Write.ink, Ink.blt.injEq, true_and, Prod.mk.injEq]
        omega
    · exact ⟨_, List.mem_singleton_self _, (blit_spec b r .image .L_SRC (b.x0, b.y0)).2 q ink hs hr⟩

/-! ### Points -/

lemma pixelAt_of_has {g : Client} (h : OnScreen g) {r : HRRECT} (hr : r ∈ g.vis) {x y : ℤ}
    (hq : r.has (x, y)) : pixelAt x y = (x, y) := by
  obtain ⟨h0, h1, -, -⟩ := h r hr
  simp only [HRRECT.has] at hq
  simp only [pixelAt, XMAXP, Prod.mk.injEq] at *
  omega

def pointShape (g : Client) (cx cy mode : ℤ) (q : Pixel) (ink : Ink) : Prop :=
  q = (g.ox + cx, g.oy + cy) ∧ ink = .dot mode

/-- A window that is not mapped shows nothing. -/
def seen (g : Client) : List HRRECT := if g.mapped then g.vis else []

lemma mem_seen {g : Client} {r : HRRECT} : r ∈ seen g ↔ g.mapped = true ∧ r ∈ g.vis := by
  unfold seen
  split_ifs with h <;> simp [h]

lemma point_draws {g : Client} (h : OnScreen g) (cx cy mode : ℤ) :
    Draws (seen g) (cl_point g cx cy mode) (pointShape g cx cy mode) := by
  unfold cl_point
  split_ifs with hm
  · refine ⟨fun w hw => absurd hw (by simp), ?_⟩
    rintro q ink - ⟨r, hr, -⟩
    exact absurd (mem_seen.mp hr).1 (by simp [hm])
  · cases hf : g.vis.find? fun r => decide (r.has (g.ox + cx, g.oy + cy)) with
    | none =>
      refine ⟨fun w hw => absurd hw (by simp), ?_⟩
      rintro q ink ⟨rfl, -⟩ ⟨r, hr, hq⟩
      have := List.find?_eq_none.mp hf r (mem_seen.mp hr).2
      exact absurd hq (by simpa using this)
    | some r =>
      have hr := List.mem_of_find?_eq_some hf
      have hq : r.has (g.ox + cx, g.oy + cy) := by simpa using List.find?_some hf
      have hp := pixelAt_of_has h hr hq
      constructor
      · intro w hw q ht
        cases List.mem_singleton.mp hw
        exact ⟨r, mem_seen.mpr ⟨by simpa using hm, hr⟩, by rwa [ht, hp]⟩
      · rintro q ink ⟨rfl, rfl⟩ -
        exact ⟨_, List.mem_singleton_self _, hp.symm, rfl⟩

/-- A list of points. -/
lemma points_draws {g : Client} (h : OnScreen g) (mode : ℤ) (ps : List Pixel) :
    Draws (seen g) (ps.flatMap fun o => cl_point g o.1 o.2 mode)
      fun q ink => ∃ o ∈ ps, pointShape g o.1 o.2 mode q ink := by
  induction ps with
  | nil => exact .nil fun q ink ⟨o, ho, _⟩ => by simp at ho
  | cons o ps ih =>
    refine ((point_draws h o.1 o.2 mode).append ih).mono ?_
    rintro q ink ⟨o', ho, hs⟩
    rcases List.mem_cons.mp ho with rfl | ho
    · exact .inl hs
    · exact .inr ⟨o', ho, hs⟩

/-! ### The row of dots -/

def rowShape (g : Client) (cx cy n step : ℤ) (q : Pixel) (ink : Ink) : Prop :=
  ∃ k, 0 ≤ k ∧ k < n ∧ 0 < step ∧ q = (g.ox + cx + k * step, g.oy + cy) ∧ ink = .dot 0

/-- The row starts to the right of the rectangle, by less than a step: the last dot comes out as
number 0, for the division truncates. -/
def Slipped (fx0 fy step : ℤ) (r : HRRECT) : Prop :=
  r.y0 ≤ fy ∧ fy < r.y1 ∧ r.x0 ≤ fx0 ∧ r.x1 ≤ fx0 ∧ fx0 + 1 < r.x1 + step

instance (fx0 fy step : ℤ) (r : HRRECT) : Decidable (Slipped fx0 fy step r) := by
  unfold Slipped
  infer_instance

section dots

variable {fx0 fy n step k : ℤ} {r : HRRECT}

/-- `k0` of a turn of `cl_dotrow`. -/
def firstDot (fx0 step : ℤ) (r : HRRECT) : ℤ :=
  if fx0 < r.x0 then (r.x0 - fx0 + step - 1).tdiv step else 0

/-- `k1`. -/
def lastDot (fx0 n step : ℤ) (r : HRRECT) : ℤ :=
  if fx0 + (n - 1) * step ≥ r.x1 then (r.x1 - 1 - fx0).tdiv step else n - 1

lemma firstDot_le_iff (hs : 0 < step) (hk : 0 ≤ k) :
    firstDot fx0 step r ≤ k ↔ r.x0 ≤ fx0 + k * step := by
  have hks : 0 ≤ k * step := by positivity
  unfold firstDot
  split_ifs with h
  · rw [Int.tdiv_eq_ediv_of_nonneg (by omega), Int.ediv_le_iff_le_mul hs]
    constructor <;> intro _ <;> linarith
  · constructor <;> intro _ <;> linarith

lemma firstDot_nonneg (hs : 0 < step) : 0 ≤ firstDot fx0 step r := by
  unfold firstDot
  split_ifs with h
  · exact Int.tdiv_nonneg (by omega) hs.le
  · exact le_rfl

lemma le_lastDot_iff (hs : 0 < step) (hx : fx0 < r.x1) :
    k ≤ lastDot fx0 n step r ↔ k < n ∧ fx0 + k * step < r.x1 := by
  unfold lastDot
  split_ifs with h
  · rw [Int.tdiv_eq_ediv_of_nonneg (by omega), Int.le_ediv_iff_mul_le hs]
    constructor
    · intro hk
      have : k * step < (n - 1) * step := by linarith
      have := lt_of_mul_lt_mul_right this hs.le
      constructor <;> linarith
    · rintro ⟨-, hk⟩
      linarith
  · constructor
    · intro hk
      have := mul_le_mul_of_nonneg_right hk hs.le
      constructor <;> linarith
    · rintro ⟨hk, -⟩
      linarith

/-- To the left of where the row starts the division gives 0 still. -/
lemma lastDot_of_le (hn : 0 < n) (hs : 0 < step) (hx : r.x1 ≤ fx0) :
    lastDot fx0 n step r ≤ 0 ∧ (0 ≤ lastDot fx0 n step r ↔ fx0 + 1 < r.x1 + step) := by
  have hns : 0 ≤ (n - 1) * step := mul_nonneg (by omega) hs.le
  unfold lastDot
  rw [if_pos (by linarith), show r.x1 - 1 - fx0 = -(fx0 + 1 - r.x1) by ring, Int.neg_tdiv,
    Int.tdiv_eq_ediv_of_nonneg (by omega)]
  have h0 : 0 ≤ (fx0 + 1 - r.x1) / step := Int.ediv_nonneg (by omega) hs.le
  have hiff := Int.ediv_lt_iff_lt_mul (a := fx0 + 1 - r.x1) (b := 1) hs
  omega

lemma mem_dotsIn_iff {w : Write} :
    w ∈ dotsIn fx0 fy n step r ↔ (r.y0 ≤ fy ∧ fy < r.y1) ∧
      ∃ k, firstDot fx0 step r ≤ k ∧ k ≤ lastDot fx0 n step r ∧
        w = .dot (fx0 + k * step) fy 0 := by
  change w ∈ (if fy < r.y0 ∨ fy ≥ r.y1 then [] else
    if firstDot fx0 step r > lastDot fx0 n step r then [] else
      (List.range (lastDot fx0 n step r - firstDot fx0 step r + 1).toNat).map fun k : ℕ =>
        Write.dot (fx0 + (firstDot fx0 step r + k) * step) fy 0) ↔ _
  generalize firstDot fx0 step r = k0
  generalize lastDot fx0 n step r = k1
  split_ifs with hy hk
  · simp only [List.not_mem_nil, false_iff]
    omega
  · simp only [List.not_mem_nil, false_iff]
    rintro ⟨-, k, h0, h1, -⟩
    omega
  · rw [List.mem_map]
    constructor
    · rintro ⟨j, hj, rfl⟩
      rw [List.mem_range] at hj
      exact ⟨by omega, k0 + j, by omega, by omega, rfl⟩
    · rintro ⟨-, k, h0, h1, rfl⟩
      refine ⟨(k - k0).toNat, ?_, ?_⟩
      · rw [List.mem_range]
        omega
      · rw [Int.toNat_of_nonneg (by omega), add_sub_cancel]

/-- The dots of one turn are in the rectangle, but for a slip. -/
lemma dotsIn_inside (hn : 0 < n) (hs : 0 < step) {w : Write} (hw : w ∈ dotsIn fx0 fy n step r) :
    ∃ x, w = .dot x fy 0 ∧ (r.has (x, fy) ∨ Slipped fx0 fy step r ∧ x = fx0) := by
  obtain ⟨hy, k, h0, h1, rfl⟩ := mem_dotsIn_iff.mp hw
  have hk := (firstDot_nonneg hs).trans h0
  have hx0 := (firstDot_le_iff hs hk).mp h0
  refine ⟨_, rfl, ?_⟩
  rcases lt_or_ge fx0 r.x1 with hx | hx
  · left
    exact ⟨hx0, ((le_lastDot_iff hs hx).mp h1).2, hy⟩
  · -- number 0, the last dot being none after it
    right
    obtain ⟨hle, hge⟩ := lastDot_of_le (n := n) hn hs hx
    obtain rfl : k = 0 := le_antisymm (h1.trans hle) hk
    rw [zero_mul, add_zero] at *
    exact ⟨⟨hy.1, hy.2, hx0, hx, hge.mp h1⟩, rfl⟩

lemma slipped_mem (hn : 0 < n) (hs : 0 < step) (h : Slipped fx0 fy step r) :
    .dot fx0 fy 0 ∈ dotsIn fx0 fy n step r := by
  obtain ⟨hy0, hy1, hx0, hx1, hlt⟩ := h
  refine mem_dotsIn_iff.mpr ⟨⟨hy0, hy1⟩, 0, ?_, ?_, by simp⟩
  · exact (firstDot_le_iff hs le_rfl).mpr (by simpa using hx0)
  · exact (lastDot_of_le hn hs hx1).2.mpr hlt

lemma dot_mem_dotsIn (hk : 0 ≤ k) (hn : k < n) (hs : 0 < step)
    (h : r.has (fx0 + k * step, fy)) : .dot (fx0 + k * step) fy 0 ∈ dotsIn fx0 fy n step r := by
  obtain ⟨hx0, hx1, hy⟩ := h
  have hks : 0 ≤ k * step := by positivity
  have hx : fx0 < r.x1 := by
    simp only at hx1
    linarith
  exact mem_dotsIn_iff.mpr ⟨hy, k, (firstDot_le_iff hs hk).mpr hx0,
    (le_lastDot_iff hs hx).mpr ⟨hn, hx1⟩, rfl⟩

end dots

/-- Each slip of the row is made good by a visible rectangle that has the pixel. -/
def SlipsSeen (g : Client) (cx cy step : ℤ) : Prop :=
  ∀ r ∈ g.vis, Slipped (g.ox + cx) (g.oy + cy) step r →
    ∃ r' ∈ g.vis, r'.has (pixelAt (g.ox + cx) (g.oy + cy))

instance (g : Client) (cx cy step : ℤ) : Decidable (SlipsSeen g cx cy step) := by
  unfold SlipsSeen
  infer_instance

lemma row_draws {g : Client} (h : OnScreen g) {cx cy n step : ℤ} (hn : 0 < n) (hs : 0 < step)
    (hslip : SlipsSeen g cx cy step) :
    Draws g.vis (g.vis.flatMap (dotsIn (g.ox + cx) (g.oy + cy) n step))
      (rowShape g cx cy n step) where
  inside w hw q hq := by
    obtain ⟨r, hr, hm⟩ := List.mem_flatMap.mp hw
    obtain ⟨x, rfl, hx | ⟨hx, rfl⟩⟩ := dotsIn_inside hn hs hm
    · cases hq
      exact ⟨r, hr, by rwa [pixelAt_of_has h hr hx]⟩
    · cases hq
      exact hslip r hr hx
  painted q ink := by
    rintro ⟨k, hk, hkn, -, rfl, rfl⟩ ⟨r, hr, hq⟩
    exact ⟨_, List.mem_flatMap.mpr ⟨r, hr, dot_mem_dotsIn hk hkn hs hq⟩,
      (pixelAt_of_has h hr hq).symm, rfl⟩

/-- Black dots leave black what they cross. -/
lemma runAll_dots {bitblt : Source → Logop → HRRECT → Pixel → Screen → Screen}
    {image : Pixel → Bool} {ws : List Write} {y : ℤ} (h : ∀ w ∈ ws, ∃ x, w = .dot x y 0)
    (q : Pixel) (fb : Screen) :
    runAll bitblt image ws fb q = true ↔ fb q = true ∧ ∀ w ∈ ws, ¬ w.touches q := by
  induction ws generalizing fb with
  | nil => simp [runAll]
  | cons w ws ih =>
    obtain ⟨x, rfl⟩ := h w List.mem_cons_self
    change runAll bitblt image ws _ q = true ↔ _
    rw [ih fun v hv => h v (List.mem_cons_of_mem _ hv)]
    simp only [List.forall_mem_cons, Write.run, Write.touches]
    by_cases hq : q = pixelAt x y <;> simp [hq]

/-- **A slip that no visible rectangle makes good shows.** -/
lemma slipsSeen_of_inside {bitblt : Source → Logop → HRRECT → Pixel → Screen → Screen}
    {image : Pixel → Bool} {g : Client} {cx cy n step : ℤ} (hn : 0 < n) (hs : 0 < step)
    (h : Inside bitblt image g (g.vis.flatMap (dotsIn (g.ox + cx) (g.oy + cy) n step))) :
    SlipsSeen g cx cy step := by
  intro r hr hslip
  refine h (fun _ => true) _ fun heq => ?_
  have hdots : ∀ w ∈ g.vis.flatMap (dotsIn (g.ox + cx) (g.oy + cy) n step),
      ∃ x, w = .dot x (g.oy + cy) 0 := by
    intro w hw
    obtain ⟨r', -, hm⟩ := List.mem_flatMap.mp hw
    obtain ⟨x, hx, -⟩ := dotsIn_inside hn hs hm
    exact ⟨x, hx⟩
  have hall := ((runAll_dots hdots _ _).mp heq).2
  exact hall _ (List.mem_flatMap.mpr ⟨r, hr, slipped_mem hn hs hslip⟩) rfl

/-! ### Lines -/

/-- `k / M` of the way `m`, to the nearest integer and halves down. -/
def near (m M k : ℤ) : ℤ := (2 * (k * m) + M - 1) / (2 * M)

lemma near_eq_iff {m M k j : ℤ} (hM : 0 < M) :
    near m M k = j ↔ -M ≤ 2 * (j * M) - 2 * (k * m) ∧ 2 * (j * M) - 2 * (k * m) < M := by
  unfold near
  rw [Int.ediv_eq_iff_of_pos (by omega)]
  have : j * (2 * M) = 2 * (j * M) := by ring
  omega

lemma near_self {M k : ℤ} (hM : 0 < M) : near M M k = k :=
  (near_eq_iff hM).mpr ⟨by omega, by omega⟩

lemma near_end {m M : ℤ} (hM : 0 < M) : near m M M = m :=
  (near_eq_iff hM).mpr ⟨by rw [mul_comm M m]; omega, by rw [mul_comm M m]; omega⟩

/-- The points of the line from the one end to the other: the longer of the two ways is taken in
single steps, the shorter one as near to it as can be. -/
def linePoint (x0 y0 x1 y1 k : ℤ) : Pixel :=
  let M := max |x1 - x0| |y1 - y0|
  (x0 + dirOf x0 x1 * near |x1 - x0| M k, y0 + dirOf y0 y1 * near |y1 - y0| M k)

def lineShape (g : Client) (x0 y0 x1 y1 mode : ℤ) (q : Pixel) (ink : Ink) : Prop :=
  ∃ k : ℕ, (k : ℤ) ≤ max |x1 - x0| |y1 - y0| ∧ g.cllpat.getMsbD (k % 16) = true ∧
    let o := linePoint x0 y0 x1 y1 k
    pointShape g o.1 o.2 mode q ink

section line

variable {x0 y0 x1 y1 : ℤ}

/-- The walk has taken `k` turns. -/
structure At (g : Client) (x0 y0 x1 y1 : ℤ) (k : ℕ) (w : Walk) : Prop where
  point : (w.x, w.y) = linePoint x0 y0 x1 y1 k
  err : w.err = (near |y1 - y0| (max |x1 - x0| |y1 - y0|) k + 1) * |x1 - x0| -
    (near |x1 - x0| (max |x1 - x0| |y1 - y0|) k + 1) * |y1 - y0|
  cllrun : w.cllrun = g.cllpat.rotateLeft k

/-- One turn along the longer way, and along the shorter one if the error asks for it. -/
lemma near_step {m M k : ℤ} (hm : 0 ≤ m) (hmM : m ≤ M) (hM : 0 < M) :
    near m M (k + 1) =
      if 2 * ((near m M k + 1) * M - (k + 1) * m) < M then near m M k + 1 else near m M k := by
  obtain ⟨h0, h1⟩ := (near_eq_iff hM).mp (rfl : near m M k = near m M k)
  generalize near m M k = j at *
  have e1 : (j + 1) * M = j * M + M := by ring
  have e2 : (k + 1) * m = k * m + m := by ring
  split_ifs with hc
  · refine (near_eq_iff hM).mpr ?_
    rw [e1, e2] at *
    omega
  · refine (near_eq_iff hM).mpr ?_
    rw [e1, e2] at *
    omega

/-- The longer way is taken in each turn. -/
lemma near_major {m M k : ℤ} (hmM : m ≤ M) (hM : 0 < M) :
    -m < 2 * ((near m M k + 1) * M - (k + 1) * m) := by
  rcases eq_or_lt_of_le hmM with rfl | hlt
  · rw [near_self hM, sub_self]
    omega
  · obtain ⟨h0, -⟩ := (near_eq_iff hM).mp (rfl : near m M k = near m M k)
    generalize near m M k = j at *
    have e1 : (j + 1) * M = j * M + M := by ring
    have e2 : (k + 1) * m = k * m + m := by ring
    rw [e1, e2]
    omega

lemma Walk.next_eq (dx dy sx sy : ℤ) (w : Walk) :
    w.next dx dy sx sy =
      { x := if -dy < 2 * w.err then w.x + sx else w.x
        y := if 2 * w.err < dx then w.y + sy else w.y
        err := w.err - (if -dy < 2 * w.err then dy else 0) + (if 2 * w.err < dx then dx else 0)
        cllrun := w.cllrun.rotateLeft 1 } := by
  unfold Walk.next
  simp only [← two_mul, gt_iff_lt]
  split_ifs <;> simp

lemma rotateLeft_succ (p : BitVec 16) (k : ℕ) :
    (p.rotateLeft k).rotateLeft 1 = p.rotateLeft (k + 1) := by
  apply BitVec.eq_of_getMsbD_eq
  intro i hi
  have h1 : (1 + i) % 16 < 16 := Nat.mod_lt _ (by omega)
  simp only [BitVec.getMsbD_rotateLeft, hi, h1, decide_true, Bool.true_and]
  congr 1
  omega

lemma rotateLeft_zero (p : BitVec 16) : p.rotateLeft 0 = p := by
  apply BitVec.eq_of_getMsbD_eq
  intro i hi
  simp only [BitVec.getMsbD_rotateLeft, hi, decide_true, Bool.true_and, zero_add,
    Nat.mod_eq_of_lt]

lemma near_zero {m M : ℤ} (hm : 0 ≤ m) (hmM : m ≤ M) : near m M 0 = 0 := by
  rcases eq_or_lt_of_le (hm.trans hmM) with rfl | hM
  · simp [near]
  · exact (near_eq_iff hM).mpr ⟨by omega, by omega⟩

lemma At.start (g : Client) (x0 y0 x1 y1 : ℤ) : At g x0 y0 x1 y1 0 (walkFrom g x0 y0 x1 y1) := by
  have hx := near_zero (abs_nonneg (x1 - x0)) (le_max_left _ |y1 - y0|)
  have hy := near_zero (abs_nonneg (y1 - y0)) (le_max_right |x1 - x0| _)
  constructor
  · simp only [linePoint, Nat.cast_zero, hx, hy, walkFrom, mul_zero, add_zero]
  · simp only [Nat.cast_zero, hx, hy, walkFrom]
    ring
  · exact (rotateLeft_zero _).symm

/-- Where both ways are after a turn, by the two comparisons with the error. -/
lemma near_next {dx dy k : ℤ} (hdx : 0 ≤ dx) (hdy : 0 ≤ dy) (hM : 0 < max dx dy) {err : ℤ}
    (he : err = (near dy (max dx dy) k + 1) * dx - (near dx (max dx dy) k + 1) * dy) :
    near dx (max dx dy) (k + 1) =
        (if -dy < 2 * err then near dx (max dx dy) k + 1 else near dx (max dx dy) k) ∧
      near dy (max dx dy) (k + 1) =
        if 2 * err < dx then near dy (max dx dy) k + 1 else near dy (max dx dy) k := by
  rcases le_or_gt dy dx with hle | hlt
  · rw [max_eq_left hle] at hM he ⊢
    rw [near_self hM] at he
    have hx := near_major (k := k) hle hM
    rw [near_self hM, near_self hM, if_pos (by omega), he]
    exact ⟨rfl, near_step hdy hle hM⟩
  · rw [max_eq_right hlt.le] at hM he ⊢
    rw [near_self hM] at he
    have hy := near_major (k := k) hlt.le hM
    rw [near_self hM, near_self hM, if_pos (c := 2 * err < dx) (by omega),
      near_step hdx hlt.le hM]
    refine ⟨?_, rfl⟩
    congr 1
    apply propext
    constructor <;> intro _ <;> linarith

/-- **A turn of the walk** goes on to the next point of the line. -/
lemma At.next {g : Client} {k : ℕ} {w : Walk} (h : At g x0 y0 x1 y1 k w)
    (hM : 0 < max |x1 - x0| |y1 - y0|) :
    At g x0 y0 x1 y1 (k + 1) (w.next |x1 - x0| |y1 - y0| (dirOf x0 x1) (dirOf y0 y1)) := by
  obtain ⟨hp, he, hc⟩ := h
  obtain ⟨hx, hy⟩ := near_next (abs_nonneg _) (abs_nonneg _) hM he
  simp only [linePoint, Prod.mk.injEq] at hp
  rw [Walk.next_eq]
  refine ⟨?_, ?_, ?_⟩
  · simp only [linePoint, Nat.cast_succ, hx, hy, hp.1, hp.2, Prod.mk.injEq]
    constructor <;> split_ifs <;> ring
  · simp only [Nat.cast_succ, hx, hy]
    rw [he]
    split_ifs <;> ring
  · simp only [hc, rotateLeft_succ]

lemma dirOf_mul_abs (a b : ℤ) : dirOf a b * |b - a| = b - a := by
  unfold dirOf
  split_ifs with h
  · rw [abs_of_pos (by omega)]
    ring
  · rw [abs_of_nonpos (by omega)]
    ring

lemma linePoint_end :
    linePoint x0 y0 x1 y1 (max |x1 - x0| |y1 - y0|) = (x1, y1) := by
  have hdx := abs_nonneg (x1 - x0)
  have hdy := abs_nonneg (y1 - y0)
  have h (m : ℤ) (h0 : 0 ≤ m) (hm : m ≤ max |x1 - x0| |y1 - y0|) :
      near m (max |x1 - x0| |y1 - y0|) (max |x1 - x0| |y1 - y0|) = m := by
    rcases eq_or_lt_of_le (h0.trans hm) with h | h
    · rw [← h] at hm ⊢
      rw [near_zero h0 hm]
      omega
    · exact near_end h
  simp only [linePoint, h _ hdx (le_max_left _ _), h _ hdy (le_max_right _ _), dirOf_mul_abs]
  simp

/-- The line is at its end after that many turns only. -/
lemma linePoint_eq_end_iff {k : ℕ} (hk : (k : ℤ) ≤ max |x1 - x0| |y1 - y0|) :
    linePoint x0 y0 x1 y1 k = (x1, y1) ↔ (k : ℤ) = max |x1 - x0| |y1 - y0| := by
  constructor
  · intro h
    have hend : ∀ m, m = max |x1 - x0| |y1 - y0| → near m (max |x1 - x0| |y1 - y0|) k = k := by
      rintro m rfl
      rcases eq_or_lt_of_le ((abs_nonneg (x1 - x0)).trans (le_max_left _ |y1 - y0|)) with hM | hM
      · rw [← hM] at hk ⊢
        obtain hk : (k : ℤ) = 0 := by omega
        rw [hk]
        rfl
      · exact near_self hM
    simp only [linePoint, Prod.mk.injEq] at h
    -- the longer way is done
    have hcancel (a b j : ℤ) (h : a + dirOf a b * j = b) : j = |b - a| := by
      have := dirOf_mul_abs a b
      unfold dirOf at *
      split_ifs at * <;> linarith
    rcases max_choice |x1 - x0| |y1 - y0| with hm | hm
    · rw [hend _ hm.symm] at h
      rw [hm]
      exact hcancel _ _ _ h.1
    · have h2 := h.2
      rw [hend _ hm.symm] at h2
      rw [hm]
      exact hcancel _ _ _ h2
  · intro h
    rw [h]
    exact linePoint_end

/-- What is left of the line from turn `k` on. -/
def restShape (g : Client) (x0 y0 x1 y1 mode : ℤ) (k : ℕ) (q : Pixel) (ink : Ink) : Prop :=
  ∃ j : ℕ, k ≤ j ∧ (j : ℤ) ≤ max |x1 - x0| |y1 - y0| ∧ g.cllpat.getMsbD (j % 16) = true ∧
    pointShape g (linePoint x0 y0 x1 y1 j).1 (linePoint x0 y0 x1 y1 j).2 mode q ink

/-- **The walk** comes to its end, and has then drawn the rest of the line. -/
lemma lineLoop_draws {g : Client} (h : OnScreen g) (mode : ℤ) {n k : ℕ} {w : Walk}
    (hk : (k : ℤ) ≤ max |x1 - x0| |y1 - y0|) (hn : max |x1 - x0| |y1 - y0| < k + n)
    (hw : At g x0 y0 x1 y1 k w) :
    ∃ ws, lineLoop g x1 y1 |x1 - x0| |y1 - y0| (dirOf x0 x1) (dirOf y0 y1) mode n w = some ws ∧
      Draws (seen g) ws (restShape g x0 y0 x1 y1 mode k) := by
  induction n generalizing k w with
  | zero => omega
  | succ n ih =>
    -- the point of this turn
    have hpt : Draws (seen g) (if w.cllrun.msb then cl_point g w.x w.y mode else [])
        fun q ink => g.cllpat.getMsbD (k % 16) = true ∧
          pointShape g (linePoint x0 y0 x1 y1 k).1 (linePoint x0 y0 x1 y1 k).2 mode q ink := by
      rw [hw.cllrun, BitVec.msb_rotateLeft, ← hw.point]
      split_ifs with hb
      · exact (point_draws h w.x w.y mode).mono fun q ink hs => hs.2
      · exact .nil fun q ink hs => hb hs.1
    unfold lineLoop
    simp only
    have hend : (w.x = x1 ∧ w.y = y1) ↔ (k : ℤ) = max |x1 - x0| |y1 - y0| := by
      rw [← linePoint_eq_end_iff hk, ← hw.point, Prod.mk.injEq]
    by_cases he : w.x = x1 ∧ w.y = y1
    · rw [if_pos he]
      refine ⟨_, rfl, hpt.mono ?_⟩
      rintro q ink ⟨j, hkj, hj, hb, hs⟩
      obtain rfl : j = k := by
        have := hend.mp he
        omega
      exact ⟨hb, hs⟩
    · rw [if_neg he]
      have hlt : (k : ℤ) < max |x1 - x0| |y1 - y0| := lt_of_le_of_ne hk (mt hend.mpr he)
      obtain ⟨ws, hws, hd⟩ := ih (k := k + 1) (by push_cast; omega) (by push_cast; omega)
        (hw.next (by omega))
      rw [hws]
      refine ⟨_, rfl, (hpt.append hd).mono ?_⟩
      rintro q ink ⟨j, hkj, hj, hb, hs⟩
      rcases eq_or_lt_of_le hkj with rfl | hkj
      · exact .inl ⟨hb, hs⟩
      · exact .inr ⟨j, hkj, hj, hb, hs⟩

end line

/-- What is drawn in: the visible rectangles of a window that is mapped and not frozen. -/
def shown (g : Client) : List HRRECT := if g.mapped = false ∨ g.frozen = true then [] else g.vis

lemma begun_draws {g : Client} {ws : List Write} {shape : Pixel → Ink → Prop}
    (h : g.mapped = true → g.frozen = false → Draws g.vis ws shape) :
    Draws (shown g) (begun g ws) shape := by
  unfold shown begun
  split_ifs with hg
  · exact ⟨fun w hw => absurd hw (by simp), fun q ink _ ⟨r, hr, _⟩ => absurd hr (by simp)⟩
  · simp only [not_or, Bool.not_eq_false, Bool.not_eq_true] at hg
    exact h hg.1 hg.2

lemma seen_eq {g : Client} (h : g.mapped = true) : seen g = g.vis := if_pos h

lemma line_draws {g : Client} (h : OnScreen g) (x0 y0 x1 y1 mode : ℤ) :
    ∃ ws, cl_line g x0 y0 x1 y1 mode = some ws ∧
      Draws (shown g) ws (lineShape g x0 y0 x1 y1 mode) := by
  have hx := abs_nonneg (x1 - x0)
  have hy := abs_nonneg (y1 - y0)
  obtain ⟨ws, hws, hd⟩ := lineLoop_draws h mode
    (n := (|x1 - x0| + |y1 - y0|).toNat + 1) (k := 0) (by push_cast; omega)
    (by push_cast; omega) (At.start g x0 y0 x1 y1)
  unfold cl_line shown
  split_ifs with hg
  · exact ⟨[], rfl, fun w hw => absurd hw (by simp), fun q ink _ ⟨r, hr, _⟩ => absurd hr (by simp)⟩
  · simp only [not_or, Bool.not_eq_false, Bool.not_eq_true] at hg
    rw [seen_eq hg.1] at hd
    refine ⟨ws, hws, hd.mono ?_⟩
    rintro q ink ⟨k, hk, hb, hs⟩
    exact ⟨k, Nat.zero_le k, hk, hb, hs⟩

/-! ### Circles -/

/-- A point of the first eighth: with `y` as near to the circle as can be. -/
def Arc (r x y : ℤ) : Prop :=
  0 ≤ x ∧ x ≤ y ∧ x * x + y * y - y < r * r ∧ r * r ≤ x * x + y * y + y

/-- The eight points that a point of the first eighth is reflected to. -/
def reflections (x y : ℤ) : List Pixel :=
  [(x, y), (-x, y), (x, -y), (-x, -y), (y, x), (-y, x), (y, -x), (-y, -x)]

def circleShape (g : Client) (cx cy r mode : ℤ) (q : Pixel) (ink : Ink) : Prop :=
  ∃ x y, (if r = 0 then x = 0 ∧ y = 0 else Arc r x y) ∧
    ∃ o ∈ reflections x y, pointShape g (cx + o.1) (cy + o.2) mode q ink

/-- Points of the eighth's ends are plotted once, but all of them. -/
lemma mem_octants {x y : ℤ} {o : Pixel} (h : o ∈ reflections x y) : o ∈ octants x y := by
  unfold octants
  simp only [reflections, List.mem_cons, List.not_mem_nil, or_false] at h
  split_ifs with h0 h1
  · subst h0
    simp only [neg_zero] at h
    simp only [List.mem_cons, List.not_mem_nil, or_false]
    tauto
  · subst h1
    simp only [List.mem_cons, List.not_mem_nil, or_false]
    tauto
  · simp only [List.mem_cons, List.not_mem_nil, or_false]
    exact h

/-- The turn for `x` has the point of the eighth, and `d` is the midpoint's error. -/
structure OnArc (r x y d : ℤ) : Prop where
  nonneg : 0 ≤ x
  below : x * x + y * y - y < r * r
  above : r * r ≤ x * x + y * y + y
  err : d = (x + 1) * (x + 1) + y * y - y - r * r

lemma Arc.unique {r x y y' d : ℤ} (h : Arc r x y) (h' : OnArc r x y' d) (hy' : x ≤ y') :
    y = y' := by
  obtain ⟨h0, hxy, hb, ha⟩ := h
  obtain ⟨-, hb', ha', -⟩ := h'
  rcases lt_trichotomy y y' with hlt | heq | hlt
  · nlinarith
  · exact heq
  · nlinarith

/-- The loop is on the eighth, or past its end. -/
def ArcLeft (r : ℤ) (p : ℤ × ℤ × ℤ) : Prop :=
  OnArc r p.1 p.2.1 p.2.2 ∨ p.2.1 < p.1 ∧ ∀ x y, p.1 ≤ x → ¬ Arc r x y

lemma OnArc.pos {r x y d : ℤ} (h : OnArc r x y d) : 0 < y := by
  have := h.below.trans_le h.above
  omega

/-- Past its end there is nothing more of the eighth. -/
lemma OnArc.done {r x y d X Y : ℤ} (h : OnArc r x y d) (hyx : y < x) (hX : x ≤ X) :
    ¬ Arc r X Y := by
  rintro ⟨-, hXY, hb, -⟩
  have hy := h.pos
  have h1 : x * x ≤ X * X := mul_self_le_mul_self h.nonneg hX
  have h2 : 0 ≤ (Y - (y + 1)) * (Y + y) := mul_nonneg (by omega) (by omega)
  have := h.above
  linarith

lemma OnArc.next {r x y d : ℤ} (h : OnArc r x y d) (hxy : x ≤ y) :
    ArcLeft r (arcNext (x, y, d)) := by
  have hpos := h.pos
  obtain ⟨h0, hb, ha, rfl⟩ := h
  unfold arcNext ArcLeft
  simp only
  split_ifs with hd
  · left
    exact ⟨by omega, by linarith, by linarith, by ring⟩
  · rcases le_or_gt (x + 2) y with hy | hy
    · left
      exact ⟨by omega, by linarith, by linarith, by ring⟩
    · right
      refine ⟨by simp only; omega, ?_⟩
      rintro X Y hX ⟨-, hXY, hB, -⟩
      simp only at hX
      have h1 : (x + 1) * (x + 1) ≤ X * X := mul_self_le_mul_self (by omega) hX
      have h2 : 0 ≤ (Y - y) * (Y + y - 1) := mul_nonneg (by omega) (by omega)
      linarith

/-- What is left of the circle from the turn for `x` on. -/
def arcShape (g : Client) (cx cy r mode x0 : ℤ) (q : Pixel) (ink : Ink) : Prop :=
  ∃ x y, x0 ≤ x ∧ Arc r x y ∧ ∃ o ∈ reflections x y, pointShape g (cx + o.1) (cy + o.2) mode q ink

lemma octants_draws {g : Client} (h : OnScreen g) (cx cy mode x y : ℤ) :
    Draws (seen g) ((octants x y).flatMap fun o => cl_point g (cx + o.1) (cy + o.2) mode)
      fun q ink => ∃ o ∈ reflections x y, pointShape g (cx + o.1) (cy + o.2) mode q ink := by
  have hd := points_draws h mode ((octants x y).map fun o => (cx + o.1, cy + o.2))
  rw [List.flatMap_map] at hd
  refine hd.mono ?_
  rintro q ink ⟨o, ho, hs⟩
  exact ⟨_, List.mem_map.mpr ⟨o, mem_octants ho, rfl⟩, hs⟩

/-- **The loop of `cl_circle`** plots the rest of the circle. -/
lemma circleLoop_draws {g : Client} (h : OnScreen g) (cx cy r mode : ℤ) (p : ℤ × ℤ × ℤ)
    (hp : ArcLeft r p) :
    Draws (seen g) (circleLoop g cx cy mode p) (arcShape g cx cy r mode p.1) := by
  fun_induction circleLoop g cx cy mode p with
  | case1 p hle ih =>
    obtain ⟨x, y, d⟩ := p
    rcases hp with hon | ⟨hlt, -⟩
    · refine ((octants_draws h cx cy mode x y).append (ih (hon.next hle))).mono ?_
      rintro q ink ⟨X, Y, hX, harc, hs⟩
      rcases eq_or_lt_of_le hX with rfl | hX
      · -- the point of this turn
        rw [harc.unique hon hle] at hs
        exact .inl hs
      · right
        refine ⟨X, Y, ?_, harc, hs⟩
        unfold arcNext
        simp only at hX ⊢
        split_ifs <;> simp only <;> omega
    · exact absurd hle (not_le.mpr hlt)
  | case2 p hlt =>
    refine .nil ?_
    rintro q ink ⟨X, Y, hX, harc, -⟩
    rcases hp with hon | ⟨-, hno⟩
    · exact hon.done (not_le.mp hlt) hX harc
    · exact hno X Y hX harc

lemma circle_draws {g : Client} (h : OnScreen g) (cx cy r mode : ℤ) :
    Draws (shown g) (cl_circle g cx cy r mode) (circleShape g cx cy r mode) := by
  unfold cl_circle
  simp only
  refine begun_draws fun hm _ => ?_
  rw [← seen_eq hm]
  have hr : (if r < 0 then -r else r) = |r| := by
    split_ifs with hr
    · exact (abs_of_neg hr).symm
    · exact (abs_of_nonneg (not_lt.mp hr)).symm
  rw [hr]
  split_ifs with h0
  · rw [abs_eq_zero] at h0
    refine (point_draws h cx cy mode).mono ?_
    rintro q ink ⟨x, y, hxy, o, ho, hs⟩
    rw [if_pos h0] at hxy
    obtain ⟨rfl, rfl⟩ := hxy
    obtain rfl : o = (0, 0) := by simpa [reflections] using ho
    simpa using hs
  · have hpos : 0 < |r| := lt_of_le_of_ne (abs_nonneg r) (Ne.symm h0)
    have hrr := abs_mul_abs_self r
    refine (circleLoop_draws h cx cy r mode (0, |r|, 1 - |r|) (.inl ?_)).mono ?_
    · exact ⟨le_rfl, by simp only; linarith, by simp only; linarith, by simp only; linarith⟩
    · rintro q ink ⟨x, y, hxy, hs⟩
      rw [if_neg (by simpa using h0)] at hxy
      exact ⟨x, y, hxy.1, hxy, hs⟩

/-! ### All primitives -/

/-- The rectangles that a primitive draws in. A point is drawn in a frozen window too. -/
def drawnIn (g : Client) : Prim → List HRRECT
  | .cl_point _ _ _ => seen g
  | _ => shown g

/-- The pixels of a primitive, and what they are painted with. -/
def Shape (g : Client) : Prim → Pixel → Ink → Prop
  | .cl_text fslot col row s cellw cellh =>
    textShape g fslot (g.ox + col * cellw) (g.oy + row * cellh) cellw .L_NSRC s
  | .cl_ptext fslot cx cy s =>
    textShape g fslot (g.ox + cx) (g.oy + cy) (g.hr_font fslot).cellw .L_NSRC s
  | .cl_ptextt fslot cx cy s =>
    textShape g fslot (g.ox + cx) (g.oy + cy) (g.hr_font fslot).cellw .L_NAND s
  | .cl_fillrect cx0 cy0 cx1 cy1 val =>
    rectShape ⟨g.ox + cx0, g.oy + cy0, g.ox + cx1, g.oy + cy1⟩ (.fill val) (fillOp val) (0, 0)
  | .cl_erase col row ncol nrow cellw cellh =>
    rectShape ⟨g.ox + col * cellw, g.oy + row * cellh, g.ox + (col + ncol) * cellw,
      g.oy + (row + nrow) * cellh⟩ (.fill 1) .L_TRUE (0, 0)
  | .cl_blit cx0 cy0 cx1 cy1 =>
    rectShape ⟨g.ox + cx0, g.oy + cy0, g.ox + cx1, g.oy + cy1⟩ .image .L_SRC
      (g.ox + cx0, g.oy + cy0)
  | .cl_point cx cy mode => pointShape g cx cy mode
  | .cl_dotrow cx cy n step => rowShape g cx cy n step
  | .cl_line x0 y0 x1 y1 mode => lineShape g x0 y0 x1 y1 mode
  | .cl_circle cx cy r mode => circleShape g cx cy r mode

/-- No dot of a row slips to a pixel that no visible rectangle has. -/
def NoSlip (g : Client) : Prim → Prop
  | .cl_dotrow cx cy n step =>
    0 < n → 0 < step → g.mapped = true → g.frozen = false → SlipsSeen g cx cy step
  | _ => True

instance (g : Client) (p : Prim) : Decidable (NoSlip g p) := by
  cases p <;> unfold NoSlip <;> infer_instance

lemma draw_draws {g : Client} (h : OnScreen g) (p : Prim) :
    ∃ ws, draw g p = some ws ∧ (NoSlip g p → Draws (drawnIn g p) ws (Shape g p)) := by
  cases p with
  | cl_text fslot col row s cellw cellh =>
    exact ⟨_, rfl, fun _ => begun_draws fun _ _ => text_draws ..⟩
  | cl_ptext fslot cx cy s => exact ⟨_, rfl, fun _ => begun_draws fun _ _ => text_draws ..⟩
  | cl_ptextt fslot cx cy s => exact ⟨_, rfl, fun _ => begun_draws fun _ _ => text_draws ..⟩
  | cl_fillrect cx0 cy0 cx1 cy1 val =>
    exact ⟨_, rfl, fun _ => begun_draws fun _ _ => fill_draws ..⟩
  | cl_erase col row ncol nrow cellw cellh =>
    exact ⟨_, rfl, fun _ => begun_draws fun _ _ => fill_draws ..⟩
  | cl_blit cx0 cy0 cx1 cy1 => exact ⟨_, rfl, fun _ => begun_draws fun _ _ => blitIn_draws ..⟩
  | cl_point cx cy mode => exact ⟨_, rfl, fun _ => point_draws h cx cy mode⟩
  | cl_dotrow cx cy n step =>
    refine ⟨_, rfl, fun hslip => ?_⟩
    unfold cl_dotrow
    split_ifs with hn
    · exact .nil fun q ink ⟨k, h0, hk, hs, _⟩ => by omega
    · exact begun_draws fun hm hf =>
        row_draws h (by omega) (by omega) (hslip (by omega) (by omega) hm hf)
  | cl_line x0 y0 x1 y1 mode =>
    obtain ⟨ws, hws, hd⟩ := line_draws h x0 y0 x1 y1 mode
    exact ⟨ws, hws, fun _ => hd⟩
  | cl_circle cx cy r mode => exact ⟨_, rfl, fun _ => circle_draws h cx cy r mode⟩

/-- What of the shape is in a visible rectangle is painted, unless the window takes no drawing. -/
def Painted (g : Client) (p : Prim) (ws : List Write) : Prop :=
  ∀ q ink, Shape g p q ink → (∃ r ∈ drawnIn g p, r.has q) → ∃ w ∈ ws, w.paints q ink

lemma mem_vis {g : Client} {p : Prim} {r : HRRECT} (h : r ∈ drawnIn g p) : r ∈ g.vis := by
  have hshown (h : r ∈ shown g) : r ∈ g.vis := by
    unfold shown at h
    split_ifs at h
    · cases h
    · exact h
  cases p with
  | cl_point cx cy mode => exact (mem_seen.mp h).2
  | cl_text | cl_ptext | cl_ptextt | cl_fillrect | cl_erase | cl_blit | cl_dotrow | cl_line
  | cl_circle => exact hshown h

/-- **Client drawing stays inside the window**, and draws all that is visible, but for a row of
dots that slips. -/
theorem client_drawing (g : Client) (p : Prim) (h : OnScreen g)
    (bitblt : Source → Logop → HRRECT → Pixel → Screen → Screen) (image : Pixel → Bool)
    (hb : ∀ src op dr sp fb q, ¬ dr.has q → bitblt src op dr sp fb q = fb q) :
    ∃ ws, draw g p = some ws ∧ (Inside bitblt image g ws ∧ Painted g p ws ↔ NoSlip g p) := by
  obtain ⟨ws, hws, hd⟩ := draw_draws h p
  refine ⟨ws, hws, ?_, fun hn => ⟨?_, (hd hn).painted⟩⟩
  · rintro ⟨hin, -⟩
    cases p with
    | cl_dotrow cx cy n step =>
      intro hn hs hm hf
      cases hws
      unfold cl_dotrow begun at hin
      rw [if_neg (by omega), if_neg (by simp [hm, hf])] at hin
      exact slipsSeen_of_inside hn hs hin
    | cl_point | cl_text | cl_ptext | cl_ptextt | cl_fillrect | cl_erase | cl_blit | cl_line
    | cl_circle => trivial
  · intro fb q hq
    by_contra hno
    refine hq (runAll_eq_of_not_touches hb (fun w hw ht => ?_) fb)
    obtain ⟨r, hr, hrq⟩ := (hd hn).inside w hw q ht
    exact hno ⟨r, mem_vis hr, hrq⟩

/-- A `bitblt` of fills. -/
def fillblt : Source → Logop → HRRECT → Pixel → Screen → Screen
  | .fill _, op, dr, _, fb => fun q =>
    if dr.has q then (match op with
      | .L_FALSE => false
      | .L_TRUE => true
      | _ => !fb q)
    else fb q
  | _, _, _, _, fb => fb

lemma fillblt_eq (src : Source) (op : Logop) (dr : HRRECT) (sp : Pixel) (fb : Screen) (q : Pixel)
    (h : ¬ dr.has q) : fillblt src op dr sp fb q = fb q := by
  cases src with
  | fill val => exact if_neg h
  | glyph fslot c => rfl
  | image => rfl

/-- A window at (100, 100), its right part covered. -/
def covered : Client :=
  { mapped := true
    ox := 100
    oy := 100
    vis := [⟨100, 100, 200, 130⟩, ⟨100, 130, 300, 200⟩]
    frozen := false
    hr_font := fun _ => ⟨32, 95, 8, 16⟩
    cllpat := 0xffff }

theorem covered_drawing :
    (∃ ws, draw covered (.cl_fillrect 50 10 150 60 0) = some ws ∧
      Inside fillblt (fun _ => false) covered ws ∧
      Painted covered (.cl_fillrect 50 10 150 60 0) ws) ∧
    ∃ ws, draw covered (.cl_dotrow 4 10 20 8) = some ws ∧
      Inside fillblt (fun _ => false) covered ws ∧
      Painted covered (.cl_dotrow 4 10 20 8) ws := by
  refine ⟨?_, ?_⟩
  · obtain ⟨ws, hws, hiff⟩ := client_drawing covered (.cl_fillrect 50 10 150 60 0) (by decide)
      fillblt (fun _ => false) fillblt_eq
    exact ⟨ws, hws, hiff.mpr (by decide)⟩
  · obtain ⟨ws, hws, hiff⟩ := client_drawing covered (.cl_dotrow 4 10 20 8) (by decide)
      fillblt (fun _ => false) fillblt_eq
    exact ⟨ws, hws, hiff.mpr (by decide)⟩

/-- Of a row that starts 4 pixels into the covered part, the first dot is plotted there. -/
theorem covered_slips :
    OnScreen covered ∧ draw covered (.cl_dotrow 104 10 3 8) = some [.dot 204 110 0] ∧
      ¬ Inside fillblt (fun _ => false) covered [.dot 204 110 0] := by
  refine ⟨by decide, by decide, fun h => ?_⟩
  have hno : ¬ ∃ r ∈ covered.vis, r.has (204, 110) := by decide
  exact hno (h (fun _ => true) (204, 110) (by decide))

end Coherent.Clgfx
