import Coherent.Vellum
import Mathlib.Data.Int.Sqrt

/-!
The integer square root of Vellum, and the sums of squares that the distances of an object give it.

A long has 32 bits. The first loop looks for a power of four that is not above the argument and goes
down to 0; for a negative argument it never ends. The sum of two squares is negative when it runs
over into the sign.
-/

namespace Coherent.Isqrt

open Vellum

/-! ### The code -/

/-- A number in a 32-bit word. -/
def long (x : ℤ) : ℤ := (x + 2147483648) % 4294967296 - 2147483648

/-- The first loop, `none` if it has not ended after so many turns. -/
def probe (v : ℤ) : ℕ → ℤ → Option ℤ
  | 0, _ => none
  | n + 1, b => if v < b then probe v n (b / 4) else some b

/-- The second loop. -/
def digits : ℕ → ℤ → ℤ → ℤ → Option ℤ
  | 0, _, _, _ => none
  | n + 1, v, r, b =>
    if b = 0 then some r
    else if long (r + b) ≤ v then
      digits n (long (v - long (r + b))) (long (r / 2 + b)) (b / 4)
    else digits n v (r / 2) (b / 4)

def isqrt (n : ℕ) (v : ℤ) : Option ℤ := (probe v n 1073741824).bind fun b => digits n v 0 b

/-- `dx * dx + dy * dy` -/
def sumsq (l : ℤ × ℤ) : ℤ := long (long (l.1 * l.1) + long (l.2 * l.2))

/-- `objpbox2` on a circle, at the zoom `gsc`: the differences are taken in 16 bits. -/
def circlegs (gsc : ℤ) (o : Head) : ℤ × ℤ :=
  (long (short (o.o_x2 - o.o_x) * gsc), long (short (o.o_y2 - o.o_y) * gsc))

/-- `dimlbl` -/
def dimlegs (o : Head) : ℤ × ℤ := (|short (o.o_x2 - o.o_x)|, |short (o.o_y2 - o.o_y)|)

/-- `seglen`, where the differences are longs. -/
def seglegs (x0 y0 x1 y1 : ℤ) : ℤ × ℤ := (|x1 - x0|, |y1 - y0|)

/-- `dimlbl` and `seglen` call `isqrt` only where neither leg is 0. -/
def slanted (l : ℤ × ℤ) : List (ℤ × ℤ) := if l.1 = 0 ∨ l.2 = 0 then [] else [l]

/-- The segments of a polyline. -/
def polylegs : List ℤ → List (ℤ × ℤ)
  | x0 :: y0 :: x1 :: y1 :: p => slanted (seglegs x0 y0 x1 y1) ++ polylegs (x1 :: y1 :: p)
  | _ => []

/-- The legs whose squares are added up for an object: a circle's in `objpbox2`, a dimension's
without a text in `dimlbl`, and those of wires, connectors and open polylines in `dolen`. -/
def legs (gsc : ℤ) (o : Seen) : List (ℤ × ℤ) :=
  match o.o_type with
  | .CIRC => [circlegs gsc o.toHead]
  | .DIM => if o.val = [] then slanted (dimlegs o.toHead) else []
  | .WIRE =>
    slanted (seglegs o.o_x o.o_y o.o_x2 o.o_y) ++ slanted (seglegs o.o_x2 o.o_y o.o_x2 o.o_y2)
  | .CONN =>
    if o.o_sym = 0 ∨ o.o_sym = 3 then
      slanted (seglegs o.o_x o.o_y o.o_x2 o.o_y) ++ slanted (seglegs o.o_x2 o.o_y o.o_x2 o.o_y2)
    else slanted (seglegs o.o_x o.o_y o.o_x2 o.o_y2)
  | .POLY => if o.o_flags / 4 % 4 ≠ 0 then [] else polylegs o.pts
  | _ => []

/-- `isqrt` ends with the floor of the root. -/
def Right (v : ℤ) : Prop := ∃ n, isqrt n v = some v.sqrt

/-! ### The two loops -/

section
variable {v V r t b : ℤ} {n k m : ℕ}

lemma long_eq (h : 0 ≤ v) (h' : v < 2147483648) : long v = v := by
  unfold long
  omega

/-- On a negative argument the first loop never ends. -/
lemma probe_neg (hv : v < 0) (hb : 0 ≤ b) : probe v n b = none := by
  induction n generalizing b with
  | zero => rfl
  | succ n ih =>
    unfold probe
    rw [if_pos (by omega)]
    exact ih (by omega)

lemma isqrt_neg (hv : v < 0) : isqrt n v = none := by
  unfold isqrt
  rw [probe_neg hv (by omega)]
  rfl

lemma four_pow_div : (4 : ℤ) ^ (k + 1) / 4 = 4 ^ k := by
  rw [pow_succ]
  omega

/-- It ends at the largest power of four that is not above the argument, or at 0. -/
lemma probe_pow (hv : 0 ≤ v) (hk : v < 4 ^ (k + 1)) (m : ℕ) :
    (v = 0 ∧ probe v (k + 2 + m) (4 ^ k) = some 0) ∨
    ∃ j ≤ k, v < 4 ^ (j + 1) ∧ probe v (k + 2 + m) (4 ^ k) = some (4 ^ j) := by
  induction k with
  | zero =>
    rcases lt_or_ge v 1 with h | h
    · obtain rfl : v = 0 := by omega
      exact Or.inl ⟨rfl, by rw [Nat.add_comm]; rfl⟩
    · refine Or.inr ⟨0, le_refl 0, hk, ?_⟩
      rw [Nat.add_comm]
      unfold probe
      rw [if_neg (by omega)]
  | succ k ih =>
    have hf : k + 1 + 2 + m = k + 2 + m + 1 := by omega
    rw [hf]
    unfold probe
    by_cases h : v < 4 ^ (k + 1)
    · rw [if_pos h, four_pow_div]
      rcases ih h with h1 | ⟨j, hj, h1⟩
      · exact Or.inl h1
      · exact Or.inr ⟨j, by omega, h1⟩
    · rw [if_neg h]
      exact Or.inr ⟨k + 1, le_refl _, hk, rfl⟩

/-- The root so far is `t` in units whose square is `w`; `v` and `r` are what the loop has. -/
structure Partial (V w t v r : ℤ) : Prop where
  root : 0 ≤ t
  rest : v = V - t * t * w
  double : r = t * w
  low : t * t * w ≤ V
  high : V < (t + 1) * (t + 1) * w

lemma sqrt_eq_of (ht : 0 ≤ t) (hl : t * t ≤ V) (hh : V < (t + 1) * (t + 1)) : V.sqrt = t := by
  have hV : 0 ≤ V := (mul_nonneg ht ht).trans hl
  lift t to ℕ using ht
  lift V to ℕ using hV
  have h : t = Nat.sqrt V := Nat.eq_sqrt.mpr ⟨by exact_mod_cast hl, by exact_mod_cast hh⟩
  rw [Int.sqrt_natCast, ← h]

/-- The sum that is compared stays within a long. -/
lemma Partial.fits (h : Partial V (4 * 4 ^ k) t v r) (hV : V < 2147483648) (hk : k ≤ 15) :
    (4 * t + 1) * 4 ^ k < 2147483648 := by
  have hl := h.low
  have hpos : (0 : ℤ) < 4 ^ k := by positivity
  rcases lt_trichotomy t 1 with h1 | rfl | h1
  · -- the first digit
    have ht : t = 0 := by
      have := h.root
      omega
    have hle : (4 : ℤ) ^ k ≤ 4 ^ 15 := pow_le_pow_right₀ (by norm_num) hk
    rw [ht]
    omega
  · -- a root of 1: the weight is a power of four below a quarter of the argument
    have hk' : k ≤ 14 := by
      by_contra hc
      obtain rfl : k = 15 := by omega
      omega
    have hle : (4 : ℤ) ^ k ≤ 4 ^ 14 := pow_le_pow_right₀ (by norm_num) hk'
    omega
  · have ht : 4 * t + 1 ≤ t * t * 4 := by nlinarith
    calc (4 * t + 1) * 4 ^ k ≤ t * t * 4 * 4 ^ k := mul_le_mul_of_nonneg_right ht hpos.le
      _ = t * t * (4 * 4 ^ k) := by ring
      _ < 2147483648 := lt_of_le_of_lt hl hV

/-- One turn finds one digit. -/
lemma Partial.turn {q : ℤ} (h : Partial V (4 * q) t v r) (hq : 0 < q)
    (hf : (4 * t + 1) * q < 2147483648) (hV : V < 2147483648) :
    (long (r + q) ≤ v → Partial V q (2 * t + 1) (long (v - long (r + q))) (long (r / 2 + q))) ∧
    (¬long (r + q) ≤ v → Partial V q (2 * t) v (r / 2)) := by
  have ht := h.root
  have hrest := h.rest
  have hdouble := h.double
  have htq : 0 ≤ t * q := mul_nonneg ht hq.le
  have hhalf : r / 2 = 2 * t * q := by
    rw [hdouble, show t * (4 * q) = 2 * t * q * 2 by ring]
    exact Int.mul_ediv_cancel _ (by norm_num)
  have hsum : r + q = (4 * t + 1) * q := by rw [hdouble]; ring
  have hlong : long (r + q) = (4 * t + 1) * q := by
    rw [hsum]
    exact long_eq (mul_nonneg (by omega) hq.le) hf
  have hnext : long (r / 2 + q) = (2 * t + 1) * q := by
    rw [hhalf, show 2 * t * q + q = (2 * t + 1) * q by ring]
    exact long_eq (mul_nonneg (by omega) hq.le) (by nlinarith)
  have hsq : (2 * t + 1) * (2 * t + 1) * q = t * t * (4 * q) + (4 * t + 1) * q := by ring
  have hsq' : 2 * t * (2 * t) * q = t * t * (4 * q) := by ring
  have hlow := h.low
  have hhigh := h.high
  have hend : (t + 1) * (t + 1) * (4 * q) = (2 * t + 1 + 1) * (2 * t + 1 + 1) * q := by ring
  have hnn : 0 ≤ t * t * (4 * q) := mul_nonneg (mul_nonneg ht ht) (by omega)
  have hpos : 0 ≤ (4 * t + 1) * q := mul_nonneg (by omega) hq.le
  rw [hlong, hnext, hhalf]
  refine ⟨fun hv => ⟨by omega, ?_, rfl, by omega, by rw [← hend]; exact hhigh⟩,
    fun hv => ⟨by omega, by rw [hsq']; exact hrest, rfl, by rw [hsq']; exact hlow, ?_⟩⟩
  · rw [long_eq (by omega) (by omega)]
    omega
  · push Not at hv
    omega

/-- The second loop ends with the root. -/
lemma digits_eq (h : Partial V (4 * 4 ^ k) t v r) (hV : V < 2147483648) (hk : k ≤ 15) (m : ℕ) :
    digits (k + 2 + m) v r (4 ^ k) = some V.sqrt := by
  induction k generalizing t v r with
  | zero =>
    have h1 := h.turn (by norm_num) (h.fits hV hk) hV
    have hend : ∀ {t v r : ℤ}, Partial V (4 ^ 0) t v r → digits (m + 1) v r (4 ^ 0 / 4) =
        some V.sqrt := fun {t v r} hp => by
      have hd := hp.double
      have hl := hp.low
      have hh := hp.high
      rw [pow_zero, mul_one] at hd hl hh
      rw [sqrt_eq_of hp.root hl hh, ← hd]
      rfl
    have hf : 0 + 2 + m = m + 1 + 1 := by omega
    rw [hf]
    unfold digits
    rw [if_neg (by norm_num)]
    split
    · exact hend (h1.1 ‹_›)
    · exact hend (h1.2 ‹_›)
  | succ k ih =>
    have h1 := h.turn (by positivity) (h.fits hV hk) hV
    rw [show (4 : ℤ) ^ (k + 1) = 4 * 4 ^ k by ring] at h1
    have hf : k + 1 + 2 + m = k + 2 + m + 1 := by omega
    rw [hf]
    unfold digits
    rw [if_neg (by positivity), four_pow_div]
    rw [show (4 : ℤ) ^ (k + 1) = 4 * 4 ^ k by ring]
    split
    · exact ih (h1.1 ‹_›) (by omega)
    · exact ih (h1.2 ‹_›) (by omega)

/-- **The root of every long that is not negative.** -/
theorem isqrt_eq (hv : 0 ≤ v) (hv' : v < 2147483648) : isqrt 32 v = some v.sqrt := by
  have hp := probe_pow (k := 15) hv (by omega) 15
  have hb : (1073741824 : ℤ) = 4 ^ 15 := by norm_num
  unfold isqrt
  rw [hb]
  rcases hp with ⟨rfl, hp⟩ | ⟨j, hj, hlt, hp⟩
  · rw [hp]
    rfl
  · rw [hp, Option.bind_some]
    have h0 : Partial v (4 * 4 ^ j) 0 v 0 := by
      refine ⟨le_refl 0, by ring, by ring, by omega, ?_⟩
      rw [pow_succ] at hlt
      omega
    have hd := digits_eq h0 hv' hj (30 - j)
    rwa [show j + 2 + (30 - j) = 32 by omega] at hd

lemma right_iff : Right (long v) ↔ 0 ≤ long v := by
  constructor
  · rintro ⟨n, hn⟩
    by_contra h
    rw [isqrt_neg (not_le.mp h)] at hn
    exact absurd hn (by simp)
  · intro h
    exact ⟨32, isqrt_eq h (by unfold long; omega)⟩

lemma sumsq_eq (l : ℤ × ℤ) : sumsq l = long (l.1 * l.1 + l.2 * l.2) := by
  unfold sumsq long
  omega

lemma sumsq_nonneg (l : ℤ × ℤ) :
    0 ≤ sumsq l ↔ (l.1 * l.1 + l.2 * l.2) % 4294967296 < 2147483648 := by
  rw [sumsq_eq]
  unfold long
  omega

end

/-- A drawing without objects. -/
def empty : State where
  obj := []
  spare _ := ⟨⟨.SYM, 0, 0, 0, 0, 0, 0, 0, 0, 0, 0, [], 0, 0, 0, 0⟩, fun _ => NUL⟩
  pools := ⟨fun _ => 0, 0, fun _ => NUL, 0⟩
  unum := 1
  uname := []
  pgrem := 0
  pgid := 0

end Coherent.Isqrt
