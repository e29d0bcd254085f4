import Coherent.MintLong

/-!
The multi-precision integers of `libmp`: greatest common divisors and powers with a modulus.

`gcd`, `xgcd` and `pow` are loops over `mdiv`, whose remainder has the wrong sign for a negative
divisor that does not divide. The greatest common divisor does not see it, but the coefficients of
`xgcd` do: from the first such division on they belong to other numbers, and they come right again
only where that division was the last but one. In `pow` a negative modulus turns the sign of every
remainder, which cancels but for an odd exponent.
-/

namespace Coherent.Mint

open Coherent.Lib Coherent.Lib.Complement

variable {V : Type} [DecidableEq V]
variable {v w : ℤ} {n m : ℕ}

/-! ### What comes out is a mint -/

/-- A number in the range of `n + 1` digits has no more of them. -/
lemma len_le (h1 : -(BASE : ℤ) ^ n ≤ v) (h2 : v < (BASE - 1) * (BASE : ℤ) ^ n) :
    len v ≤ n + 1 := by
  by_contra hc
  have hn := normal_int v
  obtain ⟨k, hk⟩ : ∃ k, (ofInt BASE v).length = k + 2 :=
    ⟨(ofInt BASE v).length - 2, by unfold len at hc; omega⟩
  have h3 := hn.large two_le_base hk
  rw [value_int] at h3
  have h4 : (BASE : ℤ) ^ n ≤ (BASE : ℤ) ^ k :=
    pow_le_pow_right₀ (by decide) (by unfold len at hc; omega)
  have h5 := base_pow_pos k
  simp only [BASE] at *
  push_cast at *
  omega

/-- The range of the digits of a number. -/
lemma len_bounds (v : ℤ) : ∃ n, len v = n + 1 ∧ -(BASE : ℤ) ^ n ≤ v ∧
    v < (BASE - 1) * (BASE : ℤ) ^ n := by
  have hn := normal_int v
  obtain ⟨n, hl⟩ := exists_length hn
  have h := value_bounds two_le_base hn.lt hl
  rw [value_int] at h
  exact ⟨n, hl, h.1, h.2⟩

lemma one_le_len (v : ℤ) : 1 ≤ len v := by
  obtain ⟨n, h, -⟩ := len_bounds v
  omega

lemma fits_le (h : n ≤ m) (hm : fits m) : fits n := lt_of_le_of_lt h hm

/-- Where the blocks have lengths, so do the results. -/
lemma fits_neg (h : NegFits v) : fits (len (-v)) := by
  obtain ⟨n, hl, h1, h2⟩ := len_bounds v
  have hp := base_pow_pos n
  unfold NegFits at h
  by_cases hv : 0 ≤ v
  · rw [if_pos hv, hl] at h
    refine fits_le (len_le (n := n + 1) ?_ ?_) h
    · rw [pow_succ]
      simp only [BASE] at *
      push_cast at *
      linarith
    · rw [pow_succ]
      simp only [BASE] at *
      push_cast at *
      linarith
  · rw [if_neg hv, hl] at h
    refine fits_le (len_le (n := n) ?_ ?_) h
    · linarith
    · simp only [BASE] at *
      push_cast at *
      linarith

lemma fits_sum (h : SumFits v w) : fits (len (v + w)) := by
  obtain ⟨n, hl, h1, h2⟩ := len_bounds v
  obtain ⟨m, hm, h3, h4⟩ := len_bounds w
  unfold SumFits at h
  rw [hl, hm] at h
  have hn : (BASE : ℤ) ^ n ≤ (BASE : ℤ) ^ max n m :=
    pow_le_pow_right₀ (by decide) (le_max_left n m)
  have hm' : (BASE : ℤ) ^ m ≤ (BASE : ℤ) ^ max n m :=
    pow_le_pow_right₀ (by decide) (le_max_right n m)
  refine fits_le (len_le (n := max n m + 1) ?_ ?_) (fits_le (by omega) h)
  · rw [pow_succ]
    simp only [BASE] at *
    push_cast at *
    linarith
  · rw [pow_succ]
    simp only [BASE] at *
    push_cast at *
    linarith

/-- The length of a product with a factor that is not negative. -/
lemma len_mul (hv : 0 ≤ v) : len (v * w) ≤ len v + len w := by
  obtain ⟨n, hl, -, h2⟩ := len_bounds v
  obtain ⟨m, hm, h3, h4⟩ := len_bounds w
  have hpn := base_pow_pos n
  have hpm := base_pow_pos m
  rw [hl, hm, show n + 1 + (m + 1) = n + m + 1 + 1 by omega]
  have h5 : v * -(BASE : ℤ) ^ m ≤ v * w := Int.mul_le_mul_of_nonneg_left h3 hv
  have h6 : v * (BASE : ℤ) ^ m ≤ (BASE - 1) * (BASE : ℤ) ^ n * (BASE : ℤ) ^ m :=
    Int.mul_le_mul_of_nonneg_right h2.le hpm.le
  have h7 := mul_pos hpn hpm
  refine len_le ?_ ?_
  · rw [pow_succ, pow_add]
    rw [show (BASE : ℤ) = 128 from rfl] at *
    linarith
  · have h8 : v * w ≤ v * ((BASE - 1) * (BASE : ℤ) ^ m) := Int.mul_le_mul_of_nonneg_left h4.le hv
    rw [pow_succ, pow_add]
    rw [show (BASE : ℤ) = 128 from rfl] at *
    linarith

lemma fits_prod (h : ProdFits v w) : fits (len (v * w)) := by
  obtain ⟨-, h1, h2⟩ := h
  have habs : fits (len (|v| * w)) := by
    have hle := len_mul (w := w) (abs_nonneg v)
    by_cases hl : len |v| = 1
    · rw [if_pos hl] at h1
      rw [hl] at hle
      rcases h1 with h0 | h0
      · rw [Int.natAbs_eq_zero.mp h0, abs_zero, zero_mul, len, ofInt_zero]
        decide
      · exact fits_le (by omega) h0
    · rw [if_neg hl] at h1
      exact fits_le hle h1
  rcases le_or_gt 0 v with hv | hv
  · rwa [abs_of_nonneg hv] at habs
  · have := fits_neg (h2 hv)
    rwa [abs_of_neg hv, neg_mul, neg_neg] at this

lemma fits_mult (h : MultFits v w) : fits (len (v * w)) := by
  unfold MultFits at h
  by_cases hl : len w < len v
  · rw [if_pos hl] at h
    rw [mul_comm]
    exact fits_prod h
  · rw [if_neg hl] at h
    exact fits_prod h

lemma len_mono (hv : 0 ≤ v) (h : v ≤ w) : len v ≤ len w := by
  obtain ⟨m, hm, -, h4⟩ := len_bounds w
  have := base_pow_pos m
  rw [hm]
  exact len_le (by omega) (by omega)

lemma fits_rest (hv : fits (len v)) (hw : w ≠ 0) (h : MdivFits v w) : fits (len (rest v w)) := by
  have hnonneg : 0 ≤ |v| % |w| := Int.emod_nonneg _ (abs_ne_zero.mpr hw)
  have habs : fits (len (|v| % |w|)) := by
    have h1 : |v| % |w| ≤ |v| := by
      have := Int.emod_add_mul_ediv |v| |w|
      have := mul_nonneg (abs_nonneg w) (Int.ediv_nonneg (abs_nonneg v) (abs_nonneg w))
      omega
    exact fits_le ((len_mono hnonneg h1).trans (len_abs_le v)) hv
  rw [← rest_sign]
  by_cases hd : Differ v w
  · rw [if_pos hd]
    rcases le_or_gt |w| 128 with hs | hl
    · have hlt : |v| % |w| < |w| := Int.emod_lt_of_pos _ (abs_pos.mpr hw)
      refine fits_le (len_le (n := 1) ?_ ?_) (show fits (1 + 1) by decide)
      · simp only [BASE]
        push_cast
        omega
      · simp only [BASE]
        push_cast
        omega
    · exact fits_neg ((h.2 hl).2.1 hd)
  · rwa [if_neg hd]

/-! ### Euclid's algorithm with the remainders of `mdiv` -/

lemma natAbs_rest (v w : ℤ) : (rest v w).natAbs = v.natAbs % w.natAbs := by
  rw [← rest_sign, apply_ite Int.natAbs, Int.natAbs_neg, ite_self, Int.natAbs_emod_of_nonneg]
  · rw [Int.natAbs_abs, Int.natAbs_abs]
  · exact abs_nonneg v

lemma rest_lt (hw : w ≠ 0) : (rest v w).natAbs < w.natAbs := by
  rw [natAbs_rest]
  exact Nat.mod_lt _ (Int.natAbs_pos.mpr hw)

lemma rest_eq_zero : rest v w = 0 ↔ w ∣ v := by
  rw [← Int.natAbs_eq_zero, natAbs_rest, ← Int.natAbs_dvd_natAbs]
  exact (Nat.dvd_iff_mod_eq_zero ..).symm

/-- The last divisor. -/
def last (a b : ℤ) : ℤ := if _ : b = 0 then a else last b (rest a b)
termination_by b.natAbs
decreasing_by exact rest_lt ‹_›

/-- What the rows of the matrix contribute to the last one. -/
def cof (a b : ℤ) : ℤ × ℤ :=
  if _ : b = 0 then (1, 0)
  else ((cof b (rest a b)).2, (cof b (rest a b)).1 - a.tdiv b * (cof b (rest a b)).2)
termination_by b.natAbs
decreasing_by all_goals exact rest_lt ‹_›

lemma last_zero (a : ℤ) : last a 0 = a := by rw [last, dif_pos rfl]

lemma last_step {a b : ℤ} (hb : b ≠ 0) : last a b = last b (rest a b) := by
  rw [last, dif_neg hb]

lemma cof_zero (a : ℤ) : cof a 0 = (1, 0) := by rw [cof, dif_pos rfl]

lemma cof_step {a b : ℤ} (hb : b ≠ 0) :
    cof a b = ((cof b (rest a b)).2, (cof b (rest a b)).1 - a.tdiv b * (cof b (rest a b)).2) := by
  rw [cof, dif_neg hb]

/-- An induction along the algorithm. -/
lemma euclid {P : ℤ → ℤ → Prop} (h0 : ∀ a, P a 0)
    (h1 : ∀ a b, b ≠ 0 → P b (rest a b) → P a b) (a b : ℤ) : P a b := by
  induction hn : b.natAbs using Nat.strong_induction_on generalizing a b with
  | _ n ih =>
    by_cases hb : b = 0
    · rw [hb]
      exact h0 a
    · exact h1 a b hb (ih _ (hn ▸ rest_lt hb) b (rest a b) rfl)

lemma gcd_step (u d : ℕ) : Nat.gcd u d = Nat.gcd d (u % d) := by
  rw [Nat.gcd_comm u d, Nat.gcd_rec d u, Nat.gcd_comm]

lemma natAbs_last (a b : ℤ) : (last a b).natAbs = Nat.gcd a.natAbs b.natAbs := by
  refine euclid (P := fun a b => (last a b).natAbs = Nat.gcd a.natAbs b.natAbs) (fun a => ?_)
    (fun a b hb ih => ?_) a b
  · rw [last_zero]
    exact (Nat.gcd_zero_right _).symm
  · rw [last_step hb, ih, natAbs_rest, ← gcd_step]

/-! ### The sizes of the coefficients -/

section
variable {u d : ℕ}

/-- The absolute values of the coefficients where no sign is lost. -/
def mag (u v : ℕ) : ℕ × ℕ :=
  if _ : v = 0 then (1, 0) else ((mag v (u % v)).2, (mag v (u % v)).1 + u / v * (mag v (u % v)).2)
termination_by v
decreasing_by all_goals exact Nat.mod_lt _ (Nat.pos_of_ne_zero ‹_›)

lemma mag_step (hv : d ≠ 0) : mag u d =
    ((mag d (u % d)).2, (mag d (u % d)).1 + u / d * (mag d (u % d)).2) := by
  rw [mag, dif_neg hv]

lemma mag_dvd (hd : d ≠ 0) (h : d ∣ u) : mag u d = (0, 1) := by
  rw [mag_step hd, Nat.mod_eq_zero_of_dvd h, mag, dif_pos rfl]
  simp

lemma mag_bezout (u d : ℕ) : ((mag u d).1 : ℤ) * u - (mag u d).2 * d = Nat.gcd u d ∨
    ((mag u d).1 : ℤ) * u - (mag u d).2 * d = -(Nat.gcd u d : ℤ) := by
  induction d using Nat.strong_induction_on generalizing u with
  | _ d ih =>
    by_cases hd : d = 0
    · left
      rw [hd, mag, dif_pos rfl]
      simp
    · have h := ih (u % d) (Nat.mod_lt _ (Nat.pos_of_ne_zero hd)) d
      have hdiv : (u : ℤ) = d * (u / d : ℕ) + (u % d : ℕ) := by
        exact_mod_cast (Nat.div_add_mod u d).symm
      rw [mag_step hd, gcd_step u d]
      have heq : (((mag d (u % d)).2 : ℕ) : ℤ) * u -
          ((mag d (u % d)).1 + u / d * (mag d (u % d)).2 : ℕ) * d =
          -(((mag d (u % d)).1 : ℤ) * d - (mag d (u % d)).2 * (u % d : ℕ)) := by
        push_cast at hdiv ⊢
        linear_combination ((mag d (u % d)).2 : ℤ) * hdiv
      rw [heq]
      rcases h with h | h
      · right
        rw [h]
      · left
        rw [h, neg_neg]

lemma mag_bound (hd : d ≠ 0) (h : ¬d ∣ u) :
    2 * Nat.gcd u d * (mag u d).1 ≤ d ∧ 2 * Nat.gcd u d * (mag u d).2 ≤ u := by
  induction d using Nat.strong_induction_on generalizing u with
  | _ d ih =>
    have hw : u % d ≠ 0 := fun h0 => h (Nat.dvd_of_mod_eq_zero h0)
    have hlt : u % d < d := Nat.mod_lt _ (Nat.pos_of_ne_zero hd)
    have hdiv := Nat.div_add_mod u d
    rw [mag_step hd, gcd_step u d]
    dsimp only
    by_cases hdvd : u % d ∣ d
    · rw [mag_dvd hw hdvd, Nat.gcd_eq_right hdvd]
      obtain ⟨c, hc⟩ := hdvd
      have hc2 : 2 ≤ c := by
        by_contra hc1
        have : c = 0 ∨ c = 1 := by omega
        rcases this with rfl | rfl <;> omega
      have h1 : 2 * (u % d) ≤ d := by
        calc 2 * (u % d) = u % d * 2 := Nat.mul_comm ..
          _ ≤ u % d * c := Nat.mul_le_mul_left _ hc2
          _ = d := hc.symm
      refine ⟨by omega, ?_⟩
      calc 2 * (u % d) * (0 + u / d * 1) = u / d * (2 * (u % d)) := by ring
        _ ≤ u / d * d := Nat.mul_le_mul_left _ h1
        _ ≤ u := Nat.div_mul_le_self u d
    · obtain ⟨h1, h2⟩ := ih (u % d) hlt hw hdvd
      refine ⟨h2, ?_⟩
      calc 2 * Nat.gcd d (u % d) * ((mag d (u % d)).1 + u / d * (mag d (u % d)).2)
          = 2 * Nat.gcd d (u % d) * (mag d (u % d)).1 +
              u / d * (2 * Nat.gcd d (u % d) * (mag d (u % d)).2) := by ring
        _ ≤ u % d + u / d * d := Nat.add_le_add h1 (Nat.mul_le_mul_left _ h2)
        _ = u := by rw [Nat.mul_comm, Nat.add_comm]; exact hdiv

lemma mag_pos (hd : d ≠ 0) (h : ¬d ∣ u) : (mag u d).1 ≠ 0 := by
  intro h0
  have hb := mag_bezout u d
  rw [h0] at hb
  have hg : (Nat.gcd u d : ℤ) = (mag u d).2 * d := by
    have hn : (0 : ℤ) ≤ (mag u d).2 * d := by positivity
    rcases hb with hb | hb
    · have : (0 : ℤ) ≤ Nat.gcd u d := by positivity
      push_cast at hb
      linarith
    · push_cast at hb
      linarith
  have hdvd : d ∣ Nat.gcd u d := ⟨(mag u d).2, by rw [Nat.mul_comm]; exact_mod_cast hg⟩
  exact h (hdvd.trans (Nat.gcd_dvd_left u d))

end

lemma abs_tdiv (a b : ℤ) : |a.tdiv b| = (a.natAbs / b.natAbs : ℕ) := by
  rw [Int.abs_eq_natAbs, Int.natAbs_tdiv]
  rfl

lemma cof_le (a b : ℤ) : |(cof a b).1| ≤ (mag a.natAbs b.natAbs).1 ∧
    |(cof a b).2| ≤ (mag a.natAbs b.natAbs).2 := by
  refine euclid (P := fun a b => |(cof a b).1| ≤ (mag a.natAbs b.natAbs).1 ∧
    |(cof a b).2| ≤ (mag a.natAbs b.natAbs).2) (fun a => ?_) (fun a b hb ih => ?_) a b
  · rw [cof_zero, Int.natAbs_zero, mag, dif_pos rfl]
    simp
  · rw [natAbs_rest] at ih
    rw [cof_step hb, mag_step (Int.natAbs_ne_zero.mpr hb)]
    refine ⟨ih.2, ?_⟩
    calc |(cof b (rest a b)).1 - a.tdiv b * (cof b (rest a b)).2|
        ≤ |(cof b (rest a b)).1| + |a.tdiv b * (cof b (rest a b)).2| := abs_sub _ _
      _ = |(cof b (rest a b)).1| + |a.tdiv b| * |(cof b (rest a b)).2| := by rw [abs_mul]
      _ ≤ (mag b.natAbs (a.natAbs % b.natAbs)).1 + (a.natAbs / b.natAbs : ℕ) *
            (mag b.natAbs (a.natAbs % b.natAbs)).2 := by
          rw [abs_tdiv]
          exact add_le_add ih.1 (mul_le_mul_of_nonneg_left ih.2 (by positivity))
      _ = _ := by push_cast; rfl

/-- The coefficients of two pairs that come to the gcd up to the sign cannot be opposite. -/
lemma opposite {u d g p q a b e f : ℤ} (hg : 0 < g) (he : e = 1 ∨ e = -1) (hf : f = 1 ∨ f = -1)
    (h1 : p * u - q * d = e * g) (h2 : a * u + b * d = f * g) (ha : |a| ≤ p) (hb : |b| ≤ q)
    (h3 : 2 * p ≤ f * p - e * a) (h4 : 2 * q ≤ f * q + e * b) : False := by
  have ha1 := abs_le.mp ha
  have hb1 := abs_le.mp hb
  rcases hf with rfl | rfl
  · obtain rfl : a = -e * p := by rcases he with rfl | rfl <;> omega
    obtain rfl : b = e * q := by rcases he with rfl | rfl <;> omega
    have : g = -(e * e) * g := by linear_combination -h2 - e * h1
    rcases he with rfl | rfl <;> omega
  · obtain rfl : p = 0 := by rcases he with rfl | rfl <;> omega
    obtain rfl : q = 0 := by rcases he with rfl | rfl <;> omega
    rcases he with rfl | rfl <;> omega

/-- Two pairs of coefficients that come to the gcd up to the sign, the first being small enough:
the second is not smaller, and has its signs. -/
lemma cofactors_unique {u d g p q a b e f : ℤ} (hg : 0 < g) (he : e = 1 ∨ e = -1)
    (hf : f = 1 ∨ f = -1) (hd : 0 < d) (hp : 2 * g * p ≤ d) (hq : 2 * g * q ≤ u)
    (ha : |a| ≤ p) (hb : |b| ≤ q) (h1 : p * u - q * d = e * g) (h2 : a * u + b * d = f * g) :
    |a| = p ∧ |b| = q ∧ a * b ≤ 0 := by
  have ha1 := abs_le.mp ha
  have hb1 := abs_le.mp hb
  have hd1 : d * (p * b + a * q) = g * (f * p - e * a) := by linear_combination p * h2 - a * h1
  have hu1 : u * (p * b + a * q) = g * (f * q + e * b) := by linear_combination q * h2 + b * h1
  have hbound : |f * p - e * a| ≤ 2 * p := by
    rw [abs_le]
    rcases he with rfl | rfl <;> rcases hf with rfl | rfl <;> omega
  -- the determinant of the two pairs is at most one
  have hdet : |p * b + a * q| ≤ 1 := by
    have h3 : d * |p * b + a * q| ≤ d * 1 := by
      calc d * |p * b + a * q| = g * |f * p - e * a| := by
            rw [← abs_of_pos hd, ← abs_mul, hd1, abs_mul, abs_of_pos hg]
        _ ≤ g * (2 * p) := mul_le_mul_of_nonneg_left hbound hg.le
        _ = 2 * g * p := by ring
        _ ≤ d * 1 := by rwa [mul_one]
    exact le_of_mul_le_mul_left h3 hd
  obtain h0 | h0 | h0 : p * b + a * q = 0 ∨ p * b + a * q = 1 ∨ p * b + a * q = -1 := by
    rw [abs_le] at hdet
    omega
  · -- the pairs agree up to the sign
    rw [h0, mul_zero] at hd1 hu1
    have h3 : f * p - e * a = 0 := (mul_eq_zero.mp hd1.symm).resolve_left hg.ne'
    have h4 : f * q + e * b = 0 := (mul_eq_zero.mp hu1.symm).resolve_left hg.ne'
    obtain ⟨h5, h6⟩ | ⟨h5, h6⟩ : (a = p ∧ b = -q) ∨ (a = -p ∧ b = q) := by
      rcases he with rfl | rfl <;> rcases hf with rfl | rfl <;> omega
    · rw [h5, h6, abs_neg, abs_of_nonneg (by omega), abs_of_nonneg (by omega)]
      exact ⟨rfl, rfl, by nlinarith⟩
    · rw [h5, h6, abs_neg, abs_of_nonneg (by omega), abs_of_nonneg (by omega)]
      exact ⟨rfl, rfl, by nlinarith⟩
  · rw [h0, mul_one] at hd1 hu1
    have h3 : 2 * p ≤ f * p - e * a := le_of_mul_le_mul_left (by linarith) hg
    have h4 : 2 * q ≤ f * q + e * b := le_of_mul_le_mul_left (by linarith) hg
    exact (opposite hg he hf h1 h2 ha hb h3 h4).elim
  · rw [h0] at hd1 hu1
    have h3 : 2 * p ≤ -f * p - e * -a := le_of_mul_le_mul_left (by linarith) hg
    have h4 : 2 * q ≤ -f * q + e * -b := le_of_mul_le_mul_left (by linarith) hg
    exact (opposite hg he (by omega) h1 (by linear_combination -h2) (by rwa [abs_neg])
      (by rwa [abs_neg]) h3 h4).elim

/-! ### The coefficients after a wrong sign -/

lemma mul_nonpos_of_abs {x y : ℤ} (h : |x| + |y| ≤ |x - y|) : x * y ≤ 0 := by
  by_contra hc
  rcases pos_and_pos_or_neg_and_neg_of_mul_pos (not_le.mp hc) with ⟨h1, h2⟩ | ⟨h1, h2⟩
  · rw [abs_of_pos h1, abs_of_pos h2] at h
    rcases abs_cases (x - y) with h3 | h3 <;> omega
  · rw [abs_of_neg h1, abs_of_neg h2] at h
    rcases abs_cases (x - y) with h3 | h3 <;> omega

lemma abs_eq_gcd (a b : ℤ) : last a b = 1 * (Nat.gcd a.natAbs b.natAbs : ℕ) ∨
    last a b = -1 * (Nat.gcd a.natAbs b.natAbs : ℕ) := by
  rw [← natAbs_last, one_mul, neg_one_mul]
  exact Int.natAbs_eq _

/-- **A wrong sign stays.** With the last row negated, the coefficients do not come to the last
divisor. -/
lemma flip_ne {y z : ℤ} (hz : z ≠ 0) (hlt : z.natAbs < y.natAbs) :
    (cof y z).1 * y - (cof y z).2 * z ≠ last y z := by
  intro h
  by_cases hdvd : z ∣ y
  · rw [cof_step hz, last_step hz, rest_eq_zero.mpr hdvd, cof_zero, last_zero] at h
    simp only [mul_zero, sub_zero, zero_mul, one_mul, zero_sub] at h
    omega
  have hy : y ≠ 0 := by omega
  have hdvd' : ¬z.natAbs ∣ y.natAbs := fun h => hdvd (Int.natAbs_dvd_natAbs.mp h)
  have hd0 : z.natAbs ≠ 0 := Int.natAbs_ne_zero.mpr hz
  set α := (cof y z).1 with hα
  set β := (cof y z).2 with hβ
  obtain ⟨hle1, hle2⟩ := cof_le y z
  obtain ⟨hb1, hb2⟩ := mag_bound hd0 hdvd'
  set p := (mag y.natAbs z.natAbs).1 with hp
  set q := (mag y.natAbs z.natAbs).2 with hq
  set g := Nat.gcd y.natAbs z.natAbs with hg
  have hg0 : (0 : ℤ) < g := by exact_mod_cast Nat.gcd_pos_of_pos_right _ (Nat.pos_of_ne_zero hd0)
  have habs : ∀ c x : ℤ, x ≠ 0 → |c * x.sign| = |c| := fun c x hx => by
    rw [abs_mul, Int.abs_sign_of_ne_zero hx, mul_one]
  -- the pair of absolute values, and the pair at hand
  obtain ⟨e, he, hbez⟩ : ∃ e : ℤ, (e = 1 ∨ e = -1) ∧ (p : ℤ) * y.natAbs - q * z.natAbs = e * g := by
    rcases mag_bezout y.natAbs z.natAbs with h1 | h1
    · exact ⟨1, Or.inl rfl, by rw [one_mul]; exact h1⟩
    · exact ⟨-1, Or.inr rfl, by rw [neg_one_mul]; exact h1⟩
  obtain ⟨f, hf, hlast⟩ : ∃ f : ℤ, (f = 1 ∨ f = -1) ∧ last y z = f * g := by
    rcases abs_eq_gcd y z with h1 | h1
    · exact ⟨1, Or.inl rfl, h1⟩
    · exact ⟨-1, Or.inr rfl, h1⟩
  have hpair : α * y.sign * y.natAbs + -(β * z.sign) * z.natAbs = f * g := by
    rw [← hlast, ← h]
    linear_combination α * Int.sign_mul_natAbs y - β * Int.sign_mul_natAbs z
  obtain ⟨h1, h2, h3⟩ := cofactors_unique hg0 he hf (by omega) (by exact_mod_cast hb1)
    (by exact_mod_cast hb2) (by rw [habs _ _ hy]; exact hle1)
    (by rw [abs_neg, habs _ _ hz]; exact hle2) hbez hpair
  rw [habs _ _ hy] at h1
  rw [abs_neg, habs _ _ hz] at h2
  -- no sign is lost one step further down
  set c := cof z (rest y z) with hc
  have hα' : α = c.2 := by rw [hα, cof_step hz]
  have hβ' : β = c.1 - y.tdiv z * c.2 := by rw [hβ, cof_step hz]
  have hsub : c.1 * (y.tdiv z * c.2) ≤ 0 := by
    refine mul_nonpos_of_abs ?_
    obtain ⟨k1, k2⟩ := cof_le z (rest y z)
    rw [natAbs_rest] at k1 k2
    have hq' : (q : ℤ) = (mag z.natAbs (y.natAbs % z.natAbs)).1 +
        |y.tdiv z| * (mag z.natAbs (y.natAbs % z.natAbs)).2 := by
      rw [hq, mag_step hd0, abs_tdiv, Nat.cast_add, Nat.cast_mul]
    rw [← hβ', h2, hq', abs_mul]
    exact add_le_add k1 (mul_le_mul_of_nonneg_left k2 (abs_nonneg _))
  have hquot : 0 < y.tdiv z * (y * z) := by
    have hr : |y.tmod z| < |y| := by
      rw [Int.abs_eq_natAbs, Int.abs_eq_natAbs, Int.natAbs_tmod]
      have := Nat.mod_lt y.natAbs (Nat.pos_of_ne_zero hd0)
      omega
    have hmul : y * y.tmod z < y * y := by
      calc y * y.tmod z ≤ |y * y.tmod z| := le_abs_self _
        _ = |y| * |y.tmod z| := abs_mul ..
        _ < |y| * |y| := mul_lt_mul_of_pos_left hr (abs_pos.mpr hy)
        _ = y * y := abs_mul_abs_self y
    have := Int.mul_tdiv_add_tmod y z
    calc 0 < y * y - y * y.tmod z := by omega
      _ = y.tdiv z * (y * z) := by linear_combination -y * this
  have hsign : 0 ≤ c.2 * (c.1 - y.tdiv z * c.2) * (y * z) := by
    have h4 : 0 ≤ -(α * y.sign * -(β * z.sign)) * ((y.natAbs : ℤ) * z.natAbs) :=
      mul_nonneg (by omega) (by positivity)
    rw [← hβ', ← hα']
    calc 0 ≤ _ := h4
      _ = α * β * (y.sign * y.natAbs) * (z.sign * z.natAbs) := by ring
      _ = α * β * (y * z) := by rw [Int.sign_mul_natAbs, Int.sign_mul_natAbs]; ring
  have hzero : c.2 = 0 := by
    by_contra hne
    have h4 : 0 < y.tdiv z * (y * z) * (c.2 * c.2) := mul_pos hquot (mul_self_pos.mpr hne)
    have h5 : 0 < c.1 * c.2 * (y * z) := by linarith
    have hq0 : y.tdiv z ≠ 0 := fun h0 => by rw [h0, zero_mul] at hquot; exact lt_irrefl _ hquot
    have h6 : 0 < y.tdiv z * y.tdiv z * (c.1 * c.2 * (y * z)) :=
      mul_pos (mul_self_pos.mpr hq0) h5
    have h7 : c.1 * (y.tdiv z * c.2) * (y.tdiv z * (y * z)) ≤ 0 :=
      mul_nonpos_of_nonpos_of_nonneg hsub hquot.le
    linarith
  refine mag_pos hd0 hdvd' ?_
  rw [hα', hzero, abs_zero] at h1
  exact_mod_cast h1.symm

/-- Where `xgcd` gives coefficients for its last divisor: nothing is divided by a negative number
but in the division that comes out even. -/
def SignsKept (a b : ℤ) : Prop :=
  b = 0 ∨ b ∣ a ∨ (0 ≤ a ∧ 0 < b) ∨ (a < 0 ∧ 0 < b ∧ a.tmod b ∣ b)

instance (a b : ℤ) : Decidable (SignsKept a b) := inferInstanceAs (Decidable (_ ∨ _))

lemma rest_pos {a b : ℤ} (hb : 0 < b) : rest a b = a.tmod b := if_neg (by omega)

/-- One division, with the sign of its remainder. -/
lemma cof_row {a b : ℤ} (hb : b ≠ 0) : (cof a b).1 * a + (cof a b).2 * b =
    (cof b (rest a b)).1 * b + (cof b (rest a b)).2 * a.tmod b := by
  rw [cof_step hb]
  linear_combination -(cof b (rest a b)).2 * Int.mul_tdiv_add_tmod a b

lemma cof_dvd {a b : ℤ} (h : b ∣ a) : (cof a b).1 * a + (cof a b).2 * b = last a b := by
  by_cases hb : b = 0
  · rw [hb, cof_zero, last_zero]
    ring
  · rw [cof_row hb, last_step hb, rest_eq_zero.mpr h, cof_zero, last_zero]
    ring

lemma cof_nonneg {a b : ℤ} (ha : 0 ≤ a) (hb : 0 ≤ b) :
    (cof a b).1 * a + (cof a b).2 * b = last a b := by
  refine euclid (P := fun a b => 0 ≤ a → 0 ≤ b → (cof a b).1 * a + (cof a b).2 * b = last a b)
    (fun a _ _ => ?_) (fun a b hb ih h1 h2 => ?_) a b ha hb
  · rw [cof_zero, last_zero]
    ring
  · have hpos : 0 < b := by omega
    rw [cof_row hb, last_step hb, ← rest_pos hpos]
    exact ih h2 (by rw [rest_pos hpos]; exact Int.tmod_nonneg b h1)

lemma cof_neg {a b : ℤ} (hb : b < 0) (h : ¬b ∣ a) :
    (cof a b).1 * a + (cof a b).2 * b ≠ last a b := by
  have h0 : rest a b ≠ 0 := fun h' => h (rest_eq_zero.mp h')
  have hr : a.tmod b = -rest a b := by rw [rest, if_pos hb, neg_neg]
  rw [cof_row hb.ne, last_step hb.ne, hr, mul_neg, ← sub_eq_add_neg]
  exact flip_ne h0 (rest_lt hb.ne)

/-- **Bezout.** -/
lemma cof_iff (a b : ℤ) : (cof a b).1 * a + (cof a b).2 * b = last a b ↔ SignsKept a b := by
  by_cases hdvd : b ∣ a
  · exact ⟨fun _ => Or.inr (Or.inl hdvd), fun _ => cof_dvd hdvd⟩
  by_cases hb0 : b = 0
  · refine ⟨fun _ => Or.inl hb0, fun _ => ?_⟩
    rw [hb0, cof_zero, last_zero]
    ring
  rcases lt_or_ge b 0 with hb | hb
  · refine ⟨fun h => absurd h (cof_neg hb hdvd), ?_⟩
    rintro (h | h | h | h) <;> omega
  have hpos : 0 < b := by omega
  rcases le_or_gt 0 a with ha | ha
  · exact ⟨fun _ => Or.inr (Or.inr (Or.inl ⟨ha, hpos⟩)), fun _ => cof_nonneg ha hb⟩
  -- the first division is right, and its remainder negative
  have hr0 : a.tmod b ≠ 0 := fun h => hdvd (Int.dvd_of_tmod_eq_zero h)
  have hr : a.tmod b < 0 := by
    have := Int.tmod_nonneg b (show 0 ≤ -a by omega)
    rw [Int.neg_tmod] at this
    omega
  rw [cof_row hb0, last_step hb0, rest_pos hpos]
  constructor
  · intro h
    refine Or.inr (Or.inr (Or.inr ⟨ha, hpos, ?_⟩))
    by_contra hc
    exact cof_neg hr hc h
  · rintro (h | h | h | h)
    · omega
    · exact absurd h hdvd
    · omega
    · exact cof_dvd h.2.2

/-! ### The routines -/

/-- The names of the local mints of `gcd` and `xgcd`. -/
inductive Xname
  | a | b | quot | t1 | r1 | s1 | t | u
  deriving DecidableEq

instance (a : List ℕ) : Decidable (zerop a) := inferInstanceAs (Decidable (_ ∧ _))

/-- The pointers exchanged at the end of a turn. -/
def xswap (s : Xname → List ℕ) : Xname → List ℕ
  | .a => s .b
  | .b => s .a
  | .r1 => s .t
  | .t => s .r1
  | .s1 => s .u
  | .u => s .s1
  | k => s k

/-- The loop of `xgcd`, with the number of its turns bounded. -/
def xgcdLoop : ℕ → (Xname → List ℕ) → Option (Xname → List ℕ)
  | 0, _ => none
  | fuel + 1, s =>
    if zerop (s .b) then some s
    else do
      let s ← mdiv s .a .b .quot .a
      let s ← mult s .quot .t .t1
      let s ← msub s .r1 .t1 .r1
      let s ← mult s .quot .u .t1
      let s ← msub s .s1 .t1 .s1
      xgcdLoop fuel (xswap s)

/-- The copies of the arguments and the rows of the matrix. -/
def xstart (a b : List ℕ) : Xname → List ℕ
  | .a => a
  | .b => b
  | .r1 => mitom 1
  | .s1 => mitom 0
  | .t => mitom 0
  | .u => mitom 1
  | _ => []

def xgcd (fuel : ℕ) (s : V → List ℕ) (a b r t g : V) : Option (V → List ℕ) := do
  let x ← xgcdLoop fuel (xstart (s a) (s b))
  some (Function.update (Function.update (Function.update s g (x .a)) r (x .r1)) t (x .s1))

/-- The loop of `gcd`. -/
def gcdLoop : ℕ → (Xname → List ℕ) → Option (Xname → List ℕ)
  | 0, _ => none
  | fuel + 1, s =>
    if zerop (s .b) then some s
    else do
      let s ← mdiv s .a .b .quot .a
      gcdLoop fuel (xswap s)

def gcd (fuel : ℕ) (s : V → List ℕ) (a b c : V) : Option (V → List ℕ) := do
  let x ← gcdLoop fuel (xstart (s a) (s b))
  some (Function.update s c (x .a))

/-! ### The loops -/

lemma msub_eq (s : V → List ℕ) (a b c : V) (ha : Normal BASE (s a)) (hb : Normal BASE (s b))
    (h : NegFits (value BASE (s b)) ∧ SumFits (value BASE (s a)) (-value BASE (s b))) :
    msub s a b c =
      some (Function.update s c (ofInt BASE (value BASE (s a) - value BASE (s b)))) :=
  (msub_iff s a b c ha hb).mpr h

lemma isMint_int (h : fits (len v)) : IsMint (ofInt BASE v) := ⟨normal_int v, h⟩

/-- The blocks of all divisions have lengths. -/
def GcdFits (a b : ℤ) : Prop := if _ : b = 0 then True else MdivFits a b ∧ GcdFits b (rest a b)
termination_by b.natAbs
decreasing_by exact rest_lt ‹_›

/-- The blocks of all operations have lengths, for the row `r, s` above and the row `t, u`
below. -/
def XgcdFits (a b r s t u : ℤ) : Prop :=
  if _ : b = 0 then True
  else MdivFits a b ∧
    (MultFits (a.tdiv b) t ∧ NegFits (a.tdiv b * t) ∧ SumFits r (-(a.tdiv b * t))) ∧
    (MultFits (a.tdiv b) u ∧ NegFits (a.tdiv b * u) ∧ SumFits s (-(a.tdiv b * u))) ∧
    XgcdFits b (rest a b) t u (r - a.tdiv b * t) (s - a.tdiv b * u)
termination_by b.natAbs
decreasing_by exact rest_lt ‹_›

/-- The local mints hold these numbers. -/
structure Holds (x : Xname → List ℕ) (a b r s t u : ℤ) : Prop where
  a : x .a = ofInt BASE a
  b : x .b = ofInt BASE b
  r1 : x .r1 = ofInt BASE r
  s1 : x .s1 = ofInt BASE s
  t : x .t = ofInt BASE t
  u : x .u = ofInt BASE u

/-- **A turn** of `xgcd`. -/
lemma xgcd_turn {x : Xname → List ℕ} {a b r s t u : ℤ} (hx : Holds x a b r s t u) (hb : b ≠ 0)
    (ha : fits (len a)) (hbf : fits (len b)) (hf : XgcdFits a b r s t u) (fuel : ℕ) :
    ∃ x', xgcdLoop (fuel + 1) x = xgcdLoop fuel x' ∧
      Holds x' b (rest a b) t u (r - a.tdiv b * t) (s - a.tdiv b * u) := by
  rw [XgcdFits, dif_neg hb] at hf
  obtain ⟨hf1, ⟨hf2, hf3⟩, ⟨hf4, hf5⟩, -⟩ := hf
  have hz : ¬zerop (x .b) := by
    rw [hx.b, zerop_iff (normal_int b), value_int]
    exact hb
  have hdiv := mdiv_eq x .a .b .quot .a (hx.a ▸ isMint_int ha) (hx.b ▸ isMint_int hbf)
    (by rw [hx.b, value_int]; exact hb) (by rw [hx.a, hx.b, value_int, value_int]; exact hf1)
  rw [hx.a, hx.b, value_int, value_int] at hdiv
  set x1 := Function.update (Function.update x .quot (ofInt BASE (a.tdiv b))) .a
    (ofInt BASE (rest a b)) with hx1
  have hm1 : mult x1 .quot .t .t1 =
      some (Function.update x1 .t1 (ofInt BASE (a.tdiv b * t))) := by
    have h1 : x1 .quot = ofInt BASE (a.tdiv b) := rfl
    have h2 : x1 .t = ofInt BASE t := hx.t
    rw [mult_eq x1 .quot .t .t1 (by rw [h1]; exact normal_int _) (by rw [h2]; exact normal_int _),
      h1, h2, value_int, value_int, if_pos hf2]
  set x2 := Function.update x1 .t1 (ofInt BASE (a.tdiv b * t)) with hx2
  have hs1 : msub x2 .r1 .t1 .r1 =
      some (Function.update x2 .r1 (ofInt BASE (r - a.tdiv b * t))) := by
    have h1 : x2 .r1 = ofInt BASE r := hx.r1
    have h2 : x2 .t1 = ofInt BASE (a.tdiv b * t) := rfl
    rw [msub_eq x2 .r1 .t1 .r1 (by rw [h1]; exact normal_int _) (by rw [h2]; exact normal_int _)
      (by rw [h1, h2, value_int, value_int]; exact hf3), h1, h2, value_int, value_int]
  set x3 := Function.update x2 .r1 (ofInt BASE (r - a.tdiv b * t)) with hx3
  have hm2 : mult x3 .quot .u .t1 =
      some (Function.update x3 .t1 (ofInt BASE (a.tdiv b * u))) := by
    have h1 : x3 .quot = ofInt BASE (a.tdiv b) := rfl
    have h2 : x3 .u = ofInt BASE u := hx.u
    rw [mult_eq x3 .quot .u .t1 (by rw [h1]; exact normal_int _) (by rw [h2]; exact normal_int _),
      h1, h2, value_int, value_int, if_pos hf4]
  set x4 := Function.update x3 .t1 (ofInt BASE (a.tdiv b * u)) with hx4
  have hs2 : msub x4 .s1 .t1 .s1 =
      some (Function.update x4 .s1 (ofInt BASE (s - a.tdiv b * u))) := by
    have h1 : x4 .s1 = ofInt BASE s := hx.s1
    have h2 : x4 .t1 = ofInt BASE (a.tdiv b * u) := rfl
    rw [msub_eq x4 .s1 .t1 .s1 (by rw [h1]; exact normal_int _) (by rw [h2]; exact normal_int _)
      (by rw [h1, h2, value_int, value_int]; exact hf5), h1, h2, value_int, value_int]
  refine ⟨xswap (Function.update x4 .s1 (ofInt BASE (s - a.tdiv b * u))), ?_,
    ⟨hx.b, rfl, hx.t, hx.u, rfl, rfl⟩⟩
  rw [xgcdLoop, if_neg hz, Option.bind_eq_bind, hdiv, Option.bind_some]
  rw [hm1, Option.bind_some, hs1, Option.bind_some, hm2, Option.bind_some, hs2, Option.bind_some]

/-- **The loop of `xgcd`.** -/
lemma xgcdLoop_eq {x : Xname → List ℕ} {a b r s t u : ℤ} {fuel : ℕ} (hx : Holds x a b r s t u)
    (ha : fits (len a)) (hbf : fits (len b)) (hf : XgcdFits a b r s t u) (hn : b.natAbs < fuel) :
    ∃ x', xgcdLoop fuel x = some x' ∧ x' .a = ofInt BASE (last a b) ∧
      x' .r1 = ofInt BASE ((cof a b).1 * r + (cof a b).2 * t) ∧
      x' .s1 = ofInt BASE ((cof a b).1 * s + (cof a b).2 * u) := by
  induction fuel generalizing x a b r s t u with
  | zero => omega
  | succ fuel ih =>
    by_cases hb : b = 0
    · refine ⟨x, ?_, ?_, ?_, ?_⟩
      · rw [xgcdLoop, if_pos]
        rw [hx.b, zerop_iff (normal_int b), value_int]
        exact hb
      · rw [hx.a, hb, last_zero]
      · rw [hx.r1, hb, cof_zero, one_mul, zero_mul, add_zero]
      · rw [hx.s1, hb, cof_zero, one_mul, zero_mul, add_zero]
    · obtain ⟨x1, h1, h2⟩ := xgcd_turn hx hb ha hbf hf fuel
      rw [XgcdFits, dif_neg hb] at hf
      obtain ⟨hf1, -, -, hf2⟩ := hf
      have := rest_lt (v := a) hb
      obtain ⟨x', h3, h4, h5, h6⟩ := ih h2 hbf (fits_rest ha hb hf1) hf2 (by omega)
      refine ⟨x', h1.trans h3, ?_, ?_, ?_⟩
      · rw [h4, last_step hb]
      · rw [h5, cof_step hb]
        congr 1
        ring
      · rw [h6, cof_step hb]
        congr 1
        ring

/-- **The loop of `gcd`.** -/
lemma gcdLoop_eq {x : Xname → List ℕ} {a b : ℤ} {fuel : ℕ} (hxa : x .a = ofInt BASE a)
    (hxb : x .b = ofInt BASE b) (ha : fits (len a)) (hbf : fits (len b)) (hf : GcdFits a b)
    (hn : b.natAbs < fuel) :
    ∃ x', gcdLoop fuel x = some x' ∧ x' .a = ofInt BASE (last a b) := by
  induction fuel generalizing x a b with
  | zero => omega
  | succ fuel ih =>
    have hz : zerop (x .b) ↔ b = 0 := by rw [hxb, zerop_iff (normal_int b), value_int]
    by_cases hb : b = 0
    · refine ⟨x, ?_, ?_⟩
      · rw [gcdLoop, if_pos (hz.mpr hb)]
      · rw [hxa, hb, last_zero]
    · rw [GcdFits, dif_neg hb] at hf
      have hdiv := mdiv_eq x .a .b .quot .a (hxa ▸ isMint_int ha) (hxb ▸ isMint_int hbf)
        (by rw [hxb, value_int]; exact hb) (by rw [hxa, hxb, value_int, value_int]; exact hf.1)
      rw [hxa, hxb, value_int, value_int] at hdiv
      have := rest_lt (v := a) hb
      obtain ⟨x', h1, h2⟩ := ih (x := xswap (Function.update (Function.update x .quot
        (ofInt BASE (a.tdiv b))) .a (ofInt BASE (rest a b)))) (a := b) (b := rest a b) hxb rfl hbf
        (fits_rest ha hb hf.1) hf.2 (by omega)
      refine ⟨x', ?_, by rw [h2, last_step hb]⟩
      rw [gcdLoop, if_neg (mt hz.mp hb), Option.bind_eq_bind, hdiv, Option.bind_some, h1]

/-- Where `xgcd` fits, so does `gcd`. -/
lemma XgcdFits.gcd {a b r s t u : ℤ} (h : XgcdFits a b r s t u) : GcdFits a b := by
  induction hn : b.natAbs using Nat.strong_induction_on generalizing a b r s t u with
  | _ n ih =>
    rw [GcdFits]
    rw [XgcdFits] at h
    by_cases hb : b = 0
    · rw [dif_pos hb]
      trivial
    · rw [dif_neg hb] at h ⊢
      exact ⟨h.1, ih _ (hn ▸ rest_lt hb) h.2.2.2 rfl⟩

/-! ### Powers with a modulus -/

/-- The names of the local mints of `pow`, and of its arguments. -/
inductive Pname
  | a | m | al | bl | cl | quot
  deriving DecidableEq

/-- The loop of `pow`. -/
def powLoop : ℕ → (Pname → List ℕ) → Option (Pname → List ℕ)
  | 0, _ => none
  | fuel + 1, s =>
    if zerop (s .bl) then some s
    else do
      let s ← mult s .al .al .al
      let s ← mdiv s .al .m .quot .al
      let (s, rem) ← sdiv s .bl 2 .bl
      let s ← (if rem ≠ 0 then do
          let s ← mult s .cl .al .cl
          mdiv s .cl .m .quot .cl
        else some s)
      powLoop fuel s

/-- The modulus, and what is copied. -/
def pstart (a b m : List ℕ) : Pname → List ℕ
  | .a => a
  | .m => m
  | .bl => b
  | _ => []

/-- `pow`: the mint `c` is given `a` to the power `b`, reduced by `m`. -/
def pow (fuel : ℕ) (s : V → List ℕ) (a b m c : V) : Option (V → List ℕ) :=
  if ispos (s b) then do
    let x ← mdiv (pstart (s a) (s b) (s m)) .a .m .quot .al
    let (x, rem) ← sdiv x .bl 2 .bl
    let x := Function.update x .cl (if rem ≠ 0 then x .al else [1])
    let x ← powLoop fuel x
    some (Function.update s c (x .cl))
  else none

/-- The blocks of the loop have lengths: `x` is the square, `n` what is left of the exponent and
`c` the result so far. -/
def PowModFits (m x c : ℤ) (n : ℕ) : Prop :=
  if n = 0 then True
  else MultFits x x ∧ MdivFits (x * x) m ∧
    (n % 2 ≠ 0 → MultFits c (rest (x * x) m) ∧ MdivFits (c * rest (x * x) m) m) ∧
    PowModFits m (rest (x * x) m) (if n % 2 ≠ 0 then rest (c * rest (x * x) m) m else c) (n / 2)
termination_by n

/-- The result of the loop. -/
def powRest (m x c : ℤ) (n : ℕ) : ℤ :=
  if n = 0 then c
  else powRest m (rest (x * x) m) (if n % 2 ≠ 0 then rest (c * rest (x * x) m) m else c) (n / 2)
termination_by n

lemma sdiv_two {s : Pname → List ℕ} {k : Pname} {n : ℕ} (hs : s k = ofInt BASE n)
    (hf : fits (len n)) :
    sdiv s k 2 k = some (Function.update s k (ofInt BASE (n / 2 : ℕ)), ((n % 2 : ℕ) : ℤ)) := by
  have hd : SdivFits (n : ℤ) 2 := fun h => by
    rw [differ_iff] at h
    omega
  rw [sdiv_eq s k k (hs ▸ isMint_int hf) (by decide) (by decide), hs, value_int,
    if_pos hd, rest, if_neg (by decide), Int.tmod_eq_emod_of_nonneg (by omega),
    Int.tdiv_eq_ediv_of_nonneg (by omega)]
  rfl

lemma powLoop_eq {s : Pname → List ℕ} {m x c : ℤ} {n fuel : ℕ} (hm : m ≠ 0) (hmf : fits (len m))
    (hsm : s .m = ofInt BASE m) (hsx : s .al = ofInt BASE x) (hsc : s .cl = ofInt BASE c)
    (hsn : s .bl = ofInt BASE n) (hnf : fits (len n)) (hf : PowModFits m x c n) (hn : n < fuel) :
    ∃ s', powLoop fuel s = some s' ∧ s' .cl = ofInt BASE (powRest m x c n) := by
  induction fuel generalizing s x c n with
  | zero => omega
  | succ fuel ih =>
    have hz : zerop (s .bl) ↔ n = 0 := by
      rw [hsn, zerop_iff (normal_int _), value_int]
      exact Int.natCast_eq_zero
    by_cases h0 : n = 0
    · refine ⟨s, ?_, ?_⟩
      · rw [powLoop, if_pos (hz.mpr h0)]
      · rw [hsc, powRest, if_pos h0]
    rw [PowModFits, if_neg h0] at hf
    obtain ⟨hf1, hf2, hf3, hf4⟩ := hf
    rw [powRest, if_neg h0]
    have h1 : mult s .al .al .al = some (Function.update s .al (ofInt BASE (x * x))) := by
      rw [mult_eq s .al .al .al (by rw [hsx]; exact normal_int _) (by rw [hsx]; exact normal_int _),
        hsx, value_int, if_pos hf1]
    set s1 := Function.update s .al (ofInt BASE (x * x)) with hs1
    have h2 : mdiv s1 .al .m .quot .al = some (Function.update (Function.update s1 .quot
        (ofInt BASE ((x * x).tdiv m))) .al (ofInt BASE (rest (x * x) m))) := by
      have e1 : s1 .al = ofInt BASE (x * x) := rfl
      have e2 : s1 .m = ofInt BASE m := hsm
      have := mdiv_eq s1 .al .m .quot .al (e1 ▸ isMint_int (fits_mult hf1)) (e2 ▸ isMint_int hmf)
        (by rw [e2, value_int]; exact hm) (by rw [e1, e2, value_int, value_int]; exact hf2)
      rwa [e1, e2, value_int, value_int] at this
    set s2 := Function.update (Function.update s1 .quot (ofInt BASE ((x * x).tdiv m))) .al
      (ofInt BASE (rest (x * x) m)) with hs2
    have h3 : sdiv s2 .bl 2 .bl =
        some (Function.update s2 .bl (ofInt BASE (n / 2 : ℕ)), ((n % 2 : ℕ) : ℤ)) :=
      sdiv_two (s := s2) hsn hnf
    set s3 := Function.update s2 .bl (ofInt BASE (n / 2 : ℕ)) with hs3
    -- the factor for a bit that is set
    have h4 : ∃ s4, (if ((n % 2 : ℕ) : ℤ) ≠ 0 then (mult s3 .cl .al .cl).bind fun s =>
          mdiv s .cl .m .quot .cl else some s3) = some s4 ∧
        s4 .m = ofInt BASE m ∧ s4 .al = ofInt BASE (rest (x * x) m) ∧
        s4 .cl = ofInt BASE (if n % 2 ≠ 0 then rest (c * rest (x * x) m) m else c) ∧
        s4 .bl = ofInt BASE (n / 2 : ℕ) := by
      by_cases hb : n % 2 ≠ 0
      · obtain ⟨hf5, hf6⟩ := hf3 hb
        rw [if_pos (by omega), if_pos hb]
        have e1 : s3 .cl = ofInt BASE c := hsc
        have e2 : s3 .al = ofInt BASE (rest (x * x) m) := rfl
        have e3 : s3 .m = ofInt BASE m := hsm
        rw [mult_eq s3 .cl .al .cl (by rw [e1]; exact normal_int _)
            (by rw [e2]; exact normal_int _), e1, e2, value_int, value_int, if_pos hf5, Option.bind_some]
        have := mdiv_eq (Function.update s3 .cl (ofInt BASE (c * rest (x * x) m))) .cl .m .quot .cl
          (isMint_int (fits_mult hf5))
          (by
            change IsMint (s3 .m)
            rw [e3]
            exact isMint_int hmf)
          (by
            change value BASE (s3 .m) ≠ 0
            rw [e3, value_int]
            exact hm)
          (by
            change MdivFits (value BASE (ofInt BASE (c * rest (x * x) m))) (value BASE (s3 .m))
            rw [e3, value_int, value_int]
            exact hf6)
        refine ⟨_, this, e3, e2, ?_, rfl⟩
        change ofInt BASE (rest (value BASE (ofInt BASE (c * rest (x * x) m))) (value BASE (s3 .m)))
          = _
        rw [e3, value_int, value_int]
      · rw [if_neg (by omega), if_neg hb]
        exact ⟨s3, rfl, hsm, rfl, hsc, rfl⟩
    obtain ⟨s4, h5, h6, h7, h8, h9⟩ := h4
    obtain ⟨s', h10, h11⟩ := ih h6 h7 h8 h9
      (fits_le (len_mono (by omega) (by omega)) hnf) hf4 (by omega)
    refine ⟨s', ?_, h11⟩
    rw [powLoop, if_neg (mt hz.mp h0), Option.bind_eq_bind, h1, Option.bind_some, h2,
      Option.bind_some, h3, Option.bind_eq_bind, Option.bind_some]
    dsimp only
    rw [h5, Option.bind_some, h10]

/-- The sign that a division by `m` gives to its remainder. -/
def signOf (m : ℤ) : ℤ := if m < 0 then -1 else 1

lemma signOf_mul (m : ℤ) : signOf m * signOf m = 1 := by
  unfold signOf
  split_ifs <;> rfl

lemma rest_modEq (v m : ℤ) : rest v m ≡ signOf m * v [ZMOD m] := by
  have h : v.tmod m ≡ v [ZMOD m] := by
    refine Int.modEq_of_dvd ⟨v.tdiv m, ?_⟩
    linear_combination -Int.mul_tdiv_add_tmod v m
  unfold rest signOf
  by_cases hm : m < 0
  · rw [if_pos hm, if_pos hm, neg_one_mul]
    exact h.neg
  · rw [if_neg hm, if_neg hm, one_mul]
    exact h

/-- **The signs cancel**: the squares all have the sign of the first remainder, and the result
that of its start. -/
lemma powRest_modEq {m x y : ℤ} (hx : x ≡ signOf m * y [ZMOD m]) (c : ℤ) (n : ℕ) :
    powRest m x c n ≡ c * (y * y) ^ n [ZMOD m] := by
  induction n using Nat.strong_induction_on generalizing x y c with
  | _ n ih =>
    rw [powRest]
    by_cases h0 : n = 0
    · rw [if_pos h0, h0, pow_zero, mul_one]
    rw [if_neg h0]
    have hsq : rest (x * x) m ≡ signOf m * (y * y) [ZMOD m] := by
      calc rest (x * x) m ≡ signOf m * (x * x) [ZMOD m] := rest_modEq _ _
        _ ≡ signOf m * (signOf m * y * (signOf m * y)) [ZMOD m] := (hx.mul hx).mul_left _
        _ = signOf m * (y * y) * (signOf m * signOf m) := by ring
        _ = signOf m * (y * y) := by rw [signOf_mul, mul_one]
    have hc : (if n % 2 ≠ 0 then rest (c * rest (x * x) m) m else c) ≡
        c * (y * y) ^ (n % 2) [ZMOD m] := by
      by_cases hb : n % 2 ≠ 0
      · rw [if_pos hb, show n % 2 = 1 by omega, pow_one]
        calc rest (c * rest (x * x) m) m ≡ signOf m * (c * rest (x * x) m) [ZMOD m] :=
              rest_modEq _ _
          _ ≡ signOf m * (c * (signOf m * (y * y))) [ZMOD m] := (hsq.mul_left c).mul_left _
          _ = c * (y * y) * (signOf m * signOf m) := by ring
          _ = c * (y * y) := by rw [signOf_mul, mul_one]
      · rw [if_neg hb, show n % 2 = 0 by omega, pow_zero, mul_one]
    calc powRest m (rest (x * x) m) _ (n / 2)
        ≡ (if n % 2 ≠ 0 then rest (c * rest (x * x) m) m else c) *
            (y * y * (y * y)) ^ (n / 2) [ZMOD m] := ih _ (by omega) hsq _
      _ ≡ c * (y * y) ^ (n % 2) * (y * y * (y * y)) ^ (n / 2) [ZMOD m] := hc.mul_right _
      _ = c * (y * y) ^ n := by
        rw [← pow_two (y * y), ← pow_mul, mul_assoc, ← pow_add, Nat.mod_add_div]

lemma powRest_lt {m x c : ℤ} {n : ℕ} (hm : m ≠ 0) (h : n ≠ 0 ∨ c.natAbs < m.natAbs) :
    (powRest m x c n).natAbs < m.natAbs := by
  induction n using Nat.strong_induction_on generalizing x c with
  | _ n ih =>
    rw [powRest]
    by_cases h0 : n = 0
    · rw [if_pos h0]
      exact h.resolve_left (not_not.mpr h0)
    · rw [if_neg h0]
      refine ih _ (by omega) ?_
      by_cases h1 : n / 2 ≠ 0
      · exact Or.inl h1
      · rw [if_pos (show n % 2 ≠ 0 by omega)]
        exact Or.inr (rest_lt hm)

/-! ### When they are right -/

/-- `xgcd` has come to a common divisor with its coefficients. -/
def Xgcds (s : V → List ℕ) (a b r t g : V) (res : Option (V → List ℕ)) : Prop :=
  ∃ s', res = some s' ∧ (∀ k, k ≠ r → k ≠ t → k ≠ g → s' k = s k) ∧
    value BASE (s' g) ∣ value BASE (s a) ∧ value BASE (s' g) ∣ value BASE (s b) ∧
    value BASE (s' g) = value BASE (s' r) * value BASE (s a) + value BASE (s' t) * value BASE (s b)

/-- `pow` has come to the power, reduced. -/
def Pows (s : V → List ℕ) (a b m c : V) (res : Option (V → List ℕ)) : Prop :=
  ∃ s', res = some s' ∧ (∀ k, k ≠ c → s' k = s k) ∧
    value BASE (s' c) ≡ value BASE (s a) ^ (value BASE (s b)).toNat [ZMOD value BASE (s m)] ∧
    |value BASE (s' c)| < |value BASE (s m)|

/-- What `pow` starts its loop with. -/
def powStart (a m : ℤ) (b : ℕ) : ℤ := if b % 2 ≠ 0 then rest a m else 1

def PowAllFits (a m : ℤ) (b : ℕ) : Prop :=
  MdivFits a m ∧ PowModFits m (rest a m) (powStart a m b) (b / 2)

/-- Where `pow` is right: the one sign that a negative modulus leaves does not matter, and the
exponent zero does not leave `1` unreduced. -/
def PowRight (a m : ℤ) (b : ℕ) : Prop :=
  (0 < m ∨ b % 2 = 0 ∨ m ∣ 2 * a ^ b) ∧ ¬(b = 0 ∧ |m| = 1)

instance (a m : ℤ) (b : ℕ) : Decidable (PowRight a m b) := inferInstanceAs (Decidable (_ ∧ _))

/-- The number `pow` comes to. -/
def powResult (a m : ℤ) (b : ℕ) : ℤ := powRest m (rest a m) (powStart a m b) (b / 2)

lemma powResult_modEq (a m : ℤ) (b : ℕ) :
    powResult a m b ≡ (if b % 2 ≠ 0 then signOf m else 1) * a ^ b [ZMOD m] := by
  have hstart : powStart a m b ≡ (if b % 2 ≠ 0 then signOf m else 1) * a ^ (b % 2) [ZMOD m] := by
    unfold powStart
    by_cases hb : b % 2 ≠ 0
    · rw [if_pos hb, if_pos hb, show b % 2 = 1 by omega, pow_one]
      exact rest_modEq a m
    · rw [if_neg hb, if_neg hb, show b % 2 = 0 by omega, pow_zero, one_mul]
  calc powResult a m b ≡ powStart a m b * (a * a) ^ (b / 2) [ZMOD m] :=
        powRest_modEq (rest_modEq a m) _ _
    _ ≡ (if b % 2 ≠ 0 then signOf m else 1) * a ^ (b % 2) * (a * a) ^ (b / 2) [ZMOD m] :=
        hstart.mul_right _
    _ = (if b % 2 ≠ 0 then signOf m else 1) * a ^ b := by
        rw [← pow_two, ← pow_mul, mul_assoc, ← pow_add, Nat.mod_add_div]

lemma powResult_lt {m : ℤ} (a : ℤ) (b : ℕ) (hm : m ≠ 0) :
    |powResult a m b| < |m| ↔ ¬(b = 0 ∧ |m| = 1) := by
  have habs : 1 ≤ |m| := abs_pos.mpr hm
  by_cases hb : b = 0
  · have h1 : powResult a m b = 1 := by
      rw [powResult, hb, powRest, if_pos rfl, powStart, if_neg (by decide)]
    rw [h1, abs_one]
    constructor
    · rintro h ⟨-, h2⟩
      omega
    · intro h
      have : |m| ≠ 1 := fun h2 => h ⟨hb, h2⟩
      omega
  · refine ⟨fun _ h => hb h.1, fun _ => ?_⟩
    rw [Int.abs_eq_natAbs, Int.abs_eq_natAbs]
    refine Int.ofNat_lt.mpr (powRest_lt hm ?_)
    by_cases h2 : b / 2 ≠ 0
    · exact Or.inl h2
    · rw [powStart, if_pos (show b % 2 ≠ 0 by omega)]
      exact Or.inr (rest_lt hm)

lemma powRight_iff {m : ℤ} (a : ℤ) (b : ℕ) (hm : m ≠ 0) :
    (powResult a m b ≡ a ^ b [ZMOD m] ∧ |powResult a m b| < |m|) ↔ PowRight a m b := by
  have hv := powResult_modEq a m b
  refine and_congr ?_ (powResult_lt a b hm)
  by_cases hb : b % 2 = 0
  · rw [if_neg (not_not.mpr hb), one_mul] at hv
    exact ⟨fun _ => Or.inr (Or.inl hb), fun _ => hv⟩
  rw [if_pos hb] at hv
  rcases lt_or_ge m 0 with hneg | hpos
  · rw [signOf, if_pos hneg, neg_one_mul] at hv
    have h2 : powResult a m b ≡ a ^ b [ZMOD m] ↔ m ∣ 2 * a ^ b := by
      have h3 : a ^ b - -(a ^ b) = 2 * a ^ b := by ring
      rw [← h3, ← Int.modEq_iff_dvd]
      exact ⟨fun h => hv.symm.trans h, fun h => hv.trans h⟩
    rw [h2]
    exact ⟨fun h => Or.inr (Or.inr h), fun h => (h.resolve_left (by omega)).resolve_left hb⟩
  · rw [signOf, if_neg (by omega), one_mul] at hv
    exact ⟨fun _ => Or.inl (by omega), fun _ => hv⟩

lemma pow_eq {s : V → List ℕ} {a b m : V} (c : V) (ha : IsMint (s a)) (hb : IsMint (s b))
    (hm : IsMint (s m)) (hb0 : 0 ≤ value BASE (s b)) (hm0 : value BASE (s m) ≠ 0)
    (hf : PowAllFits (value BASE (s a)) (value BASE (s m)) (value BASE (s b)).toNat) {fuel : ℕ}
    (hn : (value BASE (s b)).toNat < fuel) :
    pow fuel s a b m c = some (Function.update s c (ofInt BASE
      (powResult (value BASE (s a)) (value BASE (s m)) (value BASE (s b)).toNat))) := by
  have hispos : ispos (s b) := (ispos_iff hb.normal).mpr hb0
  have hbn : ((value BASE (s b)).toNat : ℤ) = value BASE (s b) := Int.toNat_of_nonneg hb0
  have hsb : s b = ofInt BASE ((value BASE (s b)).toNat : ℤ) := by
    rw [hbn, hb.normal.ofInt_value two_le_base]
  have hsm : s m = ofInt BASE (value BASE (s m)) := (hm.normal.ofInt_value two_le_base).symm
  have hbf : fits (len ((value BASE (s b)).toNat : ℤ)) := by
    rw [hbn, len_value hb.normal]
    exact hb.short
  generalize (value BASE (s b)).toNat = n at *
  set x0 := pstart (s a) (s b) (s m) with hx0
  have h1 := mdiv_eq x0 .a .m .quot .al ha hm hm0 hf.1
  set x1 := Function.update (Function.update x0 .quot
    (ofInt BASE ((value BASE (x0 .a)).tdiv (value BASE (x0 .m))))) .al
    (ofInt BASE (rest (value BASE (x0 .a)) (value BASE (x0 .m)))) with hx1
  have h2 : sdiv x1 .bl 2 .bl =
      some (Function.update x1 .bl (ofInt BASE (n / 2 : ℕ)), ((n % 2 : ℕ) : ℤ)) :=
    sdiv_two (s := x1) (k := .bl) hsb hbf
  set x2 := Function.update x1 .bl (ofInt BASE (n / 2 : ℕ)) with hx2
  set x3 := Function.update x2 .cl (if ((n % 2 : ℕ) : ℤ) ≠ 0 then x2 .al else [1]) with hx3
  have hcl : x3 .cl = ofInt BASE (powStart (value BASE (s a)) (value BASE (s m)) n) := by
    change (if ((n % 2 : ℕ) : ℤ) ≠ 0 then ofInt BASE (rest (value BASE (s a)) (value BASE (s m)))
      else [1]) = _
    unfold powStart
    by_cases h : n % 2 ≠ 0
    · rw [if_pos (by omega), if_pos h]
    · rw [if_neg (by omega), if_neg h, ofInt_one]
  have hmf : fits (len (value BASE (s m))) := by
    rw [len_value hm.normal]
    exact hm.short
  obtain ⟨x4, h4, h5⟩ := powLoop_eq (s := x3) hm0 hmf hsm rfl hcl rfl
    (fits_le (len_mono (by omega) (by omega)) hbf) hf.2 (show n / 2 < fuel by omega)
  rw [pow, if_pos hispos, ← hx0, Option.bind_eq_bind, h1, Option.bind_some, Option.bind_eq_bind, h2,
    Option.bind_some]
  dsimp only
  rw [← hx3, h4, Option.bind_some, h5]
  rfl

end Coherent.Mint
