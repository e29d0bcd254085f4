import Mathlib.Data.Int.ModEq
import Mathlib.Tactic

/-!
Numbers and the bits that stand for them.

An operation on bit vectors that are given by numbers is an operation on the numbers, as long as
these are in the range of the width. The second half compares quotients and remainders of a
negative number with those of the number that has the same bits without a sign.
-/

namespace Coherent.Fold

/-! ### Numbers and bits -/

section
variable {w n : ℕ} {a b : ℤ}

lemma ofInt_eq_iff : BitVec.ofInt w a = BitVec.ofInt w b ↔ a % (2 : ℤ) ^ w = b % (2 : ℤ) ^ w := by
  have hpos : (0 : ℤ) < (2 : ℤ) ^ w := by positivity
  have ha := Int.emod_nonneg a hpos.ne'
  have hb := Int.emod_nonneg b hpos.ne'
  constructor
  · intro h
    have h1 := congrArg BitVec.toNat h
    rw [BitVec.toNat_ofInt, BitVec.toNat_ofInt] at h1
    push_cast at h1
    omega
  · intro h
    apply BitVec.eq_of_toNat_eq
    rw [BitVec.toNat_ofInt, BitVec.toNat_ofInt]
    push_cast
    rw [h]

lemma setWidth_ofInt (a : ℤ) : (BitVec.ofInt 32 a).setWidth 16 = BitVec.ofInt 16 a := by
  apply BitVec.eq_of_toNat_eq
  rw [BitVec.toNat_setWidth, BitVec.toNat_ofInt, BitVec.toNat_ofInt]
  omega

/-- A number in the range of `w` bits with a sign. -/
def Signed (w : ℕ) (a : ℤ) : Prop := -(2 : ℤ) ^ (w - 1) ≤ a ∧ a < (2 : ℤ) ^ (w - 1)

/-- A number in the range of `w` bits without a sign. -/
def Unsigned (w : ℕ) (a : ℤ) : Prop := 0 ≤ a ∧ a < (2 : ℤ) ^ w

lemma toInt_ofInt (hw : 0 < w) (ha : Signed w a) : (BitVec.ofInt w a).toInt = a :=
  BitVec.toInt_ofInt_eq_self hw ha.1 ha.2

lemma toNat_ofInt (ha : Unsigned w a) : ((BitVec.ofInt w a).toNat : ℤ) = a := by
  rw [BitVec.toNat_ofInt]
  push_cast
  rw [Int.emod_eq_of_lt ha.1 ha.2]
  exact Int.toNat_of_nonneg ha.1

lemma sdiv_ofInt (hw : 0 < w) (ha : Signed w a) (hb : Signed w b) :
    (BitVec.ofInt w a).sdiv (BitVec.ofInt w b) = BitVec.ofInt w (a.tdiv b) := by
  rw [← BitVec.ofInt_toInt (x := (BitVec.ofInt w a).sdiv (BitVec.ofInt w b)), BitVec.toInt_sdiv,
    toInt_ofInt hw ha, toInt_ofInt hw hb, ofInt_eq_iff]
  have h := Int.bmod_emod (x := a.tdiv b) (m := 2 ^ w)
  push_cast at h
  exact h

lemma srem_ofInt (hw : 0 < w) (ha : Signed w a) (hb : Signed w b) :
    (BitVec.ofInt w a).srem (BitVec.ofInt w b) = BitVec.ofInt w (a.tmod b) := by
  rw [← BitVec.ofInt_toInt (x := (BitVec.ofInt w a).srem (BitVec.ofInt w b)), BitVec.toInt_srem,
    toInt_ofInt hw ha, toInt_ofInt hw hb]

lemma sshiftRight_ofInt (hw : 0 < w) (ha : Signed w a) (n : ℕ) :
    (BitVec.ofInt w a).sshiftRight n = BitVec.ofInt w (a / 2 ^ n) := by
  rw [← BitVec.ofInt_toInt (x := (BitVec.ofInt w a).sshiftRight n), BitVec.toInt_sshiftRight,
    toInt_ofInt hw ha, Int.shiftRight_eq_div_pow]
  norm_cast

lemma slt_ofInt (hw : 0 < w) (ha : Signed w a) (hb : Signed w b) :
    (BitVec.ofInt w a).slt (BitVec.ofInt w b) = decide (a < b) := by
  rw [BitVec.slt_eq_decide, toInt_ofInt hw ha, toInt_ofInt hw hb]

lemma sle_ofInt (hw : 0 < w) (ha : Signed w a) (hb : Signed w b) :
    (BitVec.ofInt w a).sle (BitVec.ofInt w b) = decide (a ≤ b) := by
  rw [BitVec.sle_eq_decide, toInt_ofInt hw ha, toInt_ofInt hw hb]

lemma ofNat_eq_ofInt (x : BitVec w) : x = BitVec.ofInt w x.toNat := by
  rw [BitVec.ofInt_natCast, BitVec.ofNat_toNat, BitVec.setWidth_eq]

lemma udiv_ofInt (ha : Unsigned w a) (hb : Unsigned w b) :
    (BitVec.ofInt w a).udiv (BitVec.ofInt w b) = BitVec.ofInt w (a / b) := by
  rw [ofNat_eq_ofInt ((BitVec.ofInt w a).udiv (BitVec.ofInt w b))]
  change BitVec.ofInt w (((BitVec.ofInt w a) / (BitVec.ofInt w b)).toNat : ℤ) = _
  rw [BitVec.toNat_udiv, Int.natCast_div, toNat_ofInt ha, toNat_ofInt hb]

lemma umod_ofInt (ha : Unsigned w a) (hb : Unsigned w b) :
    (BitVec.ofInt w a).umod (BitVec.ofInt w b) = BitVec.ofInt w (a % b) := by
  rw [ofNat_eq_ofInt ((BitVec.ofInt w a).umod (BitVec.ofInt w b))]
  change BitVec.ofInt w (((BitVec.ofInt w a) % (BitVec.ofInt w b)).toNat : ℤ) = _
  rw [BitVec.toNat_umod, Int.natCast_mod, toNat_ofInt ha, toNat_ofInt hb]

lemma ushiftRight_ofInt (ha : Unsigned w a) (n : ℕ) :
    BitVec.ofInt w a >>> n = BitVec.ofInt w (a / 2 ^ n) := by
  rw [ofNat_eq_ofInt (BitVec.ofInt w a >>> n), BitVec.toNat_ushiftRight, Nat.shiftRight_eq_div_pow,
    Int.natCast_div, toNat_ofInt ha]
  norm_cast

lemma ult_ofInt (ha : Unsigned w a) (hb : Unsigned w b) :
    (BitVec.ofInt w a).ult (BitVec.ofInt w b) = decide (a < b) := by
  rw [BitVec.ult_eq_decide, decide_eq_decide, ← Int.ofNat_lt, toNat_ofInt ha, toNat_ofInt hb]

lemma ule_ofInt (ha : Unsigned w a) (hb : Unsigned w b) :
    (BitVec.ofInt w a).ule (BitVec.ofInt w b) = decide (a ≤ b) := by
  rw [BitVec.ule_eq_decide, decide_eq_decide, ← Int.ofNat_le, toNat_ofInt ha, toNat_ofInt hb]

end

/-! ### Quotients and remainders in too many bits -/

section
variable {a b : ℤ}

/-- A negative `int` divided as 32 bits and as 16 bits without a sign. -/
lemma div_narrow (ha : -32768 ≤ a) (ha0 : a < 0) (hb : 0 < b) (hb' : b < 65536) :
    (a + 2 ^ 32) / b % 2 ^ 16 = (a + 2 ^ 16) / b % 2 ^ 16 ↔ b ∣ 65535 := by
  have hdiv := Int.mul_ediv_add_emod 65535 b
  have hr0 := Int.emod_nonneg 65535 hb.ne'
  have hr1 := Int.emod_lt_of_pos 65535 hb
  rw [Int.dvd_iff_emod_eq_zero]
  set q := 65535 / b
  set r := 65535 % b
  have hbig : (a + 2 ^ 32) / b = (a + 2 ^ 16 + 65536 * r) / b + 65536 * q := by
    rw [← Int.add_mul_ediv_right _ _ hb.ne']
    congr 1
    linear_combination -65536 * hdiv
  have hsmall : (a + 2 ^ 16) / b < 65536 := Int.ediv_lt_of_lt_mul hb (by nlinarith)
  have hpos : 0 ≤ (a + 2 ^ 16) / b := Int.ediv_nonneg (by omega) hb.le
  constructor
  · intro h
    by_contra hr
    -- the quotient is larger, but not by as much as is cut off
    have h1 : (a + 2 ^ 16) / b + 1 ≤ (a + 2 ^ 16 + 65536 * r) / b := by
      have h2 := Int.add_mul_ediv_right (a + 2 ^ 16) 1 hb.ne'
      rw [one_mul] at h2
      rw [← h2]
      exact Int.ediv_le_ediv hb (by omega)
    have h2 : (a + 2 ^ 16 + 65536 * r) / b < 65536 := Int.ediv_lt_of_lt_mul hb (by omega)
    omega
  · intro hr
    rw [hbig, hr, mul_zero, add_zero]
    omega

lemma mod_narrow (hb : 0 < b) (hb' : b < 65536) :
    (a + 2 ^ 32) % b % 2 ^ 16 = (a + 2 ^ 16) % b % 2 ^ 16 ↔ b ∣ 65536 * 65535 := by
  have h1 := Int.emod_nonneg (a + 2 ^ 32) hb.ne'
  have h2 := Int.emod_lt_of_pos (a + 2 ^ 32) hb
  have h3 := Int.emod_nonneg (a + 2 ^ 16) hb.ne'
  have h4 := Int.emod_lt_of_pos (a + 2 ^ 16) hb
  rw [Int.emod_eq_of_lt h1 (by omega), Int.emod_eq_of_lt h3 (by omega),
    Int.emod_eq_emod_iff_emod_sub_eq_zero, Int.dvd_iff_emod_eq_zero]
  rw [show a + 2 ^ 32 - (a + 2 ^ 16) = 65536 * 65535 by ring]

/-- A negative number divided with and without the sign. -/
lemma tdiv_neg (ha : a < 0) (b : ℤ) : a.tdiv b = -(-a / b) := by
  rw [← Int.tdiv_eq_ediv_of_nonneg (show 0 ≤ -a by omega), Int.neg_tdiv, neg_neg]

lemma tmod_neg (ha : a < 0) (b : ℤ) : a.tmod b = -(-a % b) := by
  rw [← Int.tmod_eq_emod_of_nonneg (show 0 ≤ -a by omega), Int.neg_tmod, neg_neg]

lemma div_sign16 (ha : -32768 ≤ a) (ha0 : a < 0) (hb : 0 < b) (hb' : b < 65536) :
    (a + 2 ^ 32) / b % 2 ^ 16 = a.tdiv b % 2 ^ 16 ↔
      (b ∣ 65536 ∧ b ∣ a) ∨ (b = 65535 ∧ a ≠ -1) := by
  have hdiv := Int.mul_ediv_add_emod 65536 b
  have hr0 := Int.emod_nonneg 65536 hb.ne'
  have hr1 := Int.emod_lt_of_pos 65536 hb
  have hn := Int.mul_ediv_add_emod (-a) b
  have hn0 := Int.emod_nonneg (-a) hb.ne'
  have hn1 := Int.emod_lt_of_pos (-a) hb
  have hm0 : 0 ≤ -a / b := Int.ediv_nonneg (by omega) hb.le
  rw [tdiv_neg ha0, Int.dvd_iff_emod_eq_zero, ← Int.dvd_neg, Int.dvd_iff_emod_eq_zero]
  have hbig : (a + 2 ^ 32) / b = (65536 * (65536 % b) + a) / b + 65536 * (65536 / b) := by
    rw [← Int.add_mul_ediv_right _ _ hb.ne']
    congr 1
    linear_combination -65536 * hdiv
  have hx := Int.mul_ediv_add_emod (65536 * (65536 % b) + a) b
  have hx0 := Int.emod_nonneg (65536 * (65536 % b) + a) hb.ne'
  have hx1 := Int.emod_lt_of_pos (65536 * (65536 % b) + a) hb
  rw [hbig]
  generalize 65536 / b = q at *
  generalize 65536 % b = r at *
  generalize -a / b = m at *
  generalize -a % b = s at *
  generalize (65536 * r + a) / b = x at *
  generalize (65536 * r + a) % b = t at *
  -- what has to vanish is the sum of the two quotients
  have hsum : b * (x + m) = 65536 * r - (t + s) := by linear_combination hx + hn
  rw [show (x + 65536 * q) % 2 ^ 16 = -m % 2 ^ 16 ↔ (x + m) % 65536 = 0 by omega]
  by_cases hr : r = 0
  · have h1 : -2 < x + m := by
      by_contra hc
      nlinarith
    have h2 : x + m < 1 := by
      by_contra hc
      nlinarith
    have hb1 : ¬(b = 65535) := by
      rintro rfl
      omega
    constructor
    · intro h
      have h0 : x + m = 0 := by omega
      rw [h0, mul_zero] at hsum
      exact Or.inl ⟨hr, by omega⟩
    · rintro (⟨-, hs⟩ | h)
      · rw [hr, hs] at hsum
        have h0 : x + m = 0 := by
          by_contra hc
          have : x + m = -1 := by omega
          rw [this] at hsum
          omega
        omega
      · exact absurd h.1 hb1
  · have hr1' : 1 ≤ r := by omega
    have hx2 : 0 ≤ x := by
      by_contra hc
      nlinarith
    have h2 : x + m < 65536 := by
      by_contra hc
      nlinarith
    constructor
    · intro h
      have h0 : x + m = 0 := by omega
      obtain ⟨rfl, rfl⟩ : x = 0 ∧ m = 0 := by omega
      have hr2 : r = 1 := by omega
      have hq : q = 1 := by
        have h3 : q < 2 := by
          by_contra hc
          nlinarith
        have h4 : 0 < q := by
          by_contra hc
          nlinarith
        omega
      rw [hq] at hdiv
      exact Or.inr ⟨by omega, by omega⟩
    · rintro (h | ⟨rfl, h1⟩)
      · exact absurd h.1 hr
      · omega

/-- The remainders, added up, come to nothing or to `2 ^ 16`. -/
lemma mod_sign16 (ha : -32768 ≤ a) (ha0 : a < 0) (hb : 0 < b) (hb' : b < 65536) :
    (a + 2 ^ 32) % b % 2 ^ 16 = a.tmod b % 2 ^ 16 ↔
      (b ∣ 2 ^ 32 ∧ b ∣ a) ∨ (b ∣ 65536 * 65535 ∧ 65537 ≤ b - a) := by
  have hn0 := Int.emod_nonneg (-a) hb.ne'
  have hn1 := Int.emod_lt_of_pos (-a) hb
  have hx0 := Int.emod_nonneg (a + 2 ^ 32) hb.ne'
  have hx1 := Int.emod_lt_of_pos (a + 2 ^ 32) hb
  have hsum : b ∣ 2 ^ 32 - ((a + 2 ^ 32) % b + -a % b) := by
    have h3 := dvd_add (Int.dvd_self_sub_emod (x := a + 2 ^ 32) (m := b))
      (Int.dvd_self_sub_emod (x := -a) (m := b))
    rwa [show a + 2 ^ 32 - (a + 2 ^ 32) % b + (-a - -a % b) =
      2 ^ 32 - ((a + 2 ^ 32) % b + -a % b) by ring] at h3
  rw [tmod_neg ha0, show (a + 2 ^ 32) % b % 2 ^ 16 = -(-a % b) % 2 ^ 16 ↔
    ((a + 2 ^ 32) % b + -a % b = 0 ∨ (a + 2 ^ 32) % b + -a % b = 65536) by omega]
  constructor
  · rintro (h | h)
    · rw [h, sub_zero] at hsum
      exact Or.inl ⟨hsum, Int.dvd_neg.mp (Int.dvd_of_emod_eq_zero (by omega))⟩
    · rw [h] at hsum
      have hs : -a % b = -a := Int.emod_eq_of_lt (by omega) (by omega)
      exact Or.inr ⟨hsum, by omega⟩
  · rintro (⟨h1, h2⟩ | ⟨h1, h2⟩)
    · rw [Int.emod_eq_zero_of_dvd (dvd_add h2 h1), Int.emod_eq_zero_of_dvd (Int.dvd_neg.mpr h2)]
      exact Or.inl rfl
    · have hs : -a % b = -a := Int.emod_eq_of_lt (by omega) (by omega)
      have hx : (a + 2 ^ 32) % b = a + 65536 := by
        rw [← Int.emod_eq_of_lt (show 0 ≤ a + 65536 by omega) (show a + 65536 < b by omega)]
        refine (Int.emod_eq_emod_iff_emod_sub_eq_zero ..).mpr (Int.emod_eq_zero_of_dvd ?_)
        rwa [show a + 2 ^ 32 - (a + 65536) = 65536 * 65535 by ring]
      exact Or.inr (by omega)

/-- A divisor without the sign is larger than the dividend. -/
lemma div_large {n : ℤ} (ha : 0 ≤ a) (hb : b < 0) (hn : a < n) (h : a < b + 2 ^ 32) :
    a / (b + 2 ^ 32) % n = a.tdiv b % n ↔ a < -b := by
  have hd : a.tdiv b = -(a / -b) := by
    rw [← Int.tdiv_eq_ediv_of_nonneg ha, Int.tdiv_neg, neg_neg]
  have h0 : 0 ≤ a / -b := Int.ediv_nonneg ha (by omega)
  have h1 : a / -b ≤ a := Int.ediv_le_self _ ha
  rw [Int.ediv_eq_zero_of_lt ha h, hd]
  constructor
  · intro h2
    by_contra hc
    have h3 : 1 ≤ a / -b := (Int.le_ediv_iff_mul_le (by omega)).mpr (by omega)
    have h4 : (a / -b) % n = 0 := by
      rw [← Int.dvd_iff_emod_eq_zero, ← Int.dvd_neg, Int.dvd_iff_emod_eq_zero, ← h2]
      exact Int.zero_emod n
    rw [Int.emod_eq_of_lt h0 (by omega)] at h4
    omega
  · intro h2
    rw [Int.ediv_eq_zero_of_lt ha h2, neg_zero]

lemma mod_large {n : ℤ} (ha : 0 ≤ a) (hb : b < 0) (hn : a < n) (h : a < b + 2 ^ 32) :
    a % (b + 2 ^ 32) % n = a.tmod b % n ↔ a < -b := by
  have hd : a.tmod b = a % -b := by
    rw [← Int.tmod_eq_emod_of_nonneg ha, Int.tmod_neg]
  have h0 : 0 ≤ a % -b := Int.emod_nonneg a (by omega)
  have h1 : a % -b ≤ a := by
    have h2 := Int.mul_ediv_add_emod a (-b)
    have h3 := mul_nonneg (show 0 ≤ -b by omega) (Int.ediv_nonneg ha (show 0 ≤ -b by omega))
    omega
  rw [Int.emod_eq_of_lt ha h, hd, Int.emod_eq_of_lt ha hn, Int.emod_eq_of_lt h0 (by omega)]
  constructor
  · intro h2
    have := Int.emod_lt_of_pos a (show 0 < -b by omega)
    omega
  · intro h2
    exact (Int.emod_eq_of_lt ha h2).symm

lemma div_sign32 (ha : -2 ^ 31 ≤ a) (ha0 : a < 0) (hb : 0 < b) (hb' : b < 2 ^ 31) :
    (a + 2 ^ 32) / b % 2 ^ 32 = a.tdiv b % 2 ^ 32 ↔ b ≤ 1 := by
  have hn0 : 0 ≤ -a / b := Int.ediv_nonneg (by omega) hb.le
  have hx1 : 1 ≤ (a + 2 ^ 32) / b := (Int.le_ediv_iff_mul_le hb).mpr (by omega)
  rw [tdiv_neg ha0]
  constructor
  · intro h
    by_contra hc
    have h1 : -a / b ≤ 2 ^ 30 := Int.ediv_le_of_le_mul hb (by omega)
    have h2 : (a + 2 ^ 32) / b ≤ 2 ^ 31 := Int.ediv_le_of_le_mul hb (by omega)
    omega
  · intro h
    obtain rfl : b = 1 := by omega
    rw [Int.ediv_one, Int.ediv_one]
    omega

lemma mod_sign32 (ha0 : a < 0) (hb : 0 < b) (hb' : b < 2 ^ 31) :
    (a + 2 ^ 32) % b % 2 ^ 32 = a.tmod b % 2 ^ 32 ↔ b ∣ 2 ^ 32 ∧ b ∣ a := by
  have hn0 := Int.emod_nonneg (-a) hb.ne'
  have hn1 := Int.emod_lt_of_pos (-a) hb
  have hx0 := Int.emod_nonneg (a + 2 ^ 32) hb.ne'
  have hx1 := Int.emod_lt_of_pos (a + 2 ^ 32) hb
  rw [tmod_neg ha0, show (a + 2 ^ 32) % b % 2 ^ 32 = -(-a % b) % 2 ^ 32 ↔
    (a + 2 ^ 32) % b = 0 ∧ -a % b = 0 by omega]
  rw [← Int.dvd_iff_emod_eq_zero, ← Int.dvd_iff_emod_eq_zero, Int.dvd_neg]
  constructor
  · rintro ⟨h1, h2⟩
    exact ⟨(Int.dvd_add_right h2).mp h1, h2⟩
  · rintro ⟨h1, h2⟩
    exact ⟨dvd_add h2 h1, h2⟩

/-- Two negative numbers. -/
lemma div_both (ha : -2 ^ 31 ≤ a) (ha0 : a < 0) (hb : -2 ^ 31 ≤ b) (hb0 : b < 0) :
    (a + 2 ^ 32) / (b + 2 ^ 32) % 2 ^ 32 = a.tdiv b % 2 ^ 32 ↔ a = b := by
  have hd : a.tdiv b = -a / -b := by
    rw [← Int.tdiv_eq_ediv_of_nonneg (by omega), Int.neg_tdiv, Int.tdiv_neg, neg_neg]
  have h0 : 0 ≤ -a / -b := Int.ediv_nonneg (by omega) (by omega)
  have h1 : -a / -b ≤ -a := Int.ediv_le_self _ (by omega)
  rw [hd]
  rcases lt_trichotomy a b with h | rfl | h
  · have h2 : 1 ≤ -a / -b := (Int.le_ediv_iff_mul_le (by omega)).mpr (by omega)
    rw [Int.ediv_eq_zero_of_lt (show 0 ≤ a + 2 ^ 32 by omega) (by omega)]
    constructor <;> intro h3 <;> omega
  · rw [Int.ediv_self (by omega), Int.ediv_self (by omega)]
    exact ⟨fun _ => rfl, fun _ => rfl⟩
  · have h2 : 1 ≤ (a + 2 ^ 32) / (b + 2 ^ 32) :=
      (Int.le_ediv_iff_mul_le (by omega)).mpr (by omega)
    have h3 : (a + 2 ^ 32) / (b + 2 ^ 32) < 2 := Int.ediv_lt_of_lt_mul (by omega) (by omega)
    rw [Int.ediv_eq_zero_of_lt (show 0 ≤ -a by omega) (by omega)]
    constructor <;> intro h4 <;> omega

lemma mod_both (ha : -2 ^ 31 ≤ a) (ha0 : a < 0) (hb : -2 ^ 31 ≤ b) (hb0 : b < 0) :
    (a + 2 ^ 32) % (b + 2 ^ 32) % 2 ^ 32 = a.tmod b % 2 ^ 32 ↔ a = b := by
  have hd : a.tmod b = -(-a % -b) := by
    rw [← Int.tmod_eq_emod_of_nonneg (show 0 ≤ -a by omega), Int.neg_tmod, Int.tmod_neg, neg_neg]
  have h0 := Int.emod_nonneg (-a) (show -b ≠ 0 by omega)
  have h1 := Int.emod_lt_of_pos (-a) (show 0 < -b by omega)
  rw [hd]
  rcases lt_trichotomy a b with h | rfl | h
  · rw [Int.emod_eq_of_lt (show 0 ≤ a + 2 ^ 32 by omega) (by omega)]
    constructor <;> intro h3 <;> omega
  · rw [Int.emod_self, Int.emod_self]
    exact ⟨fun _ => rfl, fun _ => rfl⟩
  · have h2 : (a + 2 ^ 32) % (b + 2 ^ 32) = a - b := by
      rw [← Int.emod_eq_of_lt (show 0 ≤ a - b by omega) (show a - b < b + 2 ^ 32 by omega)]
      refine (Int.emod_eq_emod_iff_emod_sub_eq_zero ..).mpr (Int.emod_eq_zero_of_dvd ?_)
      exact ⟨1, by ring⟩
    rw [h2, Int.emod_eq_of_lt (show 0 ≤ -a by omega) (by omega)]
    constructor <;> intro h4 <;> omega

end

end Coherent.Fold
