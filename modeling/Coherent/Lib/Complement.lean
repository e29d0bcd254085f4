import Mathlib.Tactic
import Mathlib.Data.Nat.Digits.Lemmas
import Mathlib.Data.Int.ModEq

/-!
Integers as digit strings in complement, the least significant digit first.

The base is any `B` from 2 on. A leading digit `B - 1` stands for `-1` at its place, so that
negative numbers need no sign of their own. A string is normal if it has no leading digit that
could be left out; every integer has exactly one normal string.
-/

namespace Coherent.Lib.Complement

variable {B : ℕ} {l a b : List ℕ} {d e n : ℕ} {v : ℤ}

/-- The integer a string stands for. -/
def value (B : ℕ) (l : List ℕ) : ℤ :=
  ((Nat.ofDigits B l : ℕ) : ℤ) - if l.getLast? = some (B - 1) then (B : ℤ) ^ l.length else 0

/-- There is a digit, and no leading digit that could be left out. -/
def Normal (B : ℕ) : List ℕ → Prop
  | [] => False
  | [d] => d < B
  | [d, e] => d < B ∧ e < B ∧ (e = 0 → d = B - 1) ∧ (e = B - 1 → d ≠ B - 1)
  | d :: e :: f :: r => d < B ∧ Normal B (e :: f :: r)

instance : ∀ l, Decidable (Normal B l)
  | [] => inferInstanceAs (Decidable False)
  | [d] => inferInstanceAs (Decidable (d < B))
  | [_, _] => inferInstanceAs (Decidable (_ ∧ _))
  | _ :: e :: f :: r =>
    have := instDecidableNormal (e :: f :: r)
    inferInstanceAs (Decidable (_ ∧ _))

/-- The normal string of an integer. -/
def ofInt (B : ℕ) (v : ℤ) : List ℕ :=
  if _ : v = -1 ∨ (0 ≤ v ∧ v < B - 1) ∨ B < 2 then [(v % B).toNat]
  else (v % B).toNat :: ofInt B (v / B)
termination_by v.natAbs
decreasing_by
  rename_i h
  push Not at h
  obtain ⟨h1, h2, h3⟩ := h
  have hB : (2 : ℤ) ≤ B := by exact_mod_cast h3
  have hm := Int.emod_add_mul_ediv v B
  have hlo := Int.emod_nonneg v (b := (B : ℤ)) (by omega)
  have hhi := Int.emod_lt_of_pos v (b := (B : ℤ)) (by omega)
  obtain hv | hv := le_or_gt 0 v
  · have h4 := h2 hv
    have h5 : 0 ≤ v / B := Int.ediv_nonneg hv (by omega)
    have h6 : 2 * (v / B) ≤ B * (v / B) := Int.mul_le_mul_of_nonneg_right hB h5
    omega
  · have h5 : v / B ≤ -1 := by
      have := Int.ediv_neg_of_neg_of_pos hv (b := (B : ℤ)) (by omega)
      omega
    obtain h6 | h6 := h5.eq_or_lt
    · rw [h6] at hm ⊢
      omega
    · have h7 : (B - 1) * (v / B) ≤ (B - 1) * (-2) :=
        Int.mul_le_mul_of_nonneg_left (by omega) (by omega)
      rw [sub_mul] at h7
      omega

/-! ### The value -/

lemma value_singleton (hB : 2 ≤ B) (d : ℕ) : value B [d] = if d = B - 1 then -1 else (d : ℤ) := by
  have h1 : ((B - 1 : ℕ) : ℤ) = B - 1 := by push_cast [show 1 ≤ B by omega]; rfl
  by_cases h : d = B - 1
  · simp [value, h, h1, Nat.ofDigits_singleton]
  · simp [value, h, Nat.ofDigits_singleton]

lemma value_cons (d : ℕ) (h : l ≠ []) : value B (d :: l) = d + B * value B l := by
  obtain ⟨e, l, rfl⟩ := List.exists_cons_of_ne_nil h
  rw [value, value, List.getLast?_cons_cons, Nat.ofDigits_cons,
    List.length_cons (a := d), pow_succ]
  push_cast
  split_ifs
  · ring
  · ring

lemma value_append (a : List ℕ) (hb : b ≠ []) :
    value B (a ++ b) = ((Nat.ofDigits B a : ℕ) : ℤ) + (B : ℤ) ^ a.length * value B b := by
  induction a with
  | nil => simp
  | cons d a ih =>
    rw [List.cons_append, value_cons d (by simp [hb]), ih, Nat.ofDigits_cons,
      List.length_cons (a := d), pow_succ]
    push_cast
    ring

/-- A string of `n + 1` digits stands for an integer from `-B ^ n` to below `(B - 1) * B ^ n`. -/
lemma value_bounds (hB : 2 ≤ B) (hd : ∀ d ∈ l, d < B) (hl : l.length = n + 1) :
    -(B : ℤ) ^ n ≤ value B l ∧ value B l < (B - 1) * (B : ℤ) ^ n := by
  have hB' : (2 : ℤ) ≤ B := by exact_mod_cast hB
  induction l generalizing n with
  | nil => simp at hl
  | cons d l ih =>
    have hdB : (d : ℤ) < B := by exact_mod_cast hd d (by simp)
    cases n with
    | zero =>
      obtain rfl : l = [] := by simpa using hl
      rw [value_singleton hB]
      split_ifs with h
      · simp; omega
      · simp; omega
    | succ n =>
      have hne : l ≠ [] := by rintro rfl; simp at hl
      obtain ⟨h1, h2⟩ := ih (n := n) (fun e he => hd e (by simp [he])) (by simpa using hl)
      rw [value_cons d hne, pow_succ]
      have h3 : value B l + 1 ≤ (B - 1) * (B : ℤ) ^ n := h2
      constructor
      · nlinarith
      · nlinarith

/-- The sign is told by the leading digit. -/
lemma value_nonneg (hB : 2 ≤ B) (hd : ∀ d ∈ l, d < B) (hl : l ≠ []) :
    0 ≤ value B l ↔ l.getLast? ≠ some (B - 1) := by
  have hB' : (2 : ℤ) ≤ B := by exact_mod_cast hB
  induction l with
  | nil => exact absurd rfl hl
  | cons d l ih =>
    have hdB : (d : ℤ) < B := by exact_mod_cast hd d (by simp)
    cases l with
    | nil =>
      rw [value_singleton hB]
      split_ifs with h
      · simp [h]
      · simp [h]
    | cons e r =>
      have ih' : 0 ≤ value B (e :: r) ↔ (e :: r).getLast? ≠ some (B - 1) :=
        ih (fun x hx => hd x (by simp [hx])) (by simp)
      rw [value_cons d (by simp), List.getLast?_cons_cons]
      refine Iff.trans ?_ ih'
      constructor
      · intro h
        by_contra hn
        have h1 : value B (e :: r) ≤ -1 := by omega
        nlinarith
      · intro h
        positivity

lemma value_modEq (l : List ℕ) : value B l ≡ ((Nat.ofDigits B l : ℕ) : ℤ) [ZMOD (B : ℤ) ^ l.length] := by
  unfold value
  split_ifs
  · exact (Int.modEq_iff_dvd.mpr ⟨1, by ring⟩)
  · simp [Int.ModEq]

/-- The digits tell the value once it is known to be in range. -/
lemma value_eq (hB : 2 ≤ B) (hd : ∀ d ∈ l, d < B) (hl : l.length = n + 1)
    (hv : v ≡ ((Nat.ofDigits B l : ℕ) : ℤ) [ZMOD (B : ℤ) ^ (n + 1)]) (hlo : -(B : ℤ) ^ n ≤ v)
    (hhi : v < (B - 1) * (B : ℤ) ^ n) : value B l = v := by
  obtain ⟨h1, h2⟩ := value_bounds hB hd hl
  obtain ⟨k, hk⟩ := ((hl ▸ value_modEq l : _ ≡ _ [ZMOD _]).trans hv.symm).dvd
  have hp : (0 : ℤ) < (B : ℤ) ^ n := by positivity
  rw [pow_succ] at hk
  -- both are in an interval as long as the modulus
  have hk0 : k = 0 := by
    obtain hk' | hk' | hk' := lt_trichotomy k 0
    · have : (B : ℤ) ^ n * B * k ≤ (B : ℤ) ^ n * B * (-1) :=
        Int.mul_le_mul_of_nonneg_left (by omega) (by positivity)
      nlinarith
    · exact hk'
    · have : (B : ℤ) ^ n * B * 1 ≤ (B : ℤ) ^ n * B * k :=
        Int.mul_le_mul_of_nonneg_left (by omega) (by positivity)
      nlinarith
  rw [hk0, mul_zero] at hk
  omega

/-! ### Normal strings -/

lemma Normal.ne_nil (h : Normal B l) : l ≠ [] := by rintro rfl; exact h

lemma Normal.lt (h : Normal B l) : ∀ d ∈ l, d < B := by
  induction l with
  | nil => simp
  | cons d l ih =>
    match l, h, ih with
    | [], h, _ => simpa [Normal] using h
    | [e], h, _ => simpa using ⟨h.1, h.2.1⟩
    | e :: f :: r, h, ih =>
      intro x hx
      rcases List.mem_cons.mp hx with rfl | hx
      · exact h.1
      · exact ih h.2 x hx

/-- Only the two leading digits matter. -/
lemma normal_append (ha : ∀ d ∈ a, d < B) (hd : d < B) (he : e < B) (h0 : e = 0 → d = B - 1)
    (h1 : e = B - 1 → d ≠ B - 1) : Normal B (a ++ [d, e]) := by
  induction a with
  | nil => exact ⟨hd, he, h0, h1⟩
  | cons c a ih =>
    have ih := ih fun x hx => ha x (by simp [hx])
    have hc := ha c (by simp)
    rcases a with _ | ⟨x, _ | ⟨y, r⟩⟩
    · exact ⟨hc, ih⟩
    · exact ⟨hc, ih⟩
    · exact ⟨hc, ih⟩

/-- A normal string of `n + 2` digits stands for no integer that fewer digits can stand for. -/
lemma Normal.large (hB : 2 ≤ B) (h : Normal B l) (hl : l.length = n + 2) :
    (B - 1) * (B : ℤ) ^ n ≤ value B l ∨ value B l < -(B : ℤ) ^ n := by
  have hB' : (2 : ℤ) ≤ B := by exact_mod_cast hB
  induction l generalizing n with
  | nil => exact absurd rfl h.ne_nil
  | cons d l ih =>
    rcases l with _ | ⟨e, _ | ⟨f, r⟩⟩
    · simp at hl
    · obtain rfl : n = 0 := by simpa using hl.symm
      obtain ⟨h1, h2, h3, h4⟩ := h
      rw [value_cons d (by simp), value_singleton hB, pow_zero]
      split_ifs with he
      · have : (d : ℤ) ≠ B - 1 := fun hd => h4 he (by omega)
        right
        omega
      · left
        obtain rfl | he0 := Nat.eq_zero_or_pos e
        · rw [h3 rfl]
          push_cast [show 1 ≤ B by omega]
          simp
        · have : (1 : ℤ) ≤ e := by exact_mod_cast he0
          have h5 : (B : ℤ) * 1 ≤ B * e := Int.mul_le_mul_of_nonneg_left this (by omega)
          omega
    · cases n with
      | zero => simp at hl
      | succ n =>
        have hd : (d : ℤ) < B := by exact_mod_cast h.1
        rw [value_cons d (by simp), pow_succ]
        obtain ih | ih := ih h.2 (n := n) (by simpa using hl)
        · left
          nlinarith
        · right
          have : value B (e :: f :: r) + 1 ≤ -(B : ℤ) ^ n := ih
          nlinarith

lemma Normal.cons (h : Normal B (d :: e :: l)) : Normal B (e :: l) := by
  match l, h with
  | [], h => exact h.2.1
  | _ :: _, h => exact h.2

/-- **The normal string of an integer is the only one.** -/
theorem Normal.ofInt_value (hB : 2 ≤ B) (h : Normal B l) : ofInt B (value B l) = l := by
  have hB' : (2 : ℤ) ≤ B := by exact_mod_cast hB
  induction l with
  | nil => exact absurd rfl h.ne_nil
  | cons d l ih =>
    have hd := h.lt d (by simp)
    cases l with
    | nil =>
      rw [value_singleton hB, ofInt]
      split_ifs with h1 h2 h2
      · have : (-1 : ℤ) % B = B - 1 := by
          rw [← Int.add_mul_emod_self_left (-1) B 1, Int.emod_eq_of_lt] <;> omega
        rw [this, h1]
        congr 1
        omega
      · exact absurd (Or.inl rfl) h2
      · rw [Int.emod_eq_of_lt (by omega) (by omega), Int.toNat_natCast]
      · exact absurd (Or.inr (Or.inl ⟨by omega, by omega⟩)) h2
    | cons e r =>
      have hlarge := h.large (n := r.length) hB (by simp)
      have hp : (1 : ℤ) ≤ (B : ℤ) ^ r.length := by exact_mod_cast Nat.one_le_pow _ _ (by omega)
      have hv := value_cons (B := B) d (List.cons_ne_nil e r)
      have hsmall : ¬ (value B (d :: e :: r) = -1 ∨
          (0 ≤ value B (d :: e :: r) ∧ value B (d :: e :: r) < B - 1) ∨ B < 2) := by
        have h1 : (B - 1 : ℤ) * 1 ≤ (B - 1) * (B : ℤ) ^ r.length :=
          Int.mul_le_mul_of_nonneg_left hp (by omega)
        omega
      rw [ofInt, dif_neg hsmall, hv, Int.add_mul_emod_self_left, Int.add_mul_ediv_left _ _ (by omega),
        Int.emod_eq_of_lt (by omega) (by omega), Int.ediv_eq_zero_of_lt (by omega) (by omega),
        zero_add, Int.toNat_natCast, ih h.cons]

lemma Normal.inj (hB : 2 ≤ B) (ha : Normal B a) (hb : Normal B b)
    (h : value B a = value B b) : a = b := by
  rw [← ha.ofInt_value hB, ← hb.ofInt_value hB, h]

/-- A shorter normal string stands for an integer nearer to zero. -/
lemma Normal.lt_of_length (hB : 2 ≤ B) (ha : Normal B a) (hb : Normal B b)
    (h : a.length < b.length) :
    (0 ≤ value B b → value B a < value B b) ∧ (value B b < 0 → value B b < value B a) := by
  obtain ⟨m, hm⟩ : ∃ m, a.length = m + 1 :=
    ⟨a.length - 1, by have := List.length_pos_iff.mpr ha.ne_nil; omega⟩
  obtain ⟨k, hk⟩ : ∃ k, b.length = m + k + 2 := ⟨b.length - (m + 2), by omega⟩
  obtain ⟨h1, h2⟩ := value_bounds hB ha.lt hm
  have hB' : (2 : ℤ) ≤ B := by exact_mod_cast hB
  have hp : (B : ℤ) ^ m ≤ (B : ℤ) ^ (m + k) := pow_le_pow_right₀ (by omega) (by omega)
  have hp0 : (0 : ℤ) < (B : ℤ) ^ m := by positivity
  have hq : (B - 1 : ℤ) * (B : ℤ) ^ m ≤ (B - 1) * (B : ℤ) ^ (m + k) :=
    Int.mul_le_mul_of_nonneg_left hp (by omega)
  obtain h3 | h3 := hb.large hB hk
  · exact ⟨fun _ => by omega, fun h0 => by nlinarith⟩
  · exact ⟨fun h0 => by omega, fun _ => by omega⟩

lemma normal_ofInt (hB : 2 ≤ B) (v : ℤ) : Normal B (ofInt B v) ∧ value B (ofInt B v) = v := by
  have hB' : (2 : ℤ) ≤ B := by exact_mod_cast hB
  induction v using ofInt.induct B with
  | case1 v h =>
    rw [ofInt, dif_pos h]
    have hlo := Int.emod_nonneg v (b := (B : ℤ)) (by omega)
    have hhi := Int.emod_lt_of_pos v (b := (B : ℤ)) (by omega)
    refine ⟨show (v % B).toNat < B by omega, ?_⟩
    rw [value_singleton hB]
    obtain rfl | ⟨h1, h2⟩ | h := h
    · have : (-1 : ℤ) % B = B - 1 := by
        rw [← Int.add_mul_emod_self_left (-1) B 1, Int.emod_eq_of_lt] <;> omega
      rw [this, if_pos (by omega)]
    · rw [Int.emod_eq_of_lt h1 (by omega), if_neg (by omega)]
      omega
    · omega
  | case2 v h ih =>
    rw [ofInt, dif_neg h]
    obtain ⟨ih1, ih2⟩ := ih
    have hm := Int.emod_add_mul_ediv v B
    have hlo := Int.emod_nonneg v (b := (B : ℤ)) (by omega)
    have hhi := Int.emod_lt_of_pos v (b := (B : ℤ)) (by omega)
    push Not at h
    obtain ⟨h1, h2, h3⟩ := h
    refine ⟨?_, ?_⟩
    · match hr : ofInt B (v / B), ih1 with
      | [e], ih1 =>
        rw [hr, value_singleton hB] at ih2
        have he : e < B := ih1
        refine ⟨by omega, he, fun h0 => ?_, fun h0 => ?_⟩
        · subst h0
          rw [if_neg (by omega)] at ih2
          rw [← ih2] at hm
          simp only [Nat.cast_zero, mul_zero, add_zero] at hm
          have := h2 (by omega)
          omega
        · rw [if_pos h0] at ih2
          rw [← ih2] at hm
          intro h4
          exact h1 (by omega)
      | e :: f :: r, ih1 => exact ⟨by omega, ih1⟩
    · rw [value_cons _ ih1.ne_nil, ih2]
      omega

end Coherent.Lib.Complement
