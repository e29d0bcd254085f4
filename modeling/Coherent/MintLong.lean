import Coherent.MintDiv
import Mathlib.Data.Nat.Log

/-!
Long division gives the quotient and the remainder.

Each turn of its loop keeps the rest of the dividend below the divisor at the next higher place.
The guess is at most one too small, and the comparison tells whether it is; the comparison is of
lengths first, and they are `int`s.
-/

namespace Coherent.Mint

open Coherent.Lib Coherent.Lib.Complement

variable {V : Type} [DecidableEq V]
variable {a b l : List ℕ} {v w q r : ℤ} {n m : ℕ}
variable {x y xs ys : List ℕ} {s d D den : ℕ}

/-! ### The estimate -/

lemma Normal.suffix (h : Complement.Normal BASE (a ++ b)) (hb : b ≠ []) : Complement.Normal BASE b := by
  induction a with
  | nil => exact h
  | cons d a ih =>
    obtain ⟨e, r, he⟩ := List.exists_cons_of_ne_nil (show a ++ b ≠ [] by simp [hb])
    refine ih ?_
    rw [List.cons_append, he] at h
    rw [he]
    exact h.cons

/-- The divisor as `longd` takes it: a negative number `-D` of at least three digits. -/
structure Divisor (b : List ℕ) (D : ℕ) : Prop where
  normal : Complement.Normal BASE b
  value : value BASE b = -(D : ℤ)
  long : 3 ≤ b.length

section
variable (hb : Divisor b D)
include hb

lemma Divisor.not_pos : ¬ ispos b := by
  obtain ⟨k, hk⟩ : ∃ k, b.length = k + 3 := ⟨b.length - 3, by have := hb.long; omega⟩
  intro h
  have h1 := (ispos_iff hb.normal).mp h
  have h2 := hb.normal.large two_le_base (n := k + 1) hk
  have h3 := base_pow_pos (k + 1)
  rw [hb.value] at h1 h2
  simp only [BASE] at *
  push_cast at *
  omega

/-- The digits below the leading one come to what is missing. -/
lemma Divisor.digits : Nat.ofDigits BASE b.dropLast + D = BASE ^ (b.length - 1) := by
  have h := hb.value
  have hlast : b.getLast hb.normal.ne_nil = NEFL := by
    have := not_not.mp hb.not_pos
    rw [List.getLast?_eq_some_getLast hb.normal.ne_nil] at this
    exact Option.some.inj this
  rw [← List.dropLast_append_getLast hb.normal.ne_nil, hlast, value_append _ (by simp),
    value_singleton two_le_base, if_pos (show NEFL = BASE - 1 from rfl), List.length_dropLast] at h
  have : ((Nat.ofDigits BASE b.dropLast + D : ℕ) : ℤ) = ((BASE ^ (b.length - 1) : ℕ) : ℤ) := by
    push_cast at h ⊢
    linarith
  exact_mod_cast this

lemma Divisor.bounds : BASE ^ (b.length - 2) < D ∧ D ≤ BASE ^ (b.length - 1) := by
  have h := hb.digits
  refine ⟨?_, by omega⟩
  obtain ⟨k, hk⟩ : ∃ k, b.length = k + 2 := ⟨b.length - 2, by have := hb.long; omega⟩
  have h2 := hb.normal.large two_le_base (n := k) hk
  have h3 := base_pow_pos k
  rw [hb.value] at h2
  rw [hk, Nat.add_sub_cancel]
  have h4 : (BASE : ℤ) ^ k < D := by
    simp only [BASE] at *
    push_cast at *
    omega
  exact_mod_cast h4

/-- **The estimate is the divisor rounded up.** -/
lemma Divisor.est_spec : ∃ den : ℕ, est b = den ∧ BASE < den ∧ den ≤ BASE * BASE ∧
    D ≤ den * BASE ^ (b.length - 3) ∧ den * BASE ^ (b.length - 3) < D + BASE ^ (b.length - 3) := by
  obtain ⟨k, hk⟩ : ∃ k, b.length = k + 3 := ⟨b.length - 3, by have := hb.long; omega⟩
  obtain ⟨y, z, t, ht⟩ := List.length_eq_three.mp
    (show (b.drop k).length = 3 by rw [List.length_drop, hk]; omega)
  have hsplit : b = b.take k ++ [y, z, t] := by rw [← ht, List.take_append_drop]
  have hlen : (b.take k).length = k := by rw [List.length_take, hk]; omega
  have hlt : ∀ d ∈ b.take k, d < BASE := fun d hd => hb.normal.lt d (List.mem_of_mem_take hd)
  have hlo := ofDigits_lt hlt
  have hv := hb.value
  have hn := hb.normal
  have hp := hb.not_pos
  generalize b.take k = lo at *
  subst hsplit
  rw [hlen] at hlo
  have hn' : Complement.Normal BASE [y, z, t] := Normal.suffix hn (by simp)
  have ht' : t = BASE - 1 := by simpa [ispos, NEFL] using hp
  obtain ⟨hy, hz, -, -, hz'⟩ := hn'
  have hz'' := hz' ht'
  have hest : est (lo ++ [y, z, t]) = (NEFL - z) * BASE + (NEFL - y + 1) := by
    unfold est
    have h1 : lo.length + 3 - 2 = lo.length + 1 := by omega
    have h2 : lo.length + 3 - 3 = lo.length := by omega
    simp [h1, h2]
  rw [value_append _ (by simp), value_cons _ (by simp), value_cons _ (by simp),
    value_singleton two_le_base, if_pos ht', hlen] at hv
  simp only [BASE, NEFL] at *
  refine ⟨(127 - z) * 128 + (127 - y + 1), ?_, by omega, by omega, ?_⟩
  · rw [hest]
    push_cast [show y ≤ 127 by omega, show z ≤ 127 by omega]
    ring
  have hD : (D : ℤ) + (Nat.ofDigits 128 lo : ℕ) =
      ((((127 - z) * 128 + (127 - y + 1)) * 128 ^ k : ℕ) : ℤ) := by
    push_cast [show y ≤ 127 by omega, show z ≤ 127 by omega] at hv ⊢
    linarith
  have hD' : D + Nat.ofDigits 128 lo = ((127 - z) * 128 + (127 - y + 1)) * 128 ^ k := by
    exact_mod_cast hD
  have hl3 : (lo ++ [y, z, t]).length - 3 = k := by simp [hlen]
  rw [hl3]
  omega

end

/-! ### The guess -/

lemma size_le (a : List ℕ) : size a ≤ a.length := by
  unfold size
  split_ifs <;> omega

/-- The digits but for a leading zero. -/
lemma exists_size (hx : ∀ d ∈ x, d < BASE) : ∃ t : List ℕ, t.length = size x ∧
    Nat.ofDigits BASE t = Nat.ofDigits BASE x ∧ (∀ d ∈ t, d < BASE) ∧
    ∀ i < size x, x.getD i 0 = t.getD i 0 := by
  unfold size
  split_ifs with h
  · obtain ⟨t, rfl⟩ := List.getLast?_eq_some_iff.mp h
    refine ⟨t, by simp, by rw [Nat.ofDigits_append, Nat.ofDigits_singleton]; simp,
      fun d hd => hx d (by simp [hd]), fun i hi => ?_⟩
    rw [List.length_append, List.length_singleton, Nat.add_sub_cancel] at hi
    simp [List.getD_eq_getElem?_getD, List.getElem?_append_left hi]
  · exact ⟨x, rfl, rfl, hx, fun _ _ => rfl⟩

lemma div_pow (hx : ∀ d ∈ x, d < BASE) (k : ℕ) :
    Nat.ofDigits BASE x / BASE ^ k = Nat.ofDigits BASE (x.drop k) :=
  Nat.ofDigits_div_pow_eq_ofDigits_drop k (by decide) x hx

lemma getD_drop {t r : List ℕ} {k : ℕ} (h : t.drop k = r) (i : ℕ) :
    t.getD (k + i) 0 = r.getD i 0 := by
  rw [← h]
  simp [List.getD_eq_getElem?_getD]

/-- **The guess is a quotient**, if it is a digit and the leading digits are those from the place
on. -/
lemma guess_eq {k : ℕ} (hx : ∀ d ∈ x, d < BASE) (hk : k + 3 < 65536) (hden : BASE < den) :
    guess den k x =
      if size x ≤ k + 3 ∧ Nat.ofDigits BASE x / BASE ^ k < den * BASE then
        some (Nat.ofDigits BASE x / BASE ^ k / den) else none := by
  obtain ⟨t, h1, h2, h3, h4⟩ := exists_size hx
  unfold guess unsigned
  simp only
  rw [Nat.mod_eq_of_lt hk, Nat.mod_eq_of_lt (by omega), ← h2, div_pow h3]
  by_cases hn : size x ≤ k + 3
  swap
  · rw [if_neg hn, if_neg fun h => hn h.1]
  rw [if_pos hn]
  obtain hlt | heq | heq : size x < k + 2 ∨ size x = k + 2 ∨ size x = k + 3 := by omega
  · -- too few digits
    have hdrop : Nat.ofDigits BASE (t.drop k) < BASE := by
      have h5 := ofDigits_lt (l := t.drop k) fun d hd => h3 d (List.mem_of_mem_drop hd)
      have h6 : BASE ^ (t.drop k).length ≤ BASE ^ 1 :=
        Nat.pow_le_pow_right (by decide) (by rw [List.length_drop]; omega)
      rw [pow_one] at h6
      omega
    have hone : Nat.ofDigits BASE (t.drop k) < den * BASE := by
      calc Nat.ofDigits BASE (t.drop k) < BASE := hdrop
        _ ≤ den * BASE := Nat.le_mul_of_pos_left _ (by omega)
    rw [if_pos hlt, if_pos ⟨hn, hone⟩, Nat.div_eq_of_lt (by omega)]
  · obtain ⟨d, e, hde⟩ := List.length_eq_two.mp
      (show (t.drop k).length = 2 by rw [List.length_drop]; omega)
    have hd := getD_drop hde 0
    have he := getD_drop hde 1
    have hval : Nat.ofDigits BASE (t.drop k) = e * BASE + d := by
      rw [hde, Nat.ofDigits_cons, Nat.ofDigits_singleton]
      ring
    rw [heq, if_neg (by omega), if_neg (show ¬ k + 2 = k + 3 by omega), show k + 2 - 1 = k + 1 by omega,
      show k + 2 - 2 = k + 0 by omega, h4 _ (by omega), h4 _ (by omega), hd, he, hval]
    exact if_congr ⟨fun h => ⟨by omega, h⟩, And.right⟩ rfl rfl
  · obtain ⟨d, e, f, hde⟩ := List.length_eq_three.mp
      (show (t.drop k).length = 3 by rw [List.length_drop]; omega)
    have hd := getD_drop hde 0
    have he := getD_drop hde 1
    have hf := getD_drop hde 2
    have hval : Nat.ofDigits BASE (t.drop k) = (f * BASE + e) * BASE + d := by
      rw [hde, Nat.ofDigits_cons, Nat.ofDigits_cons, Nat.ofDigits_singleton]
      ring
    rw [heq, if_neg (by omega), if_pos (show k + 3 = k + 3 from rfl), show k + 3 - 1 = k + 2 by omega,
      show k + 3 - 2 = k + 1 by omega, show k + 3 - 3 = k + 0 by omega, h4 _ (by omega),
      h4 _ (by omega), h4 _ (by omega), hd, he, hf, hval]
    exact if_congr ⟨fun h => ⟨by omega, h⟩, And.right⟩ rfl rfl

/-! ### The comparison -/

lemma overflows_iff (hl : ys.length ≤ xs.length) (hy : ∀ d ∈ ys, d < BASE) (hx : ∀ d ∈ xs, d < BASE) :
    overflows ys xs = true ↔ BASE ^ ys.length ≤
      Nat.ofDigits BASE ys.reverse + Nat.ofDigits BASE (xs.take ys.length).reverse := by
  induction ys generalizing xs with
  | nil => simp [overflows]
  | cons y ys ih =>
    cases xs with
    | nil => simp at hl
    | cons x xs =>
      have hl' : ys.length ≤ xs.length := by simpa using hl
      have ih := ih hl' (fun d hd => hy d (by simp [hd])) fun d hd => hx d (by simp [hd])
      have h1 := ofDigits_lt (l := ys.reverse) fun d hd => hy d (by simp_all)
      have h2 := ofDigits_lt (l := (xs.take ys.length).reverse) fun d hd =>
        hx d (by simpa using Or.inr (List.mem_of_mem_take (List.mem_reverse.mp hd)))
      have hlen : (xs.take ys.length).length = ys.length := by rw [List.length_take]; omega
      rw [List.length_reverse] at h1
      rw [List.length_reverse, hlen] at h2
      rw [List.length_cons, List.take_succ_cons, ofDigits_reverse_cons, ofDigits_reverse_cons, hlen,
        pow_succ, overflows]
      obtain h | h | h : BASE ≤ x + y ∨ x + y < NEFL ∨ x + y = NEFL := by simp only [NEFL]; omega
      · rw [if_pos h]
        have : BASE ^ ys.length * BASE ≤ BASE ^ ys.length * (x + y) := Nat.mul_le_mul_left _ h
        rw [mul_add] at this
        simp only [true_iff]
        omega
      · rw [if_neg (by simp only [NEFL] at h; omega), if_pos h]
        have : BASE ^ ys.length * (x + y + 2) ≤ BASE ^ ys.length * BASE :=
          Nat.mul_le_mul_left _ (by simp only [NEFL] at h; omega)
        rw [mul_add, mul_add] at this
        simp only [Bool.false_eq_true, false_iff]
        omega
      · rw [if_neg (by rw [h]; decide), if_neg (by omega), ih]
        have : BASE ^ ys.length * (x + y + 1) = BASE ^ ys.length * BASE := by rw [h]; rfl
        rw [mul_add, mul_add, mul_one] at this
        omega

/-- The leading zeros that are skipped. -/
lemma skip_spec (r : List ℕ) (hr : r ≠ []) : ∃ k : ℕ, r = List.replicate k 0 ++ skip r ∧
    skip r ≠ [] ∧ ((skip r).head? = some 0 → (skip r).length = 1) := by
  induction r with
  | nil => exact absurd rfl hr
  | cons d r ih =>
    cases r with
    | nil =>
      have : skip [d] = [d] := by cases d <;> rfl
      exact ⟨0, by rw [this]; rfl, by simp [this], by simp [this]⟩
    | cons e r =>
      cases d with
      | zero =>
        obtain ⟨k, h1, h2, h3⟩ := ih (by simp)
        refine ⟨k + 1, ?_, h2, h3⟩
        rw [show skip (0 :: e :: r) = skip (e :: r) from rfl, List.replicate_succ,
          List.cons_append, ← h1]
      | succ d =>
        have : skip ((d + 1) :: e :: r) = (d + 1) :: e :: r := rfl
        exact ⟨0, by rw [this]; rfl, by simp [this], by simp [this]⟩

lemma trim_spec (hx : x ≠ []) (hd : ∀ d ∈ x, d < BASE) : trim x ≠ [] ∧
    (∃ k : ℕ, x = trim x ++ List.replicate k 0) ∧
    (trim x).length = Nat.log BASE (Nat.ofDigits BASE x) + 1 := by
  obtain ⟨k, h1, h2, h3⟩ := skip_spec x.reverse (by simpa using hx)
  have hx' : x = trim x ++ List.replicate k 0 := by
    have := congrArg List.reverse h1
    simpa [trim] using this
  have hne : trim x ≠ [] := by simpa [trim] using h2
  have hlt : ∀ d ∈ trim x, d < BASE := fun d hd' => hd d (by rw [hx']; simp [hd'])
  have hval : Nat.ofDigits BASE x = Nat.ofDigits BASE (trim x) := by
    conv_lhs => rw [hx']
    rw [Nat.ofDigits_append, Nat.ofDigits_replicate_zero, mul_zero, add_zero]
  refine ⟨hne, ⟨k, hx'⟩, ?_⟩
  rw [hval]
  have hhead : (trim x).getLast? = some 0 → (trim x).length = 1 := by
    intro h
    rw [trim, List.length_reverse]
    exact h3 (by rwa [trim, List.getLast?_reverse] at h)
  generalize trim x = t at *
  obtain ⟨t, d, rfl⟩ : ∃ t' d, t = t' ++ [d] := ⟨t.dropLast, t.getLast hne,
    (List.dropLast_append_getLast hne).symm⟩
  rw [List.length_append, List.length_singleton, Nat.ofDigits_append, Nat.ofDigits_singleton]
  congr 1
  have h4 := ofDigits_lt (l := t) fun x hx => hlt x (by simp [hx])
  have hd' : d < BASE := hlt d (by simp)
  obtain rfl | hd0 := Nat.eq_zero_or_pos d
  · have h5 := hhead (by simp)
    obtain rfl : t = [] := by simpa using h5
    simp
  · refine (Nat.log_eq_of_pow_le_of_lt_pow ?_ ?_).symm
    · calc BASE ^ t.length ≤ BASE ^ t.length * d := Nat.le_mul_of_pos_right _ hd0
        _ ≤ _ := Nat.le_add_left _ _
    · have : BASE ^ t.length * (d + 1) ≤ BASE ^ t.length * BASE := Nat.mul_le_mul_left _ hd'
      rw [mul_add, mul_one] at this
      rw [pow_succ]
      omega

/-- Two lengths are `int`s that compare as the lengths do. -/
def SameSide (m n : ℕ) : Prop := m < 32768 ↔ n < 32768

instance (m n : ℕ) : Decidable (SameSide m n) := inferInstanceAs (Decidable (_ ↔ _))

/-- The places of the digits of a number. -/
def places (n : ℕ) : ℕ := Nat.log BASE n + 1

lemma places_le {k : ℕ} (h : n < BASE ^ k) (hk : 1 ≤ k) : places n ≤ k := by
  obtain rfl | hn := Nat.eq_zero_or_pos n
  · simp [places, hk]
  · have := Nat.log_lt_of_lt_pow (by omega) h
    unfold places
    omega

lemma lt_places (n : ℕ) : n < BASE ^ places n := Nat.lt_pow_succ_log_self (by decide) n

lemma pow_places {k : ℕ} (h : k + 1 < places n) : BASE ^ (k + 1) ≤ n := by
  unfold places at h
  refine Nat.pow_le_of_le_log ?_ (by omega)
  rintro rfl
  simp at h

/-- What is left after a comparison: the same number in as many digits as it needs. -/
structure Rest (n : ℕ) (x : List ℕ) : Prop where
  lt : ∀ d ∈ x, d < BASE
  ne_nil : x ≠ []
  pos : ispos x
  val : Nat.ofDigits BASE x = n

lemma trim_append (hx : x ≠ []) (hd : ∀ d ∈ x, d < BASE) :
    Nat.ofDigits BASE x = Nat.ofDigits BASE (trim x) ∧ (∀ d ∈ trim x, d < BASE) ∧
      (trim x).length ≤ x.length := by
  obtain ⟨-, ⟨k, h⟩, -⟩ := trim_spec hx hd
  refine ⟨?_, fun d hd' => hd d (by rw [h]; simp [hd']), ?_⟩
  · conv_lhs => rw [h]
    rw [Nat.ofDigits_append, Nat.ofDigits_replicate_zero, mul_zero, add_zero]
  · conv_rhs => rw [h]
    simp

/-- The digits that are kept come to the same number. -/
lemma correct_some (hx : x ≠ []) (hd : ∀ d ∈ x, d < BASE) (h : correct x = some y) :
    Nat.ofDigits BASE y = Nat.ofDigits BASE x ∧ y ≠ [] ∧ (∀ d ∈ y, d < BASE) ∧
      ((trim x).getLast? = some NEFL ∧ y = trim x ++ [0] ∨
        (trim x).getLast? ≠ some NEFL ∧ y = trim x) := by
  obtain ⟨h1, ⟨k, h2⟩, h3⟩ := trim_spec hx hd
  obtain ⟨hval, hlt, hlen⟩ := trim_append hx hd
  unfold correct at h
  simp only at h
  split_ifs at h with h4 h5
  · obtain rfl := Option.some.inj h
    have htake : x.take ((trim x).length + 1) = trim x ++ [0] := by
      cases k with
      | zero =>
        have := congrArg List.length h2
        simp at this
        omega
      | succ k =>
        generalize trim x = t at *
        subst h2
        simp [List.take_append, List.replicate_succ]
    rw [htake]
    refine ⟨by rw [hval, Nat.ofDigits_append, Nat.ofDigits_singleton]; simp, by simp, ?_,
      .inl ⟨h4, rfl⟩⟩
    exact fun d hd' => hd d (by rw [← htake] at hd'; exact List.mem_of_mem_take hd')
  · obtain rfl := Option.some.inj h
    exact ⟨hval.symm, h1, hlt, .inr ⟨h4, rfl⟩⟩

/-- A positive number has room for its sign. -/
lemma correct_eq (hx : Rest n x) : ∃ y, correct x = some y ∧ Rest n y ∧
    Complement.Normal BASE y ∧ size y ≤ places n ∧ y.length ≤ x.length := by
  obtain ⟨h1, ⟨k, h2⟩, h3⟩ := trim_spec hx.ne_nil hx.lt
  obtain ⟨-, -, hlen⟩ := trim_append hx.ne_nil hx.lt
  rw [hx.val] at h3
  have hnorm := (zero_trim x.reverse (fun d hd => hx.lt d (List.mem_reverse.mp hd))
    (by simpa using hx.ne_nil) (by rw [List.head?_reverse]; exact hx.pos)).1
  have hhead : (skip x.reverse).head? = (trim x).getLast? := by rw [trim, List.getLast?_reverse]
  rw [hhead] at hnorm
  by_cases h4 : (trim x).getLast? = some NEFL
  · have h5 : (trim x).length < x.length := by
      refine lt_of_le_of_ne hlen fun h => hx.pos ?_
      have : k = 0 := by
        have := congrArg List.length h2
        simp at this
        omega
      rw [h2, this]
      simpa using h4
    have hc : correct x = some (x.take ((trim x).length + 1)) := by
      unfold correct
      simp only
      rw [if_pos h4, if_pos h5]
    obtain ⟨j1, j2, j3, j4⟩ := correct_some hx.ne_nil hx.lt hc
    obtain ⟨-, hy⟩ := j4.resolve_right fun h => h.1 h4
    rw [if_pos h4, List.reverse_cons] at hnorm
    refine ⟨_, hc, ⟨j3, j2, ?_, j1.trans hx.val⟩, hy ▸ hnorm, ?_, ?_⟩
    · rw [hy]
      simp [ispos, NEFL, BASE]
    · rw [hy, size, if_pos (by simp), places, ← h3]
      simp
    · rw [List.length_take]
      omega
  · have hc : correct x = some (trim x) := by
      unfold correct
      simp only
      rw [if_neg h4]
    obtain ⟨j1, j2, j3, -⟩ := correct_some hx.ne_nil hx.lt hc
    rw [if_neg h4] at hnorm
    refine ⟨_, hc, ⟨j3, j2, h4, j1.trans hx.val⟩, hnorm, ?_, hlen⟩
    rw [places, ← h3]
    exact size_le _

lemma int16_nat {m : ℕ} (hm : m < 65536) :
    int16 m = if m < 32768 then (m : ℤ) else m - 65536 := by
  unfold int16
  split_ifs <;> omega

lemma int16_lt {m n : ℕ} (hm : m < 65536) (hn : n < 65536) :
    (int16 m = int16 n ↔ m = n) ∧
      (int16 m < int16 n ↔ if SameSide m n then m < n else n < m) := by
  rw [int16_nat hm, int16_nat hn]
  have hside : SameSide m n ↔ (m < 32768 ↔ n < 32768) := Iff.rfl
  by_cases h1 : m < 32768 <;> by_cases h2 : n < 32768
  · rw [if_pos h1, if_pos h2, if_pos (by simp [hside, h1, h2])]
    omega
  · rw [if_pos h1, if_neg h2, if_neg (by simp [hside, h1, h2])]
    omega
  · rw [if_neg h1, if_pos h2, if_neg (by simp [hside, h1, h2])]
    omega
  · rw [if_neg h1, if_neg h2, if_pos (by simp [hside, h1, h2])]
    omega

/-- **The comparison**: right if the two lengths are on the same side. -/
lemma snc_eq (hb : Divisor b D) (hx : Rest n x) (hl : b.length + s < 65536) (hlx : x.length < 65536) :
    ∃ y, correct x = some y ∧ snc b s x = some (decide (if SameSide (places n) (b.length + s - 1) then
        D * BASE ^ s ≤ n else n < D * BASE ^ s), y) ∧
      Rest n y ∧ Complement.Normal BASE y ∧ size y ≤ places n ∧ y.length ≤ x.length := by
  obtain ⟨h1, -, h3⟩ := trim_spec hx.ne_nil hx.lt
  obtain ⟨hval, hlt, hlen⟩ := trim_append hx.ne_nil hx.lt
  have hpl : (trim x).length = places n := by rw [h3, hx.val, places]
  have hlong := hb.long
  obtain ⟨hD1, hD2⟩ := hb.bounds
  have hpow : 0 < BASE ^ s := Nat.pow_pos (by decide)
  -- the value of the comparison
  have hcmp : (if int16 (trim x).length ≠ int16 ((b.length + s : ℕ) - 1) then
      decide (int16 ((b.length + s : ℕ) - 1) < int16 (trim x).length)
      else overflows b.dropLast.reverse (trim x).reverse) =
      decide (if SameSide (places n) (b.length + s - 1) then D * BASE ^ s ≤ n
        else n < D * BASE ^ s) := by
    have hcast : ((b.length + s : ℕ) : ℤ) - 1 = ((b.length + s - 1 : ℕ) : ℤ) := by omega
    rw [hpl] at hlen
    obtain ⟨i1, i2⟩ := int16_lt (m := b.length + s - 1) (n := places n) (by omega) (by omega)
    have hsym : SameSide (b.length + s - 1) (places n) ↔ SameSide (places n) (b.length + s - 1) :=
      Iff.comm
    rw [hcast, hpl]
    obtain h | h | h := lt_trichotomy (places n) (b.length + s - 1)
    · have hn : n < D * BASE ^ s := by
        calc n < BASE ^ places n := lt_places n
          _ ≤ BASE ^ (b.length - 2 + s) := Nat.pow_le_pow_right (by decide) (by omega)
          _ = BASE ^ (b.length - 2) * BASE ^ s := pow_add _ _ _
          _ ≤ D * BASE ^ s := Nat.mul_le_mul_right _ hD1.le
      rw [if_pos fun he => absurd (i1.mp he.symm) (by omega)]
      refine decide_eq_decide.mpr (i2.trans ?_)
      simp only [hsym]
      split_ifs
      · exact iff_of_false (by omega) (by omega)
      · exact iff_of_true (by omega) hn
    · have hside : SameSide (places n) (b.length + s - 1) := by rw [h]; exact Iff.rfl
      rw [if_neg (by rw [h]; simp)]
      simp only [if_pos hside]
      have hdl : b.dropLast.reverse.length = b.length - 1 := by simp
      have hle : b.dropLast.reverse.length ≤ (trim x).reverse.length := by
        rw [hdl, List.length_reverse, hpl]
        omega
      have ho := overflows_iff hle
        (fun d hd => hb.normal.lt d (List.dropLast_subset b (List.mem_reverse.mp hd)))
        (fun d hd => hlt d (List.mem_reverse.mp hd))
      have htop : ((trim x).reverse.take (b.length - 1)).reverse = (trim x).drop s := by
        rw [List.take_reverse, List.reverse_reverse, hpl]
        congr 1
        omega
      rw [List.reverse_reverse, hdl, htop] at ho
      have hdig := hb.digits
      have hsplit : n = Nat.ofDigits BASE ((trim x).take s) +
          BASE ^ s * Nat.ofDigits BASE ((trim x).drop s) := by
        have hts : ((trim x).take s).length = s := by rw [List.length_take, hpl]; omega
        rw [← hx.val, hval]
        conv_lhs => rw [← List.take_append_drop s (trim x), Nat.ofDigits_append, hts]
      have hlow : Nat.ofDigits BASE ((trim x).take s) < BASE ^ s := by
        have := ofDigits_lt (l := (trim x).take s) fun d hd => hlt d (List.mem_of_mem_take hd)
        rwa [show ((trim x).take s).length = s by rw [List.length_take, hpl]; omega] at this
      generalize Nat.ofDigits BASE ((trim x).take s) = lo at *
      generalize Nat.ofDigits BASE ((trim x).drop s) = hi at *
      have hiff : D * BASE ^ s ≤ n ↔ D ≤ hi := by
        rw [hsplit, mul_comm]
        constructor
        · intro h5
          by_contra h6
          have : BASE ^ s * (hi + 1) ≤ BASE ^ s * D := Nat.mul_le_mul_left _ (by omega)
          rw [mul_add, mul_one] at this
          omega
        · intro h5
          have : BASE ^ s * D ≤ BASE ^ s * hi := Nat.mul_le_mul_left _ h5
          omega
      rw [Bool.eq_iff_iff, ho, decide_eq_true_iff, hiff]
      omega
    · have hn : D * BASE ^ s ≤ n := by
        calc D * BASE ^ s ≤ BASE ^ (b.length - 1) * BASE ^ s := Nat.mul_le_mul_right _ hD2
          _ = BASE ^ (b.length - 1 + s) := (pow_add _ _ _).symm
          _ = BASE ^ (b.length + s - 2 + 1) := by congr 1; omega
          _ ≤ n := pow_places (by omega)
      rw [if_pos fun he => absurd (i1.mp he.symm) (by omega)]
      refine decide_eq_decide.mpr (i2.trans ?_)
      simp only [hsym]
      split_ifs
      · exact iff_of_true (by omega) hn
      · exact iff_of_false (by omega) (by omega)
  obtain ⟨y, hy, hr⟩ := correct_eq hx
  refine ⟨y, hy, ?_, hr⟩
  unfold snc
  simp only
  rw [hy, hcmp, Option.map_some]

/-! ### One digit of the quotient -/

/-- A divisor and its estimate. -/
structure Estimate (b : List ℕ) (D den : ℕ) : Prop extends Divisor b D where
  eq : est b = den
  lt : BASE < den
  le : den ≤ BASE * BASE
  above : D ≤ den * BASE ^ (b.length - 3)
  near : den * BASE ^ (b.length - 3) < D + BASE ^ (b.length - 3)

lemma Divisor.estimate (hb : Divisor b D) : ∃ den, Estimate b D den := by
  obtain ⟨den, h1, h2, h3, h4, h5⟩ := hb.est_spec
  exact ⟨den, hb, h1, h2, h3, h4, h5⟩

/-- The multiple of the divisor is taken away exactly if there is enough. -/
lemma msma_sub (hb : Divisor b D) (hx : ∀ d ∈ x, d < BASE) (hn : n ≤ NEFL)
    (h : n * (D * BASE ^ s) ≤ Nat.ofDigits BASE x) :
    ∃ y, msma b n s x = some y ∧ y.length = x.length ∧ (∀ d ∈ y, d < BASE) ∧
      Nat.ofDigits BASE y = Nat.ofDigits BASE x - n * (D * BASE ^ s) := by
  obtain rfl | hn0 := Nat.eq_zero_or_pos n
  · refine ⟨x, ?_, rfl, hx, by simp⟩
    unfold msma
    rw [if_pos (by decide), if_pos rfl]
  have hlong := hb.long
  have hlt := ofDigits_lt hx
  have hlen : s + (b.length - 1) ≤ x.length := by
    by_contra hc
    have h1 : BASE ^ x.length ≤ BASE ^ (b.length - 2) * BASE ^ s := by
      rw [← pow_add]
      exact Nat.pow_le_pow_right (by decide) (by omega)
    have h2 : BASE ^ (b.length - 2) * BASE ^ s ≤ D * BASE ^ s :=
      Nat.mul_le_mul_right _ hb.bounds.1.le
    have h3 : D * BASE ^ s ≤ n * (D * BASE ^ s) := Nat.le_mul_of_pos_left _ hn0
    omega
  obtain ⟨y, h1, h2, h3, h4⟩ := msma_spec (m := s) hb.normal hn hx (by rwa [if_neg hb.not_pos])
  refine ⟨y, h1, h2, h3, ?_⟩
  have hlt' := ofDigits_lt h3
  rw [h2] at hlt'
  have hval : ((Nat.ofDigits BASE x : ℕ) : ℤ) + BASE ^ s * (n * value BASE b) =
      ((Nat.ofDigits BASE x - n * (D * BASE ^ s) : ℕ) : ℤ) := by
    rw [hb.value, Nat.cast_sub h]
    push_cast
    ring
  rw [hval] at h4
  have h5 : (Nat.ofDigits BASE x - n * (D * BASE ^ s)) ≡ Nat.ofDigits BASE y
      [MOD BASE ^ x.length] := by
    refine (Int.natCast_modEq_iff).mp ?_
    push_cast at h4 ⊢
    exact h4
  exact (Nat.ModEq.eq_of_lt_of_lt h5 (by omega) hlt').symm

/-- However much there is, what is left and the multiple are together not less. -/
lemma msma_le (hb : Divisor b D) (hx : ∀ d ∈ x, d < BASE) (h : msma b 1 s x = some y) :
    (∀ d ∈ y, d < BASE) ∧ y.length = x.length ∧
      Nat.ofDigits BASE x ≤ Nat.ofDigits BASE y + D * BASE ^ s := by
  have hlen : s + (b.length - 1) ≤ x.length := by
    unfold msma at h
    rw [if_pos (by decide), if_neg (by decide), if_neg hb.not_pos] at h
    simp only [List.length_dropLast] at h
    by_contra hc
    rw [if_neg hc] at h
    exact absurd h (by simp)
  obtain hle | hlt := le_or_gt (1 * (D * BASE ^ s)) (Nat.ofDigits BASE x)
  · obtain ⟨y', h1, h2, h3, h4⟩ := msma_sub hb hx (by decide) hle
    obtain rfl : y' = y := Option.some.inj (h1.symm.trans h)
    exact ⟨h3, h2, by omega⟩
  · obtain ⟨y', h1, h2, h3, -⟩ := msma_spec (m := s) hb.normal (n := 1) (by decide) hx
      (by rwa [if_neg hb.not_pos])
    obtain rfl : y' = y := Option.some.inj (h1.symm.trans h)
    exact ⟨h3, h2, by omega⟩

/-- What is left is in the same places, and positive. -/
lemma pos_of_le (hx : Rest n x) (hl : y.length = x.length) (hy : ∀ d ∈ y, d < BASE)
    (h : Nat.ofDigits BASE y ≤ n) : Rest (Nat.ofDigits BASE y) y := by
  have hne : y ≠ [] := fun h => hx.ne_nil (List.eq_nil_of_length_eq_zero (by rw [← hl, h]; rfl))
  refine ⟨hy, hne, fun hn => ?_, rfl⟩
  obtain ⟨k, hk⟩ : ∃ k, x.length = k + 1 :=
    ⟨x.length - 1, by have := List.length_pos_iff.mpr hx.ne_nil; omega⟩
  have h1 := (value_bounds two_le_base hx.lt hk).2
  have h2 := (value_bounds two_le_base hy (hl.trans hk)).1
  rw [value_pos hx.pos, hx.val] at h1
  rw [value_neg (not_not.mpr hn), hl, hk, pow_succ] at h2
  have h3 : ((Nat.ofDigits BASE y : ℕ) : ℤ) ≤ n := by exact_mod_cast h
  simp only [BASE] at *
  push_cast at *
  linarith

/-- What the guess leaves of `n`. -/
def leftover (b : List ℕ) (D den s n : ℕ) : ℕ :=
  n - n / BASE ^ (b.length - 3 + s) / den * (D * BASE ^ s)

section
variable (hb : Estimate b D den)
include hb

/-- **The guess is at most one too small.** -/
lemma Estimate.guess_bounds (hg : n / BASE ^ (b.length - 3 + s) < den * BASE) :
    n / BASE ^ (b.length - 3 + s) / den ≤ NEFL ∧
      n / BASE ^ (b.length - 3 + s) / den * (D * BASE ^ s) ≤ n ∧
      leftover b D den s n < 2 * (D * BASE ^ s) := by
  have hg' : n / BASE ^ (b.length - 3 + s) / den < BASE := Nat.div_lt_of_lt_mul hg
  unfold leftover
  have hP : 0 < BASE ^ (b.length - 3) := Nat.pow_pos (by decide)
  have hS : 0 < BASE ^ s := Nat.pow_pos (by decide)
  have hden : 0 < den := by have := hb.lt; omega
  have hlo := Nat.div_mul_le_self (n / BASE ^ (b.length - 3 + s)) den
  have hhi := Nat.lt_div_mul_add (a := n / BASE ^ (b.length - 3 + s)) hden
  have hlo' := Nat.div_mul_le_self n (BASE ^ (b.length - 3 + s))
  have hhi' := Nat.lt_div_mul_add (a := n) (b := BASE ^ (b.length - 3 + s)) (Nat.pow_pos (by decide))
  generalize n / BASE ^ (b.length - 3 + s) = t at *
  generalize t / den = g at *
  rw [pow_add] at hlo' hhi'
  have habove := hb.above
  have hnear := hb.near
  have hD : BASE * BASE ^ (b.length - 3) < D := by
    have := hb.bounds.1
    rwa [show b.length - 2 = b.length - 3 + 1 by have := hb.long; omega, pow_succ, mul_comm] at this
  generalize BASE ^ (b.length - 3) = P at *
  generalize BASE ^ s = S at *
  have h1 : g * (D * S) ≤ n := by
    calc g * (D * S) ≤ g * ((den * P) * S) :=
          Nat.mul_le_mul_left _ (Nat.mul_le_mul_right _ habove)
      _ = g * den * (P * S) := by ring
      _ ≤ t * (P * S) := Nat.mul_le_mul_right _ hlo
      _ ≤ n := hlo'
  refine ⟨by simp only [NEFL]; omega, h1, ?_⟩
  have h2 : n < (g + 1) * (den * P) * S := by
    calc n < t * (P * S) + P * S := hhi'
      _ = (t + 1) * (P * S) := by ring
      _ ≤ (g * den + den) * (P * S) := Nat.mul_le_mul_right _ hhi
      _ = (g + 1) * (den * P) * S := by ring
  have h3 : (g + 1) * (den * P) ≤ (g + 2) * D := by
    calc (g + 1) * (den * P) ≤ (g + 1) * (D + P) := Nat.mul_le_mul_left _ hnear.le
      _ = (g + 1) * D + (g + 1) * P := by ring
      _ ≤ (g + 1) * D + BASE * P := Nat.add_le_add_left (Nat.mul_le_mul_right _ hg') _
      _ ≤ (g + 1) * D + D := Nat.add_le_add_left hD.le _
      _ = (g + 2) * D := by ring
  have h4 : n < g * (D * S) + 2 * (D * S) := by
    calc n < (g + 1) * (den * P) * S := h2
      _ ≤ (g + 2) * D * S := Nat.mul_le_mul_right _ h3
      _ = g * (D * S) + 2 * (D * S) := by ring
  omega

omit hb in
lemma byte_succ (h : d ≤ NEFL) : byte (d + 1) = d + 1 := by
  simp only [byte, NEFL, BASE] at *
  omega

omit hb in
lemma snc_some {c : Bool} (h : snc b s x = some (c, y)) : correct x = some y := by
  obtain ⟨z, h1, h2⟩ := Option.map_eq_some_iff.mp h
  rw [h1, (Prod.mk.inj h2).2]

lemma Estimate.shift_eq (hl : b.length + s < 65536) : b.length - 3 + s + 3 < 65536 := by
  have := hb.long
  omega

/-- A turn after the guess. -/
lemma turn_eq (hx : Rest n x) (hlx : x.length < 65536) (hl : b.length + s < 65536)
    (hsize : size x ≤ b.length + s) (hg : n / BASE ^ (b.length - 3 + s) < den * BASE) :
    ∃ y, Rest (leftover b D den s n) y ∧ Complement.Normal BASE y ∧
      size y ≤ places (leftover b D den s n) ∧ y.length ≤ x.length ∧
      turn b den (b.length - 3) s x =
        if (if SameSide (places (leftover b D den s n)) (b.length + s - 1) then
            D * BASE ^ s ≤ leftover b D den s n else leftover b D den s n < D * BASE ^ s) then
          (msma b 1 s y).map (byte (n / BASE ^ (b.length - 3 + s) / den + 1), ·)
        else some (n / BASE ^ (b.length - 3 + s) / den, y) := by
  obtain ⟨h1, h2, -⟩ := hb.guess_bounds hg
  have hlong := hb.long
  have hguess : guess den (b.length - 3 + s) x = some (n / BASE ^ (b.length - 3 + s) / den) := by
    rw [guess_eq hx.lt (hb.shift_eq hl) hb.lt, hx.val, if_pos ⟨by omega, hg⟩]
  obtain ⟨y, i1, i2, i3, i4⟩ := msma_sub hb.toDivisor hx.lt h1 (by rwa [hx.val])
  rw [hx.val] at i4
  have hy := pos_of_le hx i2 i3 (by omega)
  rw [i4] at hy
  obtain ⟨z, -, j1, j2, j3, j4, j5⟩ := snc_eq (s := s) hb.toDivisor hy hl (by omega)
  refine ⟨z, j2, j3, j4, by omega, ?_⟩
  unfold turn
  simp only [hguess, i1, Option.bind_eq_bind, Option.bind_some]
  change ((snc b s y).bind fun p => _) = _
  rw [j1, Option.bind_some]
  simp only [decide_eq_true_eq]
  refine if_congr Iff.rfl ?_ rfl
  cases msma b 1 s z <;> rfl

/-- Nothing comes of a guess that is no digit. -/
lemma turn_none (hx : ∀ d ∈ x, d < BASE) (hl : b.length + s < 65536)
    (hg : den * BASE ≤ Nat.ofDigits BASE x / BASE ^ (b.length - 3 + s)) :
    turn b den (b.length - 3) s x = none := by
  unfold turn
  rw [guess_eq hx (hb.shift_eq hl) hb.lt, if_neg (by omega)]
  rfl

/-- **A digit is never too small**: with what is left, the dividend is reached. -/
lemma turn_le (hx : ∀ d ∈ x, d < BASE) (hne : x ≠ []) (hl : b.length + s < 65536)
    (h : turn b den (b.length - 3) s x = some (d, y)) :
    (∀ e ∈ y, e < BASE) ∧ y ≠ [] ∧ d ≤ BASE ∧
      Nat.ofDigits BASE x ≤ Nat.ofDigits BASE y + d * (D * BASE ^ s) := by
  unfold turn at h
  rw [guess_eq hx (hb.shift_eq hl) hb.lt] at h
  by_cases hg : size x ≤ b.length - 3 + s + 3 ∧
      Nat.ofDigits BASE x / BASE ^ (b.length - 3 + s) < den * BASE
  swap
  · rw [if_neg hg] at h
    exact absurd h (by simp)
  obtain ⟨h1, h2, -⟩ := hb.guess_bounds hg.2
  obtain ⟨x1, i1, i2, i3, i4⟩ := msma_sub hb.toDivisor hx h1 h2
  have hne1 : x1 ≠ [] := fun h => hne (List.eq_nil_of_length_eq_zero (by rw [← i2, h]; rfl))
  rw [if_pos hg] at h
  simp only [i1, Option.bind_eq_bind, Option.bind_some] at h
  cases hc : snc b s x1 with
  | none => simp [hc] at h
  | some p =>
    obtain ⟨c, x2⟩ := p
    obtain ⟨j1, j2, j3, -⟩ := correct_some hne1 i3 (snc_some hc)
    simp only [hc, Option.bind_some] at h
    cases c with
    | true =>
      -- the divisor is taken away once more
      cases hm : msma b 1 s x2 with
      | none => simp [hm] at h
      | some x3 =>
        obtain ⟨k1, k2, k3⟩ := msma_le hb.toDivisor j3 hm
        rw [if_pos rfl, hm, Option.bind_some, byte_succ h1] at h
        obtain ⟨rfl, rfl⟩ := Prod.mk.inj (Option.some.inj h)
        have hne3 : x3 ≠ [] := fun h => j2 (List.eq_nil_of_length_eq_zero (by rw [← k2, h]; rfl))
        refine ⟨k1, hne3, Nat.succ_le_of_lt (Nat.lt_of_le_of_lt h1 (by decide)), ?_⟩
        rw [add_mul]
        omega
    | false =>
      rw [if_neg (by simp)] at h
      obtain ⟨rfl, rfl⟩ := Prod.mk.inj (Option.some.inj h)
      exact ⟨j3, j2, h1.trans (by decide), by omega⟩

lemma Estimate.guess_fits (hn : n < D * BASE ^ (s + 1)) :
    n / BASE ^ (b.length - 3 + s) < den * BASE := by
  refine Nat.div_lt_of_lt_mul ?_
  calc n < D * BASE ^ (s + 1) := hn
    _ ≤ den * BASE ^ (b.length - 3) * BASE ^ (s + 1) := Nat.mul_le_mul_right _ hb.above
    _ = BASE ^ (b.length - 3 + s) * (den * BASE) := by
      rw [pow_succ, pow_add]
      ring

/-- **A turn with its comparison right** gives the digit of the quotient. -/
lemma turn_exact (hx : Rest n x) (hlx : x.length < 65536) (hl : b.length + s < 65536)
    (hsize : size x ≤ b.length + s) (hn : n < D * BASE ^ (s + 1))
    (hside : SameSide (places (leftover b D den s n)) (b.length + s - 1)) :
    ∃ y, turn b den (b.length - 3) s x = some (n / (D * BASE ^ s), y) ∧
      Rest (n % (D * BASE ^ s)) y ∧ size y ≤ b.length + s - 1 ∧ y.length ≤ x.length := by
  have hg := hb.guess_fits hn
  obtain ⟨y, h1, h2, h3, h4, h5⟩ := turn_eq hb hx hlx hl hsize hg
  obtain ⟨g1, g2, g3⟩ := hb.guess_bounds hg
  simp only [if_pos hside] at h5
  have hlong := hb.long
  obtain ⟨hD1, hD2⟩ := hb.bounds
  have hDs : D * BASE ^ s ≤ BASE ^ (b.length + s - 1) := by
    calc D * BASE ^ s ≤ BASE ^ (b.length - 1) * BASE ^ s := Nat.mul_le_mul_right _ hD2
      _ = BASE ^ (b.length + s - 1) := by rw [← pow_add]; congr 1; omega
  have hDpos : 0 < D * BASE ^ s := Nat.mul_pos (by omega) (Nat.pow_pos (by decide))
  have hlo : leftover b D den s n =
      n - n / BASE ^ (b.length - 3 + s) / den * (D * BASE ^ s) := rfl
  have hbyte := byte_succ g1
  generalize n / BASE ^ (b.length - 3 + s) / den = g at *
  generalize leftover b D den s n = t at *
  by_cases hcmp : D * BASE ^ s ≤ t
  · -- one more
    obtain ⟨z, i1, i2, i3, i4⟩ := msma_sub (n := 1) (s := s) hb.toDivisor h1.lt (by decide)
      (by rw [h1.val]; omega)
    rw [h1.val, one_mul] at i4
    obtain ⟨hq, hr⟩ := (Nat.div_mod_unique (a := n) (d := g + 1) (c := t - D * BASE ^ s) hDpos).mpr
      ⟨by rw [mul_add, mul_one, mul_comm (D * BASE ^ s) g]; omega, by omega⟩
    have hz := pos_of_le h1 i2 i3 (by omega)
    rw [i4] at hz
    refine ⟨z, by rw [h5, if_pos hcmp, i1, Option.map_some, hbyte, hq], by rwa [hr], ?_, by omega⟩
    -- the rest is below twice the divisor, so there is one place less when it is taken away
    have hylen : y.length ≤ b.length + s := by
      by_contra hc
      obtain ⟨k, hk⟩ : ∃ k, y.length = k + 2 := ⟨y.length - 2, by omega⟩
      have hlarge := h2.large two_le_base hk
      rw [value_pos h1.pos, h1.val] at hlarge
      have hpk := base_pow_pos k
      have h6 : (BASE : ℤ) ^ (b.length + s - 1) ≤ (BASE : ℤ) ^ k :=
        pow_le_pow_right₀ (by decide) (by omega)
      have h7 : (t : ℤ) < 2 * (BASE : ℤ) ^ (b.length + s - 1) := by
        have : t < 2 * BASE ^ (b.length + s - 1) := by omega
        exact_mod_cast this
      rw [show (BASE : ℤ) = 128 from rfl] at *
      omega
    unfold size
    split_ifs with hzero
    · omega
    · by_contra hc
      obtain ⟨z', e, rfl⟩ : ∃ z' e, z = z' ++ [e] :=
        ⟨z.dropLast, z.getLast hz.ne_nil, (List.dropLast_append_getLast hz.ne_nil).symm⟩
      have he : 1 ≤ e := by
        rcases Nat.eq_zero_or_pos e with rfl | h
        · simp at hzero
        · exact h
      rw [Nat.ofDigits_append, Nat.ofDigits_singleton] at i4
      rw [List.length_append, List.length_singleton] at hc
      have h6 : BASE ^ (b.length + s - 1) ≤ BASE ^ z'.length :=
        Nat.pow_le_pow_right (by decide) (by omega)
      have h7 : BASE ^ z'.length ≤ BASE ^ z'.length * e := Nat.le_mul_of_pos_right _ he
      omega
  · obtain ⟨hq, hr⟩ := (Nat.div_mod_unique (a := n) (d := g) (c := t) hDpos).mpr
      ⟨by rw [mul_comm (D * BASE ^ s) g]; omega, by omega⟩
    refine ⟨y, by rw [h5, if_neg hcmp, hq], by rwa [hr], h3.trans ?_, h4⟩
    exact places_le (by omega) (by omega)

/-- **A turn with its comparison wrong**: either too much is taken away, or what is left has too
many places for the next guess. -/
lemma turn_off (hx : Rest n x) (hlx : x.length < 65536) (hl : b.length + s < 65536)
    (hsize : size x ≤ b.length + s) (hn : n < D * BASE ^ (s + 1))
    (hside : ¬ SameSide (places (leftover b D den s n)) (b.length + s - 1))
    (h : turn b den (b.length - 3) s x = some (d, y)) :
    n < Nat.ofDigits BASE y + d * (D * BASE ^ s) ∨
      BASE ^ (b.length + s - 1) ≤ Nat.ofDigits BASE y := by
  have hg := hb.guess_fits hn
  obtain ⟨z, h1, h2, h3, h4, h5⟩ := turn_eq hb hx hlx hl hsize hg
  obtain ⟨g1, g2, g3⟩ := hb.guess_bounds hg
  simp only [if_neg hside] at h5
  rw [h] at h5
  have hbyte := byte_succ g1
  have hlo : leftover b D den s n =
      n - n / BASE ^ (b.length - 3 + s) / den * (D * BASE ^ s) := rfl
  split_ifs at h5 with hcmp
  · left
    cases hm : msma b 1 s z with
    | none => simp [hm] at h5
    | some z' =>
      rw [hm, Option.map_some, hbyte] at h5
      obtain ⟨rfl, rfl⟩ := Prod.mk.inj (Option.some.inj h5)
      rw [add_mul]
      omega
  · right
    obtain ⟨rfl, rfl⟩ := Prod.mk.inj (Option.some.inj h5)
    rw [h1.val]
    obtain hlt | heq | hgt := lt_trichotomy (places (leftover b D den s n)) (b.length + s - 1)
    · refine absurd (lt_places (leftover b D den s n)) (not_lt.mpr ?_)
      calc BASE ^ places (leftover b D den s n) ≤ BASE ^ (b.length - 2) * BASE ^ s := by
            rw [← pow_add]
            exact Nat.pow_le_pow_right (by decide) (by have := hb.long; omega)
        _ ≤ D * BASE ^ s := Nat.mul_le_mul_right _ hb.bounds.1.le
        _ ≤ leftover b D den s n := by omega
    · exact absurd (by rw [heq]; exact Iff.rfl) hside
    · obtain ⟨k, hk⟩ : ∃ k, b.length + s - 1 = k + 1 :=
        ⟨b.length + s - 2, by have := hb.long; omega⟩
      rw [hk] at hgt ⊢
      exact pow_places hgt

end

/-! ### All digits -/

/-- At each place from `s` down, the lengths compared are on the same side. -/
def Clear (b : List ℕ) (D den n s : ℕ) : Prop :=
  ∀ i ≤ s, SameSide (places (leftover b D den i (n % (D * BASE ^ (i + 1))))) (b.length + i - 1)

instance (b : List ℕ) (D den n s : ℕ) : Decidable (Clear b D den n s) := by
  unfold Clear
  infer_instance

/-- The place `s` and those below, for what is left at `s`. -/
lemma clear_succ (hn : n < D * BASE ^ (s + 2)) : Clear b D den n (s + 1) ↔
    SameSide (places (leftover b D den (s + 1) n)) (b.length + (s + 1) - 1) ∧
      Clear b D den (n % (D * BASE ^ (s + 1))) s := by
  have hmod : ∀ i ≤ s, n % (D * BASE ^ (s + 1)) % (D * BASE ^ (i + 1)) =
      n % (D * BASE ^ (i + 1)) := fun i hi =>
    Nat.mod_mod_of_dvd _ (Nat.mul_dvd_mul_left _ (pow_dvd_pow _ (by omega)))
  constructor
  · intro h
    refine ⟨?_, fun i hi => ?_⟩
    · have := h (s + 1) (le_refl _)
      rwa [Nat.mod_eq_of_lt hn] at this
    · rw [hmod i hi]
      exact h i (by omega)
  · rintro ⟨h1, h2⟩ i hi
    obtain rfl | hi := Nat.eq_or_lt_of_le hi
    · rwa [Nat.mod_eq_of_lt hn]
    · have := h2 i (by omega)
      rwa [hmod i (by omega)] at this

lemma clear_zero (hn : n < D * BASE) :
    Clear b D den n 0 ↔ SameSide (places (leftover b D den 0 n)) (b.length + 0 - 1) := by
  constructor
  · intro h
    have := h 0 (le_refl _)
    rwa [zero_add, pow_one, Nat.mod_eq_of_lt hn] at this
  · intro h i hi
    obtain rfl : i = 0 := by omega
    rwa [zero_add, pow_one, Nat.mod_eq_of_lt hn]

lemma ofDigits_concat (l : List ℕ) (d : ℕ) :
    Nat.ofDigits BASE (l ++ [d]) = Nat.ofDigits BASE l + BASE ^ l.length * d := by
  rw [Nat.ofDigits_append, Nat.ofDigits_singleton]

section
variable (hb : Estimate b D den)
include hb

/-- **The loop with its comparisons right** gives the quotient and the remainder. -/
lemma turns_exact (hx : Rest n x) (hlx : x.length < 65536) (hl : b.length + s < 65536)
    (hsize : size x ≤ b.length + s) (hn : n < D * BASE ^ (s + 1)) (hc : Clear b D den n s) :
    ∃ ds y, turns b den (b.length - 3) s x = some (ds, y) ∧ ds.length = s + 1 ∧
      Nat.ofDigits BASE ds = n / D ∧ Rest (n % D) y := by
  induction s generalizing n x with
  | zero =>
    obtain ⟨y, h1, h2, -, -⟩ := turn_exact hb hx hlx hl hsize hn
      ((clear_zero (by simpa using hn)).mp hc)
    rw [pow_zero, mul_one] at h1 h2
    exact ⟨[n / D], y, by rw [turns, h1]; rfl, rfl, by simp, h2⟩
  | succ s ih =>
    obtain ⟨hc1, hc2⟩ := (clear_succ hn).mp hc
    obtain ⟨y, h1, h2, h3, h4⟩ := turn_exact hb hx hlx hl hsize hn hc1
    have hD : 0 < D := by have := hb.bounds.1; omega
    have hDs : 0 < D * BASE ^ (s + 1) := Nat.mul_pos hD (Nat.pow_pos (by decide))
    obtain ⟨ds, z, i1, i2, i3, i4⟩ := ih h2 (by omega) (by omega) (by omega)
      (Nat.mod_lt _ hDs) hc2
    refine ⟨ds ++ [n / (D * BASE ^ (s + 1))], z, ?_, by simp [i2], ?_, ?_⟩
    · rw [turns, h1]
      simp only [Option.bind_eq_bind, Option.bind_some, i1]
    · rw [ofDigits_concat, i3, i2]
      conv_rhs => rw [← Nat.mod_add_div n (D * BASE ^ (s + 1))]
      rw [mul_assoc D, Nat.add_mul_div_left _ _ hD]
    · rwa [Nat.mod_mod_of_dvd _ (Nat.dvd_mul_right _ _)] at i4

/-- **The quotient is never too small**, whatever the comparisons say. -/
lemma turns_le {ds : List ℕ} (hx : ∀ e ∈ x, e < BASE) (hne : x ≠ []) (hl : b.length + s < 65536)
    (h : turns b den (b.length - 3) s x = some (ds, y)) :
    ds.length = s + 1 ∧ (∀ e ∈ ds, e ≤ BASE) ∧ (∀ e ∈ y, e < BASE) ∧ y ≠ [] ∧
      Nat.ofDigits BASE x ≤ Nat.ofDigits BASE y + Nat.ofDigits BASE ds * D := by
  induction s generalizing x ds with
  | zero =>
    obtain ⟨⟨d, z⟩, h1, h2⟩ := Option.bind_eq_some_iff.mp h
    obtain ⟨rfl, rfl⟩ := Prod.mk.inj (Option.some.inj h2)
    obtain ⟨i1, i2, i3, i4⟩ := turn_le hb hx hne hl h1
    refine ⟨rfl, by simpa using i3, i1, i2, ?_⟩
    rw [pow_zero, mul_one] at i4
    rwa [Nat.ofDigits_singleton]
  | succ s ih =>
    obtain ⟨⟨d, z⟩, h1, h2⟩ := Option.bind_eq_some_iff.mp h
    obtain ⟨⟨es, t⟩, h3, h4⟩ := Option.bind_eq_some_iff.mp h2
    obtain ⟨rfl, rfl⟩ := Prod.mk.inj (Option.some.inj h4)
    obtain ⟨i1, i2, i3, i4⟩ := turn_le hb hx hne hl h1
    obtain ⟨j1, j2, j3, j4, j5⟩ := ih i1 i2 (by omega) h3
    refine ⟨by simp [j1], ?_, j3, j4, ?_⟩
    · intro e he
      rcases List.mem_append.mp he with he | he
      · exact j2 e he
      · rw [List.mem_singleton.mp he]
        exact i3
    · rw [ofDigits_concat, j1, add_mul]
      have : BASE ^ (s + 1) * d * D = d * (D * BASE ^ (s + 1)) := by ring
      omega

/-- **Comparisons that are wrong show**: in the sum, or in the remainder. -/
lemma turns_clear {ds : List ℕ} (hx : Rest n x) (hlx : x.length < 65536)
    (hl : b.length + s < 65536) (hsize : size x ≤ b.length + s) (hn : n < D * BASE ^ (s + 1))
    (h : turns b den (b.length - 3) s x = some (ds, y))
    (hsum : Nat.ofDigits BASE y + Nat.ofDigits BASE ds * D = n) (hy : Nat.ofDigits BASE y < D) :
    Clear b D den n s := by
  induction s generalizing n x ds with
  | zero =>
    rw [clear_zero (by simpa using hn)]
    by_contra hside
    obtain ⟨⟨d, z⟩, h1, h2⟩ := Option.bind_eq_some_iff.mp h
    obtain ⟨rfl, rfl⟩ := Prod.mk.inj (Option.some.inj h2)
    have hD := hb.bounds.2
    obtain h3 | h3 := turn_off hb hx hlx hl hsize hn hside h1
    · rw [pow_zero, mul_one] at h3
      rw [Nat.ofDigits_singleton] at hsum
      omega
    · rw [add_zero] at h3
      omega
  | succ s ih =>
    obtain ⟨⟨d, z⟩, h1, h2⟩ := Option.bind_eq_some_iff.mp h
    obtain ⟨⟨es, t⟩, h3, h4⟩ := Option.bind_eq_some_iff.mp h2
    obtain ⟨rfl, rfl⟩ := Prod.mk.inj (Option.some.inj h4)
    obtain ⟨i1, i2, -, -⟩ := turn_le hb hx.lt hx.ne_nil hl h1
    obtain ⟨j1, -, -, -, j5⟩ := turns_le hb i1 i2 (by omega) h3
    have hmul : BASE ^ (s + 1) * d * D = d * (D * BASE ^ (s + 1)) := by ring
    rw [ofDigits_concat, j1, add_mul] at hsum
    rw [clear_succ hn]
    by_cases hside : SameSide (places (leftover b D den (s + 1) n)) (b.length + (s + 1) - 1)
    swap
    · exfalso
      obtain h5 | h5 := turn_off hb hx hlx hl hsize hn hside h1
      · omega
      · -- the next guess is no digit
        have hnone : turn b den (b.length - 3) s z = none := by
          refine turn_none hb i1 (by omega) ?_
          rw [Nat.le_div_iff_mul_le (Nat.pow_pos (by decide))]
          calc den * BASE * BASE ^ (b.length - 3 + s)
              ≤ BASE * BASE * BASE * BASE ^ (b.length - 3 + s) :=
                Nat.mul_le_mul_right _ (Nat.mul_le_mul_right _ hb.le)
            _ = BASE ^ (b.length - 3 + s + 3) := by ring
            _ = BASE ^ (b.length + (s + 1) - 1) := by
              congr 1
              have := hb.long
              omega
            _ ≤ _ := h5
        cases s with
        | zero =>
          rw [turns, hnone] at h3
          exact absurd h3 (by simp)
        | succ s =>
          rw [turns, hnone] at h3
          exact absurd h3 (by simp)
    refine ⟨hside, ?_⟩
    obtain ⟨z', k1, k2, k3, k4⟩ := turn_exact hb hx hlx hl hsize hn hside
    obtain ⟨hd, rfl⟩ := Prod.mk.inj (Option.some.inj (k1.symm.trans h1))
    have hDs : 0 < D * BASE ^ (s + 1) :=
      Nat.mul_pos (by have := hb.bounds.1; omega) (Nat.pow_pos (by decide))
    refine ih k2 (by omega) (by omega) (by omega) (Nat.mod_lt _ hDs) h3 ?_
    have hdm := Nat.mod_add_div n (D * BASE ^ (s + 1))
    rw [hd, mul_comm (D * BASE ^ (s + 1)) d] at hdm
    omega

end

/-! ### Long division -/

lemma ofDigits_le (h : ∀ d ∈ l, d ≤ BASE) : Nat.ofDigits BASE l + 2 ≤ 2 * BASE ^ l.length := by
  induction l with
  | nil => simp
  | cons d l ih =>
    have ih := ih fun x hx => h x (by simp [hx])
    have hd : d ≤ 128 := h d (by simp)
    rw [Nat.ofDigits_cons, List.length_cons, pow_succ]
    simp only [BASE] at *
    omega

/-- The sign of what `norm` makes of any digits is that of the leading one. -/
lemma norm_value (hl : l ≠ []) (hd : ∀ d ∈ l, d < BASE) : norm l = ofInt BASE (value BASE l) := by
  obtain ⟨n, hn⟩ : ∃ n, l.length = n + 1 :=
    ⟨l.length - 1, by have := List.length_pos_iff.mpr hl; omega⟩
  obtain ⟨h1, h2⟩ := value_bounds two_le_base hd hn
  exact norm_eq hn (hn ▸ value_modEq l) h1 h2

/-- The digits of the quotient with a zero above them. -/
lemma norm_quot (h : ∀ d ∈ l, d ≤ BASE) (hl : l ≠ []) :
    norm (l ++ [0]) = ofInt BASE (Nat.ofDigits BASE l : ℕ) := by
  obtain ⟨n, hn⟩ : ∃ n, l.length = n + 1 :=
    ⟨l.length - 1, by have := List.length_pos_iff.mpr hl; omega⟩
  have h1 := ofDigits_le h
  have h2 : Nat.ofDigits BASE (l ++ [0]) = Nat.ofDigits BASE l := by rw [ofDigits_concat]; simp
  rw [← h2]
  refine norm_lt (n := n + 1) (by simp [hn]) ?_
  rw [h2]
  rw [hn] at h1
  simp only [BASE] at *
  omega

/-- The dividend, a positive normal number. -/
lemma rest_abs (v : ℤ) : Rest v.natAbs (ofInt BASE |v|) := by
  have hn := normal_int |v|
  refine ⟨hn.lt, hn.ne_nil, (ispos_iff hn).mpr (by simp), ?_⟩
  have h := ofDigits_abs v
  rw [← Int.natCast_natAbs] at h
  exact_mod_cast h

section
variable (hb : Estimate b D den)
include hb

lemma longd_turns (hl : b.length - 1 ≤ x.length) :
    longd x b = (turns b den (b.length - 3) (x.length - (b.length - 1)) x).map
      fun p => (norm (p.1 ++ [0]), norm p.2) := by
  have hlong := hb.long
  unfold longd
  rw [if_pos ⟨hb.not_pos, hlong⟩]
  simp only [hb.eq]
  rw [if_pos ⟨by exact_mod_cast hb.le, by exact_mod_cast hb.lt⟩, if_pos (by omega), Int.toNat_natCast,
    show b.length - 3 + 2 = b.length - 1 by omega]
  cases turns b den (b.length - 3) (x.length - (b.length - 1)) x <;> rfl

/-- The dividend is below the divisor at the place above the first. -/
lemma Estimate.start (hx : Rest n x) (hl : b.length - 1 ≤ x.length) :
    n < D * BASE ^ (x.length - (b.length - 1) + 1) := by
  have hlong := hb.long
  calc n < BASE ^ x.length := by
        rw [← hx.val]
        exact ofDigits_lt hx.lt
    _ = BASE ^ (b.length - 2) * BASE ^ (x.length - (b.length - 1) + 1) := by
      rw [← pow_add]
      congr 1
      omega
    _ ≤ D * BASE ^ (x.length - (b.length - 1) + 1) := Nat.mul_le_mul_right _ hb.bounds.1.le

lemma longd_exact (hx : Rest n x) (hl : b.length - 1 ≤ x.length) (hf : fits (x.length + 1))
    (hc : Clear b D den n (x.length - (b.length - 1))) :
    longd x b = some (ofInt BASE (n / D : ℕ), ofInt BASE (n % D : ℕ)) := by
  have hlong := hb.long
  unfold fits at hf
  obtain ⟨ds, y, h1, h2, h3, h4⟩ := turns_exact hb hx (by omega) (by omega)
    (by have := size_le x; omega) (hb.start hx hl) hc
  obtain ⟨-, i2, -, -, -⟩ := turns_le hb hx.lt hx.ne_nil (by omega) h1
  have hne : ds ≠ [] := by
    rintro rfl
    simp at h2
  rw [longd_turns hb hl, h1, Option.map_some, norm_quot i2 hne, norm_digits h4.ne_nil h4.lt h4.pos,
    h3, h4.val]

/-- A result that is right comes of comparisons that are. -/
lemma longd_clear {res rem : List ℕ} (hx : Rest n x) (hl : b.length - 1 ≤ x.length)
    (hs : fits x.length) (h : longd x b = some (res, rem)) :
    fits (x.length + 1) ∧ Complement.Normal BASE res ∧ Complement.Normal BASE rem ∧
      (value BASE rem + value BASE res * D = n → |value BASE rem| < D →
        (value BASE res ≠ 0 → value BASE rem ≠ 0 → (0 < value BASE res ↔ 0 < value BASE rem)) →
        Clear b D den n (x.length - (b.length - 1))) := by
  have hlong := hb.long
  unfold fits at hs ⊢
  rw [longd_turns hb hl] at h
  obtain ⟨⟨ds, y⟩, h1, h2⟩ := Option.map_eq_some_iff.mp h
  obtain ⟨rfl, rfl⟩ := Prod.mk.inj h2
  have hfit : x.length + 1 < 65536 := by
    by_contra hc
    -- the place above the dividend wraps around to the lowest
    have hg : guess den (b.length - 3 + (x.length - (b.length - 1))) x = none := by
      unfold guess unsigned
      simp only
      rw [if_neg]
      have : 65534 ≤ size x := by unfold size; split_ifs <;> omega
      rw [show b.length - 3 + (x.length - (b.length - 1)) + 3 = 65536 by omega]
      omega
    have hnone : turn b den (b.length - 3) (x.length - (b.length - 1)) x = none := by
      unfold turn
      rw [hg]
      rfl
    generalize x.length - (b.length - 1) = s at *
    cases s with
    | zero =>
      rw [turns, hnone] at h1
      exact absurd h1 (by simp)
    | succ s =>
      rw [turns, hnone] at h1
      exact absurd h1 (by simp)
  obtain ⟨i1, i2, i3, i4, i5⟩ := turns_le hb hx.lt hx.ne_nil (by omega) h1
  have hne : ds ≠ [] := by
    rintro rfl
    simp at i1
  rw [norm_quot i2 hne, norm_value i4 i3]
  refine ⟨hfit, normal_int _, normal_int _, ?_⟩
  rw [value_int, value_int]
  intro hsum hlt hsign
  have hpos : ispos y := by
    by_contra hp
    have hneg : value BASE y < 0 := by
      by_contra hc
      exact hp ((value_nonneg two_le_base i3 i4).mp (by omega))
    generalize Nat.ofDigits BASE ds = Q at hsum hsign
    have hq : 0 < Q := by
      refine Nat.pos_of_ne_zero fun h0 => ?_
      rw [h0] at hsum
      simp only [Nat.cast_zero, zero_mul, add_zero] at hsum
      omega
    have := (hsign (by omega) (by omega)).mp (by exact_mod_cast hq)
    omega
  rw [value_pos hpos] at hsum hlt
  rw [abs_of_nonneg (by omega)] at hlt
  refine turns_clear hb hx (by omega) (by omega) (by have := size_le x; omega) (hb.start hx hl) h1
    ?_ (by exact_mod_cast hlt)
  exact_mod_cast hsum

end

/-! ### Any division -/

/-- The divisor as long division takes it. -/
def divisor (w : ℤ) : List ℕ := ofInt BASE (-|w|)

/-- The blocks of a long division have lengths, and the comparisons are of lengths that compare as
`int`s. -/
def LongFits (v w : ℤ) : Prop :=
  (0 ≤ w → NegFits w) ∧ (Differ v w → NegFits (|v| % |w|)) ∧
    (len (-|w|) - 1 ≤ len |v| → fits (len |v| + 1) ∧
      Clear (divisor w) w.natAbs (est (divisor w)).toNat v.natAbs (len |v| - (len (-|w|) - 1)))

def MdivFits (v w : ℤ) : Prop := (Differ v w → NegFits (|v| / |w|)) ∧ (128 < |w| → LongFits v w)

instance (v w : ℤ) : Decidable (MdivFits v w) := by
  unfold MdivFits LongFits
  infer_instance

lemma divisor_spec (hw : 128 < |w|) : Divisor (divisor w) w.natAbs := by
  have hn := normal_int (-|w|)
  refine ⟨hn, by rw [divisor, value_int]; simp, ?_⟩
  by_contra hc
  obtain ⟨n, hl⟩ := exists_length hn
  have hb := (value_bounds two_le_base hn.lt hl).1
  rw [value_int] at hb
  have h1 : (BASE : ℤ) ^ n ≤ (BASE : ℤ) ^ 1 :=
    pow_le_pow_right₀ (by decide) (by unfold divisor at hc; omega)
  simp only [BASE] at *
  push_cast at *
  omega

/-- A small divisor is left to `sdiv`. -/
lemma mdiv_small (s : V → List ℕ) (a b q r : V) (hb : IsMint (s b))
    (hw : |value BASE (s b)| ≤ 128) :
    mdiv s a b q r = (sdiv s a (value BASE (s b)) q).map
      fun p => Function.update p.1 r (ofInt BASE p.2) := by
  have hs := (small_iff hb.normal).mpr hw
  unfold mdiv shortd
  rw [if_pos hs]
  simp only [denom_eq hb.normal hs]
  cases sdiv s a (value BASE (s b)) q with
  | none => rfl
  | some p =>
    simp only [Option.bind_eq_bind, Option.bind_some, Option.map_some, mitom_eq]

/-- The quotient and the remainder of the numbers made positive and negative. -/
def longPart (v w : ℤ) : Option (List ℕ × List ℕ) :=
  if len |v| ≤ len (-|w|) - 2 then some ([0], ofInt BASE |v|)
  else longd (ofInt BASE |v|) (divisor w)

lemma mdiv_long (s : V → List ℕ) (a b q r : V) (ha : IsMint (s a)) (hb : IsMint (s b))
    (hw : 128 < |value BASE (s b)|) :
    mdiv s a b q r = if 0 ≤ value BASE (s b) → NegFits (value BASE (s b)) then
      (longPart (value BASE (s a)) (value BASE (s b))).bind fun p =>
        if Differ (value BASE (s a)) (value BASE (s b)) then
          (mneg (Function.update s q p.1) q q).bind fun s' =>
            (neg p.2).map (Function.update s' r)
        else some (Function.update (Function.update s q p.1) r p.2)
      else none := by
  have hs : ¬ small (s b) := fun h => absurd ((small_iff hb.normal).mp h) (by omega)
  have hsa := ispos_iff ha.normal
  have hsb := ispos_iff hb.normal
  have hd : (if ispos (s a) then ¬ ispos (s b) else ispos (s b)) ↔
      Differ (value BASE (s a)) (value BASE (s b)) := by
    simp only [Differ, hsa, hsb, not_le, not_lt]
  have hlong := (divisor_spec hw).long
  have hbl : (if ispos (s b) then neg (s b) else some (s b)) =
      if 0 ≤ value BASE (s b) → NegFits (value BASE (s b)) then some (divisor (value BASE (s b)))
      else none := by
    by_cases hp : 0 ≤ value BASE (s b)
    · rw [if_pos (hsb.mpr hp), neg_eq hb.normal, divisor, abs_of_nonneg hp]
      simp only [hp, forall_const]
    · rw [if_neg (mt hsb.mp hp), if_pos fun h => absurd h hp, divisor, abs_of_neg (by omega), neg_neg,
        hb.normal.ofInt_value two_le_base]
  unfold mdiv
  rw [if_neg hs, hbl]
  by_cases hf : 0 ≤ value BASE (s b) → NegFits (value BASE (s b))
  swap
  · rw [if_neg hf, if_neg hf]
    rfl
  rw [if_pos hf, if_pos hf]
  simp only [Option.bind_eq_bind, Option.bind_some]
  rw [if_pos (by omega), abs_mint ha, Option.bind_some]
  simp only [hd]
  change (longPart _ _).bind _ = _
  refine congrArg _ (funext fun p => ?_)
  split_ifs
  · cases mneg (Function.update s q p.1) q q with
    | none => rfl
    | some s' => cases neg p.2 <;> rfl
  · rfl

/-- What becomes of the quotient and the remainder, both normal. -/
lemma signs_eq (s : V → List ℕ) (q r : V) {p : List ℕ × List ℕ} (h1 : Complement.Normal BASE p.1)
    (h2 : Complement.Normal BASE p.2) (v w : ℤ) :
    (if Differ v w then
      (mneg (Function.update s q p.1) q q).bind fun s' => (neg p.2).map (Function.update s' r)
      else some (Function.update (Function.update s q p.1) r p.2)) =
    if Differ v w → NegFits (value BASE p.1) ∧ NegFits (value BASE p.2) then
      some (Function.update (Function.update s q (ofInt BASE (if Differ v w then
          -value BASE p.1 else value BASE p.1))) r
        (ofInt BASE (if Differ v w then -value BASE p.2 else value BASE p.2)))
    else none := by
  by_cases hd : Differ v w
  · simp only [hd, if_true, forall_const]
    rw [mneg_eq _ _ _ (by rwa [Function.update_self]), Function.update_self, neg_eq h2,
      Function.update_idem]
    by_cases h3 : NegFits (value BASE p.1)
    · by_cases h4 : NegFits (value BASE p.2)
      · simp [h3, h4]
      · simp [h3, h4]
    · simp [h3]
  · simp only [hd, if_false, false_imp_iff, if_true, h1.ofInt_value two_le_base,
      h2.ofInt_value two_le_base]

/-- The numbers made positive and negative are divided right if the lengths fit. -/
lemma longPart_exact (hw : 128 < |w|) (hf : len (-|w|) - 1 ≤ len |v| → fits (len |v| + 1) ∧
      Clear (divisor w) w.natAbs (est (divisor w)).toNat v.natAbs (len |v| - (len (-|w|) - 1))) :
    longPart v w = some (ofInt BASE (|v| / |w|), ofInt BASE (|v| % |w|)) := by
  have hd := divisor_spec hw
  obtain ⟨den, hb⟩ := hd.estimate
  have hlong := hd.long
  have hr := rest_abs v
  have hlen : len (-|w|) = (divisor w).length := rfl
  have hdiv : ((v.natAbs / w.natAbs : ℕ) : ℤ) = |v| / |w| := by
    push_cast
    rfl
  have hmod : ((v.natAbs % w.natAbs : ℕ) : ℤ) = |v| % |w| := by
    push_cast
    rfl
  rw [hlen, hb.eq, Int.toNat_natCast] at hf
  unfold longPart
  rw [hlen]
  split_ifs with h
  · -- the dividend is below the divisor
    have hlt : v.natAbs < w.natAbs := by
      have h1 := ofDigits_lt hr.lt
      rw [hr.val] at h1
      have h2 : BASE ^ (ofInt BASE |v|).length ≤ BASE ^ ((divisor w).length - 2) :=
        Nat.pow_le_pow_right (by decide) h
      have := hd.bounds.1
      omega
    rw [← hdiv, ← hmod, Nat.div_eq_of_lt hlt, Nat.mod_eq_of_lt hlt, Nat.cast_zero, ofInt_zero,
      Int.natCast_natAbs]
  · unfold len at h hf
    obtain ⟨hf1, hf2⟩ := hf (by omega)
    rw [longd_exact hb hr (by omega) hf1 hf2, hdiv, hmod]

/-- **Division, if the lengths fit.** -/
lemma mdiv_eq (s : V → List ℕ) (a b q r : V) (ha : IsMint (s a)) (hb : IsMint (s b))
    (h0 : value BASE (s b) ≠ 0) (hf : MdivFits (value BASE (s a)) (value BASE (s b))) :
    mdiv s a b q r =
      some (Function.update (Function.update s q
          (ofInt BASE ((value BASE (s a)).tdiv (value BASE (s b))))) r
        (ofInt BASE (rest (value BASE (s a)) (value BASE (s b))))) := by
  obtain ⟨hf1, hf2⟩ := hf
  obtain hw | hw := le_or_gt |value BASE (s b)| 128
  · rw [mdiv_small s a b q r hb hw, sdiv_eq s a q ha (by have := abs_pos.mpr h0; omega) hw,
      if_pos (show SdivFits _ _ from hf1)]
    rfl
  · obtain ⟨hf3, hf4, hf5⟩ := hf2 hw
    rw [mdiv_long s a b q r ha hb hw, if_pos hf3, longPart_exact hw hf5, Option.bind_some,
      signs_eq s q r (normal_int _) (normal_int _), value_int, value_int,
      if_pos fun h => ⟨hf1 h, hf4 h⟩, quot_sign, rest_sign]

/-- The results are normal, divide `a` by `b` as is promised, and nothing else changes. -/
def Divides (s : V → List ℕ) (a b q r : V) : Prop :=
  ∃ s', mdiv s a b q r = some s' ∧ (∀ k, k ≠ q → k ≠ r → s' k = s k) ∧
    Complement.Normal BASE (s' q) ∧ Complement.Normal BASE (s' r) ∧
    DivLaw (value BASE (s a)) (value BASE (s b)) (value BASE (s' q)) (value BASE (s' r))

lemma divides_iff_law (s : V → List ℕ) (a b q r : V) (hqr : q ≠ r) {v w : ℤ}
    (h : mdiv s a b q r = some (Function.update (Function.update s q (ofInt BASE v)) r
      (ofInt BASE w))) :
    Divides s a b q r ↔ DivLaw (value BASE (s a)) (value BASE (s b)) v w := by
  constructor
  · rintro ⟨s', h1, -, -, -, h2⟩
    obtain rfl := Option.some.inj (h.symm.trans h1)
    simpa [Function.update_of_ne hqr] using h2
  · intro h1
    refine ⟨_, h, fun k hq hr => by simp [hq, hr], ?_, ?_, ?_⟩
    · simpa [Function.update_of_ne hqr] using normal_int v
    · simpa using normal_int w
    · simpa [Function.update_of_ne hqr] using h1

/-- The same law for the numbers made positive. -/
lemma law_abs (hw : 0 < w) (h : DivLaw v w (if Differ v w then -q else q)
    (if Differ v w then -r else r)) : DivLaw |v| w q r := by
  obtain hv | hv := le_or_gt 0 v
  · have hd : ¬ Differ v w := mt (differ_iff v w).mp (by omega)
    rw [if_neg hd, if_neg hd] at h
    rwa [abs_of_nonneg hv]
  · have hd : Differ v w := (differ_iff v w).mpr (by omega)
    rw [if_pos hd, if_pos hd] at h
    obtain ⟨h1, h2, h3⟩ := h
    rw [abs_neg] at h2
    rw [abs_of_neg hv]
    refine ⟨by linarith, h2, fun hq hr => ?_⟩
    have := h3 (by omega) (by omega)
    omega

lemma len_abs_le (v : ℤ) : len |v| ≤ len v := by
  obtain hv | hv := le_or_gt 0 v
  · rw [abs_of_nonneg hv]
  by_contra hc
  have hn := normal_int v
  have hm := normal_int |v|
  obtain ⟨n, hn'⟩ := exists_length hn
  obtain ⟨k, hk⟩ : ∃ k, (ofInt BASE |v|).length = k + 2 :=
    ⟨(ofInt BASE |v|).length - 2, by unfold len at hc; omega⟩
  have h1 := (value_bounds two_le_base hn.lt hn').1
  have h2 := hm.large two_le_base hk
  rw [value_int] at h1 h2
  rw [abs_of_neg hv] at h2
  have h3 : (BASE : ℤ) ^ n ≤ (BASE : ℤ) ^ k :=
    pow_le_pow_right₀ (by decide) (by unfold len at hc; omega)
  have h4 := base_pow_pos k
  simp only [BASE] at *
  push_cast at *
  omega

/-- With a positive divisor, a result that is right comes of lengths that fit. -/
lemma fits_of_divides (s : V → List ℕ) (a b q r : V) (hqr : q ≠ r) (ha : IsMint (s a))
    (hb : IsMint (s b)) (hw : 0 < value BASE (s b)) (h : Divides s a b q r) :
    MdivFits (value BASE (s a)) (value BASE (s b)) := by
  have h' := h
  obtain ⟨s', h1, -⟩ := h'
  generalize hv : value BASE (s a) = v at *
  generalize hwv : value BASE (s b) = w at *
  have habs : |w| = w := abs_of_pos hw
  obtain hs | hl := le_or_gt |w| 128
  · rw [mdiv_small s a b q r hb (by rwa [hwv]), hwv, sdiv_eq s a q ha (by omega) hs, hv] at h1
    refine ⟨?_, fun h => absurd h (by omega)⟩
    by_contra hc
    rw [if_neg (show ¬ SdivFits v w from hc)] at h1
    exact absurd h1 (by simp)
  have hlong := mdiv_long s a b q r ha hb (by rwa [hwv])
  rw [hv, hwv] at hlong
  rw [hlong] at h1
  have hf : 0 ≤ w → NegFits w := by
    by_contra hc
    rw [if_neg hc] at h1
    exact absurd h1 (by simp)
  rw [if_pos hf] at hlong h1
  -- the comparisons
  have hclear : len (-|w|) - 1 ≤ len |v| → fits (len |v| + 1) ∧
      Clear (divisor w) w.natAbs (est (divisor w)).toNat v.natAbs (len |v| - (len (-|w|) - 1)) := by
    intro hle
    obtain ⟨den, hd⟩ := (divisor_spec hl).estimate
    have hlo := hd.long
    obtain ⟨⟨res, rem⟩, h2, -⟩ := Option.bind_eq_some_iff.mp h1
    have hle' : (divisor w).length - 1 ≤ (ofInt BASE |v|).length := hle
    have hlv : fits (ofInt BASE |v|).length := by
      have h3 := len_abs_le v
      have h4 := ha.short
      rw [← len_value ha.normal, hv] at h4
      exact lt_of_le_of_lt h3 h4
    have h3 := h2
    unfold longPart at h3
    rw [if_neg (by unfold divisor at hlo; unfold len at hle ⊢; omega)] at h3
    obtain ⟨i1, i2, i3, i4⟩ := longd_clear hd (rest_abs v) hle' hlv h3
    rw [hd.eq, Int.toNat_natCast]
    refine ⟨i1, ?_⟩
    rw [h2, Option.bind_some] at h1 hlong
    rw [signs_eq s q r i2 i3] at h1 hlong
    have hneg : Differ v w → NegFits (value BASE res) ∧ NegFits (value BASE rem) := by
      by_contra hc
      rw [if_neg hc] at h1
      exact absurd h1 (by simp)
    rw [if_pos hneg] at hlong
    have hlaw := (divides_iff_law s a b q r hqr hlong).mp h
    rw [hv, hwv] at hlaw
    obtain ⟨j1, j2, j3⟩ := law_abs hw hlaw
    have hwn : ((w.natAbs : ℕ) : ℤ) = w := Int.natAbs_of_nonneg hw.le
    refine i4 ?_ ?_ j3
    · rw [hwn, Int.natCast_natAbs]
      exact j1
    · rw [hwn, ← habs]
      exact j2
  have h2 := longPart_exact hl hclear
  rw [h2, Option.bind_some, signs_eq s q r (normal_int _) (normal_int _), value_int, value_int] at h1
  have h3 : Differ v w → NegFits (|v| / |w|) ∧ NegFits (|v| % |w|) := by
    by_contra hc
    rw [if_neg hc] at h1
    exact absurd h1 (by simp)
  exact ⟨fun hd => (h3 hd).1, fun _ => ⟨hf, fun hd => (h3 hd).2, hclear⟩⟩

/-- The quotient and the remainder that `sdiv` gives, and nothing else changes. -/
def Sdivides (s : V → List ℕ) (a : V) (n : ℤ) (q : V) : Prop :=
  ∃ s' rem, sdiv s a n q = some (s', rem) ∧ (∀ k, k ≠ q → s' k = s k) ∧
    Complement.Normal BASE (s' q) ∧ DivLaw (value BASE (s a)) n (value BASE (s' q)) rem

/-- **When division is exact.** For any mints, the operands and the results named in any way but
the results being two: where the lengths fit, `mdiv` gives what its header promises just when the
divisor is positive or divides the dividend; and for a positive divisor it does just when the
lengths fit. With a negative divisor, the remainder has the sign that belongs to a negative
quotient of the opposite numbers. So it is with `sdiv` for any divisor it takes, and the two agree
on these. -/
theorem mdiv_law (s : V → List ℕ) (a b q r : V) (n : ℤ) (hqr : q ≠ r) (ha : IsMint (s a))
    (hb : IsMint (s b)) (h0 : value BASE (s b) ≠ 0) (hn : 1 ≤ |n|) (hn' : |n| ≤ 128) :
    (MdivFits (value BASE (s a)) (value BASE (s b)) →
        (Divides s a b q r ↔ 0 < value BASE (s b) ∨ value BASE (s b) ∣ value BASE (s a))) ∧
      (0 < value BASE (s b) →
        (Divides s a b q r ↔ MdivFits (value BASE (s a)) (value BASE (s b)))) ∧
      (Sdivides s a n q ↔ SdivFits (value BASE (s a)) n ∧ (0 < n ∨ n ∣ value BASE (s a))) ∧
      (value BASE (s b) = n → mdiv s a b q r =
        (sdiv s a n q).map fun p => Function.update p.1 r (ofInt BASE p.2)) := by
  have hright : MdivFits (value BASE (s a)) (value BASE (s b)) →
      (Divides s a b q r ↔ 0 < value BASE (s b) ∨ value BASE (s b) ∣ value BASE (s a)) := by
    intro hf
    rw [divides_iff_law s a b q r hqr (mdiv_eq s a b q r ha hb h0 hf)]
    exact law_iff h0
  refine ⟨hright, fun hw => ⟨fits_of_divides s a b q r hqr ha hb hw, fun hf =>
    (hright hf).mpr (.inl hw)⟩, ?_, ?_⟩
  · have heq := sdiv_eq s a q ha hn hn'
    have hn0 : n ≠ 0 := abs_pos.mp (by omega)
    constructor
    · rintro ⟨s', rem, h1, -, -, h2⟩
      by_cases hf : SdivFits (value BASE (s a)) n
      · rw [if_pos hf] at heq
        obtain ⟨rfl, rfl⟩ := Prod.mk.inj (Option.some.inj (heq.symm.trans h1))
        rw [Function.update_self, value_int] at h2
        exact ⟨hf, (law_iff hn0).mp h2⟩
      · rw [if_neg hf, h1] at heq
        exact absurd heq (by simp)
    · rintro ⟨hf, h⟩
      rw [if_pos hf] at heq
      refine ⟨_, _, heq, fun k hk => by simp [hk], by simpa using normal_int _, ?_⟩
      rw [Function.update_self, value_int]
      exact (law_iff hn0).mpr h
  · rintro rfl
    exact mdiv_small s a b q r hb hn'

/-- `10 ^ 9` by `12345`, into the operands themselves. -/
theorem mdiv_law_small :
    Divides (fun k : Bool => if k then ofInt BASE 12345 else ofInt BASE 1000000000) false true true
      false := by
  have h := (mdiv_law (fun k : Bool => if k then ofInt BASE 12345 else ofInt BASE 1000000000) false
    true true false 1 (by decide) ⟨normal_int _, by decide +kernel⟩ ⟨normal_int _, by decide +kernel⟩
    (by simp) (by decide) (by decide)).1
  exact (h (by decide +kernel)).mpr (.inl (by simp))

/-- **The remainder of a division by a negative number is wrong**: `7` by `-2` gives `-3` and `-1`,
which come to `5`. -/
theorem negative_divisor :
    ¬ ∀ s : Fin 4 → List ℕ, IsMint (s 0) → IsMint (s 1) → value BASE (s 1) ≠ 0 →
      Divides s 0 1 2 3 := by
  intro h
  let s : Fin 4 → List ℕ := fun k => if k = 0 then [7] else [126, 127]
  obtain ⟨s', h1, -, -, -, h2⟩ := h s ⟨by decide, by decide⟩ ⟨by decide, by decide⟩ (by decide)
  have h3 : mdiv s 0 1 2 3 = some (Function.update (Function.update s 2 [125, 127]) 3 [127]) := by
    decide +kernel
  obtain rfl := Option.some.inj (h3.symm.trans h1)
  revert h2
  decide +kernel

end Coherent.Mint
