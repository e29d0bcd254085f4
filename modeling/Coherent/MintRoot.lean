import Coherent.MintGcd

/-!
The multi-precision integers of `libmp`: the square root.

`msqrt` starts from a power of the base and goes on by Newton's step with a truncated division. No
step comes below the root, so that the guesses fall from the second on, until the remainder tells
that the root is reached. What can go wrong is the arithmetic: a square of 65536 digits has no
block, and where lengths pass 32767 a division may compare them wrongly.
-/

namespace Coherent.Mint

open Coherent.Lib Coherent.Lib.Complement

variable {V : Type} [DecidableEq V]
variable {A x y : ℤ} {n k : ℕ}

/-! ### The code -/

/-- The names of the local mints of `msqrt`, and of its argument. -/
inductive Rname
  | a | x | xs | tx | rem
  deriving DecidableEq

/-- The loop of `msqrt`, with the number of its turns bounded. -/
def sqrtLoop : ℕ → (Rname → List ℕ) → Option (Rname → List ℕ)
  | 0, _ => none
  | fuel + 1, s => do
    let s ← mult s .x .x .xs
    let s ← msub s .a .xs .rem
    let s ← madd s .x .x .tx
    if ispos (s .rem) ∧ mcmp (s .rem) (s .tx) ≤ 0 then some s
    else do
      let s ← madd s .a .xs .xs
      let s ← mdiv s .xs .tx .x .xs
      sqrtLoop fuel s

/-- The base, of which the first guess is made. -/
def sqrtStart (a : List ℕ) : Rname → List ℕ
  | .a => a
  | .x => mitom BASE
  | _ => []

/-- `msqrt`: the mint `b` is given the root of `a`, and `r` the remainder. -/
def msqrt (fuel : ℕ) (s : V → List ℕ) (a b r : V) : Option (V → List ℕ) :=
  if ispos (s a) then do
    let x ← spow (sqrtStart (s a)) .x ((s a).length / 2) .x
    let x ← sqrtLoop fuel x
    some (Function.update (Function.update s b (x .x)) r (x .rem))
  else none

/-! ### Newton's step -/

/-- The root, rounded down. -/
def IsRoot (A x : ℤ) : Prop := x * x ≤ A ∧ A < (x + 1) * (x + 1)

instance (A x : ℤ) : Decidable (IsRoot A x) := inferInstanceAs (Decidable (_ ∧ _))

def newton (A x : ℤ) : ℤ := (A + x * x).tdiv (x + x)

lemma newton_eq (hA : 0 ≤ A) : newton A x = (A + x * x) / (x + x) :=
  Int.tdiv_eq_ediv_of_nonneg (add_nonneg hA (mul_self_nonneg x))

lemma newton_nonneg (hA : 0 ≤ A) (hx : 0 ≤ x) : 0 ≤ newton A x := by
  rw [newton_eq hA]
  exact Int.ediv_nonneg (add_nonneg hA (mul_self_nonneg x)) (by omega)

/-- **No step comes below the root.** -/
lemma newton_above (hA : 0 ≤ A) (hx : 0 < x) : A < (newton A x + 1) * (newton A x + 1) := by
  have h1 : A + x * x < (x + x) * (newton A x + 1) := by
    rw [newton_eq hA, mul_add, mul_one]
    exact Int.lt_mul_ediv_self_add (by omega)
  have h2 : 0 ≤ (newton A x + 1 - x) * (newton A x + 1 - x) := mul_self_nonneg _
  calc A < (x + x) * (newton A x + 1) - x * x := by omega
    _ ≤ (newton A x + 1) * (newton A x + 1) := by linarith

/-- A guess above the root falls. -/
lemma newton_lt (hA : 0 ≤ A) (hx : 0 < x) (h : A < x * x) : newton A x < x := by
  rw [newton_eq hA]
  refine Int.ediv_lt_of_lt_mul (by omega) ?_
  linarith

lemma newton_le (hA : 0 ≤ A) (hx : 0 < x) (h : A + x * x ≤ y * (x + x)) : newton A x ≤ y := by
  rw [newton_eq hA]
  exact Int.ediv_le_of_le_mul (by omega) h

/-- The guesses. -/
def approx (A : ℤ) : ℕ → ℤ
  | 0 => (BASE : ℤ) ^ (len A / 2)
  | k + 1 => newton A (approx A k)

/-- The test of the loop. -/
lemma isRoot_iff : IsRoot A x ↔ 0 ≤ A - x * x ∧ A - x * x ≤ x + x := by
  unfold IsRoot
  have h : (x + 1) * (x + 1) = x * x + x + x + 1 := by ring
  omega

lemma approx_pos (hA : 0 ≤ A) (h : ∀ j < k, ¬IsRoot A (approx A j)) :
    0 ≤ approx A k ∧ (¬IsRoot A (approx A k) → 0 < approx A k) := by
  induction k with
  | zero => exact ⟨(base_pow_pos _).le, fun _ => base_pow_pos _⟩
  | succ k ih =>
    have hpos := (ih fun j hj => h j (by omega)).2 (h k (by omega))
    have h0 : 0 ≤ newton A (approx A k) := newton_nonneg hA hpos.le
    refine ⟨h0, fun hr => ?_⟩
    by_contra hc
    refine hr ?_
    have h1 := newton_above hA hpos
    have h2 : approx A (k + 1) = 0 := by
      change newton A (approx A k) = 0
      change ¬0 < newton A (approx A k) at hc
      omega
    rw [show newton A (approx A k) = 0 from h2] at h1
    rw [isRoot_iff, h2]
    omega

/-! ### The sizes of the guesses -/

lemma approx_succ_lt (hA : 0 ≤ A) (h : ∀ j ≤ k, ¬IsRoot A (approx A j)) (h0 : k ≠ 0) :
    A < approx A k * approx A k ∧ approx A (k + 1) < approx A k := by
  obtain ⟨i, rfl⟩ := Nat.exists_eq_succ_of_ne_zero h0
  have hpos := (approx_pos hA fun j hj => h j (by omega)).2 (h (i + 1) le_rfl)
  have hprev := (approx_pos hA fun j (hj : j < i) => h j (by omega)).2 (h i (by omega))
  have h1 : A < (approx A (i + 1) + 1) * (approx A (i + 1) + 1) := newton_above hA hprev
  have h2 : A < approx A (i + 1) * approx A (i + 1) := by
    by_contra hc
    exact h (i + 1) le_rfl ⟨by omega, h1⟩
  exact ⟨h2, newton_lt hA hpos h2⟩

lemma base_int : ((BASE : ℕ) : ℤ) = 128 := rfl

/-- The number of digits of a number that is not negative bounds it. -/
lemma lt_of_len (hn : len A ≤ 2 * n + 1) : A < 127 * (BASE : ℤ) ^ (2 * n) := by
  obtain ⟨m, hm, -, h⟩ := len_bounds A
  have h1 : (BASE : ℤ) ^ m ≤ (BASE : ℤ) ^ (2 * n) := pow_le_pow_right₀ (by decide) (by omega)
  rw [base_int] at *
  omega

lemma approx_le (hA : 0 ≤ A) (h : ∀ j < k, ¬IsRoot A (approx A j)) :
    approx A k ≤ 64 * (BASE : ℤ) ^ (len A / 2) := by
  have hp := base_pow_pos (len A / 2)
  induction k with
  | zero =>
    change (BASE : ℤ) ^ (len A / 2) ≤ _
    omega
  | succ k ih =>
    by_cases hk : k = 0
    · -- the step from the first guess
      rw [hk]
      refine newton_le hA hp ?_
      have h1 := lt_of_len (A := A) (n := len A / 2) (by omega)
      rw [two_mul, pow_add] at h1
      change A + (BASE : ℤ) ^ (len A / 2) * (BASE : ℤ) ^ (len A / 2) ≤
        64 * (BASE : ℤ) ^ (len A / 2) * ((BASE : ℤ) ^ (len A / 2) + (BASE : ℤ) ^ (len A / 2))
      linarith
    · have h1 := (approx_succ_lt hA (fun j hj => h j (by omega)) hk).2
      exact h1.le.trans (ih fun j hj => h j (by omega))

/-- A number of the size of a guess. -/
structure Guess (n : ℕ) (A x : ℤ) : Prop where
  nonneg : 0 ≤ A
  short : A < 127 * (BASE : ℤ) ^ (2 * n)
  pos : 0 ≤ x
  le : x ≤ 64 * (BASE : ℤ) ^ n

section
variable (h : Guess n A x)
include h

lemma Guess.square : 0 ≤ x * x ∧ x * x ≤ 32 * (BASE : ℤ) ^ (2 * n + 1) := by
  refine ⟨mul_nonneg h.pos h.pos, ?_⟩
  calc x * x ≤ 64 * (BASE : ℤ) ^ n * (64 * (BASE : ℤ) ^ n) :=
        mul_le_mul h.le h.le h.pos (by positivity)
    _ = 32 * (BASE : ℤ) ^ (2 * n + 1) := by
      rw [pow_succ, two_mul, pow_add, base_int]
      ring

/-- The lengths of all blocks of a turn. -/
lemma Guess.lens : len x ≤ n + 1 ∧ len (x * x) ≤ 2 * n + 2 ∧ len (-(x * x)) ≤ 2 * n + 3 ∧
    len (x + x) ≤ n + 2 ∧ len (A + x * x) ≤ 2 * n + 2 ∧ len A ≤ 2 * n + 1 := by
  obtain ⟨h1, h2⟩ := h.square
  obtain ⟨h3, h4, h5, h6⟩ := h
  have hp := base_pow_pos n
  have hp2 := base_pow_pos (2 * n)
  have hs : (BASE : ℤ) ^ (2 * n + 1) = (BASE : ℤ) ^ (2 * n) * BASE := pow_succ ..
  have hs1 : (BASE : ℤ) ^ (n + 1) = (BASE : ℤ) ^ n * BASE := pow_succ ..
  have hs2 : (BASE : ℤ) ^ (2 * n + 2) = (BASE : ℤ) ^ (2 * n + 1) * BASE := pow_succ ..
  refine ⟨len_le ?_ ?_, len_le ?_ ?_, len_le ?_ ?_, len_le ?_ ?_, len_le ?_ ?_, len_le ?_ ?_⟩
  all_goals simp only [base_int] at *
  all_goals omega

end

lemma multFits_of_len {v w : ℤ} (hv : 0 ≤ v) (hw : 0 ≤ w) (h : fits (len v + len w)) :
    MultFits v w := by
  have key : ∀ v w : ℤ, 0 ≤ v → fits (len v + len w) → ProdFits v w := by
    intro v w hv h
    refine ⟨fun h' => absurd h' (by omega), ?_, fun h' => absurd h' (by omega)⟩
    rw [abs_of_nonneg hv]
    split_ifs
    · exact Or.inr (fits_le (by have := one_le_len v; omega) h)
    · exact h
  unfold MultFits
  split_ifs
  · exact key w v hw (by rwa [add_comm])
  · exact key v w hv h

lemma len_base (p : ℕ) : len ((BASE : ℤ) ^ p) ≤ p + 1 := by
  have := base_pow_pos p
  refine len_le (by omega) ?_
  rw [base_int] at *
  omega

/-- The products of `spow`. -/
lemma loopFits_base {p q n : ℕ} (hn : n ≠ 0) (h : p * n + q + 2 < 65536) :
    LoopFits ((BASE : ℤ) ^ p) ((BASE : ℤ) ^ q) n := by
  have hmult : ∀ i j : ℕ, i + j ≤ p * n + q → MultFits ((BASE : ℤ) ^ i) ((BASE : ℤ) ^ j) := by
    intro i j hij
    have hi := len_base i
    have hj := len_base j
    refine multFits_of_len (base_pow_pos i).le (base_pow_pos j).le ?_
    unfold fits
    omega
  induction n using Nat.strong_induction_on generalizing p q with
  | _ n ih =>
    have hp : p ≤ p * n := Nat.le_mul_of_pos_right p (by omega)
    rw [LoopFits]
    by_cases h1 : n ≤ 1
    · rw [if_pos h1]
      exact hmult p q (by omega)
    have h2 : p * 2 ≤ p * n := Nat.mul_le_mul_left p (by omega)
    have hsum : (p + p) * (n / 2) + (q + p * (n % 2)) = p * n + q := by
      calc (p + p) * (n / 2) + (q + p * (n % 2)) = p * (2 * (n / 2) + n % 2) + q := by ring
        _ = p * n + q := by rw [Nat.div_add_mod]
    have hr : (if n % 2 ≠ 0 then (BASE : ℤ) ^ p * (BASE : ℤ) ^ q else (BASE : ℤ) ^ q) =
        (BASE : ℤ) ^ (q + p * (n % 2)) := by
      by_cases h3 : n % 2 ≠ 0
      · rw [if_pos h3, show n % 2 = 1 by omega, mul_one, ← pow_add, add_comm]
      · rw [if_neg h3, show n % 2 = 0 by omega, mul_zero, add_zero]
    rw [if_neg h1, hr, ← pow_add]
    refine ⟨fun _ => hmult p q (by omega), hmult p p (by omega), ?_⟩
    exact ih (n / 2) (by omega) (by omega) (by omega) fun i j hij => hmult i j (by omega)

/-! ### The loop -/

/-- The blocks of a turn have lengths, and the division compares lengths right. -/
def TurnFits (A x : ℤ) : Prop :=
  MultFits x x ∧ (NegFits (x * x) ∧ SumFits A (-(x * x))) ∧ SumFits x x ∧
    (¬IsRoot A x → SumFits A (x * x) ∧ MdivFits (A + x * x) (x + x))

/-- So do those of all turns. -/
def SqrtFits (A : ℤ) : Prop :=
  PowFits BASE (len A / 2) ∧ ∀ k, (∀ j < k, ¬IsRoot A (approx A j)) → TurnFits A (approx A k)

instance (A x : ℤ) : Decidable (TurnFits A x) := inferInstanceAs (Decidable (_ ∧ _))

/-- The local mints at the start of a turn. -/
structure Guesses (s : Rname → List ℕ) (A x : ℤ) : Prop where
  a : s .a = ofInt BASE A
  x : s .x = ofInt BASE x

lemma madd_eq (s : V → List ℕ) (a b c : V) (ha : Normal BASE (s a)) (hb : Normal BASE (s b))
    (h : SumFits (value BASE (s a)) (value BASE (s b))) :
    madd s a b c =
      some (Function.update s c (ofInt BASE (value BASE (s a) + value BASE (s b)))) := by
  rw [madd, sum_eq ha hb, if_pos h]
  rfl

/-- What is compared has lengths that differ by an `int`. -/
lemma cmpFits_approx (hA : 0 ≤ A) (hf : fits (len A)) (h : ∀ j < k, ¬IsRoot A (approx A j)) :
    CmpFits (A - approx A k * approx A k) (approx A k + approx A k) := by
  unfold fits at hf
  have hg : Guess (len A / 2) A (approx A k) :=
    ⟨hA, lt_of_len (by omega), (approx_pos hA h).1, approx_le hA h⟩
  have hsq := hg.square.1
  have hpos := hg.pos
  obtain ⟨-, -, -, h1, -⟩ := hg.lens
  refine ⟨fun ⟨h2, _⟩ => ⟨?_, ?_⟩, fun ⟨_, h2⟩ => absurd h2 (by omega)⟩
  · have := one_le_len (A - approx A k * approx A k)
    omega
  · have h3 : len (A - approx A k * approx A k) ≤ len A := len_mono h2 (by omega)
    by_cases hk : k = 0
    · have h4 : len A / 2 + 1 ≤ len (approx A k + approx A k) := by
        obtain ⟨m, hm, -, h5⟩ := len_bounds (approx A k + approx A k)
        by_contra hc
        have h6 : (BASE : ℤ) ^ (m + 1) ≤ (BASE : ℤ) ^ (len A / 2) :=
          pow_le_pow_right₀ (by decide) (by omega)
        have h7 := base_pow_pos m
        rw [hk] at h5
        change (BASE : ℤ) ^ (len A / 2) + (BASE : ℤ) ^ (len A / 2) < _ at h5
        rw [pow_succ] at h6
        simp only [base_int] at *
        omega
      omega
    · -- a remainder that is not negative is at most twice the guess
      have hroot : A - approx A k * approx A k ≤ approx A k + approx A k := by
        by_contra hc
        have := (approx_succ_lt hA (fun j hj => ?_) hk).1
        · omega
        · rcases Nat.lt_or_eq_of_le hj with hj | rfl
          · exact h j hj
          · exact fun hr => hc (isRoot_iff.mp hr).2
      have := len_mono h2 hroot
      omega

/-- **A turn.** -/
lemma sqrt_turn {s : Rname → List ℕ} (hs : Guesses s A (approx A k)) (hA : 0 ≤ A)
    (hf : fits (len A)) (h : ∀ j < k, ¬IsRoot A (approx A j)) (ht : TurnFits A (approx A k))
    (fuel : ℕ) :
    (IsRoot A (approx A k) → ∃ s', sqrtLoop (fuel + 1) s = some s' ∧
      s' .x = ofInt BASE (approx A k) ∧ s' .rem = ofInt BASE (A - approx A k * approx A k)) ∧
    (¬IsRoot A (approx A k) → ∃ s', sqrtLoop (fuel + 1) s = sqrtLoop fuel s' ∧
      Guesses s' A (approx A (k + 1))) := by
  have hcmp := cmpFits_approx hA hf h
  have hpos := (approx_pos hA h).2
  have hnext : approx A (k + 1) = newton A (approx A k) := rfl
  obtain ⟨hf1, hf2, hf3, hf4⟩ := ht
  generalize approx A k = x at *
  have h1 : mult s .x .x .xs = some (Function.update s .xs (ofInt BASE (x * x))) := by
    rw [mult_eq s .x .x .xs (by rw [hs.x]; exact normal_int _) (by rw [hs.x]; exact normal_int _),
      hs.x, value_int, if_pos hf1]
  set s1 := Function.update s .xs (ofInt BASE (x * x)) with hs1
  have h2 : msub s1 .a .xs .rem = some (Function.update s1 .rem (ofInt BASE (A - x * x))) := by
    have e1 : s1 .a = ofInt BASE A := hs.a
    have e2 : s1 .xs = ofInt BASE (x * x) := rfl
    rw [msub_eq s1 .a .xs .rem (by rw [e1]; exact normal_int _) (by rw [e2]; exact normal_int _)
      (by rw [e1, e2, value_int, value_int]; exact hf2), e1, e2, value_int, value_int]
  set s2 := Function.update s1 .rem (ofInt BASE (A - x * x)) with hs2
  have h3 : madd s2 .x .x .tx = some (Function.update s2 .tx (ofInt BASE (x + x))) := by
    have e1 : s2 .x = ofInt BASE x := hs.x
    rw [madd_eq s2 .x .x .tx (by rw [e1]; exact normal_int _) (by rw [e1]; exact normal_int _)
      (by rw [e1, value_int]; exact hf3), e1, value_int]
  set s3 := Function.update s2 .tx (ofInt BASE (x + x)) with hs3
  -- the test tells whether the root is reached
  have hrem : IsMint (s3 .rem) := isMint_int (sub_eq_add_neg A (x * x) ▸ fits_sum hf2.2)
  have htx : IsMint (s3 .tx) := isMint_int (fits_sum hf3)
  have htest : (ispos (s3 .rem) ∧ mcmp (s3 .rem) (s3 .tx) ≤ 0) ↔ IsRoot A x := by
    have hc := (mcmp_iff hrem htx).mpr (by
      change CmpFits (value BASE (ofInt BASE (A - x * x))) (value BASE (ofInt BASE (x + x)))
      rwa [value_int, value_int])
    have hp := ispos_iff hrem.normal
    have e1 : value BASE (s3 .rem) = A - x * x := value_int _
    have e2 : value BASE (s3 .tx) = x + x := value_int _
    have h4 := hc.1
    rw [e1, e2] at h4
    rw [hp, e1, isRoot_iff]
    omega
  have hbody : sqrtLoop (fuel + 1) s = if ispos (s3 .rem) ∧ mcmp (s3 .rem) (s3 .tx) ≤ 0 then some s3
      else (madd s3 .a .xs .xs).bind fun s => (mdiv s .xs .tx .x .xs).bind fun s =>
        sqrtLoop fuel s := by
    rw [sqrtLoop, Option.bind_eq_bind, h1, Option.bind_some, h2, Option.bind_some, h3,
      Option.bind_some]
  rw [hbody]
  constructor
  · intro hr
    exact ⟨s3, if_pos (htest.mpr hr), hs.x, rfl⟩
  · intro hr
    obtain ⟨hf5, hf6⟩ := hf4 hr
    have hx := hpos hr
    rw [if_neg (mt htest.mp hr)]
    have h4 : madd s3 .a .xs .xs = some (Function.update s3 .xs (ofInt BASE (A + x * x))) := by
      have e1 : s3 .a = ofInt BASE A := hs.a
      have e2 : s3 .xs = ofInt BASE (x * x) := rfl
      rw [madd_eq s3 .a .xs .xs (by rw [e1]; exact normal_int _) (by rw [e2]; exact normal_int _)
        (by rw [e1, e2, value_int, value_int]; exact hf5), e1, e2, value_int, value_int]
    set s4 := Function.update s3 .xs (ofInt BASE (A + x * x)) with hs4
    have h5 := mdiv_eq s4 .xs .tx .x .xs (isMint_int (fits_sum hf5)) htx
      (by
        change value BASE (ofInt BASE (x + x)) ≠ 0
        rw [value_int]
        omega)
      (by
        change MdivFits (value BASE (ofInt BASE (A + x * x))) (value BASE (ofInt BASE (x + x)))
        rwa [value_int, value_int])
    refine ⟨Function.update (Function.update s4 .x (ofInt BASE ((value BASE (s4 .xs)).tdiv
      (value BASE (s4 .tx))))) .xs (ofInt BASE (rest (value BASE (s4 .xs)) (value BASE (s4 .tx)))),
      by rw [h4, Option.bind_some, h5, Option.bind_some], ⟨hs.a, ?_⟩⟩
    change ofInt BASE ((value BASE (ofInt BASE (A + x * x))).tdiv
      (value BASE (ofInt BASE (x + x)))) = _
    rw [value_int, value_int, hnext]
    rfl

/-- **The loop** comes to the root. -/
lemma sqrtLoop_eq {s : Rname → List ℕ} {fuel : ℕ} (hs : Guesses s A (approx A k)) (hA : 0 ≤ A)
    (hlen : fits (len A)) (hf : SqrtFits A) (h : ∀ j < k, ¬IsRoot A (approx A j)) (h0 : k ≠ 0)
    (hn : approx A k < fuel) :
    ∃ s' v, sqrtLoop fuel s = some s' ∧ s' .x = ofInt BASE v ∧ s' .rem = ofInt BASE (A - v * v) ∧
      IsRoot A v := by
  induction fuel generalizing s k with
  | zero =>
    have := (approx_pos hA h).1
    omega
  | succ fuel ih =>
    obtain ⟨h1, h2⟩ := sqrt_turn hs hA hlen h (hf.2 k h) fuel
    by_cases hr : IsRoot A (approx A k)
    · obtain ⟨s', h3, h4, h5⟩ := h1 hr
      exact ⟨s', _, h3, h4, h5, hr⟩
    · have hk : ∀ j ≤ k, ¬IsRoot A (approx A j) := fun j hj => by
        rcases Nat.lt_or_eq_of_le hj with hj | rfl
        · exact h j hj
        · exact hr
      obtain ⟨s', h3, h4⟩ := h2 hr
      have := (approx_succ_lt hA hk h0).2
      rw [h3]
      exact ih h4 (fun j hj => hk j (by omega)) (by omega) (by push_cast at hn; omega)

/-! ### The lengths -/

/-- Numbers of at most 32766 digits compare right in a division. -/
lemma mdivFits_short {v w : ℤ} (hv : 0 ≤ v) (hw : 0 ≤ w) (hl : len v < 32768)
    (hl' : len w < 32768) : MdivFits v w := by
  have hd : ¬Differ v w := by
    rw [differ_iff]
    omega
  refine ⟨fun h => absurd h hd, fun _ => ⟨fun _ => ?_, fun h => absurd h hd, fun hle => ⟨?_, ?_⟩⟩⟩
  · unfold NegFits fits
    rw [if_pos hw]
    omega
  · unfold fits
    rw [abs_of_nonneg hv]
    omega
  · intro i hi
    rw [abs_of_nonneg hv] at hle hi
    have hlen : len (-|w|) = (divisor w).length := rfl
    rw [hlen] at hle hi
    set m := v.natAbs % (w.natAbs * BASE ^ (i + 1)) with hm
    have hplaces : places (leftover (divisor w) w.natAbs (est (divisor w)).toNat i m) ≤ len v := by
      refine places_le ?_ (one_le_len v)
      calc leftover (divisor w) w.natAbs (est (divisor w)).toNat i m ≤ m := Nat.sub_le ..
        _ ≤ v.natAbs := Nat.mod_le ..
        _ < BASE ^ len v := by
          have h := ofDigits_lt (normal_int |v|).lt
          have h2 := ofDigits_abs v
          rw [abs_of_nonneg hv] at h h2
          have h3 : Nat.ofDigits BASE (ofInt BASE v) = v.natAbs := by omega
          rwa [h3] at h
    unfold SameSide
    omega

/-- **A short mint** makes no difficulties. -/
lemma sqrtFits_of_short (hA : 0 ≤ A) (hl : len A ≤ 32765) : SqrtFits A := by
  constructor
  · by_cases hn : len A / 2 = 0
    · exact Or.inl hn
    · refine Or.inr ?_
      have h := loopFits_base (p := 1) (q := 0) hn (by omega)
      rwa [pow_one, pow_zero] at h
  · intro k h
    have hg : Guess (len A / 2) A (approx A k) :=
      ⟨hA, lt_of_len (by omega), (approx_pos hA h).1, approx_le hA h⟩
    have hsq := hg.square.1
    have hpos := hg.pos
    obtain ⟨h1, h2, h3, h4, h5, h6⟩ := hg.lens
    refine ⟨multFits_of_len hpos hpos ?_, ⟨?_, ?_⟩, ?_, fun _ => ⟨?_, ?_⟩⟩
    · unfold fits
      omega
    · unfold NegFits fits
      rw [if_pos hsq]
      omega
    · unfold SumFits fits
      omega
    · unfold SumFits fits
      omega
    · unfold SumFits fits
      omega
    · exact mdivFits_short (by omega) (by omega) (by omega) (by omega)

lemma le_len_base (p : ℕ) : p + 1 ≤ len ((BASE : ℤ) ^ p) := by
  obtain ⟨m, hm, -, h⟩ := len_bounds ((BASE : ℤ) ^ p)
  by_contra hc
  have h1 : (BASE : ℤ) ^ (m + 1) ≤ (BASE : ℤ) ^ p := pow_le_pow_right₀ (by decide) (by omega)
  have h2 := base_pow_pos m
  rw [pow_succ] at h1
  simp only [base_int] at *
  omega

lemma spow_start (a : List ℕ) (n : ℕ) :
    spow (sqrtStart a) .x n .x = open Classical in if PowFits BASE n then
      some (Function.update (sqrtStart a) .x (ofInt BASE ((BASE : ℤ) ^ n))) else none := by
  have h := spow_eq (sqrtStart a) .x .x n (by
    change Normal BASE (mitom BASE)
    rw [mitom_eq]
    exact normal_int _)
  have h1 : value BASE (sqrtStart a .x) = BASE := by
    change value BASE (mitom BASE) = BASE
    rw [mitom_eq, value_int]
  rw [h, h1]

/-- **A square of 65536 digits** has no block: the first turn fails. -/
lemma msqrt_long (s : V → List ℕ) (a b r : V) (h : 65534 ≤ (s a).length) (fuel : ℕ) :
    msqrt fuel s a b r = none := by
  classical
  have hmult : ¬MultFits ((BASE : ℤ) ^ ((s a).length / 2)) ((BASE : ℤ) ^ ((s a).length / 2)) := by
    have h1 := le_len_base ((s a).length / 2)
    unfold MultFits ProdFits
    rw [ite_self, abs_of_pos (base_pow_pos _), if_neg (by omega)]
    unfold fits
    omega
  unfold msqrt
  by_cases hp : ispos (s a)
  · rw [if_pos hp, spow_start]
    split_ifs with hf
    · rw [Option.bind_eq_bind, Option.bind_some]
      cases fuel with
      | zero => rfl
      | succ fuel =>
        rw [sqrtLoop, mult_eq _ _ _ _ (by rw [Function.update_self]; exact normal_int _)
          (by rw [Function.update_self]; exact normal_int _), Function.update_self, value_int,
          if_neg hmult]
        rfl
    · rfl
  · rw [if_neg hp]

/-! ### The root -/

/-- `b` has become the root of `a`, and `r` the remainder. -/
def Roots (s : V → List ℕ) (a b r : V) (res : Option (V → List ℕ)) : Prop :=
  ∃ s', res = some s' ∧ (∀ k, k ≠ b → k ≠ r → s' k = s k) ∧
    IsRoot (value BASE (s a)) (value BASE (s' b)) ∧
    value BASE (s' r) = value BASE (s a) - value BASE (s' b) * value BASE (s' b)

/-- **The square root.** -/
theorem msqrt_roots (s : V → List ℕ) (a b r : V) (fuel : ℕ) (hbr : b ≠ r) (ha : IsMint (s a))
    (h0 : 0 ≤ value BASE (s a)) (hn : 64 * BASE ^ ((s a).length / 2) + 1 < fuel) :
    (SqrtFits (value BASE (s a)) → Roots s a b r (msqrt fuel s a b r)) ∧
      ((s a).length ≤ 32765 → SqrtFits (value BASE (s a))) ∧
      (65534 ≤ (s a).length → ¬Roots s a b r (msqrt fuel s a b r)) := by
  have hl := len_value ha.normal
  refine ⟨fun hf => ?_, fun h => sqrtFits_of_short h0 (by omega), fun h => ?_⟩
  · have hfit : fits (len (value BASE (s a))) := hl ▸ ha.short
    have hn1 : 64 * (BASE : ℤ) ^ (len (value BASE (s a)) / 2) + 1 < fuel := by
      rw [hl]
      exact_mod_cast hn
    have hsa := (ha.normal.ofInt_value two_le_base).symm
    have hspow := spow_start (s a) ((s a).length / 2)
    rw [if_pos (hl ▸ hf.1)] at hspow
    have hms : msqrt fuel s a b r = (sqrtLoop fuel (Function.update (sqrtStart (s a)) .x
        (ofInt BASE ((BASE : ℤ) ^ ((s a).length / 2))))).bind fun x =>
          some (Function.update (Function.update s b (x .x)) r (x .rem)) := by
      rw [msqrt, if_pos ((ispos_iff ha.normal).mpr h0), hspow]
      rfl
    set s0 := Function.update (sqrtStart (s a)) .x
      (ofInt BASE ((BASE : ℤ) ^ ((s a).length / 2))) with hs0
    set A := value BASE (s a) with hA
    have hg : Guesses s0 A (approx A 0) := by
      refine ⟨hsa, ?_⟩
      change _ = ofInt BASE ((BASE : ℤ) ^ (len A / 2))
      rw [hl]
      rfl
    have hloop : ∃ s' v, sqrtLoop fuel s0 = some s' ∧ s' .x = ofInt BASE v ∧
        s' .rem = ofInt BASE (A - v * v) ∧ IsRoot A v := by
      have hnone : ∀ j < 0, ¬IsRoot A (approx A j) := fun j hj => absurd hj (by omega)
      obtain ⟨fuel, rfl⟩ : ∃ f, fuel = f + 1 := ⟨fuel - 1, by omega⟩
      obtain ⟨h1, h2⟩ := sqrt_turn hg h0 hfit hnone (hf.2 0 hnone) fuel
      by_cases hr : IsRoot A (approx A 0)
      · obtain ⟨s', h3, h4, h5⟩ := h1 hr
        exact ⟨s', _, h3, h4, h5, hr⟩
      · obtain ⟨s', h3, h4⟩ := h2 hr
        have hone : ∀ j < 1, ¬IsRoot A (approx A j) := fun j hj => by
          obtain rfl : j = 0 := by omega
          exact hr
        have hle : approx A (0 + 1) ≤ 64 * (BASE : ℤ) ^ (len A / 2) := approx_le h0 hone
        rw [h3]
        exact sqrtLoop_eq h4 h0 hfit hf hone (by decide) (by push_cast at hn1; omega)
    obtain ⟨x, v, h1, h2, h3, h4⟩ := hloop
    refine ⟨Function.update (Function.update s b (x .x)) r (x .rem), ?_,
      fun k hkb hkr => ?_, ?_, ?_⟩
    · rw [hms, h1, Option.bind_some]
    · rw [Function.update_of_ne hkr, Function.update_of_ne hkb]
    · rwa [Function.update_of_ne hbr, Function.update_self, h2, value_int]
    · rw [Function.update_self, Function.update_of_ne hbr, Function.update_self, h2, h3, value_int,
        value_int]
  · rintro ⟨s', h1, -⟩
    rw [msqrt_long s a b r h] at h1
    exact absurd h1 (by simp)

/-- The root of `10`, into the mint itself. -/
theorem msqrt_ten :
    Roots (fun _ : Bool => [10]) true true false (msqrt 100 (fun _ => [10]) true true false) := by
  have h := msqrt_roots (fun _ : Bool => [10]) true true false 100 (by decide)
    ⟨by decide, by decide⟩ (by decide) (by decide)
  exact h.1 (h.2.1 (by decide))

lemma replicate_nonneg (n : ℕ) : 0 ≤ value BASE (List.replicate n 0 ++ [1]) := by
  rw [value_append _ (by simp), value_singleton two_le_base, if_neg (by decide)]
  positivity

/-- **The square of half the digits** passes the lengths: there is no root of a mint of 65534
digits. -/
theorem msqrt_fails :
    ¬∀ (s : Fin 3 → List ℕ), IsMint (s 0) → 0 ≤ value BASE (s 0) →
      ∃ fuel, Roots s 0 1 2 (msqrt fuel s 0 1 2) := by
  intro h
  have hlen : (List.replicate 65533 0 ++ [1]).length = 65534 := by
    rw [List.length_append, List.length_replicate]
    rfl
  obtain ⟨fuel, s', h1, -⟩ := h (fun _ => List.replicate 65533 0 ++ [1])
    ⟨normal_replicate _, by rw [fits, hlen]; decide⟩ (replicate_nonneg _)
  rw [msqrt_long _ _ _ _ (by rw [hlen])] at h1
  exact absurd h1 (by simp)

end Coherent.Mint
