import Coherent.Mint

/-!
The multi-precision integers of `libmp`: division.

A small divisor goes through the digits of the dividend with an `int` remainder. Otherwise the
divisor is made negative and the dividend positive; each digit of the quotient is guessed from the
two leading digits of the divisor, and made one larger if the rest is still not less than the
divisor. There is no result where an assertion fails, where the length of a block has wrapped
around, or where a digit outside of a block is taken in.
-/

namespace Coherent.Mint

open Coherent.Lib Coherent.Lib.Complement

variable {V : Type} [DecidableEq V]

/-- What an `unsigned` holds. -/
def unsigned (n : ℕ) : ℕ := n % 65536

/-! ### Division by an `int` -/

/-- The digits of the quotient, the leading one first as those of the dividend, and the
remainder. -/
def sdivLoop (n : ℤ) : ℤ → List ℕ → List ℕ × ℤ
  | rem, [] => ([], rem)
  | rem, d :: ds =>
    let rem := int16 (BASE * rem + d)
    let (q, r) := sdivLoop n (rem % n) ds
    ((rem / n).toNat :: q, r)

/-- The remainder comes back as an `int`. -/
def sdiv (s : V → List ℕ) (a : V) (n : ℤ) (q : V) : Option ((V → List ℕ) × ℤ) :=
  if n = 0 then none
  else if 1 ≤ |n| ∧ |n| ≤ BASE then do
    let al ← (if ispos (s a) then some (s a) else neg (s a))
    let (res, rem) := sdivLoop |n| 0 al.reverse
    let s' := Function.update s q (norm res.reverse)
    if (if ispos (s a) then n < 0 else ¬ n < 0) then (mneg s' q q).map (·, -rem)
    else some (s', rem)
  else none

/-- The mint of an `int`. -/
def mitom (n : ℤ) : List ℕ :=
  let tev := Nat.digits BASE n.natAbs ++ [0]
  if n < 0 then
    match tev.map (NEFL - ·) with
    | d :: ds => norm (byte (d + 1) :: ds)
    | [] => []
  else norm tev

def shortd (s : V → List ℕ) (a b q r : V) : Option (V → List ℕ) := do
  let denom : ℤ :=
    if ispos (s b) then
      if (s b).length ≠ 1 ∧ (s b).getD 0 0 = 0 then BASE else (s b).getD 0 0
    else (s b).getD 0 0 - BASE
  let (s', rem) ← sdiv s a denom q
  some (Function.update s' r (mitom rem))

/-! ### Long division -/

/-- The two leading digits of a negative number, rounded away from zero. -/
def est (b : List ℕ) : ℤ :=
  (NEFL - b.getD (b.length - 2) 0) * BASE + (NEFL - b.getD (b.length - 3) 0 + 1)

/-- The length but for a leading zero. -/
def size (a : List ℕ) : ℕ := if a.getLast? = some 0 then a.length - 1 else a.length

/-- The two or three digits of `a` from the place `shift` on, by the estimate. -/
def guess (den shift : ℕ) (a : List ℕ) : Option ℕ :=
  let n := size a
  if n ≤ unsigned (shift + 3) then
    if n < unsigned (shift + 2) then some 0
    else
      let result := a.getD (n - 1) 0 * BASE + a.getD (n - 2) 0
      let result :=
        if n = unsigned (shift + 3) then result * BASE + a.getD (n - 3) 0 else result
      if result < den * BASE then some (result / den) else none
  else none

/-- Whether the sum of digits, the leading ones first, has a carry. -/
def overflows : List ℕ → List ℕ → Bool
  | y :: ys, x :: xs =>
    if BASE ≤ x + y then true else if x + y < NEFL then false else overflows ys xs
  | _, _ => false

/-- The digits without leading zeros. -/
def trim (a : List ℕ) : List ℕ := (skip a.reverse).reverse

/-- `a` in its correct length: the digit above a leading `NEFL` is kept, if there is one. -/
def correct (a : List ℕ) : Option (List ℕ) :=
  let ap := trim a
  if ap.getLast? = some NEFL then
    if ap.length < a.length then some (a.take (ap.length + 1)) else none
  else some ap

/-- Whether `a` is at least `-b` at the place `shift`. -/
def snc (b : List ℕ) (shift : ℕ) (a : List ℕ) : Option (Bool × List ℕ) :=
  let ap := trim a
  let aleng := int16 ap.length
  let bleng := int16 ((b.length + shift : ℕ) - 1)
  (correct a).map (if aleng ≠ bleng then decide (bleng < aleng)
    else overflows b.dropLast.reverse ap.reverse, ·)

/-- One digit of the quotient, and the rest of the dividend. -/
def turn (b : List ℕ) (tden tbias shift : ℕ) (a : List ℕ) : Option (ℕ × List ℕ) := do
  let d ← guess tden (tbias + shift) a
  let a ← msma b d shift a
  let (c, a) ← snc b shift a
  if c then do
    let a ← msma b 1 shift a
    some (byte (d + 1), a)
  else some (d, a)

/-- The digits from the place `shift` down. -/
def turns (b : List ℕ) (tden tbias : ℕ) : ℕ → List ℕ → Option (List ℕ × List ℕ)
  | 0, a => do
    let (d, a) ← turn b tden tbias 0 a
    some ([d], a)
  | shift + 1, a => do
    let (d, a) ← turn b tden tbias (shift + 1) a
    let (ds, a) ← turns b tden tbias shift a
    some (ds ++ [d], a)

/-- The quotient of `a` and `-b`, and the remainder. -/
def longd (a b : List ℕ) : Option (List ℕ × List ℕ) :=
  if ¬ ispos b ∧ 3 ≤ b.length then
    let tden := est b
    if tden ≤ BASE * BASE ∧ BASE < tden then
      let tbias := b.length - 3
      if tbias + 2 ≤ a.length then do
        let (res, a) ← turns b tden.toNat tbias (a.length - (tbias + 2)) a
        some (norm (res ++ [0]), norm a)
      else none
    else none
  else none

/-- The divisors of at most two digits that `sdiv` takes. -/
def small (b : List ℕ) : Prop :=
  b.length ≤ 2 ∧ (b.length = 1 ∨ b.getD 1 0 = NEFL ∨ b.getD 1 0 = 0 ∨
    (b.getD 1 0 = 1 ∧ b.getD 0 0 = 0))

instance (b : List ℕ) : Decidable (small b) := inferInstanceAs (Decidable (_ ∧ _))

def mdiv (s : V → List ℕ) (a b q r : V) : Option (V → List ℕ) :=
  if small (s b) then shortd s a b q r
  else do
    let bl ← (if ispos (s b) then neg (s b) else some (s b))
    if 2 < bl.length then do
      let al ← (if ispos (s a) then some (s a) else neg (s a))
      let (res, al) ← (if al.length ≤ bl.length - 2 then some ([0], al) else longd al bl)
      let s' := Function.update s q res
      if (if ispos (s a) then ¬ ispos (s b) else ispos (s b)) then do
        let s' ← mneg s' q q
        let rem ← neg al
        some (Function.update s' r rem)
      else some (Function.update s' r al)
    else none

variable {a b l : List ℕ} {v w q r : ℤ} {n m : ℕ}

/-! ### The quotient and the remainder -/

/-- What a division is to give. -/
def DivLaw (v w q r : ℤ) : Prop :=
  r + q * w = v ∧ |r| < |w| ∧ (q ≠ 0 → r ≠ 0 → (0 < q ↔ 0 < r))

instance (v w q r : ℤ) : Decidable (DivLaw v w q r) := inferInstanceAs (Decidable (_ ∧ _))

/-- The remainder with the sign of the quotient. -/
def rest (v w : ℤ) : ℤ := if w < 0 then -v.tmod w else v.tmod w

/-- The signs differ. -/
def Differ (v w : ℤ) : Prop := if 0 ≤ v then w < 0 else ¬ w < 0

instance (v w : ℤ) : Decidable (Differ v w) := by
  unfold Differ
  infer_instance

lemma differ_iff (v w : ℤ) : Differ v w ↔ (0 ≤ v ∧ w < 0) ∨ (v < 0 ∧ 0 ≤ w) := by
  unfold Differ
  split_ifs <;> omega

lemma quot_sign (v w : ℤ) : (if Differ v w then -(|v| / |w|) else |v| / |w|) = v.tdiv w := by
  obtain hv | hv := le_or_gt 0 v <;> obtain hw | hw := lt_or_ge w 0
  · rw [if_pos ((differ_iff v w).mpr (by omega)), abs_of_nonneg hv, abs_of_neg hw,
      Int.tdiv_eq_ediv_of_nonneg hv, Int.ediv_neg, neg_neg]
  · rw [if_neg (mt (differ_iff v w).mp (by omega)), abs_of_nonneg hv, abs_of_nonneg hw,
      Int.tdiv_eq_ediv_of_nonneg hv]
  · rw [if_neg (mt (differ_iff v w).mp (by omega)), abs_of_neg hv, abs_of_neg hw,
      ← Int.tdiv_eq_ediv_of_nonneg (by omega), Int.neg_tdiv, Int.tdiv_neg, neg_neg]
  · rw [if_pos ((differ_iff v w).mpr (by omega)), abs_of_neg hv, abs_of_nonneg hw,
      ← Int.tdiv_eq_ediv_of_nonneg (by omega), Int.neg_tdiv, neg_neg]

lemma rest_sign (v w : ℤ) : (if Differ v w then -(|v| % |w|) else |v| % |w|) = rest v w := by
  unfold rest
  obtain hv | hv := le_or_gt 0 v <;> obtain hw | hw := lt_or_ge w 0
  · rw [if_pos ((differ_iff v w).mpr (by omega)), if_pos hw, abs_of_nonneg hv, Int.emod_abs,
      Int.tmod_eq_emod_of_nonneg hv]
  · rw [if_neg (mt (differ_iff v w).mp (by omega)), if_neg (by omega), abs_of_nonneg hv,
      Int.emod_abs, Int.tmod_eq_emod_of_nonneg hv]
  · rw [if_neg (mt (differ_iff v w).mp (by omega)), if_pos hw, abs_of_neg hv, Int.emod_abs,
      ← Int.tmod_eq_emod_of_nonneg (by omega), Int.neg_tmod]
  · rw [if_pos ((differ_iff v w).mpr (by omega)), if_neg (by omega), abs_of_neg hv, Int.emod_abs,
      ← Int.tmod_eq_emod_of_nonneg (by omega), Int.neg_tmod, neg_neg]

/-- The remainder belongs to the quotient only if it is zero or the divisor positive. -/
lemma law_iff (hw : w ≠ 0) : DivLaw v w (v.tdiv w) (rest v w) ↔ 0 < w ∨ w ∣ v := by
  have h1 := Int.mul_tdiv_add_tmod v w
  have hd : w ∣ v ↔ v.tmod w = 0 := Int.dvd_iff_tmod_eq_zero
  have habs : |rest v w| < |w| := by
    rw [← rest_sign]
    have h2 := Int.emod_nonneg |v| (b := |w|) (abs_ne_zero.mpr hw)
    have h3 := Int.emod_lt_of_pos |v| (b := |w|) (abs_pos.mpr hw)
    split_ifs <;> simp only [abs_neg, abs_of_nonneg h2] <;> exact h3
  constructor
  · rintro ⟨h2, -, -⟩
    by_contra h
    push Not at h
    rw [rest, if_pos (by omega)] at h2
    refine h.2 (hd.mpr ?_)
    linarith
  · intro h
    refine ⟨?_, habs, fun hq hr => ?_⟩
    · unfold rest
      split_ifs with hneg
      · have := hd.mp (h.resolve_left (by omega))
        linarith
      · linarith
    · obtain h | h := h
      · rw [← quot_sign] at hq ⊢
        rw [← rest_sign] at hr ⊢
        have h2 := Int.emod_nonneg |v| (b := |w|) (abs_ne_zero.mpr hw)
        have h3 : 0 ≤ |v| / |w| := Int.ediv_nonneg (abs_nonneg v) (abs_nonneg w)
        split_ifs at hq hr ⊢ <;> omega
      · refine absurd ?_ hr
        simp [rest, hd.mp h]

/-! ### By an `int` -/

lemma ofDigits_reverse_cons (d : ℕ) (l : List ℕ) :
    Nat.ofDigits BASE (d :: l).reverse = Nat.ofDigits BASE l.reverse + BASE ^ l.length * d := by
  rw [List.reverse_cons, Nat.ofDigits_append, Nat.ofDigits_singleton, List.length_reverse]

lemma sdivLoop_spec {k rem : ℤ} (hk : 1 ≤ k) (hk' : k ≤ 128) (h0 : 0 ≤ rem) (h1 : rem < k)
    (hl : ∀ d ∈ l, d < BASE) :
    (sdivLoop k rem l).1.length = l.length ∧ (∀ d ∈ (sdivLoop k rem l).1, d < BASE) ∧
      0 ≤ (sdivLoop k rem l).2 ∧ (sdivLoop k rem l).2 < k ∧
      rem * BASE ^ l.length + (Nat.ofDigits BASE l.reverse : ℕ) =
        k * (Nat.ofDigits BASE (sdivLoop k rem l).1.reverse : ℕ) + (sdivLoop k rem l).2 := by
  induction l generalizing rem with
  | nil => simp [sdivLoop, h0, h1]
  | cons d l ih =>
    have hd : (d : ℤ) < 128 := by exact_mod_cast hl d (by simp)
    have hB : (BASE : ℤ) = 128 := rfl
    have hi : int16 (BASE * rem + d) = BASE * rem + d :=
      int16_eq (by rw [hB]; omega) (by rw [hB]; omega)
    have hpos := Int.emod_nonneg (BASE * rem + d) (b := k) (by omega)
    have hlt := Int.emod_lt_of_pos (BASE * rem + d) (b := k) (by omega)
    have hq0 : 0 ≤ (BASE * rem + d) / k := Int.ediv_nonneg (by rw [hB]; omega) (by omega)
    have hq1 : (BASE * rem + d) / k < 128 := by
      refine Int.ediv_lt_of_lt_mul (by omega) ?_
      rw [hB]
      omega
    obtain ⟨i1, i2, i3, i4, i5⟩ := ih hpos hlt fun x hx => hl x (by simp [hx])
    simp only [sdivLoop, hi]
    generalize sdivLoop k ((BASE * rem + d) % k) l = p at *
    obtain ⟨p, t⟩ := p
    simp only at i1 i2 i3 i4 i5 ⊢
    refine ⟨by simp [i1], ?_, i3, i4, ?_⟩
    · intro x hx
      rcases List.mem_cons.mp hx with rfl | hx
      · exact (Int.toNat_lt hq0).mpr hq1
      · exact i2 x hx
    · have hm := Int.mul_ediv_add_emod (BASE * rem + d) k
      rw [ofDigits_reverse_cons, ofDigits_reverse_cons, i1, List.length_cons, pow_succ]
      push_cast at i5 ⊢
      rw [Int.toNat_of_nonneg hq0]
      linear_combination i5 - (BASE : ℤ) ^ l.length * hm

lemma mitom_eq (k : ℤ) : mitom k = ofInt BASE k := by
  unfold mitom
  have hlt : ∀ d ∈ Nat.digits BASE k.natAbs, d < BASE := fun d hd => Nat.digits_lt_base (by decide) hd
  have hval := Nat.ofDigits_digits BASE k.natAbs
  have hsize := ofDigits_lt hlt
  rw [hval] at hsize
  generalize Nat.digits BASE k.natAbs = t at *
  have hpow : ((k.natAbs : ℕ) : ℤ) < (BASE : ℤ) ^ t.length := by exact_mod_cast hsize
  have hval0 : Nat.ofDigits BASE (t ++ [0]) = k.natAbs := by
    rw [Nat.ofDigits_append, Nat.ofDigits_singleton, mul_zero, add_zero, hval]
  have hB : (BASE : ℤ) = 128 := rfl
  split_ifs with hk
  · have hlt0 : ∀ d ∈ t ++ [0], d < BASE := by
      intro d hd
      obtain hd | hd := List.mem_append.mp hd
      · exact hlt d hd
      · rw [List.mem_singleton.mp hd]
        decide
    have hc := map_complement hlt0
    rw [hval0] at hc
    obtain ⟨d, ds, hds⟩ : ∃ d ds, (t ++ [0]).map (NEFL - ·) = d :: ds :=
      List.exists_cons_of_ne_nil (by simp)
    have hd : d ≤ NEFL := by
      have : d ∈ (t ++ [0]).map (NEFL - ·) := by rw [hds]; simp
      obtain ⟨x, -, rfl⟩ := List.mem_map.mp this
      omega
    have hb : byte (d + 1) = d + 1 := by
      simp only [byte, NEFL, BASE] at *
      omega
    have hl : (d :: ds).length = t.length + 1 := by rw [← hds]; simp
    simp only [hds, hb] at hc ⊢
    refine norm_eq (n := t.length) hl ?_ (by omega) ?_
    · rw [Nat.ofDigits_cons] at hc ⊢
      have hc' := congrArg (Nat.cast (R := ℤ)) hc
      push_cast at hc'
      refine Int.modEq_iff_dvd.mpr ⟨1, ?_⟩
      push_cast
      rw [List.length_append, List.length_singleton] at hc'
      rw [mul_one]
      have hk' : |k| = -k := abs_of_neg hk
      rw [hk'] at hc'
      linarith
    · have h := base_pow_pos t.length
      rw [hB] at h ⊢
      linarith
  · refine norm_eq (n := t.length) (by simp) ?_ ?_ ?_
    · rw [hval0]
      rw [Int.natAbs_of_nonneg (by omega)]
    · have := base_pow_pos t.length
      omega
    · have h := base_pow_pos t.length
      rw [Int.natAbs_of_nonneg (by omega)] at hpow
      rw [hB] at h hpow ⊢
      linarith

/-- The block for the negative quotient has a length. -/
def SdivFits (v w : ℤ) : Prop := Differ v w → NegFits (|v| / |w|)

instance (v w : ℤ) : Decidable (SdivFits v w) := by
  unfold SdivFits
  infer_instance

/-- Any digits whose leading one is not `NEFL` come to the integer `norm` makes of them. -/
lemma norm_digits (hl : l ≠ []) (hd : ∀ d ∈ l, d < BASE) (hn : ispos l) :
    norm l = ofInt BASE (Nat.ofDigits BASE l : ℕ) := by
  obtain ⟨n, hn'⟩ : ∃ n, l.length = n + 1 :=
    ⟨l.length - 1, by have := List.length_pos_iff.mpr hl; omega⟩
  obtain ⟨h1, h2⟩ := value_bounds two_le_base hd hn'
  rw [value_pos hn] at h1 h2
  exact norm_eq hn' rfl h1 h2

/-- Fewer digits come to what is still positive. -/
lemma norm_lt (hl : l.length = n + 1) (h : Nat.ofDigits BASE l < (BASE - 1) * BASE ^ n) :
    norm l = ofInt BASE (Nat.ofDigits BASE l : ℕ) := by
  refine norm_eq hl rfl ?_ ?_
  · have := base_pow_pos n
    omega
  · have h' : ((Nat.ofDigits BASE l : ℕ) : ℤ) < ((BASE - 1 : ℕ) : ℤ) * (BASE : ℤ) ^ n := by
      exact_mod_cast h
    rwa [show ((BASE - 1 : ℕ) : ℤ) = (BASE : ℤ) - 1 from rfl] at h'

/-- A number made positive. -/
lemma abs_mint (ha : IsMint a) :
    (if ispos a then some a else neg a) = some (ofInt BASE |value BASE a|) := by
  rw [abs_eq' ha.normal, if_pos]
  intro h
  rw [NegFits, if_neg (by omega), len_value ha.normal]
  exact ha.short

lemma ofDigits_abs (v : ℤ) : ((Nat.ofDigits BASE (ofInt BASE |v|) : ℕ) : ℤ) = |v| := by
  have hn := normal_int |v|
  have h : ispos (ofInt BASE |v|) := (ispos_iff hn).mpr (by simp)
  rw [← value_pos h, value_int]

/-- The digits of a quotient of a positive number are those of a positive number. -/
lemma sdiv_eq (s : V → List ℕ) (a q : V) {k : ℤ} (ha : IsMint (s a)) (hk : 1 ≤ |k|)
    (hk' : |k| ≤ 128) :
    sdiv s a k q = if SdivFits (value BASE (s a)) k then
      some (Function.update s q (ofInt BASE ((value BASE (s a)).tdiv k)), rest (value BASE (s a)) k)
      else none := by
  have hk0 : k ≠ 0 := abs_pos.mp (by omega)
  unfold sdiv
  rw [if_neg hk0, if_pos ⟨hk, by simpa [BASE] using hk'⟩, abs_mint ha]
  simp only [Option.bind_eq_bind, Option.bind_some]
  generalize hv : value BASE (s a) = v
  have hn := normal_int |v|
  have hpos := ofDigits_abs v
  obtain ⟨n, hlen⟩ := exists_length hn
  obtain ⟨-, hb⟩ := value_bounds two_le_base hn.lt hlen
  rw [value_int] at hb
  obtain ⟨i1, i2, i3, i4, i5⟩ := sdivLoop_spec hk hk' (le_refl (0 : ℤ)) (by omega)
    (l := (ofInt BASE |v|).reverse) fun d hd => hn.lt d (List.mem_reverse.mp hd)
  rw [List.reverse_reverse, hpos, zero_mul, zero_add] at i5
  rw [List.length_reverse] at i1
  generalize sdivLoop |k| 0 (ofInt BASE |v|).reverse = p at *
  obtain ⟨p, t⟩ := p
  simp only at i1 i2 i3 i4 i5 ⊢
  -- the digits of the quotient, and the remainder
  have hq : |v| / |k| = (Nat.ofDigits BASE p.reverse : ℕ) := by
    rw [i5, Int.add_comm, Int.add_mul_ediv_left _ _ (by omega), Int.ediv_eq_zero_of_lt i3 i4, zero_add]
  have hr : |v| % |k| = t := by
    rw [i5, Int.add_comm, Int.add_mul_emod_self_left, Int.emod_eq_of_lt i3 i4]
  have hnorm : norm p.reverse = ofInt BASE (|v| / |k|) := by
    rw [hq]
    refine norm_lt (n := n) (by rw [List.length_reverse, i1, hlen]) ?_
    have h1 : |v| / |k| ≤ |v| := Int.ediv_le_self _ (abs_nonneg v)
    rw [hq] at h1
    have h2 : ((Nat.ofDigits BASE p.reverse : ℕ) : ℤ) < ((BASE - 1 : ℕ) : ℤ) * (BASE : ℤ) ^ n := by
      rw [show ((BASE - 1 : ℕ) : ℤ) = (BASE : ℤ) - 1 from rfl]
      omega
    exact_mod_cast h2
  have hd : (if ispos (s a) then k < 0 else ¬ k < 0) ↔ Differ v k := by
    simp only [Differ, ispos_iff ha.normal, hv]
  rw [hnorm, ← quot_sign, ← rest_sign, hr]
  simp only [hd]
  by_cases h : Differ v k
  · rw [if_pos h, if_pos h, if_pos h,
      mneg_eq _ _ _ (by rw [Function.update_self]; exact normal_int _), Function.update_self,
      value_int, Function.update_idem]
    simp only [SdivFits, h, forall_const]
    split_ifs <;> rfl
  · rw [if_neg h, if_neg h, if_neg h, if_pos (show SdivFits v k from fun h' => absurd h' h)]

/-! ### Small divisors -/

lemma small_iff (hb : Normal BASE b) : small b ↔ |value BASE b| ≤ 128 := by
  match b, hb with
  | [d], hb =>
    have hd : d < 128 := hb
    refine iff_of_true ⟨by simp, Or.inl rfl⟩ ?_
    rw [value_singleton two_le_base]
    split_ifs
    · decide
    · rw [abs_of_nonneg (by omega)]
      omega
  | [d, e], hb =>
    obtain ⟨hd, he, h0, h1⟩ := hb
    simp only [BASE] at hd he h0 h1
    rw [value_cons d (by simp), value_singleton two_le_base]
    simp only [small, NEFL, BASE, List.length_cons, List.length_nil, List.getD_cons_succ,
      List.getD_cons_zero]
    split_ifs with h
    · rw [abs_of_neg (by omega)]
      omega
    · rw [abs_of_nonneg (by omega)]
      omega
  | d :: e :: f :: r, hb =>
    refine iff_of_false (fun h => absurd h.1 (by simp)) ?_
    have hp : (1 : ℤ) ≤ (BASE : ℤ) ^ r.length := one_le_pow₀ (by decide)
    obtain h | h := hb.large two_le_base (n := r.length + 1) (by simp)
    · rw [pow_succ] at h
      simp only [BASE] at *
      push_cast at *
      rw [abs_of_nonneg (by linarith)]
      linarith
    · rw [pow_succ] at h
      simp only [BASE] at *
      push_cast at *
      rw [abs_of_neg (by linarith)]
      linarith

/-- The `int` that is made of a small divisor. -/
lemma denom_eq (hb : Normal BASE b) (hs : small b) :
    (if ispos b then if b.length ≠ 1 ∧ b.getD 0 0 = 0 then (BASE : ℤ) else b.getD 0 0
      else (b.getD 0 0 : ℤ) - BASE) = value BASE b := by
  match b, hb with
  | [d], hb =>
    rw [value_singleton two_le_base]
    by_cases h : d = BASE - 1
    · have hp : ¬ ispos [d] := not_not.mpr (by simp [h, NEFL])
      rw [if_neg hp, if_pos h]
      simp [h, BASE]
    · rw [if_pos (by simpa [ispos, NEFL] using h), if_neg h, if_neg (by simp)]
      rfl
  | [d, e], hb =>
    obtain ⟨hd, he, h0, h1⟩ := hb
    rw [value_cons d (by simp), value_singleton two_le_base]
    simp only [small, NEFL, List.length_cons, List.length_nil, List.getD_cons_succ,
      List.getD_cons_zero] at hs
    by_cases h : e = BASE - 1
    · have hp : ¬ ispos [d, e] := not_not.mpr (by simp [h, NEFL])
      rw [if_neg hp, if_pos h]
      simp [BASE]
      ring
    · rw [if_pos (by simpa [ispos, NEFL] using h), if_neg h]
      simp only [BASE, List.length_cons, List.length_nil, List.getD_cons_zero] at *
      split_ifs with h2
      · omega
      · omega
  | d :: e :: f :: r, _ => exact absurd hs.1 (by simp)

end Coherent.Mint
