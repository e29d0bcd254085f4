import Coherent.Lib.Complement

/-!
The multi-precision integers of `libmp`: sums, products and powers.

A mint is the string of its digits in base 128, and its length is an `unsigned`. The routines
take and replace mints that have names, so that any of the names may be the same. There is no
result where the length of a block has wrapped around: the block is then shorter than what is
written to it, or an assertion fails.
-/

namespace Coherent.Mint

open Coherent.Lib Coherent.Lib.Complement

def BASE : ℕ := 128
def NEFL : ℕ := BASE - 1

/-- What an `int` holds. -/
def int16 (x : ℤ) : ℤ := (x + 32768) % 65536 - 32768

/-- What `norm` reads back of an `int` stored in a digit. -/
def byte (x : ℕ) : ℕ := x % 256

/-- The size is one that `mpalc` can be asked for. -/
def fits (n : ℕ) : Prop := n < 65536

instance (n : ℕ) : Decidable (fits n) := inferInstanceAs (Decidable (n < 65536))

def ispos (a : List ℕ) : Prop := a.getLast? ≠ some NEFL

instance (a : List ℕ) : Decidable (ispos a) := inferInstanceAs (Decidable (_ ≠ _))

def zerop (a : List ℕ) : Prop := a.length = 1 ∧ a.head? = some 0

/-- The length of the normal form of an integer. -/
def len (v : ℤ) : ℕ := (ofInt BASE v).length

/-! ### Normalizing -/

/-- The carry is propagated. -/
def carries : ℕ → List ℕ → List ℕ
  | _, [] => []
  | carry, d :: ds => (carry + d) % BASE :: carries ((carry + d) / BASE) ds

/-- Leading zeros are skipped, the leading digit being the first here. -/
def skip : List ℕ → List ℕ
  | 0 :: e :: r => skip (e :: r)
  | r => r

def norm (a : List ℕ) : List ℕ :=
  let r := (carries 0 a).reverse
  if r.head? = some NEFL then (NEFL :: r.dropWhile (· == NEFL)).reverse
  else
    let r := skip r
    if r.head? = some NEFL then (0 :: r).reverse else r.reverse

/-! ### Adding and negating -/

/-- The sign of a mint as a digit. -/
def sign (a : List ℕ) : ℕ := if ispos a then 0 else NEFL

/-- The digits of the sum, `a` not being the shorter one. -/
def sums (a b : List ℕ) : List ℕ :=
  List.zipWith (fun x y => byte (x + y)) a b ++
    (a.drop b.length).map (fun x => byte (x + sign b)) ++ [byte (sign a + sign b)]

/-- The sum `madd` replaces its result by. -/
def sum (a b : List ℕ) : Option (List ℕ) :=
  let (a, b) := if a.length < b.length then (b, a) else (a, b)
  if fits (a.length + 1) then some (norm (sums a b)) else none

/-- The complement of each digit, and one added to the first. -/
def complement (a : List ℕ) : List ℕ :=
  match a.map (NEFL - ·) ++ (if ispos a then [NEFL] else []) with
  | d :: ds => byte (d + 1) :: ds
  | [] => []

def neg (a : List ℕ) : Option (List ℕ) :=
  if fits (if ispos a then a.length + 1 else a.length) then some (norm (complement a)) else none

variable {V : Type} [DecidableEq V]

def madd (s : V → List ℕ) (a b c : V) : Option (V → List ℕ) :=
  (sum (s a) (s b)).map (Function.update s c)

def mneg (s : V → List ℕ) (a b : V) : Option (V → List ℕ) :=
  (neg (s a)).map (Function.update s b)

def msub (s : V → List ℕ) (a b c : V) : Option (V → List ℕ) := do
  let temp ← neg (s b)
  let res ← sum (s a) temp
  some (Function.update s c res)

/-! ### Multiplying -/

/-- The digits of the product with a digit, and the carry out of them. -/
def smultLoop (n : ℤ) : ℤ → List ℕ → List ℕ × ℤ
  | carry, [] => ([], carry)
  | carry, d :: ds =>
    let carry := int16 (carry + d * n)
    let (r, c) := smultLoop n (carry / BASE) ds
    ((carry % BASE).toNat :: r, c)

def smult (s : V → List ℕ) (a : V) (n : ℕ) (c : V) : Option (V → List ℕ) :=
  if n ≤ NEFL then
    if n = 0 then some (Function.update s c [0])
    else if fits ((s a).length + 1) then
      let (r, carry) := smultLoop n 0 (s a)
      let carry := if ispos (s a) then carry else int16 (carry + (BASE - n))
      if 0 ≤ carry ∧ carry ≤ NEFL ∧ (carry = NEFL ↔ ¬ ispos (s a)) then
        some (Function.update s c (norm (r ++ [carry.toNat])))
      else none
    else none
  else none

/-- The product of digits added in place: what has been written, what is left, the carry. -/
def msmaLoop (fac : ℤ) : List ℕ → List ℕ → ℤ → List ℕ × List ℕ × ℤ
  | f :: fs, t :: ts, carry =>
    let carry := int16 (carry + (t + f * fac))
    let (w, r, c) := msmaLoop fac fs ts (carry / BASE)
    ((carry % BASE).toNat :: w, r, c)
  | _, ts, carry => ([], ts, carry)

/-- The carry or borrow is propagated. -/
def borrows : List ℕ → ℤ → List ℕ
  | [], _ => []
  | t :: ts, carry =>
    if carry = 0 then t :: ts
    else
      let carry := int16 (carry + (t + BASE))
      (carry % BASE).toNat :: borrows ts (carry / BASE - 1)

/-- `res` with `a * fac * BASE ^ shift` added. -/
def msma (a : List ℕ) (fac shift : ℕ) (res : List ℕ) : Option (List ℕ) :=
  if fac < 2 * BASE then
    if fac = 0 then some res
    else
      let fs := if ispos a then a else a.dropLast
      if shift + fs.length ≤ res.length then
        let (w, r, carry) := msmaLoop fac fs (res.drop shift) 0
        let carry := if ispos a then carry else int16 (carry - fac)
        some (res.take shift ++ w ++ borrows r carry)
      else none
  else none

/-- The partial products of `b` with the first digits of `a`, the leading one first. -/
def partials (a b : List ℕ) : ℕ → List ℕ → Option (List ℕ)
  | 0, res => some res
  | count + 1, res => do
    let res ← msma b (a.getD count 0) count res
    partials a b count res

def mult (s : V → List ℕ) (a b c : V) : Option (V → List ℕ) := do
  -- b is at least as long as a
  let (a, b) := if (s b).length < (s a).length then (b, a) else (a, b)
  let al ← (if ispos (s a) then some (s a) else neg (s a))
  if al.length = 1 then
    let s' ← smult s b (al.headD 0) c
    if ispos (s a) then some s' else mneg s' c c
  else if fits (al.length + (s b).length) then
    let res ← partials al (s b) al.length (List.replicate (al.length + (s b).length) 0)
    let res ← (if ispos (s a) then some (norm res) else neg (norm res))
    some (Function.update s c res)
  else none

/-- The loop of `spow`; the local copy of `a` has no name among the others. -/
def spowLoop (b : V) (n : ℕ) (s : Option V → List ℕ) : Option (Option V → List ℕ) :=
  if n ≤ 1 then mult s none (some b) (some b)
  else do
    let s ← (if n % 2 ≠ 0 then mult s none (some b) (some b) else some s)
    let s ← mult s none none none
    spowLoop b (n / 2) s
termination_by n

def spow (s : V → List ℕ) (a : V) (n : ℕ) (b : V) : Option (V → List ℕ) :=
  let t : Option V → List ℕ := fun
    | none => s a
    | some k => Function.update s b [1] k
  if n = 0 then some fun k => t (some k) else (spowLoop b n t).map fun t k => t (some k)

/-! ### Comparing -/

/-- The difference of the first digits that differ. -/
def firstDiff : List ℕ → List ℕ → ℤ
  | x :: xs, y :: ys => if x ≠ y then (x : ℤ) - y else firstDiff xs ys
  | _, _ => 0

def mcmp (a b : List ℕ) : ℤ :=
  if ispos a ∧ ¬ ispos b then 1
  else if ¬ ispos a ∧ ispos b then -1
  else if a.length ≠ b.length then
    int16 (if ispos a then a.length - b.length else b.length - a.length)
  else firstDiff a.reverse b.reverse

/-! ### What the digits come to -/

variable {l a b : List ℕ} {v : ℤ} {n m : ℕ}

lemma two_le_base : 2 ≤ BASE := by decide

lemma base_pow_pos (n : ℕ) : (0 : ℤ) < (BASE : ℤ) ^ n := pow_pos (by decide) n

lemma ofInt_zero : ofInt BASE 0 = [0] :=
  Normal.ofInt_value (l := [0]) two_le_base (by decide)

lemma ofInt_one : ofInt BASE 1 = [1] :=
  Normal.ofInt_value (l := [1]) two_le_base (by decide)

lemma int16_eq {x : ℤ} (h : -32768 ≤ x) (h' : x < 32768) : int16 x = x := by
  unfold int16
  omega

lemma ofDigits_lt (h : ∀ d ∈ l, d < BASE) : Nat.ofDigits BASE l < BASE ^ l.length :=
  Nat.ofDigits_lt_base_pow_length (by decide) h

lemma carries_length (c : ℕ) (l : List ℕ) : (carries c l).length = l.length := by
  induction l generalizing c with
  | nil => rfl
  | cons d l ih => simp [carries, ih]

lemma carries_lt (c : ℕ) (l : List ℕ) : ∀ d ∈ carries c l, d < BASE := by
  induction l generalizing c with
  | nil => simp [carries]
  | cons d l ih =>
    intro x hx
    rcases List.mem_cons.mp hx with rfl | hx
    · exact Nat.mod_lt _ (by decide)
    · exact ih _ x hx

/-- What is lost is the carry out of the last digit. -/
lemma carries_value (c : ℕ) (l : List ℕ) :
    ∃ k, c + Nat.ofDigits BASE l = Nat.ofDigits BASE (carries c l) + BASE ^ l.length * k := by
  induction l generalizing c with
  | nil => exact ⟨c, by simp [carries]⟩
  | cons d l ih =>
    obtain ⟨k, hk⟩ := ih ((c + d) / BASE)
    refine ⟨k, ?_⟩
    rw [carries, Nat.ofDigits_cons, Nat.ofDigits_cons, List.length_cons, pow_succ]
    have h1 := Nat.mod_add_div (c + d) BASE
    calc c + (d + BASE * Nat.ofDigits BASE l)
        = (c + d) % BASE + BASE * ((c + d) / BASE + Nat.ofDigits BASE l) := by
          rw [mul_add]; omega
      _ = (c + d) % BASE + BASE * (Nat.ofDigits BASE (carries ((c + d) / BASE) l) +
            BASE ^ l.length * k) := by rw [hk]
      _ = _ := by ring

/-! ### Trimming -/

lemma value_nefl (t : List ℕ) :
    value BASE (t ++ [NEFL, NEFL]) = value BASE (t ++ [NEFL]) := by
  rw [value_append t (by simp), value_append t (by simp)]
  rfl

lemma value_zero {d : ℕ} (t : List ℕ) (h : d ≠ NEFL) :
    value BASE (t ++ [d, 0]) = value BASE (t ++ [d]) := by
  rw [value_append t (by simp), value_append t (by simp), value_cons d (by simp),
    value_singleton two_le_base, value_singleton two_le_base,
    if_neg (show d ≠ BASE - 1 from h), if_neg (by decide)]
  simp

/-- Leading digits `NEFL` but one can be dropped. -/
lemma nefl_trim (r : List ℕ) (h : ∀ d ∈ r, d < BASE) :
    Normal BASE (NEFL :: r.dropWhile (· == NEFL)).reverse ∧
      value BASE (NEFL :: r.dropWhile (· == NEFL)).reverse = value BASE (NEFL :: r).reverse := by
  induction r with
  | nil => exact ⟨by decide, rfl⟩
  | cons d r ih =>
    by_cases hd : d = NEFL
    · subst hd
      obtain ⟨h1, h2⟩ := ih fun x hx => h x (by simp [hx])
      rw [List.dropWhile_cons_of_pos (by simp)]
      refine ⟨h1, h2.trans ?_⟩
      simpa using (value_nefl r.reverse).symm
    · rw [List.dropWhile_cons_of_neg (by simpa using hd)]
      refine ⟨?_, rfl⟩
      rw [List.reverse_cons, List.reverse_cons, List.append_assoc]
      exact normal_append (fun x hx => h x (by simpa using Or.inr (List.mem_reverse.mp hx)))
        (h d (by simp)) (by decide) (fun h => absurd h (by decide)) fun _ => hd

/-- Leading zeros can be dropped, but not the one that makes a number positive. -/
lemma zero_trim (r : List ℕ) (h : ∀ d ∈ r, d < BASE) (hr : r ≠ []) (hn : r.head? ≠ some NEFL) :
    Normal BASE (if (skip r).head? = some NEFL then (0 :: skip r).reverse else (skip r).reverse) ∧
      value BASE (if (skip r).head? = some NEFL then (0 :: skip r).reverse else (skip r).reverse) =
        value BASE r.reverse := by
  induction r with
  | nil => exact absurd rfl hr
  | cons d r ih =>
    have hd := h d (by simp)
    have hr' : ∀ x ∈ r, x < BASE := fun x hx => h x (by simp [hx])
    have hdn : d ≠ NEFL := fun e => hn (by rw [e]; rfl)
    rcases r with _ | ⟨e, r⟩
    · have : skip [d] = [d] := by cases d <;> rfl
      rw [this, if_neg hn]
      exact ⟨hd, rfl⟩
    · have hm : ∀ x ∈ r.reverse, x < BASE := fun x hx => hr' x (by simpa using Or.inr (by simpa using hx))
      by_cases hd0 : d = 0
      · subst hd0
        rw [show skip (0 :: e :: r) = skip (e :: r) from rfl]
        by_cases he : e = NEFL
        · -- the zero stays
          subst he
          rw [show skip (NEFL :: r) = NEFL :: r from rfl, List.head?_cons, if_pos rfl]
          refine ⟨?_, rfl⟩
          rw [List.reverse_cons, List.reverse_cons, List.append_assoc]
          exact normal_append hm (by decide) (by decide) (fun _ => rfl) (by decide)
        · obtain ⟨h1, h2⟩ := ih hr' (by simp) (by simpa using he)
          refine ⟨h1, h2.trans ?_⟩
          simpa using (value_zero r.reverse he).symm
      · have : skip (d :: e :: r) = d :: e :: r := by
          cases d with
          | zero => exact absurd rfl hd0
          | succ d => rfl
        rw [this, if_neg hn]
        refine ⟨?_, rfl⟩
        rw [List.reverse_cons, List.reverse_cons, List.append_assoc]
        exact normal_append hm (hr' e (by simp)) hd (fun h => absurd h hd0) fun h => absurd h hdn

/-- **What `norm` makes of digits**: the normal form of the integer they come to, if that is in
range. -/
lemma norm_eq (hl : l.length = n + 1)
    (hv : v ≡ ((Nat.ofDigits BASE l : ℕ) : ℤ) [ZMOD (BASE : ℤ) ^ (n + 1)])
    (hlo : -(BASE : ℤ) ^ n ≤ v) (hhi : v < (BASE - 1) * (BASE : ℤ) ^ n) :
    norm l = ofInt BASE v := by
  have hc := carries_length 0 l
  have hlt := carries_lt 0 l
  have hval : value BASE (carries 0 l) = v := by
    refine value_eq two_le_base hlt (hc.trans hl) (hv.trans ?_) hlo hhi
    obtain ⟨k, hk⟩ := carries_value 0 l
    rw [zero_add] at hk
    rw [hk, hl]
    push_cast
    exact (Int.modEq_iff_dvd.mpr ⟨-k, by ring⟩)
  obtain ⟨d, r, hr⟩ : ∃ d r, (carries 0 l).reverse = d :: r := by
    refine List.exists_cons_of_ne_nil fun h => ?_
    have := congrArg List.length h
    simp [hc, hl] at this
  have hrv : value BASE (d :: r).reverse = v := by rw [← hr, List.reverse_reverse, hval]
  have hrlt : ∀ x ∈ d :: r, x < BASE := fun x hx => hlt x (List.mem_reverse.mp (hr ▸ hx))
  suffices h : Normal BASE (norm l) ∧ value BASE (norm l) = value BASE (d :: r).reverse by
    rw [← hrv, ← h.2, h.1.ofInt_value two_le_base]
  simp only [norm, hr]
  by_cases hd : d = NEFL
  · subst hd
    rw [List.head?_cons, if_pos rfl, List.dropWhile_cons_of_pos (by simp)]
    exact nefl_trim r fun x hx => hrlt x (by simp [hx])
  · rw [if_neg (by simpa using hd)]
    exact zero_trim (d :: r) hrlt (by simp) (by simpa using hd)

/-! ### Sums -/

lemma value_pos (h : ispos a) : value BASE a = (Nat.ofDigits BASE a : ℕ) := by
  rw [value, if_neg (show ¬ a.getLast? = some (BASE - 1) from h), sub_zero]

lemma value_neg (h : ¬ ispos a) :
    value BASE a = (Nat.ofDigits BASE a : ℕ) - (BASE : ℤ) ^ a.length := by
  rw [value, if_pos (show a.getLast? = some (BASE - 1) from not_not.mp h)]

lemma ispos_iff (h : Normal BASE a) : ispos a ↔ 0 ≤ value BASE a :=
  (value_nonneg two_le_base h.lt h.ne_nil).symm

lemma exists_length (h : Normal BASE a) : ∃ n, a.length = n + 1 :=
  ⟨a.length - 1, by have := List.length_pos_iff.mpr h.ne_nil; omega⟩

/-- The sign as it counts against the place above the leading digit. -/
def borrow (a : List ℕ) : ℕ := if ispos a then 0 else 1

lemma sign_eq (a : List ℕ) : sign a = NEFL * borrow a := by
  unfold sign borrow
  split_ifs <;> rfl

lemma borrow_le (a : List ℕ) : borrow a ≤ 1 := by
  unfold borrow
  split_ifs <;> omega

lemma value_borrow (a : List ℕ) :
    value BASE a = (Nat.ofDigits BASE a : ℕ) - (BASE : ℤ) ^ a.length * borrow a := by
  unfold borrow
  split_ifs with h
  · rw [value_pos h]; simp
  · rw [value_neg h]; simp

/-- The digits of `sums`, for any two signs `p` and `q`. -/
lemma sums_value {p q : ℕ} (hp : p ≤ 1) (hq : q ≤ 1) (ha : ∀ d ∈ a, d < BASE)
    (hb : ∀ d ∈ b, d < BASE) (hab : b.length ≤ a.length) :
    Nat.ofDigits BASE (List.zipWith (fun x y => byte (x + y)) a b ++
        (a.drop b.length).map (fun x => byte (x + NEFL * q)) ++ [byte (NEFL * p + NEFL * q)]) +
        BASE ^ b.length * q + BASE ^ a.length * p =
      Nat.ofDigits BASE a + Nat.ofDigits BASE b + BASE ^ (a.length + 1) * (p + q) := by
  induction a generalizing b with
  | nil =>
    obtain rfl : b = [] := List.eq_nil_of_length_eq_zero (by simpa using hab)
    simp only [byte, NEFL, BASE, List.zipWith_nil_left, List.drop_nil, List.map_nil,
      List.nil_append, Nat.ofDigits_singleton, Nat.ofDigits_nil, List.length_nil]
    omega
  | cons x a ih =>
    have hx : x < 128 := ha x (by simp)
    have ha' : ∀ d ∈ a, d < BASE := fun d hd => ha d (by simp [hd])
    cases b with
    | nil =>
      have h := ih (b := []) ha' (by simp) (by simp)
      have hbyte : byte (x + NEFL * q) = x + NEFL * q := by
        simp only [byte, NEFL, BASE]
        omega
      simp only [List.zipWith_nil_right, List.length_nil, List.drop_zero, List.nil_append,
        List.map_cons, List.cons_append, Nat.ofDigits_cons, Nat.ofDigits_nil, List.length_cons,
        hbyte] at h ⊢
      simp only [NEFL, BASE] at h ⊢
      rw [pow_succ 128 (a.length + 1), pow_succ 128 a.length] at *
      linarith
    | cons y b =>
      have hy : y < 128 := hb y (by simp)
      have h := ih (b := b) ha' (fun d hd => hb d (by simp [hd])) (by simpa using hab)
      have hbyte : byte (x + y) = x + y := by
        simp only [byte]
        omega
      simp only [List.zipWith_cons_cons, List.length_cons, List.drop_succ_cons, List.cons_append,
        Nat.ofDigits_cons, hbyte] at h ⊢
      rw [pow_succ BASE (a.length + 1), pow_succ BASE a.length, pow_succ BASE b.length] at *
      linear_combination BASE * h

lemma sums_modEq (ha : Normal BASE a) (hb : Normal BASE b) (hab : b.length ≤ a.length) :
    value BASE a + value BASE b ≡ (Nat.ofDigits BASE (sums a b) : ℕ)
      [ZMOD (BASE : ℤ) ^ (a.length + 1)] := by
  have h := sums_value (borrow_le a) (borrow_le b) ha.lt hb.lt hab
  rw [← sign_eq, ← sign_eq] at h
  change Nat.ofDigits BASE (sums a b) + _ + _ = _ at h
  rw [value_borrow a, value_borrow b]
  have h' := congrArg (Nat.cast (R := ℤ)) h
  push_cast at h'
  refine Int.modEq_iff_dvd.mpr ⟨borrow a + borrow b, ?_⟩
  push_cast
  linear_combination h'

lemma sums_length (hab : b.length ≤ a.length) : (sums a b).length = a.length + 1 := by
  simp only [sums, List.length_append, List.length_zipWith, List.length_map, List.length_drop,
    List.length_singleton]
  omega

lemma len_value (ha : Normal BASE a) : len (value BASE a) = a.length := by
  rw [len, ha.ofInt_value two_le_base]

/-- The block `madd` asks for has a length. -/
def SumFits (v w : ℤ) : Prop := fits (max (len v) (len w) + 1)

instance (v w : ℤ) : Decidable (SumFits v w) := inferInstanceAs (Decidable (fits _))

/-- **The sum.** -/
lemma sum_eq (ha : Normal BASE a) (hb : Normal BASE b) :
    sum a b = if SumFits (value BASE a) (value BASE b) then
      some (ofInt BASE (value BASE a + value BASE b)) else none := by
  simp only [SumFits, len_value ha, len_value hb]
  wlog hab : b.length ≤ a.length generalizing a b
  · rw [max_comm, add_comm (value BASE a), ← this hb ha (by omega)]
    unfold sum
    rw [if_pos (by omega), if_neg (by omega)]
  rw [max_eq_left hab]
  unfold sum
  rw [if_neg (by omega)]
  refine if_congr Iff.rfl (congrArg some ?_) rfl
  obtain ⟨n, hn⟩ := exists_length ha
  obtain ⟨m, hm⟩ := exists_length hb
  obtain ⟨h1, h2⟩ := value_bounds two_le_base ha.lt hn
  obtain ⟨h3, h4⟩ := value_bounds two_le_base hb.lt hm
  have hpow : (BASE : ℤ) ^ m ≤ (BASE : ℤ) ^ n := pow_le_pow_right₀ (by decide) (by omega)
  have hpos := base_pow_pos n
  refine norm_eq (sums_length hab) (sums_modEq ha hb hab) ?_ ?_
  · rw [hn, pow_succ]
    simp only [BASE] at *
    push_cast at *
    linarith
  · rw [hn, pow_succ]
    simp only [BASE] at *
    push_cast at *
    linarith

/-! ### Negation -/

lemma map_complement (h : ∀ d ∈ a, d < BASE) :
    Nat.ofDigits BASE (a.map (NEFL - ·)) + Nat.ofDigits BASE a + 1 = BASE ^ a.length := by
  induction a with
  | nil => rfl
  | cons d a ih =>
    have hd : d < BASE := h d (by simp)
    have ih := ih fun x hx => h x (by simp [hx])
    rw [List.map_cons, Nat.ofDigits_cons, Nat.ofDigits_cons, List.length_cons, pow_succ, ← ih]
    simp only [NEFL, BASE] at *
    omega

/-- The digits of the complement come to what is missing. -/
lemma complement_value (ha : Normal BASE a) :
    (complement a).length = (if ispos a then a.length + 1 else a.length) ∧
      -value BASE a ≡ (Nat.ofDigits BASE (complement a) : ℕ)
        [ZMOD (BASE : ℤ) ^ (if ispos a then a.length + 1 else a.length)] := by
  have h := map_complement ha.lt
  obtain ⟨d, r, rfl⟩ := List.exists_cons_of_ne_nil ha.ne_nil
  have hd : d < BASE := ha.lt d (by simp)
  have hbyte : byte (NEFL - d + 1) = NEFL - d + 1 := by
    simp only [byte, NEFL, BASE] at *
    omega
  have h' := congrArg (Nat.cast (R := ℤ)) h
  rw [List.map_cons, Nat.ofDigits_cons, Nat.ofDigits_cons] at h'
  push_cast at h'
  by_cases hp : ispos (d :: r)
  · rw [if_pos hp, value_pos hp]
    simp only [complement, if_pos hp, List.map_cons, List.cons_append, hbyte]
    refine ⟨by simp, ?_⟩
    rw [Nat.ofDigits_cons, Nat.ofDigits_cons, Nat.ofDigits_append, Nat.ofDigits_singleton,
      List.length_map, Int.modEq_iff_dvd]
    refine ⟨1, ?_⟩
    push_cast
    rw [List.length_cons] at h' ⊢
    simp only [NEFL, BASE] at *
    push_cast at *
    linear_combination h'
  · rw [if_neg hp, value_neg hp]
    simp only [complement, if_neg hp, List.map_cons, List.append_nil, hbyte]
    refine ⟨by simp, ?_⟩
    rw [Nat.ofDigits_cons, Nat.ofDigits_cons, Int.modEq_iff_dvd]
    refine ⟨0, ?_⟩
    push_cast
    linear_combination h'

/-- The block `mneg` asks for has a length. -/
def NegFits (v : ℤ) : Prop := fits (if 0 ≤ v then len v + 1 else len v)

instance (v : ℤ) : Decidable (NegFits v) := inferInstanceAs (Decidable (fits _))

/-- **The negative.** -/
lemma neg_eq (ha : Normal BASE a) :
    neg a = if NegFits (value BASE a) then some (ofInt BASE (-value BASE a)) else none := by
  unfold neg
  simp only [NegFits, len_value ha]
  simp only [ispos_iff ha]
  refine if_congr Iff.rfl (congrArg some ?_) rfl
  obtain ⟨n, hn⟩ := exists_length ha
  obtain ⟨h1, h2⟩ := value_bounds two_le_base ha.lt hn
  obtain ⟨h3, h4⟩ := complement_value ha
  simp only [ispos_iff ha, hn] at h3 h4
  have hpos := base_pow_pos n
  split_ifs at h3 h4 with hp
  · refine norm_eq h3 h4 ?_ ?_
    · rw [pow_succ]
      simp only [BASE] at *
      push_cast at *
      linarith
    · rw [pow_succ]
      simp only [BASE] at *
      push_cast at *
      linarith
  · refine norm_eq h3 h4 ?_ ?_
    · linarith
    · simp only [BASE] at *
      push_cast at *
      linarith

/-! ### Products -/

lemma toNat_emod (c : ℤ) : ((c % BASE).toNat : ℤ) = c % BASE ∧ (c % BASE).toNat < BASE := by
  have h1 := Int.emod_nonneg c (b := (BASE : ℤ)) (by decide)
  have h2 := Int.emod_lt_of_pos c (b := (BASE : ℤ)) (by decide)
  omega

/-- A digit times a digit leaves an `int` room for the carry. -/
lemma digit_mul {d : ℕ} {f : ℤ} (hd : d < BASE) (hf : 0 ≤ f) (hf' : f ≤ 127) :
    0 ≤ (d : ℤ) * f ∧ (d : ℤ) * f ≤ 16129 := by
  have hd' : (d : ℤ) ≤ 127 := by simp only [BASE] at hd; omega
  refine ⟨by positivity, ?_⟩
  calc (d : ℤ) * f ≤ 127 * f := Int.mul_le_mul_of_nonneg_right hd' hf
    _ ≤ 127 * 127 := Int.mul_le_mul_of_nonneg_left hf' (by norm_num)

lemma smultLoop_spec {f : ℤ} (hf : 0 ≤ f) (hf' : f ≤ 127) {c : ℤ} (hc : 0 ≤ c) (hc' : c ≤ 126)
    (ha : ∀ d ∈ a, d < BASE) :
    (smultLoop f c a).1.length = a.length ∧ (∀ d ∈ (smultLoop f c a).1, d < BASE) ∧
      0 ≤ (smultLoop f c a).2 ∧ (smultLoop f c a).2 ≤ 126 ∧
      ((Nat.ofDigits BASE (smultLoop f c a).1 : ℕ) : ℤ) + BASE ^ a.length * (smultLoop f c a).2 =
        c + f * (Nat.ofDigits BASE a : ℕ) := by
  induction a generalizing c with
  | nil => simp [smultLoop, hc, hc']
  | cons d a ih =>
    obtain ⟨h1, h2⟩ := digit_mul (ha d (by simp)) hf hf'
    have hi : int16 (c + d * f) = c + d * f := int16_eq (by omega) (by omega)
    have hq : 0 ≤ (c + d * f) / BASE ∧ (c + d * f) / BASE ≤ 126 := by
      simp only [BASE]
      omega
    obtain ⟨i1, i2, i3, i4, i5⟩ := ih hq.1 hq.2 fun x hx => ha x (by simp [hx])
    obtain ⟨t1, t2⟩ := toNat_emod (c + d * f)
    simp only [smultLoop, hi]
    refine ⟨by simp [i1], ?_, i3, i4, ?_⟩
    · intro x hx
      rcases List.mem_cons.mp hx with rfl | hx
      · exact t2
      · exact i2 x hx
    · have hm := Int.emod_add_mul_ediv (c + d * f) BASE
      rw [Nat.ofDigits_cons, Nat.ofDigits_cons, Nat.cast_add, t1, List.length_cons, pow_succ]
      push_cast at i5 ⊢
      linear_combination BASE * i5 + hm

/-- The block `smult` asks for, if it does, has a length. -/
def SmultFits (v : ℤ) (n : ℕ) : Prop := n = 0 ∨ fits (len v + 1)

instance (v : ℤ) (n : ℕ) : Decidable (SmultFits v n) := inferInstanceAs (Decidable (_ ∨ _))

/-- **The product with a digit.** -/
lemma smult_eq (s : V → List ℕ) (a c : V) (ha : Normal BASE (s a)) (hn : n ≤ NEFL) :
    smult s a n c = if SmultFits (value BASE (s a)) n then
      some (Function.update s c (ofInt BASE (value BASE (s a) * n))) else none := by
  unfold smult
  simp only [SmultFits, len_value ha]
  rw [if_pos hn]
  by_cases h0 : n = 0
  · rw [if_pos h0, if_pos (Or.inl h0), h0]
    simp only [Nat.cast_zero, mul_zero, ofInt_zero]
  rw [if_neg h0]
  by_cases hfit : fits ((s a).length + 1)
  · rw [if_pos hfit, if_pos (Or.inr hfit)]
    have hn' : (n : ℤ) ≤ 127 := by simp only [NEFL, BASE] at hn; omega
    obtain ⟨h1, h2, h3, h4, h5⟩ :=
      smultLoop_spec (f := n) (by omega) hn' (le_refl 0) (by norm_num) ha.lt
    obtain ⟨k, hk⟩ := exists_length ha
    obtain ⟨hlo, hhi⟩ := value_bounds two_le_base ha.lt hk
    have hpos := base_pow_pos k
    generalize smultLoop n 0 (s a) = r at *
    obtain ⟨r, carry⟩ := r
    simp only at h1 h2 h3 h4 h5 ⊢
    -- the carry is that of the sign
    have hcarry : ∃ c' : ℤ, (if ispos (s a) then carry else int16 (carry + (BASE - n))) = c' ∧
        0 ≤ c' ∧ c' ≤ NEFL ∧ (c' = NEFL ↔ ¬ ispos (s a)) ∧
        value BASE (s a) * n ≡ (Nat.ofDigits BASE r : ℕ) + BASE ^ (k + 1) * c'
          [ZMOD (BASE : ℤ) ^ (k + 2)] := by
      by_cases hp : ispos (s a)
      · refine ⟨carry, if_pos hp, h3, by simp only [NEFL, BASE]; omega, ?_, ?_⟩
        · simp only [hp, not_true, iff_false, NEFL, BASE]
          omega
        · rw [value_pos hp, ← hk, h5, zero_add, mul_comm]
      · have hlt := ofDigits_lt h2
        rw [h1, hk] at hlt
        have hlt' : ((Nat.ofDigits BASE r : ℕ) : ℤ) < (BASE : ℤ) ^ (k + 1) := by exact_mod_cast hlt
        have hge : (0 : ℤ) ≤ (Nat.ofDigits BASE r : ℕ) := Int.natCast_nonneg _
        have hv := value_neg hp
        have hvneg : value BASE (s a) < 0 := by
          rw [ispos_iff ha] at hp
          omega
        rw [hk] at h5 hv
        have hprod : value BASE (s a) * n =
            (Nat.ofDigits BASE r : ℕ) + BASE ^ (k + 1) * (carry - n) := by
          rw [hv]
          linear_combination -h5
        have hcn : carry - n = -1 := by
          rw [pow_succ] at hlt' hprod
          have hn1 : (1 : ℤ) ≤ n := by omega
          have hup : value BASE (s a) * n < 0 := Int.mul_neg_of_neg_of_pos hvneg (by omega)
          have hdown : -((BASE : ℤ) ^ k * 127) ≤ value BASE (s a) * n := by
            calc -((BASE : ℤ) ^ k * 127) ≤ -((BASE : ℤ) ^ k * n) := by
                  have := Int.mul_le_mul_of_nonneg_left hn' hpos.le
                  omega
              _ = -(BASE : ℤ) ^ k * n := by ring
              _ ≤ value BASE (s a) * n := Int.mul_le_mul_of_nonneg_right hlo (by omega)
          have hB : (BASE : ℤ) = 128 := rfl
          rw [hB] at hprod hlt' hdown hpos
          obtain h | h | h := lt_trichotomy (carry - n) (-1)
          · have := Int.mul_le_mul_of_nonneg_left (show carry - n ≤ -2 by omega)
              (show (0 : ℤ) ≤ 128 ^ k * 128 by positivity)
            omega
          · exact h
          · have := Int.mul_le_mul_of_nonneg_left (show 0 ≤ carry - n by omega)
              (show (0 : ℤ) ≤ 128 ^ k * 128 by positivity)
            omega
        refine ⟨127, ?_, by norm_num, by decide, by simp only [hp, not_false_iff, iff_true]; rfl, ?_⟩
        · rw [if_neg hp, int16_eq] <;> simp only [BASE] <;> omega
        · rw [hprod, hcn, Int.modEq_iff_dvd]
          refine ⟨1, ?_⟩
          rw [pow_succ (BASE : ℤ) (k + 1), show (BASE : ℤ) = 128 from rfl]
          ring
    obtain ⟨c', hc1, hc2, hc3, hc4, hc5⟩ := hcarry
    rw [hc1, if_pos ⟨hc2, hc3, hc4⟩]
    refine congrArg (fun x => some (Function.update s c x)) ?_
    refine norm_eq (n := k + 1) (by simp [h1, hk]) (hc5.trans ?_) ?_ ?_
    · rw [Nat.ofDigits_append, Nat.ofDigits_singleton, h1, hk]
      push_cast
      rw [Int.toNat_of_nonneg hc2]
    · rw [pow_succ]
      have h6 : -(BASE : ℤ) ^ k * n ≤ value BASE (s a) * n :=
        Int.mul_le_mul_of_nonneg_right hlo (by omega)
      have h7 := Int.mul_le_mul_of_nonneg_left hn' hpos.le
      rw [show (BASE : ℤ) = 128 from rfl] at *
      linarith
    · rw [pow_succ]
      have h6 : value BASE (s a) * n ≤ (BASE - 1) * (BASE : ℤ) ^ k * n :=
        Int.mul_le_mul_of_nonneg_right hhi.le (by omega)
      have h7 := Int.mul_le_mul_of_nonneg_left hn' hpos.le
      rw [show (BASE : ℤ) = 128 from rfl] at *
      linarith
  · rw [if_neg hfit, if_neg (by tauto)]

lemma msmaLoop_spec {f : ℤ} (hf : 0 ≤ f) (hf' : f ≤ 127) {c : ℤ} (hc : 0 ≤ c) (hc' : c ≤ 127)
    (ha : ∀ d ∈ a, d < BASE) (hb : ∀ d ∈ b, d < BASE) (hab : a.length ≤ b.length) :
    (msmaLoop f a b c).1.length = a.length ∧ (∀ d ∈ (msmaLoop f a b c).1, d < BASE) ∧
      (msmaLoop f a b c).2.1 = b.drop a.length ∧ 0 ≤ (msmaLoop f a b c).2.2 ∧
      (msmaLoop f a b c).2.2 ≤ 127 ∧
      ((Nat.ofDigits BASE (msmaLoop f a b c).1 : ℕ) : ℤ) +
          BASE ^ a.length * (msmaLoop f a b c).2.2 =
        c + (Nat.ofDigits BASE (b.take a.length) : ℕ) + f * (Nat.ofDigits BASE a : ℕ) := by
  induction a generalizing b c with
  | nil => simp [msmaLoop, hc, hc']
  | cons d a ih =>
    cases b with
    | nil => simp at hab
    | cons t b =>
      obtain ⟨h1, h2⟩ := digit_mul (ha d (by simp)) hf hf'
      have ht : (t : ℤ) < 128 := by exact_mod_cast hb t (by simp)
      have hi : int16 (c + (t + d * f)) = c + (t + d * f) := int16_eq (by omega) (by omega)
      have hq : 0 ≤ (c + (t + d * f)) / BASE ∧ (c + (t + d * f)) / BASE ≤ 127 := by
        simp only [BASE]
        omega
      obtain ⟨i1, i2, i3, i4, i5, i6⟩ := ih (b := b) hq.1 hq.2 (fun x hx => ha x (by simp [hx]))
        (fun x hx => hb x (by simp [hx])) (by simpa using hab)
      obtain ⟨t1, t2⟩ := toNat_emod (c + (t + d * f))
      simp only [msmaLoop, hi]
      refine ⟨by simp [i1], ?_, by simpa using i3, i4, i5, ?_⟩
      · intro x hx
        rcases List.mem_cons.mp hx with rfl | hx
        · exact t2
        · exact i2 x hx
      · have hm := Int.emod_add_mul_ediv (c + (t + d * f)) BASE
        rw [Nat.ofDigits_cons, Nat.ofDigits_cons, Nat.cast_add, t1, List.length_cons,
          List.take_succ_cons, Nat.ofDigits_cons, pow_succ]
        push_cast at i6 ⊢
        linear_combination BASE * i6 + hm

lemma borrows_spec {c : ℤ} (hc : -127 ≤ c) (hc' : c ≤ 127) (ha : ∀ d ∈ a, d < BASE) :
    (borrows a c).length = a.length ∧ (∀ d ∈ borrows a c, d < BASE) ∧
      ((Nat.ofDigits BASE a : ℕ) : ℤ) + c ≡ (Nat.ofDigits BASE (borrows a c) : ℕ)
        [ZMOD (BASE : ℤ) ^ a.length] := by
  induction a generalizing c with
  | nil => exact ⟨rfl, by simp [borrows], by simp [Int.modEq_one]⟩
  | cons t a ih =>
    have ht : (t : ℤ) < 128 := by exact_mod_cast ha t (by simp)
    by_cases h0 : c = 0
    · rw [borrows, if_pos h0, h0, add_zero]
      exact ⟨rfl, ha, rfl⟩
    · have hi : int16 (c + (t + BASE)) = c + (t + BASE) :=
        int16_eq (by simp only [BASE]; omega) (by simp only [BASE]; omega)
      have hq : -127 ≤ (c + (t + BASE)) / BASE - 1 ∧ (c + (t + BASE)) / BASE - 1 ≤ 127 := by
        simp only [BASE]
        omega
      obtain ⟨i1, i2, i3⟩ := ih hq.1 hq.2 fun x hx => ha x (by simp [hx])
      obtain ⟨t1, t2⟩ := toNat_emod (c + (t + BASE))
      simp only [borrows, if_neg h0, hi]
      refine ⟨by simp [i1], ?_, ?_⟩
      · intro x hx
        rcases List.mem_cons.mp hx with rfl | hx
        · exact t2
        · exact i2 x hx
      · have hm := Int.emod_add_mul_ediv (c + (t + BASE)) BASE
        obtain ⟨k, hk⟩ := i3.dvd
        rw [Nat.ofDigits_cons, Nat.ofDigits_cons, Nat.cast_add, Nat.cast_add, t1, List.length_cons,
          pow_succ]
        refine Int.modEq_iff_dvd.mpr ⟨k, ?_⟩
        push_cast at hk ⊢
        linear_combination BASE * hk + hm

/-- What `msma` adds, the borrow of a negative number included. -/
lemma msma_spec {res : List ℕ} (ha : Normal BASE a) (hn : n ≤ NEFL) (hr : ∀ d ∈ res, d < BASE)
    (hm : m + (if ispos a then a.length else a.length - 1) ≤ res.length) :
    ∃ res', msma a n m res = some res' ∧ res'.length = res.length ∧ (∀ d ∈ res', d < BASE) ∧
      ((Nat.ofDigits BASE res : ℕ) : ℤ) + BASE ^ m * (n * value BASE a) ≡
        (Nat.ofDigits BASE res' : ℕ) [ZMOD (BASE : ℤ) ^ res.length] := by
  have hn' : (n : ℤ) ≤ 127 := by simp only [NEFL, BASE] at hn; omega
  unfold msma
  rw [if_pos (by simp only [NEFL, BASE] at hn ⊢; omega)]
  by_cases h0 : n = 0
  · rw [if_pos h0, h0]
    exact ⟨res, rfl, rfl, hr, by simp⟩
  rw [if_neg h0]
  -- a negative number is its other digits less one at the leading place
  obtain ⟨fs, q, hfs, hfl, hflt, hq, hv⟩ : ∃ fs : List ℕ, ∃ q : ℕ,
      (if ispos a then a else a.dropLast) = fs ∧
      fs.length = (if ispos a then a.length else a.length - 1) ∧ (∀ d ∈ fs, d < BASE) ∧
      q ≤ 1 ∧ value BASE a = (Nat.ofDigits BASE fs : ℕ) - BASE ^ fs.length * q ∧
      (ispos a → q = 0) ∧ (¬ ispos a → q = 1) := by
    by_cases hp : ispos a
    · exact ⟨a, 0, if_pos hp, (if_pos hp).symm, ha.lt, by omega, by rw [value_pos hp]; simp,
        fun _ => rfl, fun h => absurd hp h⟩
    · refine ⟨a.dropLast, 1, if_neg hp, by rw [if_neg hp, List.length_dropLast],
        fun d hd => ha.lt d (List.dropLast_subset a hd), le_refl 1, ?_, fun h => absurd h hp,
        fun _ => rfl⟩
      have hlast : a.getLast ha.ne_nil = NEFL := by
        have := not_not.mp hp
        rw [List.getLast?_eq_some_getLast ha.ne_nil] at this
        exact Option.some.inj this
      conv_lhs => rw [← List.dropLast_append_getLast ha.ne_nil, hlast,
        value_append _ (by simp), value_singleton two_le_base,
        if_pos (show NEFL = BASE - 1 from rfl)]
      ring
  obtain ⟨hv, hq0, hq1⟩ := hv
  rw [← hfl] at hm
  simp only [hfs]
  rw [if_pos hm]
  have hdrop : ∀ d ∈ res.drop m, d < BASE := fun d hd => hr d (List.mem_of_mem_drop hd)
  obtain ⟨i1, i2, i3, i4, i5, i6⟩ := msmaLoop_spec (f := n) (c := 0) (by omega) hn' (le_refl 0)
    (by norm_num) hflt hdrop (by simp; omega)
  generalize msmaLoop n fs (res.drop m) 0 = r at *
  obtain ⟨w, r, carry⟩ := r
  simp only at i1 i2 i3 i4 i5 i6 ⊢
  have hcarry : (if ispos a then carry else int16 (carry - n)) = carry - n * q := by
    by_cases hp : ispos a
    · rw [if_pos hp, hq0 hp]; simp
    · rw [if_neg hp, hq1 hp, int16_eq (by omega) (by omega)]; simp
  have hcq : -127 ≤ carry - n * q ∧ carry - n * q ≤ 127 := by
    obtain rfl | rfl : q = 0 ∨ q = 1 := by omega
    · simp only [Nat.cast_zero, mul_zero]; omega
    · simp only [Nat.cast_one, mul_one]; omega
  have hrd : ∀ d ∈ r, d < BASE := by
    rw [i3]
    exact fun d hd => hdrop d (List.mem_of_mem_drop hd)
  obtain ⟨j1, j2, j3⟩ := borrows_spec hcq.1 hcq.2 hrd
  rw [hcarry]
  have hrl : r.length = res.length - m - fs.length := by
    rw [i3, List.length_drop, List.length_drop]
  have htl : (res.take m).length = m := by simp; omega
  have hlen : (res.take m ++ w ++ borrows r (carry - n * q)).length = res.length := by
    rw [List.length_append, List.length_append, htl, i1, j1, hrl]
    omega
  refine ⟨_, rfl, hlen, fun d hd => ?_, ?_⟩
  · simp only [List.mem_append] at hd
    obtain (hd | hd) | hd := hd
    · exact hr d (List.mem_of_mem_take hd)
    · exact i2 d hd
    · exact j2 d hd
  · obtain ⟨k, hk⟩ := j3.dvd
    have hres : ((Nat.ofDigits BASE res : ℕ) : ℤ) = (Nat.ofDigits BASE (res.take m) : ℕ) + BASE ^ m *
        ((Nat.ofDigits BASE ((res.drop m).take fs.length) : ℕ) +
          BASE ^ fs.length * (Nat.ofDigits BASE r : ℕ)) := by
      have htl' : ((res.drop m).take fs.length).length = fs.length := by simp; omega
      conv_lhs => rw [← List.take_append_drop m res, Nat.ofDigits_append, htl,
        ← List.take_append_drop fs.length (res.drop m), Nat.ofDigits_append, htl', ← i3]
      push_cast
      ring
    have hpow : (BASE : ℤ) ^ res.length = BASE ^ m * (BASE ^ fs.length * BASE ^ r.length) := by
      rw [← pow_add, ← pow_add, hrl]
      congr 1
      omega
    rw [hpow, hres, hv, Int.modEq_iff_dvd, Nat.ofDigits_append, Nat.ofDigits_append,
      List.length_append, htl, i1, pow_add]
    refine ⟨k, ?_⟩
    push_cast at hk i6 ⊢
    linear_combination (BASE : ℤ) ^ m * i6 + (BASE : ℤ) ^ m * BASE ^ fs.length * hk

/-- All partial products add up to the product. -/
lemma partials_spec {w : List ℕ} (hb : Normal BASE b) (ha : ∀ d ∈ a, d < BASE)
    (hr : ∀ d ∈ w, d < BASE) (hn : n ≤ a.length) (hl : n + b.length ≤ w.length) :
    ∃ res', partials a b n w = some res' ∧ res'.length = w.length ∧ (∀ d ∈ res', d < BASE) ∧
      ((Nat.ofDigits BASE w : ℕ) : ℤ) + (Nat.ofDigits BASE (a.take n) : ℕ) * value BASE b ≡
        (Nat.ofDigits BASE res' : ℕ) [ZMOD (BASE : ℤ) ^ w.length] := by
  induction n generalizing w with
  | zero => exact ⟨w, rfl, rfl, hr, by simp⟩
  | succ n ih =>
    have hget : a[n]? = some (a.getD n 0) := by
      simp [List.getD_eq_getElem?_getD, List.getElem?_eq_getElem (show n < a.length by omega)]
    have hd : a.getD n 0 < BASE := ha _ (List.mem_of_getElem? hget)
    obtain ⟨r1, h1, h2, h3, h4⟩ := msma_spec (n := a.getD n 0) (m := n) hb
      (by simp only [NEFL]; omega) hr (by split_ifs <;> omega)
    obtain ⟨r2, i1, i2, i3, i4⟩ := ih h3 (by omega) (by omega)
    refine ⟨r2, by rw [partials, h1]; exact i1, i2.trans h2, i3, ?_⟩
    rw [h2] at i4
    refine Int.ModEq.trans ?_ i4
    rw [List.take_add_one, hget, Option.toList_some, Nat.ofDigits_append, Nat.ofDigits_singleton, List.length_take, min_eq_left (by omega)]
    convert h4.add_right (((Nat.ofDigits BASE (a.take n) : ℕ) : ℤ) * value BASE b) using 1
    push_cast
    ring

/-- The blocks `mult` asks for have a length, `v` being the factor that is not longer. -/
def ProdFits (v w : ℤ) : Prop :=
  (v < 0 → NegFits v) ∧ (if len |v| = 1 then SmultFits w v.natAbs else fits (len |v| + len w)) ∧
    (v < 0 → NegFits (|v| * w))

def MultFits (v w : ℤ) : Prop := if len w < len v then ProdFits w v else ProdFits v w

instance (v w : ℤ) : Decidable (ProdFits v w) := by unfold ProdFits; infer_instance

instance (v w : ℤ) : Decidable (MultFits v w) := by unfold MultFits; infer_instance

lemma normal_int (v : ℤ) : Normal BASE (ofInt BASE v) := (normal_ofInt two_le_base v).1

@[simp] lemma value_int (v : ℤ) : value BASE (ofInt BASE v) = v := (normal_ofInt two_le_base v).2

lemma abs_eq' (ha : Normal BASE a) : (if ispos a then some a else neg a) =
    if value BASE a < 0 → NegFits (value BASE a) then some (ofInt BASE |value BASE a|) else none := by
  by_cases hp : ispos a
  · have h := (ispos_iff ha).mp hp
    rw [if_pos hp, if_pos (fun h' => absurd h (by omega)), abs_of_nonneg h,
      ha.ofInt_value two_le_base]
  · have h : value BASE a < 0 := not_le.mp fun h => hp ((ispos_iff ha).mpr h)
    rw [if_neg hp, neg_eq ha, abs_of_neg h]
    simp only [h, forall_const]

/-- A positive mint of one digit. -/
lemma head_of_len {v : ℤ} (hv : 0 ≤ v) (h : len v = 1) :
    (ofInt BASE v).headD 0 = v.natAbs ∧ v.natAbs ≤ NEFL := by
  have hn := normal_int v
  have hval := value_int v
  obtain ⟨d, hd⟩ := List.length_eq_one_iff.mp h
  rw [hd] at hn hval ⊢
  rw [value_singleton two_le_base] at hval
  have hlt : d < BASE := hn
  split_ifs at hval with h1
  · omega
  · refine ⟨by simp; omega, ?_⟩
    simp only [NEFL]
    omega

/-- The product of two mints, the first being positive and having more than one digit. -/
lemma partials_eq {v : ℤ} (hv : 0 ≤ v) (hb : Normal BASE b) :
    (partials (ofInt BASE v) b (len v) (List.replicate (len v + b.length) 0)).map norm =
      some (ofInt BASE (v * value BASE b)) := by
  have ha := normal_int v
  obtain ⟨r, h1, h2, h3, h4⟩ := partials_spec (w := List.replicate (len v + b.length) 0)
    (n := len v) hb ha.lt (by simp [BASE]) (le_refl _) (by simp)
  rw [List.length_replicate] at h2 h4
  rw [Nat.ofDigits_replicate_zero, List.take_of_length_le (show _ ≤ len v from le_refl _), Nat.cast_zero, zero_add,
    ← value_pos ((ispos_iff ha).mpr (by rwa [value_int])), value_int] at h4
  rw [h1, Option.map_some]
  obtain ⟨n, hn⟩ := exists_length ha
  obtain ⟨m, hm⟩ := exists_length hb
  obtain ⟨k1, k2⟩ := value_bounds two_le_base ha.lt hn
  obtain ⟨l1, l2⟩ := value_bounds two_le_base hb.lt hm
  rw [value_int] at k1 k2
  have hlen : len v + b.length = n + m + 1 + 1 := by rw [len, hn, hm]; omega
  rw [hlen] at h2 h4
  have hpn := base_pow_pos n
  have hpm := base_pow_pos m
  refine congrArg some (norm_eq h2 h4 ?_ ?_)
  · rw [pow_succ, pow_add]
    have h5 : v * -(BASE : ℤ) ^ m ≤ v * value BASE b := Int.mul_le_mul_of_nonneg_left l1 hv
    have h6 : v * (BASE : ℤ) ^ m ≤ (BASE - 1) * (BASE : ℤ) ^ n * (BASE : ℤ) ^ m :=
      Int.mul_le_mul_of_nonneg_right k2.le hpm.le
    have h7 := mul_pos hpn hpm
    rw [show (BASE : ℤ) = 128 from rfl] at *
    linarith
  · rw [pow_succ, pow_add]
    have h5 : v * value BASE b ≤ v * ((BASE - 1) * (BASE : ℤ) ^ m) :=
      Int.mul_le_mul_of_nonneg_left l2.le hv
    have h6 : v * ((BASE - 1) * (BASE : ℤ) ^ m) ≤
        (BASE - 1) * (BASE : ℤ) ^ n * ((BASE - 1) * (BASE : ℤ) ^ m) :=
      Int.mul_le_mul_of_nonneg_right k2.le (by rw [show (BASE : ℤ) = 128 from rfl]; positivity)
    have h7 := mul_pos hpn hpm
    rw [show (BASE : ℤ) = 128 from rfl] at *
    linarith

lemma mneg_eq (s : V → List ℕ) (a b : V) (ha : Normal BASE (s a)) :
    mneg s a b = if NegFits (value BASE (s a)) then
      some (Function.update s b (ofInt BASE (-value BASE (s a)))) else none := by
  rw [mneg, neg_eq ha]
  split_ifs <;> rfl

/-- **The product.** -/
lemma mult_eq (s : V → List ℕ) (a b c : V) (ha : Normal BASE (s a)) (hb : Normal BASE (s b)) :
    mult s a b c = if MultFits (value BASE (s a)) (value BASE (s b)) then
      some (Function.update s c (ofInt BASE (value BASE (s a) * value BASE (s b)))) else none := by
  wlog hab : (s a).length ≤ (s b).length generalizing a b
  · have h := this b a hb ha (by omega)
    have hswap : mult s a b c = mult s b a c := by
      unfold mult
      rw [if_pos (by omega), if_neg (by omega)]
    have hfits : MultFits (value BASE (s a)) (value BASE (s b)) ↔
        MultFits (value BASE (s b)) (value BASE (s a)) := by
      unfold MultFits
      rw [len_value ha, len_value hb, if_pos (by omega), if_neg (by omega)]
    rw [hswap, h, mul_comm]
    exact if_congr hfits.symm rfl rfl
  have hfits : MultFits (value BASE (s a)) (value BASE (s b)) =
      ProdFits (value BASE (s a)) (value BASE (s b)) := by
    unfold MultFits
    rw [len_value ha, len_value hb, if_neg (by omega)]
  simp only [hfits]
  unfold mult
  rw [if_neg (by omega)]
  simp only [abs_eq' ha]
  set v := value BASE (s a) with hv
  by_cases h1 : v < 0 → NegFits v
  swap
  · rw [if_neg h1, if_neg fun h => h1 h.1]
    rfl
  rw [if_pos h1]
  simp only [Option.bind_eq_bind, Option.bind_some]
  change (if len |v| = 1 then _ else _) = _
  have hsign : ispos (s a) ↔ 0 ≤ v := ispos_iff ha
  by_cases h2 : len |v| = 1
  · -- one digit
    obtain ⟨h3, h4⟩ := head_of_len (abs_nonneg v) h2
    rw [Int.natAbs_abs] at h3 h4
    rw [if_pos h2, h3, smult_eq s b c hb h4]
    by_cases h5 : SmultFits (value BASE (s b)) v.natAbs
    swap
    · rw [if_neg h5, if_neg fun h => h5 (by simpa [h2] using h.2.1)]
      rfl
    rw [if_pos h5, Option.bind_some]
    have habs : (v.natAbs : ℤ) = |v| := Int.natCast_natAbs v
    rw [habs, mul_comm (value BASE (s b))]
    by_cases hp : 0 ≤ v
    · rw [if_pos (hsign.mpr hp), if_pos ⟨h1, by simpa [h2] using h5, fun h => absurd h (by omega)⟩,
        abs_of_nonneg hp]
    · rw [if_neg (mt hsign.mp hp), mneg_eq _ _ _ (by rw [Function.update_self]; exact normal_int _),
        Function.update_self, value_int, Function.update_idem]
      refine if_congr ⟨fun h => ⟨h1, by simpa [h2] using h5, fun _ => h⟩, fun h => h.2.2 (by omega)⟩
        ?_ rfl
      rw [abs_of_neg (by omega), neg_mul, neg_neg]
  · -- partial products
    rw [if_neg h2]
    have hlen : (ofInt BASE |v|).length + (s b).length = len |v| + len (value BASE (s b)) := by
      rw [len_value hb, len]
    rw [hlen]
    by_cases h5 : fits (len |v| + len (value BASE (s b)))
    swap
    · rw [if_neg h5, if_neg fun h => h5 (by simpa [h2] using h.2.1)]
    rw [if_pos h5]
    obtain ⟨r, hr, hr'⟩ := Option.map_eq_some_iff.mp (partials_eq (abs_nonneg v) hb)
    rw [len_value hb]
    change ((partials (ofInt BASE |v|) (s b) (len |v|) _).bind _) = _
    rw [hr, Option.bind_some, hr']
    by_cases hp : 0 ≤ v
    · rw [if_pos (hsign.mpr hp), if_pos ⟨h1, by simpa [h2] using h5, fun h => absurd h (by omega)⟩,
        abs_of_nonneg hp]
      rfl
    · rw [if_neg (mt hsign.mp hp), neg_eq (normal_int _), value_int]
      by_cases h6 : NegFits (|v| * value BASE (s b))
      · rw [if_pos h6, if_pos ⟨h1, by simpa [h2] using h5, fun _ => h6⟩, abs_of_neg (by omega),
          neg_mul, neg_neg]
        rfl
      · rw [if_neg h6, if_neg fun h => h6 (h.2.2 (by omega))]
        rfl

/-! ### Powers -/

/-- The products the loop of `spow` forms of the square `x` and the result `r` fit. -/
def LoopFits (x r : ℤ) (n : ℕ) : Prop :=
  if n ≤ 1 then MultFits x r
  else (n % 2 ≠ 0 → MultFits x r) ∧ MultFits x x ∧
    LoopFits (x * x) (if n % 2 ≠ 0 then x * r else r) (n / 2)
termination_by n

def PowFits (v : ℤ) (n : ℕ) : Prop := n = 0 ∨ LoopFits v 1 n

/-- The names other than that of the local copy. -/
def named (t : Option V → List ℕ) (k : V) : List ℕ := t (some k)

lemma named_update (t : Option V → List ℕ) (b : V) (x : List ℕ) :
    named (Function.update t (some b) x) = Function.update (named t) b x := by
  funext k
  by_cases h : k = b
  · simp [named, h]
  · simp [named, h]

lemma named_none (t : Option V → List ℕ) (x : List ℕ) :
    named (Function.update t none x) = named t := by
  funext k
  simp [named]

lemma spowLoop_eq {t : Option V → List ℕ} {b : V} {x r : ℤ} (hn : n ≠ 0)
    (hx : t none = ofInt BASE x) (hr : t (some b) = ofInt BASE r) :
    (spowLoop b n t).map named = open Classical in if LoopFits x r n then
      some (Function.update (named t) b (ofInt BASE (x ^ n * r))) else none := by
  classical
  induction n using Nat.strong_induction_on generalizing t x r with
  | _ n ih =>
    have hmul : mult t none (some b) (some b) = if MultFits x r then
        some (Function.update t (some b) (ofInt BASE (x * r))) else none := by
      rw [mult_eq _ _ _ _ (by rw [hx]; exact normal_int _) (by rw [hr]; exact normal_int _), hx, hr,
        value_int, value_int]
    rw [spowLoop]
    by_cases h1 : n ≤ 1
    · obtain rfl : n = 1 := by omega
      have hfit : LoopFits x r 1 ↔ MultFits x r := by rw [LoopFits, if_pos (le_refl 1)]
      rw [if_pos (le_refl 1), hmul, pow_one]
      by_cases h : MultFits x r
      · rw [if_pos h, if_pos (hfit.mpr h), Option.map_some, named_update]
      · rw [if_neg h, if_neg (mt hfit.mp h)]
        rfl
    rw [if_neg h1]
    have hfit : LoopFits x r n ↔ (n % 2 ≠ 0 → MultFits x r) ∧ MultFits x x ∧
        LoopFits (x * x) (if n % 2 ≠ 0 then x * r else r) (n / 2) := by
      rw [LoopFits, if_neg h1]
    -- one turn of the loop: the result, then the square
    have hturn : (if n % 2 ≠ 0 then mult t none (some b) (some b) else some t) =
        if n % 2 ≠ 0 → MultFits x r then
          some (Function.update t (some b) (ofInt BASE (if n % 2 ≠ 0 then x * r else r))) else none := by
      by_cases h2 : n % 2 ≠ 0
      · rw [if_pos h2, hmul, if_pos h2]
        exact if_congr ⟨fun h _ => h, fun h => h h2⟩ rfl rfl
      · rw [if_neg h2, if_pos fun h => absurd h h2, if_neg h2, ← hr, Function.update_eq_self]
    generalize hr' : (if n % 2 ≠ 0 then x * r else r) = r' at hturn hfit
    have hpow : (x * x) ^ (n / 2) * r' = x ^ n * r := by
      rw [← pow_two, ← pow_mul, ← hr']
      split_ifs with h2
      · rw [show n = 2 * (n / 2) + 1 by omega, pow_succ, mul_assoc]
        congr 2
        omega
      · rw [show 2 * (n / 2) = n by omega]
    by_cases h3 : n % 2 ≠ 0 → MultFits x r
    swap
    · simp only [hturn, if_neg h3, Option.bind_eq_bind, Option.bind_none, Option.map_none]
      rw [if_neg fun h => h3 (hfit.mp h).1]
    simp only [hturn, if_pos h3, Option.bind_eq_bind, Option.bind_some]
    have hx' : Function.update t (some b) (ofInt BASE r') none = ofInt BASE x := by simp [hx]
    rw [mult_eq _ _ _ _ (by rw [hx']; exact normal_int _) (by rw [hx']; exact normal_int _), hx',
      value_int]
    by_cases h4 : MultFits x x
    · rw [if_pos h4, Option.bind_some,
        ih (n / 2) (by omega) (by omega) (x := x * x) (r := r') (by simp) (by simp), hpow,
        named_none, named_update, Function.update_idem]
      exact if_congr ⟨fun h => hfit.mpr ⟨h3, h4, h⟩, fun h => (hfit.mp h).2.2⟩ rfl rfl
    · rw [if_neg h4, if_neg fun h => h4 (hfit.mp h).2.1]
      rfl

/-- **The power.** -/
lemma spow_eq (s : V → List ℕ) (a b : V) (n : ℕ) (ha : Normal BASE (s a)) :
    spow s a n b = open Classical in if PowFits (value BASE (s a)) n then
      some (Function.update s b (ofInt BASE (value BASE (s a) ^ n))) else none := by
  classical
  unfold spow
  by_cases hn : n = 0
  · have hfit : PowFits (value BASE (s a)) n := Or.inl hn
    rw [if_pos hn, if_pos hfit, hn, pow_zero, ofInt_one]
  rw [if_neg hn]
  change Option.map named _ = _
  rw [spowLoop_eq (x := value BASE (s a)) (r := 1) hn (ha.ofInt_value two_le_base).symm
    (by simp [ofInt_one])]
  rw [mul_one]
  refine if_congr ⟨Or.inr, fun h => h.resolve_left hn⟩ (congrArg some ?_) rfl
  change Function.update (Function.update s b [1]) b _ = _
  rw [Function.update_idem]

/-! ### Comparisons -/

lemma firstDiff_spec (hl : a.length = b.length) (ha : ∀ d ∈ a, d < BASE) (hb : ∀ d ∈ b, d < BASE) :
    (0 < firstDiff a b ↔ Nat.ofDigits BASE b.reverse < Nat.ofDigits BASE a.reverse) ∧
      (firstDiff a b < 0 ↔ Nat.ofDigits BASE a.reverse < Nat.ofDigits BASE b.reverse) := by
  induction a generalizing b with
  | nil =>
    obtain rfl : b = [] := List.eq_nil_of_length_eq_zero hl.symm
    simp [firstDiff]
  | cons x a ih =>
    cases b with
    | nil => simp at hl
    | cons y b =>
      have hl' : a.length = b.length := by simpa using hl
      obtain ⟨i1, i2⟩ := ih hl' (fun d hd => ha d (by simp [hd])) fun d hd => hb d (by simp [hd])
      have h1 := ofDigits_lt (l := a.reverse) fun d hd => ha d (by simp_all)
      have h2 := ofDigits_lt (l := b.reverse) fun d hd => hb d (by simp_all)
      rw [List.length_reverse] at h1 h2
      rw [firstDiff, List.reverse_cons, List.reverse_cons, Nat.ofDigits_append, Nat.ofDigits_append,
        Nat.ofDigits_singleton, Nat.ofDigits_singleton, List.length_reverse, List.length_reverse, ← hl']
      rw [← hl'] at h2
      obtain h | rfl | h := lt_trichotomy x y
      · have h3 : BASE ^ a.length * (x + 1) ≤ BASE ^ a.length * y := Nat.mul_le_mul_left _ h
        rw [mul_add, mul_one] at h3
        rw [if_pos (by omega)]
        constructor
        · omega
        · omega
      · rw [if_neg (by simp), i1, i2]
        constructor
        · omega
        · omega
      · have h3 : BASE ^ a.length * (y + 1) ≤ BASE ^ a.length * x := Nat.mul_le_mul_left _ h
        rw [mul_add, mul_one] at h3
        rw [if_pos (by omega)]
        constructor
        · omega
        · omega

/-- A mint: a normal string whose length is an `unsigned`. -/
structure IsMint (a : List ℕ) : Prop where
  normal : Normal BASE a
  short : fits a.length

/-- The sign of the result is that of the comparison. -/
def Compares (v w r : ℤ) : Prop := (0 < r ↔ w < v) ∧ (r < 0 ↔ v < w) ∧ (r = 0 ↔ v = w)

/-- With equal signs, the difference of the lengths is an `int`. -/
def CmpFits (v w : ℤ) : Prop :=
  (0 ≤ v ∧ 0 ≤ w → -32768 ≤ (len v : ℤ) - len w ∧ (len v : ℤ) - len w < 32768) ∧
    (v < 0 ∧ w < 0 → -32768 ≤ (len w : ℤ) - len v ∧ (len w : ℤ) - len v < 32768)

/-- **The comparison.** -/
lemma mcmp_iff (ha : IsMint a) (hb : IsMint b) :
    Compares (value BASE a) (value BASE b) (mcmp a b) ↔ CmpFits (value BASE a) (value BASE b) := by
  have hsa := ispos_iff ha.normal
  have hsb := ispos_iff hb.normal
  have hal := ha.short
  have hbl := hb.short
  unfold fits at hal hbl
  unfold mcmp Compares CmpFits
  rw [len_value ha.normal, len_value hb.normal]
  obtain hv | hv := le_or_gt 0 (value BASE a)
  · have hpa : ispos a := hsa.mpr hv
    obtain hw | hw := le_or_gt 0 (value BASE b)
    · -- both positive
      have hpb : ispos b := hsb.mpr hw
      simp only [hpa, hpb, hv, hw, not_true, and_false, false_and, and_self, if_false, if_true,
        forall_const]
      obtain hl | hl | hl := lt_trichotomy a.length b.length
      · have := (ha.normal.lt_of_length two_le_base hb.normal hl).1 hw
        rw [if_pos (by omega)]
        unfold int16
        constructor <;> intros <;> omega
      · rw [if_neg (not_not.mpr hl)]
        obtain ⟨h1, h2⟩ := firstDiff_spec (a := a.reverse) (b := b.reverse) (by simpa using hl)
          (fun d hd => ha.normal.lt d (by simpa using hd)) fun d hd => hb.normal.lt d (by simpa using hd)
        rw [List.reverse_reverse, List.reverse_reverse] at h1 h2
        rw [value_pos hpa, value_pos hpb]
        constructor <;> intros <;> omega
      · have := (hb.normal.lt_of_length two_le_base ha.normal hl).1 hv
        rw [if_pos (by omega)]
        unfold int16
        constructor <;> intros <;> omega
    · have hpb : ¬ ispos b := fun h => absurd (hsb.mp h) (by omega)
      simp only [hpa, hpb, not_false_iff, and_self, if_true]
      constructor <;> intros <;> omega
  · have hpa : ¬ ispos a := fun h => absurd (hsa.mp h) (by omega)
    obtain hw | hw := le_or_gt 0 (value BASE b)
    · have hpb : ispos b := hsb.mpr hw
      simp only [hpa, hpb, not_false_iff, not_true, and_self, if_true, if_false]
      constructor <;> intros <;> omega
    · -- both negative
      have hpb : ¬ ispos b := fun h => absurd (hsb.mp h) (by omega)
      simp only [hpa, hpb, false_and, and_false, if_false]
      obtain hl | hl | hl := lt_trichotomy a.length b.length
      · have := (ha.normal.lt_of_length two_le_base hb.normal hl).2 hw
        rw [if_pos (by omega)]
        unfold int16
        constructor <;> intros <;> omega
      · rw [if_neg (not_not.mpr hl)]
        obtain ⟨h1, h2⟩ := firstDiff_spec (a := a.reverse) (b := b.reverse) (by simpa using hl)
          (fun d hd => ha.normal.lt d (by simpa using hd)) fun d hd => hb.normal.lt d (by simpa using hd)
        rw [List.reverse_reverse, List.reverse_reverse] at h1 h2
        rw [value_neg hpa, value_neg hpb, hl]
        constructor <;> intros <;> omega
      · have := (hb.normal.lt_of_length two_le_base ha.normal hl).2 hv
        rw [if_pos (by omega)]
        unfold int16
        constructor <;> intros <;> omega

lemma zerop_iff (ha : Normal BASE a) : zerop a ↔ value BASE a = 0 := by
  constructor
  · rintro ⟨h1, h2⟩
    obtain ⟨d, rfl⟩ := List.length_eq_one_iff.mp h1
    obtain rfl : d = 0 := by simpa using h2
    decide
  · intro h
    have : a = [0] := by rw [← ha.ofInt_value two_le_base, h, ofInt_zero]
    exact ⟨by rw [this]; rfl, by rw [this]; rfl⟩

/-! ### All routines together -/

/-- The mint `c` is replaced by the normal form of `v`, and no other mint changes. -/
def Gives (s : V → List ℕ) (c : V) (v : ℤ) (r : Option (V → List ℕ)) : Prop :=
  r = some (Function.update s c (ofInt BASE v))

lemma gives_iff {s : V → List ℕ} {c : V} {p : Prop} [Decidable p] :
    Gives s c v (if p then some (Function.update s c (ofInt BASE v)) else none) ↔ p := by
  unfold Gives
  split_ifs with h
  · simp [h]
  · simp [h]

lemma msub_iff (s : V → List ℕ) (a b c : V) (ha : Normal BASE (s a)) (hb : Normal BASE (s b)) :
    Gives s c (value BASE (s a) - value BASE (s b)) (msub s a b c) ↔
      NegFits (value BASE (s b)) ∧ SumFits (value BASE (s a)) (-value BASE (s b)) := by
  unfold msub
  rw [neg_eq hb]
  by_cases h1 : NegFits (value BASE (s b))
  · rw [if_pos h1, Option.bind_eq_bind, Option.bind_some, sum_eq ha (normal_int _), value_int,
      ← sub_eq_add_neg]
    by_cases h2 : SumFits (value BASE (s a)) (-value BASE (s b))
    · simp [Gives, h1, h2]
    · simp [Gives, h2]
  · simp [Gives, h1]

/-- **When the ring operations are exact.** For any mints, the operands and the result named in
any way, each routine gives the normal form of the exact result just when the lengths of the
blocks it asks for are still unsigned numbers; `mcmp` has the right sign just when the difference
of the lengths, if it comes to that, is an `int`. The normal form is unique, and `zerop` and
`ispos` are always right. -/
theorem mint_ring (s : V → List ℕ) (a b c : V) (n : ℕ) (ha : IsMint (s a)) (hb : IsMint (s b)) :
    (Gives s c (value BASE (s a) + value BASE (s b)) (madd s a b c) ↔
        SumFits (value BASE (s a)) (value BASE (s b))) ∧
      (Gives s c (value BASE (s a) - value BASE (s b)) (msub s a b c) ↔
        NegFits (value BASE (s b)) ∧ SumFits (value BASE (s a)) (-value BASE (s b))) ∧
      (Gives s c (-value BASE (s a)) (mneg s a c) ↔ NegFits (value BASE (s a))) ∧
      (Gives s c (value BASE (s a) * value BASE (s b)) (mult s a b c) ↔
        MultFits (value BASE (s a)) (value BASE (s b))) ∧
      (n ≤ NEFL → (Gives s c (value BASE (s a) * n) (smult s a n c) ↔
        SmultFits (value BASE (s a)) n)) ∧
      (Gives s c (value BASE (s a) ^ n) (spow s a n c) ↔ PowFits (value BASE (s a)) n) ∧
      (value BASE (s a) = value BASE (s b) → s a = s b) ∧
      (zerop (s a) ↔ value BASE (s a) = 0) ∧ (ispos (s a) ↔ 0 ≤ value BASE (s a)) ∧
      (Compares (value BASE (s a)) (value BASE (s b)) (mcmp (s a) (s b)) ↔
        CmpFits (value BASE (s a)) (value BASE (s b))) := by
  have hadd : madd s a b c = if SumFits (value BASE (s a)) (value BASE (s b)) then
      some (Function.update s c (ofInt BASE (value BASE (s a) + value BASE (s b)))) else none := by
    rw [madd, sum_eq ha.normal hb.normal]
    split_ifs <;> rfl
  refine ⟨?_, msub_iff s a b c ha.normal hb.normal, ?_, ?_, fun hn => ?_, ?_, ?_, ?_, ?_, ?_⟩
  · rw [hadd]
    exact gives_iff
  · rw [mneg_eq s a c ha.normal]
    exact gives_iff
  · rw [mult_eq s a b c ha.normal hb.normal]
    exact gives_iff
  · rw [smult_eq s a c ha.normal hn]
    exact gives_iff
  · classical
    rw [spow_eq s a c n ha.normal]
    exact gives_iff
  · exact ha.normal.inj two_le_base hb.normal
  · exact zerop_iff ha.normal
  · exact ispos_iff ha.normal
  · exact mcmp_iff ha hb

/-- `-128 * 5` into the first operand itself. -/
theorem mint_ring_small :
    Gives (fun k : Bool => if k then [5] else [0, 127]) false (-640)
      (mult (fun k : Bool => if k then [5] else [0, 127]) false true false) := by
  have h := (mint_ring (fun k : Bool => if k then [5] else [0, 127]) false true false 2
    ⟨by decide, by decide⟩ ⟨by decide, by decide⟩).2.2.2.1
  exact h.mpr (by decide +kernel)

lemma normal_replicate (n : ℕ) : Normal BASE (List.replicate n 0 ++ [1]) := by
  induction n with
  | zero => decide
  | succ n ih =>
    rcases n with _ | _ | n
    · decide
    · decide
    · exact ⟨by decide, ih⟩

/-- **A long mint compares as less than a short one**: the difference of the lengths is taken for
a negative `int`. -/
theorem long_mint_less :
    ¬ ∀ a b : List ℕ, IsMint a → IsMint b → Compares (value BASE a) (value BASE b) (mcmp a b) := by
  intro h
  have ha : IsMint (List.replicate 32768 0 ++ [1]) :=
    ⟨normal_replicate _, by simp only [fits, List.length_append, List.length_replicate]; decide⟩
  have hb : IsMint [1] := ⟨by decide, by decide⟩
  have hl := len_value ha.normal
  rw [List.length_append, List.length_replicate] at hl
  have hpos : ∀ n, 0 ≤ value BASE (List.replicate n 0 ++ [1]) := by
    intro n
    rw [value_append _ (by simp), value_singleton two_le_base, if_neg (by decide)]
    positivity
  have hb1 : value BASE [1] = 1 := by decide
  have hc := ((mcmp_iff ha hb).mp (h _ _ ha hb)).1 ⟨hpos _, by rw [hb1]; decide⟩
  rw [hl, len_value hb.normal] at hc
  simp at hc

end Coherent.Mint
