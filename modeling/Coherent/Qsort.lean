import Mathlib.Tactic
import Coherent.Sorting

/-!
`qsort` of `libc`.

The pointers are byte offsets, as in the source. The scan upwards compares before it looks at the
bound, so that it asks about the address behind the last element of a part exactly when nothing
in the part is above the pivot. For a part that ends inside the array that address is an
element; for one that reaches to the end it is not. Otherwise the sort is right, whatever the
pivots are.
-/

namespace Coherent.Sorting

variable {w : ℕ} (compar : (Fin w → UInt8) → (Fin w → UInt8) → ℤ)

/-- What the comparison function answers on two addresses. -/
def comp (s : St) (p q : ℕ) : ℤ := compar (elem w s.mem p) (elem w s.mem q)

def swap (w : ℕ) (s : St) (p1 p2 : ℕ) : St := { s with mem := qexchange w s.mem p1 p2 }

/-- The median of three elements. -/
def qmedian (s : St) (a b c : ℕ) : ℕ × St :=
  let s1 := ask s a b
  let bmin := if comp compar s a b < 0 then a else b
  let bmax := if comp compar s a b < 0 then b else a
  let s2 := ask s1 bmax c
  if comp compar s bmax c < 0 then (bmax, s2)
  else (if comp compar s bmin c < 0 then c else bmin, ask s2 bmin c)

/-- The inner loop of `qlinsert`: the least element, from `n` more of them at `mbase`. -/
def least : ℕ → St → ℕ → ℕ → ℕ × St
  | 0, s, min, _ => (min, s)
  | n + 1, s, min, mbase =>
    least n (ask s mbase min) (if comp compar s mbase min < 0 then mbase else min) (mbase + w)

/-- Linear insertion sort, with `nel` one less than the number of elements. -/
def qlinsert : ℕ → St → ℕ → St
  | 0, s, _ => s
  | nel + 1, s, base =>
    let r := least compar (nel + 1) s base (base + w)
    qlinsert nel (swap w r.2 r.1 base) (base + w)

/-- `while ((*compar)(base, bot+=width)>=0 && bot<top)`, with its number of turns bounded. -/
def up (base top : ℕ) : ℕ → St → ℕ → Option (ℕ × St)
  | 0, _, _ => none
  | fuel + 1, s, bot =>
    if 0 ≤ comp compar s base (bot + w) ∧ bot + w < top then
      up base top fuel (ask s base (bot + w)) (bot + w)
    else some (bot + w, ask s base (bot + w))

/-- `while ((*compar)(top-=width, base)>=0 && top>base)`. -/
def down (base : ℕ) : ℕ → St → ℕ → Option (ℕ × St)
  | 0, _, _ => none
  | fuel + 1, s, top =>
    if 0 ≤ comp compar s (top - w) base ∧ base < top - w then
      down base fuel (ask s (top - w) base) (top - w)
    else some (top - w, ask s (top - w) base)

/-- The loop that partitions: the two pointers when they have met. -/
def part (base : ℕ) : ℕ → St → ℕ → ℕ → Option (ℕ × ℕ × St)
  | 0, _, _, _ => none
  | fuel + 1, s, bot, top =>
    (up compar base top fuel s bot).bind fun (bot, s) =>
      (down compar base fuel s top).bind fun (top, s) =>
        if bot < top then part base fuel (swap w s bot top) bot top else some (bot, top, s)

/-- What `qsort` does before it calls itself. -/
def divide (fuel : ℕ) (s : St) (base nel : ℕ) : Option (ℕ × ℕ × St) :=
  let r := qmedian compar s base (base + nel / 2 * w) (base + nel * w - w)
  (part compar base fuel (swap w r.2 base r.1) base (base + nel * w)).bind fun (bot, top, s) =>
    some (bot, top, swap w s top base)

/-- `qsort`, with the depth of its calls and the turns of its loops bounded; `none` also for the
division by a width of zero. -/
def qsort : ℕ → St → ℕ → ℕ → Option St
  | 0, _, _, _ => none
  | fuel + 1, s, base, nel =>
    if nel < 10 then some (if 1 < nel then qlinsert compar (nel - 1) s base else s)
    else
      (divide compar fuel s base nel).bind fun (bot, top, s) =>
        if w = 0 then none
        else
          (qsort fuel s base ((top - base) / w)).bind fun s =>
            qsort fuel s bot (nel - (bot - base) / w)


/-! ### What is asked, and where -/

/-- Every address that the comparison function has seen is that of one of the `hi` elements. -/
def Good (w hi : ℕ) (s : St) : Prop := ∀ p ∈ s.calls, ∃ i < hi, p = i * w

variable {compar} {s s' : St} {lo n hi i j B T f p q : ℕ}

lemma comp_item (i j : ℕ) :
    comp compar s (i * w) (j * w) = compar (item w s.mem i) (item w s.mem j) := rfl

lemma item_swap (i j : ℕ) :
    item w (swap w s (i * w) (j * w)).mem = item w s.mem ∘ Equiv.swap i j := item_qexchange i j

lemma good_swap : Good w hi (swap w s p q) ↔ Good w hi s := Iff.rfl

lemma good_ask : Good w hi (ask s p q) ↔
    (∃ i < hi, p = i * w) ∧ (∃ i < hi, q = i * w) ∧ Good w hi s := by
  simp only [Good, ask, List.mem_cons, forall_eq_or_imp]

lemma good_ask_item (hi1 : i < hi) (hj : j < hi) :
    Good w hi (ask s (i * w) (j * w)) ↔ Good w hi s := by
  rw [good_ask]
  exact ⟨fun h => h.2.2, fun h => ⟨⟨i, hi1, rfl⟩, ⟨j, hj, rfl⟩, h⟩⟩

lemma succ_ptr (i : ℕ) : i * w + w = (i + 1) * w := (Nat.succ_mul i w).symm

lemma pred_ptr (i : ℕ) : i * w - w = (i - 1) * w := by
  rw [Nat.sub_mul, Nat.one_mul]

lemma ptr_lt (hw : 0 < w) : i * w < j * w ↔ i < j := Nat.mul_lt_mul_right hw

/-! ### The insertion sort -/

/-- The least of the elements looked at is found. -/
lemma least_spec (hc : IsOrder compar) (hmin : i < hi) (hlast : j + n ≤ hi) :
    ∃ k s', least compar n s (i * w) (j * w) = (k * w, s') ∧ s'.mem = s.mem ∧
      (Good w hi s' ↔ Good w hi s) ∧ (k = i ∨ j ≤ k ∧ k < j + n) ∧
      compar (item w s.mem k) (item w s.mem i) ≤ 0 ∧
      ∀ l, j ≤ l → l < j + n → compar (item w s.mem k) (item w s.mem l) ≤ 0 := by
  induction n generalizing s i j with
  | zero =>
    exact ⟨i, s, rfl, rfl, Iff.rfl, Or.inl rfl, hc.refl _, fun l h1 h2 => absurd h2 (by omega)⟩
  | succ n ih =>
    have hgood : Good w hi (ask s (j * w) (i * w)) ↔ Good w hi s :=
      good_ask_item (by omega) hmin
    rw [least, comp_item, succ_ptr]
    by_cases hlt : compar (item w s.mem j) (item w s.mem i) < 0
    · rw [if_pos hlt]
      obtain ⟨k, s', h1, h2, h3, h4, h5, h6⟩ :=
        ih (s := ask s (j * w) (i * w)) (i := j) (j := j + 1) (by omega) (by omega)
      refine ⟨k, s', h1, h2, h3.trans hgood, by omega, hc.trans _ _ _ h5 hlt.le, ?_⟩
      intro l hl hl'
      rcases Nat.eq_or_lt_of_le hl with rfl | hl
      · exact h5
      · exact h6 l hl (by omega)
    · rw [if_neg hlt]
      obtain ⟨k, s', h1, h2, h3, h4, h5, h6⟩ :=
        ih (s := ask s (j * w) (i * w)) (i := i) (j := j + 1) hmin (by omega)
      refine ⟨k, s', h1, h2, h3.trans hgood, by omega, h5, ?_⟩
      intro l hl hl'
      rcases Nat.eq_or_lt_of_le hl with rfl | hl
      · exact hc.trans _ _ _ h5 (hc.flip.mp (not_lt.mp hlt))
      · exact h6 l hl (by omega)

/-- A first element that is least, and the others in order. -/
lemma InOrder.cons {E : Type*} {c : E → E → ℤ} {a : ℕ → E} (h : InOrder c (lo + 1) hi a)
    (hfirst : ∀ l, lo < l → l < hi → c (a lo) (a l) ≤ 0) : InOrder c lo hi a := by
  intro k l hk hkl hl
  rcases Nat.eq_or_lt_of_le hk with rfl | hk
  · exact hfirst l hkl hl
  · exact h k l hk hkl hl

lemma qlinsert_spec (hc : IsOrder compar) (hlast : lo + n + 1 ≤ hi) :
    Rearranged lo (lo + n + 1) (item w s.mem) (item w (qlinsert compar n s (lo * w)).mem) ∧
      InOrder compar lo (lo + n + 1) (item w (qlinsert compar n s (lo * w)).mem) ∧
      (Good w hi (qlinsert compar n s (lo * w)) ↔ Good w hi s) := by
  induction n generalizing s lo with
  | zero => exact ⟨Rearranged.refl _ _ _, fun i j h1 h2 h3 => absurd h3 (by omega), Iff.rfl⟩
  | succ n ih =>
    rw [qlinsert, succ_ptr]
    obtain ⟨k, s1, h1, hmem, h3, h4, h5, h6⟩ :=
      least_spec (s := s) (i := lo) hc (by omega) (show lo + 1 + (n + 1) ≤ hi by omega)
    rw [h1]
    dsimp only
    set s2 := swap w s1 (k * w) (lo * w) with hs2
    have hswap : item w s2.mem = item w s.mem ∘ Equiv.swap k lo := by
      rw [hs2, item_swap, hmem]
    obtain ⟨r1, r2, r3⟩ := ih (s := s2) (show lo + 1 + n + 1 ≤ hi by omega)
    have hfirst : item w s2.mem lo = item w s.mem k := by
      rw [hswap, Function.comp_apply, Equiv.swap_apply_right]
    have hre : Rearranged lo (lo + (n + 1) + 1) (item w s.mem) (item w s2.mem) := by
      rw [hswap]
      exact rearranged_swap _ (by omega) (by omega)
    refine ⟨hre.trans (r1.mono (by omega) (by omega)), ?_, ?_⟩
    · rw [show lo + (n + 1) + 1 = lo + 1 + n + 1 by omega]
      refine r2.cons fun l hl hl' => ?_
      -- what stands behind the first element was behind it before, or was the first one
      obtain ⟨l', hin, hl2⟩ := r1.inside (i := l) (by omega)
      have hlo : ¬(lo + 1 ≤ lo ∧ lo < lo + 1 + n + 1) := by omega
      rw [hl2, r1.outside hlo, hfirst]
      obtain ⟨l'', hin2, hl3⟩ := hre.inside (i := l') (by omega)
      rw [hl3]
      rcases Nat.eq_or_lt_of_le hin2.1 with rfl | hlt
      · exact h5
      · exact h6 l'' hlt (by omega)
    · rw [r3, hs2, good_swap, h3]

/-! ### The partition -/

lemma good_ask_one (hw : 0 < w) (h : i < hi) :
    Good w hi (ask s (i * w) (j * w)) ↔ Good w hi s ∧ j < hi := by
  rw [good_ask]
  constructor
  · rintro ⟨-, ⟨k, hk, hjk⟩, hs⟩
    rw [Nat.eq_of_mul_eq_mul_right hw hjk]
    exact ⟨hs, hk⟩
  · rintro ⟨hs, hj⟩
    exact ⟨⟨i, h, rfl⟩, ⟨j, hj, rfl⟩, hs⟩

/-- The scan upwards stops at an element above the pivot, or at `T`, and has looked at the
address where it stops. -/
lemma up_spec (hc : IsOrder compar) (hw : 0 < w) (hlo : lo < hi) (hT : T ≤ hi) (hB : B < T)
    (hf : T - B ≤ f) :
    ∃ B' s', up compar (lo * w) (T * w) f s (B * w) = some (B' * w, s') ∧ s'.mem = s.mem ∧
      (B < B' ∧ B' ≤ T) ∧
      (∀ i, B < i → i < B' → compar (item w s.mem i) (item w s.mem lo) ≤ 0) ∧
      (B' < T → compar (item w s.mem lo) (item w s.mem B') < 0) ∧
      (Good w hi s' ↔ Good w hi s ∧ B' < hi) := by
  induction f generalizing s B with
  | zero => omega
  | succ f ih =>
    simp only [up, succ_ptr, comp_item, ptr_lt hw]
    by_cases h : 0 ≤ compar (item w s.mem lo) (item w s.mem (B + 1)) ∧ B + 1 < T
    · rw [if_pos h]
      obtain ⟨B', s', h1, h2, h3, h4, h5, h6⟩ :=
        ih (s := ask s (lo * w) ((B + 1) * w)) h.2 (by omega)
      have hgood : Good w hi (ask s (lo * w) ((B + 1) * w)) ↔ Good w hi s :=
        good_ask_item hlo (by omega)
      refine ⟨B', s', h1, h2, by omega, fun i hi1 hi2 => ?_, h5, by rw [h6, hgood]⟩
      rcases Nat.eq_or_lt_of_le (Nat.succ_le_of_lt hi1) with rfl | hlt
      · exact hc.flip.mp h.1
      · exact h4 i hlt hi2
    · rw [if_neg h]
      refine ⟨B + 1, _, rfl, rfl, by omega, fun i hi1 hi2 => by omega, fun hlt => ?_,
        good_ask_one hw hlo⟩
      exact not_le.mp fun hle => h ⟨hle, hlt⟩

/-- The scan downwards stops at an element below the pivot, or at the pivot itself. -/
lemma down_spec (hc : IsOrder compar) (hw : 0 < w) (hlo : lo < T) (hT : T ≤ hi)
    (hf : T - lo ≤ f) :
    ∃ T' s', down compar (lo * w) f s (T * w) = some (T' * w, s') ∧ s'.mem = s.mem ∧
      (lo ≤ T' ∧ T' < T) ∧
      (∀ i, T' < i → i < T → compar (item w s.mem lo) (item w s.mem i) ≤ 0) ∧
      (lo < T' → compar (item w s.mem T') (item w s.mem lo) < 0) ∧
      (Good w hi s' ↔ Good w hi s) := by
  induction f generalizing s T with
  | zero => omega
  | succ f ih =>
    have hgood : Good w hi (ask s ((T - 1) * w) (lo * w)) ↔ Good w hi s :=
      good_ask_item (by omega) (by omega)
    simp only [down, pred_ptr, comp_item, ptr_lt hw]
    by_cases h : 0 ≤ compar (item w s.mem (T - 1)) (item w s.mem lo) ∧ lo < T - 1
    · rw [if_pos h]
      obtain ⟨T', s', h1, h2, h3, h4, h5, h6⟩ :=
        ih (s := ask s ((T - 1) * w) (lo * w)) h.2 (by omega) (by omega)
      refine ⟨T', s', h1, h2, by omega, fun i hi1 hi2 => ?_, h5, h6.trans hgood⟩
      rcases Nat.eq_or_lt_of_le (Nat.le_sub_one_of_lt hi2) with rfl | hlt
      · exact hc.flip.mp h.1
      · exact h4 i hi1 hlt
    · rw [if_neg h]
      refine ⟨T - 1, _, rfl, rfl, by omega, fun i hi1 hi2 => by omega, fun hlt => ?_, hgood⟩
      exact not_le.mp fun hle => h ⟨hle, hlt⟩

/-- What is known of a part while it is partitioned: up to `B` nothing is above the pivot, from
`T` on nothing is below it, and the element at `T` stops the scan upwards. -/
structure Scanned (compar : (Fin w → UInt8) → (Fin w → UInt8) → ℤ) (a : ℕ → Fin w → UInt8)
    (lo B T N : ℕ) : Prop where
  low : ∀ i, lo < i → i ≤ B → compar (a i) (a lo) ≤ 0
  high : ∀ i, T ≤ i → i < N → compar (a lo) (a i) ≤ 0
  stop : T < N → compar (a lo) (a T) < 0

variable {N : ℕ} {a : ℕ → Fin w → UInt8}

/-- Exchanging an element above the pivot with one below it. -/
lemma Scanned.exchange (h : Scanned compar a lo B T N) {B' T' : ℕ} (hlo : lo < B') (hBT : B' < T')
    (hlow : ∀ i, B < i → i < B' → compar (a i) (a lo) ≤ 0)
    (hhigh : ∀ i, T' < i → i < T → compar (a lo) (a i) ≤ 0)
    (hB : compar (a lo) (a B') < 0) (hT : compar (a T') (a lo) < 0) :
    Scanned compar (a ∘ Equiv.swap B' T') lo B' T' N := by
  have hpivot : (a ∘ Equiv.swap B' T') lo = a lo := by
    rw [Function.comp_apply, Equiv.swap_apply_of_ne_of_ne (by omega) (by omega)]
  have hatB : (a ∘ Equiv.swap B' T') B' = a T' := by
    rw [Function.comp_apply, Equiv.swap_apply_left]
  have hatT : (a ∘ Equiv.swap B' T') T' = a B' := by
    rw [Function.comp_apply, Equiv.swap_apply_right]
  have helse : ∀ i, i ≠ B' → i ≠ T' → (a ∘ Equiv.swap B' T') i = a i := by
    intro i h1 h2
    rw [Function.comp_apply, Equiv.swap_apply_of_ne_of_ne h1 h2]
  refine ⟨fun i h1 h2 => ?_, fun i h1 h2 => ?_, fun _ => by rw [hpivot, hatT]; exact hB⟩
  · rw [hpivot]
    rcases Nat.eq_or_lt_of_le h2 with rfl | hlt
    · rw [hatB]
      exact hT.le
    · rw [helse i (by omega) (by omega)]
      by_cases hiB : i ≤ B
      · exact h.low i h1 hiB
      · exact hlow i (by omega) hlt
  · rw [hpivot]
    rcases Nat.eq_or_lt_of_le h1 with rfl | hlt
    · rw [hatT]
      exact hB.le
    · rw [helse i (by omega) (by omega)]
      by_cases hiT : i < T
      · exact hhigh i hlt hiT
      · exact h.high i (by omega) h2

/-- **The partition** comes to an end, with nothing above the pivot before `B'` and nothing below
it behind `T'`. -/
lemma part_spec (hc : IsOrder compar) (hw : 0 < w) (hN : N ≤ hi) (hlo : lo ≤ B) (hBT : B < T)
    (hT : T ≤ N) (hf : T - lo + 1 ≤ f) (hs : Scanned compar (item w s.mem) lo B T N) :
    ∃ B' T' s', part compar (lo * w) f s (B * w) (T * w) = some (B' * w, T' * w, s') ∧
      (lo < B' ∧ B' ≤ N) ∧ (lo ≤ T' ∧ T' < B') ∧
      Rearranged (lo + 1) N (item w s.mem) (item w s'.mem) ∧
      (∀ i, lo < i → i < B' → compar (item w s'.mem i) (item w s'.mem lo) ≤ 0) ∧
      (∀ i, T' < i → i < N → compar (item w s'.mem lo) (item w s'.mem i) ≤ 0) ∧
      (B' < N → compar (item w s'.mem lo) (item w s'.mem B') < 0) ∧
      (Good w hi s' ↔ Good w hi s ∧ B' < hi) := by
  induction f generalizing s B T with
  | zero => omega
  | succ f ih =>
    obtain ⟨B', s1, h1, hmem1, hB, hlow, hstopB, hgood1⟩ :=
      up_spec (s := s) (f := f) hc hw (show lo < hi by omega) (show T ≤ hi by omega) hBT (by omega)
    obtain ⟨T', s2, h2, hmem2, hT', hhigh, hstopT, hgood2⟩ :=
      down_spec (s := s1) (f := f) hc hw (show lo < T by omega) (show T ≤ hi by omega) (by omega)
    rw [hmem1] at hmem2 hhigh hstopT
    rw [part, h1, Option.bind_some]
    dsimp only
    rw [h2, Option.bind_some]
    simp only [ptr_lt hw]
    by_cases hlt : B' < T'
    · rw [if_pos hlt]
      set s3 := swap w s2 (B' * w) (T' * w) with hs3
      have hmem3 : item w s3.mem = item w s.mem ∘ Equiv.swap B' T' := by
        rw [hs3, item_swap, hmem2]
      obtain ⟨B'', T'', s', e1, e2, e3, e4, e5, e6, e7, e8⟩ :=
        ih (s := s3) (B := B') (T := T') (by omega) hlt (by omega) (by omega)
          (by rw [hmem3]
              exact hs.exchange (by omega) hlt hlow hhigh (hstopB (by omega))
                (hstopT (by omega)))
      refine ⟨B'', T'', s', e1, e2, e3, ?_, e5, e6, e7, ?_⟩
      · refine Rearranged.trans ?_ e4
        rw [hmem3]
        exact rearranged_swap _ (by omega) (by omega)
      · rw [e8, hs3, good_swap, hgood2, hgood1]
        exact ⟨fun h => ⟨h.1.1, h.2⟩, fun h => ⟨⟨h.1, by omega⟩, h.2⟩⟩
    · rw [if_neg hlt]
      have hne : T' ≠ B' := by
        rintro rfl
        have := (hc.sign _ _).mp (hstopB (by omega))
        have := hstopT (by omega)
        omega
      refine ⟨B', T', s2, rfl, by omega, by omega, ?_, ?_, ?_, ?_, hgood2.trans hgood1⟩
      · rw [hmem2]
        exact Rearranged.refl _ _ _
      · intro i hi1 hi2
        rw [hmem2]
        by_cases hiB : i ≤ B
        · exact hs.low i hi1 hiB
        · exact hlow i (by omega) hi2
      · intro i hi1 hi2
        rw [hmem2]
        by_cases hiT : i < T
        · exact hhigh i hi1 hiT
        · exact hs.high i (by omega) hi2
      · intro hBN
        rw [hmem2]
        rcases Nat.eq_or_lt_of_le hB.2 with rfl | hBT'
        · exact hs.stop hBN
        · exact hstopB hBT'

variable (compar) in
/-- The median of three elements is one of them. -/
lemma median_spec {k : ℕ} (hi1 : i < hi) (hj : j < hi) (hk : k < hi) :
    ∃ l s', qmedian compar s (i * w) (j * w) (k * w) = (l * w, s') ∧ s'.mem = s.mem ∧
      (Good w hi s' ↔ Good w hi s) ∧ (l = i ∨ l = j ∨ l = k) := by
  have h1 := good_ask_item (w := w) (s := s) hi1 hj
  unfold qmedian
  dsimp only
  by_cases hij : comp compar s (i * w) (j * w) < 0
  · simp only [if_pos hij]
    by_cases hjk : comp compar s (j * w) (k * w) < 0
    · rw [if_pos hjk]
      exact ⟨j, _, rfl, rfl, (good_ask_item hj hk).trans h1, by omega⟩
    · rw [if_neg hjk]
      refine ⟨if comp compar s (i * w) (k * w) < 0 then k else i,
        ask (ask (ask s (i * w) (j * w)) (j * w) (k * w)) (i * w) (k * w), ?_, rfl,
        (good_ask_item hi1 hk).trans ((good_ask_item hj hk).trans h1), ?_⟩
      · rw [apply_ite (· * w)]
      · split_ifs <;> omega
  · simp only [if_neg hij]
    by_cases hik : comp compar s (i * w) (k * w) < 0
    · rw [if_pos hik]
      exact ⟨i, _, rfl, rfl, (good_ask_item hi1 hk).trans h1, by omega⟩
    · rw [if_neg hik]
      refine ⟨if comp compar s (j * w) (k * w) < 0 then k else j,
        ask (ask (ask s (i * w) (j * w)) (i * w) (k * w)) (j * w) (k * w), ?_, rfl,
        (good_ask_item hj hk).trans ((good_ask_item hi1 hk).trans h1), ?_⟩
      · rw [apply_ite (· * w)]
      · split_ifs <;> omega

variable (compar) in
/-- Some element of a part is above the median of its first, middle and last. -/
def Topped (s : St) (base nel : ℕ) : Prop :=
  ∃ i < nel, comp compar s
    (qmedian compar s base (base + nel / 2 * w) (base + nel * w - w)).1 (base + i * w) < 0

lemma part_ptr (lo i : ℕ) : lo * w + i * w = (lo + i) * w := (Nat.add_mul lo i w).symm

/-- **Dividing** a part: before `T` nothing is above the pivot, from `B` on nothing is below it,
and in between is what compares equal to it. -/
lemma divide_spec (hc : IsOrder compar) (hw : 0 < w) (hn : 2 ≤ n) (hN : lo + n ≤ hi)
    (hf : n + 1 ≤ f) :
    ∃ B T s', divide compar f s (lo * w) n = some (B * w, T * w, s') ∧
      (lo < B ∧ B ≤ lo + n) ∧ (lo ≤ T ∧ T < B) ∧
      Rearranged lo (lo + n) (item w s.mem) (item w s'.mem) ∧
      (∀ i, lo ≤ i → i < B → compar (item w s'.mem i) (item w s'.mem T) ≤ 0) ∧
      (∀ i, T ≤ i → i < lo + n → compar (item w s'.mem T) (item w s'.mem i) ≤ 0) ∧
      (B < lo + n ↔ Topped compar s (lo * w) n) ∧
      (Good w hi s' ↔ Good w hi s ∧ B < hi) := by
  obtain ⟨l, s1, h1, hmem1, hgood1, hl⟩ :=
    median_spec compar (s := s) (show lo < hi by omega)
      (show lo + n / 2 < hi by omega) (show lo + n - 1 < hi by omega)
  have hlin : lo ≤ l ∧ l < lo + n := by omega
  set s2 := swap w s1 (lo * w) (l * w) with hs2
  have hmem2 : item w s2.mem = item w s.mem ∘ Equiv.swap lo l := by
    rw [hs2, item_swap, hmem1]
  have hre2 : Rearranged lo (lo + n) (item w s.mem) (item w s2.mem) := by
    rw [hmem2]
    exact rearranged_swap _ (by omega) hlin
  have hstart : Scanned compar (item w s2.mem) lo lo (lo + n) (lo + n) :=
    ⟨fun i _ _ => by omega, fun i _ _ => by omega, fun h => absurd h (lt_irrefl _)⟩
  obtain ⟨B, T, s3, h3, hB, hT, hre3, hlow, hhigh, hstop, hgood3⟩ :=
    part_spec (s := s2) (f := f) hc hw hN le_rfl (show lo < lo + n by omega) le_rfl (by omega)
      hstart
  set s4 := swap w s3 (T * w) (lo * w) with hs4
  have hmem4 : item w s4.mem = item w s3.mem ∘ Equiv.swap T lo := by
    rw [hs4, item_swap]
  have hatT : item w s4.mem T = item w s3.mem lo := by
    rw [hmem4, Function.comp_apply, Equiv.swap_apply_left]
  have hatlo : item w s4.mem lo = item w s3.mem T := by
    rw [hmem4, Function.comp_apply, Equiv.swap_apply_right]
  have helse : ∀ i, i ≠ T → i ≠ lo → item w s4.mem i = item w s3.mem i := by
    intro i h1 h2
    rw [hmem4, Function.comp_apply, Equiv.swap_apply_of_ne_of_ne h1 h2]
  refine ⟨B, T, s4, ?_, hB, hT, ?_, ?_, ?_, ?_, ?_⟩
  · unfold divide
    rw [part_ptr, part_ptr, pred_ptr, h1]
    dsimp only
    rw [← hs2, h3, Option.bind_some]
  · refine (hre2.trans (hre3.mono (by omega) le_rfl)).trans ?_
    rw [hmem4]
    exact rearranged_swap _ (by omega) (by omega)
  · intro i hi1 hi2
    rw [hatT]
    by_cases hiT : i = T
    · rw [hiT, hatT]
      exact hc.refl _
    · by_cases hilo : i = lo
      · rw [hilo, hatlo]
        exact hlow T (by omega) hT.2
      · rw [helse i hiT hilo]
        exact hlow i (by omega) hi2
  · intro i hi1 hi2
    rw [hatT]
    by_cases hiT : i = T
    · rw [hiT, hatT]
      exact hc.refl _
    · rw [helse i hiT (by omega)]
      exact hhigh i (by omega) hi2
  · -- an element above the pivot is where the first scan upwards stops
    have hpivot : item w s3.mem lo = item w s.mem l := by
      rw [hre3.outside (i := lo) (by omega), hmem2, Function.comp_apply, Equiv.swap_apply_left]
    have hall := hre2.trans (hre3.mono (show lo ≤ lo + 1 by omega) le_rfl)
    unfold Topped
    rw [part_ptr, part_ptr, pred_ptr, h1]
    dsimp only
    constructor
    · intro hBn
      obtain ⟨j, hj, hBj⟩ := hall.inside (i := B) (by omega)
      refine ⟨j - lo, by omega, ?_⟩
      rw [part_ptr, comp_item, show lo + (j - lo) = j by omega, ← hBj, ← hpivot]
      exact hstop hBn
    · rintro ⟨i, hi1, hlt⟩
      rw [part_ptr, comp_item, ← hpivot] at hlt
      obtain ⟨j, hj, hij⟩ := hall.symm.inside (i := lo + i) (by omega)
      rw [hij] at hlt
      by_contra hBn
      have hjlo : j ≠ lo := by
        rintro rfl
        exact absurd ((hc.sign _ _).mp hlt) (by omega)
      have := (hc.sign _ _).mp hlt
      have := hlow j (by omega) (by omega)
      omega
  · rw [hs4, good_swap, hgood3, hs2, good_swap, hgood1]

/-! ### The whole sort -/

variable (compar) in
/-- In each call on ten elements or more that reaches to the end of the array, the elements have a
size, and some of them is above the median that becomes the pivot. -/
def Calm : ℕ → St → ℕ → ℕ → Prop
  | 0, _, _, _ => True
  | fuel + 1, s, base, nel =>
    10 ≤ nel → 0 < w ∧ Topped compar s base nel ∧
      ∀ bot top s1 s2, divide compar fuel s base nel = some (bot, top, s1) →
        qsort compar fuel s1 base ((top - base) / w) = some s2 →
          Calm fuel s2 bot (nel - (bot - base) / w)

lemma ptr_diff (hw : 0 < w) (i j : ℕ) : (j * w - i * w) / w = j - i := by
  rw [← Nat.sub_mul, Nat.mul_div_cancel _ hw]

lemma qsort_spec (hc : IsOrder compar) (hw : 0 < w) (hN : lo + n ≤ hi) (hf : n + 2 ≤ f) :
    ∃ s', qsort compar f s (lo * w) n = some s' ∧
      Rearranged lo (lo + n) (item w s.mem) (item w s'.mem) ∧
      InOrder compar lo (lo + n) (item w s'.mem) ∧
      (Good w hi s' ↔ Good w hi s ∧ (lo + n = hi → Calm compar f s (lo * w) n)) := by
  induction f generalizing s lo n with
  | zero => omega
  | succ f ih =>
    rw [qsort]
    by_cases h10 : n < 10
    · rw [if_pos h10]
      have hcalm : Calm compar (f + 1) s (lo * w) n := fun h => absurd h (by omega)
      by_cases h1 : 1 < n
      · rw [if_pos h1]
        obtain ⟨r1, r2, r3⟩ :=
          qlinsert_spec (s := s) hc (show lo + (n - 1) + 1 ≤ hi by omega)
        rw [show lo + (n - 1) + 1 = lo + n by omega] at r1 r2
        exact ⟨_, rfl, r1, r2, r3.trans ⟨fun h => ⟨h, fun _ => hcalm⟩, And.left⟩⟩
      · rw [if_neg h1]
        exact ⟨s, rfl, Rearranged.refl _ _ _, fun i j h2 h3 h4 => absurd h4 (by omega),
          ⟨fun h => ⟨h, fun _ => hcalm⟩, And.left⟩⟩
    · rw [if_neg h10]
      obtain ⟨B, T, s1, h1, hB, hT, hre1, hlow1, hhigh1, htop, hgood1⟩ :=
        divide_spec (s := s) (f := f) (n := n) hc hw (by omega) hN (by omega)
      obtain ⟨s2, h2, hre2, hord2, hgood2⟩ :=
        ih (s := s1) (n := T - lo) (show lo + (T - lo) ≤ hi by omega) (by omega)
      obtain ⟨s3, h3, hre3, hord3, hgood3⟩ :=
        ih (s := s2) (n := n - (B - lo)) (show B + (n - (B - lo)) ≤ hi by omega) (by omega)
      rw [show lo + (T - lo) = T by omega] at hre2 hord2 hgood2
      rw [show B + (n - (B - lo)) = lo + n by omega] at hre3 hord3 hgood3
      refine ⟨s3, ?_, ?_, ?_, ?_⟩
      · rw [h1, Option.bind_some]
        dsimp only
        rw [if_neg hw.ne', ptr_diff hw, ptr_diff hw, h2, Option.bind_some, h3]
      · exact (hre1.trans (hre2.mono le_rfl (by omega))).trans (hre3.mono (by omega) le_rfl)
      · -- the pivot stays at `T`, and its bounds hold through both calls
        have hlow3 : ∀ i, lo ≤ i → i < B →
            compar (item w s3.mem i) (item w s1.mem T) ≤ 0 := by
          intro i hi1 hi2
          rw [hre3.outside (i := i) (by omega)]
          by_cases hiT : i < T
          · obtain ⟨j, hj, hij⟩ := hre2.inside ⟨hi1, hiT⟩
            rw [hij]
            exact hlow1 j hj.1 (by omega)
          · rw [hre2.outside (i := i) (by omega)]
            exact hlow1 i hi1 hi2
        have hhigh3 : ∀ i, T ≤ i → i < lo + n →
            compar (item w s1.mem T) (item w s3.mem i) ≤ 0 := by
          intro i hi1 hi2
          by_cases hiB : B ≤ i
          · obtain ⟨j, hj, hij⟩ := hre3.inside ⟨hiB, hi2⟩
            rw [hij, hre2.outside (i := j) (by omega)]
            exact hhigh1 j (by omega) hj.2
          · rw [hre3.outside (i := i) (by omega), hre2.outside (i := i) (by omega)]
            exact hhigh1 i hi1 hi2
        intro i j hi1 hij hj
        by_cases hjT : j < T
        · rw [hre3.outside (i := i) (by omega), hre3.outside (i := j) (by omega)]
          exact hord2 i j hi1 hij hjT
        · by_cases hiB : i < B
          · exact hc.trans _ _ _ (hlow3 i hi1 hiB) (hhigh3 j (by omega) hj)
          · exact hord3 i j (by omega) hij hj
      · have hcalm : Calm compar (f + 1) s (lo * w) n ↔
            B < lo + n ∧ Calm compar f s2 (B * w) (n - (B - lo)) := by
          rw [htop]
          constructor
          · intro h
            obtain ⟨-, ht, hrest⟩ := h (by omega)
            have := hrest _ _ _ s2 h1 (by rw [ptr_diff hw, h2])
            rw [ptr_diff hw] at this
            exact ⟨ht, this⟩
          · rintro ⟨ht, hrest⟩ -
            refine ⟨hw, ht, fun bot top s1' s2' e1 e2 => ?_⟩
            rw [h1] at e1
            cases e1
            rw [ptr_diff hw, h2] at e2
            cases e2
            rw [ptr_diff hw]
            exact hrest
        rw [hgood3, hgood2, hgood1, hcalm]
        constructor
        · rintro ⟨⟨⟨hg, hBhi⟩, -⟩, hrest⟩
          exact ⟨hg, fun he => ⟨by omega, hrest he⟩⟩
        · rintro ⟨hg, hrest⟩
          refine ⟨⟨⟨hg, ?_⟩, fun he => absurd he (by omega)⟩, fun he => (hrest he).2⟩
          by_cases he : lo + n = hi
          · have := (hrest he).1
            omega
          · omega

/-! ### Elements of which no two compare equal -/

end Coherent.Sorting
