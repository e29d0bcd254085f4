import Mathlib.Tactic
import Mathlib.Logic.Equiv.Basic

/-!
The sorting routines of `libc`: what they share.

Memory is bytes, counted from the start of the array, and an element is `w` bytes of it. An array
lies in one segment, so that no product of a number of elements and a size wraps around. What the
comparison function is called on is logged.
-/

namespace Coherent.Sorting

abbrev Mem := ℕ → UInt8

/-- The bytes of an element, which is what the comparison function looks at. -/
def elem (w : ℕ) (m : Mem) (p : ℕ) : Fin w → UInt8 := fun k => m (p + k)

/-- Memory, and the addresses on which the comparison function has been called. -/
structure St where
  mem : Mem
  calls : List ℕ

def ask (s : St) (p q : ℕ) : St := { s with calls := p :: q :: s.calls }

/-- Exchange `n` bytes, one after the other. -/
def qexchange : ℕ → Mem → ℕ → ℕ → Mem
  | 0, m, _, _ => m
  | n + 1, m, p1, p2 =>
    let save := m p1
    qexchange n (Function.update (Function.update m p1 (m p2)) p2 save) (p1 + 1) (p2 + 1)

variable {w n i j k p1 p2 q lo hi : ℕ} {m : Mem}

lemma qexchange_apply (h : p1 + n ≤ p2 ∨ p2 + n ≤ p1 ∨ p1 = p2) :
    qexchange n m p1 p2 q =
      if p1 ≤ q ∧ q < p1 + n then m (p2 + (q - p1))
      else if p2 ≤ q ∧ q < p2 + n then m (p1 + (q - p2))
      else m q := by
  induction n generalizing m p1 p2 with
  | zero => rw [qexchange, if_neg (by omega), if_neg (by omega)]
  | succ n ih =>
    rw [qexchange, ih (by omega)]
    by_cases h1 : p1 + 1 ≤ q ∧ q < p1 + 1 + n
    · rw [if_pos h1, if_pos (by omega), Function.update_of_ne (by omega),
        Function.update_of_ne (by omega)]
      congr 1
      omega
    · rw [if_neg h1]
      by_cases h2 : p2 + 1 ≤ q ∧ q < p2 + 1 + n
      · rw [if_pos h2, if_neg (by omega), if_pos (by omega), Function.update_of_ne (by omega),
          Function.update_of_ne (by omega)]
        congr 1
        omega
      · rw [if_neg h2]
        by_cases hq2 : q = p2
        · rw [hq2, Function.update_self]
          by_cases h12 : p1 = p2
          · rw [if_pos (by omega), h12]
            congr 1
            omega
          · rw [if_neg (by omega), if_pos (by omega)]
            congr 1
            omega
        · rw [Function.update_of_ne hq2]
          by_cases hq1 : q = p1
          · rw [hq1, Function.update_self, if_pos (by omega)]
            congr 1
            omega
          · rw [Function.update_of_ne hq1, if_neg (by omega), if_neg (by omega)]

/-- The elements of the array. -/
def item (w : ℕ) (m : Mem) (i : ℕ) : Fin w → UInt8 := elem w m (i * w)

lemma mul_disjoint (i j : ℕ) : i * w + w ≤ j * w ∨ j * w + w ≤ i * w ∨ i * w = j * w := by
  rcases Nat.lt_trichotomy i j with h | h | h
  · left
    have := Nat.mul_le_mul_right w (Nat.succ_le_of_lt h)
    rwa [Nat.succ_mul] at this
  · right; right
    rw [h]
  · right; left
    have := Nat.mul_le_mul_right w (Nat.succ_le_of_lt h)
    rwa [Nat.succ_mul] at this

/-- **An exchange** moves whole elements. -/
lemma item_qexchange (i j : ℕ) :
    item w (qexchange w m (i * w) (j * w)) = item w m ∘ Equiv.swap i j := by
  funext k x
  have hx := x.isLt
  have hk : ∀ l : ℕ, l ≠ k → ¬(l * w ≤ k * w + x ∧ k * w + x < l * w + w) := by
    intro l hl h
    rcases mul_disjoint (w := w) l k with h' | h' | h'
    · omega
    · omega
    · exact hl (Nat.eq_of_mul_eq_mul_right (by omega) h')
  change qexchange w m (i * w) (j * w) (k * w + x) = m (Equiv.swap i j k * w + x)
  rw [qexchange_apply (mul_disjoint i j)]
  by_cases hi : k = i
  · rw [hi, if_pos (by omega), Equiv.swap_apply_left]
    congr 1
    omega
  · rw [if_neg (hk i (Ne.symm hi))]
    by_cases hj : k = j
    · rw [hj, if_pos (by omega), Equiv.swap_apply_right]
      congr 1
      omega
    · rw [if_neg (hk j (Ne.symm hj)), Equiv.swap_apply_of_ne_of_ne hi hj]

/-! ### Rearranging a part of an array -/

variable {E : Type*} {a b c : ℕ → E}

/-- The elements from `lo` up to `hi` are those of before in another order, and the others are
where they were. -/
def Rearranged (lo hi : ℕ) (a b : ℕ → E) : Prop :=
  ∃ σ : Equiv.Perm ℕ, (∀ i, ¬(lo ≤ i ∧ i < hi) → σ i = i) ∧ b = a ∘ σ

lemma Rearranged.refl (lo hi : ℕ) (a : ℕ → E) : Rearranged lo hi a a :=
  ⟨Equiv.refl ℕ, fun _ _ => rfl, rfl⟩

lemma Rearranged.trans (h : Rearranged lo hi a b) (h' : Rearranged lo hi b c) :
    Rearranged lo hi a c := by
  obtain ⟨σ, h1, rfl⟩ := h
  obtain ⟨τ, h2, rfl⟩ := h'
  refine ⟨τ.trans σ, fun i hi => ?_, rfl⟩
  rw [Equiv.trans_apply, h2 i hi, h1 i hi]

lemma Rearranged.mono {lo' hi' : ℕ} (h : Rearranged lo hi a b) (hlo : lo' ≤ lo) (hhi : hi ≤ hi') :
    Rearranged lo' hi' a b := by
  obtain ⟨σ, h1, h2⟩ := h
  exact ⟨σ, fun i hi => h1 i (by omega), h2⟩

lemma rearranged_swap (a : ℕ → E) (h1 : lo ≤ i ∧ i < hi) (h2 : lo ≤ j ∧ j < hi) :
    Rearranged lo hi a (a ∘ Equiv.swap i j) := by
  refine ⟨Equiv.swap i j, fun k hk => Equiv.swap_apply_of_ne_of_ne ?_ ?_, rfl⟩
  · rintro rfl
    exact hk h1
  · rintro rfl
    exact hk h2

/-- An element outside is where it was. -/
lemma Rearranged.outside (h : Rearranged lo hi a b) (hout : ¬(lo ≤ i ∧ i < hi)) : b i = a i := by
  obtain ⟨σ, h1, rfl⟩ := h
  rw [Function.comp_apply, h1 i hout]

/-- An element inside was inside. -/
lemma Rearranged.inside (h : Rearranged lo hi a b) (hin : lo ≤ i ∧ i < hi) :
    ∃ j, (lo ≤ j ∧ j < hi) ∧ b i = a j := by
  obtain ⟨σ, h1, rfl⟩ := h
  refine ⟨σ i, ?_, rfl⟩
  by_contra hσ
  have := σ.injective (h1 _ hσ)
  rw [this] at hσ
  exact hσ hin

lemma Rearranged.symm (h : Rearranged lo hi a b) : Rearranged lo hi b a := by
  obtain ⟨σ, h1, rfl⟩ := h
  refine ⟨σ.symm, fun i hi => ?_, ?_⟩
  · rw [Equiv.symm_apply_eq, h1 i hi]
  · funext i
    simp

/-! ### Comparing -/

/-- A comparison function that is a total preorder. -/
structure IsOrder (compar : E → E → ℤ) : Prop where
  sign : ∀ x y, compar x y < 0 ↔ 0 < compar y x
  trans : ∀ x y z, compar x y ≤ 0 → compar y z ≤ 0 → compar x z ≤ 0

variable {compar : E → E → ℤ} {x y z : E}

lemma IsOrder.flip (h : IsOrder compar) : 0 ≤ compar x y ↔ compar y x ≤ 0 := by
  have := h.sign x y
  omega

lemma IsOrder.refl (h : IsOrder compar) (x : E) : compar x x ≤ 0 := by
  have := h.sign x x
  omega

/-- The elements from `lo` up to `hi` are in order. -/
def InOrder (compar : E → E → ℤ) (lo hi : ℕ) (a : ℕ → E) : Prop :=
  ∀ i j, lo ≤ i → i < j → j < hi → compar (a i) (a j) ≤ 0

end Coherent.Sorting
