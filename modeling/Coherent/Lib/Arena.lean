import Mathlib.Data.List.Basic
import Mathlib.Tactic

/-!
Blocks in an arena: each has a base and a size, and a queue holds them in the order of their bases,
so that none reaches into the next.
-/

namespace Coherent.Lib.Arena

variable {ι : Type*} {base base' size size' : ι → ℕ} {top top' b b' m : ℕ}
  {q l₁ l₂ : List ι} {x y : ι}

/-- The blocks lie one above the other from `b` on, below `top`. -/
def Placed (base size : ι → ℕ) (top : ℕ) : ℕ → List ι → Prop
  | b, [] => b ≤ top
  | b, x :: q => b ≤ base x ∧ Placed base size top (base x + size x) q

/-- Where the last block ends. -/
def last (base size : ι → ℕ) : ℕ → List ι → ℕ
  | b, [] => b
  | _, x :: q => last base size (base x + size x) q

/-- Where the first block begins. -/
def next (base : ι → ℕ) (top : ℕ) : List ι → ℕ
  | [] => top
  | x :: _ => base x

/-- The gaps below the blocks. -/
def below (base size : ι → ℕ) : ℕ → List ι → List ℕ
  | _, [] => []
  | b, x :: q => (base x - b) :: below base size (base x + size x) q

/-- The walk against the order for a gap of `s`, which is taken at its high end for `x`. -/
def fitHigh (base size : ι → ℕ) (bot s : ℕ) (x : ι) : ℕ → List ι → Option (List ι × ℕ)
  | t, [] => if bot + s ≤ t then some ([x], t - s) else none
  | t, y :: q =>
    if base y + size y + s ≤ t then some (x :: y :: q, t - s)
    else (fitHigh base size bot s x (base y) q).map fun r => (y :: r.1, r.2)

lemma last_append : last base size b (l₁ ++ l₂) = last base size (last base size b l₁) l₂ := by
  induction l₁ generalizing b with
  | nil => rfl
  | cons x l ih => exact ih

/-- Where no block leaves a gap below it the gaps are empty. -/
lemma below_sum_eq (h : ∀ l₁ x l₂, q = l₁ ++ x :: l₂ → base x ≤ last base size b l₁) :
    (below base size b q).sum = 0 := by
  induction q generalizing b with
  | nil => rfl
  | cons x q ih =>
    have hx : base x ≤ b := h [] x q rfl
    have hq := ih (b := base x + size x) fun l₁ y l₂ he => h (x :: l₁) y l₂ (by rw [he]; rfl)
    change ((base x - b) :: below base size (base x + size x) q).sum = 0
    rw [List.sum_cons, hq]
    omega

namespace Placed

lemma le (h : Placed base size top b q) : b ≤ top := by
  induction q generalizing b with
  | nil => exact h
  | cons x q ih =>
    have h1 := h.1
    have h2 := ih h.2
    omega

/-- The gaps and the blocks fill the arena. -/
lemma sum_eq (h : Placed base size top b q) :
    (below base size b q).sum + (top - last base size b q) + (q.map size).sum = top - b := by
  induction q generalizing b with
  | nil =>
    change 0 + (top - b) + 0 = top - b
    omega
  | cons x q ih =>
    have h1 := ih h.2
    have h2 := h.1
    have h3 := le h.2
    change ((base x - b) :: below base size (base x + size x) q).sum +
      (top - last base size (base x + size x) q) + (size x :: q.map size).sum = top - b
    rw [List.sum_cons, List.sum_cons]
    omega

lemma congr (h : Placed base size top b q)
    (he : ∀ x ∈ q, base' x = base x ∧ size' x = size x) : Placed base' size' top b q := by
  induction q generalizing b with
  | nil => exact h
  | cons x q ih =>
    have hx := he x List.mem_cons_self
    refine ⟨hx.1.symm ▸ h.1, ?_⟩
    rw [hx.1, hx.2]
    exact ih h.2 fun y hy => he y (List.mem_cons_of_mem x hy)

lemma mono (h : Placed base size top b q) (hb : b' ≤ b) (ht : top ≤ top') :
    Placed base size top' b' q := by
  induction q generalizing b b' with
  | nil => exact (hb.trans h).trans ht
  | cons x q ih => exact ⟨hb.trans h.1, ih h.2 (le_refl _)⟩

lemma bounds (h : Placed base size top b q) (hx : x ∈ q) : b ≤ base x ∧ base x + size x ≤ top := by
  induction q generalizing b with
  | nil => exact absurd hx List.not_mem_nil
  | cons y q ih =>
    rcases List.mem_cons.mp hx with rfl | hx
    · exact ⟨h.1, h.2.le⟩
    · have h1 := ih h.2 hx
      have h2 := h.1
      exact ⟨by omega, h1.2⟩

lemma append (h₁ : Placed base size m b l₁) (h₂ : Placed base size top m l₂) :
    Placed base size top b (l₁ ++ l₂) := by
  induction l₁ generalizing b with
  | nil => exact h₂.mono h₁ (le_refl top)
  | cons x l ih => exact ⟨h₁.1, ih h₁.2⟩

lemma left (h : Placed base size top b (l₁ ++ l₂)) :
    Placed base size (last base size b l₁) b l₁ := by
  induction l₁ generalizing b with
  | nil => exact le_refl b
  | cons x l ih => exact ⟨h.1, ih h.2⟩

lemma right (h : Placed base size top b (l₁ ++ l₂)) :
    Placed base size top (last base size b l₁) l₂ := by
  induction l₁ generalizing b with
  | nil => exact h
  | cons x l ih => exact ih h.2

/-- The gap in which a block lies. -/
lemma around (h : Placed base size top b (l₁ ++ x :: l₂)) :
    last base size b l₁ ≤ base x ∧ base x + size x ≤ next base top l₂ := by
  refine ⟨h.right.1, ?_⟩
  cases l₂ with
  | nil => exact h.right.2
  | cons y l => exact h.right.2.1

lemma after (h : Placed base size top b q) : Placed base size top (next base top q) q := by
  cases q with
  | nil => exact le_refl top
  | cons y l => exact ⟨le_refl _, h.2⟩

/-- A block that is put between two others. -/
lemma insert {m' : ℕ} (h₁ : Placed base size m b l₁) (h₂ : Placed base size top m' l₂)
    (hm : m ≤ base x) (hm' : base x + size x ≤ m') :
    Placed base size top b (l₁ ++ x :: l₂) :=
  h₁.append ⟨hm, h₂.mono hm' (le_refl top)⟩

lemma sublist (h : Placed base size top b q) (hs : List.Sublist l₁ q) :
    Placed base size top b l₁ := by
  induction hs generalizing b with
  | slnil => exact h
  | cons x _ ih => exact ih (h.2.mono (h.1.trans (Nat.le_add_right _ _)) (le_refl top))
  | cons_cons x _ ih => exact ⟨h.1, ih h.2⟩

/-- The blocks of a queue lie on both sides of every gap. -/
lemma outside (h : Placed base size top b (l₁ ++ l₂)) (hx : x ∈ l₁ ++ l₂) :
    base x + size x ≤ last base size b l₁ ∨ next base top l₂ ≤ base x := by
  rcases List.mem_append.mp hx with hx | hx
  · exact Or.inl (h.left.bounds hx).2
  · exact Or.inr (h.right.after.bounds hx).1

/-- A block that comes from anywhere into a gap. -/
lemma put [DecidableEq ι] (h : Placed base size top b (l₁ ++ l₂))
    (hm : last base size b l₁ ≤ base' x) (hm' : base' x + size' x ≤ next base top l₂)
    (he : ∀ y ∈ l₁ ++ l₂, y ≠ x → base' y = base y ∧ size' y = size y) :
    Placed base' size' top b (l₁.filter (· ≠ x) ++ x :: l₂.filter (· ≠ x)) := by
  have hne : ∀ l : List ι, ∀ y ∈ l.filter (· ≠ x), y ∈ l ∧ y ≠ x := fun l y hy => by
    rw [List.mem_filter, decide_eq_true_iff] at hy
    exact hy
  have h₁ : Placed base' size' (last base size b l₁) b (l₁.filter (· ≠ x)) :=
    (h.left.sublist List.filter_sublist).congr fun y hy =>
      he y (List.mem_append_left _ (hne l₁ y hy).1) (hne l₁ y hy).2
  have h₂ : Placed base' size' top (next base top l₂) (l₂.filter (· ≠ x)) :=
    (h.right.after.sublist List.filter_sublist).congr fun y hy =>
      he y (List.mem_append_right _ (hne l₂ y hy).1) (hne l₂ y hy).2
  exact h₁.insert h₂ hm hm'

lemma fitHigh_some {q' : List ι} {s t : ℕ} (h : Placed base size t b q.reverse)
    (hf : fitHigh base size b s x t q = some (q', m)) :
    ∃ l₁ l₂, q.reverse = l₁ ++ l₂ ∧ q'.reverse = l₁ ++ x :: l₂ ∧
      last base size b l₁ ≤ m ∧ m + s ≤ next base t l₂ := by
  induction q generalizing t q' with
  | nil =>
    unfold fitHigh at hf
    split at hf
    · obtain ⟨rfl, rfl⟩ := Prod.mk.inj (Option.some.inj hf)
      refine ⟨[], [], rfl, rfl, ?_, ?_⟩
      · change b ≤ t - s
        omega
      · change t - s + s ≤ t
        omega
    · exact absurd hf (by simp)
  | cons y q ih =>
    rw [List.reverse_cons] at h
    unfold fitHigh at hf
    split at hf
    · obtain ⟨rfl, rfl⟩ := Prod.mk.inj (Option.some.inj hf)
      refine ⟨q.reverse ++ [y], [], ?_, ?_, ?_, ?_⟩
      · rw [List.reverse_cons, List.append_nil]
      · rw [List.reverse_cons, List.reverse_cons]
      · rw [last_append]
        change base y + size y ≤ t - s
        omega
      · change t - s + s ≤ t
        omega
    · obtain ⟨⟨r, m'⟩, hr, he⟩ := Option.map_eq_some_iff.mp hf
      obtain ⟨rfl, rfl⟩ := Prod.mk.inj he
      have hy : Placed base size (base y) b q.reverse := h.left.mono (le_refl b) h.right.1
      obtain ⟨l₁, l₂, h1, h2, hm, hn⟩ := ih hy hr
      refine ⟨l₁, l₂ ++ [y], ?_, ?_, hm, ?_⟩
      · rw [List.reverse_cons, h1, List.append_assoc]
      · rw [List.reverse_cons, h2, List.append_assoc, List.cons_append]
      · cases l₂ with
        | nil => exact hn
        | cons z l => exact hn

end Placed

end Coherent.Lib.Arena
