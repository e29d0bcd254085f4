import Mathlib

/-!
Dissections of a set into finitely many pieces, and what cutting one piece in two does to them.
-/

namespace Coherent.Lib

variable {α : Type*} {f g : ℕ → Set α} {n i : ℕ} {S A B : Set α}

/-- The first `n` pieces make up the set, and no two of them meet. -/
structure Dissects (f : ℕ → Set α) (n : ℕ) (S : Set α) : Prop where
  union : ⋃ i < n, f i = S
  disjoint : ∀ i < n, ∀ j < n, i ≠ j → Disjoint (f i) (f j)

theorem Dissects.one (hf : f 0 = S) : Dissects f 1 S where
  union := by
    ext p
    simp [hf]
  disjoint i hi j hj hij := absurd (show i = j by omega) hij

theorem Dissects.subset (h : Dissects f n S) (hi : i < n) : f i ⊆ S := by
  rw [← h.union]
  exact Set.subset_biUnion_of_mem (u := f) hi

/-- **A cut**: one part of a piece takes its place, the other one is a new piece. -/
theorem Dissects.cut (h : Dissects f n S) (hi : i < n) (hAB : A ∪ B = f i) (hd : Disjoint A B)
    (hgi : g i = A) (hgn : g n = B) (hg : ∀ j < n, j ≠ i → g j = f j) : Dissects g (n + 1) S := by
  have hA : A ⊆ f i := hAB ▸ Set.subset_union_left
  have hB : B ⊆ f i := hAB ▸ Set.subset_union_right
  have hold : ∀ j < n, g j ⊆ f j := by
    intro j hj
    by_cases hji : j = i
    · rw [hji, hgi]
      exact hA
    · exact (hg j hj hji).subset
  have hnew : ∀ j < n, Disjoint (g j) B := by
    intro j hj
    by_cases hji : j = i
    · rw [hji, hgi]
      exact hd
    · rw [hg j hj hji]
      exact (h.disjoint j hj i hi hji).mono_right hB
  constructor
  · ext p
    simp only [Set.mem_iUnion, exists_prop]
    constructor
    · rintro ⟨j, hj, hp⟩
      rcases Nat.lt_succ_iff_lt_or_eq.mp hj with hj | rfl
      · exact h.subset hj (hold j hj hp)
      · exact h.subset hi (hB (hgn ▸ hp))
    · intro hp
      rw [← h.union] at hp
      simp only [Set.mem_iUnion, exists_prop] at hp
      obtain ⟨j, hj, hp⟩ := hp
      by_cases hji : j = i
      · subst hji
        rw [← hAB] at hp
        rcases hp with hp | hp
        · exact ⟨j, hj.trans n.lt_succ_self, hgi ▸ hp⟩
        · exact ⟨n, n.lt_succ_self, hgn ▸ hp⟩
      · exact ⟨j, hj.trans n.lt_succ_self, (hg j hj hji).symm ▸ hp⟩
  · intro j hj k hk hjk
    rcases Nat.lt_succ_iff_lt_or_eq.mp hj with hj | rfl <;>
      rcases Nat.lt_succ_iff_lt_or_eq.mp hk with hk | rfl
    · exact (h.disjoint j hj k hk hjk).mono (hold j hj) (hold k hk)
    · rw [hgn]
      exact hnew j hj
    · rw [hgn]
      exact (hnew k hk).symm
    · exact absurd rfl hjk

end Coherent.Lib
