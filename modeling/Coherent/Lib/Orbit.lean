import Mathlib.Tactic

/-!
A walk that goes from one element to the next while a condition holds. If the condition holds of
finitely many elements only, the walk ends exactly if it comes to no element twice.
-/

namespace Coherent.Lib.Orbit

variable {α : Type*} {f : α → α} {go : α → Prop} {a : α} {i j : ℕ}

/-- The walk from `a` comes back to an element after having gone on from all before. -/
def Circular (f : α → α) (go : α → Prop) (a : α) : Prop :=
  ∃ i j, i < j ∧ (∀ m < j, go (f^[m] a)) ∧ f^[i] a = f^[j] a

theorem Circular.go_on (h : Circular f go a) (m : ℕ) : go (f^[m] a) := by
  obtain ⟨i, j, hij, hgo, heq⟩ := h
  induction m using Nat.strong_induction_on with
  | _ m ih =>
    rcases Nat.lt_or_ge m j with hm | hm
    · exact hgo m hm
    · -- the same place was there `j - i` steps before
      have hback : f^[m] a = f^[m - j + i] a := by
        calc f^[m] a = f^[m - j + j] a := by rw [Nat.sub_add_cancel hm]
          _ = f^[m - j] (f^[j] a) := Function.iterate_add_apply ..
          _ = f^[m - j] (f^[i] a) := by rw [heq]
          _ = f^[m - j + i] a := (Function.iterate_add_apply ..).symm
      rw [hback]
      exact ih _ (by omega)

/-- Where finitely many elements go on, a walk that is not circular ends. -/
theorem ends {S : Finset α} (hS : ∀ b, go b → b ∈ S) (h : ¬ Circular f go a) :
    ∃ k, (∀ m < k, go (f^[m] a)) ∧ ¬ go (f^[k] a) := by
  classical
  have hex : ∃ k, ¬ go (f^[k] a) := by
    by_contra hall
    push Not at hall
    obtain ⟨i, j, hne, heq⟩ := Finite.exists_ne_map_eq_of_infinite
      fun m => (⟨f^[m] a, hS _ (hall m)⟩ : S)
    have heq' : f^[i] a = f^[j] a := congrArg Subtype.val heq
    rcases Nat.lt_or_gt_of_ne hne with hlt | hlt
    · exact h ⟨i, j, hlt, fun m _ => hall m, heq'⟩
    · exact h ⟨j, i, hlt, fun m _ => hall m, heq'.symm⟩
  exact ⟨Nat.find hex, fun m hm => not_not.mp (Nat.find_min hex hm), Nat.find_spec hex⟩

/-- The elements of a walk up to its end are different. -/
theorem nodup_of_end {k : ℕ} (hgo : ∀ m < k, go (f^[m] a)) (hk : ¬ go (f^[k] a)) :
    ((List.range (k + 1)).map fun m => f^[m] a).Nodup := by
  refine List.Nodup.map_on (fun i hi j hj heq => ?_) List.nodup_range
  rw [List.mem_range] at hi hj
  rcases Nat.lt_trichotomy i j with hlt | rfl | hlt
  · exact absurd (Circular.go_on ⟨i, j, hlt, fun m hm => hgo m (by omega), heq⟩ k) hk
  · rfl
  · exact absurd (Circular.go_on ⟨j, i, hlt, fun m hm => hgo m (by omega), heq.symm⟩ k) hk

end Coherent.Lib.Orbit
