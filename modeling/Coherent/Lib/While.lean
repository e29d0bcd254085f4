import Mathlib.Tactic

/-!
A `while` loop, with a bound on its turns, and the rule by which a loop that counts down is proved.
-/

namespace Coherent.Lib

variable {σ : Type*} {c : σ → Bool} {f : σ → σ}

/-- `while (c(x)) x = f(x);`, for so many turns at most. -/
def whileDo (c : σ → Bool) (f : σ → σ) : ℕ → σ → σ
  | 0, x => x
  | n + 1, x => if c x then whileDo c f n (f x) else x

/-- **The rule of the loop**: what a turn keeps holds behind the loop, together with the negated
condition, if the turns count down and there are enough of them. -/
theorem whileDo_rule {I : σ → Prop} (μ : σ → ℕ) {n : ℕ} {x : σ} (hx : I x) (hn : μ x ≤ n)
    (hstep : ∀ y, I y → c y = true → I (f y) ∧ μ (f y) < μ y) :
    I (whileDo c f n x) ∧ c (whileDo c f n x) = false := by
  induction n generalizing x with
  | zero =>
    refine ⟨hx, ?_⟩
    by_contra hc
    have := (hstep x hx (by simpa [whileDo] using hc)).2
    omega
  | succ n ih =>
    rw [whileDo]
    by_cases hc : c x = true
    · rw [if_pos hc]
      obtain ⟨h1, h2⟩ := hstep x hx hc
      exact ih h1 (by omega)
    · rw [if_neg hc]
      exact ⟨hx, by simpa using hc⟩

end Coherent.Lib
