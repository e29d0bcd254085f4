import Mathlib.Tactic
import Mathlib.Data.Finset.Card
import Mathlib.Data.Nat.ModEq

/-!
Double hashing: the places that a fixed displacement leads through, downwards and around.

Where the displacement has no divisor in common with the size of the table, each place is met once
before any of them comes again.
-/

namespace Coherent.Lib.Probe

variable {h d i : ℕ}

/-- The place `d` further down, around a table of `h` places. -/
def back (h d i : ℕ) : ℕ := if i < d then i + h - d else i - d

lemma back_lt (hd : 0 < d) (hdh : d ≤ h) (hi : i < h) : back h d i < h := by
  unfold back
  split <;> omega

lemma back_add_modEq (hdh : d ≤ h) : back h d i + d ≡ i [MOD h] := by
  unfold back
  split
  · have he : i + h - d + d = i + h := by omega
    rw [he]
    exact Nat.add_modEq_right
  · have he : i - d + d = i := by omega
    rw [he]

lemma iterate_back_lt (hd : 0 < d) (hdh : d ≤ h) (hi : i < h) (k : ℕ) :
    (back h d)^[k] i < h := by
  induction k with
  | zero => exact hi
  | succ k ih =>
    rw [Function.iterate_succ_apply']
    exact back_lt hd hdh ih

lemma iterate_back_modEq (hdh : d ≤ h) (k : ℕ) : (back h d)^[k] i + k * d ≡ i [MOD h] := by
  induction k with
  | zero => simp [Nat.ModEq]
  | succ k ih =>
    rw [Function.iterate_succ_apply']
    have hs := (back_add_modEq (i := (back h d)^[k] i) hdh).add_right (k * d)
    have he : back h d ((back h d)^[k] i) + (k + 1) * d =
        back h d ((back h d)^[k] i) + d + k * d := by ring
    rw [he]
    exact hs.trans ih

/-- No place comes again before all have been met. -/
theorem injOn_iterate_back (hdh : d ≤ h) (hc : h.Coprime d) :
    Set.InjOn (fun k => (back h d)^[k] i) (Finset.range h) := by
  -- the later of two steps at one place has gone a multiple of the size further
  have key : ∀ k m, k ≤ m → m < h → (back h d)^[k] i = (back h d)^[m] i → k = m := by
    intro k m hkm hm he
    have hk := (iterate_back_modEq (i := i) hdh k).trans (iterate_back_modEq hdh m).symm
    rw [he] at hk
    have hdvd : h ∣ m * d - k * d :=
      (Nat.modEq_iff_dvd' (Nat.mul_le_mul_right d hkm)).mp (Nat.ModEq.add_left_cancel' _ hk)
    rw [← Nat.sub_mul] at hdvd
    have hz := Nat.eq_zero_of_dvd_of_lt (hc.dvd_of_dvd_mul_right hdvd) (by omega)
    omega
  intro k hk m hm he
  have hk' : k < h := by simpa using hk
  have hm' : m < h := by simpa using hm
  rcases le_total k m with hkm | hkm
  · exact key k m hkm hm' he
  · exact (key m k hkm hk' he.symm).symm

/-- **A table that is not full has a free place on the way**, and it is reached in as many steps as
there are places. -/
theorem exists_free (full : ℕ → Prop) [DecidablePred full]
    (hcard : ((Finset.range h).filter full).card < h)
    (hd : 0 < d) (hdh : d ≤ h) (hc : h.Coprime d) (hi : i < h) :
    ∃ k < h, ¬ full ((back h d)^[k + 1] i) := by
  by_contra hall
  have hfull : ∀ k < h, full ((back h d)^[k] (back h d i)) := by
    intro k hk
    by_contra hn
    exact hall ⟨k, hk, by rwa [Function.iterate_succ_apply]⟩
  have hsub : (Finset.range h).image (fun k => (back h d)^[k] (back h d i)) ⊆
      (Finset.range h).filter full := by
    intro j hj
    obtain ⟨k, hk, rfl⟩ := Finset.mem_image.mp hj
    refine Finset.mem_filter.mpr ⟨?_, hfull k (Finset.mem_range.mp hk)⟩
    exact Finset.mem_range.mpr (iterate_back_lt hd hdh (back_lt hd hdh hi) k)
  have hle := Finset.card_le_card hsub
  rw [Finset.card_image_of_injOn (injOn_iterate_back hdh hc), Finset.card_range] at hle
  omega

end Coherent.Lib.Probe
