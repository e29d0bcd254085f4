import Mathlib.Tactic

/-!
Circular buffers: a window of places, counted from one place on and around the end.
-/

namespace Coherent.Lib.Ring

variable {α : Type*} {cap : ℕ} {c c' : ℕ → α} {r n m k : ℕ}

/-- The `n` elements from place `r` on, in a buffer of `cap` places. -/
def window (cap : ℕ) (c : ℕ → α) (r n : ℕ) : List α :=
  (List.range n).map fun i => c ((r + i) % cap)

@[simp] theorem length_window : (window cap c r n).length = n := by simp [window]

theorem window_add : window cap c r (n + m) = window cap c r n ++ window cap c (r + n) m := by
  simp only [window, List.range_add, List.map_append, List.map_map, Function.comp_def,
    Nat.add_assoc]

@[simp] theorem window_mod : window cap c (r % cap) n = window cap c r n := by
  simp only [window, Nat.mod_add_mod]

theorem window_congr (h : ∀ i < n, c' ((r + i) % cap) = c ((r + i) % cap)) :
    window cap c' r n = window cap c r n :=
  List.map_congr_left fun i hi => h i (List.mem_range.mp hi)

/-- A window that does not go around the end. -/
theorem window_straight (h : r + n ≤ cap) :
    window cap c r n = (List.range n).map fun i => c (r + i) := by
  refine List.map_congr_left fun i hi => ?_
  have := List.mem_range.mp hi
  rw [Nat.mod_eq_of_lt (by omega)]

/-- The places of a window and the places behind it are different. -/
theorem place_ne {i j : ℕ} (hi : i < n) (hj : n + j < cap) :
    (r + i) % cap ≠ (r + n + j) % cap := by
  intro h
  have hm : r + i ≡ r + (n + j) [MOD cap] := by rw [← Nat.add_assoc]; exact h
  have he := (Nat.ModEq.add_left_cancel' r hm).eq_of_lt_of_lt (by omega) hj
  omega

/-- **Adding**: elements are written behind the window, and the rest of the places that may
change are not in it. -/
theorem window_push {bs : List α} (hk : n + k ≤ cap) (hw : (r + n) % cap + k ≤ cap)
    (hbs : bs.length ≤ k)
    (hin : ∀ i (hi : i < bs.length), c' ((r + n) % cap + i) = bs[i])
    (hout : ∀ o < cap, ¬ ((r + n) % cap ≤ o ∧ o < (r + n) % cap + k) → c' o = c o) :
    window cap c' r (n + bs.length) = window cap c r n ++ bs := by
  rw [window_add]
  congr 1
  · refine window_congr fun i hi => ?_
    have hcap : 0 < cap := by omega
    refine hout _ (Nat.mod_lt _ hcap) fun ⟨h1, h2⟩ => ?_
    have hj : n + ((r + i) % cap - (r + n) % cap) < cap := by omega
    refine place_ne (r := r) hi hj ?_
    rw [← Nat.mod_add_mod (r + n), Nat.add_sub_cancel' h1, Nat.mod_mod]
  · rw [← window_mod, window_straight (by omega)]
    refine List.ext_getElem (by simp) fun i h1 h2 => ?_
    rw [List.getElem_map, List.getElem_range]
    exact hin i h2

/-- **Taking**: the first elements of the window, and the window behind them. -/
theorem window_pop (hm : m ≤ n) (hr : r + m ≤ cap) :
    window cap c r n =
      (List.range m).map (fun i => c (r + i)) ++ window cap c ((r + m) % cap) (n - m) := by
  rw [← window_straight hr, window_mod, ← window_add, Nat.add_sub_cancel' hm]

end Coherent.Lib.Ring
