import Mathlib.Logic.Function.Basic
import Mathlib.Tactic

/-!
Memory by cells of any kind, and the loops that copy and fill a range: from the left, from the
right, and with one value.
-/

namespace Coherent.Lib.Cells

structure Mem (α : Type*) where
  cell : ℕ → α

variable {α : Type*} {m : Mem α} {a : α} {p d s n x i : ℕ}

def Mem.set (m : Mem α) (p : ℕ) (a : α) : Mem α := ⟨Function.update m.cell p a⟩

@[simp] lemma set_self : (m.set p a).cell p = a := Function.update_self ..

lemma set_of_ne (h : x ≠ p) : (m.set p a).cell x = m.cell x := Function.update_of_ne h ..

/-- Copies `n` cells from `s` on to `d` on, from left to right. -/
def copyUp (m : Mem α) (d s : ℕ) : ℕ → Mem α
  | 0 => m
  | n + 1 => copyUp (m.set d (m.cell s)) (d + 1) (s + 1) n

/-- The same from right to left. -/
def copyDown (m : Mem α) (d s : ℕ) : ℕ → Mem α
  | 0 => m
  | n + 1 => copyDown (m.set (d + n) (m.cell (s + n))) d s n

/-- Stores `a` in `n` cells from `p` on. -/
def fill (m : Mem α) (p : ℕ) (a : α) : ℕ → Mem α
  | 0 => m
  | n + 1 => fill (m.set p a) (p + 1) a n

lemma copyUp_of_apart (h : x < d ∨ d + n ≤ x) : (copyUp m d s n).cell x = m.cell x := by
  induction n generalizing m d s with
  | zero => rfl
  | succ n ih =>
    change (copyUp (m.set d (m.cell s)) (d + 1) (s + 1) n).cell x = _
    rw [ih (by omega), set_of_ne (by omega)]

lemma copyDown_of_apart (h : x < d ∨ d + n ≤ x) : (copyDown m d s n).cell x = m.cell x := by
  induction n generalizing m with
  | zero => rfl
  | succ n ih =>
    change (copyDown (m.set (d + n) (m.cell (s + n))) d s n).cell x = _
    rw [ih (by omega), set_of_ne (by omega)]

lemma fill_of_apart (h : x < p ∨ p + n ≤ x) : (fill m p a n).cell x = m.cell x := by
  induction n generalizing m p with
  | zero => rfl
  | succ n ih =>
    change (fill (m.set p a) (p + 1) a n).cell x = _
    rw [ih (by omega), set_of_ne (by omega)]

/-- From left to right the cells may move down, or to a place apart. -/
lemma copyUp_in (h : d ≤ s ∨ s + n ≤ d) (hi : i < n) :
    (copyUp m d s n).cell (d + i) = m.cell (s + i) := by
  induction n generalizing m d s i with
  | zero => omega
  | succ n ih =>
    change (copyUp (m.set d (m.cell s)) (d + 1) (s + 1) n).cell (d + i) = _
    cases i with
    | zero =>
      rw [copyUp_of_apart (by omega)]
      exact set_self
    | succ i =>
      have h1 : d + (i + 1) = d + 1 + i := by omega
      have h2 : s + (i + 1) = s + 1 + i := by omega
      rw [h1, h2, ih (by omega) (by omega), set_of_ne (by omega)]

/-- From right to left they may move up. -/
lemma copyDown_in (h : s ≤ d) (hi : i < n) :
    (copyDown m d s n).cell (d + i) = m.cell (s + i) := by
  induction n generalizing m with
  | zero => omega
  | succ n ih =>
    change (copyDown (m.set (d + n) (m.cell (s + n))) d s n).cell (d + i) = _
    rcases eq_or_ne i n with rfl | hne
    · rw [copyDown_of_apart (by omega), set_self]
    · rw [ih (by omega), set_of_ne (by omega)]

lemma fill_in (h1 : p ≤ x) (h2 : x < p + n) : (fill m p a n).cell x = a := by
  induction n generalizing m p with
  | zero => omega
  | succ n ih =>
    change (fill (m.set p a) (p + 1) a n).cell x = a
    rcases eq_or_ne x p with rfl | hne
    · rw [fill_of_apart (by omega), set_self]
    · exact ih (by omega) (by omega)

end Coherent.Lib.Cells
