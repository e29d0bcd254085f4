import Mathlib.Tactic

/-!
Memory by bytes: numbers stored in several of them, the most significant first, and the loops that
fill and copy a range.
-/

namespace Coherent.Lib.Bytes

structure Mem where
  byte : ℕ → BitVec 8

def Mem.set (m : Mem) (p : ℕ) (b : BitVec 8) : Mem := ⟨Function.update m.byte p b⟩

variable {m m' : Mem} {p q n k v x d s : ℕ} {b : BitVec 8}

@[simp] theorem set_self : (m.set p b).byte p = b := Function.update_self ..

theorem set_of_ne (h : x ≠ p) : (m.set p b).byte x = m.byte x := Function.update_of_ne h ..

/-- The number in the `n` bytes from `p` on. -/
def get (m : Mem) : ℕ → ℕ → ℕ
  | _, 0 => 0
  | p, n + 1 => (m.byte p).toNat * 256 ^ n + get m (p + 1) n

/-- The low `n` bytes of a number, stored from `p` on. -/
def put (m : Mem) : ℕ → ℕ → ℕ → Mem
  | _, 0, _ => m
  | p, n + 1, v => (put m (p + 1) n v).set p (BitVec.ofNat 8 (v / 256 ^ n))

theorem put_of_apart (h : x < p ∨ p + n ≤ x) : (put m p n v).byte x = m.byte x := by
  induction n generalizing p with
  | zero => rfl
  | succ n ih =>
    change ((put m (p + 1) n v).set p _).byte x = m.byte x
    rw [set_of_ne (by omega)]
    exact ih (by omega)

theorem get_congr (h : ∀ x, p ≤ x → x < p + n → m'.byte x = m.byte x) :
    get m' p n = get m p n := by
  induction n generalizing p with
  | zero => rfl
  | succ n ih =>
    change (m'.byte p).toNat * _ + _ = (m.byte p).toNat * _ + _
    rw [h p (le_refl p) (by omega), ih fun x h1 h2 => h x (by omega) (by omega)]

theorem get_put : get (put m p n v) p n = v % 256 ^ n := by
  induction n generalizing p with
  | zero => exact (Nat.mod_one v).symm
  | succ n ih =>
    have h1 : get (put m p (n + 1) v) (p + 1) n = get (put m (p + 1) n v) (p + 1) n :=
      get_congr fun x h2 _ => set_of_ne (by omega)
    have h2 : (put m p (n + 1) v).byte p = BitVec.ofNat 8 (v / 256 ^ n) := set_self
    change ((put m p (n + 1) v).byte p).toNat * 256 ^ n + get (put m p (n + 1) v) (p + 1) n = _
    have h3 : v % 256 ^ (n + 1) = v % 256 ^ n + 256 ^ n * (v / 256 ^ n % 256) := Nat.mod_pow_succ
    rw [h1, h2, ih, BitVec.toNat_ofNat, h3, Nat.add_comm, Nat.mul_comm (256 ^ n)]

theorem get_put_of_apart (h : p + n ≤ q ∨ q + k ≤ p) : get (put m q k v) p n = get m p n :=
  get_congr fun _ h1 h2 => put_of_apart (by omega)

/-- Stores the byte `b` in `n` places from `p` on. -/
def fill (m : Mem) (p : ℕ) (b : BitVec 8) : ℕ → Mem
  | 0 => m
  | n + 1 => fill (m.set p b) (p + 1) b n

theorem fill_of_apart (h : x < p ∨ p + n ≤ x) : (fill m p b n).byte x = m.byte x := by
  induction n generalizing m p with
  | zero => rfl
  | succ n ih =>
    change (fill (m.set p b) (p + 1) b n).byte x = m.byte x
    rw [ih (by omega), set_of_ne (by omega)]

theorem fill_in (h1 : p ≤ x) (h2 : x < p + n) : (fill m p b n).byte x = b := by
  induction n generalizing m p with
  | zero => omega
  | succ n ih =>
    change (fill (m.set p b) (p + 1) b n).byte x = b
    rcases eq_or_ne x p with rfl | hne
    · rw [fill_of_apart (by omega), set_self]
    · exact ih (by omega) (by omega)

/-- Copies `n` bytes from `s` on to `d` on. -/
def copy (m : Mem) (d s : ℕ) : ℕ → Mem
  | 0 => m
  | n + 1 => copy (m.set d (m.byte s)) (d + 1) (s + 1) n

theorem copy_of_apart (h : x < d ∨ d + n ≤ x) : (copy m d s n).byte x = m.byte x := by
  induction n generalizing m d s with
  | zero => rfl
  | succ n ih =>
    change (copy (m.set d (m.byte s)) (d + 1) (s + 1) n).byte x = m.byte x
    rw [ih (by omega), set_of_ne (by omega)]

end Coherent.Lib.Bytes
