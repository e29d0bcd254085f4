import Mathlib.Tactic

/-!
Canonical form: how words and longs lie in a disk block.

The processor keeps a word high byte first and a long high word first. On the disk every
word is low byte first while a long still has its high word first, so `_canw` and `_canl`
exchange the bytes of each word. Values are kept here as natural numbers below `2 ^ 16` and
`2 ^ 32`; `long` reads such a pattern as the signed `daddr_t`.
-/

namespace Coherent.Can

/-- The bytes of a block, by offset; the disk holds those below `BSIZE`. -/
abbrev Block := ℕ → UInt8

def BSIZE : ℕ := 512

/-- A native word of memory. -/
def getw (p : Block) (o : ℕ) : ℕ := (p o).toNat * 256 + (p (o + 1)).toNat

/-- A native long of memory. -/
def getl (p : Block) (o : ℕ) : ℕ := getw p o * 65536 + getw p (o + 2)

/-- `_canw`: exchange the two bytes of a word. -/
def canw (w : ℕ) : ℕ := w % 256 * 256 + w / 256 % 256

/-- `_canl`: exchange the bytes of either word of a long. -/
def canl (l : ℕ) : ℕ := canw (l / 65536) * 65536 + canw l

/-- A bit pattern as the value of a `long`. -/
def long (l : ℕ) : ℤ := if l < 2147483648 then (l : ℤ) else (l : ℤ) - 4294967296

/-- The bit pattern of a `long`. -/
def ulong (v : ℤ) : ℕ := (v % 4294967296).toNat

/-- Byte `k` of a native long. -/
def lbyte (l k : ℕ) : UInt8 := UInt8.ofNat (l / 256 ^ (3 - k))

/-- Byte `k` of a native word. -/
def wbyte (w k : ℕ) : UInt8 := UInt8.ofNat (w / 256 ^ (1 - k))

/-- The block after an array of `n` native longs has been copied to offset `o`. -/
def putls (p : Block) (o n : ℕ) (f : ℕ → ℕ) : Block := fun i =>
  if o ≤ i ∧ i < o + 4 * n then lbyte (f ((i - o) / 4)) ((i - o) % 4) else p i

/-- The block after an array of `n` native words has been copied to offset `o`. -/
def putws (p : Block) (o n : ℕ) (f : ℕ → ℕ) : Block := fun i =>
  if o ≤ i ∧ i < o + 2 * n then wbyte (f ((i - o) / 2)) ((i - o) % 2) else p i

def putl (p : Block) (o l : ℕ) : Block := putls p o 1 fun _ => l
def putw (p : Block) (o w : ℕ) : Block := putws p o 1 fun _ => w

lemma getw_lt (p : Block) (o : ℕ) : getw p o < 65536 := by
  have h1 := (p o).toNat_lt
  have h2 := (p (o + 1)).toNat_lt
  unfold getw; omega

lemma getl_lt (p : Block) (o : ℕ) : getl p o < 4294967296 := by
  have h1 := getw_lt p o
  have h2 := getw_lt p (o + 2)
  unfold getl; omega

lemma canw_lt (w : ℕ) : canw w < 65536 := by unfold canw; omega

lemma canl_lt (l : ℕ) : canl l < 4294967296 := by
  have h1 := canw_lt (l / 65536)
  have h2 := canw_lt l
  unfold canl; omega

lemma canw_mod (w : ℕ) : canw (w % 65536) = canw w := by unfold canw; omega

lemma canw_canw (w : ℕ) : canw (canw w) = w % 65536 := by
  have h1 : canw w % 256 = w / 256 % 256 := by unfold canw; omega
  have h2 : canw w / 256 = w % 256 := by unfold canw; omega
  rw [canw, h1, h2]; omega

lemma canl_canl (l : ℕ) : canl (canl l) = l % 4294967296 := by
  have h1 : canl l / 65536 = canw (l / 65536) := by
    have := canw_lt l
    unfold canl; omega
  have h2 : canw (canl l) = l % 65536 := by
    rw [← canw_canw, ← canw_mod (canl l)]
    have := canw_lt l
    congr 1; unfold canl; omega
  rw [canl, h1, h2, canw_canw]; omega

lemma canl_mod (l : ℕ) : canl (l % 4294967296) = canl l := by unfold canl canw; omega

lemma ulong_lt (v : ℤ) : ulong v < 4294967296 := by unfold ulong; omega

/-- A `long` survives being stored and fetched again. -/
lemma long_ulong {v : ℤ} (h0 : -2147483648 ≤ v) (h1 : v < 2147483648) : long (ulong v) = v := by
  unfold long ulong; split <;> omega

lemma getw_putws {p : Block} {o n k : ℕ} {f : ℕ → ℕ} (hk : k < n) :
    getw (putws p o n f) (o + 2 * k) = f k % 65536 := by
  have h0 : (o + 2 * k - o) / 2 = k := by omega
  have h1 : (o + 2 * k + 1 - o) / 2 = k := by omega
  have e0 : (o + 2 * k - o) % 2 = 0 := by omega
  have e1 : (o + 2 * k + 1 - o) % 2 = 1 := by omega
  simp only [getw, putws, h0, h1, e0, e1, wbyte]
  rw [if_pos (by omega), if_pos (by omega)]
  simp only [UInt8.toNat_ofNat']
  omega

lemma getl_putls {p : Block} {o n k : ℕ} {f : ℕ → ℕ} (hk : k < n) :
    getl (putls p o n f) (o + 4 * k) = f k % 4294967296 := by
  have h : ∀ j < 4, putls p o n f (o + 4 * k + j) = lbyte (f k) j := by
    intro j hj
    have hq : (o + 4 * k + j - o) / 4 = k := by omega
    have hr : (o + 4 * k + j - o) % 4 = j := by omega
    simp only [putls, hq, hr]
    rw [if_pos (by omega)]
  have h0 := h 0 (by omega)
  have h1 := h 1 (by omega)
  have h2 := h 2 (by omega)
  have h3 := h 3 (by omega)
  simp only [Nat.add_zero] at h0
  simp only [getl, getw, Nat.add_assoc, Nat.reduceAdd] at *
  rw [h0, h1, h2, h3]
  simp only [lbyte, UInt8.toNat_ofNat']
  omega

/-- A fetch away from a store is undisturbed. -/
lemma getw_putls {p : Block} {o n a : ℕ} {f : ℕ → ℕ} (h : a + 2 ≤ o ∨ o + 4 * n ≤ a) :
    getw (putls p o n f) a = getw p a := by
  simp only [getw, putls]
  rw [if_neg (by omega), if_neg (by omega)]

lemma getw_putws_of_disjoint {p : Block} {o n a : ℕ} {f : ℕ → ℕ}
    (h : a + 2 ≤ o ∨ o + 2 * n ≤ a) : getw (putws p o n f) a = getw p a := by
  simp only [getw, putws]
  rw [if_neg (by omega), if_neg (by omega)]

end Coherent.Can
