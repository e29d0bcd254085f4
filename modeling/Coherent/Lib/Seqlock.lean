import Mathlib.Tactic
import Mathlib.Data.BitVec

/-!
Cells behind a counter which their one writer increments before and after it stores to them, and
the copy that a reader takes between two looks at the counter.
-/

namespace Coherent.Lib

variable {ι α : Type*}

structure Seqlock (ι α : Type*) where
  /-- how often the counter was incremented -/
  count : ℕ
  cell : ι → α

namespace Seqlock

variable {q : Seqlock ι α} {n : ℕ} {S : ι → α} {P : Set ι}

def bump (q : Seqlock ι α) : Seqlock ι α := { q with count := q.count + 1 }

def store [DecidableEq ι] (q : Seqlock ι α) (i : ι) (a : α) : Seqlock ι α :=
  { q with cell := Function.update q.cell i a }

/-- The copies `S` of the cells `P`, taken since the counter was `n`: as long as it still is, and
was even, they are what the cells hold. -/
structure Copied (q : Seqlock ι α) (n : ℕ) (S : ι → α) (P : Set ι) : Prop where
  le : n ≤ q.count
  agree : q.count = n → Even n → ∀ i ∈ P, S i = q.cell i

lemma Copied.start (q : Seqlock ι α) (S : ι → α) : Copied q q.count S ∅ where
  le := le_rfl
  agree _ _ _ hi := hi.elim

lemma Copied.load [DecidableEq ι] (h : Copied q n S P) (i : ι) {a : α}
    (ha : q.count = n → Even n → a = q.cell i) :
    Copied q n (Function.update S i a) (insert i P) where
  le := h.le
  agree hn he j hj := by
    rcases eq_or_ne j i with rfl | hji
    · rw [Function.update_self, ha hn he]
    · rw [Function.update_of_ne hji]
      exact h.agree hn he j (hj.resolve_left hji)

lemma Copied.bump (h : Copied q n S P) : Copied q.bump n S P where
  le := Nat.le_succ_of_le h.le
  agree hn := by
    have hle := h.le
    have : q.count + 1 = n := hn
    omega

/-- The writer stores only while the counter is odd. -/
lemma Copied.store [DecidableEq ι] (h : Copied q n S P) (hq : Odd q.count) (i : ι) (a : α) :
    Copied (q.store i a) n S P where
  le := h.le
  agree hn he := by
    have : q.count = n := hn
    rw [this] at hq
    exact absurd he (Nat.not_even_iff_odd.mpr hq)

end Seqlock

/-! ### A counter of a machine word -/

/-- From `n` to `m`, a counter of `k` bits has not come round to the same word. -/
def Unwrapped (k n m : ℕ) : Prop := 2 ^ k ∣ m - n → m = n

instance (k n m : ℕ) : Decidable (Unwrapped k n m) :=
  inferInstanceAs (Decidable (2 ^ k ∣ m - n → m = n))

lemma Unwrapped.eq {k n m : ℕ} (h : Unwrapped k n m) (hle : n ≤ m)
    (hw : BitVec.ofNat k m = BitVec.ofNat k n) : m = n := by
  apply h
  have hmod : m % 2 ^ k = n % 2 ^ k := by
    simpa [BitVec.toNat_ofNat] using congrArg BitVec.toNat hw
  exact (Nat.modEq_iff_dvd' hle).mp hmod.symm

lemma even_of_word {k n : ℕ} (hk : 0 < k) (h : BitVec.ofNat k n &&& 1 = 0) : Even n := by
  have h1 := congrArg BitVec.toNat h
  rw [BitVec.toNat_and] at h1
  have h2 : (1 : BitVec k).toNat = 1 := by
    simp [hk]
  rw [h2, Nat.and_one_is_mod, BitVec.toNat_ofNat] at h1
  rw [Nat.even_iff, ← Nat.mod_mod_of_dvd n (dvd_pow_self 2 hk.ne')]
  simpa using h1

end Coherent.Lib
