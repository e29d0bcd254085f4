import Coherent.Lib.Bytes

/-!
Memory seen through addresses, and what a C program finds there: numbers of several bytes, strings
ended by a zero byte, and vectors of pointers to strings ended by a null pointer. A vector whose
strings stand one behind the other in plain memory is found again through every view that shows
that memory.
-/

namespace Coherent.Lib.Views

open Coherent.Lib.Bytes

/-- A way to see memory: the bytes that can be read, and the address so many bytes further on. -/
structure View where
  byte : ℕ → Option (BitVec 8)
  next : ℕ → ℕ → ℕ

/-- The number in the `n` bytes from `p` on. -/
def View.number (v : View) : ℕ → ℕ → Option ℕ
  | 0, _ => some 0
  | n + 1, p => (v.byte p).bind fun b =>
      (v.number n (v.next p 1)).map fun r => b.toNat * 256 ^ n + r

def View.Str (v : View) : ℕ → List (BitVec 8) → Prop
  | p, [] => v.byte p = some 0
  | p, c :: s => v.byte p = some c ∧ c ≠ 0 ∧ View.Str v (v.next p 1) s

/-- A vector of pointers of four bytes, and the string that each leads to. -/
def View.Vec (v : View) : ℕ → List (ℕ × List (BitVec 8)) → Prop
  | p, [] => v.number 4 p = some 0
  | p, (q, s) :: l => v.number 4 p = some q ∧ q ≠ 0 ∧ v.Str q s ∧ View.Vec v (v.next p 4) l

/-- The bytes that strings take, their zeros included. -/
def size : List (List (BitVec 8)) → ℕ
  | [] => 0
  | s :: l => s.length + 1 + size l

lemma length_le_size (l : List (List (BitVec 8))) : l.length ≤ size l := by
  induction l with
  | nil => exact le_refl _
  | cons s l ih =>
    have h : (s :: l).length = l.length + 1 := rfl
    have h' : size (s :: l) = s.length + 1 + size l := rfl
    omega

variable {v : View} {m m' : Mem} {lo hi p x n pv pc : ℕ} {va : ℕ → ℕ}

theorem View.Str.unique {s t : List (BitVec 8)} (h : v.Str p s) (h' : v.Str p t) : s = t := by
  induction s generalizing p t with
  | nil =>
    cases t with
    | nil => rfl
    | cons c t => exact absurd (Option.some.inj (h'.1.symm.trans h)) h'.2.1
  | cons c s ih =>
    cases t with
    | nil => exact absurd (Option.some.inj (h.1.symm.trans h')) h.2.1
    | cons d t => rw [Option.some.inj (h.1.symm.trans h'.1), ih h.2.2 h'.2.2]

theorem View.Vec.unique {l k : List (ℕ × List (BitVec 8))} (h : v.Vec p l) (h' : v.Vec p k) :
    l = k := by
  induction l generalizing p k with
  | nil =>
    cases k with
    | nil => rfl
    | cons b k => exact absurd (Option.some.inj (h'.1.symm.trans h)) h'.2.1
  | cons a l ih =>
    cases k with
    | nil => exact absurd (Option.some.inj (h.1.symm.trans h')) h.2.1
    | cons b k =>
      obtain ⟨q, s⟩ := a
      obtain ⟨r, t⟩ := b
      obtain rfl : q = r := Option.some.inj (h.1.symm.trans h'.1)
      rw [h.2.2.1.unique h'.2.2.1, ih h.2.2.2 h'.2.2.2]

/-! ### Plain memory -/

/-- Memory as it is. -/
def flat (m : Mem) : View := ⟨fun x => some (m.byte x), (· + ·)⟩

theorem View.Str.congr {s : List (BitVec 8)} (h : (flat m).Str x s)
    (hm : ∀ y, x ≤ y → y < x + s.length + 1 → m'.byte y = m.byte y) : (flat m').Str x s := by
  induction s generalizing x with
  | nil =>
    change some (m'.byte x) = some 0
    rw [hm x (le_refl x) (by rw [List.length_nil]; omega)]
    exact h
  | cons c s ih =>
    rw [List.length_cons] at hm
    have hs : (flat m').Str (x + 1) s :=
      ih (show (flat m).Str (x + 1) s from h.2.2) fun y h1 h2 => hm y (by omega) (by omega)
    refine ⟨?_, h.2.1, hs⟩
    change some (m'.byte x) = some c
    rw [hm x (le_refl x) (by omega)]
    exact h.1

/-- From `pv` on pointers to strings, which stand one behind the other from `pc` on. -/
def Laid (m : Mem) (va : ℕ → ℕ) : ℕ → ℕ → List (List (BitVec 8)) → Prop
  | _, _, [] => True
  | pv, pc, s :: l => get m pv 4 = va pc ∧ (flat m).Str pc s ∧
      Laid m va (pv + 4) (pc + (s.length + 1)) l

/-- The pointers of such a vector, each with its string. -/
def places (va : ℕ → ℕ) : ℕ → List (List (BitVec 8)) → List (ℕ × List (BitVec 8))
  | _, [] => []
  | pc, s :: l => (va pc, s) :: places va (pc + (s.length + 1)) l

theorem map_places (l : List (List (BitVec 8))) : (places va pc l).map Prod.snd = l := by
  induction l generalizing pc with
  | nil => rfl
  | cons s l ih =>
    change s :: _ = _
    rw [ih]

theorem length_places (l : List (List (BitVec 8))) : (places va pc l).length = l.length := by
  have h := congrArg List.length (@map_places pc va l)
  rwa [List.length_map] at h

/-- Every string of such a vector lies in the bytes they take together. -/
theorem mem_places {l : List (List (BitVec 8))} {e : ℕ × List (BitVec 8)}
    (h : e ∈ places va pc l) :
    ∃ x, e.1 = va x ∧ pc ≤ x ∧ x + e.2.length + 1 ≤ pc + size l := by
  induction l generalizing pc with
  | nil => cases h
  | cons s l ih =>
    have hsz : size (s :: l) = s.length + 1 + size l := rfl
    rcases List.mem_cons.mp h with rfl | h
    · exact ⟨pc, rfl, le_refl pc, by dsimp only; omega⟩
    · obtain ⟨x, h1, h2, h3⟩ := ih h
      exact ⟨x, h1, by omega, by omega⟩

theorem Laid.congr {l : List (List (BitVec 8))} (h : Laid m va pv pc l)
    (hv : ∀ y, pv ≤ y → y < pv + 4 * l.length → m'.byte y = m.byte y)
    (hc : ∀ y, pc ≤ y → y < pc + size l → m'.byte y = m.byte y) : Laid m' va pv pc l := by
  induction l generalizing pv pc with
  | nil => exact trivial
  | cons s l ih =>
    have hsz : size (s :: l) = s.length + 1 + size l := rfl
    rw [List.length_cons] at hv
    refine ⟨?_, h.2.1.congr fun y h1 h2 => hc y h1 (by omega), ih h.2.2
      (fun y h1 h2 => hv y (by omega) (by omega)) fun y h1 h2 => hc y (by omega) (by omega)⟩
    rw [get_congr fun y h1 h2 => hv y h1 (by omega)]
    exact h.1

/-! ### A view of plain memory -/

/-- The view shows the memory from `lo` to `hi`, its place `x` at the address `va x`. -/
structure Shows (v : View) (m : Mem) (lo hi : ℕ) (va : ℕ → ℕ) : Prop where
  byte : ∀ x, lo ≤ x → x < hi → v.byte (va x) = some (m.byte x)
  next : ∀ x n, lo ≤ x → x + n < hi → v.next (va x) n = va (x + n)

theorem Shows.number (h : Shows v m lo hi va) (h1 : lo ≤ x) (h2 : x + n ≤ hi) :
    v.number n (va x) = some (get m x n) := by
  induction n generalizing x with
  | zero => rfl
  | succ n ih =>
    have hrest : v.number n (v.next (va x) 1) = some (get m (x + 1) n) := by
      rcases Nat.eq_zero_or_pos n with rfl | hn
      · rfl
      · rw [h.next x 1 h1 (by omega)]
        exact ih (by omega) (by omega)
    change (v.byte (va x)).bind _ = _
    rw [h.byte x h1 (by omega), hrest]
    rfl

theorem Shows.str {s : List (BitVec 8)} (h : Shows v m lo hi va) (hs : (flat m).Str x s)
    (h1 : lo ≤ x) (h2 : x + s.length + 1 ≤ hi) : v.Str (va x) s := by
  induction s generalizing x with
  | nil => exact (h.byte x h1 (by omega)).trans hs
  | cons c s ih =>
    rw [List.length_cons] at h2
    refine ⟨(h.byte x h1 (by omega)).trans hs.1, hs.2.1, ?_⟩
    rw [h.next x 1 h1 (by omega)]
    exact ih hs.2.2 (by omega) (by omega)

/-- A vector laid out in memory and ended by a null pointer is found through the view. -/
theorem Shows.vec {l : List (List (BitVec 8))} (h : Shows v m lo hi va)
    (hva : ∀ x, lo ≤ x → x < hi → va x ≠ 0) (hl : Laid m va pv pc l)
    (h0 : get m (pv + 4 * l.length) 4 = 0) (h1 : lo ≤ pv) (h2 : pv + 4 * l.length + 4 ≤ hi)
    (h3 : lo ≤ pc) (h4 : pc + size l ≤ hi) : v.Vec (va pv) (places va pc l) := by
  induction l generalizing pv pc with
  | nil => exact (h.number h1 (by omega)).trans (congrArg some h0)
  | cons s l ih =>
    have hsz : size (s :: l) = s.length + 1 + size l := rfl
    rw [List.length_cons] at h0 h2
    obtain ⟨hp, hs, hl⟩ := hl
    refine ⟨(h.number h1 (by omega)).trans (congrArg some hp), hva pc h3 (by omega),
      h.str hs h3 (by omega), ?_⟩
    rw [h.next pv 4 h1 (by omega)]
    exact ih hl (by rw [← h0]; congr 1; omega) (by omega) (by omega) (by omega) (by omega)

end Coherent.Lib.Views
