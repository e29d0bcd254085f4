import Coherent.Compress

/-!
The codes in a compressed file: what `output` packs, `getcode` unpacks.

A block is what is written at once: eight codes of a width, fewer where the width changes behind
one of them or the file ends. `getcode` reads as many bytes as a whole block has.
-/

namespace Coherent.Compress

/-! ### Bits of a buffer -/

/-- Bit `j` of the bytes of a buffer. -/
def bit (buf : ℕ → ℕ) (j : ℕ) : Bool := (buf (j / 8)).testBit (j % 8)

lemma testBit_rmask {r : ℕ} (hr : r ≤ 8) (k : ℕ) :
    (rmask.getD r 0).testBit k = decide (k < r) := by
  have h : rmask.getD r 0 = 2 ^ r - 1 := by interval_cases r <;> rfl
  rw [h, Nat.testBit_two_pow_sub_one]

lemma testBit_lmask {r : ℕ} (hr : r ≤ 8) (k : ℕ) :
    (lmask.getD r 0).testBit k = decide (r ≤ k ∧ k < 8) := by
  have h : lmask.getD r 0 = (2 ^ (8 - r) - 1) <<< r := by interval_cases r <;> rfl
  rw [h, Nat.testBit_shiftLeft, Nat.testBit_two_pow_sub_one, ← Bool.decide_and]
  congr 1
  apply propext
  omega

section Put

variable {buf : ℕ → ℕ} {offset n_bits code i j : ℕ}

lemma put_below (hi : i < offset / 8) : put buf offset n_bits code i = buf i := by
  have h0 : i ≠ offset / 8 := by omega
  have h1 : i ≠ offset / 8 + 1 := by omega
  have h2 : i ≠ offset / 8 + 2 := by omega
  simp only [put]
  split_ifs <;> simp [Function.update_of_ne, h0, h1, h2]

lemma put_first : put buf offset n_bits code (offset / 8) =
    (buf (offset / 8) &&& rmask.getD (offset % 8) 0) |||
      ((code <<< (offset % 8)) &&& lmask.getD (offset % 8) 0) := by
  simp only [put]
  split_ifs <;> simp

lemma put_second (hn : 9 ≤ n_bits) : put buf offset n_bits code (offset / 8 + 1) =
    (code >>> (8 - offset % 8)) % 256 := by
  have h0 : n_bits - (8 - offset % 8) ≠ 0 := by omega
  simp only [put]
  split_ifs <;> simp

lemma put_third (hn : 16 < offset % 8 + n_bits) : put buf offset n_bits code (offset / 8 + 2) =
    ((code >>> (8 - offset % 8)) >>> 8) % 256 := by
  have h1 : n_bits - (8 - offset % 8) ≥ 8 := by omega
  have h0 : n_bits - (8 - offset % 8) - 8 ≠ 0 := by omega
  simp only [put, if_pos h1, if_pos h0, Function.update_self]

/-- What is in front of the code stays. -/
lemma bit_put_below (hj : j < offset) : bit (put buf offset n_bits code) j = bit buf j := by
  unfold bit
  rcases Nat.lt_or_ge (j / 8) (offset / 8) with h | h
  · rw [put_below h]
  · have he : j / 8 = offset / 8 := by omega
    have hlt : j % 8 < offset % 8 := by omega
    rw [he, put_first, Nat.testBit_or, Nat.testBit_and, Nat.testBit_and,
      testBit_rmask (by omega), testBit_lmask (by omega)]
    simp [hlt, Nat.not_le.mpr hlt]

/-- The bits of the code, the lowest first. -/
lemma bit_put (hn : 9 ≤ n_bits) (hn' : n_bits ≤ 16) (hj : offset ≤ j)
    (hj' : j < offset + n_bits) :
    bit (put buf offset n_bits code) j = code.testBit (j - offset) := by
  unfold bit
  have hr : offset % 8 < 8 := Nat.mod_lt _ (by norm_num)
  have hcases : j / 8 = offset / 8 ∨ j / 8 = offset / 8 + 1 ∨
      j / 8 = offset / 8 + 2 ∧ 16 < offset % 8 + n_bits := by omega
  rcases hcases with he | he | ⟨he, h16⟩
  · -- what of it goes to the byte that is begun
    have hle : offset % 8 ≤ j % 8 := by omega
    have hk : j % 8 - offset % 8 = j - offset := by omega
    rw [he, put_first, Nat.testBit_or, Nat.testBit_and, Nat.testBit_and,
      testBit_rmask (by omega), testBit_lmask (by omega), Nat.testBit_shiftLeft, hk]
    simp [hle, Nat.not_lt.mpr hle, Nat.mod_lt]
  · have hk : 8 - offset % 8 + j % 8 = j - offset := by omega
    rw [he, put_second hn, show (256 : ℕ) = 2 ^ 8 from rfl, Nat.testBit_mod_two_pow,
      Nat.testBit_shiftRight, hk]
    simp [Nat.mod_lt]
  · have hk : 8 - offset % 8 + (8 + j % 8) = j - offset := by omega
    rw [he, put_third h16, show (256 : ℕ) = 2 ^ 8 from rfl, Nat.testBit_mod_two_pow,
      Nat.testBit_shiftRight, Nat.testBit_shiftRight, hk]
    simp [Nat.mod_lt]

lemma or_and_lt_byte (x y : ℕ) {r : ℕ} (hr : r ≤ 8) :
    (x &&& rmask.getD r 0) ||| (y &&& lmask.getD r 0) < 256 := by
  refine Nat.or_lt_two_pow (n := 8) ?_ ?_
  · refine Nat.and_lt_two_pow x ?_
    interval_cases r <;> decide
  · refine Nat.and_lt_two_pow y ?_
    interval_cases r <;> decide

/-- A byte that has bits of codes in it is a byte. -/
lemma put_lt (hn : 9 ≤ n_bits) (hn' : n_bits ≤ 16) (hb : ∀ i, 8 * i < offset → buf i < 256)
    (hi : 8 * i < offset + n_bits) : put buf offset n_bits code i < 256 := by
  have hcases : i < offset / 8 ∨ i = offset / 8 ∨ i = offset / 8 + 1 ∨
      i = offset / 8 + 2 ∧ 16 < offset % 8 + n_bits := by omega
  rcases hcases with h | rfl | rfl | ⟨rfl, h16⟩
  · rw [put_below h]
    exact hb i (by omega)
  · rw [put_first]
    exact or_and_lt_byte _ _ (by omega)
  · rw [put_second hn]
    exact Nat.mod_lt _ (by norm_num)
  · rw [put_third h16]
    exact Nat.mod_lt _ (by norm_num)

end Put

section Get

variable {buf : ℕ → ℕ} {offset n_bits : ℕ}

lemma testBit_byte {x k : ℕ} (hx : x < 256) (hk : 8 ≤ k) : x.testBit k = false :=
  Nat.testBit_lt_two_pow (hx.trans_le (by
    calc 256 = 2 ^ 8 := by norm_num
      _ ≤ 2 ^ k := Nat.pow_le_pow_right (by norm_num) hk))

/-- `getcode` takes the bits from the place on. -/
lemma testBit_get (hn : 9 ≤ n_bits) (hn' : n_bits ≤ 16)
    (hb : ∀ i, 8 * i < offset + n_bits → buf i < 256) (k : ℕ) :
    (get buf offset n_bits).testBit k = (decide (k < n_bits) && bit buf (offset + k)) := by
  have hr : offset % 8 < 8 := Nat.mod_lt _ (by norm_num)
  have h0 : buf (offset / 8) < 256 := hb _ (by omega)
  -- the bits of the three bytes, where they come to lie
  have hfirst : (buf (offset / 8) >>> (offset % 8)).testBit k =
      (decide (k < 8 - offset % 8) && bit buf (offset + k)) := by
    rw [Nat.testBit_shiftRight]
    rcases Nat.lt_or_ge k (8 - offset % 8) with hk | hk
    · have he : (offset + k) / 8 = offset / 8 := by omega
      have hm : (offset + k) % 8 = offset % 8 + k := by omega
      simp [bit, he, hm, hk]
    · rw [testBit_byte h0 (by omega)]
      simp [Nat.not_lt.mpr hk]
  have hnext : ∀ m, m ≤ 8 → ∀ a, (a = 1 ∨ a = 2) →
      ((buf (offset / 8 + a) &&& rmask.getD m 0) <<< (8 * a - offset % 8)).testBit k =
      (decide (8 * a - offset % 8 ≤ k ∧ k < 8 * a - offset % 8 + m) && bit buf (offset + k)) := by
    intro m hm a ha
    rw [Nat.testBit_shiftLeft, Nat.testBit_and, testBit_rmask hm]
    by_cases hk : 8 * a - offset % 8 ≤ k ∧ k < 8 * a - offset % 8 + m
    · have he : (offset + k) / 8 = offset / 8 + a := by omega
      have hmod : (offset + k) % 8 = k - (8 * a - offset % 8) := by omega
      have hlt : k - (8 * a - offset % 8) < m := by omega
      simp [bit, he, hmod, hk, hlt]
    · rw [decide_eq_false hk]
      rcases Nat.lt_or_ge k (8 * a - offset % 8) with h | h
      · simp [Nat.not_le.mpr h]
      · have hge : ¬ k - (8 * a - offset % 8) < m := by omega
        simp [hge]
  simp only [get]
  split
  · -- a whole byte in the middle
    rename_i hbits
    have h1 : buf (offset / 8 + 1) < 256 := hb _ (by omega)
    have hmask : buf (offset / 8 + 1) &&& rmask.getD 8 0 = buf (offset / 8 + 1) := by
      change buf (offset / 8 + 1) &&& (2 ^ 8 - 1) = _
      rw [Nat.and_two_pow_sub_one_eq_mod]
      exact Nat.mod_eq_of_lt h1
    have hmid := hnext 8 (by omega) 1 (Or.inl rfl)
    rw [hmask, show 8 * 1 - offset % 8 = 8 - offset % 8 by omega] at hmid
    have hlast := hnext (n_bits - (8 - offset % 8) - 8) (by omega) 2 (Or.inr rfl)
    rw [show 8 * 2 - offset % 8 = 8 - offset % 8 + 8 by omega] at hlast
    rw [Nat.testBit_or, Nat.testBit_or, hfirst, hmid, hlast, ← Bool.and_or_distrib_right,
      ← Bool.and_or_distrib_right, ← Bool.decide_or, ← Bool.decide_or]
    congr 2
    apply propext
    omega
  · have hlast := hnext (n_bits - (8 - offset % 8)) (by omega) 1 (Or.inl rfl)
    rw [show 8 * 1 - offset % 8 = 8 - offset % 8 by omega] at hlast
    rw [Nat.testBit_or, hfirst, hlast, ← Bool.and_or_distrib_right, ← Bool.decide_or]
    congr 2
    apply propext
    omega

/-- **What was put is got.** -/
theorem get_eq {code : ℕ} (hn : 9 ≤ n_bits) (hn' : n_bits ≤ 16) (hc : code < 2 ^ n_bits)
    (hb : ∀ i, 8 * i < offset + n_bits → buf i < 256)
    (hbit : ∀ j, offset ≤ j → j < offset + n_bits → bit buf j = code.testBit (j - offset)) :
    get buf offset n_bits = code := by
  refine Nat.eq_of_testBit_eq fun k => ?_
  rw [testBit_get hn hn' hb]
  rcases Nat.lt_or_ge k n_bits with hk | hk
  · rw [hbit _ (by omega) (by omega), Nat.add_sub_cancel_left]
    simp [hk]
  · rw [Nat.testBit_lt_two_pow (hc.trans_le (Nat.pow_le_pow_right (by norm_num) hk))]
    simp [Nat.not_lt.mpr hk]

end Get

/-! ### Blocks -/

/-- A code in the file: its width, and whether the block is written behind it though it may have
room. -/
structure Item where
  code : ℕ
  width : ℕ
  flush : Bool

/-- The block that codes go into from a place on, when it is written, and its length. -/
def block (buf : ℕ → ℕ) (offset : ℕ) : List Item → (ℕ → ℕ) × ℕ
  | [] => (buf, (offset + 7) / 8)
  | a :: l =>
    if offset + a.width = 8 * a.width ∨ a.flush then
      (put buf offset a.width a.code, a.width)
    else block (put buf offset a.width a.code) (offset + a.width) l

/-- The blocks that come after it. -/
def behind (buf : ℕ → ℕ) (offset : ℕ) : List Item → List ℕ
  | [] => []
  | a :: l =>
    if offset + a.width = 8 * a.width ∨ a.flush then
      let b := block (put buf offset a.width a.code) 0 l
      bytes b.1 b.2 ++ behind (put buf offset a.width a.code) 0 l
    else behind (put buf offset a.width a.code) (offset + a.width) l

/-- What is still to be written of codes. -/
def pack (buf : ℕ → ℕ) (offset : ℕ) (l : List Item) : List ℕ :=
  bytes (block buf offset l).1 (block buf offset l).2 ++ behind buf offset l

/-- Codes that have the width that they are read with; it changes behind a block only. -/
def Steady : ℕ → List Item → Prop
  | _, [] => True
  | n, a :: l => a.width = n ∧ a.code < 2 ^ n ∧ 9 ≤ n ∧ n ≤ 16 ∧
      ∃ n', (a.flush = false → n' = n) ∧ Steady n' l

section Blocks

variable {buf : ℕ → ℕ} {n k i j : ℕ} {a : Item} {l : List Item}

@[simp] lemma length_bytes : (bytes buf n).length = n := by simp [bytes]

lemma pack_nil : pack buf 0 [] = [] := rfl

/-- The block ends behind a code. -/
lemma pack_cons_end (h : k + a.width = 8 * a.width ∨ a.flush) : pack buf k (a :: l) =
    bytes (put buf k a.width a.code) a.width ++ pack (put buf k a.width a.code) 0 l := by
  simp only [pack, block, behind, if_pos h]

lemma pack_cons_on (h : ¬ (k + a.width = 8 * a.width ∨ a.flush)) : pack buf k (a :: l) =
    pack (put buf k a.width a.code) (k + a.width) l := by
  simp only [pack, block, behind, if_neg h]

/-- What is in the block stays in it. -/
lemma bit_block (hj : j < k) : bit (block buf k l).1 j = bit buf j := by
  induction l generalizing buf k with
  | nil => rfl
  | cons a l ih =>
    simp only [block]
    split
    · exact bit_put_below hj
    · rw [ih (by omega), bit_put_below hj]

lemma block_lt (hs : Steady n l) (hb : ∀ i, 8 * i < k → buf i < 256) (hi : 8 * i < k) :
    (block buf k l).1 i < 256 := by
  induction l generalizing buf k n with
  | nil => exact hb i hi
  | cons a l ih =>
    obtain ⟨hw, -, h9, h16, n', -, hs'⟩ := hs
    have hput : ∀ i, 8 * i < k + a.width → put buf k a.width a.code i < 256 :=
      fun i hi => put_lt (hw ▸ h9) (hw ▸ h16) hb hi
    simp only [block]
    split
    · exact hput i (by omega)
    · exact ih hs' hput (by omega)

/-- Where the block goes on it has room for one more code. -/
lemma on_of_not_end (hk : k ≤ 7) (hnot : ¬ (k * a.width + a.width = 8 * a.width ∨ a.flush)) :
    a.flush = false ∧ k + 1 ≤ 7 := by
  refine ⟨?_, ?_⟩
  · cases h : a.flush
    · rfl
    · exact absurd (Or.inr h) hnot
  · by_contra hgt
    have h7 : k = 7 := by omega
    exact hnot (Or.inl (by rw [h7]; ring))

/-- A block that is shorter than eight codes is the last. -/
lemma block_length (hs : Steady n l) (hk : k ≤ 7) :
    (block buf (k * n) l).2 = n ∨
      (block buf (k * n) l).2 < n ∧ behind buf (k * n) l = [] := by
  induction l generalizing buf k n with
  | nil =>
    simp only [block, behind]
    rcases Nat.lt_or_ge ((k * n + 7) / 8) n with h | h
    · exact Or.inr ⟨h, trivial⟩
    · have h7 : k * n ≤ 7 * n := Nat.mul_le_mul_right n hk
      left
      omega
  | cons a l ih =>
    obtain ⟨rfl, -, h9, h16, n', hn', hs'⟩ := hs
    simp only [block, behind]
    split
    · exact Or.inl rfl
    · rename_i hnot
      obtain ⟨hfl, hk7⟩ := on_of_not_end hk hnot
      rw [hn' hfl] at hs'
      rw [← Nat.succ_mul]
      exact ih hs' hk7

/-- It has room for what is in it. -/
lemma le_block_length (hs : Steady n l) (hk : k ≤ 7) : k * n ≤ 8 * (block buf (k * n) l).2 := by
  induction l generalizing buf k n with
  | nil => simp only [block]; omega
  | cons a l ih =>
    obtain ⟨rfl, -, h9, h16, n', hn', hs'⟩ := hs
    simp only [block]
    split
    · exact Nat.mul_le_mul_right _ (by omega)
    · rename_i hnot
      obtain ⟨hfl, hk7⟩ := on_of_not_end hk hnot
      rw [hn' hfl] at hs'
      rw [← Nat.succ_mul]
      exact (Nat.mul_le_mul_right _ (by omega)).trans (ih hs' hk7)

/-- It has room for one that is to come. -/
lemma succ_le_block_length (hs : Steady n (a :: l)) (hk : k ≤ 7) :
    (k + 1) * n ≤ 8 * (block buf (k * n) (a :: l)).2 := by
  obtain ⟨rfl, -, h9, h16, n', hn', hs'⟩ := hs
  simp only [block]
  split
  · exact Nat.mul_le_mul_right _ (by omega)
  · rename_i hnot
    obtain ⟨hfl, hk7⟩ := on_of_not_end hk hnot
    rw [hn' hfl] at hs'
    rw [← Nat.succ_mul]
    exact le_block_length hs' hk7

end Blocks

/-! ### The writer and the reader -/

/-- The width and the greatest code after a code, with so many entries and a table that is cleared
or not. -/
def adjust (p : Params) (n_bits maxcode free_ent : ℕ) (clear : Bool) : ℕ × ℕ :=
  if clear then (INIT_BITS, MAXCODE INIT_BITS)
  else if free_ent > maxcode then widen p n_bits
  else (n_bits, maxcode)

/-- Whether the width changes now. -/
def stale (maxcode free_ent : ℕ) (clear : Bool) : Bool := clear || decide (free_ent > maxcode)

section Output

variable {p : Params} {s : Enc} {code : ℕ} {l : List Item}

/-- The code that `output` writes. -/
def Enc.item (s : Enc) (code : ℕ) : Item :=
  ⟨code, s.n_bits, stale s.maxcode s.free_ent s.clear_flg⟩

/-- What `output` leaves: the width for the next code, the codes so far in the file or in the
buffer. -/
lemma output_spec (hn : 0 < s.n_bits) (code : ℕ) : ∃ buf offset bytes_out out,
    output p s code = { s with
      n_bits := (adjust p s.n_bits s.maxcode s.free_ent s.clear_flg).1
      maxcode := (adjust p s.n_bits s.maxcode s.free_ent s.clear_flg).2
      clear_flg := false
      buf := buf, offset := offset, bytes_out := bytes_out, out := out } ∧
    ∀ l, out ++ pack buf offset l = s.out ++ pack s.buf s.offset (s.item code :: l) := by
  have hshift : s.n_bits <<< 3 = 8 * s.n_bits := by
    rw [Nat.shiftLeft_eq]
    ring
  by_cases hfl : s.free_ent > s.maxcode ∨ s.clear_flg
  · -- the block is written, full or not
    have hend : s.offset + (s.item code).width = 8 * (s.item code).width ∨ (s.item code).flush := by
      right
      simpa [Enc.item, stale, or_comm] using hfl
    refine ⟨put s.buf s.offset s.n_bits code, 0, long (s.bytes_out + s.n_bits),
      s.out ++ bytes (put s.buf s.offset s.n_bits code) s.n_bits, ?_, fun l => ?_⟩
    · by_cases hfull : s.offset + s.n_bits = 8 * s.n_bits
      · cases hc : s.clear_flg <;> simp_all [output, Enc.write, adjust]
      · have hpos : 0 < s.offset + s.n_bits := by omega
        cases hc : s.clear_flg <;> simp_all [output, Enc.write, adjust]
    · rw [pack_cons_end hend, List.append_assoc]
      rfl
  · have hclear : s.clear_flg = false := by
      cases hc : s.clear_flg
      · rfl
      · exact absurd (Or.inr hc) hfl
    have hfree : ¬ s.free_ent > s.maxcode := fun h => hfl (Or.inl h)
    have hflush : (s.item code).flush = false := by simp [Enc.item, stale, hclear, hfree]
    by_cases hfull : s.offset + s.n_bits = 8 * s.n_bits
    · refine ⟨put s.buf s.offset s.n_bits code, 0, long (s.bytes_out + s.n_bits),
        s.out ++ bytes (put s.buf s.offset s.n_bits code) s.n_bits, ?_, fun l => ?_⟩
      · simp [output, Enc.write, adjust, hshift, hfull, hclear, if_neg hfree]
      · rw [pack_cons_end (Or.inl hfull), List.append_assoc]
        rfl
    · refine ⟨put s.buf s.offset s.n_bits code, s.offset + s.n_bits, s.bytes_out, s.out, ?_,
        fun l => ?_⟩
      · simp [output, Enc.write, adjust, hshift, hfull, hclear, if_neg hfree]
      · have hon : ¬ (s.offset + (s.item code).width = 8 * (s.item code).width ∨
            (s.item code).flush) := by
          rw [hflush]
          simpa [Enc.item] using hfull
        rw [pack_cons_on hon]
        rfl

end Output

section Getcode

variable {p : Params} {d : Dec} {a : Item} {l : List Item}

/-- The buffer of the reader has the block that codes are in, from a place behind some of them
on. -/
structure Mid (buf : ℕ → ℕ) (d : Dec) (l : List Item) : Prop where
  place : ∃ k ≤ 7, d.offset = k * d.n_bits
  bytes : ∀ i, 8 * i < d.offset → buf i < 256
  agree : ∀ i < (block buf d.offset l).2, d.buf i = (block buf d.offset l).1 i
  size : d.size = 8 * (block buf d.offset l).2 - ((d.n_bits : ℤ) - 1)
  stdin : d.stdin = behind buf d.offset l

/-- The reader has these codes before it; whether a new block begins with them because of the
width. -/
def Feeds (flush : Bool) (d : Dec) (l : List Item) : Prop :=
  (flush ∨ (d.offset : ℤ) ≥ d.size) ∧ (∃ buf, d.stdin = pack buf 0 l) ∨
    flush = false ∧ (d.offset : ℤ) < d.size ∧ ∃ buf, Mid buf d l

/-- Only what `getcode` reads with counts. -/
lemma Feeds.congr {flush : Bool} {d' : Dec} (h : Feeds flush d l) (hn : d'.n_bits = d.n_bits)
    (hoff : d'.offset = d.offset) (hsize : d'.size = d.size) (hbuf : d'.buf = d.buf)
    (hin : d'.stdin = d.stdin) : Feeds flush d' l := by
  rcases h with ⟨h1, buf, h2⟩ | ⟨h1, h2, buf, hmid⟩
  · left
    rw [hoff, hsize, hin]
    exact ⟨h1, buf, h2⟩
  · right
    refine ⟨h1, by rw [hoff, hsize]; exact h2, buf, ?_, ?_, ?_, ?_, ?_⟩
    · rw [hoff, hn]
      exact hmid.place
    · rw [hoff]
      exact hmid.bytes
    · rw [hoff, hbuf]
      exact hmid.agree
    · rw [hsize, hoff, hn]
      exact hmid.size
    · rw [hin, hoff]
      exact hmid.stdin

/-- What is left when the code at the place has been taken. -/
lemma Mid.take {buf : ℕ → ℕ} (h : Mid buf d (a :: l)) (hs : Steady d.n_bits (a :: l)) :
    get d.buf d.offset d.n_bits = a.code ∧
      Feeds a.flush { d with offset := d.offset + d.n_bits } l := by
  obtain ⟨k, hk, hoff⟩ := h.place
  have hs' := hs
  obtain ⟨hw, hcode, h9, h16, n', hn', hsl⟩ := hs'
  have hput : ∀ i, 8 * i < d.offset + d.n_bits →
      put buf d.offset d.n_bits a.code i < 256 := fun i hi => put_lt h9 h16 h.bytes hi
  -- the block keeps the code
  have hblock : (∀ j < d.offset + d.n_bits, bit (block buf d.offset (a :: l)).1 j =
        bit (put buf d.offset d.n_bits a.code) j) ∧
      ∀ i, 8 * i < d.offset + d.n_bits → (block buf d.offset (a :: l)).1 i < 256 := by
    simp only [block, hw]
    split
    · exact ⟨fun j _ => rfl, hput⟩
    · rename_i hnot
      rw [hoff] at hnot
      obtain ⟨hfl, -⟩ := on_of_not_end hk (a := a) (by rwa [hw])
      rw [hn' hfl] at hsl
      exact ⟨fun j hj => bit_block hj, fun i hi => block_lt hsl hput hi⟩
  obtain ⟨hbit, hlt⟩ := hblock
  have hlen : d.offset + d.n_bits ≤ 8 * (block buf d.offset (a :: l)).2 := by
    rw [hoff, ← Nat.succ_mul]
    exact succ_le_block_length hs hk
  refine ⟨get_eq h9 h16 hcode (fun i hi => ?_) (fun j hj hj' => ?_), ?_⟩
  · rw [h.agree i (by omega)]
    exact hlt i hi
  · rw [bit, h.agree _ (by omega), ← bit_put h9 h16 hj hj', ← hbit j hj', bit]
  · by_cases hend : d.offset + a.width = 8 * a.width ∨ a.flush
    · -- the block is used up, or the width changes
      left
      refine ⟨?_, put buf d.offset a.width a.code, ?_⟩
      · rcases hend with hfull | hfl
        · right
          have hb : (block buf d.offset (a :: l)).2 = a.width := by
            simp only [block, if_pos (Or.inl hfull)]
          have hsz := h.size
          rw [hb] at hsz
          simp only [hsz]
          omega
        · exact Or.inl hfl
      · rw [h.stdin]
        simp only [behind, if_pos hend]
        rfl
    · obtain ⟨hfl, hk7⟩ := on_of_not_end hk (a := a) (by rwa [hw, ← hoff, ← hw])
      rw [hn' hfl] at hsl
      have hb : block buf d.offset (a :: l) =
          block (put buf d.offset a.width a.code) (d.offset + a.width) l := by
        simp only [block, if_neg hend]
      have hbe : behind buf d.offset (a :: l) =
          behind (put buf d.offset a.width a.code) (d.offset + a.width) l := by
        simp only [behind, if_neg hend]
      rw [hw] at hb hbe
      have hagree := h.agree
      have hsz := h.size
      rw [hb] at hagree hsz
      cases l with
      | nil =>
        -- no code is left of the last block
        left
        refine ⟨Or.inr ?_, buf, ?_⟩
        · simp only [block] at hsz
          simp only [hsz]
          omega
        · rw [h.stdin, hbe]
          rfl
      | cons b l =>
        right
        refine ⟨hfl, ?_, put buf d.offset d.n_bits a.code, ⟨k + 1, hk7, ?_⟩, hput, hagree, hsz, ?_⟩
        · have hnext := @succ_le_block_length (put buf d.offset d.n_bits a.code) _ _ _ _ hsl hk7
          rw [Nat.succ_mul, Nat.succ_mul, ← hoff] at hnext
          simp only [hsz]
          omega
        · simp only [hoff]
          ring
        · rw [← hbe]
          exact h.stdin

/-- `getcode` that reads a block. -/
lemma getcode_refill
    (h : stale d.maxcode d.free_ent d.clear_flg ∨ (d.offset : ℤ) ≥ d.size) :
    getcode p d =
      let w := adjust p d.n_bits d.maxcode d.free_ent d.clear_flg
      let t := d.stdin.take w.1
      let d := { d with
        n_bits := w.1, maxcode := w.2, clear_flg := false
        buf := overlay d.buf t, stdin := d.stdin.drop w.1 }
      if t.length = 0 then (none, { d with size := 0 })
      else (some (get d.buf 0 d.n_bits),
        { d with
          size := ((t.length <<< 3 : ℕ) : ℤ) - ((d.n_bits : ℤ) - 1)
          offset := d.n_bits }) := by
  have hcond : d.clear_flg ∨ (d.offset : ℤ) ≥ d.size ∨ d.free_ent > d.maxcode := by
    simp only [stale, Bool.or_eq_true, decide_eq_true_eq] at h
    tauto
  simp only [getcode, if_pos hcond]
  by_cases hfree : d.free_ent > d.maxcode <;> cases hclear : d.clear_flg <;>
    simp [adjust, hfree, hclear]

lemma overlay_append {buf : ℕ → ℕ} {t : List ℕ} {i : ℕ} (hi : i < t.length) :
    overlay buf t i = t[i] := by
  simp [overlay, hi]

/-- **The next code is read**, with the width that it was written with. -/
theorem getcode_cons (hf : Feeds (stale d.maxcode d.free_ent d.clear_flg) d (a :: l))
    (hs : Steady (adjust p d.n_bits d.maxcode d.free_ent d.clear_flg).1 (a :: l)) :
    ∃ offset size buf stdin,
      getcode p d = (some a.code, { d with
        n_bits := (adjust p d.n_bits d.maxcode d.free_ent d.clear_flg).1
        maxcode := (adjust p d.n_bits d.maxcode d.free_ent d.clear_flg).2
        clear_flg := false
        offset := offset, size := size, buf := buf, stdin := stdin }) ∧
      Feeds a.flush { d with
        n_bits := (adjust p d.n_bits d.maxcode d.free_ent d.clear_flg).1
        maxcode := (adjust p d.n_bits d.maxcode d.free_ent d.clear_flg).2
        clear_flg := false
        offset := offset, size := size, buf := buf, stdin := stdin } l := by
  rcases hf with ⟨hfl, buf, hin⟩ | ⟨hfl, hlt, buf, hmid⟩
  · -- a new block
    rw [getcode_refill hfl]
    obtain ⟨w, hw⟩ : ∃ w, w = adjust p d.n_bits d.maxcode d.free_ent d.clear_flg := ⟨_, rfl⟩
    rw [← hw] at hs ⊢
    have hlen : (0 + 1) * w.1 ≤ 8 * (block buf (0 * w.1) (a :: l)).2 :=
      succ_le_block_length hs (by omega)
    have h9 : 9 ≤ w.1 := hs.2.2.1
    have hsplit : d.stdin.take w.1 = bytes (block buf 0 (a :: l)).1 (block buf 0 (a :: l)).2 ∧
        d.stdin.drop w.1 = behind buf 0 (a :: l) := by
      rw [hin, pack]
      have hb : (block buf (0 * w.1) (a :: l)).2 = w.1 ∨ (block buf (0 * w.1) (a :: l)).2 < w.1 ∧
          behind buf (0 * w.1) (a :: l) = [] := block_length hs (by omega)
      rw [Nat.zero_mul] at hb
      rcases hb with hb | ⟨hb, hnil⟩
      · exact ⟨List.take_left' (by rw [length_bytes, hb]),
          List.drop_left' (by rw [length_bytes, hb])⟩
      · rw [hnil, List.append_nil]
        exact ⟨List.take_of_length_le (by rw [length_bytes]; omega),
          List.drop_of_length_le (by rw [length_bytes]; omega)⟩
    obtain ⟨htake, hdrop⟩ := hsplit
    rw [Nat.zero_mul] at hlen
    simp only [htake, hdrop, length_bytes]
    rw [if_neg (by omega)]
    have hmid : Mid buf { d with
        n_bits := w.1, maxcode := w.2, clear_flg := false, offset := 0
        size := ((((block buf 0 (a :: l)).2 <<< 3 : ℕ)) : ℤ) - ((w.1 : ℤ) - 1)
        buf := overlay d.buf (bytes (block buf 0 (a :: l)).1 (block buf 0 (a :: l)).2)
        stdin := behind buf 0 (a :: l) } (a :: l) := by
      refine ⟨⟨0, by omega, by simp⟩, fun i hi => absurd hi (by simp), fun i hi => ?_, ?_, rfl⟩
      · simp only
        rw [overlay_append (by rwa [length_bytes])]
        simp [bytes]
      · simp only [Nat.shiftLeft_eq]
        push_cast
        ring
    obtain ⟨hget, hnext⟩ := hmid.take hs
    simp only [Nat.zero_add] at hget hnext
    exact ⟨_, _, _, _, by rw [hget], hnext⟩
  · have hcond : ¬ (d.clear_flg ∨ (d.offset : ℤ) ≥ d.size ∨ d.free_ent > d.maxcode) := by
      simp only [stale, Bool.or_eq_false_iff, decide_eq_false_iff_not] at hfl
      rintro (h | h | h)
      · exact absurd h (by simp [hfl.1])
      · omega
      · exact hfl.2 h
    have hstay : adjust p d.n_bits d.maxcode d.free_ent d.clear_flg = (d.n_bits, d.maxcode) := by
      simp only [stale, Bool.or_eq_false_iff, decide_eq_false_iff_not] at hfl
      simp [adjust, hfl.1, if_neg hfl.2]
    have hclear : d.clear_flg = false := by
      simp only [stale, Bool.or_eq_false_iff] at hfl
      exact hfl.1
    rw [hstay] at hs ⊢
    obtain ⟨hget, hnext⟩ := hmid.take hs
    refine ⟨d.offset + d.n_bits, d.size, d.buf, d.stdin, ?_, ?_⟩
    · simp only [getcode, if_neg hcond, hget]
      rw [← hclear]
    · rw [← hclear]
      exact hnext

/-- Behind the last code is the end of the file. -/
theorem getcode_nil (hn : 9 ≤ d.n_bits)
    (hf : Feeds (stale d.maxcode d.free_ent d.clear_flg) d []) :
    (getcode p d).1 = none ∧ (getcode p d).2.out = d.out := by
  rcases hf with ⟨hfl, buf, hin⟩ | ⟨hfl, hlt, buf, hmid⟩
  · rw [getcode_refill hfl, hin]
    simp [pack_nil]
  · -- there is no room for a code in what is left of the block
    have hsz := hmid.size
    simp only [block] at hsz
    omega

end Getcode

end Coherent.Compress
