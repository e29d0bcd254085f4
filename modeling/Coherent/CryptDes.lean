import Coherent.Crypt

/-!
What `encrypt`, `setkey` and `crypt` do: decryption undoes encryption for every key and every table,
the key schedule that passwords have always been made with, and passwords that are what `login`
wants to see.
-/

namespace Coherent.Crypt

open Lib.Feistel

/-! ### Permutations -/

section Permute

variable {l p q : List ℕ} {n : ℕ}

@[simp] lemma length_permute : (permute l p).length = p.length := by simp [permute]

lemma getD_permute {k : ℕ} (hk : k < p.length) :
    (permute l p).getD k 0 = l.getD (p.getD k 0) 0 := by
  simp [permute, List.getD_eq_getElem?_getD, hk]

/-- A permutation that is followed by its inverse. -/
lemma permute_permute (hl : l.length = n) (hq : ∀ k ∈ q, k < p.length)
    (hpq : q.map (fun k => p.getD k 0) = List.range n) : permute (permute l p) q = l := by
  have hstep : permute (permute l p) q = permute l (q.map fun k => p.getD k 0) := by
    simp only [permute, List.map_map]
    refine List.map_congr_left fun k hk => ?_
    exact getD_permute (hq k hk)
  rw [hstep, hpq, ← hl]
  refine List.ext_getElem (by simp) fun i h1 h2 => ?_
  simp [permute, List.getD_eq_getElem?_getD, h2]

/-- Only the bits that the table names count. -/
lemma permute_append (hp : ∀ k ∈ p, k < l.length) (t : List ℕ) :
    permute (l ++ t) p = permute l p := by
  refine List.map_congr_left fun k hk => ?_
  rw [List.getD_eq_getElem?_getD, List.getD_eq_getElem?_getD, List.getElem?_append_left (hp k hk)]

end Permute

/-! ### Encryption -/

section Cypher

variable {E : List ℕ} {Ki : List (List ℕ)} {a b : List ℕ}

lemma length_m2add : (m2add a b).length = min a.length b.length := by simp [m2add]

/-- What has been added twice is gone. -/
lemma m2add_cancel (h : a.length = b.length) : m2add b (m2add b a) = a := by
  refine List.ext_getElem (by simp [m2add, h]) fun i h1 h2 => ?_
  simp [m2add, ← Nat.xor_assoc]

lemma length_f (Ki right : List ℕ) : (f E Ki right).length = NIB / 2 := by
  rw [f, length_permute]
  rfl

/-- The iterations, with the keys in one order or the other. -/
def iterations (E : List ℕ) (Ki : List (List ℕ)) (edflag : Bool) : List (List ℕ → List ℕ) :=
  (List.range NITER).map fun n => f E (Ki.getD (if edflag then NITER - 1 - n else n) [])

lemma iterations_not (edflag : Bool) :
    iterations E Ki (!edflag) = (iterations E Ki edflag).reverse := by
  cases edflag <;> rfl

lemma iterations_mix {edflag : Bool} {g : List ℕ → List ℕ} (hg : g ∈ iterations E Ki edflag) :
    Mixes (fun a c => m2add c a) (fun l => l.length = NIB / 2) g := by
  obtain ⟨n, -, rfl⟩ := List.mem_map.mp hg
  refine ⟨fun a b ha _ => ?_, fun a b ha _ => m2add_cancel ?_⟩
  · rw [length_m2add, length_f, ha, min_self]
  · rw [length_f, ha]

/-- `cypher` is a Feistel network whose halves change places at the end. -/
lemma cypher_eq (ibits : List ℕ) (edflag : Bool) : cypher E Ki ibits edflag =
    let b := (rounds (fun a c => m2add c a) (iterations E Ki edflag)
      (ibits.take (NIB / 2), ibits.drop (NIB / 2))).swap
    b.1 ++ b.2 := by
  simp only [cypher, rounds, iterations, List.foldl_map]
  rfl

lemma cypher_cypher {ibits : List ℕ} (h : ibits.length = NIB) (edflag : Bool) :
    cypher E Ki (cypher E Ki ibits edflag) (!edflag) = ibits ∧
      (cypher E Ki ibits edflag).length = NIB := by
  have hmix : ∀ g ∈ iterations E Ki edflag,
      Mixes (fun a c => m2add c a) (fun l => l.length = NIB / 2) g := fun g hg => iterations_mix hg
  have hb : (ibits.take (NIB / 2)).length = NIB / 2 ∧ (ibits.drop (NIB / 2)).length = NIB / 2 := by
    simp [h, NIB]
  obtain ⟨h1, h2⟩ := rounds_good hmix (b := (ibits.take (NIB / 2), ibits.drop (NIB / 2))) hb
  have hundo := rounds_reverse_swap hmix (b := (ibits.take (NIB / 2), ibits.drop (NIB / 2))) hb
  refine ⟨?_, ?_⟩
  · rw [cypher_eq ibits, cypher_eq, iterations_not]
    simp only [Prod.fst_swap, Prod.snd_swap]
    rw [List.take_left' h2, List.drop_left' h2]
    rw [Prod.swap] at hundo
    rw [hundo]
    exact List.take_append_drop _ _
  · rw [cypher_eq]
    simp only [Prod.fst_swap, Prod.snd_swap, List.length_append, h1, h2]
    rfl

/-- **Decryption undoes encryption, and encryption decryption**, whatever the keys and the table `E`
are. -/
theorem encrypt_encrypt (E : List ℕ) (Ki : List (List ℕ)) {block : List ℕ}
    (h : block.length = NIB) (edflag : Bool) :
    encrypt E Ki (encrypt E Ki block edflag) (!edflag) = block := by
  obtain ⟨h1, h2⟩ := @cypher_cypher E Ki (permute block IP)
    (by rw [length_permute]; rfl) edflag
  simp only [encrypt]
  rw [permute_permute (n := NIB) h2 (by decide) (by decide), h1,
    permute_permute (n := NIB) h (by decide) (by decide)]

/-- A block with one bit set. -/
theorem encrypt_encrypt_one : encrypt saveE (setkey (List.replicate 64 1) (List.replicate 28 0)).1
    (encrypt saveE (setkey (List.replicate 64 1) (List.replicate 28 0)).1
      (1 :: List.replicate 63 0) false) true = 1 :: List.replicate 63 0 :=
  encrypt_encrypt _ _ (by decide) false

end Cypher

/-! ### The key schedule -/

section Setkey

/-- What the loop of `lrot` does to the bytes that it moves. -/
lemma shiftDown_append (a b c : List ℕ) (x : ℕ) : ∃ y,
    shiftDown (a ++ x :: b ++ c) a.length b.length = a ++ b ++ y :: c := by
  induction b generalizing a x with
  | nil => exact ⟨x, by simp [shiftDown]⟩
  | cons z b ih =>
    obtain ⟨y, hy⟩ := ih (a ++ [z]) z
    refine ⟨y, ?_⟩
    have hget : (a ++ x :: (z :: b) ++ c).getD (a.length + 1) 0 = z := by
      simp [List.getD_eq_getElem?_getD]
    have hset : (a ++ x :: (z :: b) ++ c).set a.length z = a ++ [z] ++ z :: b ++ c := by
      simp
    rw [List.length_cons, shiftDown, hget, hset]
    rw [List.length_append, List.length_singleton] at hy
    rw [hy]
    simp

/-- A place of `lrot` is a place of a rotation of the bytes. -/
lemma lrot1_append (a b c : List ℕ) (hb : b ≠ []) :
    lrot1 a.length b.length (a ++ b ++ c) = a ++ b.rotate 1 ++ c := by
  obtain ⟨x, b, rfl⟩ := List.exists_cons_of_ne_nil hb
  obtain ⟨y, hy⟩ := shiftDown_append a b c x
  have hget : (a ++ x :: b ++ c).getD a.length 0 = x := by
    simp [List.getD_eq_getElem?_getD]
  simp only [lrot1, List.length_cons, Nat.add_sub_cancel, hget]
  rw [hy]
  have hset : (a ++ b ++ y :: c).set (a.length + b.length) x = a ++ b ++ x :: c := by
    rw [← List.length_append]
    simp
  rw [hset]
  simp

lemma lrot_append (a b c : List ℕ) (hb : b ≠ []) (ns : ℕ) :
    lrot (a ++ b ++ c) a.length ns b.length = a ++ b.rotate ns ++ c := by
  unfold lrot
  induction ns with
  | zero => simp
  | succ ns ih =>
    have hlen : b.length = (b.rotate ns).length := by simp
    rw [Function.iterate_succ_apply', ih, hlen, lrot1_append _ _ _ (by simpa using hb),
      List.rotate_rotate]

/-- The places by which the left half is rotated before a key is chosen. -/
def turned (n : ℕ) : ℕ := (shifts.take n).sum

lemma turned_succ {n : ℕ} (hn : n < NITER) : turned (n + 1) = turned n + shifts.getD n 0 := by
  have hall : ∀ n < NITER, turned (n + 1) = turned n + shifts.getD n 0 := by decide
  exact hall n hn

lemma lt_of_mem_PC2 : ∀ k ∈ PC2, k < NUKB := by decide

lemma rotate_of_length {l : List ℕ} {n : ℕ} (h : l.length = n) : l.rotate n = l := by
  rw [← h, List.rotate_length]

/-- **The key schedule**: the right half of the key is never rotated; what is, lies behind the array
and has been turned once around in the end. -/
theorem setkey_spec (key above : List ℕ) (h : NUKB / 2 ≤ above.length) :
    setkey key above =
      ((List.range NITER).map fun n =>
        permute (((permute key PC1).take (NUKB / 2)).rotate (turned (n + 1)) ++
          (permute key PC1).drop (NUKB / 2)) PC2,
      permute key PC1 ++ above) := by
  obtain ⟨cd, hcd⟩ : ∃ cd, cd = permute key PC1 := ⟨_, rfl⟩
  have hlen : cd.length = NUKB := by rw [hcd, length_permute]; rfl
  have hC : (cd.take (NUKB / 2)).length = NUKB / 2 := by simp [hlen, NUKB]
  have hD : (cd.drop (NUKB / 2)).length = NUKB / 2 := by simp [hlen, NUKB]
  have hU : (above.take (NUKB / 2)).length = NUKB / 2 := by
    rw [List.length_take]
    omega
  have hne : ∀ l : List ℕ, l.length = NUKB / 2 → ∀ k, l.rotate k ≠ [] := by
    intro l hl k he
    have := congrArg List.length he
    rw [List.length_rotate, hl] at this
    simp [NUKB] at this
  -- after some turns: both regions are rotated, the right half is as it was
  have hrun : ∀ n ≤ NITER, (List.range n).foldl setkeyStep ([], cd ++ above) =
      ((List.range n).map fun n =>
        permute ((cd.take (NUKB / 2)).rotate (turned (n + 1)) ++ cd.drop (NUKB / 2)) PC2,
      (cd.take (NUKB / 2)).rotate (turned n) ++ cd.drop (NUKB / 2) ++
        (above.take (NUKB / 2)).rotate (turned n) ++ above.drop (NUKB / 2)) := by
    intro n hn
    induction n with
    | zero => simp [turned]
    | succ n ih =>
      rw [List.range_succ, List.foldl_append, ih (by omega), List.map_append, List.foldl_cons,
        List.foldl_nil, turned_succ (by omega)]
      have hfirst := lrot_append [] ((cd.take (NUKB / 2)).rotate (turned n))
        (cd.drop (NUKB / 2) ++ ((above.take (NUKB / 2)).rotate (turned n) ++
          above.drop (NUKB / 2))) (hne _ hC _) (shifts.getD n 0)
      have hsecond := lrot_append
        ((cd.take (NUKB / 2)).rotate (turned n + shifts.getD n 0) ++ cd.drop (NUKB / 2))
        ((above.take (NUKB / 2)).rotate (turned n)) (above.drop (NUKB / 2)) (hne _ hU _)
        (shifts.getD n 0)
      simp only [List.nil_append, List.length_nil, List.length_rotate, List.length_append, hC, hD,
        hU, List.rotate_rotate, List.append_assoc] at hfirst hsecond
      have h56 : NUKB / 2 + NUKB / 2 = NUKB := rfl
      rw [h56] at hsecond
      have hperm : permute ((cd.take (NUKB / 2)).rotate (turned n + shifts.getD n 0) ++
          (cd.drop (NUKB / 2) ++ ((above.take (NUKB / 2)).rotate (turned n + shifts.getD n 0) ++
            above.drop (NUKB / 2)))) PC2 =
          permute ((cd.take (NUKB / 2)).rotate (turned n + shifts.getD n 0) ++
            cd.drop (NUKB / 2)) PC2 := by
        rw [← List.append_assoc]
        refine permute_append (fun k hk => ?_) _
        rw [List.length_append, List.length_rotate, hC, hD]
        exact lt_of_mem_PC2 k hk
      simp only [setkeyStep, List.append_assoc, Ci, Di, hfirst, hsecond, hperm, List.map_cons,
        List.map_nil, turned_succ (show n < NITER by omega)]
  have hend : turned NITER = NUKB / 2 := by decide
  rw [setkey, ← hcd, hrun NITER le_rfl, hend]
  rw [rotate_of_length hC, rotate_of_length hU, List.take_append_drop, List.append_assoc,
    List.take_append_drop]

theorem setkey_spec_ones : (setkey (List.replicate 64 1) (List.range 28)).2 =
    permute (List.replicate 64 1) PC1 ++ List.range 28 :=
  congrArg Prod.snd (setkey_spec (List.replicate 64 1) (List.range 28) (by decide))

end Setkey

/-! ### Passwords -/

section Password

/-- A list of bits. -/
def Bits (l : List ℕ) : Prop := ∀ b ∈ l, b ≤ 1

variable {l p E : List ℕ} {Ki : List (List ℕ)}

lemma Bits.getD (h : Bits l) (k : ℕ) : l.getD k 0 ≤ 1 := by
  rcases Nat.lt_or_ge k l.length with hk | hk
  · rw [List.getD_eq_getElem?_getD, List.getElem?_eq_getElem hk]
    exact h _ (List.getElem_mem hk)
  · rw [List.getD_eq_getElem?_getD, List.getElem?_eq_none hk]
    exact Nat.zero_le _

lemma Bits.permute (h : Bits l) (p : List ℕ) : Bits (permute l p) := by
  intro b hb
  obtain ⟨k, -, rfl⟩ := List.mem_map.mp hb
  exact h.getD k

lemma Bits.m2add {a b : List ℕ} (ha : Bits a) (hb : Bits b) : Bits (m2add a b) := by
  intro x hx
  obtain ⟨i, hi, rfl⟩ := List.getElem_of_mem hx
  rw [length_m2add] at hi
  have h1 := ha _ (List.getElem_mem (show i < a.length by omega))
  have h2 := hb _ (List.getElem_mem (show i < b.length by omega))
  simp only [Crypt.m2add, List.getElem_zipWith]
  exact Nat.le_of_lt_succ (Nat.xor_lt_two_pow (n := 1) (by omega) (by omega))

lemma bits_outbits (tempout n : ℕ) : Bits (outbits tempout n).1 := by
  induction n generalizing tempout with
  | zero => simp [outbits, Bits]
  | succ n ih =>
    intro b hb
    simp only [outbits, List.mem_cons] at hb
    rcases hb with rfl | hb
    · omega
    · exact ih _ b hb

lemma bits_boxes (bs : List (List (List ℕ))) (tempout : ℕ) (l : List ℕ) :
    Bits (boxes bs tempout l) := by
  induction bs generalizing tempout l with
  | nil => simp [boxes, Bits]
  | cons box rest ih =>
    match l with
    | b0 :: b1 :: b2 :: b3 :: b4 :: b5 :: ibits =>
      intro b hb
      simp only [boxes, List.mem_append] at hb
      rcases hb with hb | hb
      · exact bits_outbits _ _ b hb
      · exact ih _ _ b hb
    | [] | [_] | [_, _] | [_, _, _] | [_, _, _, _] | [_, _, _, _, _] => simp [boxes, Bits]

/-- A block of bits stays one. -/
lemma Bits.encrypt (h : Bits l) (edflag : Bool) : Bits (encrypt E Ki l edflag) := by
  refine Bits.permute ?_ _
  have hrun : ∀ (ns : List ℕ) (b : List ℕ × List ℕ), Bits b.1 → Bits b.2 →
      Bits (ns.foldl (fun b n =>
        let i := if edflag then NITER - 1 - n else n
        (b.2, Crypt.m2add (f E (Ki.getD i []) b.2) b.1)) b).1 ∧
      Bits (ns.foldl (fun b n =>
        let i := if edflag then NITER - 1 - n else n
        (b.2, Crypt.m2add (f E (Ki.getD i []) b.2) b.1)) b).2 := by
    intro ns
    induction ns with
    | nil => exact fun b h1 h2 => ⟨h1, h2⟩
    | cons n ns ih =>
      exact fun b h1 h2 => ih _ h2 (Bits.m2add ((bits_boxes _ _ _).permute P) h1)
  have hl := h.permute IP
  obtain ⟨h1, h2⟩ := hrun (List.range NITER)
    ((Crypt.permute l IP).take (NIB / 2), (Crypt.permute l IP).drop (NIB / 2))
    (fun b hb => hl b (List.mem_of_mem_take hb)) (fun b hb => hl b (List.mem_of_mem_drop hb))
  intro b hb
  rcases List.mem_append.mp hb with hb | hb
  · exact h2 b hb
  · exact h1 b hb

lemma length_encrypt (l : List ℕ) (edflag : Bool) : (encrypt E Ki l edflag).length = NIB := by
  rw [encrypt, length_permute]
  rfl

/-- Six bits are a character of the small set, and what is left over is one, too. -/
lemma sixbits_spec (hl : Bits l) (i sixbit : ℕ) (h : sixbit < 2 ^ (i % 6)) :
    (∀ c ∈ sixbits i sixbit l, c ∈ maptab) ∧
      (sixbits i sixbit l).length = (i % 6 + l.length) / 6 + 1 := by
  have hmap : ∀ k < 64, maptab.getD k 0 ∈ maptab := by decide +kernel
  induction l generalizing i sixbit with
  | nil =>
    have h64 : sixbit < 64 := h.trans_le (by
      calc 2 ^ (i % 6) ≤ 2 ^ 6 := Nat.pow_le_pow_right (by norm_num) (by omega)
        _ = 64 := by norm_num)
    refine ⟨?_, ?_⟩
    · simpa [sixbits] using hmap _ h64
    · simp only [sixbits, List.length_singleton, List.length_nil]
      omega
  | cons b l ih =>
    have hb : b ≤ 1 := hl b (by simp)
    have hl' : Bits l := fun b hb => hl b (by simp [hb])
    simp only [sixbits]
    split
    · -- a character is complete
      rename_i h5
      have hnext : (i + 1) % 6 = 0 := by omega
      obtain ⟨h1, h2⟩ := ih hl' (i + 1) 0 (by positivity)
      rw [h5] at h
      refine ⟨fun c hc => ?_, ?_⟩
      · rcases List.mem_cons.mp hc with rfl | hc
        · exact hmap _ (by norm_num at h; omega)
        · exact h1 c hc
      · rw [List.length_cons, h2, hnext, List.length_cons]
        omega
    · rename_i h5
      have hnext : (i + 1) % 6 = i % 6 + 1 := by omega
      obtain ⟨h1, h2⟩ := ih hl' (i + 1) (sixbit * 2 + b) (by
        rw [hnext, pow_succ]
        omega)
      refine ⟨h1, ?_⟩
      rw [h2, hnext, List.length_cons]
      congr 2
      omega

/-- What is left of the bytes in place of which bits are put, from the last one down. -/
lemma unpackLoop_spec (orig : ℕ → ℕ) (i byte : ℕ) (mem : List ℕ) (hi : i ≤ mem.length)
    (hmem : ∀ k < i, mem.getD k 0 = orig k)
    (hbyte : i % 8 ≠ 0 → byte = orig (i / 8) / 2 ^ (8 - i % 8)) :
    (unpackLoop i (i / 8) byte mem).length = mem.length ∧
      ∀ k, (unpackLoop i (i / 8) byte mem).getD k 0 =
        if k < i then orig (k / 8) / 2 ^ (7 - k % 8) % 2 else mem.getD k 0 := by
  induction i generalizing byte mem with
  | zero => simp [unpackLoop]
  | succ i ih =>
    -- the byte that bit `i` is in, shifted so that this bit is its lowest
    have hbp : (if (i + 1) % NBPC = 0 then (i + 1) / 8 - 1 else (i + 1) / 8) = i / 8 := by
      split_ifs with h0 <;> simp only [NBPC] at h0 <;> omega
    have hcur : (if (i + 1) % NBPC = 0 then mem.getD ((i + 1) / 8 - 1) 0 else byte) =
        orig (i / 8) / 2 ^ (7 - i % 8) := by
      split_ifs with h0 <;> simp only [NBPC] at h0
      · have h7 : 7 - i % 8 = 0 := by omega
        have h8 : (i + 1) / 8 - 1 = i / 8 := by omega
        rw [h7, h8, pow_zero, Nat.div_one]
        exact hmem _ (by omega)
      · have h7 : 8 - (i + 1) % 8 = 7 - i % 8 := by omega
        have h8 : (i + 1) / 8 = i / 8 := by omega
        rw [hbyte h0, h7, h8]
    simp only [unpackLoop, hbp, hcur]
    obtain ⟨h1, h2⟩ := ih (orig (i / 8) / 2 ^ (7 - i % 8) / 2)
      (mem.set i (orig (i / 8) / 2 ^ (7 - i % 8) % 2)) (by rw [List.length_set]; omega)
      (fun k hk => by
        rw [List.getD_eq_getElem?_getD, List.getElem?_set_ne (by omega),
          ← List.getD_eq_getElem?_getD]
        exact hmem k (by omega))
      (fun h0 => by
        have h8 : 8 - i % 8 = 7 - i % 8 + 1 := by omega
        rw [h8, pow_succ, Nat.div_div_eq_div_mul])
    refine ⟨by rw [h1, List.length_set], fun k => ?_⟩
    rw [h2 k]
    rcases lt_trichotomy k i with hk | rfl | hk
    · rw [if_pos hk, if_pos (by omega)]
    · rw [if_neg (by omega), if_pos (by omega), List.getD_eq_getElem?_getD,
        List.getElem?_set_self (by omega)]
      rfl
    · rw [if_neg (by omega), if_neg (by omega), List.getD_eq_getElem?_getD,
        List.getElem?_set_ne (by omega), ← List.getD_eq_getElem?_getD]

/-- The bits of eight bytes, the highest of each first; what is behind the bytes does not count. -/
lemma unpack_eq {bytes : List ℕ} (h : bytes.length = NKB) :
    unpack bytes NKB =
      (List.range NKB).map fun k => bytes.getD (k / 8) 0 / 2 ^ (7 - k % 8) % 2 := by
  obtain ⟨h1, h2⟩ := unpackLoop_spec (fun k => bytes.getD k 0) NKB 0 bytes
    h.ge (fun k _ => rfl) (fun h0 => absurd rfl h0)
  have hbp : (NKB + NBPC - 1) / NBPC = NKB / 8 := by decide
  rw [← hbp, ← unpack] at h1
  refine List.ext_getElem ?_ fun k hk hk' => ?_
  · rw [List.length_map, List.length_range]
    exact h1.trans h
  · have hlt : k < NKB := by simpa using hk'
    have hget := h2 k
    rw [← hbp, ← unpack, if_pos hlt, List.getD_eq_getElem?_getD,
      List.getElem?_eq_getElem hk] at hget
    simpa using hget

lemma bits_unpack {bytes : List ℕ} (h : bytes.length = NKB) : Bits (unpack bytes NKB) := by
  rw [unpack_eq h]
  intro b hb
  obtain ⟨k, -, rfl⟩ := List.mem_map.mp hb
  omega

/-- The first characters of a password, which are all that counts of it. -/
def first (key : List ℕ) : List ℕ := (key.takeWhile (· ≠ 0)).take (NKB / NBPC)

lemma length_bkey {key mem : List ℕ} (hmem : mem.length = NKB - NKB / NBPC) :
    (bkey key mem).length = NKB := by
  simp only [bkey, List.length_append, List.length_replicate, hmem, List.length_take, NKB, NBPC]
  omega

lemma unpack_bkey {key key' mem mem' : List ℕ} (hmem : mem.length = NKB - NKB / NBPC)
    (hmem' : mem'.length = NKB - NKB / NBPC) (h : first key' = first key) :
    unpack (bkey key' mem') NKB = unpack (bkey key mem) NKB := by
  rw [unpack_eq (length_bkey hmem), unpack_eq (length_bkey hmem')]
  refine List.map_congr_left fun k hk => ?_
  have hk8 : k / 8 < NKB / NBPC := by
    have := List.mem_range.mp hk
    simp only [NKB, NBPC] at this ⊢
    omega
  -- eight bytes are there before the rest of the array
  have hbytes : ∀ key mem : List ℕ, (bkey key mem).getD (k / 8) 0 =
      (first key ++ List.replicate (NKB / NBPC - (first key).length) 0).getD (k / 8) 0 := by
    intro key mem
    have hlen : (first key).length ≤ NKB / NBPC := by simp [first]
    rw [bkey, List.getD_eq_getElem?_getD, List.getD_eq_getElem?_getD, List.getElem?_append_left]
    · rfl
    · simp only [List.length_append, List.length_replicate]
      change k / 8 < (first key).length + (NKB / NBPC - (first key).length)
      omega
  rw [hbytes, hbytes, h]

lemma length_word : word.length = 8 := rfl

lemma length_stuff {mem : List ℕ} (hmem : mem.length = NKB - NKB / NBPC) :
    (stuff mem).length = NKB := by
  rw [stuff, List.length_append, hmem, length_word]
  decide

/-- Only the first characters of the key count, and nothing that is on the stack. -/
lemma crypt_congr {key key' mem mem' above above' : List ℕ} (salt : ℕ × ℕ)
    (hmem : mem.length = NKB - NKB / NBPC) (hmem' : mem'.length = NKB - NKB / NBPC)
    (habove : NUKB / 2 ≤ above.length) (habove' : NUKB / 2 ≤ above'.length)
    (hkey : first key' = first key) : crypt key' salt mem' above' = crypt key salt mem above := by
  have hst : unpack (stuff mem') NIB = unpack (stuff mem) NIB := by
    rw [show NIB = NKB from rfl, unpack_eq (length_stuff hmem), unpack_eq (length_stuff hmem')]
    refine List.map_congr_left fun k hk => ?_
    have hk8 : k / 8 < word.length := by
      have := List.mem_range.mp hk
      simp only [NKB] at this
      rw [length_word]
      omega
    rw [stuff, stuff, List.getD_eq_getElem?_getD, List.getD_eq_getElem?_getD,
      List.getElem?_append_left hk8, List.getElem?_append_left hk8]
  simp only [crypt, setkey_spec _ _ habove, setkey_spec _ _ habove', hst,
    unpack_bkey hmem hmem' hkey]

lemma crypt_eq (key : List ℕ) (salt : ℕ × ℕ) (mem above : List ℕ) :
    crypt key salt mem above = salt.1 :: salt.2 :: sixbits 0 0 (encrypt (perturb salt.1 salt.2)
      (setkey (unpack (bkey key mem) NKB) above).1 (unpack (stuff mem) NIB) false) := by
  simp only [crypt, List.cons_append, List.nil_append]

/-- The characters behind the salt: eleven of the small set. -/
lemma crypt_drop (key : List ℕ) (salt : ℕ × ℕ) {mem : List ℕ}
    (hmem : mem.length = NKB - NKB / NBPC) (above : List ℕ) :
    ((crypt key salt mem above).drop 2).length = 11 ∧
      ∀ c ∈ (crypt key salt mem above).drop 2, c ∈ maptab := by
  have hbits : Bits (encrypt (perturb salt.1 salt.2)
      (setkey (unpack (bkey key mem) NKB) above).1 (unpack (stuff mem) NIB) false) :=
    (bits_unpack (length_stuff hmem)).encrypt false
  obtain ⟨hset, hlen⟩ := sixbits_spec hbits 0 0 (by norm_num)
  rw [length_encrypt] at hlen
  rw [crypt_eq, List.drop_succ_cons, List.drop_succ_cons, List.drop_zero]
  exact ⟨hlen, hset⟩

/-- **A password that `passwd` stores** has the length that `login` asks for and nothing in it but
the salt and characters of the small set, and it comes out again whenever the same first characters
are typed, whatever is on the stack then. -/
theorem crypt_password (key : List ℕ) {i1 i2 : ℕ} (h1 : i1 ∈ maptab) (h2 : i2 ∈ maptab)
    {mem above : List ℕ} (hmem : mem.length = NKB - NKB / NBPC)
    (habove : NUKB / 2 ≤ above.length) :
    (crypt key (i1, i2) mem above).length = 13 ∧
      (∀ c ∈ crypt key (i1, i2) mem above, c ∈ maptab) ∧
      ∀ key' mem' above' : List ℕ, mem'.length = NKB - NKB / NBPC → NUKB / 2 ≤ above'.length →
        first key' = first key →
        crypt key' ((crypt key (i1, i2) mem above).getD 0 0,
          (crypt key (i1, i2) mem above).getD 1 0) mem' above' =
            crypt key (i1, i2) mem above := by
  obtain ⟨hlen, hset⟩ := crypt_drop key (i1, i2) hmem above
  refine ⟨?_, fun c hc => ?_, fun key' mem' above' hmem' habove' hkey => ?_⟩
  · rw [List.length_drop] at hlen
    omega
  · rw [crypt_eq, List.drop_succ_cons, List.drop_succ_cons, List.drop_zero] at hset
    rw [crypt_eq] at hc
    rcases List.mem_cons.mp hc with rfl | hc
    · exact h1
    · rcases List.mem_cons.mp hc with rfl | hc
      · exact h2
      · exact hset c hc
  · have h0 : (crypt key (i1, i2) mem above).getD 0 0 = i1 := by
      rw [crypt_eq, List.getD_cons_zero]
    have h1 : (crypt key (i1, i2) mem above).getD 1 0 = i2 := by
      rw [crypt_eq, List.getD_cons_succ, List.getD_cons_zero]
    rw [h0, h1]
    exact crypt_congr (i1, i2) hmem hmem' habove habove' hkey

/-- A password that is longer than what counts of it. -/
theorem crypt_password_long :
    crypt ("password2".toList.map Char.toNat)
      ((crypt ("password1".toList.map Char.toNat) (97, 98) (List.replicate 56 3)
          (List.replicate 28 5)).getD 0 0,
        (crypt ("password1".toList.map Char.toNat) (97, 98) (List.replicate 56 3)
          (List.replicate 28 5)).getD 1 0)
      (List.replicate 56 7) (List.replicate 28 9) =
    crypt ("password1".toList.map Char.toNat) (97, 98) (List.replicate 56 3)
      (List.replicate 28 5) :=
  (@crypt_password ("password1".toList.map Char.toNat) 97 98 (by decide) (by decide)
    (List.replicate 56 3) (List.replicate 28 5) rfl (by decide)).2.2
    _ _ _ rfl (by decide) (by decide)

end Password

end Coherent.Crypt
