import Coherent.FreeChain
import Coherent.DiskPy

/-!
The kernel's `balloc` on a free list rebuilt by `tools/disk.py`.

Rebuilding chains the unused blocks from the highest to the lowest. The highest, the tail of
the chain, is never written, so its old bytes decide what the kernel does after it has
handed out the whole chain.
-/

namespace Coherent.DiskPy

open Coherent.Can Coherent.Super Coherent.FreeList

/-! ### Codecs -/

lemma u16_congr {p q : Block} {o : ℕ} (h : ∀ i, i < 2 → p (o + i) = q (o + i)) :
    u16 p o = u16 q o := by
  have h0 := h 0 (by omega)
  have h1 := h 1 (by omega)
  simp only [Nat.add_zero] at h0
  rw [u16, u16, h0, h1]

lemma read32_congr {p q : Block} {o m : ℕ} (h : ∀ i, i < 4 → p (o + i) = q (m + i)) :
    read32 p o = read32 q m := by
  have h0 := h 0 (by omega)
  have h1 := h 1 (by omega)
  have h2 := h 2 (by omega)
  have h3 := h 3 (by omega)
  simp only [Nat.add_zero] at h0
  simp only [read32, u16, Nat.add_assoc, Nat.reduceAdd] at *
  rw [h0, h1, h2, h3]

lemma u16_pack16 (p : Block) (o v : ℕ) : u16 (pack16 p o v) o = v % 65536 := by
  simp only [u16, pack16, if_true, if_neg (Nat.succ_ne_self o), UInt8.toNat_ofNat']
  omega

lemma pack16_apply {p : Block} {o v i : ℕ} (h : i < o ∨ o + 2 ≤ i) : pack16 p o v i = p i := by
  simp only [pack16]
  rw [if_neg (by omega), if_neg (by omega)]

lemma write32_apply {p : Block} {o v i : ℕ} (h : i < o ∨ o + 4 ≤ i) : write32 p o v i = p i := by
  rw [write32, pack16_apply (by omega), pack16_apply (by omega)]

lemma touch_sb_apply {p : Block} {t i : ℕ} (h : i < 468) : touch_sb t p i = p i := by
  rw [touch_sb, write32_apply (by unfold SB_TIME; omega), Function.update_of_ne]
  unfold SB_FMOD; omega

lemma read32_write32 (p : Block) (o : ℕ) {v : ℕ} (hv : v < 4294967296) :
    read32 (write32 p o v) o = v := by
  have h1 : u16 (write32 p o v) o = v / 65536 % 65536 := by
    rw [write32, u16_congr (q := pack16 p o (v / 65536 % 65536)), u16_pack16, Nat.mod_mod]
    intro i hi
    exact pack16_apply (by omega)
  rw [read32, h1, write32, u16_pack16]
  omega

/-! ### Writing a block -/

/-- Writing a block of the image changes that block and no other. -/
lemma write_block_ok (fs : CoherentFS) (bno : ℕ) (data : Block)
    (h : bno * BLOCK + BLOCK ≤ fs.len) :
    ∃ gs, write_block fs bno data = .ok gs ∧ gs.len = fs.len ∧ gs.part_off = fs.part_off ∧
      (∀ i < BLOCK, read_block gs bno i = data i) ∧
      ∀ c, c ≠ bno → read_block gs c = read_block fs c := by
  refine ⟨_, if_neg (by omega), rfl, rfl, ?_, ?_⟩
  · intro i hi
    simp only [read_block]
    rw [if_neg (by omega), if_pos hi, if_pos (by omega)]
    congr 1; omega
  · intro c hc
    ext i
    simp only [read_block]
    by_cases hl : c * BLOCK + BLOCK > fs.len
    · rw [if_pos hl, if_pos hl]
    · rw [if_neg hl, if_neg hl]
      by_cases hi : i < BLOCK
      · have hne : ¬ (bno * BLOCK ≤ c * BLOCK + i ∧ c * BLOCK + i < bno * BLOCK + BLOCK) := by
          unfold BLOCK at *; omega
        rw [if_pos hi, if_pos hi, if_neg hne]
      · rw [if_neg hi, if_neg hi]

/-- The super block that `free_block` writes back, with `n` entries in the cache before. -/
def pushed (time n b : ℕ) (sb : Block) : Block :=
  let sb := pack16 (write32 sb (SB_FREE + n * 4) b) SB_NFREE (n + 1)
  touch_sb time (write32 sb SB_TFREE (read32 sb SB_TFREE + 1))

lemma pushed_apply {time n b i : ℕ} {sb : Block} (hn : n < NICFREE)
    (h : i < 6 ∨ 8 ≤ i ∧ i < 8 + n * 4) : pushed time n b sb i = sb i := by
  unfold NICFREE at hn
  rw [pushed, touch_sb_apply (by omega), write32_apply (by unfold SB_TFREE; omega),
    pack16_apply (by unfold SB_NFREE; omega), write32_apply (by unfold SB_FREE; omega)]

lemma pushed_nfree (time b : ℕ) (sb : Block) {n : ℕ} (hn : n < NICFREE) :
    u16 (pushed time n b sb) SB_NFREE = n + 1 := by
  unfold NICFREE at hn
  rw [pushed, u16_congr (q := pack16 (write32 sb (SB_FREE + n * 4) b) SB_NFREE (n + 1)),
    u16_pack16]
  · omega
  · intro i hi
    rw [touch_sb_apply (by unfold SB_NFREE; omega), write32_apply (by unfold SB_TFREE SB_NFREE; omega)]

lemma pushed_top (time : ℕ) (sb : Block) {n b : ℕ} (hn : n < NICFREE) (hb : b < 4294967296) :
    read32 (pushed time n b sb) (SB_FREE + 4 * n) = b := by
  unfold NICFREE at hn
  rw [mul_comm 4 n, pushed, read32_congr (q := write32 sb (SB_FREE + n * 4) b)
    (m := SB_FREE + n * 4), read32_write32 _ _ hb]
  intro i hi
  rw [touch_sb_apply (by unfold SB_FREE; omega), write32_apply (by unfold SB_TFREE SB_FREE; omega),
    pack16_apply (by unfold SB_NFREE SB_FREE; omega)]

/-- The block a full cache is spilled to. -/
def spilt (sb : Block) : Block := fun i =>
  if FBLK_FREE ≤ i ∧ i < FBLK_FREE + NICFREE * 4 then sb (SB_FREE + (i - FBLK_FREE))
  else pack16 (fun _ => 0) FBLK_NFREE NICFREE i

lemma free_block_eq {time b : ℕ} {fs : CoherentFS} (h0 : b ≠ 0)
    (hi : u16 (read_sb fs) SB_ISIZE ≤ b) (hf : b < read32 (read_sb fs) SB_FSIZE)
    (hn : u16 (read_sb fs) SB_NFREE ≤ NICFREE) :
    free_block time fs b =
      if u16 (read_sb fs) SB_NFREE = NICFREE then
        (write_block fs (fs.part_off + b) (spilt (read_sb fs))).bind fun gs =>
          write_sb gs (pushed time 0 b (read_sb fs))
      else write_sb fs (pushed time (u16 (read_sb fs) SB_NFREE) b (read_sb fs)) := by
  have hs : s16 (u16 (read_sb fs) SB_NFREE) = u16 (read_sb fs) SB_NFREE := by
    unfold NICFREE at hn
    unfold s16
    rw [if_neg (by omega)]
  have hlo : ¬ (b < u16 (read_sb fs) SB_ISIZE ∨ b ≥ read32 (read_sb fs) SB_FSIZE) := by omega
  have hr : ¬ ((u16 (read_sb fs) SB_NFREE : ℤ) < 0 ∨
      (u16 (read_sb fs) SB_NFREE : ℤ) > (NICFREE : ℕ)) := by omega
  unfold free_block
  simp only [if_neg h0, if_neg hlo, hs, if_neg hr, Int.toNat_natCast]
  by_cases hN : u16 (read_sb fs) SB_NFREE = NICFREE
  · simp only [if_pos hN]
    rw [hN]
    rfl
  · simp only [if_neg hN]
    rfl

/-! ### A chain up to its tail -/

/-- `Chain` as far as the block numbers of its last block, which is not looked into. -/
inductive Open (disk : ℤ → Block) : ℕ → (ℕ → ℤ) → List ℤ → Prop
  | tail (free : ℕ → ℤ) : Open disk 1 free [free 0]
  | link {free : ℕ → ℤ} {l : List ℤ} : df_nfree (disk (free 0)) ≤ NICFREE →
      Open disk (df_nfree (disk (free 0))) (df_free (disk (free 0))) l →
      Open disk 1 free (free 0 :: l)
  | entry {n : ℕ} {free : ℕ → ℤ} {l : List ℤ} : Open disk (n + 1) free l →
      Open disk (n + 2) free (free (n + 1) :: l)

variable {disk disk' : ℤ → Block} {n : ℕ} {free free' : ℕ → ℤ} {l : List ℤ} {t : ℤ}

lemma Open.ne_nil (h : Open disk n free l) : l ≠ [] := by cases h <;> simp

lemma Open.congr_disk (h : Open disk n free l) (hd : ∀ b ∈ l, disk' b = disk b) :
    Open disk' n free l := by
  induction h with
  | tail free => exact .tail free
  | @link free l hn _ ih =>
    have hb : disk' (free 0) = disk (free 0) := hd _ (by simp)
    refine .link (by rwa [hb]) ?_
    rw [hb]
    exact ih fun b hb => hd b (by simp [hb])
  | entry _ ih => exact .entry (ih fun b hb => hd b (by simp [hb]))

lemma Open.congr_free (h : Open disk n free l) (hf : ∀ i < n, free' i = free i) :
    Open disk n free' l := by
  induction h with
  | tail free => rw [← hf 0 (by omega)]; exact .tail free'
  | @link free l hn hc =>
    rw [← hf 0 (by omega)] at hn hc ⊢
    exact .link hn hc
  | @entry n free l hc ih =>
    rw [← hf (n + 1) (by omega)]
    exact .entry (ih fun i hi => hf i (by omega))

/-- `k` allocations in a row: what they hand out, and the file system after them. -/
def ballocs : ℕ → Fs → List ℤ × Fs
  | 0, fs => ([], fs)
  | k + 1, fs => ((balloc fs).1 :: (ballocs k (balloc fs).2).1, (ballocs k (balloc fs).2).2)

lemma ballocs_succ (k : ℕ) (fs : Fs) :
    ballocs (k + 1) fs =
      ((ballocs k fs).1 ++ [(balloc (ballocs k fs).2).1], (balloc (ballocs k fs).2).2) := by
  induction k generalizing fs with
  | zero => rfl
  | succ k ih =>
    rw [ballocs, ih]
    rfl

/-- A writable volume all of whose blocks can be read, with room for its super block. -/
structure Usable (fs : Fs) : Prop where
  ron : fs.m_ron = false
  rdok : ∀ b, fs.rdok b = true
  isize : 2 ≤ fs.m_super.s_isize

lemma Usable.recached {fs gs : Fs} (hu : Usable fs) (h : Recached fs gs n free) : Usable gs :=
  ⟨by rw [h.ron, hu.ron], by rw [h.rdok]; exact hu.rdok, by rw [h.isize]; exact hu.isize⟩

/-- The kernel hands out a chain up to its tail, and is left with the tail in the cache. -/
lemma ballocs_open {fs : Fs} (hu : Usable fs)
    (hc : Open fs.disk fs.m_super.s_nfree fs.m_super.s_free (l ++ [t]))
    (hr : ∀ b ∈ l, (fs.m_super.s_isize : ℤ) ≤ b ∧ b < fs.m_super.s_fsize) (ht : t ≠ SUPERI) :
    (ballocs l.length fs).1 = l ∧
      ∃ free', free' 0 = t ∧ Recached fs (ballocs l.length fs).2 1 free' := by
  induction l generalizing fs with
  | nil =>
    refine ⟨rfl, fs.m_super.s_free, ?_⟩
    rw [List.nil_append] at hc
    generalize hm : fs.m_super.s_nfree = m at hc
    generalize hl : [t] = l at hc
    have hm1 : m = 1 ∧ fs.m_super.s_free 0 = t := by
      cases hc with
      | tail => exact ⟨rfl, by simpa using hl.symm⟩
      | link _ hc => exact absurd (List.cons.inj hl).2.symm hc.ne_nil
      | entry hc => exact absurd (List.cons.inj hl).2.symm hc.ne_nil
    refine ⟨hm1.2, rfl, rfl, rfl, rfl, rfl, fun _ _ => rfl, ?_, rfl⟩
    rw [← hm1.1]; exact hm
  | cons b l ih =>
    have hb := hr b (by simp)
    have hi := hu.isize
    -- one allocation: the head is handed out and the rest is still such a chain
    have hstep : (balloc fs).1 = b ∧ ∃ n' free', Recached fs (balloc fs).2 n' free' ∧
        Open fs.disk n' free' (l ++ [t]) := by
      rw [List.cons_append] at hc
      generalize hm : fs.m_super.s_nfree = m at hc
      generalize hl : l ++ [t] = r at hc ⊢
      cases hc with
      | tail => simp at hl
      | link hn hc' =>
        have hok : ¬ Refused fs 0 (fs.m_super.s_free 0) := by
          rintro (h1 | h1 | h1 | ⟨-, h1⟩) <;> omega
        obtain ⟨h1, h2, -⟩ := (balloc_top hm hu.ron hu.rdok hi).2 hok
        exact ⟨h1, _, _, h2, hc'⟩
      | @entry m _ _ hc' =>
        have hok : ¬ Refused fs (m + 1) (fs.m_super.s_free (m + 1)) := by
          rintro (h1 | h1 | h1 | ⟨h1, -⟩) <;> omega
        obtain ⟨h1, h2, -⟩ := (balloc_top hm hu.ron hu.rdok hi).2 hok
        exact ⟨h1, _, _, h2, hc'⟩
    obtain ⟨h1, n', free', hrc, hc'⟩ := hstep
    have hd : ∀ c ∈ l ++ [t], (balloc fs).2.disk c = fs.disk c := by
      intro c hc
      refine hrc.disk c ?_
      rcases List.mem_append.mp hc with hc | hc
      · have := hr c (by simp [hc])
        unfold SUPERI; omega
      · rw [List.mem_singleton.mp hc]; exact ht
    have hr' : ∀ c ∈ l, ((balloc fs).2.m_super.s_isize : ℤ) ≤ c ∧
        c < (balloc fs).2.m_super.s_fsize := by
      rw [hrc.isize, hrc.fsize]
      exact fun c hc => hr c (by simp [hc])
    obtain ⟨e1, free₂, e2, hrc₂⟩ := ih (hu.recached hrc)
      (by rw [hrc.nfree, hrc.free]; exact hc'.congr_disk hd) hr'
    refine ⟨?_, free₂, e2, hrc.trans hrc₂⟩
    simp only [List.length_cons, ballocs, h1, e1]

/-- Repeated allocation hands out exactly the blocks `us`, each once, and then reports that
there is no space. -/
def HandsOut (fs : Fs) (us : List ℤ) : Prop :=
  (ballocs us.length fs).1.Perm us ∧ (balloc (ballocs us.length fs).2).1 = 0 ∧
    (balloc (ballocs us.length fs).2).2.u_error = some .ENOSPC

lemma Refused.congr {fs gs : Fs} (h : Recached fs gs n free) (hi : 2 ≤ fs.m_super.s_isize)
    (m : ℕ) (b : ℤ) : Refused gs m b ↔ Refused fs m b := by
  unfold Refused
  rw [h.isize, h.fsize]
  by_cases hb : b = SUPERI
  · have : b < fs.m_super.s_isize := by unfold SUPERI at hb; omega
    simp [this]
  · rw [h.disk b hb]

/-- Whether the kernel stops at the tail `t` is up to the bytes of `t`. -/
lemma handsOut_open {fs : Fs} (hu : Usable fs)
    (hc : Open fs.disk fs.m_super.s_nfree fs.m_super.s_free (l ++ [t]))
    (hr : ∀ b ∈ l ++ [t], (fs.m_super.s_isize : ℤ) ≤ b ∧ b < fs.m_super.s_fsize) :
    HandsOut fs (l ++ [t]) ↔ df_nfree (fs.disk t) ≤ NICFREE ∧ ∀ m, df_nfree (fs.disk t) = m + 1 →
      Refused fs m (df_free (fs.disk t) m) := by
  have hi := hu.isize
  have ht := hr t (by simp)
  have hts : t ≠ SUPERI := by unfold SUPERI; omega
  obtain ⟨e1, free', e2, hrc⟩ := ballocs_open hu hc (fun b hb => hr b (by simp [hb])) hts
  rw [HandsOut, List.length_append, List.length_singleton, ballocs_succ, e1]
  generalize (ballocs l.length fs).2 = gs at *
  have hug := hu.recached hrc
  have hft : gs.m_super.s_free 0 = t := by rw [hrc.free, e2]
  obtain ⟨hbad, hgood⟩ := balloc_top hrc.nfree hug.ron hug.rdok hug.isize
  rw [hft, Refused.congr hrc hi] at hbad hgood
  simp only [if_true, hrc.disk t hts] at hgood
  by_cases hN : df_nfree (fs.disk t) ≤ NICFREE
  · -- the tail is handed out and its bytes are the next cache
    have hok : ¬ Refused fs 0 t := by rintro (h1 | h1 | h1 | ⟨-, h1⟩) <;> omega
    obtain ⟨h1, h2, -⟩ := hgood hok
    have hrc' := hrc.trans h2
    have huh := hu.recached hrc'
    simp only [h1, List.Perm.refl, true_and, hN]
    generalize (balloc gs).2 = hs at *
    cases hn : df_nfree (fs.disk t) with
    | zero =>
      have hz : hs.m_super.s_nfree = 0 := by rw [hrc'.nfree, hn]
      rw [balloc_empty huh.ron hz]
      simp [enospc]
    | succ m =>
      rw [hn] at hrc'
      obtain ⟨hb', hg'⟩ := balloc_top hrc'.nfree huh.ron huh.rdok huh.isize
      rw [hrc'.free, Refused.congr hrc' hi] at hb' hg'
      constructor
      · rintro ⟨h0, -⟩ m' hm'
        obtain rfl : m = m' := by omega
        by_contra hR
        rw [(hg' hR).1] at h0
        exact hR (Or.inl h0)
      · exact fun h => hb' (h m rfl)
  · -- the kernel takes the tail for a bad block and loses it
    have h0 := (hbad (Or.inr (Or.inr (Or.inr ⟨rfl, by omega⟩)))).1
    simp only [hN, false_and, iff_false, h0]
    rintro ⟨hp, -⟩
    have := hr 0 (hp.subset (by simp))
    omega

/-! ### The chain that rebuilding makes -/

/-- The partition as the kernel has it mounted. -/
def mounted (fs : CoherentFS) : Fs where
  m_super := getSuper (read_sb fs)
  m_ron := false
  disk b := read_block fs (fs.part_off + b.toNat)
  rdok _ := true
  u_error := none
  msg := []

/-- With the blocks of `l` freed, the last first: was the cache spilled to `b`? -/
def Spilled (l : List ℕ) (b : ℕ) : Prop :=
  ∃ pre suf, l = pre ++ b :: suf ∧ suf ≠ [] ∧ suf.length % NICFREE = 0

/-- The entries in the cache after `k` blocks have been freed. -/
def cached (k : ℕ) : ℕ := if k = 0 then 0 else (k - 1) % NICFREE + 1

/-- The image `fs`, made of `fs₀` by freeing the blocks of `l`, the last first. -/
structure Built (fs₀ fs : CoherentFS) (l : List ℕ) : Prop where
  len : fs.len = fs₀.len
  part : fs.part_off = fs₀.part_off
  isize : u16 (read_sb fs) SB_ISIZE = u16 (read_sb fs₀) SB_ISIZE
  fsize : read32 (read_sb fs) SB_FSIZE = read32 (read_sb fs₀) SB_FSIZE
  nfree : u16 (read_sb fs) SB_NFREE = cached l.length
  top : ∀ b l', l = b :: l' → read32 (read_sb fs) (SB_FREE + 4 * (cached l.length - 1)) = b
  chain : read32 (read_sb fs₀) SB_FSIZE < 2147483648 → l ≠ [] →
    Open (mounted fs).disk (cached l.length) (mounted fs).m_super.s_free (l.map Nat.cast)
  kept : ∀ b, b ≠ 1 → ¬ Spilled l b →
    read_block fs (fs.part_off + b) = read_block fs₀ (fs.part_off + b)
  spilled : ∀ b, Spilled l b → u16 (read_block fs (fs.part_off + b)) FBLK_NFREE = NICFREE

lemma spilled_cons {l : List ℕ} {b c : ℕ} :
    Spilled (b :: l) c ↔ (c = b ∧ l ≠ [] ∧ l.length % NICFREE = 0) ∨ Spilled l c := by
  constructor
  · rintro ⟨pre, suf, h, h1, h2⟩
    cases pre with
    | nil =>
      obtain ⟨rfl, rfl⟩ := List.cons.inj h
      exact Or.inl ⟨rfl, h1, h2⟩
    | cons a pre =>
      obtain ⟨rfl, rfl⟩ := List.cons.inj h
      exact Or.inr ⟨pre, suf, rfl, h1, h2⟩
  · rintro (⟨rfl, h1, h2⟩ | ⟨pre, suf, rfl, h1, h2⟩)
    · exact ⟨[], l, rfl, h1, h2⟩
    · exact ⟨b :: pre, suf, rfl, h1, h2⟩

lemma Spilled.mem {l : List ℕ} {b : ℕ} (h : Spilled l b) : b ∈ l := by
  obtain ⟨pre, suf, rfl, -⟩ := h
  simp

lemma cached_eq (k : ℕ) : k = 0 ∧ cached k = 0 ∨ 0 < k ∧ cached k = (k - 1) % 64 + 1 := by
  by_cases h : k = 0
  · exact Or.inl ⟨h, if_pos h⟩
  · exact Or.inr ⟨by omega, if_neg h⟩

lemma cached_le (k : ℕ) : cached k ≤ NICFREE := by
  have := cached_eq k
  unfold NICFREE; omega

lemma cached_eq_NICFREE {k : ℕ} : cached k = NICFREE ↔ k ≠ 0 ∧ k % NICFREE = 0 := by
  have := cached_eq k
  unfold NICFREE; omega

lemma cached_succ {k : ℕ} (h : cached k ≠ NICFREE) : cached (k + 1) = cached k + 1 := by
  have := cached_eq k
  have := cached_eq (k + 1)
  unfold NICFREE at h; omega

lemma cached_succ_of_full {k : ℕ} (h : cached k = NICFREE) : cached (k + 1) = 1 := by
  have := cached_eq k
  have := cached_eq (k + 1)
  unfold NICFREE at h; omega

lemma mounted_free (fs : CoherentFS) (i : ℕ) :
    (mounted fs).m_super.s_free i = long (read32 (read_sb fs) (SB_FREE + 4 * i)) := by
  rw [← read32_eq]; rfl

lemma long_natCast {b : ℕ} (h : b < 2147483648) : long b = b := if_pos h

/-- The image after the super block has been written back with `b` pushed on its cache. -/
lemma write_pushed (fs fs₁ : CoherentFS) (time : ℕ) {n b : ℕ} (hn : n < NICFREE) (hb : b < 4294967296)
    (hl : fs₁.part_off * BLOCK + 2 * BLOCK ≤ fs₁.len) :
    ∃ gs, write_sb fs₁ (pushed time n b (read_sb fs)) = .ok gs ∧ gs.len = fs₁.len ∧
      gs.part_off = fs₁.part_off ∧ u16 (read_sb gs) SB_ISIZE = u16 (read_sb fs) SB_ISIZE ∧
      read32 (read_sb gs) SB_FSIZE = read32 (read_sb fs) SB_FSIZE ∧
      u16 (read_sb gs) SB_NFREE = n + 1 ∧ read32 (read_sb gs) (SB_FREE + 4 * n) = b ∧
      (∀ i < n, read32 (read_sb gs) (SB_FREE + 4 * i) = read32 (read_sb fs) (SB_FREE + 4 * i)) ∧
      ∀ c, c ≠ fs₁.part_off + 1 → read_block gs c = read_block fs₁ c := by
  obtain ⟨gs, h1, h2, h3, h4, h5⟩ := write_block_ok fs₁ (fs₁.part_off + 1)
    (pushed time n b (read_sb fs)) (by unfold BLOCK at *; omega)
  have hsb : ∀ i < BLOCK, read_sb gs i = pushed time n b (read_sb fs) i := by
    intro i hi
    rw [read_sb, h3]
    exact h4 i hi
  unfold NICFREE at hn
  unfold BLOCK at hsb
  refine ⟨gs, h1, h2, h3, ?_, ?_, ?_, ?_, ?_, h5⟩
  · refine u16_congr fun i hi => ?_
    unfold SB_ISIZE
    rw [hsb _ (by omega), pushed_apply hn (by omega)]
  · refine read32_congr fun i hi => ?_
    unfold SB_FSIZE
    rw [hsb _ (by omega), pushed_apply hn (by omega)]
  · rw [← pushed_nfree time b (read_sb fs) hn]
    refine u16_congr fun i hi => hsb _ (by unfold SB_NFREE; omega)
  · rw [← pushed_top time (read_sb fs) hn hb]
    refine read32_congr fun i hi => hsb _ (by unfold SB_FREE; omega)
  · intro i hi
    refine read32_congr fun j hj => ?_
    unfold SB_FREE
    rw [hsb _ (by omega), pushed_apply hn (by omega)]

/-- A super block that `check_blocks` accepts, in an image that holds the whole partition. -/
structure Partition (fs : CoherentFS) : Prop where
  isize : 2 ≤ u16 (read_sb fs) SB_ISIZE
  fsize : u16 (read_sb fs) SB_ISIZE < read32 (read_sb fs) SB_FSIZE
  held : (fs.part_off + read32 (read_sb fs) SB_FSIZE) * BLOCK ≤ fs.len

variable {fs₀ fs gs : CoherentFS} {us : List ℕ}

/-- The chain after a block has been pushed on a cache that is not full. -/
lemma Built.chain_push {b : ℕ} (h : Built fs₀ fs us)
    (hN : cached us.length ≠ NICFREE) (hb : b < 2147483648)
    (hf : read32 (read_sb fs₀) SB_FSIZE < 2147483648) (hu1 : 1 ∉ us)
    (hpart : gs.part_off = fs.part_off)
    (htop : read32 (read_sb gs) (SB_FREE + 4 * cached us.length) = b)
    (hlow : ∀ i < cached us.length,
      read32 (read_sb gs) (SB_FREE + 4 * i) = read32 (read_sb fs) (SB_FREE + 4 * i))
    (hdisk : ∀ c, c ≠ fs.part_off + 1 → read_block gs c = read_block fs c) :
    Open (mounted gs).disk (cached (us.length + 1)) (mounted gs).m_super.s_free
      ((b :: us).map Nat.cast) := by
  have htop' : (mounted gs).m_super.s_free (cached us.length) = b := by
    rw [mounted_free, htop, long_natCast hb]
  rw [cached_succ hN, List.map_cons, ← htop']
  cases us with
  | nil => exact .tail _
  | cons a us =>
    have hc := h.chain hf (by simp)
    obtain ⟨m, hm⟩ : ∃ m, cached (a :: us).length = m + 1 := by
      have := cached_eq (a :: us).length
      exact ⟨cached (a :: us).length - 1, by simp at this ⊢; omega⟩
    rw [hm] at hc hlow ⊢
    refine .entry ((hc.congr_free fun i hi => ?_).congr_disk fun c hc => ?_)
    · rw [mounted_free, mounted_free, hlow i hi]
    · obtain ⟨x, hx, rfl⟩ := List.mem_map.mp hc
      simp only [mounted, Int.toNat_natCast, hpart]
      refine hdisk _ fun he => hu1 ?_
      rwa [show (1 : ℕ) = x by omega]

lemma spilt_nfree (sb p : Block) (h : ∀ i < BLOCK, p i = spilt sb i) :
    u16 p FBLK_NFREE = NICFREE := by
  have h1 : u16 (pack16 (fun _ => 0) FBLK_NFREE NICFREE) FBLK_NFREE = NICFREE := u16_pack16 _ _ _
  rw [← h1]
  refine u16_congr fun i hi => ?_
  rw [h _ (by unfold FBLK_NFREE BLOCK; omega), spilt, if_neg (by unfold FBLK_FREE FBLK_NFREE; omega)]

lemma spilt_free (sb p : Block) (h : ∀ i < BLOCK, p i = spilt sb i) {i : ℕ} (hi : i < NICFREE) :
    read32 p (FBLK_FREE + 4 * i) = read32 sb (SB_FREE + 4 * i) := by
  unfold NICFREE at hi
  refine read32_congr fun j hj => ?_
  rw [h _ (by unfold FBLK_FREE BLOCK; omega), spilt, if_pos (by unfold FBLK_FREE NICFREE; omega)]
  congr 1; unfold FBLK_FREE SB_FREE; omega

/-- The chain after a full cache has been spilled to a block. -/
lemma Built.chain_spill {b : ℕ} (h : Built fs₀ fs us) (hN : cached us.length = NICFREE)
    (hb : b < 2147483648) (hf : read32 (read_sb fs₀) SB_FSIZE < 2147483648)
    (hu1 : 1 ∉ us) (hbu : b ∉ us) (hpart : gs.part_off = fs.part_off)
    (htop : read32 (read_sb gs) (SB_FREE + 4 * 0) = b)
    (hspilt : ∀ i < BLOCK, read_block gs (fs.part_off + b) i = spilt (read_sb fs) i)
    (hdisk : ∀ c, c ≠ fs.part_off + 1 → c ≠ fs.part_off + b →
      read_block gs c = read_block fs c) :
    Open (mounted gs).disk (cached (us.length + 1)) (mounted gs).m_super.s_free
      ((b :: us).map Nat.cast) := by
  have htop' : (mounted gs).m_super.s_free 0 = b := by
    rw [mounted_free, htop, long_natCast hb]
  have hne : us ≠ [] := by
    rintro rfl
    exact absurd hN (by decide)
  have hc := h.chain hf hne
  have hblk : (mounted gs).disk b = read_block gs (fs.part_off + b) := by
    simp [mounted, hpart]
  have hn : df_nfree ((mounted gs).disk b) = NICFREE := by
    rw [df_nfree, u16_eq, hblk]
    exact spilt_nfree _ _ hspilt
  rw [cached_succ_of_full hN, List.map_cons, ← htop']
  refine .link ?_ ?_
  · rw [htop', hn]
  · rw [htop', hn, ← hN]
    refine (hc.congr_free fun i hi => ?_).congr_disk fun c hc => ?_
    · rw [hN] at hi
      have he := spilt_free (read_sb fs) _ hspilt hi
      rw [FBLK_FREE] at he
      rw [df_free, if_pos (by rw [hn]; exact hi), read32_eq, mounted_free, hblk, he]
    · obtain ⟨x, hx, rfl⟩ := List.mem_map.mp hc
      simp only [mounted, Int.toNat_natCast, hpart]
      refine hdisk _ (fun he => hu1 ?_) (fun he => hbu ?_)
      · rwa [show (1 : ℕ) = x by omega]
      · rwa [show b = x by omega]

/-- **One call of `free_block`** in the rebuilding of the list. -/
lemma free_block_built {b : ℕ} (time : ℕ) (hP : Partition fs₀) (h : Built fs₀ fs us)
    (hi : u16 (read_sb fs₀) SB_ISIZE ≤ b) (hf : b < read32 (read_sb fs₀) SB_FSIZE)
    (hbu : b ∉ us) (hu : ∀ c ∈ us, u16 (read_sb fs₀) SB_ISIZE ≤ c) :
    ∃ gs, free_block time fs b = .ok gs ∧ Built fs₀ gs (b :: us) := by
  have hi2 := hP.isize
  have hheld := hP.held
  have hb32 : b < 4294967296 := lt_trans hf (read32_lt _ _)
  have hu1 : 1 ∉ us := fun h1 => by have := hu 1 h1; omega
  have hnot1 : ∀ c, c ≠ 1 → fs.part_off + c ≠ fs.part_off + 1 := by omega
  rw [← h.part, ← h.len] at hheld
  have hbl : (fs.part_off + b) * BLOCK + BLOCK ≤ fs.len := by
    calc (fs.part_off + b) * BLOCK + BLOCK = (fs.part_off + (b + 1)) * BLOCK := by ring
      _ ≤ (fs.part_off + read32 (read_sb fs₀) SB_FSIZE) * BLOCK := by gcongr; omega
      _ ≤ fs.len := hheld
  have hsl : fs.part_off * BLOCK + 2 * BLOCK ≤ fs.len := by
    calc fs.part_off * BLOCK + 2 * BLOCK = (fs.part_off + 2) * BLOCK := by ring
      _ ≤ (fs.part_off + read32 (read_sb fs₀) SB_FSIZE) * BLOCK := by gcongr; omega
      _ ≤ fs.len := hheld
  rw [free_block_eq (by omega) (by rw [h.isize]; exact hi) (by rw [h.fsize]; exact hf)
    (by rw [h.nfree]; exact cached_le _), h.nfree]
  by_cases hN : cached us.length = NICFREE
  · -- a full cache goes into the block itself
    rw [if_pos hN]
    obtain ⟨fs₁, e1, el, ep, eb, ed⟩ := write_block_ok fs (fs.part_off + b) (spilt (read_sb fs))
      hbl
    obtain ⟨gs, g1, gl, gp, gi, gf, gn, gt, -, gd⟩ := write_pushed fs fs₁ time
      (show 0 < NICFREE by decide) hb32 (by rw [ep, el]; exact hsl)
    rw [e1]
    have hgb : read_block gs (fs.part_off + b) = read_block fs₁ (fs.part_off + b) :=
      gd _ (by rw [ep]; exact hnot1 b (by omega))
    have hgd : ∀ c, c ≠ fs.part_off + 1 → c ≠ fs.part_off + b →
        read_block gs c = read_block fs c := by
      intro c hc1 hcb
      rw [gd c (by rw [ep]; exact hc1), ed c hcb]
    have hspilt : ∀ i < BLOCK, read_block gs (fs.part_off + b) i = spilt (read_sb fs) i := by
      rw [hgb]; exact eb
    have hfull := cached_eq_NICFREE.mp hN
    have hne : us ≠ [] := by rintro rfl; simp at hfull
    refine ⟨gs, g1, by rw [gl, el, h.len], by rw [gp, ep, h.part], by rw [gi, h.isize],
      by rw [gf, h.fsize], ?_, ?_, ?_, ?_, ?_⟩
    · rw [gn, List.length_cons, cached_succ_of_full hN]
    · rintro c l' hl
      rw [List.length_cons, cached_succ_of_full hN, ← (List.cons.inj hl).1]
      exact gt
    · intro hf' _
      exact h.chain_spill hN (by omega) hf' hu1 hbu (by rw [gp, ep]) gt hspilt hgd
    · intro c hc1 hcs
      rw [spilled_cons] at hcs
      have hcb : c ≠ b := fun e => hcs (Or.inl ⟨e, hne, hfull.2⟩)
      rw [gp, ep, hgd _ (hnot1 c hc1) (by omega)]
      exact h.kept c hc1 fun hs => hcs (Or.inr hs)
    · intro c hc
      rw [gp, ep]
      rcases spilled_cons.mp hc with ⟨rfl, -⟩ | hs
      · exact spilt_nfree _ _ hspilt
      · have hc1 : c ≠ 1 := by rintro rfl; exact hu1 hs.mem
        have hcb : c ≠ b := by rintro rfl; exact hbu hs.mem
        rw [hgd _ (hnot1 c hc1) (by omega)]
        exact h.spilled c hs
  · -- there is room for it
    rw [if_neg hN]
    have hlt : cached us.length < NICFREE := lt_of_le_of_ne (cached_le _) hN
    obtain ⟨gs, g1, gl, gp, gi, gf, gn, gt, glow, gd⟩ := write_pushed fs fs time hlt hb32
      hsl
    have hns : ¬ (us ≠ [] ∧ us.length % NICFREE = 0) := fun hs =>
      hN (cached_eq_NICFREE.mpr ⟨by simpa using hs.1, hs.2⟩)
    refine ⟨gs, g1, by rw [gl, h.len], by rw [gp, h.part], by rw [gi, h.isize],
      by rw [gf, h.fsize], ?_, ?_, ?_, ?_, ?_⟩
    · rw [gn, List.length_cons, cached_succ hN]
    · rintro c l' hl
      rw [List.length_cons, cached_succ hN, ← (List.cons.inj hl).1]
      exact gt
    · intro hf' _
      exact h.chain_push hN (by omega) hf' hu1 gp gt glow gd
    · intro c hc1 hcs
      rw [gp, gd _ (hnot1 c hc1)]
      exact h.kept c hc1 fun hs => hcs (spilled_cons.mpr (Or.inr hs))
    · intro c hc
      rcases spilled_cons.mp hc with ⟨-, hs⟩ | hs
      · exact absurd hs hns
      · have hc1 : c ≠ 1 := by rintro rfl; exact hu1 hs.mem
        rw [gp, gd _ (hnot1 c hc1)]
        exact h.spilled c hs

/-! ### The whole rebuilding -/

lemma zero_free_apply {sb : Block} {i : ℕ} (n : ℕ) (h : i < 8) :
    (List.range n).foldl (fun sb i => write32 sb (SB_FREE + i * 4) 0) sb i = sb i := by
  induction n with
  | zero => rfl
  | succ n ih =>
    rw [List.range_succ, List.foldl_append]
    simp only [List.foldl_cons, List.foldl_nil]
    rw [write32_apply (by unfold SB_FREE; omega), ih]

lemma reset_sb_apply {time i : ℕ} {rep : FsckReport} {sb : Block} (h : i < 8) :
    reset_sb time rep sb i = pack16 sb SB_NFREE 0 i := by
  rw [reset_sb, touch_sb_apply (by omega), Function.update_of_ne (by unfold SB_ILOCK; omega),
    Function.update_of_ne (by unfold SB_FLOCK; omega), pack16_apply (by unfold SB_TINODE; omega),
    pack16_apply (by unfold SB_NINODE; omega), write32_apply (by unfold SB_TFREE; omega),
    zero_free_apply _ h]

/-- Resetting the super block leaves an empty list. -/
lemma reset_built (hP : Partition fs₀) (time : ℕ) (rep : FsckReport) :
    ∃ gs, write_sb fs₀ (reset_sb time rep (read_sb fs₀)) = .ok gs ∧ Built fs₀ gs [] := by
  have hi := hP.isize
  have hf := hP.fsize
  have hsl : (fs₀.part_off + 1) * BLOCK + BLOCK ≤ fs₀.len := by
    calc (fs₀.part_off + 1) * BLOCK + BLOCK = (fs₀.part_off + 2) * BLOCK := by ring
      _ ≤ (fs₀.part_off + read32 (read_sb fs₀) SB_FSIZE) * BLOCK := by gcongr; omega
      _ ≤ fs₀.len := hP.held
  obtain ⟨gs, e1, el, ep, eb, ed⟩ := write_block_ok fs₀ (fs₀.part_off + 1)
    (reset_sb time rep (read_sb fs₀)) hsl
  have hsb : ∀ i < 8, read_sb gs i = pack16 (read_sb fs₀) SB_NFREE 0 i := by
    intro i hi
    rw [read_sb, ep, eb i (by unfold BLOCK; omega), reset_sb_apply hi]
  refine ⟨gs, e1, el, ep, ?_, ?_, ?_, by simp, by simp, ?_, ?_⟩
  · refine u16_congr fun i hi => ?_
    rw [hsb _ (by unfold SB_ISIZE; omega), pack16_apply (by unfold SB_ISIZE SB_NFREE; omega)]
  · refine read32_congr fun i hi => ?_
    rw [hsb _ (by unfold SB_FSIZE; omega), pack16_apply (by unfold SB_FSIZE SB_NFREE; omega)]
  · have h0 : u16 (pack16 (read_sb fs₀) SB_NFREE 0) SB_NFREE = 0 := u16_pack16 _ _ _
    rw [List.length_nil, show cached 0 = 0 from rfl, ← h0]
    exact u16_congr fun i hi => hsb _ (by unfold SB_NFREE; omega)
  · intro b hb _
    rw [ep]
    exact ed _ (by omega)
  · rintro b ⟨pre, suf, h, -⟩
    simp at h

/-- **The loop of `rebuild_free_list`**, over any list of distinct blocks of the volume. -/
lemma free_blocks_built (hP : Partition fs₀) (time : ℕ → ℕ) (marked : List ℕ) (bs : List ℕ)
    (h : Built fs₀ fs us) (hbs : ∀ b ∈ bs, u16 (read_sb fs₀) SB_ISIZE ≤ b ∧
      b < read32 (read_sb fs₀) SB_FSIZE) (hnd : bs.Nodup) (hdj : ∀ b ∈ bs, b ∉ us)
    (hu : ∀ c ∈ us, u16 (read_sb fs₀) SB_ISIZE ≤ c) :
    ∃ gs, bs.foldlM (fun fs b => if b ∉ marked then free_block (time b) fs b else pure fs) fs
      = .ok gs ∧ Built fs₀ gs ((bs.filter (· ∉ marked)).reverse ++ us) := by
  induction bs generalizing fs us with
  | nil => exact ⟨fs, rfl, h⟩
  | cons b bs ih =>
    have hb := hbs b (by simp)
    obtain ⟨hbn, hnd'⟩ := List.nodup_cons.mp hnd
    have hbs' : ∀ c ∈ bs, u16 (read_sb fs₀) SB_ISIZE ≤ c ∧ c < read32 (read_sb fs₀) SB_FSIZE :=
      fun c hc => hbs c (by simp [hc])
    rw [List.foldlM_cons]
    by_cases hm : b ∉ marked
    · obtain ⟨fs₁, e1, h1⟩ := free_block_built (time b) hP h hb.1 hb.2 (hdj b (by simp)) hu
      have hdj' : ∀ c ∈ bs, c ∉ b :: us := by
        intro c hc
        rw [List.mem_cons, not_or]
        exact ⟨fun e => hbn (e ▸ hc), hdj c (by simp [hc])⟩
      have hu' : ∀ c ∈ b :: us, u16 (read_sb fs₀) SB_ISIZE ≤ c := by
        intro c hc
        rcases List.mem_cons.mp hc with rfl | hc
        · exact hb.1
        · exact hu c hc
      obtain ⟨gs, e2, h2⟩ := ih h1 hbs' hnd' hdj' hu'
      refine ⟨gs, ?_, ?_⟩
      · rw [if_pos hm, e1]
        exact e2
      · rw [List.filter_cons_of_pos (by simpa using hm), List.reverse_cons, List.append_assoc]
        exact h2
    · obtain ⟨gs, e2, h2⟩ := ih h hbs' hnd' (fun c hc => hdj c (by simp [hc])) hu
      refine ⟨gs, ?_, ?_⟩
      · rw [if_neg hm]
        exact e2
      · rw [List.filter_cons_of_neg (by simpa using hm)]
        exact h2

lemma check_visit_size (ino : ℕ) (s : FsckReport × List (ℕ × ℕ)) (v : Visit) :
    (check_visit ino s v).1.isize = s.1.isize ∧ (check_visit ino s v).1.fsize = s.1.fsize := by
  unfold check_visit
  dsimp only
  split_ifs
  · exact ⟨rfl, rfl⟩
  · split <;> exact ⟨rfl, rfl⟩

lemma check_inode_size (fs : CoherentFS) (s : FsckReport × List (ℕ × ℕ)) (ino : ℕ) :
    (check_inode fs s ino).1.isize = s.1.isize ∧ (check_inode fs s ino).1.fsize = s.1.fsize := by
  have hv : ∀ (vs : List Visit) s, (vs.foldl (check_visit ino) s).1.isize = s.1.isize ∧
      (vs.foldl (check_visit ino) s).1.fsize = s.1.fsize := by
    intro vs
    induction vs with
    | nil => exact fun s => ⟨rfl, rfl⟩
    | cons v vs ih =>
      intro s
      rw [List.foldl_cons, (ih _).1, (ih _).2]
      exact check_visit_size ino s v
  unfold check_inode
  dsimp only
  split
  · exact ⟨rfl, rfl⟩
  · split_ifs
    · exact hv _ _
    · exact ⟨rfl, rfl⟩

/-- The report of an accepted super block has its sizes. -/
lemma check_blocks_ok {rep : FsckReport} (h : check_blocks fs = .ok rep) :
    2 ≤ rep.isize ∧ rep.isize < rep.fsize ∧ rep.isize = u16 (read_sb fs) SB_ISIZE ∧
      rep.fsize = read32 (read_sb fs) SB_FSIZE := by
  have hv : ∀ (is : List ℕ) s, (is.foldl (check_inode fs) s).1.isize = s.1.isize ∧
      (is.foldl (check_inode fs) s).1.fsize = s.1.fsize := by
    intro is
    induction is with
    | nil => exact fun s => ⟨rfl, rfl⟩
    | cons i is ih =>
      intro s
      rw [List.foldl_cons, (ih _).1, (ih _).2]
      exact check_inode_size fs s i
  unfold check_blocks at h
  dsimp only at h
  split_ifs at h with hbad
  have e1 : rep.isize = u16 (read_sb fs) SB_ISIZE := by
    rw [← Except.ok.inj h]; exact (hv _ _).1
  have e2 : rep.fsize = read32 (read_sb fs) SB_FSIZE := by
    rw [← Except.ok.inj h]; exact (hv _ _).2
  refine ⟨?_, ?_, e1, e2⟩ <;> omega

/-- The blocks of `[isize, fsize)` that the walk did not mark used, in ascending order. -/
def unused (fs : CoherentFS) (rep : FsckReport) : List ℕ :=
  (List.range' rep.isize (rep.fsize - rep.isize)).filter (· ∉ used fs rep)

/-- The old bytes of the tail, the highest unused block, end the chain: its count of
entries is zero, or the entry the kernel would take next is refused. That entry is refused
when it is outside the volume, or when it is the only one and heads, in a block that no
cache was spilled to, a list too long for a cache. -/
def TailEnds (fs : CoherentFS) (rep : FsckReport) : Prop :=
  ∀ t, (unused fs rep).getLast? = some t → rep.fsize < 2147483648 ∧
    u16 (read_block fs (fs.part_off + t)) FBLK_NFREE ≤ NICFREE ∧
    ∀ m, u16 (read_block fs (fs.part_off + t)) FBLK_NFREE = m + 1 →
      read32 (read_block fs (fs.part_off + t)) (FBLK_FREE + 4 * m) < rep.isize ∨
      rep.fsize ≤ read32 (read_block fs (fs.part_off + t)) (FBLK_FREE + 4 * m) ∨
      m = 0 ∧
        ¬ Spilled (unused fs rep) (read32 (read_block fs (fs.part_off + t)) (FBLK_FREE + 4 * m)) ∧
        NICFREE < u16 (read_block fs (fs.part_off +
          read32 (read_block fs (fs.part_off + t)) (FBLK_FREE + 4 * m))) FBLK_NFREE

/-- Rebuilding succeeds, and chains the unused blocks from the highest to the lowest. -/
lemma rebuild_built {rep : FsckReport} (time : ℕ → ℕ) (hck : check_blocks fs = .ok rep)
    (hheld : (fs.part_off + rep.fsize) * BLOCK ≤ fs.len) :
    ∃ gs, rebuild_free_list time fs = .ok (rep, gs) ∧ Built fs gs (unused fs rep) := by
  obtain ⟨h1, h2, h3, h4⟩ := check_blocks_ok hck
  have hP : Partition fs := ⟨by omega, by omega, by rw [← h4]; exact hheld⟩
  obtain ⟨fs₁, e1, hb1⟩ := reset_built hP (time 0) rep
  obtain ⟨gs, e2, hb2⟩ := free_blocks_built hP time (used fs rep)
    (List.range' rep.isize (rep.fsize - rep.isize)).reverse hb1
    (by
      intro b hb
      rw [List.mem_reverse, List.mem_range'_1] at hb
      omega)
    (List.nodup_reverse.mpr (List.nodup_range' ..)) (by simp) (by simp)
  refine ⟨gs, ?_, ?_⟩
  · rw [rebuild_free_list, hck]
    simp only [bind, Except.bind, e1]
    exact congrArg (fun r => r.bind fun fs => Except.ok (rep, fs)) e2
  · rw [List.filter_reverse, List.reverse_reverse, List.append_nil] at hb2
    exact hb2

/-! ### The kernel on the rebuilt list -/

section Kernel

variable {rep : FsckReport}

lemma unused_range {b : ℕ} (hb : b ∈ unused fs rep) : rep.isize ≤ b ∧ b < rep.fsize := by
  have h := (List.mem_filter.mp hb).1
  rw [List.mem_range'_1] at h
  omega

/-- No cache is spilled to the first block freed. -/
lemma not_spilled_last {l : List ℕ} {t : ℕ} (h : (l ++ [t]).Nodup) : ¬ Spilled (l ++ [t]) t := by
  rintro ⟨pre, suf, he, hne, -⟩
  obtain ⟨suf', x, rfl⟩ := List.eq_nil_or_concat suf |>.resolve_left hne
  have he' : l ++ [t] = (pre ++ t :: suf') ++ [x] := by simpa using he
  obtain ⟨rfl, hx⟩ := List.append_inj' he' rfl
  obtain rfl : t = x := by simpa using hx
  simp [List.nodup_append] at h

variable (hck : check_blocks fs = .ok rep) (hB : Built fs gs (unused fs rep))

include hck hB

lemma mounted_usable : Usable (mounted gs) ∧ (mounted gs).m_super.s_isize = rep.isize := by
  obtain ⟨h1, -, h3, -⟩ := check_blocks_ok hck
  have hi : (mounted gs).m_super.s_isize = rep.isize := by
    rw [h3, ← hB.isize, ← u16_eq]; rfl
  exact ⟨⟨rfl, fun _ => rfl, by rw [hi]; exact h1⟩, hi⟩

lemma mounted_fsize : (mounted gs).m_super.s_fsize = long rep.fsize := by
  obtain ⟨-, -, -, h4⟩ := check_blocks_ok hck
  rw [h4, ← hB.fsize, ← read32_eq]; rfl

omit hck in
lemma mounted_nfree : (mounted gs).m_super.s_nfree = cached (unused fs rep).length := by
  rw [← hB.nfree, ← u16_eq]; rfl

/-- The kernel cannot use a volume whose size is no `long`. -/
lemma not_handsOut_big (hbig : ¬ rep.fsize < 2147483648) (hne : unused fs rep ≠ []) :
    ¬ HandsOut (mounted gs) ((unused fs rep).map Nat.cast) := by
  obtain ⟨hu, hi⟩ := mounted_usable hck hB
  have hf := mounted_fsize hck hB
  have hn := mounted_nfree hB
  obtain ⟨b, l, hl⟩ := List.exists_cons_of_ne_nil hne
  have hb := unused_range (show b ∈ unused fs rep by simp [hl])
  have htop := hB.top b l hl
  obtain ⟨m, hm⟩ : ∃ m, cached (unused fs rep).length = m + 1 := by
    have := cached_eq (unused fs rep).length
    have : 0 < (unused fs rep).length := List.length_pos_of_ne_nil hne
    exact ⟨cached (unused fs rep).length - 1, by omega⟩
  rw [hm] at hn htop
  have hfree : (mounted gs).m_super.s_free m = long b := by
    rw [mounted_free, ← htop]; rfl
  have h32 : rep.fsize < 4294967296 := by
    rw [(check_blocks_ok hck).2.2.2]; exact read32_lt _ _
  have hR : Refused (mounted gs) m ((mounted gs).m_super.s_free m) := by
    unfold Refused
    rw [hfree, hf, hi]
    unfold long
    split_ifs <;> omega
  have h0 := ((balloc_top hn hu.ron hu.rdok hu.isize).1 hR).1
  rintro ⟨hp, -⟩
  rw [hl, List.map_cons, List.length_cons, ballocs, h0] at hp
  have hz : (0 : ℤ) ∈ (unused fs rep).map Nat.cast := by
    rw [hl, List.map_cons]
    exact hp.subset (by simp)
  obtain ⟨z, hz, he⟩ := List.mem_map.mp hz
  have := unused_range hz
  have := (check_blocks_ok hck).1
  omega

/-- Whether the entry `c` is refused, in terms of the image before rebuilding. -/
lemma refused_iff (hsmall : rep.fsize < 2147483648) (m c : ℕ) (hc : c < 4294967296) :
    Refused (mounted gs) m (long c) ↔ c < rep.isize ∨ rep.fsize ≤ c ∨
      m = 0 ∧ ¬ Spilled (unused fs rep) c ∧
        NICFREE < u16 (read_block fs (fs.part_off + c)) FBLK_NFREE := by
  obtain ⟨-, hi⟩ := mounted_usable hck hB
  have h2 := (check_blocks_ok hck).1
  unfold Refused
  rw [mounted_fsize hck hB, hi, long_natCast hsmall]
  by_cases hin : rep.isize ≤ c ∧ c < rep.fsize
  · rw [long_natCast (by omega)]
    have hdisk : df_nfree ((mounted gs).disk c) = u16 (read_block gs (gs.part_off + c)) FBLK_NFREE :=
      u16_eq _ _
    rw [hdisk]
    by_cases hs : Spilled (unused fs rep) c
    · have := hB.spilled c hs
      simp only [hs, not_true_eq_false, false_and, and_false, or_false]
      omega
    · rw [hB.kept c (by omega) hs, hB.part]
      simp only [hs, not_false_eq_true, true_and]
      omega
  · have hbad : long c ≥ rep.fsize ∨ long c < rep.isize := by
      unfold long
      split_ifs <;> omega
    constructor
    · intro _; omega
    · intro _
      rcases hbad with h | h
      · exact Or.inr (Or.inl h)
      · exact Or.inr (Or.inr (Or.inl h))

/-- What the kernel does with the rebuilt list, by the bytes of its tail. -/
lemma handsOut_built :
    HandsOut (mounted gs) ((unused fs rep).map Nat.cast) ↔ TailEnds fs rep := by
  obtain ⟨hu, hi⟩ := mounted_usable hck hB
  have hn := mounted_nfree hB
  have h2 := (check_blocks_ok hck).1
  rcases List.eq_nil_or_concat (unused fs rep) with hnil | ⟨l, t, hl⟩
  · -- nothing is free, and the cache is empty
    rw [hnil] at hn
    have he := balloc_empty hu.ron hn
    simp [HandsOut, TailEnds, hnil, ballocs, he, enospc]
  rw [List.concat_eq_append] at hl
  have hlast : (unused fs rep).getLast? = some t := by rw [hl]; simp
  have hne : unused fs rep ≠ [] := by rw [hl]; simp
  by_cases hsmall : rep.fsize < 2147483648
  · have hc := hB.chain (by rw [← (check_blocks_ok hck).2.2.2]; exact hsmall) hne
    have hnd : (unused fs rep).Nodup := List.Nodup.filter _ (List.nodup_range' ..)
    have hts : ¬ Spilled (unused fs rep) t := by
      rw [hl] at hnd ⊢
      exact not_spilled_last hnd
    have ht := unused_range (show t ∈ unused fs rep by simp [hl])
    have htb : (mounted gs).disk t = read_block fs (fs.part_off + t) := by
      rw [← hB.part, ← hB.kept t (by omega) hts]
      simp [mounted]
    have hr : ∀ b ∈ (unused fs rep).map Nat.cast,
        ((mounted gs).m_super.s_isize : ℤ) ≤ b ∧ b < (mounted gs).m_super.s_fsize := by
      intro b hb
      obtain ⟨x, hx, rfl⟩ := List.mem_map.mp hb
      have := unused_range hx
      rw [hi, mounted_fsize hck hB, long_natCast hsmall]
      omega
    have hmap : (unused fs rep).map (Nat.cast (R := ℤ)) = l.map Nat.cast ++ [(t : ℤ)] := by
      rw [hl]; simp
    rw [← hn, hmap] at hc
    rw [hmap] at hr ⊢
    rw [handsOut_open hu hc hr, htb, df_nfree, u16_eq]
    have key : ∀ m, u16 (read_block fs (fs.part_off + t)) FBLK_NFREE = m + 1 →
        df_free (read_block fs (fs.part_off + t)) m =
          long (read32 (read_block fs (fs.part_off + t)) (FBLK_FREE + 4 * m)) := by
      intro m hm
      rw [df_free, df_nfree, u16_eq, if_pos (by unfold FBLK_NFREE at hm; omega), read32_eq]
      rfl
    constructor
    · rintro ⟨hle, hm⟩ t' ht'
      obtain rfl : t = t' := by rw [hlast] at ht'; exact Option.some.inj ht'
      refine ⟨hsmall, hle, fun m hm' => ?_⟩
      have := hm m hm'
      rw [key m hm'] at this
      exact (refused_iff hck hB hsmall m _ (read32_lt _ _)).mp this
    · intro h
      obtain ⟨-, hle, hm⟩ := h t hlast
      refine ⟨hle, fun m hm' => ?_⟩
      rw [key m hm']
      exact (refused_iff hck hB hsmall m _ (read32_lt _ _)).mpr (hm m hm')
  · refine iff_of_false (not_handsOut_big hck hB hsmall hne) fun h => hsmall (h t hlast).1

end Kernel

/-- **The kernel agrees with the offline repair exactly when the tail ends the chain.** On an
accepted super block, in an image that holds the partition, rebuilding succeeds, and repeated
allocation then hands out the unused blocks, each once, and reports `ENOSPC`, if and only if
the bytes that the tail block held before end the list. -/
theorem rebuild_hands_out_iff {rep : FsckReport} (time : ℕ → ℕ)
    (hck : check_blocks fs = .ok rep) (hheld : (fs.part_off + rep.fsize) * BLOCK ≤ fs.len) :
    ∃ gs, rebuild_free_list time fs = .ok (rep, gs) ∧
      (HandsOut (mounted gs) ((unused fs rep).map Nat.cast) ↔ TailEnds fs rep) := by
  obtain ⟨gs, he, hB⟩ := rebuild_built time hck hheld
  exact ⟨gs, he, handsOut_built hck hB⟩

/-- A volume of five blocks with an empty i-list of one. Blocks 3 and 4 are unused; block 4
has the bytes of a free block with `n` entries, the first of which is block 3. -/
def smallImage (n : UInt8) : CoherentFS where
  image i := if i = 512 then 3 else if i = 516 then 5 else if i = 2048 then n else
    if i = 2052 then 3 else 0
  len := 2560
  part_off := 0

def smallReport : FsckReport := ⟨3, 5, 0, 8, 0, 2, [], []⟩

/-- With a zero count in block 4 the kernel hands out blocks 3 and 4 and stops. -/
theorem smallImage_zero_hands_out : ∃ gs,
    rebuild_free_list (fun _ => 0) (smallImage 0) = .ok (smallReport, gs) ∧
      HandsOut (mounted gs) [3, 4] := by
  have hck : check_blocks (smallImage 0) = .ok smallReport := by decide +kernel
  have hun : unused (smallImage 0) smallReport = [3, 4] := by decide +kernel
  obtain ⟨gs, he, h⟩ := rebuild_hands_out_iff (fun _ => 0) hck (by decide)
  refine ⟨gs, he, ?_⟩
  rw [hun] at h
  refine h.mpr fun t ht => ?_
  obtain rfl : 4 = t := by rw [hun] at ht; exact Option.some.inj ht
  refine ⟨by decide, by decide +kernel, fun m hm => ?_⟩
  have h0 : u16 (read_block (smallImage 0) ((smallImage 0).part_off + 4)) FBLK_NFREE = 0 := by
    decide +kernel
  omega

/-- With the count one left in block 4, the kernel hands out block 3 a second time. -/
theorem smallImage_one_hands_out_twice : ∃ gs,
    check_blocks (smallImage 1) = .ok smallReport ∧
    rebuild_free_list (fun _ => 0) (smallImage 1) = .ok (smallReport, gs) ∧
    ¬ HandsOut (mounted gs) ((unused (smallImage 1) smallReport).map Nat.cast) := by
  have hck : check_blocks (smallImage 1) = .ok smallReport := by decide +kernel
  have hun : unused (smallImage 1) smallReport = [3, 4] := by decide +kernel
  obtain ⟨gs, he, hB⟩ := rebuild_built (fun _ => 0) hck (by decide)
  refine ⟨gs, hck, he, ?_⟩
  rw [handsOut_built hck hB]
  intro h
  obtain ⟨-, -, hm⟩ := h 4 (by rw [hun]; rfl)
  rcases hm 0 (by decide +kernel) with h3 | h3 | ⟨-, -, h3⟩
  · exact absurd h3 (by decide +kernel)
  · exact absurd h3 (by decide +kernel)
  · exact absurd h3 (by decide +kernel)

end Coherent.DiskPy
