import Coherent.FreeList

/-!
What the free list is, and what `balloc` and `bfree` do to it.

`Chain disk n free l` follows a cache of `n` entries the way `balloc` empties it: from the
top entry down to the bottom one, on into the free block the bottom entry heads, to either
of the two ends of a list. The list `l` is what a sequence of allocations would hand out.
-/

namespace Coherent.FreeList

open Coherent.Can Coherent.Super

inductive Chain (disk : ℤ → Block) : ℕ → (ℕ → ℤ) → List ℤ → Prop
  | empty (free : ℕ → ℤ) : Chain disk 0 free []
  | zero {free : ℕ → ℤ} : free 0 = 0 → Chain disk 1 free []
  | link {free : ℕ → ℤ} {l : List ℤ} : free 0 ≠ 0 → df_nfree (disk (free 0)) ≤ NICFREE →
      Chain disk (df_nfree (disk (free 0))) (df_free (disk (free 0))) l →
      Chain disk 1 free (free 0 :: l)
  | entry {n : ℕ} {free : ℕ → ℤ} {l : List ℤ} : free (n + 1) ≠ 0 → Chain disk (n + 1) free l →
      Chain disk (n + 2) free (free (n + 1) :: l)

/-- **The well-formed free list** of a file system, and the blocks on it. -/
structure WellFormed (fs : Fs) (l : List ℤ) : Prop where
  chain : Chain fs.disk fs.m_super.s_nfree fs.m_super.s_free l
  nfree : fs.m_super.s_nfree ≤ NICFREE
  range : ∀ b ∈ l, (fs.m_super.s_isize : ℤ) ≤ b ∧ b < fs.m_super.s_fsize
  nodup : l.Nodup
  tfree : fs.m_super.s_tfree = l.length
  /-- the boot block and the super block are before the i-list -/
  isize : 2 ≤ fs.m_super.s_isize
  /-- the size of the volume is a `long` -/
  fsize : fs.m_super.s_fsize < 2147483648

variable {disk disk' : ℤ → Block} {n : ℕ} {free free' : ℕ → ℤ} {l : List ℤ}

/-- A list survives any change of the disk away from its own blocks. -/
lemma Chain.congr_disk (h : Chain disk n free l) (hd : ∀ b ∈ l, disk' b = disk b) :
    Chain disk' n free l := by
  induction h with
  | empty free => exact .empty free
  | zero h0 => exact .zero h0
  | @link free l h0 hn _ ih =>
    have hb : disk' (free 0) = disk (free 0) := hd _ (by simp)
    refine .link h0 (by rwa [hb]) ?_
    rw [hb]
    exact ih fun b hb => hd b (by simp [hb])
  | entry h0 _ ih => exact .entry h0 (ih fun b hb => hd b (by simp [hb]))

/-- Only the entries below `s_nfree` matter. -/
lemma Chain.congr_free (h : Chain disk n free l) (hf : ∀ i < n, free' i = free i) :
    Chain disk n free' l := by
  induction h with
  | empty free => exact .empty _
  | zero h0 => exact .zero (by rw [hf 0 (by omega), h0])
  | @link free l h0 hn hc =>
    rw [← hf 0 (by omega)] at h0 hn hc ⊢
    exact .link h0 hn hc
  | @entry n free l h0 hc ih =>
    rw [← hf (n + 1) (by omega)] at h0 ⊢
    exact .entry h0 (ih fun i hi => hf i (by omega))

/-- The cache holds blocks of the list, and perhaps the terminating zero. -/
lemma Chain.entry_mem (h : Chain disk n free l) {i : ℕ} (hi : i < n) :
    free i ∈ l ∨ free i = 0 := by
  induction h with
  | empty free => omega
  | zero h0 => right; rw [← h0]; congr 1; omega
  | @link free l h0 hn hc => left; rw [show i = 0 by omega]; simp
  | @entry n free l h0 hc ih =>
    rcases Nat.lt_or_ge i (n + 1) with hlt | hge
    · rcases ih hlt with h1 | h1
      · exact Or.inl (by simp [h1])
      · exact Or.inr h1
    · left; rw [show i = n + 1 by omega]; simp

/-- A disk and a cache have one list. -/
lemma Chain.unique {l' : List ℤ} (h : Chain disk n free l) (h' : Chain disk n free l') :
    l = l' := by
  induction h generalizing l' with
  | empty free => cases h'; rfl
  | zero h0 =>
    cases h' with
    | zero => rfl
    | link h1 => exact absurd h0 h1
  | link h0 _ _ ih =>
    cases h' with
    | zero h1 => exact absurd h1 h0
    | link _ _ hc => rw [ih hc]
  | entry _ _ ih => cases h' with | entry _ hc => rw [ih hc]

/-! ### The free block a cache is spilled to -/

lemma df_nfree_fblk (n : ℕ) (free : ℕ → ℤ) (hn : n ≤ NICFREE) : df_nfree (fblk n free) = n := by
  have h1 : getw (fblk n free) 0 = canw n := by
    rw [fblk, getw_putls (by omega)]
    have := getw_putws (p := fun _ => 0) (o := 0) (n := 1) (k := 0) (f := fun _ => canw n)
      (by omega)
    rw [putw]
    rw [show (0 : ℕ) + 2 * 0 = 0 by rfl] at this
    rw [this, Nat.mod_eq_of_lt (canw_lt n)]
  have hlt : n < 65536 := lt_of_le_of_lt hn (by decide)
  rw [df_nfree, h1, canw_canw, Nat.mod_eq_of_lt hlt]

lemma df_free_fblk {i : ℕ} (hn : n ≤ NICFREE) (hi : i < n)
    (h0 : -2147483648 ≤ free i) (h1 : free i < 2147483648) :
    df_free (fblk n free) i = free i := by
  have hi' : i < df_nfree (fblk n free) := by rw [df_nfree_fblk n free hn]; exact hi
  have hg : getl (fblk n free) (2 + 4 * i) = canl (ulong (free i)) := by
    rw [fblk, getl_putls (lt_of_lt_of_le hi hn), if_pos hi, Nat.mod_eq_of_lt (canl_lt _)]
  rw [df_free, if_pos hi', hg, canl_canl, Nat.mod_eq_of_lt (ulong_lt _), long_ulong h0 h1]

lemma WellFormed.entry_long {fs : Fs} (h : WellFormed fs l) {i : ℕ} (hi : i < fs.m_super.s_nfree) :
    -2147483648 ≤ fs.m_super.s_free i ∧ fs.m_super.s_free i < 2147483648 := by
  have hf := h.fsize
  rcases h.chain.entry_mem hi with hm | h0
  · have := h.range _ hm
    omega
  · omega

/-- Spilling a cache to a block makes that block head the same list. -/
lemma WellFormed.chain_fblk {fs : Fs} (h : WellFormed fs l) :
    Chain fs.disk (df_nfree (fblk fs.m_super.s_nfree fs.m_super.s_free))
      (df_free (fblk fs.m_super.s_nfree fs.m_super.s_free)) l := by
  rw [df_nfree_fblk _ _ h.nfree]
  refine h.chain.congr_free fun i hi => ?_
  have := h.entry_long hi
  exact df_free_fblk h.nfree hi this.1 this.2

lemma WellFormed.ne_super {fs : Fs} (h : WellFormed fs l) {b : ℤ} (hb : b ∈ l) : b ≠ SUPERI := by
  have h1 := h.range b hb
  have h2 := h.isize
  unfold SUPERI; omega

/-! ### Allocating -/

/-- Would `balloc` refuse the top entry `free n` of a cache of `n + 1` entries? -/
def Refused (fs : Fs) (n : ℕ) (b : ℤ) : Prop :=
  b = 0 ∨ b ≥ fs.m_super.s_fsize ∨ b < fs.m_super.s_isize ∨ n = 0 ∧ df_nfree (fs.disk b) > NICFREE

/-- `gs` is `fs` with another cache: the same volume, and the same blocks but the super block. -/
structure Recached (fs gs : Fs) (n : ℕ) (free : ℕ → ℤ) : Prop where
  isize : gs.m_super.s_isize = fs.m_super.s_isize
  fsize : gs.m_super.s_fsize = fs.m_super.s_fsize
  ron : gs.m_ron = fs.m_ron
  rdok : gs.rdok = fs.rdok
  error : gs.u_error = fs.u_error
  disk : ∀ b, b ≠ SUPERI → gs.disk b = fs.disk b
  nfree : gs.m_super.s_nfree = n
  free : gs.m_super.s_free = free

lemma Recached.smod {fs gs : Fs} {n : ℕ} {free : ℕ → ℤ} (h : Recached fs gs n free) :
    Recached fs (smod gs) n free where
  isize := by rw [smod_isize, h.isize]
  fsize := by rw [smod_fsize, h.fsize]
  ron := by rw [smod_ron, h.ron]
  rdok := by rw [smod_rdok, h.rdok]
  error := by rw [smod_error, h.error]
  disk b hb := by rw [smod_disk hb, h.disk b hb]
  nfree := by rw [smod_nfree, h.nfree]
  free := by rw [smod_free, h.free]

lemma Recached.trans {fs gs hs : Fs} {n n' : ℕ} {free free' : ℕ → ℤ} (h : Recached fs gs n free)
    (h' : Recached gs hs n' free') : Recached fs hs n' free' where
  isize := h'.isize.trans h.isize
  fsize := h'.fsize.trans h.fsize
  ron := h'.ron.trans h.ron
  rdok := h'.rdok.trans h.rdok
  error := h'.error.trans h.error
  disk b hb := (h'.disk b hb).trans (h.disk b hb)
  nfree := h'.nfree
  free := h'.free

lemma ballocEnd_recached {fs gs : Fs} {n : ℕ} {free : ℕ → ℤ} {b : ℤ} (h : Recached fs gs n free)
    (h0 : (fs.m_super.s_isize : ℤ) ≤ b) (h1 : b < fs.m_super.s_fsize) :
    (ballocEnd gs b).1 = b ∧ Recached fs (ballocEnd gs b).2 n free ∧
      (ballocEnd gs b).2.m_super.s_tfree = gs.m_super.s_tfree - 1 := by
  have hr : ¬ (b ≥ gs.m_super.s_fsize ∨ b < gs.m_super.s_isize) := by
    rw [h.isize, h.fsize]; omega
  simp only [ballocEnd, if_neg hr, true_and, smod_tfree, and_true]
  exact Recached.smod ⟨h.isize, h.fsize, h.ron, h.rdok, h.error, h.disk, h.nfree, h.free⟩

/-- **What `balloc` does with the top entry of the cache**: refuse it with `ENOSPC`, or hand
it out and leave the entries below it, or the cache found in it. -/
lemma balloc_top {fs : Fs} {n : ℕ} (hn : fs.m_super.s_nfree = n + 1) (hw : fs.m_ron = false)
    (hr : ∀ b, fs.rdok b = true) (hi : 2 ≤ fs.m_super.s_isize) :
    (Refused fs n (fs.m_super.s_free n) →
      (balloc fs).1 = 0 ∧ (balloc fs).2.u_error = some .ENOSPC) ∧
    (¬ Refused fs n (fs.m_super.s_free n) →
      (balloc fs).1 = fs.m_super.s_free n ∧
      Recached fs (balloc fs).2
        (if n = 0 then df_nfree (fs.disk (fs.m_super.s_free n)) else n)
        (if n = 0 then df_free (fs.disk (fs.m_super.s_free n)) else fs.m_super.s_free) ∧
      (balloc fs).2.m_super.s_tfree = fs.m_super.s_tfree - 1) := by
  have hs : Recached fs (smod fs) (n + 1) fs.m_super.s_free :=
    Recached.smod ⟨rfl, rfl, rfl, rfl, rfl, fun _ _ => rfl, hn, rfl⟩
  generalize hb : fs.m_super.s_free n = b
  have ht := smod_tfree fs
  have hbg : (smod fs).m_super.s_free n = b := by rw [hs.free, hb]
  have hrd : (smod fs).rdok b = true := by rw [hs.rdok]; exact hr b
  unfold balloc Refused
  rw [if_neg (by simp [hw]), if_neg (by omega)]
  generalize smod fs = g at *
  simp only [hs.nfree, Nat.add_sub_cancel, hbg, hs.isize, hs.fsize]
  by_cases h0 : b = 0
  · refine ⟨fun _ => ?_, fun h => absurd (Or.inl h0) h⟩
    rw [if_pos h0]; exact ⟨rfl, rfl⟩
  by_cases hrange : b ≥ fs.m_super.s_fsize ∨ b < fs.m_super.s_isize
  · have hbad : b = 0 ∨ b ≥ fs.m_super.s_fsize ∨ b < ↑fs.m_super.s_isize ∨
        n = 0 ∧ df_nfree (fs.disk b) > NICFREE := by
      rcases hrange with h | h
      · exact Or.inr (Or.inl h)
      · exact Or.inr (Or.inr (Or.inl h))
    refine ⟨fun _ => ?_, fun h => absurd hbad h⟩
    simp only [if_neg h0, if_pos hrange]
    by_cases hn0 : n = 0
    · rw [if_pos hn0]; exact ⟨rfl, rfl⟩
    · simp only [if_neg hn0, ballocEnd, if_pos hrange]; exact ⟨rfl, rfl⟩
  have hdk : g.disk b = fs.disk b := hs.disk b (by unfold SUPERI; omega)
  have hlo : (fs.m_super.s_isize : ℤ) ≤ b := by omega
  have hhi : b < fs.m_super.s_fsize := by omega
  by_cases hn0 : n = 0
  · subst hn0
    simp only [if_neg h0, if_true, if_neg hrange, bread, if_pos hrd, hdk]
    by_cases hbig : df_nfree (fs.disk b) > NICFREE
    · simp only [if_pos hbig]
      exact ⟨fun _ => ⟨rfl, rfl⟩, fun h => absurd (Or.inr (Or.inr (Or.inr ⟨trivial, hbig⟩))) h⟩
    · simp only [if_neg hbig]
      refine ⟨fun h => by omega, fun _ => ht ▸ ballocEnd_recached ?_ hlo hhi⟩
      exact ⟨rfl, rfl, hs.ron, hs.rdok, hs.error, hs.disk, rfl, rfl⟩
  · simp only [if_neg h0, if_neg hn0]
    refine ⟨fun h => by omega, fun _ => ht ▸ ballocEnd_recached ?_ hlo hhi⟩
    exact ⟨rfl, rfl, hs.ron, hs.rdok, hs.error, hs.disk, rfl, hs.free⟩

/-- With nothing in the cache there is no space. -/
lemma balloc_empty {fs : Fs} (hw : fs.m_ron = false) (hn : fs.m_super.s_nfree = 0) :
    balloc fs = enospc fs := by
  rw [balloc, if_neg (by simp [hw]), if_pos hn]

/-- The well-formed list of a state that differs only off the list. -/
lemma WellFormed.smod {fs : Fs} (h : WellFormed fs l) : WellFormed (smod fs) l where
  chain := by
    rw [smod_nfree, smod_free]
    exact h.chain.congr_disk fun b hb => smod_disk (h.ne_super hb)
  nfree := by rw [smod_nfree]; exact h.nfree
  range := by rw [smod_isize, smod_fsize]; exact h.range
  nodup := h.nodup
  tfree := by rw [smod_tfree]; exact h.tfree
  isize := by rw [smod_isize]; exact h.isize
  fsize := by rw [smod_fsize]; exact h.fsize

lemma WellFormed.enospc {fs : Fs} (h : WellFormed fs []) (n : ℕ) :
    WellFormed (enospc { fs with m_super := { fs.m_super with s_nfree := n } }).2 [] where
  chain := .empty _
  nfree := Nat.zero_le _
  range := by simp
  nodup := List.nodup_nil
  tfree := h.tfree
  isize := h.isize
  fsize := h.fsize

/-- On an empty list `balloc` reports that there is no space, and the list stays empty. -/
theorem balloc_nil {fs : Fs} (h : WellFormed fs []) (hw : fs.m_ron = false) :
    (balloc fs).1 = 0 ∧ (balloc fs).2.u_error = some .ENOSPC ∧ WellFormed (balloc fs).2 [] := by
  have hs := h.smod
  have hc := hs.chain
  rcases Nat.eq_zero_or_pos fs.m_super.s_nfree with h0 | hpos
  · rw [balloc_empty hw h0]
    exact ⟨rfl, rfl, h.enospc fs.m_super.s_nfree⟩
  · unfold balloc
    rw [if_neg (by simp [hw]), if_neg (by omega)]
    -- the cache is not empty, so it is the lone terminating zero
    generalize hg : Super.smod fs = g at hs hc
    have hn : g.m_super.s_nfree = 1 ∧ g.m_super.s_free 0 = 0 := by
      have hgn : g.m_super.s_nfree = fs.m_super.s_nfree := by rw [← hg, smod_nfree]
      generalize hm : g.m_super.s_nfree = m at hc
      cases hc with
      | empty => omega
      | zero hz => exact ⟨rfl, hz⟩
    simp only [hn.1, Nat.sub_self, hn.2, if_true]
    exact ⟨rfl, rfl, hs.enospc 0⟩

/-- The rest of a well-formed list, once its head block is off the cache. -/
lemma WellFormed.tail {fs gs : Fs} {b : ℤ} (h : WellFormed fs (b :: l)) {n : ℕ} {free : ℕ → ℤ}
    (hn : n ≤ NICFREE) (hc : Chain fs.disk n free l) (hg : Recached fs gs n free)
    (ht : gs.m_super.s_tfree = fs.m_super.s_tfree - 1) : WellFormed gs l where
  chain := by
    rw [hg.nfree, hg.free]
    exact hc.congr_disk fun c hc => hg.disk c (h.ne_super (by simp [hc]))
  nfree := by rw [hg.nfree]; exact hn
  range := by
    rw [hg.isize, hg.fsize]
    exact fun c hc => h.range c (by simp [hc])
  nodup := h.nodup.of_cons
  tfree := by
    rw [ht, h.tfree, List.length_cons]
    push_cast; ring
  isize := by rw [hg.isize]; exact h.isize
  fsize := by rw [hg.fsize]; exact h.fsize

/-- From a list with a block `balloc` hands out its head and removes nothing else. -/
theorem balloc_cons {fs : Fs} {b : ℤ} (h : WellFormed fs (b :: l)) (hw : fs.m_ron = false)
    (hr : ∀ b, fs.rdok b = true) :
    (balloc fs).1 = b ∧ (balloc fs).2.u_error = fs.u_error ∧ WellFormed (balloc fs).2 l := by
  have hb := h.range b (by simp)
  have hi := h.isize
  have hc := h.chain
  generalize hm : fs.m_super.s_nfree = m at hc
  cases hc with
  | @link _ l h0 hnf hc =>
    -- the bottom entry: the cache is refilled from the block itself
    have hok : ¬ Refused fs 0 (fs.m_super.s_free 0) := by
      rintro (h1 | h1 | h1 | ⟨-, h1⟩) <;> omega
    obtain ⟨hb', hrc, ht⟩ := (balloc_top hm hw hr hi).2 hok
    exact ⟨hb', hrc.error, h.tail hnf hc hrc ht⟩
  | @entry n _ l h0 hc =>
    have hok : ¬ Refused fs (n + 1) (fs.m_super.s_free (n + 1)) := by
      rintro (h1 | h1 | h1 | ⟨h1, -⟩) <;> omega
    obtain ⟨hb', hrc, ht⟩ := (balloc_top hm hw hr hi).2 hok
    have hle := h.nfree
    exact ⟨hb', hrc.error, h.tail (by omega) hc hrc ht⟩

/-! ### Freeing -/

/-- Freeing a block that is in the volume and not on the list puts it at the head. -/
theorem bfree_cons {fs : Fs} {b : ℤ} (h : WellFormed fs l) (hw : fs.m_ron = false)
    (h0 : (fs.m_super.s_isize : ℤ) ≤ b) (h1 : b < fs.m_super.s_fsize) (hb : b ∉ l) :
    (bfree fs b).u_error = fs.u_error ∧ WellFormed (bfree fs b) (b :: l) := by
  have hi := h.isize
  have hb0 : b ≠ 0 := by omega
  have hrange : ∀ c ∈ b :: l, (fs.m_super.s_isize : ℤ) ≤ c ∧ c < fs.m_super.s_fsize := by
    intro c hc
    rcases List.mem_cons.mp hc with rfl | hc
    · exact ⟨h0, h1⟩
    · exact h.range c hc
  have hnd : (b :: l).Nodup := List.nodup_cons.mpr ⟨hb, h.nodup⟩
  have ht : fs.m_super.s_tfree + 1 = ((b :: l).length : ℤ) := by
    rw [h.tfree, List.length_cons]; push_cast; ring
  have hr : ¬ (b ≥ fs.m_super.s_fsize ∨ b < fs.m_super.s_isize) := by omega
  unfold bfree
  rw [if_neg (by simp [hw]), if_neg hr]
  by_cases hsp : fs.m_super.s_nfree = 0 ∨ fs.m_super.s_nfree = NICFREE
  · -- the block takes over the cache and becomes the only entry of a new one
    simp only [if_pos hsp, smod_error]
    refine ⟨rfl, WellFormed.smod ⟨?_, show 0 + 1 ≤ NICFREE by decide, hrange, hnd, ht, hi, h.fsize⟩⟩
    simp only [bput, Nat.zero_add]
    set d := Function.update fs.disk b (fblk fs.m_super.s_nfree fs.m_super.s_free) with hd
    have hk : Chain d _ _ l := h.chain_fblk.congr_disk fun c hc =>
      Function.update_of_ne (by rintro rfl; exact hb hc) _ _
    have hl : Chain d 1 (Function.update fs.m_super.s_free 0 b) _ :=
      .link (by simpa using hb0) (by simpa [hd, df_nfree_fblk _ _ h.nfree] using h.nfree)
        (by simpa [hd] using hk)
    simpa using hl
  · -- there is room on top of the cache
    simp only [if_neg hsp, smod_error]
    have hlt := lt_of_le_of_ne h.nfree fun e => hsp (Or.inr e)
    refine ⟨trivial, WellFormed.smod ⟨?_, hlt, hrange, hnd, ht, hi, h.fsize⟩⟩
    obtain ⟨m, hm⟩ : ∃ m, fs.m_super.s_nfree = m + 1 :=
      Nat.exists_eq_succ_of_ne_zero fun e => hsp (Or.inl e)
    have hc : Chain fs.disk (m + 1) (Function.update fs.m_super.s_free (m + 1) b) l := by
      refine (hm ▸ h.chain).congr_free fun i hi => Function.update_of_ne (by omega) _ _
    have := Chain.entry (by simpa using hb0) hc
    simpa [hm] using this

end Coherent.FreeList
