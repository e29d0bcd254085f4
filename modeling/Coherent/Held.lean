import Coherent.FileTree
import Coherent.FileIo

/-!
Blocks move between the free list and the tree of one file, and nowhere else.

Writing to a file, clearing it and writing to a pipe keep the free blocks and the blocks of
the file together, and leave every other block of the volume as it is. That holds on every
way out, also when the space runs out or a copy faults.
-/

namespace Coherent.FileIo

open Coherent.Can Coherent.Super Coherent.FreeList Coherent.FileMap Coherent.Itable

/-- The free blocks and the blocks of the first `k` addresses of an inode. -/
def held (fs : Fs) (l : List ℤ) (k : ℕ) (a : ℕ → ℤ) : Multiset ℤ :=
  (l : Multiset ℤ) + roots fs.disk k a

/-- A live volume on which no block of the file is free or in the file twice. -/
structure Sound (fs : Fs) (l : List ℤ) (k : ℕ) (a : ℕ → ℤ) : Prop where
  live : Live fs l
  nodup : (held fs l k a).Nodup
  vol : InVolume fs (held fs l k a)

/-- From `fs` to `gs`, blocks have moved between the free list and the file only. -/
structure Kept (fs : Fs) (l : List ℤ) (k : ℕ) (a : ℕ → ℤ) (gs : Fs) (l' : List ℤ)
    (a' : ℕ → ℤ) : Prop where
  live : Live gs l'
  vol : SameVolume fs gs
  held : held gs l' k a' = held fs l k a
  frame : ∀ c, c ∉ FileIo.held fs l k a → c ≠ SUPERI → gs.disk c = fs.disk c

variable {fs gs hs : Fs} {l l' l₂ : List ℤ} {k : ℕ} {a a' a₂ : ℕ → ℤ}

lemma Kept.refl (h : Live fs l) : Kept fs l k a fs l a :=
  ⟨h, .refl fs, rfl, fun _ _ _ => rfl⟩

lemma Kept.trans (h : Kept fs l k a gs l' a') (h' : Kept gs l' k a' hs l₂ a₂) :
    Kept fs l k a hs l₂ a₂ where
  live := h'.live
  vol := h.vol.trans h'.vol
  held := h'.held.trans h.held
  frame c hc hcs := by
    have hc' : c ∉ FileIo.held gs l' k a' := by rw [h.held]; exact hc
    rw [h'.frame c hc' hcs, h.frame c hc hcs]

lemma Sound.kept (h : Sound fs l k a) (hk : Kept fs l k a gs l' a') : Sound gs l' k a' where
  live := hk.live
  nodup := by rw [hk.held]; exact h.nodup
  vol := by
    rw [hk.held]
    intro b hb
    rw [hk.vol.isize, hk.vol.fsize]
    exact h.vol b hb

lemma Sound.roots_nodup (h : Sound fs l k a) : (roots fs.disk k a).Nodup :=
  (Multiset.nodup_add.mp h.nodup).2.1

lemma Sound.not_free (h : Sound fs l k a) {b : ℤ} (hb : b ∈ roots fs.disk k a) : b ∉ l := by
  intro hl
  exact Multiset.disjoint_left.mp (Multiset.nodup_add.mp h.nodup).2.2 (Multiset.mem_coe.mpr hl) hb

lemma Sound.roots_vol (h : Sound fs l k a) : InVolume fs (roots fs.disk k a) :=
  fun b hb => h.vol b (Multiset.mem_add.mpr (Or.inr hb))

/-- A volume that only reports an error. -/
lemma Live.error (h : Live fs l) (e : Option Errno) : Live { fs with u_error := e } l :=
  ⟨⟨h.wf.chain, h.wf.nfree, h.wf.range, h.wf.nodup, h.wf.tfree, h.wf.isize, h.wf.fsize⟩, h.ron,
    h.rdok⟩

lemma Kept.error (h : Live fs l) (e : Option Errno) :
    Kept fs l k a { fs with u_error := e } l a :=
  ⟨Live.error h e, ⟨rfl, rfl, rfl, rfl, rfl, rfl⟩, rfl, fun _ _ _ => rfl⟩

/-! ### Writing -/

lemma vblock_mem {disk : ℤ → Block} {lb i : ℕ} {p : List ℕ} (h : lmap lb = some (i :: p))
    (hi : i < k) (h0 : vblock disk a lb ≠ 0) : vblock disk a lb ∈ roots disk k a := by
  obtain ⟨-, hpl, hp, -⟩ := lmap_cons h
  rw [vblock_eq h] at h0 ⊢
  have hm := Lib.Radix.follow_mem hp h0
  rw [hpl] at hm
  exact Multiset.mem_of_le (root_le hi) hm

lemma kept_of_extended {lb : ℕ} {N : Multiset ℤ} (hx : Extended fs l k a lb gs l' a' N) :
    Kept fs l k a gs l' a' := by
  refine ⟨hx.live, hx.vol, ?_, fun c hc hcs => ?_⟩
  · rw [held, held, hx.roots, hx.free]
    abel
  · rw [held, Multiset.mem_add, not_or, hx.free, Multiset.mem_add, not_or] at hc
    exact hx.frame c hc.2 hc.1.1 hcs

/-- `aread`, also of a block beyond the largest file. -/
lemma kept_aread (fflag : Bool) {lb : ℕ} (h : Sound fs l k a)
    (hk : ∀ i p, lmap lb = some (i :: p) → i < k) :
    ∃ l', Kept fs l k a (aread fs a lb fflag).2.1 l' (aread fs a lb fflag).2.2 ∧
      (∀ i, k ≤ i → (aread fs a lb fflag).2.2 i = a i) ∧
      ∀ b, (aread fs a lb fflag).1 = some b → ∃ i p, lmap lb = some (i :: p) ∧
        vblock (aread fs a lb fflag).2.1.disk (aread fs a lb fflag).2.2 lb = b ∧ b ≠ 0 := by
  cases hlb : lmap lb with
  | none =>
    rw [aread, hlb]
    exact ⟨l, Kept.error h.live _, fun _ _ => rfl, fun b hb => absurd hb (by simp)⟩
  | some r =>
    obtain ⟨i, p, rfl, -⟩ := lmap_some hlb
    have hnd : (roots fs.disk k a + l).Nodup := by rw [add_comm]; exact h.nodup
    obtain ⟨l', N, hx, ho⟩ := aread_spec fflag h.live hlb (hk i p hlb) hnd h.roots_vol
    refine ⟨l', kept_of_extended hx, fun i hi => hx.addr i (Or.inr hi), fun b hb => ?_⟩
    rw [hb] at ho
    exact ⟨i, p, rfl, ho.1, ho.2.1⟩

/-- Writing a block of the file. -/
lemma kept_write {lb i : ℕ} {p : List ℕ} (h : Sound fs l k a) (hlb : lmap lb = some (i :: p))
    (hi : i < k) (h0 : vblock fs.disk a lb ≠ 0) (q : Block) :
    Kept fs l k a (bput fs (vblock fs.disk a lb) q) l a := by
  have hm := vblock_mem hlb hi h0
  have hd : ∀ c, c ≠ vblock fs.disk a lb →
      (bput fs (vblock fs.disk a lb) q).disk c = fs.disk c := fun c hc => bput_disk_of_ne q hc
  refine ⟨h.live.bput (h.not_free hm) q, bput_sameVolume _ _ _, ?_, ?_⟩
  · rw [held, held, (write_vblock h.roots_nodup hlb hi h0 hd).1]
  · intro c hc _
    apply hd
    rintro rfl
    exact hc (Multiset.mem_add.mpr (Or.inr hm))

lemma kept_ioread {lb i : ℕ} {p : List ℕ} (off n : ℕ) (iop : Source) (h : Sound fs l k a)
    (hlb : lmap lb = some (i :: p)) (hi : i < k) (h0 : vblock fs.disk a lb ≠ 0) :
    Kept fs l k a (ioread fs iop (vblock fs.disk a lb) off n).1 l a := by
  have hw := kept_write h hlb hi h0
    (copyIn (fs.disk (vblock fs.disk a lb)) off (iop.io_data.take (min n iop.io_good)))
  unfold ioread
  dsimp only
  split_ifs
  · exact hw.trans (Kept.error hw.live _)
  · exact hw

/-- The inode, but for its size and its first `k` addresses. -/
def SameInode (k : ℕ) (ip ip' : Inode) : Prop :=
  ip' = { ip with i_size := ip'.i_size, i_addr := ip'.i_addr } ∧
    ∀ i, k ≤ i → ip'.i_addr i = ip.i_addr i

lemma SameInode.trans {ip ip' ip₂ : Inode} (h : SameInode k ip ip') (h' : SameInode k ip' ip₂) :
    SameInode k ip ip₂ := by
  refine ⟨?_, fun i hi => by rw [h'.2 i hi, h.2 i hi]⟩
  rw [h'.1, h.1]

lemma fwriteLoop_kept {fs : Fs} {ip : Inode} {iop : Source} {lbn : ℕ} {off : Fin BSIZE}
    {l : List ℤ} (h : Sound fs l k ip.i_addr)
    (hk : ∀ lb i p, lb * BSIZE < lbn * BSIZE + off + iop.io_data.length →
      lmap lb = some (i :: p) → i < k) :
    ∃ l', Kept fs l k ip.i_addr (fwriteLoop fs ip iop lbn off).1 l'
        (fwriteLoop fs ip iop lbn off).2.1.i_addr ∧
      SameInode k ip (fwriteLoop fs ip iop lbn off).2.1 ∧
      (fwriteLoop fs ip iop lbn off).2.2.io_data.length ≤ iop.io_data.length := by
  fun_induction fwriteLoop fs ip iop lbn off generalizing l with
  | case1 fs ip iop lbn off hnil => exact ⟨l, .refl h.live, ⟨rfl, fun _ _ => rfl⟩, le_rfl⟩
  | case2 fs ip iop lbn off hne n com r ip' =>
    obtain ⟨l', h1, ha, -⟩ := kept_aread com h fun i p => hk lbn i p (by
      have := List.length_pos_of_ne_nil hne
      omega)
    exact ⟨l', h1, ⟨rfl, ha⟩, le_rfl⟩
  | case3 fs ip iop lbn off hne n com r ip' b hr s hm seek =>
    rename_i ih
    have hpos := List.length_pos_of_ne_nil hne
    have hoff := off.isLt
    obtain ⟨l₁, h1, ha, hb⟩ := kept_aread com h fun i p => hk lbn i p (by omega)
    obtain ⟨i, p, hlb, rfl, h0⟩ := hb b hr
    have hi := hk lbn i p (by omega) hlb
    have h2 : Kept r.2.1 l₁ k r.2.2 s.1 l₁ r.2.2 := kept_ioread off n iop (h.kept h1) hlb hi h0
    have hlen : s.2.io_data.length = iop.io_data.length - n := by
      have : min n iop.io_good = n := min_eq_left hm.1
      simp [s, ioread, this]
    obtain ⟨l', h3, h4, h5⟩ := ih ((h.kept h1).kept h2) fun lb i p hlt => hk lb i p (by
      simp only [hlen] at hlt
      have hn : n = min (BSIZE - off) iop.io_data.length := rfl
      rcases le_or_gt lb lbn with hle | hgt
      · -- a block up to this one
        have := Nat.mul_le_mul_right BSIZE hle
        omega
      · -- a later block, so there is more to write
        have := Nat.mul_le_mul_right BSIZE hgt
        rw [Nat.succ_mul] at this
        rw [Nat.add_mul, Nat.one_mul] at hlt
        omega)
    refine ⟨l', (h1.trans h2).trans h3, .trans ⟨rfl, ha⟩ h4, le_trans h5 ?_⟩
    simp only [hlen]
    omega
  | case4 fs ip iop lbn off hne n com r ip' b hr s =>
    have hpos := List.length_pos_of_ne_nil hne
    obtain ⟨l₁, h1, ha, hb⟩ := kept_aread com h fun i p => hk lbn i p (by omega)
    obtain ⟨i, p, hlb, rfl, h0⟩ := hb b hr
    have hi := hk lbn i p (by omega) hlb
    have h2 : Kept r.2.1 l₁ k r.2.2 s.1 l₁ r.2.2 := kept_ioread off n iop (h.kept h1) hlb hi h0
    refine ⟨l₁, h1.trans h2, ⟨rfl, ha⟩, ?_⟩
    simp [s, ioread]

/-- **`fwrite`** moves blocks from the free list to the file only. -/
lemma fwrite_kept (ip : Inode) (iop : Source) (h : Sound fs l k ip.i_addr)
    (hk : ∀ lb i p, lb * BSIZE < iop.io_seek + iop.io_data.length → lmap lb = some (i :: p) → i < k) :
    ∃ l', Kept fs l k ip.i_addr (fwrite fs ip iop).1 l' (fwrite fs ip iop).2.1.i_addr ∧
      SameInode k ip (fwrite fs ip iop).2.1 ∧
      (fwrite fs ip iop).2.2.io_data.length ≤ iop.io_data.length := by
  refine fwriteLoop_kept h fun lb i p hlt => hk lb i p ?_
  have := Nat.div_add_mod iop.io_seek BSIZE
  dsimp only at hlt
  rw [Nat.mul_comm] at this
  omega

/-! ### Clearing -/

lemma naddr_cases (mode : ℕ) : naddr mode = 0 ∨ naddr mode = ND ∨ naddr mode = NADDR := by
  unfold naddr
  split_ifs <;> simp

/-- The blocks are freed from the last address to the first. -/
lemma iclear_fst (fs : Fs) (ip : Inode) :
    (iclear fs ip).1 = (List.range (naddr ip.i_mode)).reverse.foldl
      (fun fs i => indfree (level i) fs (ip.i_addr i)) fs := by
  by_cases h0 : naddr ip.i_mode = 0
  · rw [iclear, if_pos h0, h0]
    rfl
  have hND : ND ≤ naddr ip.i_mode := by
    rcases naddr_cases ip.i_mode with h | h | h
    · exact absurd h h0
    · exact h.ge
    · rw [h]; decide
  have hsplit : List.range (naddr ip.i_mode) =
      List.range ND ++ List.range' ND (naddr ip.i_mode - ND) := by
    have h := List.range'_append_1 (s := 0) (m := ND) (n := naddr ip.i_mode - ND)
    rw [Nat.zero_add, Nat.add_sub_cancel' hND] at h
    rw [List.range_eq_range', List.range_eq_range', h]
  have hind : ∀ (gs : Fs), ∀ i ∈ (List.range' ND (naddr ip.i_mode - ND)).reverse,
      (if ip.i_addr i ≠ 0 then indfree (1 + i - ND) gs (ip.i_addr i) else gs) =
        indfree (level i) gs (ip.i_addr i) := by
    intro gs i hi
    rw [List.mem_reverse, List.mem_range'_1] at hi
    have hl : level i = 1 + i - ND := by rw [level, if_neg (by omega)]; omega
    rw [hl]
    split_ifs with h
    · rfl
    · rw [not_not.mp h, indfree_zero]
  have hdir : ∀ (gs : Fs), ∀ i ∈ (List.range ND).reverse,
      (if ip.i_addr i ≠ 0 then bfree gs (ip.i_addr i) else gs) =
        indfree (level i) gs (ip.i_addr i) := by
    intro gs i hi
    rw [List.mem_reverse, List.mem_range] at hi
    have hl : level i = 0 := if_pos hi
    rw [hl, indfree]
    split_ifs <;> first | rfl | contradiction
  rw [iclear, if_neg h0, hsplit, List.reverse_append, List.foldl_append]
  dsimp only
  rw [List.foldl_ext _ _ _ hind, List.foldl_ext _ _ _ hdir]

/-- **`iclear`** returns every block of the inode to the free list, once, and changes no
other block. -/
lemma iclear_freed {ip : Inode} (h : Sound fs l (naddr ip.i_mode) ip.i_addr) :
    ∃ l', Freed fs l (roots fs.disk (naddr ip.i_mode) ip.i_addr) (iclear fs ip).1 l' := by
  have hsum := sum_reverse_range (naddr ip.i_mode) fun i => tree fs.disk (level i) (ip.i_addr i)
  obtain ⟨l', hf⟩ := foldl_freed (n := level) (e := ip.i_addr)
    (fun i (_ : i ∈ (List.range (naddr ip.i_mode)).reverse) fs l hL hnd hin =>
      indfree_spec (level i) hL hnd hin) h.live
    (by rw [hsum, add_comm]; exact h.nodup) (by rw [hsum]; exact h.roots_vol)
  rw [hsum] at hf
  rw [iclear_fst]
  exact ⟨l', hf⟩

/-- It leaves the address list all zero. -/
lemma iclear_addr {ip : Inode} (h : naddr ip.i_mode ≠ 0) :
    (iclear fs ip).2.i_addr = fun _ => 0 := by
  rw [iclear, if_neg h]
  rfl

lemma roots_zero (disk : ℤ → Block) (k : ℕ) : roots disk k (fun _ => 0) = 0 := by
  simp [roots]

lemma roots_none (disk : ℤ → Block) (a : ℕ → ℤ) : roots disk 0 a = 0 := Finset.sum_range_zero _

lemma roots_addr {disk : ℤ → Block} (h : ∀ i < k, a' i = a i) : roots disk k a' = roots disk k a :=
  Finset.sum_congr rfl fun i hi => by rw [h i (Finset.mem_range.mp hi)]

/-! ### Reading -/

/-- Reading leaves an error at most. -/
def Quiet (fs gs : Fs) : Prop := gs = { fs with u_error := gs.u_error }

lemma Quiet.trans (h : Quiet fs gs) (h' : Quiet gs hs) : Quiet fs hs := by
  unfold Quiet
  rw [h', h]

lemma vmap_quiet (fs : Fs) (a : ℕ → ℤ) (lb : ℕ) : Quiet fs (vmap fs a lb).2 := by
  unfold vmap
  split <;> rfl

lemma iowrite_quiet (fs : Fs) (iop : Sink) (p : Block) (off n : ℕ) :
    Quiet fs (iowrite fs iop p off n).1 := by
  unfold iowrite
  dsimp only
  split_ifs <;> rfl

lemma readList_quiet (fs : Fs) (a : ℕ → ℤ) (zbn n : ℕ) : Quiet fs (readList fs a zbn n).2 := by
  induction n generalizing fs zbn with
  | zero => rfl
  | succ n ih =>
    rw [readList]
    by_cases h : (vmap fs a zbn).1 < 0
    · rw [if_pos h]
      exact vmap_quiet fs a zbn
    · rw [if_neg h]
      exact (vmap_quiet fs a zbn).trans (ih _ _)

lemma freadLoop_quiet (fs : Fs) (a : ℕ → ℤ) (iop : Sink) (lbn : ℕ) (off : Fin BSIZE)
    (res abn zbn : ℕ) (list : List ℤ) :
    Quiet fs (freadLoop fs a iop lbn off res abn zbn list).1 := by
  have hfill : ∀ (fill : Bool) (n lbn : ℕ) (fs gs : Fs) (list : List ℤ) (o : Option (List ℤ)),
      (if _ : fill then readList fs a lbn n else (some list, fs)) = (o, gs) → Quiet fs gs := by
    intro fill n lbn fs gs list o h
    split_ifs at h
    · have := readList_quiet fs a lbn n
      rwa [h] at this
    · rw [← (Prod.mk.inj h).2]
      rfl
  fun_induction freadLoop fs a iop lbn off res abn zbn list with
  | case1 => rfl
  | case2 => exact hfill _ _ _ _ _ _ _ ‹_›
  | case3 => exact hfill _ _ _ _ _ _ _ ‹_ = (some _, _)›
  | case4 => exact (hfill _ _ _ _ _ _ _ ‹_ = (some _, _)›).trans (iowrite_quiet _ _ _ _ _)
  | case5 =>
    rename_i ih
    exact ((hfill _ _ _ _ _ _ _ ‹_ = (some _, _)›).trans (iowrite_quiet _ _ _ _ _)).trans ih

lemma vread_quiet (fs : Fs) (a : ℕ → ℤ) (lb : ℕ) : Quiet fs (vread fs a lb).2 := by
  have := vmap_quiet fs a lb
  unfold vread
  dsimp only
  split_ifs <;> exact this

lemma fread_quiet (fs : Fs) (ip : Inode) (iop : Sink) : Quiet fs (fread fs ip iop).1 := by
  have hv := vread_quiet fs ip.i_addr (iop.io_seek / BSIZE)
  unfold fread
  extract_lets lbn off res
  by_cases h0 : res ≤ 0
  · rw [if_pos h0]
    rfl
  rw [if_neg h0]
  by_cases h1 : res + off ≤ BSIZE
  · rw [if_pos h1]
    split
    · rename_i gs heq
      rwa [heq] at hv
    · rename_i bp gs heq
      rw [heq] at hv
      exact hv.trans (iowrite_quiet _ _ _ _ _)
  · rw [if_neg h1]
    exact freadLoop_quiet ..

lemma Kept.quiet (h : Live fs l) (hq : Quiet fs gs) : Kept fs l k a gs l a := by
  rw [hq]
  exact .error h _

/-! ### Pipes -/

/-- The counters of a pipe are in its ring. -/
structure PipeOk (a : ℕ → ℤ) : Prop where
  pnc : i_pnc a ≤ PIPSIZE
  prx : i_prx a < PIPSIZE
  pwx : i_pwx a < PIPSIZE

/-- The blocks of a pipe are the direct ones. -/
lemma pipe_root {lb i n : ℕ} {p : List ℕ} (hlt : lb * BSIZE < n) (hn : n ≤ PIPSIZE)
    (h : lmap lb = some (i :: p)) : i < ND := by
  rw [(lmap_cons h).2.2.2]
  have h1 : lb * BSIZE < ND * BSIZE := lt_of_lt_of_le hlt hn
  exact Nat.lt_of_mul_lt_mul_right h1

lemma pwriteTurn_kept (ip : Inode) (iop : Source) (h : Sound fs l ND ip.i_addr)
    (hp : PipeOk ip.i_addr) :
    ∃ l', Kept fs l ND ip.i_addr (pwriteTurn fs ip iop).1 l' (pwriteTurn fs ip iop).2.1.i_addr ∧
      (pwriteTurn fs ip iop).2.1 = { ip with
        i_size := (pwriteTurn fs ip iop).2.1.i_size
        i_addr := (pwriteTurn fs ip iop).2.1.i_addr } ∧
      PipeOk (pwriteTurn fs ip iop).2.1.i_addr := by
  unfold pwriteTurn
  split_ifs with hpipe
  · exact ⟨l, .error h.live _, rfl, hp⟩
  extract_lets n r m a pwx a'
  have hn1 : n ≤ PIPSIZE - i_pwx ip.i_addr := by omega
  have hn2 : n ≤ PIPSIZE - i_pnc ip.i_addr := by omega
  have hm : m ≤ n := Nat.sub_le _ _
  obtain ⟨l', h1, h2, -⟩ := fwrite_kept ip ⟨i_pwx ip.i_addr, iop.io_data.take n, iop.io_good⟩ h
    (fun lb i p hlt => pipe_root (n := i_pwx ip.i_addr + n) (by
      simp only [List.length_take] at hlt
      omega) (by have := hp.pwx; omega))
  have e0 : i_pnc a = i_pnc ip.i_addr := congrArg highHalf (h2.2 10 le_rfl)
  have e1 : i_prx a = i_prx ip.i_addr := congrArg lowHalf (h2.2 10 le_rfl)
  have e2 : i_pwx a = i_pwx ip.i_addr := congrArg highHalf (h2.2 11 (by decide))
  have haddr : ∀ i < ND, setPnc a' (i_pnc a' + m) i = a i := by
    intro i hi
    rw [(counters_addr _ _ hi).1]
    exact (counters_addr _ _ hi).2.2
  refine ⟨l', ⟨h1.live, h1.vol, ?_, h1.frame⟩, ?_, ?_⟩
  · rw [← h1.held, held, held, roots_addr haddr]
  · exact congrArg (fun q : Inode => { q with i_addr := setPnc a' (i_pnc a' + m) }) h2.1
  · have hPS : PIPSIZE = 5120 := rfl
    obtain ⟨p0, p1, p2⟩ := hp
    refine ⟨?_, ?_, ?_⟩
    · simp only [i_pnc_setPnc, i_pnc_setPwx, a']
      omega
    · simp only [i_prx_setPnc, i_prx_setPwx, a']
      omega
    · simp only [i_pwx_setPnc, i_pwx_setPwx, a']
      split_ifs <;> omega

lemma preadTurn_kept (ip : Inode) (iop : Sink) (h : Sound fs l ND ip.i_addr)
    (hp : PipeOk ip.i_addr) :
    Kept fs l ND ip.i_addr (preadTurn fs ip iop).1 l (preadTurn fs ip iop).2.1.i_addr ∧
      (preadTurn fs ip iop).2.1 = { ip with i_addr := (preadTurn fs ip iop).2.1.i_addr } ∧
      (∀ i < ND, (preadTurn fs ip iop).2.1.i_addr i = ip.i_addr i) ∧
      PipeOk (preadTurn fs ip iop).2.1.i_addr := by
  unfold preadTurn
  extract_lets n r m a prx a'
  have hn1 : n ≤ PIPSIZE - i_prx ip.i_addr := by omega
  have hn2 : n ≤ i_pnc ip.i_addr := by omega
  have hm : m ≤ n := Nat.sub_le _ _
  have h1 : Kept fs l ND ip.i_addr r.1 l ip.i_addr := .quiet h.live (fread_quiet _ _ _)
  have haddr : ∀ i < ND, setPnc a' (i_pnc a' - m) i = ip.i_addr i := by
    intro i hi
    rw [(counters_addr _ _ hi).1]
    exact (counters_addr _ _ hi).2.1
  refine ⟨⟨h1.live, h1.vol, ?_, h1.frame⟩, rfl, haddr, ?_⟩
  · rw [← h1.held, held, held, roots_addr haddr]
  · have hPS : PIPSIZE = 5120 := rfl
    obtain ⟨p0, p1, p2⟩ := hp
    refine ⟨?_, ?_, ?_⟩
    · simp only [i_pnc_setPnc, i_pnc_setPrx, a', a]
      omega
    · have hprx : prx = i_prx ip.i_addr + m := rfl
      simp only [i_prx_setPnc, i_prx_setPrx, a', a]
      split_ifs <;> omega
    · simp only [i_pwx_setPnc, i_pwx_setPrx, a', a]
      omega

end Coherent.FileIo
