import Coherent.OwnerRun

/-!
The free inodes: what `ialloc` hands out, and the count in the super block.

A number is allocated when the inode says so in core or on the disk. The list of free inodes
is refilled from the disk, where an inode that was made a moment ago may still look free. Such
a number is found out when it is taken, as its slot has a mode, and it is dropped; but it was
counted as taken before that.
-/

namespace Coherent.Itable

open Coherent.Can Coherent.Super Coherent.FreeList Coherent.FileMap Coherent.FileIo Coherent.Lib

variable {v v' : Vol} {j ino : ℕ} {fs gs hs : Fs} {ip : Inode} {d : Dinode}

/-! ### What operations on blocks leave -/

/-- The list of free inodes is the same, and so is their count. -/
structure SameIlist (fs gs : Fs) : Prop where
  vol : SameVolume fs gs
  tinode : gs.m_super.s_tinode = fs.m_super.s_tinode

lemma SameIlist.refl (fs : Fs) : SameIlist fs fs := ⟨.refl fs, rfl⟩

lemma SameIlist.trans (h : SameIlist fs gs) (h' : SameIlist gs hs) : SameIlist fs hs :=
  ⟨h.vol.trans h'.vol, h'.tinode.trans h.tinode⟩

/-- Only the error, the messages and the blocks differ. -/
lemma SameIlist.of_super (hm : gs.m_super = fs.m_super) (hr : gs.m_ron = fs.m_ron)
    (hd : gs.rdok = fs.rdok) : SameIlist fs gs := by
  constructor
  · constructor
    all_goals first | rw [hm] | assumption
  · rw [hm]

lemma smod_tinode (fs : Fs) : (smod fs).m_super.s_tinode = fs.m_super.s_tinode := by
  unfold smod; split <;> rfl

lemma bput_sameIlist (fs : Fs) (b : ℤ) (p : Block) : SameIlist fs (bput fs b p) :=
  .of_super rfl rfl rfl

lemma ballocEnd_tinode (fs : Fs) (b : ℤ) :
    (ballocEnd fs b).2.m_super.s_tinode = fs.m_super.s_tinode := by
  unfold ballocEnd
  dsimp only
  split
  · rfl
  · rw [smod_tinode]

lemma balloc_sameIlist (fs : Fs) : SameIlist fs (balloc fs).2 := by
  refine ⟨balloc_sameVolume fs, ?_⟩
  have hs := smod_tinode fs
  unfold balloc
  dsimp only
  split_ifs
  · rfl
  · rfl
  · exact hs
  · exact hs
  · split
    · exact hs
    · split_ifs
      · exact hs
      · rw [ballocEnd_tinode]
        exact hs
  · rw [ballocEnd_tinode]
    exact hs

lemma bfree_sameIlist (fs : Fs) (b : ℤ) : SameIlist fs (bfree fs b) := by
  refine ⟨bfree_sameVolume fs b, ?_⟩
  unfold bfree
  dsimp only
  split_ifs
  · rfl
  · rfl
  · rw [smod_tinode]
    rfl
  · rw [smod_tinode]

lemma foldl_sameIlist {α : Type*} {f : Fs → α → Fs} (h : ∀ fs a, SameIlist fs (f fs a)) (as : List α)
    (fs : Fs) : SameIlist fs (as.foldl f fs) := by
  induction as generalizing fs with
  | nil => exact .refl fs
  | cons a as ih => exact (h fs a).trans (ih _)

lemma indfree_sameIlist (n : ℕ) (fs : Fs) (b : ℤ) : SameIlist fs (indfree n fs b) := by
  induction n generalizing fs b with
  | zero =>
    rw [indfree]
    split_ifs
    · exact .refl fs
    · exact bfree_sameIlist fs b
  | succ n ih =>
    rw [indfree]
    by_cases h0 : b = 0
    · rw [if_pos h0]
      exact .refl fs
    · rw [if_neg h0]
      split
      · exact bfree_sameIlist fs b
      · refine (foldl_sameIlist (fun fs i => ?_) _ fs).trans (bfree_sameIlist _ b)
        split_ifs
        · exact .refl fs
        · exact bfree_sameIlist fs _
        · exact ih fs _

lemma iclear_sameIlist (fs : Fs) (ip : Inode) : SameIlist fs (iclear fs ip).1 := by
  unfold iclear
  dsimp only
  split_ifs with h0
  · exact .refl fs
  · refine SameIlist.trans (foldl_sameIlist (fun fs i => ?_) _ fs) (foldl_sameIlist (fun fs i => ?_) _ _)
    · split_ifs
      · exact indfree_sameIlist _ fs _
      · exact .refl fs
    · split_ifs
      · exact bfree_sameIlist fs _
      · exact .refl fs

lemma areadLoop_sameIlist (fflag : Bool) (lp : List ℕ) (fs : Fs) (pb : ℤ) (aflag : Bool) :
    SameIlist fs (areadLoop fflag lp fs pb aflag).2 := by
  induction lp generalizing fs pb aflag with
  | nil =>
    rw [areadLoop]
    split_ifs
    · split <;> exact .refl fs
    · exact bput_sameIlist fs pb _
  | cons l lp ih =>
    have hin : ∀ gs, (if aflag = false then (bread fs pb).map fun _ => fs
        else some (bput fs pb zeroBlock)) = some gs → SameIlist fs gs := by
      intro gs hgs
      split_ifs at hgs
      · obtain ⟨_, -, rfl⟩ := Option.map_eq_some_iff.mp hgs
        exact .refl fs
      · obtain rfl := Option.some.inj hgs
        exact bput_sameIlist fs pb _
    rw [areadLoop]
    split
    · exact .refl fs
    · rename_i gs hgs
      refine (hin gs hgs).trans ?_
      split_ifs
      · exact balloc_sameIlist gs
      · exact (balloc_sameIlist gs).trans ((bput_sameIlist _ _ _).trans (ih _ _ _))
      · exact ih _ _ _

lemma aread_sameIlist (fs : Fs) (a : ℕ → ℤ) (lb : ℕ) (fflag : Bool) :
    SameIlist fs (aread fs a lb fflag).2.1 := by
  unfold aread
  split
  · split_ifs
    · exact balloc_sameIlist fs
    · exact (balloc_sameIlist fs).trans (areadLoop_sameIlist _ _ _ _ _)
    · exact areadLoop_sameIlist _ _ _ _ _
  · exact .of_super rfl rfl rfl

lemma ioread_sameIlist (fs : Fs) (iop : Source) (b : ℤ) (off n : ℕ) :
    SameIlist fs (ioread fs iop b off n).1 := by
  unfold ioread
  dsimp only
  split_ifs <;> exact .of_super rfl rfl rfl

/-- A write changes the blocks, the addresses and the size. -/
structure Wrote (fs : Fs) (ip : Inode) (r : Fs × Inode × Source) : Prop where
  ilist : SameIlist fs r.1
  same : r.2.1 = { ip with i_size := r.2.1.i_size, i_addr := r.2.1.i_addr }

lemma fwriteLoop_wrote (fs : Fs) (ip : Inode) (iop : Source) (lbn : ℕ) (off : Fin BSIZE) :
    Wrote fs ip (fwriteLoop fs ip iop lbn off) := by
  fun_induction fwriteLoop fs ip iop lbn off with
  | case1 fs ip iop lbn off h => exact ⟨.refl fs, rfl⟩
  | case2 fs ip iop lbn off h n com r ip' hr => exact ⟨aread_sameIlist _ _ _ _, rfl⟩
  | case3 fs ip iop lbn off h n com r ip' b hr s hm seek ih =>
    refine ⟨?_, ?_⟩
    · exact (aread_sameIlist fs ip.i_addr lbn com).trans
        ((ioread_sameIlist _ iop b off n).trans ih.ilist)
    · exact ih.same
  | case4 fs ip iop lbn off h n com r ip' b hr s hm =>
    exact ⟨(aread_sameIlist fs ip.i_addr lbn com).trans (ioread_sameIlist _ iop b off n), rfl⟩

lemma pwriteTurn_wrote (fs : Fs) (ip : Inode) (iop : Source) :
    Wrote fs ip (pwriteTurn fs ip iop) := by
  unfold pwriteTurn
  split_ifs
  · exact ⟨.of_super rfl rfl rfl, rfl⟩
  · dsimp only
    generalize hr : fwrite fs ip _ = r
    have hw : Wrote fs ip r := by
      rw [← hr]
      exact fwriteLoop_wrote _ _ _ _ _
    refine ⟨hw.ilist, ?_⟩
    rw [hw.same]

lemma SameIlist.of_quiet (h : Quiet fs gs) : SameIlist fs gs := by
  rw [h]
  exact .of_super rfl rfl rfl

/-! ### Allocated inodes -/

/-- The number is allocated: its inode has a mode or links, in core or on the disk. -/
def Allocated (v : Vol) (ino : ℕ) : Prop :=
  (v.dinode ino).di_mode ≠ 0 ∨ (v.dinode ino).di_nlink ≠ 0 ∨
    ∃ j < v.NINODE, ((v.inodep j).i_ino = ino ∧ (v.inodep j).i_dev = v.dev) ∧
      ((v.inodep j).i_mode ≠ 0 ∨ (v.inodep j).i_nlink ≠ 0)

instance (v : Vol) (ino : ℕ) : Decidable (Allocated v ino) := by unfold Allocated; infer_instance

/-- The unallocated inodes of the i-list. -/
def unallocated (v : Vol) : Finset ℕ := (Finset.Icc 1 (ninodes v.fs)).filter fun ino => ¬ Allocated v ino

/-- What every slot keeps: an inode in use has a mode, and it is flagged when the disk does not
have its mode and its links. -/
structure Backed (ip : Inode) (d : Dinode) : Prop where
  used : ip.i_refc ≠ 0 → ip.i_mode ≠ 0
  clean : modified ip = false → d.di_mode = ip.i_mode ∧ d.di_nlink = ip.i_nlink
  idle : ip.i_refc = 0 → modified ip = false

/-- A consistent inode table and a consistent i-list, on a file system that can be written. The
reserved inodes have a mode, and the cache has numbers of the i-list. -/
structure Backing (v : Vol) : Prop where
  ron : v.fs.m_ron = false
  inodes : ninodes v.fs < 65536
  uniq : ∀ j j' ino, ino ≠ 0 → Holds v j ino → Holds v j' ino → j = j'
  used : ∀ j ino, Holds v j ino → (v.inodep j).i_refc ≠ 0 → ino ≠ 0
  range : ∀ j ino, ino ≠ 0 → Holds v j ino → ino ≤ ninodes v.fs
  slot : ∀ j ino, ino ≠ 0 → Holds v j ino → Backed (v.inodep j) (v.dinode ino)
  links : ∀ ino, (v.dinode ino).di_mode = 0 → (v.dinode ino).di_nlink = 0
  reserved : (v.dinode BADFIN).di_mode ≠ 0 ∧ (v.dinode ROOTIN).di_mode ≠ 0
  cache : ∀ i < v.fs.m_super.s_ninode, v.fs.m_super.s_inode i ≠ 0 ∧
    v.fs.m_super.s_inode i ≤ ninodes v.fs

/-- The cache has free numbers, each once, and the count is right. -/
structure Listed (v : Vol) : Prop where
  free : ∀ i < v.fs.m_super.s_ninode, ¬ Allocated v (v.fs.m_super.s_inode i)
  inj : ∀ i < v.fs.m_super.s_ninode, ∀ k < v.fs.m_super.s_ninode,
    v.fs.m_super.s_inode i = v.fs.m_super.s_inode k → i = k
  count : v.fs.m_super.s_tinode = (unallocated v).card

/-- In use, or with a mode on the disk. In a consistent table this is what allocated means. -/
def Busy (v : Vol) (ino : ℕ) : Prop :=
  (v.dinode ino).di_mode ≠ 0 ∨ ∃ j, Holds v j ino ∧ (v.inodep j).i_refc ≠ 0

lemma Backing.allocated_iff (h : Backing v) (h0 : ino ≠ 0) : Allocated v ino ↔ Busy v ino := by
  constructor
  · rintro (hm | hl | ⟨j, hlt, ⟨hi, hd⟩, hml⟩)
    · exact Or.inl hm
    · exact Or.inl fun hm => hl (h.links ino hm)
    · have hj : Holds v j ino := ⟨hlt, hi, hd⟩
      have hb := h.slot j ino h0 hj
      by_cases hr : (v.inodep j).i_refc = 0
      · -- a free slot has what the disk has
        obtain ⟨h1, h2⟩ := hb.clean (hb.idle hr)
        refine Or.inl fun hm => ?_
        have hl := h.links ino hm
        omega
      · exact Or.inr ⟨j, hj, hr⟩
  · rintro (hm | ⟨j, ⟨hlt, hi, hd⟩, hr⟩)
    · exact Or.inl hm
    · exact Or.inr (Or.inr ⟨j, hlt, ⟨hi, hd⟩, Or.inl ((h.slot j ino h0 ⟨hlt, hi, hd⟩).used hr)⟩)

/-! ### Changing one slot -/

/-- What of the super block has to stay. -/
lemma Backing.super (h : Backing v) (hron : gs.m_ron = v.fs.m_ron)
    (his : gs.m_super.s_isize = v.fs.m_super.s_isize)
    (hc : ∀ i < gs.m_super.s_ninode, gs.m_super.s_inode i ≠ 0 ∧
      gs.m_super.s_inode i ≤ ninodes v.fs) : Backing { v with fs := gs } := by
  have hn : ninodes gs = ninodes v.fs := by rw [ninodes, ninodes, his]
  refine ⟨hron.trans h.ron, ?_, h.uniq, h.used, ?_, h.slot, h.links, h.reserved, ?_⟩
  · change ninodes gs < _
    rw [hn]
    exact h.inodes
  · change ∀ j ino, ino ≠ 0 → Holds v j ino → ino ≤ ninodes gs
    rw [hn]
    exact h.range
  · change ∀ i < gs.m_super.s_ninode, gs.m_super.s_inode i ≠ 0 ∧ gs.m_super.s_inode i ≤ ninodes gs
    rw [hn]
    exact hc

lemma Backing.same (h : Backing v) (hs : SameIlist v.fs gs) : Backing { v with fs := gs } := by
  refine h.super hs.vol.ron hs.vol.isize ?_
  rw [hs.vol.ninode, hs.vol.inode]
  exact h.cache

/-- Slot `j` can be given to inode `ino`: it has it, or it is free and nobody has it. -/
structure Seats (v : Vol) (j ino : ℕ) : Prop where
  lt : j < v.NINODE
  only : ∀ k, Holds v k ino → k = j
  free : Holds v j ino ∨ ((v.inodep j).i_dev = v.dev → (v.inodep j).i_refc = 0)

lemma Backing.seats (h : Backing v) (h0 : ino ≠ 0) (hj : Holds v j ino) : Seats v j ino :=
  ⟨hj.1, fun k hk => h.uniq k j ino h0 hk hj, Or.inl hj⟩

lemma Seats.other (h : Seats v j ino) {k : ℕ} (hk : Holds v j k) (hr : (v.inodep j).i_refc ≠ 0) :
    k = ino := by
  rcases h.free with hj | hf
  · exact hk.2.1.symm.trans hj.2.1
  · exact absurd (hf hk.2.2) hr

/-- The inode in the slot is in use, whatever was there. -/
lemma Backing.seat (ip : Inode) (h : Backing v) (h0 : ino ≠ 0) (hle : ino ≤ ninodes v.fs) (hj : Seats v j ino)
    (hino : ip.i_ino = ino) (hs : Backed ip (v.dinode ino)) : Backing (setInode v j ip) where
  ron := h.ron
  inodes := h.inodes
  uniq i i' k hk hi hi' := by
    by_cases hij : i = j <;> by_cases hij' : i' = j
    · rw [hij, hij']
    · subst hij
      obtain rfl : ino = k := hino.symm.trans (holds_setInode_self.mp hi).2.1
      exact absurd (hj.only i' ((holds_setInode_of_ne hij').mp hi')) hij'
    · subst hij'
      obtain rfl : ino = k := hino.symm.trans (holds_setInode_self.mp hi').2.1
      exact absurd (hj.only i ((holds_setInode_of_ne hij).mp hi)) hij
    · exact h.uniq i i' k hk ((holds_setInode_of_ne hij).mp hi) ((holds_setInode_of_ne hij').mp hi')
  used i k hi hr := by
    by_cases hij : i = j
    · subst hij
      rw [← (holds_setInode_self.mp hi).2.1, hino]
      exact h0
    · simp only [setInode, Function.update_of_ne hij] at hr
      exact h.used i k ((holds_setInode_of_ne hij).mp hi) hr
  range i k hk hi := by
    by_cases hij : i = j
    · subst hij
      rw [← (holds_setInode_self.mp hi).2.1, hino]
      exact hle
    · exact h.range i k hk ((holds_setInode_of_ne hij).mp hi)
  slot i k hk hi := by
    by_cases hij : i = j
    · subst hij
      obtain rfl : ino = k := hino.symm.trans (holds_setInode_self.mp hi).2.1
      simpa [setInode] using hs
    · simpa [setInode, Function.update_of_ne hij] using
        h.slot i k hk ((holds_setInode_of_ne hij).mp hi)
  links := h.links
  reserved := h.reserved
  cache := h.cache

lemma busy_seat (ip : Inode) (hj : Seats v j ino) (hino : ip.i_ino = ino) (hdev : ip.i_dev = v.dev)
    (hr : ip.i_refc ≠ 0) (k : ℕ) : Busy (setInode v j ip) k ↔ Busy v k ∨ k = ino := by
  constructor
  · rintro (hm | ⟨i, hi, hri⟩)
    · exact Or.inl (Or.inl hm)
    · by_cases hij : i = j
      · subst hij
        exact Or.inr ((holds_setInode_self.mp hi).2.1.symm.trans hino)
      · simp only [setInode, Function.update_of_ne hij] at hri
        exact Or.inl (Or.inr ⟨i, (holds_setInode_of_ne hij).mp hi, hri⟩)
  · have hself : Busy (setInode v j ip) ino :=
      Or.inr ⟨j, holds_setInode_self.mpr ⟨hj.lt, hino, hdev⟩, by simpa [setInode] using hr⟩
    rintro ((hm | ⟨i, hi, hri⟩) | rfl)
    · exact Or.inl hm
    · by_cases hij : i = j
      · subst hij
        rw [hj.other hi hri]
        exact hself
      · refine Or.inr ⟨i, (holds_setInode_of_ne hij).mpr hi, ?_⟩
        simpa [setInode, Function.update_of_ne hij] using hri
    · exact hself

/-- The inode in the slot is written to the disk. -/
lemma Backing.put (ip : Inode) (d : Dinode) (h : Backing v) (h0 : ino ≠ 0) (hj : Holds v j ino)
    (hino : ip.i_ino = ino) (hdev : ip.i_dev = v.dev) (hs : Backed ip d)
    (hl : d.di_mode = 0 → d.di_nlink = 0)
    (hres : ino = BADFIN ∨ ino = ROOTIN → d.di_mode ≠ 0) :
    Backing (put v v.fs j ip d) where
  ron := h.ron
  inodes := h.inodes
  uniq i i' k hk hi hi' := by
    rw [holds_put hj hino hdev] at hi hi'
    exact h.uniq i i' k hk hi hi'
  used i k hi hr := by
    rw [holds_put hj hino hdev] at hi
    by_cases hij : i = j
    · subst hij
      rw [← hi.2.1, hj.2.1]
      exact h0
    · simp only [Itable.put, Function.update_of_ne hij] at hr
      exact h.used i k hi hr
  range i k hk hi := by
    rw [holds_put hj hino hdev] at hi
    exact h.range i k hk hi
  slot i k hk hi := by
    rw [holds_put hj hino hdev] at hi
    by_cases hij : i = j
    · subst hij
      obtain rfl : k = ino := hi.2.1.symm.trans hj.2.1
      simpa [Itable.put, hino] using hs
    · have hki : k ≠ ino := by
        rintro rfl
        exact hij (h.uniq i j k hk hi hj)
      simpa [Itable.put, hino, Function.update_of_ne hij, Function.update_of_ne hki]
        using h.slot i k hk hi
  links k := by
    by_cases hk : k = ino
    · simpa [Itable.put, hino, hk] using hl
    · simpa [Itable.put, hino, Function.update_of_ne hk] using h.links k
  reserved := by
    have key : ∀ k, k = BADFIN ∨ k = ROOTIN → (v.dinode k).di_mode ≠ 0 →
        ((Itable.put v v.fs j ip d).dinode k).di_mode ≠ 0 := by
      intro k hk hm
      by_cases hki : k = ino
      · simpa [Itable.put, hino, hki] using hres (by rwa [hki] at hk)
      · simpa [Itable.put, hino, Function.update_of_ne hki] using hm
    exact ⟨key _ (Or.inl rfl) h.reserved.1, key _ (Or.inr rfl) h.reserved.2⟩
  cache := h.cache

lemma Backing.busy_put (ip : Inode) (h : Backing v) (h0 : ino ≠ 0) (hj : Holds v j ino) (hino : ip.i_ino = ino)
    (hdev : ip.i_dev = v.dev) (k : ℕ) :
    Busy (Itable.put v gs j ip d) k ↔
      if k = ino then d.di_mode ≠ 0 ∨ ip.i_refc ≠ 0 else Busy v k := by
  have hholds : ∀ i, Holds (Itable.put v gs j ip d) i k ↔ Holds v i k :=
    fun i => holds_put hj hino hdev i k
  unfold Busy
  simp only [hholds]
  split_ifs with hk
  · subst hk
    have hd : ((Itable.put v gs j ip d).dinode k).di_mode = d.di_mode := by simp [Itable.put, hino]
    rw [hd]
    refine or_congr_right ⟨?_, fun hr => ⟨j, hj, by simpa [Itable.put] using hr⟩⟩
    rintro ⟨i, hi, hr⟩
    obtain rfl := h.uniq i j k h0 hi hj
    simpa [Itable.put] using hr
  · have hd : (Itable.put v gs j ip d).dinode k = v.dinode k := by
      simp [Itable.put, hino, Function.update_of_ne hk]
    rw [hd]
    refine or_congr_right (exists_congr fun i => and_congr_right fun hi => ?_)
    have hij : i ≠ j := by
      rintro rfl
      exact hk (hi.2.1.symm.trans hj.2.1)
    simp [Itable.put, Function.update_of_ne hij]

/-! ### Operations that allocate nothing -/

/-- The table is still consistent, and the same inodes are allocated. -/
structure Keeps (v v' : Vol) : Prop where
  backing : Backing v'
  ilist : SameIlist v.fs v'.fs
  busy : ∀ k, k ≠ 0 → (Busy v' k ↔ Busy v k)

lemma Backing.keeps (h : Backing v) : Keeps v v := ⟨h, .refl _, fun _ _ => Iff.rfl⟩

lemma Keeps.trans {v'' : Vol} (h : Keeps v v') (h' : Keeps v' v'') : Keeps v v'' :=
  ⟨h'.backing, h.ilist.trans h'.ilist, fun k hk => (h'.busy k hk).trans (h.busy k hk)⟩

/-- An operation on the inode in slot `j`, which is in use. -/
lemma Backing.touch (ip : Inode) (h : Backing v) (hj : InUse v j) (hs : SameIlist v.fs gs)
    (hino : ip.i_ino = (v.inodep j).i_ino) (hdev : ip.i_dev = v.dev) (hr : ip.i_refc ≠ 0)
    (hb : Backed ip (v.dinode ip.i_ino)) : Keeps v { setInode v j ip with fs := gs } := by
  have hseat := h.seats hj.ino hj.holds
  refine ⟨(h.seat ip hj.ino (h.range j _ hj.ino hj.holds) hseat hino (by rw [← hino]; exact hb)).same hs, hs,
    fun k _ => ?_⟩
  change Busy (setInode v j ip) k ↔ Busy v k
  rw [busy_seat ip hseat hino hdev hr]
  refine or_iff_left_of_imp ?_
  rintro rfl
  exact Or.inr ⟨j, hj.holds, hj.refc⟩

lemma Backing.inUse (h : Backing v) (hj : InUse v j) :
    Backed (v.inodep j) (v.dinode (v.inodep j).i_ino) :=
  h.slot j _ hj.ino hj.holds

/-- A slot in use and flagged may have any links. -/
lemma Backed.of_modified (hm : modified ip = true) (hr : ip.i_refc ≠ 0) (h0 : ip.i_mode ≠ 0) :
    Backed ip d :=
  ⟨fun _ => h0, fun h => absurd (hm.symm.trans h) (by simp), fun h => absurd h hr⟩

/-- An operation that flags the inode. -/
lemma Backing.flagged (ip : Inode) (h : Backing v) (hj : InUse v j) (hs : SameIlist v.fs gs)
    (hino : ip.i_ino = (v.inodep j).i_ino) (hdev : ip.i_dev = (v.inodep j).i_dev)
    (hr : ip.i_refc = (v.inodep j).i_refc) (hm : modified ip = true) (h0 : ip.i_mode ≠ 0) :
    Keeps v { setInode v j ip with fs := gs } := by
  have hr' : ip.i_refc ≠ 0 := by rw [hr]; exact hj.refc
  exact h.touch ip hj hs hino (hdev.trans hj.dev) hr' (.of_modified hm hr' h0)

lemma Backing.iwrite (h : Backing v) (hj : InUse v j) (iop : Source) :
    Keeps v (iwrite v j iop).1 := by
  have h0 := (h.inUse hj).used hj.refc
  unfold FileIo.iwrite
  extract_lets src ip t
  have hmod : modified ip = true := by simp [modified, ip]
  -- what a write leaves is the inode with other addresses and another size
  have hwrote : ∀ r : Fs × Inode × Source, Wrote v.fs ip r →
      Keeps v { setInode v j r.2.1 with fs := r.1 } := by
    intro r hr
    obtain ⟨gs, ip', iop'⟩ := r
    have hsame : ip' = { ip with i_size := ip'.i_size, i_addr := ip'.i_addr } := hr.same
    refine h.flagged ip' hj hr.ilist ?_ ?_ ?_ ?_ ?_
    · rw [hsame]
    · rw [hsame]
    · rw [hsame]
    · rw [hsame]
      exact hmod
    · rw [hsame]
      exact h0
  split_ifs
  · exact h.flagged ip hj (.refl _) rfl rfl rfl hmod h0
  · exact h.flagged ip hj (.of_super rfl rfl rfl) rfl rfl rfl hmod h0
  · exact hwrote _ (fwriteLoop_wrote _ _ _ _ _)
  · exact hwrote _ (pwriteTurn_wrote _ _ _)
  · exact h.flagged ip hj (.of_super rfl rfl rfl) rfl rfl rfl hmod h0

lemma Backing.pread (h : Backing v) (hj : InUse v j) (iop : Sink) : Keeps v (pread v j iop).1 := by
  have hb := h.inUse hj
  refine h.touch _ hj (.of_quiet (fread_quiet _ _ _)) rfl hj.dev hj.refc ?_
  exact ⟨hb.used, hb.clean, hb.idle⟩

lemma Backing.clear (h : Backing v) (hj : InUse v j) : Keeps v (clear v j) := by
  have h0 := (h.inUse hj).used hj.refc
  have hs := iclear_sameIlist v.fs (v.inodep j)
  unfold Itable.clear
  by_cases hn : naddr (v.inodep j).i_mode = 0
  · rw [iclear, if_pos hn]
    dsimp only
    rw [setInode_self]
    exact h.keeps
  · have he : (iclear v.fs (v.inodep j)).2 =
        iamc { v.inodep j with i_size := 0, i_addr := fun _ => 0 } := by
      rw [iclear, if_neg hn]
    dsimp only
    rw [he]
    exact h.flagged _ hj hs rfl rfl rfl rfl h0

lemma Backing.replace (h : Backing v) (hfree : (v.inodep j).i_dev = v.dev → (v.inodep j).i_refc = 0)
    (hdev : ip.i_dev ≠ v.dev) : Keeps v (setInode v j ip) := by
  have hof : ∀ {i k}, Holds (setInode v j ip) i k → i ≠ j := by
    rintro i k hi rfl
    exact hdev (holds_setInode_self.mp hi).2.2
  have hin : ∀ {i k}, i ≠ j → (Holds (setInode v j ip) i k ↔ Holds v i k) := holds_setInode_of_ne
  refine ⟨⟨h.ron, h.inodes, fun i i' k hk hi hi' => ?_, fun i k hi hr => ?_, fun i k hk hi => ?_,
    fun i k hk hi => ?_, h.links, h.reserved, h.cache⟩, .refl _, fun k _ => or_congr_right ⟨?_, ?_⟩⟩
  · exact h.uniq i i' k hk ((hin (hof hi)).mp hi) ((hin (hof hi')).mp hi')
  · simp only [setInode, Function.update_of_ne (hof hi)] at hr
    exact h.used i k ((hin (hof hi)).mp hi) hr
  · exact h.range i k hk ((hin (hof hi)).mp hi)
  · simpa [setInode, Function.update_of_ne (hof hi)] using h.slot i k hk ((hin (hof hi)).mp hi)
  · rintro ⟨i, hi, hr⟩
    simp only [setInode, Function.update_of_ne (hof hi)] at hr
    exact ⟨i, (hin (hof hi)).mp hi, hr⟩
  · rintro ⟨i, hi, hr⟩
    have hij : i ≠ j := by
      rintro rfl
      exact hr (hfree hi.2.2)
    refine ⟨i, (hin hij).mpr hi, ?_⟩
    simpa [setInode, Function.update_of_ne hij] using hr

/-- The slot is written back as it is; only its count of users may have changed. -/
lemma Backing.copied (ip : Inode) (h : Backing v) (hj : InUse v j)
    (hino : ip.i_ino = (v.inodep j).i_ino) (hdev : ip.i_dev = v.dev) (hm : ip.i_mode ≠ 0)
    (hu : ¬ unused ip) : Keeps v (icopymd (setInode v j ip) j) := by
  rw [icopymd_eq h.ron hu]
  have hd0 : (toDisk ip).di_mode ≠ 0 := hm
  refine ⟨?_, .refl _, fun k _ => ?_⟩
  · exact h.put _ _ hj.ino hj.holds hino hdev ⟨fun _ => hm, fun _ => ⟨rfl, rfl⟩, fun _ => rfl⟩
      (fun hz => absurd hz hd0) fun _ => hd0
  · refine (h.busy_put (written ip) hj.ino hj.holds hino hdev k).trans ?_
    split_ifs with hk
    · refine iff_of_true (Or.inl hd0) (Or.inr ⟨j, ?_, hj.refc⟩)
      rw [hk]
      exact hj.holds
    · exact Iff.rfl

lemma Backing.writeBack (h : Backing v) (hj : InUse v j) : Keeps v (icopymd v j) := by
  have hc := h.copied (v.inodep j) hj rfl hj.dev ((h.inUse hj).used hj.refc) fun hu => hj.refc hu.1
  rwa [setInode_self] at hc

lemma Backing.isync (h : Backing v) : Keeps v (isync v) := by
  unfold Itable.isync
  have hlt : ∀ k ∈ List.range v.NINODE, k < v.NINODE := fun k => List.mem_range.mp
  generalize List.range v.NINODE = js at hlt
  induction js generalizing v with
  | nil => exact h.keeps
  | cons k js ih =>
    rw [List.foldl_cons]
    dsimp only
    split_ifs with hc
    · exact ih h fun k hk => hlt k (by simp [hk])
    · rw [not_or, not_or] at hc
      have hN : k < v.NINODE := hlt k (by simp)
      have hdev : (v.inodep k).i_dev = v.dev := not_not.mp hc.2.1
      have hk := h.writeBack ⟨hN, hdev, h.used k _ ⟨hN, rfl, hdev⟩ hc.1, hc.1⟩
      have hnin : (icopymd v k).NINODE = v.NINODE := by
        unfold icopymd
        split_ifs <;> rfl
      exact hk.trans (ih hk.backing fun k hk => hnin.symm ▸ hlt k (by simp [hk]))

/-! ### Freeing an inode -/

/-- The inode `ino`, which was allocated, has been freed. -/
structure Freed (v v' : Vol) (ino : ℕ) : Prop where
  backing : Backing v'
  ilist : ∃ gs, SameIlist v.fs gs ∧ v'.fs = ifree gs ino
  busy : ∀ k, k ≠ 0 → (Busy v' k ↔ Busy v k ∧ k ≠ ino)
  was : Busy v ino
  pos : ino ≠ 0
  le : ino ≤ ninodes v.fs

lemma ifree_tinode (hron : fs.m_ron = false) (ino : ℕ) :
    (ifree fs ino).m_super.s_tinode = (fs.m_super.s_tinode + 1) % 65536 := by
  rw [ifree, if_neg (by simp [hron])]
  dsimp only
  split_ifs <;> rw [smod_tinode]

/-- `ifree` puts the number on the list, or forgets it if the list is full. -/
lemma ifree_list (hron : fs.m_ron = false) (ino : ℕ) :
    ((ifree fs ino).m_super.s_ninode = fs.m_super.s_ninode ∧
      (ifree fs ino).m_super.s_inode = fs.m_super.s_inode) ∨
    ((ifree fs ino).m_super.s_ninode = fs.m_super.s_ninode + 1 ∧
      (ifree fs ino).m_super.s_inode =
        Function.update fs.m_super.s_inode fs.m_super.s_ninode ino) := by
  rw [ifree, if_neg (by simp [hron])]
  dsimp only
  split_ifs
  · right
    rw [smod_ninode, smod_inode]
    exact ⟨rfl, rfl⟩
  · left
    rw [smod_ninode, smod_inode]
    exact ⟨rfl, rfl⟩

lemma ifree_frame (fs : Fs) (ino : ℕ) :
    (ifree fs ino).m_ron = fs.m_ron ∧ (ifree fs ino).m_super.s_isize = fs.m_super.s_isize := by
  unfold ifree
  dsimp only
  split_ifs <;> simp

lemma Backing.ifree (h : Backing v) (h0 : ino ≠ 0) (hle : ino ≤ ninodes v.fs) :
    Backing { v with fs := ifree v.fs ino } := by
  obtain ⟨hron, his⟩ := ifree_frame v.fs ino
  refine h.super hron his ?_
  rcases ifree_list h.ron ino with ⟨hn, hl⟩ | ⟨hn, hl⟩
  · rw [hn, hl]
    exact h.cache
  · rw [hn, hl]
    intro i hi
    by_cases hin : i = v.fs.m_super.s_ninode
    · rw [hin, Function.update_self]
      exact ⟨h0, hle⟩
    · rw [Function.update_of_ne hin]
      exact h.cache i (by omega)

/-- The last user of an inode without a name is gone. -/
lemma Backing.dropped (ip : Inode) (h : Backing v) (hj : InUse v j)
    (hino : ip.i_ino = (v.inodep j).i_ino) (hdev : ip.i_dev = v.dev) (hu : unused ip) :
    Freed v (icopymd (setInode v j ip) j) (v.inodep j).i_ino := by
  have hle := h.range j _ hj.ino hj.holds
  have hkeep : (iclear v.fs ip).2 = ip ∨
      (iclear v.fs ip).2 = iamc { ip with i_size := 0, i_addr := fun _ => 0 } := by
    unfold iclear
    dsimp only
    split_ifs
    · exact Or.inl rfl
    · exact Or.inr rfl
  rw [icopymd_unused h.ron hu]
  generalize (iclear v.fs ip).2 = ip' at hkeep
  have hip : ip'.i_ino = (v.inodep j).i_ino ∧ ip'.i_dev = v.dev ∧ ip'.i_refc = 0 ∧ ip'.i_nlink = 0 := by
    rcases hkeep with rfl | rfl <;> exact ⟨hino, hdev, hu.1, hu.2.1⟩
  have hput := h.put (written { ip' with i_lrt := 0, i_mode := 0 })
    (toDisk { ip' with i_lrt := 0, i_mode := 0 }) hj.ino hj.holds hip.1 hip.2.1
    ⟨fun hr => absurd hip.2.2.1 hr, fun _ => ⟨rfl, rfl⟩, fun _ => rfl⟩ (fun _ => hip.2.2.2)
    (by
      rw [← hino]
      rintro (hb | hb)
      · exact absurd hb hu.2.2.1
      · exact absurd hb hu.2.2.2)
  have hs := iclear_sameIlist v.fs ip
  refine ⟨?_, ⟨_, hs, by rw [hino]; rfl⟩, fun k _ => ?_, Or.inr ⟨j, hj.holds, hj.refc⟩, hj.ino, hle⟩
  · have hno : ip.i_ino ≠ 0 := by rw [hino]; exact hj.ino
    have hle' : ip.i_ino ≤ ninodes (iclear v.fs ip).1 := by
      rw [hino, ninodes, hs.vol.isize]
      exact hle
    exact (hput.same hs).ifree hno hle'
  · refine (h.busy_put (written { ip' with i_lrt := 0, i_mode := 0 }) hj.ino hj.holds hip.1 hip.2.1
      k).trans ?_
    split_ifs with hk
    · refine iff_of_false (not_or.mpr ⟨fun hm => hm rfl, fun hr => hr hip.2.2.1⟩) fun hb => hb.2 hk
    · exact ⟨fun hb => ⟨hb, hk⟩, fun hb => hb.1⟩

lemma Backing.idetach (h : Backing v) (hj : InUse v j) :
    Keeps v (idetach v j) ∨ Freed v (idetach v j) (v.inodep j).i_ino := by
  have hb := h.inUse hj
  have h0 := hb.used hj.refc
  unfold Itable.idetach
  extract_lets src ip v'
  split_ifs with hc
  · by_cases hu : unused ip
    · exact Or.inr (h.dropped ip hj rfl hj.dev hu)
    · exact Or.inl (h.copied ip hj rfl hj.dev h0 hu)
  · have hidle : ip.i_refc = 0 → modified ip = false := by
      intro hr
      by_contra hm
      refine hc ⟨hr, ?_⟩
      simp only [modified, Bool.or_eq_false_iff, not_and_or, Bool.not_eq_false] at hm
      tauto
    have hseat := h.seats hj.ino hj.holds
    refine Or.inl ⟨?_, .refl _, fun k _ => ?_⟩
    · exact h.seat ip hj.ino (h.range j _ hj.ino hj.holds) hseat rfl ⟨fun _ => h0, hb.clean, hidle⟩
    · by_cases hr : ip.i_refc = 0
      · -- nobody is left, but the disk has the mode
        have hd : (v.dinode (v.inodep j).i_ino).di_mode ≠ 0 := by
          rw [(hb.clean (hidle hr)).1]
          exact h0
        have he : v' = Itable.put v v.fs j ip (v.dinode ip.i_ino) := (put_eq_setInode v j ip).symm
        rw [he, h.busy_put ip hj.ino hj.holds rfl hj.dev]
        split_ifs with hk
        · rw [hk]
          exact iff_of_true (Or.inl hd) (Or.inl hd)
        · exact Iff.rfl
      · rw [busy_seat ip hseat rfl hj.dev hr]
        refine or_iff_left_of_imp ?_
        rintro rfl
        exact Or.inr ⟨j, hj.holds, hj.refc⟩

/-! ### Bringing an inode into core -/

/-- `iattach` has found slot `j` for inode `ino` and leaves `ip` there. -/
structure Got (v : Vol) (ino j : ℕ) (ip : Inode) : Prop where
  seats : Seats v j ino
  num : ip.i_ino = ino
  dev : ip.i_dev = v.dev
  refc : ip.i_refc ≠ 0
  clean : modified ip = false →
    (v.dinode ino).di_mode = ip.i_mode ∧ (v.dinode ino).di_nlink = ip.i_nlink
  mode : ip.i_mode ≠ 0 ↔ Busy v ino

lemma Backing.iattach (h : Backing v) (h0 : ino ≠ 0) :
    (∃ m, iattach v ino = (none, { v with fs := { v.fs with u_error := some .ENFILE, msg := m } })) ∨
    ∃ j ip, iattach v ino = (some j, setInode v j ip) ∧ Got v ino j ip := by
  cases hs : slotOf v ino with
  | some j =>
    have hj := slotOf_some hs
    have hb := h.slot j ino h0 hj
    refine Or.inr ⟨j, _, iattach_some hs, h.seats h0 hj, hj.2.1, hj.2.2, by simp, hb.clean, ?_⟩
    change (v.inodep j).i_mode ≠ 0 ↔ Busy v ino
    by_cases hr : (v.inodep j).i_refc = 0
    · -- nobody uses it, so it is as on the disk
      rw [← (hb.clean (hb.idle hr)).1]
      refine ⟨Or.inl, ?_⟩
      rintro (hm | ⟨i, hi, hri⟩)
      · exact hm
      · obtain rfl := h.uniq i j ino h0 hi hj
        exact absurd hr hri
    · exact iff_of_true (hb.used hr) (Or.inr ⟨j, hj, hr⟩)
  | none =>
    cases hv : victim v with
    | none =>
      refine Or.inl ⟨v.fs.msg ++ ["Inode table overflow"], ?_⟩
      simp only [Itable.iattach, hs, hv, devmsg]
    | some j =>
      obtain ⟨hlt, hfree⟩ := victim_some hv
      have habs := slotOf_none hs
      refine Or.inr ⟨j, _, iattach_victim hs hv, ⟨hlt, fun k hk => absurd hk (habs k), Or.inr fun _ => hfree⟩,
        rfl, rfl, Nat.one_ne_zero, fun _ => ⟨rfl, rfl⟩, Or.inl, ?_⟩
      rintro (hm | ⟨i, hi, -⟩)
      · exact hm
      · exact absurd hi (habs i)

lemma Got.backed (h : Got v ino j ip) (hm : ip.i_mode ≠ 0) : Backed ip (v.dinode ino) :=
  ⟨fun _ => hm, h.clean, fun hr => absurd hr h.refc⟩

/-- The inode is allocated: now it is in core. -/
lemma Got.keeps (h : Got v ino j ip) (hv : Backing v) (h0 : ino ≠ 0) (hle : ino ≤ ninodes v.fs)
    (hm : ip.i_mode ≠ 0) : Keeps v (setInode v j ip) := by
  refine ⟨hv.seat ip h0 hle h.seats h.num (h.backed hm), .refl _, fun k _ => ?_⟩
  rw [busy_seat ip h.seats h.num h.dev h.refc]
  refine or_iff_left_of_imp ?_
  rintro rfl
  exact h.mode.mp hm

lemma Got.inUse (h : Got v ino j ip) (h0 : ino ≠ 0) : InUse (setInode v j ip) j := by
  refine ⟨h.seats.lt, ?_, ?_, ?_⟩
  · simp [setInode, h.dev]
  · simp [setInode, h.num, h0]
  · simp [setInode, h.refc]

/-! ### Allocating an inode -/

/-- A new inode `ino` has been made in slot `j`. -/
structure Made (v v' : Vol) (ino : ℕ) : Prop where
  backing : Backing v'
  ilist : SameIlist (taken v) v'.fs
  busy : ∀ k, k ≠ 0 → (Busy v' k ↔ Busy v k ∨ k = ino)

lemma refilled_frame (v : Vol) : (refilled v).m_ron = v.fs.m_ron ∧
    (refilled v).m_super.s_isize = v.fs.m_super.s_isize ∧
    (refilled v).m_super.s_tinode = v.fs.m_super.s_tinode := by
  unfold refilled
  dsimp only
  split_ifs <;> simp [smod_tinode]

lemma Backing.refilled (h : Backing v) : Backing { v with fs := refilled v } := by
  obtain ⟨hron, his, -⟩ := refilled_frame v
  refine h.super hron his ?_
  unfold Itable.refilled
  dsimp only
  split_ifs with h0
  · intro i hi
    have hlt : i < (freeInodes v).length := hi
    have hget : (freeInodes v).getD i 0 = (freeInodes v)[i] := by simp [hlt]
    change (freeInodes v).getD i 0 ≠ 0 ∧ (freeInodes v).getD i 0 ≤ _
    rw [hget]
    exact freeInodes_range (List.getElem_mem hlt)
  · rw [smod_ninode, smod_inode]
    exact h.cache

/-- The super block with the top number taken off the list. -/
lemma taken_list (v : Vol) :
    (taken v).m_super.s_ninode = (refilled v).m_super.s_ninode - 1 ∧
    (taken v).m_super.s_inode = (refilled v).m_super.s_inode ∧
    (taken v).m_super.s_tinode = (v.fs.m_super.s_tinode + 65535) % 65536 := by
  unfold taken
  dsimp only
  rw [smod_ninode, smod_inode, smod_tinode]
  exact ⟨rfl, rfl, by rw [(refilled_frame v).2.2]⟩

lemma taken_frame (v : Vol) : (taken v).m_ron = v.fs.m_ron ∧
    (taken v).m_super.s_isize = v.fs.m_super.s_isize := by
  unfold taken
  dsimp only
  rw [smod_ron, smod_isize]
  exact ⟨(refilled_frame v).1, (refilled_frame v).2.1⟩

lemma Backing.taken (h : Backing v) : Backing { v with fs := taken v } := by
  obtain ⟨hron, his⟩ := taken_frame v
  obtain ⟨hn, hl, -⟩ := taken_list v
  have hr := h.refilled.cache
  refine h.super hron his fun i hi => ?_
  rw [hl]
  have hc := hr i (by change i < (Itable.refilled v).m_super.s_ninode; omega)
  refine ⟨hc.1, ?_⟩
  have hle : (Itable.refilled v).m_super.s_inode i ≤ ninodes (Itable.refilled v) := hc.2
  rwa [ninodes, (refilled_frame v).2.1] at hle

lemma Backing.nextIno (h : Backing v) (h0 : (Itable.refilled v).m_super.s_ninode ≠ 0) :
    nextIno v ≠ 0 ∧ nextIno v ≤ ninodes v.fs := by
  have hc := h.refilled.cache ((Itable.refilled v).m_super.s_ninode - 1)
    (by change _ < (Itable.refilled v).m_super.s_ninode; omega)
  refine ⟨hc.1, ?_⟩
  have hle : Itable.nextIno v ≤ ninodes (Itable.refilled v) := hc.2
  rwa [ninodes, (refilled_frame v).2.1] at hle

/-- The ways a turn of `ialloc` can end without an inode. -/
inductive Failed (v : Vol) : Vol → Prop
  /-- there are no free inodes -/
  | none (w : Vol) : (refilled v).m_super.s_ninode = 0 → Backing w →
      w.fs.m_super.s_ninode = 0 → w.fs.m_super.s_tinode = 0 →
      ninodes w.fs = ninodes v.fs → (∀ k, Busy w k ↔ Busy v k) → Failed v w
  /-- the table is full -/
  | full (w : Vol) (gs : Fs) : (refilled v).m_super.s_ninode ≠ 0 → Backing w →
      SameIlist (taken v) gs → w.fs = ifree gs (nextIno v) → (∀ k, Busy w k ↔ Busy v k) → Failed v w
  /-- the inode is in use -/
  | busy (w : Vol) : (refilled v).m_super.s_ninode ≠ 0 → Backing w → Busy v (nextIno v) → Failed v w

lemma Failed.backing {w : Vol} (h : Failed v w) : Backing w := by
  cases h <;> assumption

/-- What a turn of `ialloc` does. -/
lemma Backing.ialloc (h : Backing v) (mode : ℕ) :
    (∃ w, ialloc v mode = (none, w) ∧ Failed v w) ∨
    ∃ j ip, ialloc v mode = (some j, setInode { v with fs := Itable.taken v } j { ip with
        i_acc := false, i_mod := false, i_crt := false, i_mode := mode, i_nlink := 0 }) ∧
      Got { v with fs := Itable.taken v } (Itable.nextIno v) j ip ∧ ¬ Busy v (Itable.nextIno v) ∧
      (Itable.refilled v).m_super.s_ninode ≠ 0 := by
  by_cases h0 : (Itable.refilled v).m_super.s_ninode = 0
  · -- no free inodes
    obtain ⟨hron, his, -⟩ := refilled_frame v
    rw [Itable.ialloc, if_neg (by simp [h.ron])]
    dsimp only
    rw [if_pos h0]
    refine Or.inl ⟨_, rfl, .none _ h0 (h.super hron his fun i hi => ?_) h0 rfl ?_ fun _ => Iff.rfl⟩
    · exact absurd hi (by change ¬ i < (Itable.refilled v).m_super.s_ninode; omega)
    · rw [ninodes, ninodes, ← his]
      rfl
  have ht := h.taken
  obtain ⟨hpos, hle⟩ := h.nextIno h0
  have hle' : Itable.nextIno v ≤ ninodes (Itable.taken v) := by
    rw [ninodes, (taken_frame v).2]
    exact hle
  rw [ialloc_eq mode h.ron h0]
  rcases ht.iattach hpos with ⟨m, hm⟩ | ⟨j, ip, hw, hg⟩
  · -- the table is full
    rw [hm]
    have he : SameIlist (Itable.taken v) { Itable.taken v with u_error := some .ENFILE, msg := m } :=
      .of_super rfl rfl rfl
    exact Or.inl ⟨_, rfl, .full _ _ h0 ((ht.same he).ifree hpos hle') he rfl fun _ => Iff.rfl⟩
  · rw [hw]
    dsimp only
    have hself : ((setInode { v with fs := Itable.taken v } j ip).inodep j) = ip := by simp [setInode]
    rw [hself]
    by_cases hmode : ip.i_mode = 0
    · rw [if_neg (not_not.mpr hmode), setInode_setInode]
      exact Or.inr ⟨j, ip, rfl, hg, fun hb => hg.mode.mpr hb hmode, h0⟩
    · -- the inode is in use
      rw [if_pos hmode]
      have hk := hg.keeps ht hpos hle' hmode
      have hd : SameIlist (setInode { v with fs := Itable.taken v } j ip).fs
          (devmsg (Itable.taken v) ("Inode " ++ toString (Itable.nextIno v) ++ " busy")) :=
        .of_super rfl rfl rfl
      have hin := hg.inUse hpos
      refine Or.inl ⟨_, rfl, .busy _ h0 ?_ (hg.mode.mp hmode)⟩
      rcases (hk.backing.same hd).idetach (j := j) ⟨hin.lt, hin.dev, hin.ino, hin.refc⟩ with hi | hi
      · exact hi.backing
      · exact hi.backing

/-- The new inode with a mode, flagged. -/
lemma Got.made (ip' : Inode) (h : Got { v with fs := taken v } ino j ip) (hv : Backing v) (h0 : ino ≠ 0)
    (hle : ino ≤ ninodes v.fs) (hs : SameIlist (taken v) gs) (hino : ip'.i_ino = ip.i_ino)
    (hdev : ip'.i_dev = ip.i_dev) (hr : ip'.i_refc = ip.i_refc) (hm : modified ip' = true)
    (hmode : ip'.i_mode ≠ 0) :
    Made v { setInode { v with fs := taken v } j ip' with fs := gs } ino := by
  have hr' : ip'.i_refc ≠ 0 := by rw [hr]; exact h.refc
  have hle' : ino ≤ ninodes (taken v) := by
    rw [ninodes, (taken_frame v).2]
    exact hle
  have hseat := hv.taken.seat ip' h0 hle' h.seats (hino.trans h.num) (.of_modified hm hr' hmode)
  refine ⟨hseat.same hs, hs, fun k _ => ?_⟩
  exact busy_seat ip' h.seats (hino.trans h.num) (hdev.trans h.dev) hr' k

lemma Backing.imake (h : Backing v) {mode : ℕ} (hm : mode ≠ 0) (rdev : ℕ) :
    Failed v (imake v mode rdev).2 ∨
    Made v (imake v mode rdev).2 (Itable.nextIno v) ∧ ¬ Busy v (Itable.nextIno v) ∧
      (Itable.refilled v).m_super.s_ninode ≠ 0 := by
  unfold Itable.imake
  rcases h.ialloc mode with ⟨w, hw, hf⟩ | ⟨j, ip, hw, hg, hb, h0⟩
  · rw [hw]
    exact Or.inl hf
  · obtain ⟨hpos, hle⟩ := h.nextIno h0
    rw [hw]
    dsimp only
    rw [setInode_setInode]
    refine Or.inr ⟨?_, hb, h0⟩
    refine hg.made _ h hpos hle (.refl _) ?_ ?_ ?_ rfl ?_ <;> simp [setInode, iamc, hm]

lemma Backing.pmake (h : Backing v) {mode : ℕ} (hm : mode &&& IFMT = 0) :
    Failed v (pmake v mode).2 ∨
    Made v (pmake v mode).2 (Itable.nextIno v) ∧ ¬ Busy v (Itable.nextIno v) ∧
      (Itable.refilled v).m_super.s_ninode ≠ 0 := by
  unfold Itable.pmake
  rcases h.ialloc (IFPIPE ||| mode) with ⟨w, hw, hf⟩ | ⟨j, ip, hw, hg, hb, h0⟩
  · rw [hw]
    exact Or.inl hf
  · obtain ⟨hpos, hle⟩ := h.nextIno h0
    have ht : (IFPIPE ||| mode) &&& IFMT = IFPIPE := by
      rw [Nat.and_or_distrib_right, hm]
      decide
    have hne : IFPIPE ||| mode ≠ 0 := by
      intro hz
      rw [hz] at ht
      exact absurd ht (by decide)
    rw [hw]
    dsimp only
    have hself : ∀ ip', (setInode { v with fs := Itable.taken v } j ip').inodep j = ip' := by
      simp [setInode]
    rw [hself]
    generalize hip : ({ ip with
      i_acc := false
      i_mod := false
      i_crt := false
      i_mode := IFPIPE ||| mode
      i_nlink := 0 } : Inode) = ip₁
    have hcl : (iclear (Itable.taken v) ip₁).2 =
        iamc { ip₁ with i_size := 0, i_addr := fun _ => 0 } := by
      rw [iclear, if_neg]
      rw [← hip]
      change naddr (IFPIPE ||| mode) ≠ 0
      rw [naddr_pipe ht]
      decide
    have hs := iclear_sameIlist (Itable.taken v) ip₁
    refine Or.inr ⟨?_, hb, h0⟩
    change Made v (setInode { setInode { v with fs := Itable.taken v } j ip₁ with
      fs := (iclear (Itable.taken v) ip₁).1 } j _) _
    rw [setInode_fs]
    refine hg.made _ h hpos hle hs ?_ ?_ ?_ ?_ ?_
    all_goals
      simp only [show (setInode { v with fs := Itable.taken v } j ip₁).fs = Itable.taken v from rfl, hcl]
      rw [← hip]
    all_goals first | rfl | exact hne

/-! ### The count -/

lemma mem_unallocated {k : ℕ} :
    k ∈ unallocated v ↔ (k ≠ 0 ∧ k ≤ ninodes v.fs) ∧ ¬ Allocated v k := by
  rw [unallocated, Finset.mem_filter, Finset.mem_Icc, Nat.one_le_iff_ne_zero]

lemma card_unallocated_le (v : Vol) : (unallocated v).card ≤ ninodes v.fs := by
  refine (Finset.card_filter_le _ _).trans ?_
  simp

lemma Keeps.allocated (h : Keeps v v') (hv : Backing v) {k : ℕ} (hk : k ≠ 0) :
    Allocated v' k ↔ Allocated v k := by
  rw [h.backing.allocated_iff hk, h.busy k hk, hv.allocated_iff hk]

lemma Keeps.listed (h : Keeps v v') (hv : Backing v) (hl : Listed v) : Listed v' := by
  have hn := h.ilist.vol.ninode
  have hi := h.ilist.vol.inode
  refine ⟨?_, ?_, ?_⟩
  · rw [hn, hi]
    intro i hlt
    rw [h.allocated hv (hv.cache i hlt).1]
    exact hl.free i hlt
  · rw [hn, hi]
    exact hl.inj
  · rw [h.ilist.tinode, hl.count]
    congr 1
    ext k
    rw [mem_unallocated, mem_unallocated, ninodes, ninodes, h.ilist.vol.isize]
    exact and_congr_right fun hk => not_congr (h.allocated hv hk.1).symm

lemma Freed.listed (h : Freed v v' ino) (hv : Backing v) (hl : Listed v) : Listed v' := by
  obtain ⟨gs, hs, hfs⟩ := h.ilist
  have hron : gs.m_ron = false := hs.vol.ron.trans hv.ron
  have hall : ∀ k, k ≠ 0 → (Allocated v' k ↔ Allocated v k ∧ k ≠ ino) := by
    intro k hk
    rw [h.backing.allocated_iff hk, h.busy k hk, hv.allocated_iff hk]
  have hwas : Allocated v ino := (hv.allocated_iff h.pos).mpr h.was
  have hold : ∀ i < v.fs.m_super.s_ninode, ¬ Allocated v' (v.fs.m_super.s_inode i) := by
    intro i hi ha
    exact hl.free i hi ((hall _ (hv.cache i hi).1).mp ha).1
  have hne : ∀ i < v.fs.m_super.s_ninode, v.fs.m_super.s_inode i ≠ ino := by
    rintro i hi rfl
    exact hl.free i hi hwas
  have hcount : v'.fs.m_super.s_tinode = (unallocated v').card := by
    have hisz : ninodes v'.fs = ninodes v.fs := by
      rw [hfs, ninodes, (ifree_frame gs ino).2, hs.vol.isize, ninodes]
    have hset : unallocated v' = insert ino (unallocated v) := by
      ext k
      rw [mem_unallocated, Finset.mem_insert, mem_unallocated, hisz]
      constructor
      · rintro ⟨hk, hna⟩
        by_cases hki : k = ino
        · exact Or.inl hki
        · exact Or.inr ⟨hk, fun ha => hna ((hall k hk.1).mpr ⟨ha, hki⟩)⟩
      · rintro (rfl | ⟨hk, hna⟩)
        · exact ⟨⟨h.pos, h.le⟩, fun ha => ((hall k h.pos).mp ha).2 rfl⟩
        · exact ⟨hk, fun ha => hna ((hall k hk.1).mp ha).1⟩
    have hcard := Finset.card_insert_of_notMem
      (fun hm => (mem_unallocated.mp hm).2 hwas : ino ∉ unallocated v)
    rw [← hset] at hcard
    have hlt := (card_unallocated_le v').trans_lt (hisz.trans_lt hv.inodes)
    rw [hfs, ifree_tinode hron, hs.tinode, hl.count, hcard, Nat.mod_eq_of_lt (by omega)]
  have hno := hs.vol.ninode
  have hin := hs.vol.inode
  rcases ifree_list hron ino with ⟨hn, hi⟩ | ⟨hn, hi⟩
  · rw [hno] at hn
    rw [hin] at hi
    refine ⟨?_, ?_, hcount⟩
    · rw [hfs, hn, hi]
      exact hold
    · rw [hfs, hn, hi]
      exact hl.inj
  · rw [hno] at hn
    rw [hno, hin] at hi
    refine ⟨?_, ?_, hcount⟩
    · rw [hfs, hn, hi]
      intro i hlt
      by_cases hie : i = v.fs.m_super.s_ninode
      · rw [hie, Function.update_self]
        exact fun ha => ((hall ino h.pos).mp ha).2 rfl
      · rw [Function.update_of_ne hie]
        exact hold i (by omega)
    · rw [hfs, hn, hi]
      intro i hlt k hklt heq
      by_cases hie : i = v.fs.m_super.s_ninode <;> by_cases hke : k = v.fs.m_super.s_ninode
      · rw [hie, hke]
      · rw [hie, Function.update_self, Function.update_of_ne hke] at heq
        exact absurd heq.symm (hne k (by omega))
      · rw [hke, Function.update_self, Function.update_of_ne hie] at heq
        exact absurd heq (hne i (by omega))
      · rw [Function.update_of_ne hie, Function.update_of_ne hke] at heq
        exact hl.inj i (by omega) k (by omega) heq

/-- The scan for free inodes is right: none of those it finds on the disk is in use, and if it
finds none then there is none in a bad block of the i-list either. -/
structure Scans (v : Vol) : Prop where
  used : v.fs.m_super.s_ninode = 0 → ∀ j, InUse v j → (v.inodep j).i_ino ∉ freeInodes v
  bad : v.fs.m_super.s_ninode = 0 → freeInodes v = [] →
    ∀ ino, ino ≠ 0 → ino ≤ ninodes v.fs → v.bad (INODEI + (ino - 1) / INOPB) = true → Allocated v ino

lemma freeInodes_mode {k : ℕ} (hk : k ∈ freeInodes v) : (v.dinode k).di_mode = 0 := by
  have hm := (List.mem_filter.mp (List.mem_of_mem_take hk)).2
  simp only [Bool.and_eq_true, beq_iff_eq] at hm
  exact hm.2

lemma freeInodes_nodup (v : Vol) : (freeInodes v).Nodup :=
  ((List.nodup_range' ..).filter _).sublist (List.take_sublist _ _)

/-- An i-list on which the scan finds nothing. -/
lemma freeInodes_nil (h : freeInodes v = []) (h0 : ino ≠ 0) (hle : ino ≤ ninodes v.fs)
    (hb : v.bad (INODEI + (ino - 1) / INOPB) = false) : (v.dinode ino).di_mode ≠ 0 := by
  intro hm
  have hmem : ino ∈ (List.range' 1 (ninodes v.fs)).filter fun ino =>
      !v.bad (INODEI + (ino - 1) / INOPB) && (v.dinode ino).di_mode == 0 := by
    rw [List.mem_filter, List.mem_range'_1]
    exact ⟨by omega, by simp [hb, hm]⟩
  rw [freeInodes, List.take_eq_nil_iff] at h
  rcases h with h | h
  · exact absurd h (by decide)
  · rw [h] at hmem
    exact absurd hmem (List.not_mem_nil)

lemma Listed.refilled (h : Listed v) (hv : Backing v) (hs : Scans v) :
    Listed { v with fs := refilled v } := by
  obtain ⟨-, his, htin⟩ := refilled_frame v
  have hcount : (Itable.refilled v).m_super.s_tinode = (unallocated { v with fs := Itable.refilled v }).card := by
    rw [htin, h.count, unallocated, unallocated, ninodes, ninodes, his]
    rfl
  by_cases h0 : v.fs.m_super.s_ninode = 0
  · have hr : (Itable.refilled v).m_super.s_inode = (fun i => (freeInodes v).getD i 0) ∧
        (Itable.refilled v).m_super.s_ninode = (freeInodes v).length := by
      unfold Itable.refilled
      dsimp only
      rw [if_pos (by rw [smod_ninode]; exact h0)]
      exact ⟨rfl, rfl⟩
    have hget : ∀ i (hi : i < (freeInodes v).length),
        (freeInodes v).getD i 0 = (freeInodes v).get ⟨i, hi⟩ := by
      intro i hi
      simp [hi]
    refine ⟨?_, ?_, hcount⟩
    · change ∀ i < (Itable.refilled v).m_super.s_ninode,
        ¬ Allocated v ((Itable.refilled v).m_super.s_inode i)
      rw [hr.1, hr.2]
      intro i hi ha
      have hmem : (freeInodes v).getD i 0 ∈ freeInodes v := by
        rw [hget i hi]
        exact List.getElem_mem hi
      have hne := (freeInodes_range hmem).1
      rcases (hv.allocated_iff hne).mp ha with hm | ⟨j, hj, hu⟩
      · exact hm (freeInodes_mode hmem)
      · refine hs.used h0 j ⟨hj.1, hj.2.2, ?_, hu⟩ ?_
        · rw [hj.2.1]
          exact hne
        · rw [hj.2.1]
          exact hmem
    · change ∀ i < (Itable.refilled v).m_super.s_ninode, ∀ k < (Itable.refilled v).m_super.s_ninode,
        (Itable.refilled v).m_super.s_inode i = (Itable.refilled v).m_super.s_inode k → i = k
      rw [hr.1, hr.2]
      intro i hi k hk heq
      dsimp only at heq
      rw [hget i hi, hget k hk] at heq
      exact (freeInodes_nodup v).getElem_inj_iff.mp heq
  · have hr : Itable.refilled v = smod v.fs := by
      unfold Itable.refilled
      dsimp only
      rw [if_neg (by rw [smod_ninode]; exact h0)]
    refine ⟨?_, ?_, hcount⟩
    · rw [hr]
      dsimp only
      rw [smod_ninode, smod_inode]
      exact h.free
    · rw [hr]
      dsimp only
      rw [smod_ninode, smod_inode]
      exact h.inj

/-- A new inode is one free inode less. -/
lemma Made.listed (h : Made v v' (nextIno v)) (hv : Backing v) (hl : Listed { v with fs := refilled v })
    (h0 : (refilled v).m_super.s_ninode ≠ 0) : Listed v' := by
  obtain ⟨htn, hti, htt⟩ := taken_list v
  obtain ⟨hpos, hle⟩ := hv.nextIno h0
  have hn := h.ilist.vol.ninode
  have hi := h.ilist.vol.inode
  have hcache := hv.refilled.cache
  have hall : ∀ k, k ≠ 0 → (Allocated v' k ↔ Allocated v k ∨ k = nextIno v) := by
    intro k hk
    rw [h.backing.allocated_iff hk, h.busy k hk, hv.allocated_iff hk]
  have hfree : ¬ Allocated v (nextIno v) := hl.free ((refilled v).m_super.s_ninode - 1)
    (by change _ < (refilled v).m_super.s_ninode; omega)
  refine ⟨?_, ?_, ?_⟩
  · rw [hn, hi, htn, hti]
    intro i hlt
    have hlt' : i < (refilled v).m_super.s_ninode := by omega
    rw [hall _ (hcache i hlt').1, not_or]
    refine ⟨hl.free i hlt', fun heq => ?_⟩
    have := hl.inj i hlt' ((refilled v).m_super.s_ninode - 1)
      (by change _ < (refilled v).m_super.s_ninode; omega) heq
    omega
  · rw [hn, hi, htn, hti]
    exact fun i hlt k hklt heq => hl.inj i (by change i < (refilled v).m_super.s_ninode; omega) k
      (by change k < (refilled v).m_super.s_ninode; omega) heq
  · have hisz : ninodes v'.fs = ninodes v.fs := by
      rw [ninodes, h.ilist.vol.isize, (taken_frame v).2, ninodes]
    have hset : unallocated v' = (unallocated v).erase (nextIno v) := by
      ext k
      rw [mem_unallocated, Finset.mem_erase, mem_unallocated, hisz]
      constructor
      · rintro ⟨hk, hna⟩
        rw [hall k hk.1, not_or] at hna
        exact ⟨hna.2, hk, hna.1⟩
      · rintro ⟨hne, hk, hna⟩
        refine ⟨hk, ?_⟩
        rw [hall k hk.1, not_or]
        exact ⟨hna, hne⟩
    have hmem : nextIno v ∈ unallocated v := mem_unallocated.mpr ⟨⟨hpos, hle⟩, hfree⟩
    have hcard := Finset.card_erase_add_one hmem
    have hlt := (card_unallocated_le v).trans_lt hv.inodes
    have hc : v.fs.m_super.s_tinode = (unallocated v).card := by
      rw [← (refilled_frame v).2.2, unallocated, ninodes, ← (refilled_frame v).2.1]
      exact hl.count
    rw [h.ilist.tinode, htt, hc, hset]
    omega

/-- A turn of `ialloc` that ends without an inode leaves the count right, if the scan is. -/
lemma Failed.listed (h : Failed v v') (hv : Backing v) (hl : Listed v) (hs : Scans v) : Listed v' := by
  have hr := hl.refilled hv hs
  cases h with
  | none h0 hb hn ht hi hbusy =>
    have hall : ∀ k, k ≠ 0 → (Allocated v' k ↔ Allocated v k) := by
      intro k hk
      rw [hb.allocated_iff hk, hbusy k, hv.allocated_iff hk]
    have hnil : v.fs.m_super.s_ninode = 0 ∧ freeInodes v = [] := by
      unfold refilled at h0
      dsimp only at h0
      split_ifs at h0 with hz
      · rw [smod_ninode] at hz
        exact ⟨hz, List.length_eq_zero_iff.mp h0⟩
      · exact absurd h0 hz
    have hnone : unallocated v' = ∅ := by
      ext k
      rw [mem_unallocated, hi]
      refine iff_of_false (fun ⟨hk, hna⟩ => hna ?_) (Finset.notMem_empty k)
      rw [hall k hk.1]
      by_cases hbad : v.bad (INODEI + (k - 1) / INOPB) = true
      · exact hs.bad hnil.1 hnil.2 k hk.1 hk.2 hbad
      · exact Or.inl (freeInodes_nil hnil.2 hk.1 hk.2 (Bool.eq_false_iff.mpr hbad))
    refine ⟨fun i hlt => absurd hlt (by omega), fun i hlt => absurd hlt (by omega), ?_⟩
    rw [ht, hnone, Finset.card_empty]
  | full gs h0 hb hgs hfs hbusy =>
    obtain ⟨htn, hti, htt⟩ := taken_list v
    have hron : gs.m_ron = false := hgs.vol.ron.trans ((taken_frame v).1.trans hv.ron)
    have hall : ∀ k, k ≠ 0 → (Allocated v' k ↔ Allocated v k) := by
      intro k hk
      rw [hb.allocated_iff hk, hbusy k, hv.allocated_iff hk]
    have hcache := hv.refilled.cache
    -- the number is back where it was, or nowhere
    have hlist : v'.fs.m_super.s_ninode ≤ (refilled v).m_super.s_ninode ∧
        v'.fs.m_super.s_inode = (refilled v).m_super.s_inode := by
      rw [hfs]
      rcases ifree_list hron (nextIno v) with ⟨hn, hi⟩ | ⟨hn, hi⟩
      · rw [hn, hi, hgs.vol.ninode, hgs.vol.inode, htn, hti]
        exact ⟨by omega, rfl⟩
      · rw [hn, hi, hgs.vol.ninode, hgs.vol.inode, htn, hti]
        refine ⟨by omega, ?_⟩
        rw [nextIno, Function.update_eq_self]
    refine ⟨fun i hlt => ?_, fun i hlt k hklt heq => ?_, ?_⟩
    · have hlt' : i < (refilled v).m_super.s_ninode := by omega
      rw [hlist.2, hall _ (hcache i hlt').1]
      exact hr.free i hlt'
    · rw [hlist.2] at heq
      exact hr.inj i (by change i < (refilled v).m_super.s_ninode; omega) k
        (by change k < (refilled v).m_super.s_ninode; omega) heq
    · have hisz : ninodes v'.fs = ninodes v.fs := by
        rw [hfs, ninodes, (ifree_frame gs _).2, hgs.vol.isize, (taken_frame v).2, ninodes]
      have hset : unallocated v' = unallocated v := by
        ext k
        rw [mem_unallocated, mem_unallocated, hisz]
        exact and_congr_right fun hk => not_congr (hall k hk.1)
      have hlt := (card_unallocated_le v).trans_lt hv.inodes
      rw [hfs, ifree_tinode hron, hgs.tinode, htt, hl.count, hset]
      omega
  | busy h0 hb hbusy =>
    obtain ⟨hpos, -⟩ := hv.nextIno h0
    exact absurd ((hv.allocated_iff hpos).mpr hbusy) (hr.free ((refilled v).m_super.s_ninode - 1)
      (by change _ < (refilled v).m_super.s_ninode; omega))

/-! ### Runs -/

/-- The file operations, and the writing back of an inode at any time. -/
inductive Act
  | op (o : Op)
  | icopymd (j : ℕ)

def act (v : Vol) : Act → Vol
  | .op o => exec v o
  | .icopymd j => icopymd v j

/-- What the callers see to. An inode is looked up by a number of a directory, and such a number
is that of an allocated inode. -/
def Legal (v : Vol) : Act → Prop
  | .op (.iattach ino) => Allowed v (.iattach ino) ∧ Allocated v ino
  | .op o => Allowed v o
  | .icopymd j => InUse v j

/-- No inode is given the mode zero, which is that of a free one. -/
def Typed (v : Vol) : Act → Prop
  | .op (.imake mode _) => mode ≠ 0
  | .op (.chmod j mode) => (v.inodep j).i_mode &&& IFMT ||| mode &&& 0o7777 ≠ 0
  | _ => True

/-- Where an inode is made, the scan is right. -/
def Scanned (v : Vol) : Act → Prop
  | .op (.imake _ _) | .op (.pmake _) => Scans v
  | _ => True

/-- An operation as the callers may call it. -/
def LegalStep (v : Vol) (a : Act) (v' : Vol) : Prop := Legal v a ∧ v' = act v a

/-- One that leaves no inode without a mode. -/
def TypedStep (v : Vol) (a : Act) (v' : Vol) : Prop := LegalStep v a v' ∧ Typed v a

/-- One whose scan is right, too. -/
def ScannedStep (v : Vol) (a : Act) (v' : Vol) : Prop := TypedStep v a v' ∧ Scanned v a

lemma Backing.legal (h : Backing v) {a : Act} (hs : TypedStep v a v') :
    Keeps v v' ∨ (∃ ino, Freed v v' ino) ∨
      (((∃ mode rdev, a = .op (.imake mode rdev)) ∨ ∃ mode, a = .op (.pmake mode)) ∧
        (Failed v v' ∨ Made v v' (Itable.nextIno v) ∧ (Itable.refilled v).m_super.s_ninode ≠ 0)) := by
  obtain ⟨⟨hal, rfl⟩, hty⟩ := hs
  cases a with
  | icopymd j => exact Or.inl (h.writeBack hal)
  | op o =>
    cases o with
    | iattach ino =>
      left
      have hb := (h.allocated_iff hal.1.1).mp hal.2
      rcases h.iattach hal.1.1 with ⟨m, hm⟩ | ⟨j, ip, hw, hg⟩
      · rw [act, exec, hm]
        have he : SameIlist v.fs { v.fs with u_error := some .ENFILE, msg := m } := .of_super rfl rfl rfl
        exact ⟨h.same he, he, fun _ _ => Iff.rfl⟩
      · rw [act, exec, hw]
        exact hg.keeps h hal.1.1 hal.1.2 (hg.mode.mpr hb)
    | idetach j =>
      rcases h.idetach hal with hk | hf
      · exact Or.inl hk
      · exact Or.inr (Or.inl ⟨_, hf⟩)
    | iwrite j iop => exact Or.inl (h.iwrite hal iop)
    | pread j iop => exact Or.inl (h.pread hal.1 iop)
    | iclear j => exact Or.inl (h.clear hal)
    | imake mode rdev =>
      refine Or.inr (Or.inr ⟨Or.inl ⟨mode, rdev, rfl⟩, ?_⟩)
      rcases h.imake hty rdev with hf | ⟨hm, -, h0⟩
      · exact Or.inl hf
      · exact Or.inr ⟨hm, h0⟩
    | pmake mode =>
      refine Or.inr (Or.inr ⟨Or.inr ⟨mode, rfl⟩, ?_⟩)
      rcases h.pmake hal with hf | ⟨hm, -, h0⟩
      · exact Or.inl hf
      · exact Or.inr ⟨hm, h0⟩
    | link j =>
      have h0 := (h.inUse hal).used (InUse.refc hal)
      exact Or.inl (h.flagged _ hal (.refl _) rfl rfl rfl (by simp [modified]) h0)
    | unlink j =>
      have h0 := (h.inUse hal).used (InUse.refc hal)
      exact Or.inl (h.flagged _ hal (.refl _) rfl rfl rfl (by simp [modified]) h0)
    | chmod j mode => exact Or.inl (h.flagged _ hal (.refl _) rfl rfl rfl (by simp [modified]) hty)
    | iacc j =>
      have h0 := (h.inUse hal).used (InUse.refc hal)
      exact Or.inl (h.flagged _ hal (.refl _) rfl rfl rfl (by simp [modified]) h0)
    | isync => exact Or.inl h.isync
    | other j ip => exact Or.inl (h.replace hal.2 hal.1)
    | time t =>
      exact Or.inl ⟨⟨h.ron, h.inodes, h.uniq, h.used, h.range, h.slot, h.links, h.reserved, h.cache⟩,
        .refl _, fun _ _ => Iff.rfl⟩

lemma Backing.step (h : Backing v) {a : Act} (hs : TypedStep v a v') : Backing v' := by
  rcases h.legal hs with hk | ⟨_, hf⟩ | ⟨-, hf | ⟨hm, -⟩⟩
  · exact hk.backing
  · exact hf.backing
  · exact hf.backing
  · exact hm.backing

lemma Listed.step (h : Listed v) (hv : Backing v) {a : Act} (hs : ScannedStep v a v') : Listed v' := by
  rcases hv.legal hs.1 with hk | ⟨_, hf⟩ | ⟨ha, hm⟩
  · exact hk.listed hv h
  · exact hf.listed hv h
  · have hscan : Scans v := by
      rcases ha with ⟨mode, rdev, rfl⟩ | ⟨mode, rfl⟩ <;> exact hs.2
    rcases hm with hf | ⟨hm, h0⟩
    · exact hf.listed hv h hscan
    · exact hm.listed hv (h.refilled hv hscan) h0

/-- Inodes 7 and 8 are free, and 7 is on the list. No slot of the table is used. -/
def lateVol : Vol where
  fs := { smallFs with m_super := { smallFs.m_super with
    s_ninode := 1
    s_inode := fun _ => 7
    s_tinode := 2 } }
  dev := 1
  NINODE := 3
  inodep _ := ⟨0, 0, 0, 0, false, false, false, 0, 0, 0, fun _ => 0⟩
  dinode ino :=
    if ino < 7 then ⟨IFREG, 1, 0, fun _ => 0, 0, 0, 0, 0⟩ else ⟨0, 0, 0, fun _ => 0, 0, 0, 0, 0⟩
  bad _ := false
  t_time := 1

lemma lateVol_backing : Backing lateVol := by
  have hno : ∀ j ino, ¬ Holds lateVol j ino := fun j ino h => absurd h.2.2 (by decide : ¬ 0 = 1)
  refine ⟨rfl, by decide, fun j _ ino _ hj => absurd hj (hno j ino), fun j ino hj => absurd hj (hno j ino),
    fun j ino _ hj => absurd hj (hno j ino), fun j ino _ hj => absurd hj (hno j ino), fun ino hm => ?_,
    by decide, by decide⟩
  simp only [lateVol] at hm ⊢
  split_ifs at hm ⊢
  · exact absurd hm (by decide)
  · rfl

lemma lateVol_listed : Listed lateVol := ⟨by decide, by decide, by decide +kernel⟩

def newFile : Act := .op (.imake (IFREG ||| 0o644) 0)

lemma newFile_step (v : Vol) : TypedStep v newFile (act v newFile) :=
  ⟨⟨fun _ => rfl, rfl⟩, (by decide : IFREG ||| 0o644 ≠ 0)⟩

end Coherent.Itable
