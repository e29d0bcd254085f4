import Coherent.Owner

/-!
Block ownership over runs of the file operations.

Each operation takes an inode and the free list from one consistent state to another. The one
that need not is the making of an inode in a slot that is still in the table: nothing clears
the addresses a special file has left there.
-/

namespace Coherent.Itable

open Coherent.Can Coherent.Super Coherent.FreeList Coherent.FileMap Coherent.FileIo Coherent.Lib

variable {v v' : Vol} {l l' : List ℤ} {j ino : ℕ} {fs gs : Fs} {ip : Inode} {d : Dinode}

/-- Somebody uses the inode in slot `j`. -/
structure InUse (v : Vol) (j : ℕ) : Prop where
  lt : j < v.NINODE
  dev : (v.inodep j).i_dev = v.dev
  ino : (v.inodep j).i_ino ≠ 0
  refc : (v.inodep j).i_refc ≠ 0

lemma InUse.holds (h : InUse v j) : Holds v j (v.inodep j).i_ino := ⟨h.lt, rfl, h.dev⟩

lemma put_eq_setInode (v : Vol) (j : ℕ) (ip : Inode) :
    put v v.fs j ip (v.dinode ip.i_ino) = setInode v j ip := by
  rw [put, setInode, Function.update_eq_self]

lemma setInode_self (v : Vol) (j : ℕ) : setInode v j (v.inodep j) = v := by
  rw [setInode, Function.update_eq_self]

/-- A slot in use and flagged may say anything but bad counters of a pipe. -/
lemma SlotOk.of_modified (hm : modified ip = true) (hr : ip.i_refc ≠ 0)
    (hp : ip.i_mode &&& IFMT = IFPIPE → PipeOk ip.i_addr) : SlotOk ip d :=
  ⟨fun h => absurd (hm.symm.trans h) (by simp), fun h => absurd h hr, hp⟩

/-- An operation on the blocks of the inode in slot `j`. -/
lemma Owned.kept (ip : Inode) (h : Owned v l) (h0 : (v.inodep j).i_ino ≠ 0)
    (hj : Holds v j (v.inodep j).i_ino)
    (hk : Kept v.fs l (naddr (v.inodep j).i_mode) (v.inodep j).i_addr gs l' ip.i_addr)
    (hino : ip.i_ino = (v.inodep j).i_ino) (hdev : ip.i_dev = v.dev)
    (hmode : naddr ip.i_mode = naddr (v.inodep j).i_mode) (hs : SlotOk ip (v.dinode ip.i_ino)) :
    Owned { setInode v j ip with fs := gs } l' := by
  have ho := h.owns_eq h0 hj
  have hput := h.put ip (v.dinode ip.i_ino) h0 hj hk.live
    (.of_sameVolume h hk.vol (by rw [ho]; exact hk.frame)) hino hdev
    (by rw [ho, hmode]; exact hk.held) hs (h.dpipe _)
  rwa [Itable.put, Function.update_eq_self] at hput

/-- A change of the slot that leaves the addresses. -/
lemma Owned.touch (ip : Inode) (h : Owned v l) (h0 : (v.inodep j).i_ino ≠ 0)
    (hj : Holds v j (v.inodep j).i_ino) (haddr : ip.i_addr = (v.inodep j).i_addr)
    (hino : ip.i_ino = (v.inodep j).i_ino) (hdev : ip.i_dev = v.dev)
    (hmode : naddr ip.i_mode = naddr (v.inodep j).i_mode) (hs : SlotOk ip (v.dinode ip.i_ino)) :
    Owned (setInode v j ip) l :=
  h.kept ip h0 hj (by rw [haddr]; exact .refl h.live) hino hdev hmode hs

lemma Owned.slotOk (h : Owned v l) (hj : InUse v j) :
    SlotOk (v.inodep j) (v.dinode (v.inodep j).i_ino) :=
  h.slot j _ hj.ino hj.holds

/-! ### Writing and reading -/

lemma naddr_file {mode : ℕ} (h : mode &&& IFMT = IFREG ∨ mode &&& IFMT = IFDIR) :
    naddr mode = NADDR := by
  unfold naddr
  rcases h with h | h <;> rw [h] <;> rfl

lemma naddr_pipe {mode : ℕ} (h : mode &&& IFMT = IFPIPE) : naddr mode = ND := if_pos h

lemma Owned.iwrite (h : Owned v l) (hj : InUse v j) (iop : Source) :
    ∃ l', Owned (iwrite v j iop).1 l' := by
  have hok := h.slotOk hj
  have hsound := h.sound hj.ino hj.holds
  unfold FileIo.iwrite
  extract_lets src ip t
  have hmod : SlotOk ip (v.dinode ip.i_ino) := .of_modified (by simp [modified, ip]) hj.refc hok.pipe
  have htouch : Owned (setInode v j ip) l := h.touch ip hj.ino hj.holds rfl rfl hj.dev rfl hmod
  split_ifs with h0 h1 h2 h3
  · exact ⟨l, htouch⟩
  · exact absurd h2 (by simp [h.live.ron])
  · -- a file or a directory
    have hn : naddr (v.inodep j).i_mode = NADDR := naddr_file h1
    rw [hn] at hsound
    obtain ⟨l', hk, hsame, -⟩ := fwrite_kept ip iop hsound
      fun lb i p _ hlb => (lmap_cons hlb).1
    refine ⟨l', h.kept (fwrite v.fs ip iop).2.1 hj.ino hj.holds (by rw [hn]; exact hk) ?_ ?_ ?_ ?_⟩
    · rw [hsame.1]
    · rw [hsame.1]; exact hj.dev
    · rw [hsame.1]
    · refine .of_modified (by rw [hsame.1]; simp [modified, ip]) (by rw [hsame.1]; exact hj.refc) ?_
      intro hp
      rw [hsame.1] at hp
      rcases h1 with h1 | h1 <;> exact absurd (h1.symm.trans hp) (by decide)
  · -- a pipe
    have hn : naddr (v.inodep j).i_mode = ND := naddr_pipe h3
    rw [hn] at hsound
    obtain ⟨l', hk, hsame, hp⟩ := pwriteTurn_kept ip iop hsound (hok.pipe h3)
    refine ⟨l', h.kept (pwriteTurn v.fs ip iop).2.1 hj.ino hj.holds (by rw [hn]; exact hk) ?_ ?_ ?_ ?_⟩
    · rw [hsame]
    · rw [hsame]; exact hj.dev
    · rw [hsame]
    · exact .of_modified (by rw [hsame]; simp [modified, ip]) (by rw [hsame]; exact hj.refc) fun _ => hp
  · exact ⟨l, h.kept ip hj.ino hj.holds (.error h.live _) rfl hj.dev rfl hmod⟩

lemma Owned.pread (h : Owned v l) (hj : InUse v j) (iop : Sink)
    (hp : (v.inodep j).i_mode &&& IFMT = IFPIPE) : Owned (pread v j iop).1 l := by
  have hok := h.slotOk hj
  have hn : naddr (v.inodep j).i_mode = ND := naddr_pipe hp
  have hsound := h.sound hj.ino hj.holds
  rw [hn] at hsound
  obtain ⟨hk, hsame, haddr, hpipe⟩ := preadTurn_kept (v.inodep j) iop hsound (hok.pipe hp)
  refine h.kept (preadTurn v.fs (v.inodep j) iop).2.1 hj.ino hj.holds (by rw [hn]; exact hk) ?_ ?_ ?_ ?_
  · rw [hsame]
  · rw [hsame]; exact hj.dev
  · rw [hsame]
  · -- the counters on the disk stay behind those in core, as no flag is set
    have hmod : modified (preadTurn v.fs (v.inodep j) iop).2.1 = modified (v.inodep j) := by
      rw [hsame]; rfl
    refine ⟨fun hm => ?_, fun hr => absurd hr (by rw [hsame]; exact hj.refc), fun _ => hpipe⟩
    rw [hmod] at hm
    have hag := hok.clean hm
    have hmode : (preadTurn v.fs (v.inodep j) iop).2.1.i_mode = (v.inodep j).i_mode := by rw [hsame]
    have hino : (preadTurn v.fs (v.inodep j) iop).2.1.i_ino = (v.inodep j).i_ino := by rw [hsame]
    rw [hino]
    refine ⟨hag.mode.trans hmode.symm, fun i hi => ?_⟩
    rw [hmode] at hi
    rw [haddr i (by rw [← hn]; exact hi)]
    exact hag.addr i hi

lemma pipeOk_zero : PipeOk fun _ => 0 := ⟨by decide, by decide, by decide⟩

lemma Owned.clear (h : Owned v l) (hj : InUse v j) : ∃ l', Owned (clear v j) l' := by
  obtain ⟨l', hf⟩ := iclear_freed (h.sound hj.ino hj.holds)
  by_cases h0 : naddr (v.inodep j).i_mode = 0
  · refine ⟨l, ?_⟩
    rw [Itable.clear, iclear, if_pos h0]
    dsimp only
    rw [setInode_self]
    exact h
  refine ⟨l', h.kept (iclear v.fs (v.inodep j)).2 hj.ino hj.holds ⟨hf.live, hf.vol, ?_, ?_⟩ ?_ ?_ ?_ ?_⟩
  · rw [held, iclear_addr h0, roots_zero, hf.free, add_zero, add_comm]
    rfl
  · intro c hc hcs
    refine hf.frame c (fun hm => hc ?_) hcs
    exact Multiset.mem_add.mpr (Or.inr hm)
  all_goals rw [iclear, if_neg h0]
  · rfl
  · exact hj.dev
  · rfl
  · exact .of_modified rfl hj.refc fun _ => pipeOk_zero

/-! ### Names and modes -/

lemma Owned.link (h : Owned v l) (hj : InUse v j) : Owned (link v j) l :=
  h.touch _ hj.ino hj.holds rfl rfl hj.dev rfl
    (.of_modified (by simp [modified]) hj.refc (h.slotOk hj).pipe)

lemma Owned.unlink (h : Owned v l) (hj : InUse v j) : Owned (unlink v j) l :=
  h.touch _ hj.ino hj.holds rfl rfl hj.dev rfl
    (.of_modified (by simp [modified]) hj.refc (h.slotOk hj).pipe)

lemma chmod_type (mode m : ℕ) : (mode &&& IFMT ||| m &&& 0o7777) &&& IFMT = mode &&& IFMT := by
  have h : (0o7777 : ℕ) &&& IFMT = 0 := by decide
  rw [Nat.and_or_distrib_right, Nat.and_assoc, Nat.and_self, Nat.and_assoc, h, Nat.and_zero,
    Nat.or_zero]

lemma Owned.chmod (h : Owned v l) (hj : InUse v j) (mode : ℕ) : Owned (chmod v j mode) l := by
  have ht := chmod_type (v.inodep j).i_mode mode
  refine h.touch _ hj.ino hj.holds rfl rfl hj.dev ?_ (.of_modified (by simp [modified]) hj.refc ?_)
  · dsimp only
    rw [naddr, ht]
    rfl
  · dsimp only
    rw [ht]
    exact (h.slotOk hj).pipe

/-- `iacc`: the inode has been read. -/
def iacc (v : Vol) (j : ℕ) : Vol := setInode v j { v.inodep j with i_acc := true }

lemma Owned.iacc (h : Owned v l) (hj : InUse v j) : Owned (iacc v j) l :=
  h.touch _ hj.ino hj.holds rfl rfl hj.dev rfl
    (.of_modified (by simp [modified]) hj.refc (h.slotOk hj).pipe)

/-! ### Copying an inode to the disk -/

/-- An address of an inode of the volume has room in the three bytes on the disk. -/
lemma Owned.addr_small (h : Owned v l) (h0 : ino ≠ 0) (hj : Holds v j ino) {i : ℕ}
    (hi : i < naddr (v.inodep j).i_mode) :
    ((ulong ((v.inodep j).i_addr i) % 2 ^ 24 : ℕ) : ℤ) = (v.inodep j).i_addr i := by
  by_cases hz : (v.inodep j).i_addr i = 0
  · rw [hz]
    rfl
  have hmem : (v.inodep j).i_addr i ∈ roots v.fs.disk (naddr (v.inodep j).i_mode) (v.inodep j).i_addr :=
    Multiset.mem_of_le (root_le hi) (Radix.self_mem hz)
  have hr := (h.sound h0 hj).roots_vol _ hmem
  have hs := h.small
  have hlt : (v.inodep j).i_addr i < 2 ^ 24 := lt_of_lt_of_le hr.2 hs
  have h0' : 0 ≤ (v.inodep j).i_addr i := le_trans (Int.natCast_nonneg _) hr.1
  unfold ulong
  omega

lemma toDisk_dpipe (hp : ip.i_mode &&& IFMT = IFPIPE → PipeOk ip.i_addr) :
    (toDisk ip).di_mode &&& IFMT = IFPIPE → DpipeOk (toDisk ip) := by
  intro ht
  obtain ⟨h0, h1, h2⟩ := hp ht
  have ht' : ip.i_mode &&& IFMT = IFPIPE := ht
  refine ⟨?_, ?_, ?_⟩ <;> simp only [toDisk, if_pos ht'] <;> assumption

/-- The flags of an inode that has been copied to the disk. -/
def written (ip : Inode) : Inode := { ip with i_acc := false, i_mod := false, i_crt := false }

lemma icopymd_eq (hron : v.fs.m_ron = false) (hu : ¬ unused ip) :
    icopymd (setInode v j ip) j = put v v.fs j (written ip) (toDisk ip) := by
  simp [icopymd, setInode, hron, hu, put, written]

lemma icopymd_unused (hron : v.fs.m_ron = false) (hu : unused ip) :
    icopymd (setInode v j ip) j = put v (ifree (iclear v.fs ip).1 ip.i_ino) j
      (written { (iclear v.fs ip).2 with i_lrt := 0, i_mode := 0 })
      (toDisk { (iclear v.fs ip).2 with i_lrt := 0, i_mode := 0 }) := by
  have hino : (iclear v.fs ip).2.i_ino = ip.i_ino := by
    unfold iclear
    dsimp only
    split_ifs <;> rfl
  simp [icopymd, setInode, hron, hu, put, written, hino]

/-- The slot is written back as it is; only its count of users may have changed. -/
lemma Owned.copied (ip : Inode) (h : Owned v l) (h0 : ino ≠ 0) (hj : Holds v j ino)
    (hino : ip.i_ino = ino) (hdev : ip.i_dev = v.dev) (hmode : ip.i_mode = (v.inodep j).i_mode)
    (haddr : ip.i_addr = (v.inodep j).i_addr) (hu : ¬ unused ip) :
    Owned (icopymd (setInode v j ip) j) l := by
  have ho := h.owns_eq h0 hj
  have hpipe : ip.i_mode &&& IFMT = IFPIPE → PipeOk ip.i_addr := by
    rw [hmode, haddr]
    exact (h.slot j ino h0 hj).pipe
  rw [icopymd_eq h.live.ron hu]
  refine h.put (written ip) (toDisk ip) h0 hj h.live
    ⟨rfl, rfl, fun _ _ _ => rfl, h.cache⟩ hino hdev ?_ ⟨fun _ => ⟨rfl, fun i hi => ?_⟩, fun _ => rfl,
      hpipe⟩ (toDisk_dpipe hpipe)
  · change (l : Multiset ℤ) + roots v.fs.disk (naddr ip.i_mode) ip.i_addr = _
    rw [ho, hmode, haddr]
  · have hi' : i < naddr ip.i_mode := hi
    change (toDisk ip).di_addr i = ip.i_addr i
    simp only [toDisk, if_pos hi']
    rw [hmode] at hi'
    rw [haddr]
    exact h.addr_small h0 hj hi'

/-- The list of free blocks does not depend on the list of free inodes, nor on what the
super block says on the disk. -/
lemma Live.congr_super (h : Live fs l) (hnf : gs.m_super.s_nfree = fs.m_super.s_nfree)
    (hfr : gs.m_super.s_free = fs.m_super.s_free) (htf : gs.m_super.s_tfree = fs.m_super.s_tfree)
    (his : gs.m_super.s_isize = fs.m_super.s_isize) (hfs : gs.m_super.s_fsize = fs.m_super.s_fsize)
    (hron : gs.m_ron = fs.m_ron) (hrd : gs.rdok = fs.rdok)
    (hd : ∀ c, c ≠ SUPERI → gs.disk c = fs.disk c) : Live gs l where
  wf := by
    have h2 := h.wf.isize
    refine ⟨?_, by rw [hnf]; exact h.wf.nfree, by rw [his, hfs]; exact h.wf.range, h.wf.nodup,
      by rw [htf]; exact h.wf.tfree, by rw [his]; exact h2, by rw [hfs]; exact h.wf.fsize⟩
    rw [hnf, hfr]
    refine h.wf.chain.congr_disk fun b hb => hd b ?_
    have := (h.wf.range b hb).1
    unfold SUPERI
    omega
  ron := by rw [hron, h.ron]
  rdok := by rw [hrd]; exact h.rdok

lemma ifree_live (h : Live fs l) (ino : ℕ) : Live (ifree fs ino) l := by
  have hs : Live (smod fs) l := h.mono (smod_sameVolume fs) h.wf.smod
  rw [ifree, if_neg (by simp [h.ron])]
  dsimp only
  split_ifs <;> exact Live.congr_super hs rfl rfl rfl rfl rfl rfl rfl fun _ _ => rfl

lemma ifree_disk {c : ℤ} (hc : c ≠ SUPERI) : (ifree fs ino).disk c = fs.disk c := by
  unfold ifree
  dsimp only
  split_ifs
  · rfl
  all_goals exact smod_disk hc

/-- `ifree` of an inode of the volume leaves a good list of free inodes. -/
lemma ifree_outside {own : Multiset ℤ} (ho : Outside v l own fs) (h0 : ino ≠ 0)
    (hr : ino ≤ ninodes v.fs) : Outside v l own (ifree fs ino) := by
  refine ⟨?_, ?_, fun c hc hcs => by rw [ifree_disk hcs]; exact ho.frame c hc hcs, ?_⟩
  · rw [← ho.isize]
    unfold ifree
    dsimp only
    split_ifs <;> simp
  · rw [← ho.fsize]
    unfold ifree
    dsimp only
    split_ifs <;> simp
  · unfold ifree
    dsimp only
    split_ifs with h1 h2
    · exact ho.cache
    · dsimp only
      rw [smod_ninode, smod_inode]
      intro i hi
      by_cases hn : i = fs.m_super.s_ninode
      · rw [hn, Function.update_self]
        exact ⟨h0, hr⟩
      · rw [Function.update_of_ne hn]
        exact ho.cache i (by omega)
    · dsimp only
      rw [smod_ninode, smod_inode]
      exact ho.cache

/-- The last user of an inode without a name is gone: its blocks and its number are freed. -/
lemma Owned.dropped (ip : Inode) (h : Owned v l) (h0 : ino ≠ 0) (hj : Holds v j ino)
    (hino : ip.i_ino = ino) (hdev : ip.i_dev = v.dev) (hmode : ip.i_mode = (v.inodep j).i_mode)
    (haddr : ip.i_addr = (v.inodep j).i_addr) (hu : unused ip) :
    ∃ l', Owned (icopymd (setInode v j ip) j) l' := by
  have ho := h.owns_eq h0 hj
  have hsound := h.sound h0 hj
  rw [← hmode, ← haddr] at hsound ho
  obtain ⟨l', hf⟩ := iclear_freed hsound
  have hkeep : (iclear v.fs ip).2.i_ino = ip.i_ino ∧ (iclear v.fs ip).2.i_dev = ip.i_dev := by
    unfold iclear
    dsimp only
    split_ifs <;> exact ⟨rfl, rfl⟩
  have hz : naddr 0 = 0 := by decide
  have hnp : ∀ x : ℕ → ℤ, (0 : ℕ) &&& IFMT = IFPIPE → PipeOk x := fun _ h => absurd h (by decide)
  rw [icopymd_unused h.live.ron hu]
  refine ⟨l', h.put _ _ h0 hj (ifree_live hf.live _) (ifree_outside (.of_sameVolume h hf.vol ?_) ?_ ?_)
    (hkeep.1.trans hino) (hkeep.2.trans hdev) ?_ ⟨fun _ => ⟨rfl, fun i hi => ?_⟩, fun _ => rfl, hnp _⟩
    (toDisk_dpipe (hnp _))⟩
  · intro c hc hcs
    refine hf.frame c (fun hm => hc (Multiset.mem_add.mpr (Or.inr ?_))) hcs
    rw [ho]
    exact hm
  · rw [hino]; exact h0
  · rw [hino]; exact h.range j ino h0 hj
  · change (l' : Multiset ℤ) + roots _ (naddr 0) _ = _
    rw [hz, roots_none, add_zero, hf.free, ho, add_comm]
  · exact absurd hi (by change ¬ i < naddr 0; rw [hz]; omega)

lemma Owned.idetach (h : Owned v l) (hj : InUse v j) : ∃ l', Owned (idetach v j) l' := by
  have hok := h.slotOk hj
  unfold Itable.idetach
  extract_lets src ip v'
  split_ifs with hc
  · by_cases hu : unused ip
    · exact h.dropped ip hj.ino hj.holds rfl hj.dev rfl rfl hu
    · exact ⟨l, h.copied ip hj.ino hj.holds rfl hj.dev rfl rfl hu⟩
  · refine ⟨l, h.touch ip hj.ino hj.holds rfl rfl hj.dev rfl ⟨fun hm => ⟨(hok.clean hm).mode, (hok.clean hm).addr⟩,
      fun hr => ?_, hok.pipe⟩⟩
    by_contra hm
    refine hc ⟨hr, ?_⟩
    simp only [modified, Bool.or_eq_false_iff, not_and_or, Bool.not_eq_false] at hm
    tauto

lemma Owned.icopymd (h : Owned v l) (hj : InUse v j) : Owned (icopymd v j) l := by
  have hc := h.copied (v.inodep j) hj.ino hj.holds rfl hj.dev rfl rfl fun hu => hj.refc hu.1
  rwa [setInode_self] at hc

lemma Owned.isync (h : Owned v l) : Owned (isync v) l := by
  unfold Itable.isync
  have hlt : ∀ k ∈ List.range v.NINODE, k < v.NINODE := fun k => List.mem_range.mp
  generalize List.range v.NINODE = js at hlt
  induction js generalizing v with
  | nil => exact h
  | cons k js ih =>
    rw [List.foldl_cons]
    dsimp only
    split_ifs with hc
    · exact ih h fun k hk => hlt k (by simp [hk])
    · rw [not_or, not_or] at hc
      have hN : k < v.NINODE := hlt k (by simp)
      have hdev : (v.inodep k).i_dev = v.dev := not_not.mp hc.2.1
      have hk : InUse v k := ⟨hN, hdev, h.used k _ ⟨hN, rfl, hdev⟩ hc.1, hc.1⟩
      have hnin : (Itable.icopymd v k).NINODE = v.NINODE := by
        unfold Itable.icopymd
        split_ifs <;> rfl
      exact ih (h.icopymd hk) fun k hk => hnin.symm ▸ hlt k (by simp [hk])

/-! ### Bringing an inode into core -/

lemma icopydm_agrees (v : Vol) (ip : Inode) : Agrees (icopydm v ip) (v.dinode ip.i_ino) := by
  refine ⟨rfl, fun i hi => ?_⟩
  have hi' : i < naddr (v.dinode ip.i_ino).di_mode := hi
  unfold naddr at hi'
  simp only [icopydm, load]
  split_ifs at hi' with h1 h2
  · -- a pipe
    rw [h1, if_neg (by decide), if_neg (by decide), if_pos rfl, (counters_addr _ _ hi').2.2,
      (counters_addr _ _ hi').2.1, (counters_addr _ _ hi').1, loadAddr, if_pos hi']
  · rw [if_neg (by rcases h2 with h2 | h2 <;> rw [h2] <;> decide), if_pos h2.symm, loadAddr,
      if_pos hi']
  · omega

lemma icopydm_pipe (v : Vol) (ip : Inode)
    (hd : (v.dinode ip.i_ino).di_mode &&& IFMT = IFPIPE → DpipeOk (v.dinode ip.i_ino))
    (hp : (icopydm v ip).i_mode &&& IFMT = IFPIPE) : PipeOk (icopydm v ip).i_addr := by
  have hp' : (v.dinode ip.i_ino).di_mode &&& IFMT = IFPIPE := hp
  obtain ⟨h0, h1, h2⟩ := hd hp'
  have hPS : PIPSIZE = 5120 := rfl
  simp only [icopydm, load]
  rw [hp', if_neg (by decide), if_neg (by decide), if_pos rfl]
  refine ⟨?_, ?_, ?_⟩ <;> simp <;> omega

lemma victim_some (h : victim v = some j) : j < v.NINODE ∧ (v.inodep j).i_refc = 0 := by
  refine List.foldlRecOn (motive := fun o => ∀ f, o = some f → f < v.NINODE ∧ (v.inodep f).i_refc = 0)
    (List.range v.NINODE) _ (fun f hf => absurd hf (by simp)) (fun fip hf k hk => ?_) j h
  have hlt := List.mem_range.mp hk
  intro f
  by_cases h0 : (v.inodep k).i_refc = 0
  · rw [if_pos h0]
    cases fip with
    | none =>
      intro e
      rw [← Option.some.inj e]
      exact ⟨hlt, h0⟩
    | some g =>
      dsimp only
      split_ifs
      · intro e
        rw [← Option.some.inj e]
        exact ⟨hlt, h0⟩
      · exact hf f
  · rw [if_neg h0]
    exact hf f

/-- The addresses a new inode `ino` starts with: those of its slot, if a free inode of that
number is still in one. -/
def leftover (v : Vol) (ino : ℕ) : ℕ → ℤ :=
  match slotOf v ino with
  | some j => if (v.inodep j).i_mode = 0 then (v.inodep j).i_addr else fun _ => 0
  | none => fun _ => 0

/-- `iattach` has put inode `ino` into slot `j`. -/
structure Attached (v : Vol) (l : List ℤ) (ino : ℕ) (w : Vol) (j : ℕ) : Prop where
  owned : Owned w l
  holds : Holds w j ino
  refc : (w.inodep j).i_refc ≠ 0
  fs : w.fs = v.fs
  addr : (w.inodep j).i_mode = 0 → (w.inodep j).i_addr = leftover v ino

lemma iattach_some (hs : slotOf v ino = some j) : iattach v ino = (some j, setInode v j
    { v.inodep j with i_refc := (v.inodep j).i_refc + 1, i_lrt := v.t_time }) := by
  rw [iattach, hs]

lemma iattach_victim (hs : slotOf v ino = none) (hv : victim v = some j) :
    iattach v ino = (some j, setInode v j (icopydm v
      { v.inodep j with i_dev := v.dev, i_ino := ino, i_refc := 1, i_lrt := v.t_time })) := by
  rw [iattach, hs]
  dsimp only
  rw [hv]

lemma Owned.iattach (h : Owned v l) (h0 : ino ≠ 0) (hr : ino ≤ ninodes v.fs) :
    (∃ m, iattach v ino = (none, { v with fs := { v.fs with u_error := some .ENFILE, msg := m } })) ∨
    ∃ w j, iattach v ino = (some j, w) ∧ Attached v l ino w j := by
  cases hs : slotOf v ino with
  | some j =>
    have hj := slotOf_some hs
    obtain rfl := hj.2.1
    have hok := h.slot j _ h0 hj
    refine Or.inr ⟨_, j, iattach_some hs, ?_, ?_, ?_, rfl, ?_⟩
    · refine h.touch _ h0 hj rfl rfl hj.2.2 rfl ⟨fun hm => ?_, fun hz => absurd hz (by simp), hok.pipe⟩
      exact ⟨(hok.clean hm).mode, (hok.clean hm).addr⟩
    · exact ⟨hj.1, by simp [setInode], by simp [setInode, hj.2.2]⟩
    · simp [setInode]
    · intro hm
      simp only [setInode, Function.update_self] at hm ⊢
      rw [leftover, hs]
      dsimp only
      rw [if_pos hm]
  | none =>
    cases hv : victim v with
    | none => exact Or.inl ⟨_, by rw [Itable.iattach, hs]; dsimp only; rw [hv]; rfl⟩
    | some j =>
      obtain ⟨hlt, hfree⟩ := victim_some hv
      refine Or.inr ⟨_, j, iattach_victim hs hv, ?_, ?_, ?_, rfl, ?_⟩
      · refine h.replace (fun _ _ _ => hfree) fun _ => ⟨h0, hr, hs, icopydm_agrees v _, ?_⟩
        exact ⟨fun _ => icopydm_agrees v _, fun _ => rfl, icopydm_pipe v _ (h.dpipe ino)⟩
      · exact ⟨hlt, by simp [setInode, icopydm, load], by simp [setInode, icopydm, load]⟩
      · simp [setInode, icopydm, load]
      · intro hm
        simp only [setInode, Function.update_self] at hm ⊢
        have hm' : (v.dinode ino).di_mode = 0 := hm
        rw [leftover, hs]
        simp only [icopydm, load, hm']
        rw [if_neg (by decide), if_neg (by decide), if_neg (by decide)]

/-! ### New inodes -/

/-- The number of the inode that `ialloc` takes. -/
def nextIno (v : Vol) : ℕ := (refilled v).m_super.s_inode ((refilled v).m_super.s_ninode - 1)

/-- The file system when `ialloc` has taken it. -/
def taken (v : Vol) : Fs :=
  let sb := (refilled v).m_super
  smod { refilled v with m_super := { sb with
    s_ninode := sb.s_ninode - 1, s_tinode := (sb.s_tinode + 65535) % 65536 } }

lemma freeInodes_range {k : ℕ} (hk : k ∈ freeInodes v) : k ≠ 0 ∧ k ≤ ninodes v.fs := by
  have hm := List.mem_of_mem_filter (List.mem_of_mem_take hk)
  rw [List.mem_range'_1] at hm
  omega

lemma Owned.refill (h : Owned v l) : Live (refilled v) l ∧ Outside v [] 0 (refilled v) := by
  have hs : Live (smod v.fs) l := h.live.mono (smod_sameVolume v.fs) h.live.wf.smod
  unfold refilled
  dsimp only
  split_ifs with h0
  · refine ⟨Live.congr_super hs rfl rfl rfl rfl rfl rfl rfl fun _ _ => rfl, smod_isize _, smod_fsize _,
      fun c _ hc => smod_disk hc, fun i hi => ?_⟩
    have hlt : i < (freeInodes v).length := hi
    dsimp only
    have hget : (freeInodes v).getD i 0 = (freeInodes v)[i] := by simp [hlt]
    rw [hget]
    exact freeInodes_range (List.getElem_mem hlt)
  · refine ⟨hs, smod_isize _, smod_fsize _, fun c _ hc => smod_disk hc, ?_⟩
    rw [smod_ninode, smod_inode]
    exact h.cache

lemma Owned.take (h : Owned v l) : Owned { v with fs := taken v } l := by
  obtain ⟨hL, ho⟩ := h.refill
  have hL' : Live { refilled v with m_super := { (refilled v).m_super with
      s_ninode := (refilled v).m_super.s_ninode - 1,
      s_tinode := ((refilled v).m_super.s_tinode + 65535) % 65536 } } l :=
    Live.congr_super hL rfl rfl rfl rfl rfl rfl rfl fun _ _ => rfl
  refine h.super (hL'.mono (smod_sameVolume _) hL'.wf.smod) ⟨?_, ?_, fun c hc hcs => ?_, ?_⟩
  · rw [taken, smod_isize]; exact ho.isize
  · rw [taken, smod_fsize]; exact ho.fsize
  · rw [taken, smod_disk hcs]; exact ho.frame c hc hcs
  · rw [taken, smod_ninode, smod_inode]
    exact fun i hi => ho.cache i (by dsimp only at hi; omega)

/-- `ialloc` once there is a free inode on the list. -/
lemma ialloc_eq (mode : ℕ) (hron : v.fs.m_ron = false) (h0 : (refilled v).m_super.s_ninode ≠ 0) :
    ialloc v mode = match iattach { v with fs := taken v } (nextIno v) with
      | (none, v') => (none, { v' with fs := ifree v'.fs (nextIno v) })
      | (some j, v') =>
        if (v'.inodep j).i_mode ≠ 0 then
          (none, idetach { v' with fs := devmsg v'.fs ("Inode " ++ toString (nextIno v) ++ " busy") } j)
        else (some j, setInode v' j { v'.inodep j with
          i_acc := false, i_mod := false, i_crt := false, i_mode := mode, i_nlink := 0 }) := by
  rw [ialloc, if_neg (by simp [hron])]
  dsimp only
  rw [if_neg h0]
  rfl

/-- What `ialloc` does: it fails and leaves a consistent table, or it has taken a free inode
into slot `j`, with the addresses that were left there. -/
lemma Owned.ialloc (h : Owned v l) (mode : ℕ) :
    (∃ w l', ialloc v mode = (none, w) ∧ Owned w l') ∨
    ∃ w j, ialloc v mode = (some j, setInode w j { w.inodep j with
        i_acc := false, i_mod := false, i_crt := false, i_mode := mode, i_nlink := 0 }) ∧
      Attached { v with fs := taken v } l (nextIno v) w j ∧ (w.inodep j).i_mode = 0 ∧
      nextIno v ≠ 0 := by
  obtain ⟨hL, ho⟩ := h.refill
  by_cases h0 : (refilled v).m_super.s_ninode = 0
  · -- no free inodes
    rw [Itable.ialloc, if_neg (by simp [h.live.ron])]
    dsimp only
    rw [if_pos h0]
    refine Or.inl ⟨_, l, rfl, h.super ?_ ⟨ho.isize, ho.fsize, ho.frame, ho.cache⟩⟩
    exact Live.congr_super hL rfl rfl rfl rfl rfl rfl rfl fun _ _ => rfl
  have ht := h.take
  have hnext := ho.cache ((refilled v).m_super.s_ninode - 1) (by omega)
  have hn : ninodes (taken v) = ninodes v.fs := by
    rw [ninodes, ninodes, taken, smod_isize, ← ho.isize]
  rw [ialloc_eq mode h.live.ron h0]
  rcases ht.iattach hnext.1 (hnext.2.trans hn.ge) with ⟨m, hm⟩ | ⟨w, j, hw, ha⟩
  · -- the table is full
    have he : Live { taken v with u_error := some .ENFILE, msg := m } l :=
      Live.congr_super ht.live rfl rfl rfl rfl rfl rfl rfl fun _ _ => rfl
    refine Or.inl ⟨_, l, by rw [nextIno, hm], ht.super (ifree_live he _) ?_⟩
    exact ifree_outside ⟨rfl, rfl, fun _ _ _ => rfl, ht.cache⟩ hnext.1 (hnext.2.trans hn.ge)
  · by_cases hmode : (w.inodep j).i_mode = 0
    · exact Or.inr ⟨w, j, by rw [nextIno, hw]; simp [hmode], ha, hmode, hnext.1⟩
    · -- the inode is in use
      have hw' : Owned { w with fs := devmsg w.fs ("Inode " ++ toString (nextIno v) ++ " busy") } l :=
        ha.owned.super (Live.congr_super ha.owned.live rfl rfl rfl rfl rfl rfl rfl fun _ _ => rfl)
          ⟨rfl, rfl, fun _ _ _ => rfl, ha.owned.cache⟩
      have hj : InUse { w with fs := devmsg w.fs ("Inode " ++ toString (nextIno v) ++ " busy") } j := by
        refine ⟨ha.holds.1, ha.holds.2.2, ?_, ha.refc⟩
        change (w.inodep j).i_ino ≠ 0
        rw [ha.holds.2.1]
        exact hnext.1
      obtain ⟨l', hl'⟩ := hw'.idetach hj
      exact Or.inl ⟨_, l', by rw [nextIno, hw]; dsimp only; rw [if_pos hmode], hl'⟩

lemma setInode_setInode (v : Vol) (j : ℕ) (ip ip' : Inode) :
    setInode (setInode v j ip) j ip' = setInode v j ip' := by
  simp [setInode]

lemma setInode_fs (v : Vol) (gs : Fs) (j : ℕ) (ip ip' : Inode) :
    setInode { setInode v j ip with fs := gs } j ip' = { setInode v j ip' with fs := gs } := by
  simp [setInode]

/-- A new inode in slot `j`, which held a free one, if it has no blocks. -/
lemma Owned.made (ip : Inode) (h : Owned v l) (h0 : ino ≠ 0) (hj : Holds v j ino)
    (hmode : (v.inodep j).i_mode = 0) (hino : ip.i_ino = ino) (hdev : ip.i_dev = v.dev)
    (hL : Live gs l) (hv : SameVolume v.fs gs) (hd : gs.disk = v.fs.disk)
    (hz : ∀ i < naddr ip.i_mode, ip.i_addr i = 0) (hs : SlotOk ip (v.dinode ip.i_ino)) :
    Owned { setInode v j ip with fs := gs } l := by
  have hn : naddr 0 = 0 := by decide
  have hold : owns v ino = 0 := by rw [h.owns_eq h0 hj, hmode, hn, roots_none]
  have hnew : roots gs.disk (naddr ip.i_mode) ip.i_addr = 0 := by
    rw [roots_addr (a := fun _ => 0) hz, roots_zero]
  have hput := h.put ip (v.dinode ip.i_ino) h0 hj hL
    (.of_sameVolume h hv fun c _ _ => by rw [hd]) hino hdev (by rw [hold, hnew]) hs (h.dpipe _)
  rwa [Itable.put, Function.update_eq_self] at hput

/-- `imake` gives the new inode no block of anybody, if its slot has no addresses left. -/
lemma Owned.imake (h : Owned v l) (mode rdev : ℕ)
    (hz : ∀ i < naddr mode, setRdev (leftover v (nextIno v)) rdev i = 0)
    (hp : mode &&& IFMT = IFPIPE → PipeOk (setRdev (leftover v (nextIno v)) rdev)) :
    ∃ l', Owned (imake v mode rdev).2 l' := by
  unfold Itable.imake
  rcases h.ialloc mode with ⟨w, l', hw, h'⟩ | ⟨w, j, hw, ha, hmode, h0⟩
  · rw [hw]
    exact ⟨l', h'⟩
  · rw [hw]
    dsimp only
    rw [setInode_setInode]
    have haddr : (w.inodep j).i_addr = leftover v (nextIno v) := ha.addr hmode
    simp only [setInode, Function.update_self]
    refine ⟨l, ha.owned.made _ h0 ha.holds hmode ha.holds.2.1 ha.holds.2.2 ha.owned.live (.refl _) rfl
      ?_ (.of_modified rfl ha.refc ?_)⟩
    · rw [haddr]
      exact hz
    · rw [haddr]
      exact hp

/-- Freeing blocks that are not in the volume only prints messages. -/
lemma foldl_bfree_outside {a : ℕ → ℤ} (is : List ℕ)
    (h : ∀ i ∈ is, a i = 0 ∨ ¬ ((fs.m_super.s_isize : ℤ) ≤ a i ∧ a i < fs.m_super.s_fsize))
    (hron : fs.m_ron = false) :
    ∃ m, is.foldl (fun fs i => if a i ≠ 0 then bfree fs (a i) else fs) fs = { fs with msg := m } := by
  induction is generalizing fs with
  | nil => exact ⟨fs.msg, rfl⟩
  | cons i is ih =>
    rw [List.foldl_cons]
    by_cases h0 : a i = 0
    · rw [if_neg (not_not.mpr h0)]
      exact ih (fun k hk => h k (by simp [hk])) hron
    · have hout := (h i (by simp)).resolve_left h0
      have hb : bfree fs (a i) = devmsg fs ("Bad block " ++ toString (ulong (a i) % 65536) ++ " (free)") := by
        rw [bfree, if_neg (by simp [hron]), if_pos (by omega)]
      rw [if_pos h0, hb]
      obtain ⟨m, hm⟩ := @ih (devmsg fs _) (fun k hk => h k (by simp [hk])) hron
      exact ⟨m, by rw [hm]; rfl⟩

/-- Clearing a new pipe whose slot has no addresses of the volume left. -/
lemma iclear_pipe (fs : Fs) (ip : Inode) (ht : ip.i_mode &&& IFMT = IFPIPE) (hron : fs.m_ron = false)
    (h : ∀ i < ND, ip.i_addr i = 0 ∨
      ¬ ((fs.m_super.s_isize : ℤ) ≤ ip.i_addr i ∧ ip.i_addr i < fs.m_super.s_fsize)) :
    ∃ m, iclear fs ip =
      ({ fs with msg := m }, iamc { ip with i_size := 0, i_addr := fun _ => 0 }) := by
  have hn := naddr_pipe ht
  obtain ⟨m, hm⟩ := foldl_bfree_outside (List.range ND).reverse
    (fun i hi => h i (List.mem_range.mp (List.mem_reverse.mp hi))) hron
  refine ⟨m, ?_⟩
  rw [iclear, hn, if_neg (by decide)]
  exact Prod.ext hm rfl

/-- `pmake` frees no block of anybody, if its slot has no addresses of the volume left. -/
lemma Owned.pmake (h : Owned v l) (mode : ℕ) (hm : mode &&& IFMT = 0)
    (hz : ∀ i < ND, leftover v (nextIno v) i = 0 ∨
      ¬ ((v.fs.m_super.s_isize : ℤ) ≤ leftover v (nextIno v) i ∧
        leftover v (nextIno v) i < v.fs.m_super.s_fsize)) :
    ∃ l', Owned (pmake v mode).2 l' := by
  unfold Itable.pmake
  rcases h.ialloc (IFPIPE ||| mode) with ⟨w, l', hw, h'⟩ | ⟨w, j, hw, ha, hmode, h0⟩
  · rw [hw]
    exact ⟨l', h'⟩
  rw [hw]
  dsimp only
  have haddr : (w.inodep j).i_addr = leftover v (nextIno v) := ha.addr hmode
  have ht : (IFPIPE ||| mode) &&& IFMT = IFPIPE := by
    rw [Nat.and_or_distrib_right, hm]
    decide
  have hsame : w.fs.m_super.s_isize = v.fs.m_super.s_isize ∧
      w.fs.m_super.s_fsize = v.fs.m_super.s_fsize := by
    obtain ⟨-, ho⟩ := h.refill
    rw [ha.fs]
    exact ⟨(smod_isize _).trans ho.isize, (smod_fsize _).trans ho.fsize⟩
  obtain ⟨ip, hip⟩ : ∃ ip : Inode, ip = { w.inodep j with
      i_acc := false, i_mod := false, i_crt := false, i_mode := IFPIPE ||| mode, i_nlink := 0 } :=
    ⟨_, rfl⟩
  obtain ⟨m, hcl⟩ := iclear_pipe w.fs ip (by rw [hip]; exact ht) ha.owned.live.ron
    (by
      rw [hip, hsame.1, hsame.2]
      dsimp only
      rw [haddr]
      exact hz)
  have hself : (setInode w j ip).inodep j = ip := by simp [setInode]
  have hL : Live { w.fs with msg := m } l :=
    Live.congr_super ha.owned.live rfl rfl rfl rfl rfl rfl rfl fun _ _ => rfl
  rw [← hip, hself, show (setInode w j ip).fs = w.fs from rfl, hcl]
  have hfin := ha.owned.made { iamc { ip with i_size := 0, i_addr := fun _ => 0 } with
      i_addr := setPwx (setPrx (setPnc (fun _ => 0) 0) 0) 0 } h0 ha.holds hmode
    (by rw [hip]; exact ha.holds.2.1) (by rw [hip]; exact ha.holds.2.2) hL
    ⟨rfl, rfl, rfl, rfl, rfl, rfl⟩ rfl
    (fun i hi => by
      rw [show naddr _ = ND by rw [hip]; exact naddr_pipe ht] at hi
      dsimp only
      rw [(counters_addr _ _ hi).2.2, (counters_addr _ _ hi).2.1, (counters_addr _ _ hi).1])
    (.of_modified rfl (by rw [hip]; exact ha.refc) fun _ => ⟨by simp, by simp; decide, by simp; decide⟩)
  refine ⟨l, ?_⟩
  rw [setInode_fs]
  exact hfin

/-! ### Runs -/

/-- The file operations, and what else happens to the table. -/
inductive Op
  | iattach (ino : ℕ)
  | idetach (j : ℕ)
  | iwrite (j : ℕ) (iop : Source)
  | pread (j : ℕ) (iop : Sink)
  | iclear (j : ℕ)
  | imake (mode rdev : ℕ)
  | pmake (mode : ℕ)
  | link (j : ℕ)
  | unlink (j : ℕ)
  | chmod (j mode : ℕ)
  | iacc (j : ℕ)
  | isync
  /-- a slot that is free, or another device's, is given an inode of another device -/
  | other (j : ℕ) (ip : Inode)
  | time (t : ℕ)

def exec (v : Vol) : Op → Vol
  | .iattach ino => (iattach v ino).2
  | .idetach j => idetach v j
  | .iwrite j iop => (iwrite v j iop).1
  | .pread j iop => (pread v j iop).1
  | .iclear j => clear v j
  | .imake mode rdev => (imake v mode rdev).2
  | .pmake mode => (pmake v mode).2
  | .link j => link v j
  | .unlink j => unlink v j
  | .chmod j mode => chmod v j mode
  | .iacc j => iacc v j
  | .isync => isync v
  | .other j ip => setInode v j ip
  | .time t => { v with t_time := t }

/-- What the callers see to: an inode is used only while it is counted, the numbers come from
directories of the volume, `umknod` gives a device number to special files only, and `upipe`
calls `pmake` without a type. -/
def Allowed (v : Vol) : Op → Prop
  | .iattach ino => ino ≠ 0 ∧ ino ≤ ninodes v.fs
  | .pread j _ => InUse v j ∧ (v.inodep j).i_mode &&& IFMT = IFPIPE
  | .idetach j | .iwrite j _ | .iclear j | .link j | .unlink j | .chmod j _ | .iacc j => InUse v j
  | .imake mode rdev => naddr mode ≠ 0 → rdev = 0
  | .pmake mode => mode &&& IFMT = 0
  | .other j ip => ip.i_dev ≠ v.dev ∧ ((v.inodep j).i_dev = v.dev → (v.inodep j).i_refc = 0)
  | .isync | .time _ => True

/-- The slot from which a new inode is made has nothing left of the one it held before: all
addresses that the new inode uses as such are zero, and those that `pmake` frees are not
addresses of the volume. -/
def Fresh (v : Vol) : Op → Prop
  | .imake mode rdev => (∀ i < naddr mode, setRdev (leftover v (nextIno v)) rdev i = 0) ∧
      (mode &&& IFMT = IFPIPE → PipeOk (leftover v (nextIno v)))
  | .pmake _ => ∀ i < ND, leftover v (nextIno v) i = 0 ∨
      ¬ ((v.fs.m_super.s_isize : ℤ) ≤ leftover v (nextIno v) i ∧
        leftover v (nextIno v) i < v.fs.m_super.s_fsize)
  | _ => True

/-- An operation as the callers may call it. -/
def Step (v : Vol) (o : Op) (v' : Vol) : Prop := Allowed v o ∧ v' = exec v o

/-- An operation that makes no inode in a slot with leftovers. -/
def FreshStep (v : Vol) (o : Op) (v' : Vol) : Prop := Step v o v' ∧ Fresh v o

lemma pipeOk_setRdev {a : ℕ → ℤ} (h : PipeOk a) (w : ℕ) : PipeOk (setRdev a w) := by
  obtain ⟨h0, h1, h2⟩ := h
  have e : ∀ i, i ≠ 0 → setRdev a w i = a i := fun i hi => Function.update_of_ne hi _ _
  refine ⟨?_, ?_, ?_⟩
  · rw [i_pnc, e 10 (by decide)]; exact h0
  · rw [i_prx, e 10 (by decide)]; exact h1
  · rw [i_pwx, e 11 (by decide)]; exact h2

/-- One operation keeps the volume consistent. -/
lemma Owned.step {o : Op} (h : Owned v l) (hs : FreshStep v o v') : ∃ l', Owned v' l' := by
  obtain ⟨⟨hal, rfl⟩, hfr⟩ := hs
  cases o with
  | iattach ino =>
    rcases h.iattach hal.1 hal.2 with ⟨m, hm⟩ | ⟨w, j, hw, ha⟩
    · refine ⟨l, ?_⟩
      rw [exec, hm]
      exact h.super (Live.congr_super h.live rfl rfl rfl rfl rfl rfl rfl fun _ _ => rfl)
        ⟨rfl, rfl, fun _ _ _ => rfl, h.cache⟩
    · refine ⟨l, ?_⟩
      rw [exec, hw]
      exact ha.owned
  | idetach j => exact h.idetach hal
  | iwrite j iop => exact h.iwrite hal iop
  | pread j iop => exact ⟨l, h.pread hal.1 iop hal.2⟩
  | iclear j => exact h.clear hal
  | imake mode rdev => exact h.imake mode rdev hfr.1 fun hp => pipeOk_setRdev (hfr.2 hp) rdev
  | pmake mode => exact h.pmake mode hal hfr
  | link j => exact ⟨l, h.link hal⟩
  | unlink j => exact ⟨l, h.unlink hal⟩
  | chmod j mode => exact ⟨l, h.chmod hal mode⟩
  | iacc j => exact ⟨l, h.iacc hal⟩
  | isync => exact ⟨l, h.isync⟩
  | other j ip => exact ⟨l, h.replace (fun _ _ hj => hal.2 hj.2.2) fun hd => absurd hd hal.1⟩
  | time t => exact ⟨l, h.live, h.part, h.small, h.inodes, h.uniq, h.used, h.range, h.slot, h.dpipe,
      h.cache⟩

/-- **Block ownership over every run that makes no inode in a slot with leftovers.** In every
state reached each block of the volume is on the free list, or at one place of one inode, and
nowhere else; and clearing an inode then returns each of its blocks to the free list once and
leaves no address. -/
theorem block_ownership_runs {v₀ : Vol} {l₀ : List ℤ} {ops : List Op} (h₀ : Owned v₀ l₀)
    (hrun : Run FreshStep v₀ ops v) :
    ∃ l, WellFormed v.fs l ∧ Partition v l ∧
      ∀ j ino, ino ≠ 0 → Holds v j ino →
        (∃ l', WellFormed (iclear v.fs (v.inodep j)).1 l' ∧ (l' : Multiset ℤ) = owns v ino + l) ∧
        (naddr (v.inodep j).i_mode ≠ 0 → (iclear v.fs (v.inodep j)).2.i_addr = fun _ => 0) := by
  obtain ⟨l, h⟩ : ∃ l, Owned v l :=
    hrun.invariant (I := fun v => ∃ l, Owned v l) (fun _ _ _ ⟨_, h⟩ hst => h.step hst) ⟨l₀, h₀⟩
  refine ⟨l, h.live.wf, h.part, fun j ino h0 hj => ⟨?_, iclear_addr⟩⟩
  obtain ⟨l', hf⟩ := iclear_freed (h.sound h0 hj)
  refine ⟨l', hf.live.wf, ?_⟩
  rw [hf.free, h.owns_eq h0 hj]

/-! ### A slot with leftovers -/

/-- Two inodes of a partition have no block in common. -/
lemma Partition.disjoint (h : Partition v l) {i k : ℕ} (hi : i ∈ Finset.Icc 1 (ninodes v.fs))
    (hk : k ∈ Finset.Icc 1 (ninodes v.fs)) (hne : i ≠ k) {c : ℤ} (hc : c ∈ owns v i) :
    c ∉ owns v k := by
  intro hc'
  have hle : owns v i + owns v k ≤ ∑ m ∈ Finset.Icc 1 (ninodes v.fs), owns v m := by
    rw [← Finset.sum_pair hne]
    refine Finset.sum_le_sum_of_subset fun m hm => ?_
    rcases Finset.mem_insert.mp hm with rfl | hm
    · exact hi
    · rw [Finset.mem_singleton.mp hm]; exact hk
  have hnd : ((l : Multiset ℤ) + ∑ m ∈ Finset.Icc 1 (ninodes v.fs), owns v m).Nodup := by
    rw [h]; exact Finset.nodup _
  have hnd' := Multiset.nodup_of_le hle (Multiset.nodup_add.mp hnd).2.1
  exact Multiset.disjoint_left.mp (Multiset.nodup_add.mp hnd').2.2 hc hc'

/-- The addresses of a file with blocks 3, 4 and 7. -/
def smallAddr (i : ℕ) : ℤ := if i = 0 then 3 else if i = 1 then 4 else if i = 2 then 7 else 0

/-- Inode 3 is a file with all blocks that are not free, inode 4 is a device. The table has one
slot, in which inode 3 was used last. -/
def smallVol : Vol where
  fs := smallFs
  dev := 1
  NINODE := 1
  inodep _ := ⟨1, 3, 0, 0, false, false, false, IFREG, 1, 1536, smallAddr⟩
  dinode ino :=
    if ino = 3 then ⟨IFREG, 1, 1536, smallAddr, 0, 0, 0, 0⟩
    else if ino = 4 then ⟨IFCHR, 1, 0, fun _ => 0, 5, 0, 0, 0⟩
    else ⟨0, 0, 0, fun _ => 0, 0, 0, 0, 0⟩
  bad _ := false
  t_time := 1

lemma smallVol_owned : Owned smallVol [6, 5] where
  live := ⟨smallFs_wf, rfl, fun _ => rfl⟩
  part := by
    unfold Partition
    decide +kernel
  small := by decide
  inodes := by decide
  uniq j j' ino _ hj hj' := by
    have h1 : j < 1 := hj.1
    have h2 : j' < 1 := hj'.1
    omega
  used j ino _ hr := absurd rfl hr
  range j ino _ hj := by
    rw [← hj.2.1]
    exact (by decide : 3 ≤ 8)
  slot j ino _ hj := by
    rw [← hj.2.1]
    refine ⟨fun _ => ⟨rfl, fun _ _ => rfl⟩, fun _ => rfl, fun h => ?_⟩
    exact absurd h (by decide : ¬ IFREG &&& IFMT = IFPIPE)
  dpipe ino h := by
    simp only [smallVol] at h
    split_ifs at h <;> exact absurd h (by decide)
  cache i hi := absurd hi (Nat.not_lt_zero i)

lemma inUse_of_decide (h : j < v.NINODE ∧ (v.inodep j).i_dev = v.dev ∧ (v.inodep j).i_ino ≠ 0 ∧
    (v.inodep j).i_refc ≠ 0) : InUse v j := ⟨h.1, h.2.1, h.2.2.1, h.2.2.2⟩

/-- The states when the device has been looked up, has lost its name, and has been let go. -/
def smallVol₁ : Vol := exec smallVol (.iattach 4)
def smallVol₂ : Vol := exec smallVol₁ (.unlink 0)
def smallVol₃ : Vol := exec smallVol₂ (.idetach 0)

lemma smallVol_run : Run FreshStep smallVol ((([] ++ [.iattach 4]) ++ [.unlink 0]) ++ [.idetach 0])
    smallVol₃ :=
  .snoc (.snoc (.snoc (.nil _) ⟨⟨⟨by decide, by decide⟩, rfl⟩, trivial⟩)
    ⟨⟨inUse_of_decide (by decide +kernel), rfl⟩, trivial⟩)
    ⟨⟨inUse_of_decide (by decide +kernel), rfl⟩, trivial⟩

/-- Up to there all is well. -/
theorem smallVol₃_partition : ∃ l, Partition smallVol₃ l := by
  obtain ⟨l, -, h, -⟩ := block_ownership_runs smallVol_owned smallVol_run
  exact ⟨l, h⟩

/-- A file that is now made has the inode of the device, and in the slot it finds the blocks of
the file that was there before. -/
theorem smallVol₃_imake : ∃ ops v, Owned smallVol [6, 5] ∧ Run Step smallVol ops v ∧
    ∀ l, ¬ Partition v l := by
  have hrun : Run Step smallVol
      (((([] ++ [.iattach 4]) ++ [.unlink 0]) ++ [.idetach 0]) ++ [.imake (IFREG ||| 0o644) 0])
      (exec smallVol₃ (.imake (IFREG ||| 0o644) 0)) :=
    .snoc (.snoc (.snoc (.snoc (.nil _) ⟨⟨by decide, by decide⟩, rfl⟩)
      ⟨inUse_of_decide (by decide +kernel), rfl⟩) ⟨inUse_of_decide (by decide +kernel), rfl⟩)
      ⟨fun _ => rfl, rfl⟩
  refine ⟨_, _, smallVol_owned, hrun, fun l hl => ?_⟩
  refine hl.disjoint (i := 3) (k := 4) (c := 4) ?_ ?_ (by decide) ?_ ?_ <;> decide +kernel

end Coherent.Itable
