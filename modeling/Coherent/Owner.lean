import Coherent.Lib.Run
import Coherent.Held

/-!
Who owns the blocks of a file system.

Every block of the volume is on the free list or at one place of the tree of one inode. An
inode is what its slot of the table says, if it has one, and else what the disk says. What
keeps this is local: an operation changes one inode and the free list, and the blocks of all
others stay. What breaks it is a slot that is used again for a new inode with the addresses
of the file it held before.
-/

namespace Coherent.Itable

open Coherent.Can Coherent.Super Coherent.FreeList Coherent.FileMap Coherent.FileIo Coherent.Lib

/-- Slot `j` holds inode `ino` of this file system. -/
def Holds (v : Vol) (j ino : ℕ) : Prop :=
  j < v.NINODE ∧ (v.inodep j).i_ino = ino ∧ (v.inodep j).i_dev = v.dev

/-- The mode and the addresses of inode `ino`. -/
def current (v : Vol) (ino : ℕ) : ℕ × (ℕ → ℤ) :=
  match slotOf v ino with
  | some j => ((v.inodep j).i_mode, (v.inodep j).i_addr)
  | none => ((v.dinode ino).di_mode, (v.dinode ino).di_addr)

/-- The blocks of inode `ino`, each as often as it is in the tree. -/
def owns (v : Vol) (ino : ℕ) : Multiset ℤ :=
  roots v.fs.disk (naddr (current v ino).1) (current v ino).2

/-- Every block is on the free list or at one place of one inode, and at no other. -/
def Partition (v : Vol) (l : List ℤ) : Prop :=
  (l : Multiset ℤ) + ∑ ino ∈ Finset.Icc 1 (ninodes v.fs), owns v ino =
    (Finset.Ico (v.fs.m_super.s_isize : ℤ) v.fs.m_super.s_fsize).val

/-- The inode in core is to be written back. -/
def modified (ip : Inode) : Bool := ip.i_acc || ip.i_mod || ip.i_crt

/-- The inode is on the disk as it is in core. -/
structure Agrees (ip : Inode) (d : Dinode) : Prop where
  mode : d.di_mode = ip.i_mode
  addr : ∀ i < naddr ip.i_mode, d.di_addr i = ip.i_addr i

/-- The counters of a pipe on the disk are in its ring. -/
structure DpipeOk (d : Dinode) : Prop where
  pnc : d.di_pnc ≤ PIPSIZE
  prx : d.di_prx < PIPSIZE
  pwx : d.di_pwx < PIPSIZE

/-- What every slot of the file system keeps: it is flagged when it differs from the disk, and
only while somebody uses it. -/
structure SlotOk (ip : Inode) (d : Dinode) : Prop where
  clean : modified ip = false → Agrees ip d
  idle : ip.i_refc = 0 → modified ip = false
  pipe : ip.i_mode &&& IFMT = IFPIPE → PipeOk ip.i_addr

/-- A consistent file system and a consistent inode table. A disk inode has three bytes for an
address, and an inode number has two. -/
structure Owned (v : Vol) (l : List ℤ) : Prop where
  live : Live v.fs l
  part : Partition v l
  small : v.fs.m_super.s_fsize ≤ 2 ^ 24
  inodes : ninodes v.fs < 65536
  uniq : ∀ j j' ino, ino ≠ 0 → Holds v j ino → Holds v j' ino → j = j'
  used : ∀ j ino, Holds v j ino → (v.inodep j).i_refc ≠ 0 → ino ≠ 0
  range : ∀ j ino, ino ≠ 0 → Holds v j ino → ino ≤ ninodes v.fs
  slot : ∀ j ino, ino ≠ 0 → Holds v j ino → SlotOk (v.inodep j) (v.dinode ino)
  dpipe : ∀ ino, (v.dinode ino).di_mode &&& IFMT = IFPIPE → DpipeOk (v.dinode ino)
  cache : ∀ i < v.fs.m_super.s_ninode, v.fs.m_super.s_inode i ≠ 0 ∧
    v.fs.m_super.s_inode i ≤ ninodes v.fs

variable {v v' : Vol} {l l' : List ℤ} {j ino : ℕ} {gs : Fs}

/-! ### The slot of an inode -/

lemma slotOf_some (h : slotOf v ino = some j) : Holds v j ino := by
  have hp := List.find?_some h
  have hm := List.mem_of_find?_eq_some h
  rw [List.mem_range] at hm
  exact ⟨hm, of_decide_eq_true hp⟩

lemma slotOf_none (h : slotOf v ino = none) (j : ℕ) : ¬ Holds v j ino := by
  intro hj
  have := List.find?_eq_none.mp h j (List.mem_range.mpr hj.1)
  exact this (decide_eq_true hj.2)

lemma slotOf_eq_none (h : ∀ j, ¬ Holds v j ino) : slotOf v ino = none := by
  cases hs : slotOf v ino with
  | none => rfl
  | some k => exact absurd (slotOf_some hs) (h k)

lemma slotOf_of_uniq (hj : Holds v j ino) (hu : ∀ k, Holds v k ino → k = j) :
    slotOf v ino = some j := by
  cases hs : slotOf v ino with
  | none => exact absurd hj (slotOf_none hs j)
  | some k => rw [hu k (slotOf_some hs)]

lemma Owned.slotOf_eq (h : Owned v l) (h0 : ino ≠ 0) (hj : Holds v j ino) :
    slotOf v ino = some j :=
  slotOf_of_uniq hj fun k hk => h.uniq k j ino h0 hk hj

lemma Owned.current_eq (h : Owned v l) (h0 : ino ≠ 0) (hj : Holds v j ino) :
    current v ino = ((v.inodep j).i_mode, (v.inodep j).i_addr) := by
  rw [current, h.slotOf_eq h0 hj]

/-- Only the numbers of the inodes in the slots matter. -/
lemma slotOf_congr (hN : v'.NINODE = v.NINODE) (hd : v'.dev = v.dev)
    (h : ∀ k, (v'.inodep k).i_ino = (v.inodep k).i_ino ∧ (v'.inodep k).i_dev = (v.inodep k).i_dev) :
    slotOf v' ino = slotOf v ino := by
  unfold slotOf
  rw [hN, hd]
  congr 1
  funext k
  rw [(h k).1, (h k).2]

/-! ### The blocks of one inode -/

lemma Owned.owns_eq (h : Owned v l) (h0 : ino ≠ 0) (hj : Holds v j ino) :
    owns v ino = roots v.fs.disk (naddr (v.inodep j).i_mode) (v.inodep j).i_addr := by
  rw [owns, h.current_eq h0 hj]

lemma Owned.mem_icc (h : Owned v l) (h0 : ino ≠ 0) (hj : Holds v j ino) :
    ino ∈ Finset.Icc 1 (ninodes v.fs) :=
  Finset.mem_Icc.mpr ⟨Nat.one_le_iff_ne_zero.mpr h0, h.range j ino h0 hj⟩

lemma Owned.split (h : Owned v l) (hm : ino ∈ Finset.Icc 1 (ninodes v.fs)) :
    ((l : Multiset ℤ) + owns v ino) + ∑ k ∈ (Finset.Icc 1 (ninodes v.fs)).erase ino, owns v k =
      (Finset.Ico (v.fs.m_super.s_isize : ℤ) v.fs.m_super.s_fsize).val := by
  rw [← h.part, ← Finset.add_sum_erase _ _ hm, add_assoc]

lemma Owned.sound (h : Owned v l) (h0 : ino ≠ 0) (hj : Holds v j ino) :
    Sound v.fs l (naddr (v.inodep j).i_mode) (v.inodep j).i_addr := by
  have hs := h.split (h.mem_icc h0 hj)
  have hle : held v.fs l (naddr (v.inodep j).i_mode) (v.inodep j).i_addr ≤
      (Finset.Ico (v.fs.m_super.s_isize : ℤ) v.fs.m_super.s_fsize).val := by
    rw [held, ← h.owns_eq h0 hj, ← hs]
    exact Multiset.le_add_right _ _
  refine ⟨h.live, Multiset.nodup_of_le hle (Finset.nodup _), fun b hb => ?_⟩
  exact Finset.mem_Ico.mp (Multiset.mem_of_le hle hb)

/-- A block of another inode is not free, not of this inode and not the super block. -/
lemma Owned.other (h : Owned v l) (hm : ino ∈ Finset.Icc 1 (ninodes v.fs)) {k : ℕ}
    (hk : k ∈ Finset.Icc 1 (ninodes v.fs)) (hne : k ≠ ino) {c : ℤ} (hc : c ∈ owns v k) :
    c ∉ (l : Multiset ℤ) + owns v ino ∧ c ≠ SUPERI := by
  have hs := h.split hm
  have hmem : c ∈ ∑ k ∈ (Finset.Icc 1 (ninodes v.fs)).erase ino, owns v k :=
    Multiset.mem_sum.mpr ⟨k, Finset.mem_erase.mpr ⟨hne, hk⟩, hc⟩
  have hnd : (((l : Multiset ℤ) + owns v ino) +
      ∑ k ∈ (Finset.Icc 1 (ninodes v.fs)).erase ino, owns v k).Nodup := by
    rw [hs]; exact Finset.nodup _
  have hin : c ∈ Finset.Ico (v.fs.m_super.s_isize : ℤ) v.fs.m_super.s_fsize := by
    rw [← Finset.mem_val, ← hs]
    exact Multiset.mem_add.mpr (Or.inr hmem)
  refine ⟨fun hc' => ?_, ?_⟩
  · exact Multiset.disjoint_left.mp (Multiset.nodup_add.mp hnd).2.2 hc' hmem
  · have h2 := h.live.wf.isize
    have := (Finset.mem_Ico.mp hin).1
    unfold SUPERI
    omega

/-! ### Changing one inode -/

/-- What a change to the free list and the blocks `own` leaves to the other inodes. -/
structure Outside (v : Vol) (l : List ℤ) (own : Multiset ℤ) (gs : Fs) : Prop where
  isize : gs.m_super.s_isize = v.fs.m_super.s_isize
  fsize : gs.m_super.s_fsize = v.fs.m_super.s_fsize
  frame : ∀ c, c ∉ (l : Multiset ℤ) + own → c ≠ SUPERI → gs.disk c = v.fs.disk c
  cache : ∀ i < gs.m_super.s_ninode, gs.m_super.s_inode i ≠ 0 ∧
    gs.m_super.s_inode i ≤ ninodes v.fs

/-- The volume with the inode in slot `j`, in core and on the disk, replaced. -/
def put (v : Vol) (gs : Fs) (j : ℕ) (ip : Inode) (d : Dinode) : Vol :=
  { v with
    fs := gs
    inodep := Function.update v.inodep j ip
    dinode := Function.update v.dinode ip.i_ino d }

lemma Outside.ninodes {own : Multiset ℤ} (h : Outside v l own gs) : ninodes gs = ninodes v.fs := by
  rw [Itable.ninodes, Itable.ninodes, h.isize]

lemma Outside.of_sameVolume {own : Multiset ℤ} (h : Owned v l) (hv : SameVolume v.fs gs)
    (hf : ∀ c, c ∉ (l : Multiset ℤ) + own → c ≠ SUPERI → gs.disk c = v.fs.disk c) :
    Outside v l own gs :=
  ⟨hv.isize, hv.fsize, hf, by rw [hv.ninode, hv.inode]; exact h.cache⟩

section Put

variable {ip : Inode} {d : Dinode}

lemma slotOf_put (hj : Holds v j ino) (hino : ip.i_ino = ino) (hdev : ip.i_dev = v.dev) (k : ℕ) :
    slotOf (put v gs j ip d) k = slotOf v k := by
  refine slotOf_congr (rfl : (put v gs j ip d).NINODE = v.NINODE) rfl fun i => ?_
  by_cases hi : i = j
  · subst hi
    simp [put, hino, hdev, hj.2.1, hj.2.2]
  · simp [put, Function.update_of_ne hi]

lemma holds_put (hj : Holds v j ino) (hino : ip.i_ino = ino) (hdev : ip.i_dev = v.dev) (i k : ℕ) :
    Holds (put v gs j ip d) i k ↔ Holds v i k := by
  by_cases hi : i = j
  · subst hi
    simp [Holds, put, hino, hdev, hj.2.1, hj.2.2]
  · simp [Holds, put, Function.update_of_ne hi]

lemma owns_put_self (h : Owned v l) (h0 : ino ≠ 0) (hj : Holds v j ino) (hino : ip.i_ino = ino)
    (hdev : ip.i_dev = v.dev) :
    owns (put v gs j ip d) ino = roots gs.disk (naddr ip.i_mode) ip.i_addr := by
  rw [owns, current, slotOf_put hj hino hdev, h.slotOf_eq h0 hj]
  simp [put]

lemma owns_put_of_ne (h : Owned v l) (h0 : ino ≠ 0) (hj : Holds v j ino) (hino : ip.i_ino = ino)
    (hdev : ip.i_dev = v.dev) (ho : Outside v l (owns v ino) gs) {k : ℕ}
    (hk : k ∈ Finset.Icc 1 (ninodes v.fs)) (hne : k ≠ ino) :
    owns (put v gs j ip d) k = owns v k := by
  have hcur : current (put v gs j ip d) k = current v k := by
    rw [current, current, slotOf_put hj hino hdev]
    cases hs : slotOf v k with
    | none => simp [put, hino, Function.update_of_ne hne]
    | some i =>
      have hi : i ≠ j := by
        rintro rfl
        exact hne ((slotOf_some hs).2.1.symm.trans hj.2.1)
      simp [put, Function.update_of_ne hi]
  rw [owns, owns, hcur]
  refine roots_congr fun c hc => ?_
  obtain ⟨h1, h2⟩ := h.other (h.mem_icc h0 hj) hk hne hc
  exact ho.frame c h1 h2

/-- An operation on one inode: what it frees or takes is between the free list and the inode. -/
lemma Owned.put (ip : Inode) (d : Dinode) (h : Owned v l) (h0 : ino ≠ 0) (hj : Holds v j ino) (hL : Live gs l')
    (ho : Outside v l (owns v ino) gs) (hino : ip.i_ino = ino) (hdev : ip.i_dev = v.dev)
    (hheld : (l' : Multiset ℤ) + roots gs.disk (naddr ip.i_mode) ip.i_addr = l + owns v ino)
    (hs : SlotOk ip d) (hd : d.di_mode &&& IFMT = IFPIPE → DpipeOk d) :
    Owned (put v gs j ip d) l' where
  live := hL
  part := by
    have hm := h.mem_icc h0 hj
    have hrest : ∑ k ∈ (Finset.Icc 1 (ninodes v.fs)).erase ino, owns (Itable.put v gs j ip d) k =
        ∑ k ∈ (Finset.Icc 1 (ninodes v.fs)).erase ino, owns v k := by
      refine Finset.sum_congr rfl fun k hk => ?_
      obtain ⟨hne, hk⟩ := Finset.mem_erase.mp hk
      exact owns_put_of_ne h h0 hj hino hdev ho hk hne
    have hn : ninodes (Itable.put v gs j ip d).fs = ninodes v.fs := ho.ninodes
    rw [Partition, hn, ← Finset.add_sum_erase _ _ hm, hrest, owns_put_self h h0 hj hino hdev,
      ← add_assoc, hheld, h.split hm]
    change _ = (Finset.Ico (gs.m_super.s_isize : ℤ) gs.m_super.s_fsize).val
    rw [ho.isize, ho.fsize]
  small := by
    change gs.m_super.s_fsize ≤ _
    rw [ho.fsize]
    exact h.small
  inodes := by
    change ninodes gs < _
    rw [ho.ninodes]
    exact h.inodes
  uniq i i' k hk hi hi' := by
    rw [holds_put hj hino hdev] at hi hi'
    exact h.uniq i i' k hk hi hi'
  used i k hi hr := by
    rw [holds_put hj hino hdev] at hi
    by_cases hij : i = j
    · subst hij
      rw [← hi.2.1, hj.2.1]
      exact h0
    · simp only [Itable.put, Function.update_of_ne hij] at hr
      exact h.used i k hi hr
  range i k hk hi := by
    rw [holds_put hj hino hdev] at hi
    change k ≤ ninodes gs
    rw [ho.ninodes]
    exact h.range i k hk hi
  slot i k hk hi := by
    rw [holds_put hj hino hdev] at hi
    by_cases hij : i = j
    · subst hij
      have hki : k = ino := hi.2.1.symm.trans hj.2.1
      simpa [Itable.put, hino, hki] using hs
    · have hki : k ≠ ino := by
        rintro rfl
        exact hij (h.uniq i j k hk hi hj)
      simpa [Itable.put, hino, Function.update_of_ne hij, Function.update_of_ne hki]
        using h.slot i k hk hi
  dpipe k hk := by
    by_cases hki : k = ino
    · simp only [Itable.put, hino, hki, Function.update_self] at hk ⊢
      exact hd hk
    · simp only [Itable.put, hino, Function.update_of_ne hki] at hk ⊢
      exact h.dpipe k hk
  cache := by
    change ∀ i < gs.m_super.s_ninode, gs.m_super.s_inode i ≠ 0 ∧ gs.m_super.s_inode i ≤ ninodes gs
    rw [ho.ninodes]
    exact ho.cache

end Put

/-! ### Giving a slot to another inode -/

/-- What comes into a free slot: an inode of another device, or one as it is on the disk. -/
structure Incoming (v : Vol) (ip : Inode) : Prop where
  range : ip.i_ino ≤ ninodes v.fs
  absent : slotOf v ip.i_ino = none
  agrees : Agrees ip (v.dinode ip.i_ino)
  slot : SlotOk ip (v.dinode ip.i_ino)

lemma Agrees.roots {ip : Inode} {d : Dinode} (h : Agrees ip d) (disk : ℤ → Block) :
    roots disk (naddr d.di_mode) d.di_addr = roots disk (naddr ip.i_mode) ip.i_addr := by
  rw [h.mode]
  exact roots_addr h.addr

section Replace

variable {ip : Inode}

lemma holds_setInode_of_ne {i k : ℕ} (hi : i ≠ j) : Holds (setInode v j ip) i k ↔ Holds v i k := by
  simp [Holds, setInode, Function.update_of_ne hi]

lemma holds_setInode_self {k : ℕ} :
    Holds (setInode v j ip) j k ↔ j < v.NINODE ∧ ip.i_ino = k ∧ ip.i_dev = v.dev := by
  simp [Holds, setInode]

/-- Nobody's blocks change when a free slot is given away. -/
lemma owns_replace (h : Owned v l)
    (hfree : ∀ k, k ≠ 0 → Holds v j k → (v.inodep j).i_refc = 0)
    (hnew : ip.i_dev = v.dev → ip.i_ino ≠ 0 ∧ Incoming v ip) {k : ℕ} (hk : k ≠ 0) :
    owns (setInode v j ip) k = owns v k := by
  have hcur : ∀ i, slotOf (setInode v j ip) k = some i → current (setInode v j ip) k =
      (((setInode v j ip).inodep i).i_mode, ((setInode v j ip).inodep i).i_addr) := by
    intro i hi
    rw [current, hi]
  have hnone : slotOf (setInode v j ip) k = none → current (setInode v j ip) k =
      ((v.dinode k).di_mode, (v.dinode k).di_addr) := by
    intro hi
    rw [current, hi]
    rfl
  by_cases hin : Holds (setInode v j ip) j k
  · -- the inode that comes in
    obtain ⟨hlt, rfl, hdev⟩ := holds_setInode_self.mp hin
    have hI := (hnew hdev).2
    have hs : slotOf (setInode v j ip) ip.i_ino = some j := by
      refine slotOf_of_uniq hin fun i hi => ?_
      by_contra hne
      exact slotOf_none hI.absent i ((holds_setInode_of_ne hne).mp hi)
    rw [owns, owns, hcur j hs, current, hI.absent]
    simp only [setInode, Function.update_self]
    exact (hI.agrees.roots _).symm
  · cases hs : slotOf v k with
    | none =>
      have hs' : slotOf (setInode v j ip) k = none := by
        refine slotOf_eq_none fun i hi => ?_
        by_cases hij : i = j
        · subst hij; exact hin hi
        · exact slotOf_none hs i ((holds_setInode_of_ne hij).mp hi)
      rw [owns, owns, hnone hs', current, hs]
      rfl
    | some i =>
      have hi := slotOf_some hs
      by_cases hij : i = j
      · -- the inode that is dropped is on the disk as it was
        subst hij
        have hok := h.slot i k hk hi
        have hag := hok.clean (hok.idle (hfree k hk hi))
        have hs' : slotOf (setInode v i ip) k = none := by
          refine slotOf_eq_none fun i' hi' => ?_
          by_cases hii : i' = i
          · subst hii; exact hin hi'
          · exact hii (h.uniq i' i k hk ((holds_setInode_of_ne hii).mp hi') hi)
        rw [owns, owns, hnone hs', current, hs]
        exact hag.roots _
      · have hs' : slotOf (setInode v j ip) k = some i := by
          refine slotOf_of_uniq ((holds_setInode_of_ne hij).mpr hi) fun i' hi' => ?_
          by_cases hii : i' = j
          · subst hii; exact absurd hi' hin
          · exact h.uniq i' i k hk ((holds_setInode_of_ne hii).mp hi') hi
        rw [owns, owns, hcur i hs', current, hs]
        simp [setInode, Function.update_of_ne hij]

lemma Owned.replace (h : Owned v l)
    (hfree : ∀ k, k ≠ 0 → Holds v j k → (v.inodep j).i_refc = 0)
    (hnew : ip.i_dev = v.dev → ip.i_ino ≠ 0 ∧ Incoming v ip) : Owned (setInode v j ip) l where
  live := h.live
  part := by
    have hsum : ∑ k ∈ Finset.Icc 1 (ninodes v.fs), owns (setInode v j ip) k =
        ∑ k ∈ Finset.Icc 1 (ninodes v.fs), owns v k := by
      refine Finset.sum_congr rfl fun k hk => owns_replace h hfree hnew ?_
      have := (Finset.mem_Icc.mp hk).1
      omega
    have hp := h.part
    rw [Partition, ← hsum] at hp
    exact hp
  small := h.small
  inodes := h.inodes
  uniq i i' k hk hi hi' := by
    have key : ∀ i, i ≠ j → Holds (setInode v j ip) i k → ¬ Holds (setInode v j ip) j k := by
      intro i hij hi hin
      obtain ⟨-, rfl, hdev⟩ := holds_setInode_self.mp hin
      exact slotOf_none (hnew hdev).2.absent i ((holds_setInode_of_ne hij).mp hi)
    by_cases hij : i = j <;> by_cases hij' : i' = j
    · rw [hij, hij']
    · subst hij; exact absurd hi (key i' hij' hi')
    · subst hij'; exact absurd hi' (key i hij hi)
    · exact h.uniq i i' k hk ((holds_setInode_of_ne hij).mp hi) ((holds_setInode_of_ne hij').mp hi')
  used i k hi hr := by
    by_cases hij : i = j
    · subst hij
      obtain ⟨-, rfl, hdev⟩ := holds_setInode_self.mp hi
      exact (hnew hdev).1
    · simp only [setInode, Function.update_of_ne hij] at hr
      exact h.used i k ((holds_setInode_of_ne hij).mp hi) hr
  range i k hk hi := by
    by_cases hij : i = j
    · subst hij
      obtain ⟨-, rfl, hdev⟩ := holds_setInode_self.mp hi
      exact (hnew hdev).2.range
    · exact h.range i k hk ((holds_setInode_of_ne hij).mp hi)
  slot i k hk hi := by
    by_cases hij : i = j
    · subst hij
      obtain ⟨-, rfl, hdev⟩ := holds_setInode_self.mp hi
      simpa [setInode] using (hnew hdev).2.slot
    · simpa [setInode, Function.update_of_ne hij] using
        h.slot i k hk ((holds_setInode_of_ne hij).mp hi)
  dpipe := h.dpipe
  cache := h.cache

end Replace

/-- A change of the super block, in core and on the disk, that leaves the list of free blocks. -/
lemma Owned.super (h : Owned v l) (hL : Live gs l) (ho : Outside v [] 0 gs) :
    Owned { v with fs := gs } l := by
  have hn : ninodes gs = ninodes v.fs := ho.ninodes
  have hown : ∀ k ∈ Finset.Icc 1 (ninodes v.fs), owns { v with fs := gs } k = owns v k := by
    intro k hk
    refine roots_congr fun c hc => ho.frame c (by simp) ?_
    have hin : c ∈ Finset.Ico (v.fs.m_super.s_isize : ℤ) v.fs.m_super.s_fsize := by
      rw [← Finset.mem_val, ← h.split hk]
      exact Multiset.mem_add.mpr (Or.inl (Multiset.mem_add.mpr (Or.inr hc)))
    have h2 := h.live.wf.isize
    have := (Finset.mem_Ico.mp hin).1
    unfold SUPERI
    omega
  refine ⟨hL, ?_, ?_, ?_, h.uniq, h.used, ?_, h.slot, h.dpipe, ?_⟩
  · have hp := h.part
    rw [Partition, ← Finset.sum_congr rfl hown] at hp
    change (l : Multiset ℤ) + ∑ k ∈ Finset.Icc 1 (ninodes gs), owns { v with fs := gs } k =
      (Finset.Ico (gs.m_super.s_isize : ℤ) gs.m_super.s_fsize).val
    rw [hn, ho.isize, ho.fsize, hp]
  · change gs.m_super.s_fsize ≤ _
    rw [ho.fsize]
    exact h.small
  · change ninodes gs < _
    rw [hn]
    exact h.inodes
  · change ∀ j ino, ino ≠ 0 → Holds v j ino → ino ≤ ninodes gs
    rw [hn]
    exact h.range
  · change ∀ i < gs.m_super.s_ninode, gs.m_super.s_inode i ≠ 0 ∧ gs.m_super.s_inode i ≤ ninodes gs
    rw [hn]
    exact ho.cache

end Coherent.Itable
