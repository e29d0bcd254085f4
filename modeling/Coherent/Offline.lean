import Coherent.FileRun
import Coherent.Rebuild

/-!
The offline rebuilding of the free list against the kernel: which blocks it takes for free, and
which blocks `iclear` frees with a file.

The tool walks the blocks of an inode up to the size of the file, the kernel frees all that the
addresses lead to.
-/

namespace Coherent.Offline

open Coherent.Can Coherent.Super Coherent.FileMap Coherent.Itable Coherent.FileIo Coherent.Lib
open Coherent.DiskPy (CoherentFS Visit FsckReport BLOCK NDIRECT INDIRECT_COUNT
  INODES_PER_BLOCK SB_ISIZE SB_FSIZE read_block read_sb read32 u16 read32_lt read32_eq stat walked
  span walk_indirect_blocks walk_inode_blocks used check_blocks check_blocks_ok
  rebuild_free_list rebuild_built Built unused_range long_natCast)

/-- The blocks of a partition, by the kernel's numbers. What is outside the image holds nothing. -/
def volume (fs : CoherentFS) (b : ℤ) : Block :=
  if b < 0 then zeroBlock else read_block fs (fs.part_off + b.toNat)

/-- The first block of a file below address `i`. -/
def first (i : ℕ) : ℕ := if i < ND then i else ND + ∑ k ∈ Finset.range (i - ND), NBN ^ (k + 1)

/-- How many blocks the size of a file takes. -/
def needed (inode : DiskPy.Inode) : ℕ := (inode.size + BLOCK - 1) / BLOCK

/-- The addresses, as the kernel has them in core. -/
def i_addr (inode : DiskPy.Inode) (j : ℕ) : ℤ := inode.addrs j

/-- The blocks in the address tree of a regular file or a directory, which `iclear` frees. -/
def clears (fs : CoherentFS) (ino : ℕ) : Multiset ℤ :=
  match stat fs ino with
  | none => 0
  | some inode => if walked inode then roots (volume fs) NADDR (i_addr inode) else 0

/-- Of those, the ones that the blocks up to the size are in or below. -/
def within (fs : CoherentFS) (ino : ℕ) : Multiset ℤ :=
  match stat fs ino with
  | none => 0
  | some inode =>
    if walked inode then ∑ i ∈ Finset.range NADDR,
      Radix.front NBN (ents (volume fs)) (level i) (i_addr inode i) (needed inode - first i)
    else 0

/-! ### What the walk visits -/

variable {fs : CoherentFS} {need : ℕ}

lemma long_eq_zero {n : ℕ} (h : n < 4294967296) : long n = 0 ↔ n = 0 := by
  unfold long
  split <;> omega

/-- The kernel's numbers of the blocks visited. -/
def rels (vs : List Visit) : Multiset ℤ := (vs.map fun v => long v.rel : List ℤ)

lemma rels_snoc (vs : List Visit) (v : Visit) : rels (vs ++ [v]) = rels vs + {long v.rel} := by
  simp [rels, ← Multiset.coe_add]

/-- All blocks visited have been read from four bytes, or from three. -/
def Bounded (vs : List Visit) : Prop := ∀ v ∈ vs, v.rel < 4294967296

lemma Bounded.snoc {vs : List Visit} {v : Visit} (h : Bounded vs) (hv : v.rel < 4294967296) :
    Bounded (vs ++ [v]) := by
  intro w hw
  rcases List.mem_append.mp hw with hw | hw
  · exact h w hw
  · rwa [List.mem_singleton.mp hw]

lemma mem_rels {vs : List Visit} (h : Bounded vs) {b : ℕ} (hb : b < 2147483648) :
    (b : ℤ) ∈ rels vs ↔ b ∈ vs.map Visit.rel := by
  rw [rels, Multiset.mem_coe, List.mem_map, List.mem_map]
  refine exists_congr fun v => and_congr_right fun hv => ?_
  have := h v hv
  unfold long
  split <;> omega

lemma ents_volume {b : ℕ} (hb : b < 2147483648) (i : ℕ) :
    ents (volume fs) (long b) i = long (read32 (read_block fs (fs.part_off + b)) (i * 4)) := by
  have h0 : ¬ (b : ℤ) < 0 := by omega
  rw [long_natCast hb, ents, dentry, read32_eq, volume, if_neg h0, Int.toNat_natCast, mul_comm]

lemma ents_outside {b : ℕ} (hb : b < 4294967296)
    (h : (fs.part_off + b + 1) * BLOCK > fs.len) (i : ℕ) :
    ents (volume fs) (long b) i = 0 := by
  have hz : volume fs (long b) = zeroBlock := by
    rw [volume]
    split
    · rfl
    next hneg =>
      have hlt : b < 2147483648 := by
        unfold long at hneg
        split at hneg <;> omega
      funext j
      rw [long_natCast hlt, Int.toNat_natCast, read_block, if_pos]
      · rfl
      · unfold BLOCK at h ⊢
        omega
  rw [ents, hz, dentry_zeroBlock]

/-- What is done with an entry of an indirect block whose entries lead to trees of depth `d`. -/
def visitEntry (fs : CoherentFS) (need d entry : ℕ) (s : List Visit × ℕ) : List Visit × ℕ :=
  if d = 0 then ((if entry ≠ 0 then s.1 ++ [⟨entry, false⟩] else s.1), s.2 + 1)
  else walk_indirect_blocks fs need d entry s

/-- The walk of a tree of depth `d` visits the front of the tree, up to `need`. -/
def Visits (fs : CoherentFS) (need d : ℕ) : Prop :=
  ∀ entry < 4294967296, ∀ s : List Visit × ℕ, Bounded s.1 → s.2 < need →
    Bounded (visitEntry fs need d entry s).1 ∧
      (visitEntry fs need d entry s).2 = min need (s.2 + NBN ^ d) ∧
      rels (visitEntry fs need d entry s).1 =
        rels s.1 + Radix.front NBN (ents (volume fs)) d (long entry) (need - s.2)

lemma Visits.zero (fs : CoherentFS) (need : ℕ) : Visits fs need 0 := by
  intro entry hentry s hB hs
  have hk : need - s.2 ≠ 0 := by omega
  rw [visitEntry, if_pos rfl, pow_zero]
  by_cases h0 : entry = 0
  · subst h0
    refine ⟨by simpa using hB, by omega, ?_⟩
    simp [long]
  · rw [if_pos h0]
    refine ⟨hB.snoc hentry, by omega, ?_⟩
    rw [rels_snoc, Radix.front, if_neg]
    rw [long_eq_zero hentry]
    exact not_or.mpr ⟨h0, hk⟩

/-- The loop over the first `m` entries of an indirect block. -/
lemma visits_loop {d : ℕ} (hd : Visits fs need d) {e : ℕ → ℕ} (he : ∀ i, e i < 4294967296)
    (s : List Visit × ℕ) (hB : Bounded s.1) (hs : s.2 ≤ need) (m : ℕ) :
    let t := (List.range m).foldl
      (fun s i => if s.2 < need then visitEntry fs need d (e i) s else s) s
    Bounded t.1 ∧ t.2 = min need (s.2 + m * NBN ^ d) ∧ rels t.1 = rels s.1 + ∑ i ∈ Finset.range m,
      Radix.front NBN (ents (volume fs)) d (long (e i)) (need - s.2 - i * NBN ^ d) := by
  induction m with
  | zero => exact ⟨hB, by simp [hs], by simp⟩
  | succ m ih =>
    simp only [List.range_succ, List.foldl_append, List.foldl_cons, List.foldl_nil] at ih ⊢
    generalize (List.range m).foldl _ s = t at ih ⊢
    obtain ⟨hBt, h1, h2⟩ := ih
    rw [Finset.sum_range_succ, ← add_assoc, ← h2, Nat.succ_mul]
    split
    · -- the front of the next tree begins where the last one has ended
      next hlt =>
      obtain ⟨hB', h3, h4⟩ := hd (e m) (he m) t hBt hlt
      have ht : t.2 = s.2 + m * NBN ^ d := by omega
      refine ⟨hB', by rw [h3, ht, add_assoc], ?_⟩
      rw [h4, ht, Nat.sub_add_eq]
    · next hge =>
      have hz : need - s.2 - m * NBN ^ d = 0 := by omega
      rw [hz, Radix.front_none, add_zero]
      exact ⟨hBt, by omega, rfl⟩

lemma walk_succ (d bno : ℕ) (s : List Visit × ℕ) :
    walk_indirect_blocks fs need (d + 1) bno s =
      if s.2 ≥ need then s
      else if bno = 0 then (s.1, min need (s.2 + NBN ^ (d + 1)))
      else if (fs.part_off + bno + 1) * BLOCK > fs.len then
        (s.1 ++ [⟨bno, true⟩], min need (s.2 + NBN ^ (d + 1)))
      else (List.range NBN).foldl (fun s i => if s.2 < need then visitEntry fs need d
        (read32 (read_block fs (fs.part_off + bno)) (i * 4)) s else s)
        (s.1 ++ [⟨bno, true⟩], s.2) := rfl

lemma Visits.succ {d : ℕ} (hlen : fs.len ≤ 2147483648 * BLOCK) (hd : Visits fs need d) :
    Visits fs need (d + 1) := by
  intro entry hentry s hB hs
  have hk : need - s.2 ≠ 0 := by omega
  rw [visitEntry, if_neg (Nat.succ_ne_zero d), walk_succ, if_neg (by omega)]
  by_cases h0 : entry = 0
  · subst h0
    exact ⟨by simpa using hB, by simp, by simp [long]⟩
  have hl0 : long entry ≠ 0 := mt (long_eq_zero hentry).mp h0
  rw [if_neg h0, Radix.front_succ hl0 hk]
  by_cases hout : (fs.part_off + entry + 1) * BLOCK > fs.len
  · -- not looked into, and nothing is there
    rw [if_pos hout]
    refine ⟨hB.snoc hentry, rfl, ?_⟩
    have hsum : ∑ i ∈ Finset.range NBN, Radix.front NBN (ents (volume fs)) d
        (ents (volume fs) (long entry) i) (need - s.2 - i * NBN ^ d) = 0 :=
      Finset.sum_eq_zero fun i _ => by rw [ents_outside hentry hout, Radix.front_zero]
    rw [rels_snoc, hsum, Multiset.cons_zero]
  · rw [if_neg hout]
    have hlt : entry < 2147483648 := by
      unfold BLOCK at hlen hout
      omega
    obtain ⟨hB', h1, h2⟩ := visits_loop hd
      (fun i => read32_lt (read_block fs (fs.part_off + entry)) (i * 4))
      (s.1 ++ [⟨entry, true⟩], s.2) (hB.snoc hentry) hs.le NBN
    refine ⟨hB', by rw [h1, pow_succ'], ?_⟩
    have hsum : ∑ i ∈ Finset.range NBN, Radix.front NBN (ents (volume fs)) d
        (ents (volume fs) (long entry) i) (need - s.2 - i * NBN ^ d) =
        ∑ i ∈ Finset.range NBN, Radix.front NBN (ents (volume fs)) d
          (long (read32 (read_block fs (fs.part_off + entry)) (i * 4)))
          (need - s.2 - i * NBN ^ d) :=
      Finset.sum_congr rfl fun i _ => by rw [ents_volume hlt]
    rw [h2, rels_snoc, add_assoc, Multiset.singleton_add, hsum]

lemma visits (hlen : fs.len ≤ 2147483648 * BLOCK) (d : ℕ) : Visits fs need d := by
  induction d with
  | zero => exact .zero fs need
  | succ d ih => exact .succ hlen ih

/-- The walk of the tree of an address, of depth one at least. -/
lemma walk_spec (hlen : fs.len ≤ 2147483648 * BLOCK) (d bno : ℕ) (hb : bno < 4294967296)
    {s : List Visit × ℕ} {f : ℕ} (hB : Bounded s.1) (hs : s.2 = min need f) :
    Bounded (walk_indirect_blocks fs need (d + 1) bno s).1 ∧
      (walk_indirect_blocks fs need (d + 1) bno s).2 = min need (f + NBN ^ (d + 1)) ∧
      rels (walk_indirect_blocks fs need (d + 1) bno s).1 =
        rels s.1 + Radix.front NBN (ents (volume fs)) (d + 1) (long bno) (need - f) := by
  by_cases hlt : f < need
  · have hf : s.2 = f := by omega
    have hs' : s.2 < need := by omega
    have h := visits hlen (d + 1) bno hb s hB hs'
    rw [visitEntry, if_neg (Nat.succ_ne_zero d), hf] at h
    exact h
  · have hz : need - f = 0 := by omega
    rw [walk_succ, if_pos (by omega), hz, Radix.front_none, add_zero]
    exact ⟨hB, by omega, rfl⟩

/-- The loop over the direct addresses. -/
lemma visits_direct (fs : CoherentFS) (need : ℕ) {inode : DiskPy.Inode}
    (ha : ∀ j, inode.addrs j < 2147483648) {m : ℕ}
    (hm : m ≤ ND) :
    let t := (List.range m).foldl (fun (s : List Visit × ℕ) i =>
      if s.2 ≥ need then s
      else ((if inode.addrs i ≠ 0 then s.1 ++ [⟨inode.addrs i, false⟩] else s.1), s.2 + 1)) ([], 0)
    Bounded t.1 ∧ t.2 = min need m ∧ rels t.1 = ∑ i ∈ Finset.range m,
      Radix.front NBN (ents (volume fs)) (level i) (i_addr inode i) (need - first i) := by
  induction m with
  | zero => simp [rels, Bounded]
  | succ m ih =>
    simp only [List.range_succ, List.foldl_append, List.foldl_cons, List.foldl_nil] at ih ⊢
    obtain ⟨hB, h1, h2⟩ := ih (by omega)
    generalize (List.range m).foldl _ ([], 0) = t at hB h1 h2 ⊢
    have hf : first m = m := if_pos hm
    have hl : level m = 0 := if_pos hm
    have hi : i_addr inode m = long (inode.addrs m) := (long_natCast (ha m)).symm
    rw [Finset.sum_range_succ, ← h2, hf, hl, hi]
    split
    · next hge =>
      have hz : need - m = 0 := by omega
      rw [hz, Radix.front_none, add_zero]
      exact ⟨hB, by omega, rfl⟩
    · next hlt =>
      have ht : t.2 = m := by omega
      have hlt' : t.2 < need := by omega
      have h := Visits.zero fs need (inode.addrs m) (by have := ha m; omega) t hB hlt'
      rw [visitEntry, if_pos rfl, ht] at h
      rw [ht]
      exact ⟨h.1, by omega, h.2.2⟩

/-- The walk visits the fronts of the trees of the addresses. -/
lemma rels_walk (hlen : fs.len ≤ 2147483648 * BLOCK) {inode : DiskPy.Inode}
    (ha : ∀ j, inode.addrs j < 2147483648) :
    Bounded (walk_inode_blocks fs inode) ∧
      rels (walk_inode_blocks fs inode) = ∑ i ∈ Finset.range NADDR,
      Radix.front NBN (ents (volume fs)) (level i) (i_addr inode i)
        (needed inode - first i) := by
  have hd := visits_direct fs (needed inode) ha (le_refl ND)
  have h1 := walk_spec hlen 0 (inode.addrs 10) (by have := ha 10; omega) hd.1 hd.2.1
  have h2 := walk_spec hlen 1 (inode.addrs 11) (by have := ha 11; omega) h1.1 h1.2.1
  have h3 := walk_spec hlen 2 (inode.addrs 12) (by have := ha 12; omega) h2.1 h2.2.1
  have h := h3.2.2
  rw [h2.2.2, h1.2.2, hd.2.2, long_natCast (ha 10), long_natCast (ha 11), long_natCast (ha 12)] at h
  have hN : NADDR = ND + 1 + 1 + 1 := rfl
  rw [hN, Finset.sum_range_succ, Finset.sum_range_succ, Finset.sum_range_succ]
  exact ⟨h3.1, h⟩

lemma stat_addrs {ino : ℕ} {inode : DiskPy.Inode} (h : stat fs ino = some inode) (j : ℕ) :
    inode.addrs j < 2147483648 := by
  rw [stat] at h
  dsimp only at h
  split_ifs at h
  obtain rfl := Option.some.inj h
  have h1 := (read_block fs (fs.part_off + 2 + (ino - 1) / INODES_PER_BLOCK)
    ((ino - 1) % INODES_PER_BLOCK * DiskPy.INODE_SIZE + 12 + j * 3)).toNat_lt
  have h2 := DiskPy.u16_lt (read_block fs (fs.part_off + 2 + (ino - 1) / INODES_PER_BLOCK))
    ((ino - 1) % INODES_PER_BLOCK * DiskPy.INODE_SIZE + 12 + j * 3 + 1)
  simp only [DiskPy.read_addr24]
  omega

/-- The inodes of the i-list. -/
def inodes (rep : FsckReport) : List ℕ := List.range' 1 ((rep.isize - 2) * INODES_PER_BLOCK)

/-- The rebuild marks the blocks of the volume that are within the size of some file. -/
lemma mem_used {rep : FsckReport} (hlen : fs.len ≤ 2147483648 * BLOCK) {b : ℕ}
    (hb : b < 2147483648) : b ∈ used fs rep ↔ (rep.isize ≤ b ∧ b < rep.fsize) ∧
      ∃ ino ∈ inodes rep, (b : ℤ) ∈ within fs ino := by
  rw [used, List.mem_flatMap, ← exists_and_left]
  refine exists_congr fun ino => ?_
  rw [and_left_comm]
  refine and_congr_right fun _ => ?_
  cases hst : stat fs ino with
  | none => simp [within, hst]
  | some inode =>
    by_cases hw : walked inode = true
    · obtain ⟨hB, hr⟩ := rels_walk hlen (stat_addrs hst)
      simp only [within, hst, hw, if_true, List.mem_filter, decide_eq_true_eq, ← hr,
        mem_rels hB hb]
      exact and_comm
    · simp [within, hst, hw]

lemma mem_unused {rep : FsckReport} (hlen : fs.len ≤ 2147483648 * BLOCK) {b : ℕ}
    (hb : b < 2147483648) : b ∈ DiskPy.unused fs rep ↔ (rep.isize ≤ b ∧ b < rep.fsize) ∧
      ∀ ino ∈ inodes rep, (b : ℤ) ∉ within fs ino := by
  rw [DiskPy.unused, List.mem_filter, decide_eq_true_eq, mem_used hlen hb, List.mem_range'_1]
  push Not
  refine ⟨fun ⟨h1, h2⟩ => ⟨by omega, h2 (by omega)⟩, fun ⟨h1, h2⟩ => ⟨by omega, fun _ => h2⟩⟩

/-- Every block of the data area that `iclear` frees with a file is one that the blocks up to the
size of some file are in or below. -/
def Reached (fs : CoherentFS) (rep : FsckReport) : Prop :=
  ∀ ino ∈ inodes rep, ∀ b ∈ clears fs ino, (rep.isize : ℤ) ≤ b → b < rep.fsize →
    ∃ ino' ∈ inodes rep, b ∈ within fs ino'

lemma unused_clears {rep : FsckReport} (hheld : (fs.part_off + rep.fsize) * BLOCK ≤ fs.len)
    (hlen : fs.len ≤ 2147483648 * BLOCK) :
    (∀ b ∈ DiskPy.unused fs rep, ∀ ino ∈ inodes rep, (b : ℤ) ∉ clears fs ino) ↔
      Reached fs rep := by
  have hsmall : rep.fsize ≤ 2147483648 := by
    have := hheld.trans hlen
    unfold BLOCK at this
    omega
  refine ⟨fun h ino hino b hb h0 h1 => ?_, fun h b hb ino hino hc => ?_⟩
  · by_contra hno
    push Not at hno
    obtain ⟨n, rfl⟩ : ∃ n : ℕ, b = n := ⟨b.toNat, by omega⟩
    have hun : n ∈ DiskPy.unused fs rep := (mem_unused hlen (by omega)).mpr ⟨by omega, hno⟩
    exact h n hun ino hino hb
  · have hr := unused_range hb
    obtain ⟨ino', hino', hw⟩ := h ino hino b hc (by omega) (by omega)
    exact ((mem_unused hlen (by omega)).mp hb).2 ino' hino' hw

/-- **The rebuilt free list has a block that the kernel frees with a file exactly when some block
of the data area is in the tree of a file, and in no tree up to the size.** For an accepted super
block, in an image that holds the partition and has no more blocks than the kernel can number. -/
theorem rebuild_frees_live_iff {rep : FsckReport} (time : ℕ → ℕ) (hck : check_blocks fs = .ok rep)
    (hheld : (fs.part_off + rep.fsize) * BLOCK ≤ fs.len) (hlen : fs.len ≤ 2147483648 * BLOCK) :
    ∃ gs us, rebuild_free_list time fs = .ok (rep, gs) ∧ Built fs gs us ∧
      ((∀ b ∈ us, ∀ ino ∈ inodes rep, (b : ℤ) ∉ clears fs ino) ↔ Reached fs rep) := by
  obtain ⟨gs, he, hB⟩ := rebuild_built time hck hheld
  exact ⟨gs, DiskPy.unused fs rep, he, hB, unused_clears hheld hlen⟩

/-! ### The image that the kernel leaves -/

/-- The image is what the volume leaves on the disk when all inodes have been written back. -/
structure LeftBy (v : Vol) (img : CoherentFS) : Prop where
  clean : ∀ j ino, Holds v j ino → modified (v.inodep j) = false
  isize : u16 (read_sb img) SB_ISIZE = v.fs.m_super.s_isize
  fsize : (read32 (read_sb img) SB_FSIZE : ℤ) = v.fs.m_super.s_fsize
  block : ∀ b : ℕ, v.fs.m_super.s_isize ≤ b → (b : ℤ) < v.fs.m_super.s_fsize → ∀ i < BLOCK,
    read_block img (img.part_off + b) i = v.fs.disk b i
  free : ∀ ino, 1 ≤ ino → ino ≤ ninodes v.fs → (v.dinode ino).di_mode = 0 → stat img ino = none
  inode : ∀ ino, 1 ≤ ino → ino ≤ ninodes v.fs → (v.dinode ino).di_mode ≠ 0 →
    ∃ inode, stat img ino = some inode ∧ inode.mode = (v.dinode ino).di_mode ∧
      (naddr inode.mode = NADDR → inode.size = (v.dinode ino).di_size ∧
        ∀ j < NADDR, i_addr inode j = (v.dinode ino).di_addr j)

section Left

variable {v : Vol} {l : List ℤ} {img : CoherentFS} {rep : FsckReport} {ino : ℕ}

end Left

/-! ### A write that fails -/

/-- A volume of eight blocks. Inode 3 is a file of three blocks, its fourth address is `n`; inode 4
is a device. -/
def fileImage (n : UInt8) : CoherentFS where
  image i := if i = 512 then 3 else if i = 516 then 8 else
    if i = 1153 then 0x80 else if i = 1154 then 1 else if i = 1163 then 6 else
    if i = 1165 then 3 else if i = 1168 then 4 else if i = 1171 then 7 else if i = 1174 then n else
    if i = 1217 then 0x20 else if i = 1218 then 1 else if i = 1228 then 5 else 0
  len := 4096
  part_off := 0

def fileReport : FsckReport := ⟨3, 8, 2, 6, 3, 2, [], []⟩

/-- Without a fourth block nothing is left to go wrong. -/
theorem fileImage_zero_safe : ∃ gs us,
    rebuild_free_list (fun _ => 0) (fileImage 0) = .ok (fileReport, gs) ∧
      Built (fileImage 0) gs us ∧
      ∀ b ∈ us, ∀ ino ∈ inodes fileReport, (b : ℤ) ∉ clears (fileImage 0) ino := by
  have hck : check_blocks (fileImage 0) = .ok fileReport := by decide +kernel
  obtain ⟨gs, us, he, hB, h⟩ := rebuild_frees_live_iff (fun _ => 0) hck (by decide) (by decide)
  refine ⟨gs, us, he, hB, h.mpr ?_⟩
  unfold Reached
  decide +kernel

/-- The file is opened, a byte is written behind its end from an address that faults, and the
inodes are written back. -/
def faultOps : List Op := [.iattach 3, .iwrite 0 ⟨1536, [1], 0⟩, .isync]

def faultVol : Vol := faultOps.foldl exec smallVol

lemma faultVol_run : Run FreshStep smallVol faultOps faultVol ∧
    ∀ b ∈ List.range' 3 5, ∀ i < BLOCK, faultVol.fs.disk (b : ℕ) i = 0 :=
  ⟨.cons ⟨⟨⟨by decide, by decide⟩, rfl⟩, trivial⟩
    (.cons ⟨⟨inUse_of_decide (by decide +kernel), rfl⟩, trivial⟩
      (.cons ⟨⟨trivial, rfl⟩, trivial⟩ (.nil _))), by decide +kernel⟩

lemma fileImage_block (n : UInt8) {b i : ℕ} (hb : 3 ≤ b) : read_block (fileImage n) b i = 0 := by
  rw [read_block]
  split
  · rfl
  · split
    · simp only [fileImage, BLOCK]
      repeat rw [if_neg (by omega)]
    · rfl

lemma faultVol_left : LeftBy faultVol (fileImage 6) where
  clean j ino hj := by
    have hN : faultVol.NINODE = 1 := by decide +kernel
    have hlt := hj.1
    rw [hN] at hlt
    obtain rfl : j = 0 := by omega
    decide +kernel
  isize := by decide +kernel
  fsize := by decide +kernel
  block b h3 h8 i hi := by
    have hs : faultVol.fs.m_super.s_isize = 3 ∧ faultVol.fs.m_super.s_fsize = 8 := by
      decide +kernel
    rw [hs.1] at h3
    rw [hs.2] at h8
    have hb : b ∈ List.range' 3 5 := List.mem_range'_1.mpr ⟨h3, by omega⟩
    rw [faultVol_run.2 b hb i hi]
    exact fileImage_block 6 (by simpa [fileImage] using h3)
  free ino h1 h8 hm := by
    have hall : ∀ ino ∈ List.range' 1 (ninodes faultVol.fs), (faultVol.dinode ino).di_mode = 0 →
        (stat (fileImage 6) ino).isNone = true := by
      decide +kernel
    exact Option.isNone_iff_eq_none.mp (hall ino (List.mem_range'_1.mpr ⟨h1, by omega⟩) hm)
  inode ino h1 h8 hm := by
    have hall : ∀ ino ∈ List.range' 1 (ninodes faultVol.fs), (faultVol.dinode ino).di_mode ≠ 0 →
        ∃ inode ∈ stat (fileImage 6) ino, inode.mode = (faultVol.dinode ino).di_mode ∧
          (naddr inode.mode = NADDR → inode.size = (faultVol.dinode ino).di_size ∧
            ∀ j < NADDR, i_addr inode j = (faultVol.dinode ino).di_addr j) := by
      decide +kernel
    exact hall ino (List.mem_range'_1.mpr ⟨h1, by omega⟩) hm

/-- The fourth block, which the write had already got, is chained as free, although it is in the
tree of the file. -/
theorem fault_chains_live : ∃ gs us, Owned smallVol [6, 5] ∧
    Run FreshStep smallVol faultOps faultVol ∧ LeftBy faultVol (fileImage 6) ∧
    rebuild_free_list (fun _ => 0) (fileImage 6) = .ok (fileReport, gs) ∧
    Built (fileImage 6) gs us ∧ 6 ∈ us ∧ 6 ∈ owns faultVol 3 ∧ 6 ∈ clears (fileImage 6) 3 := by
  have hck : check_blocks (fileImage 6) = .ok fileReport := by decide +kernel
  obtain ⟨gs, he, hB⟩ := rebuild_built (fun _ => 0) hck (by decide)
  refine ⟨gs, DiskPy.unused (fileImage 6) fileReport, smallVol_owned, faultVol_run.1, faultVol_left,
    he, hB, ?_, ?_, ?_⟩ <;> decide +kernel

end Coherent.Offline
