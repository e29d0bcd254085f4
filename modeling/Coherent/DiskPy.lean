import Coherent.FreeList

/-!
The offline file system check of `tools/disk.py`: the walk over the inode table and the
rebuilding of the free list.

A `CoherentFS` is one partition inside an image. The codecs here are the tool's own; that
they read the kernel's canonical form is `u16_eq` and `read32_eq`.
-/

namespace Coherent.DiskPy

open Coherent.Can Coherent.Super

def BLOCK : ℕ := 512
def INODE_SIZE : ℕ := 64
def INODES_PER_BLOCK : ℕ := BLOCK / INODE_SIZE
def NDIRECT : ℕ := 10
def INDIRECT_COUNT : ℕ := BLOCK / 4

def SB_ISIZE : ℕ := 0
def SB_FSIZE : ℕ := 2
def SB_NFREE : ℕ := 6
def SB_FREE : ℕ := 8
def SB_NINODE : ℕ := 264
def SB_FLOCK : ℕ := 466
def SB_ILOCK : ℕ := 467
def SB_FMOD : ℕ := 468
def SB_TIME : ℕ := 470
def SB_TFREE : ℕ := 474
def SB_TINODE : ℕ := 478

def FBLK_NFREE : ℕ := 0
def FBLK_FREE : ℕ := 2

def S_IFREG : ℕ := 0x8000
def S_IFDIR : ℕ := 0x4000

/-- One file system inside an image of `len` bytes; `part_off` is in blocks. -/
structure CoherentFS where
  image : ℕ → UInt8
  len : ℕ
  part_off : ℕ

/-! ### Field codecs -/

/-- `struct.unpack_from("<H", buf, off)` -/
def u16 (buf : Block) (off : ℕ) : ℕ := (buf off).toNat + 256 * (buf (off + 1)).toNat

/-- `struct.pack_into("<H", buf, off, v)` -/
def pack16 (buf : Block) (off v : ℕ) : Block := fun i =>
  if i = off then UInt8.ofNat v else if i = off + 1 then UInt8.ofNat (v / 256) else buf i

/-- Reinterpret a uint16 as a signed int16. -/
def s16 (v : ℕ) : ℤ := if v > 0x7FFF then (v : ℤ) - 0x10000 else v

/-- 32-bit field stored middle-endian: high 16-bit word first. -/
def read32 (buf : Block) (off : ℕ) : ℕ := u16 buf off * 65536 + u16 buf (off + 2)

def write32 (buf : Block) (off v : ℕ) : Block :=
  pack16 (pack16 buf off (v / 65536 % 65536)) (off + 2) (v % 65536)

/-- 24-bit block address: high byte first, then a 16-bit word. -/
def read_addr24 (buf : Block) (off : ℕ) : ℕ := (buf off).toNat * 65536 + u16 buf (off + 1)

lemma u16_eq (p : Block) (o : ℕ) : canw (getw p o) = u16 p o := by
  have h1 := (p o).toNat_lt
  have h2 := (p (o + 1)).toNat_lt
  unfold canw getw u16; omega

lemma read32_eq (p : Block) (o : ℕ) : canl (getl p o) = read32 p o := by
  have h1 := getw_lt p (o + 2)
  have h2 : getl p o / 65536 = getw p o := by unfold getl; omega
  have h3 : getl p o % 65536 = getw p (o + 2) := by unfold getl; omega
  rw [canl, h2, ← canw_mod (getl p o), h3, u16_eq, u16_eq, read32]

lemma u16_lt (p : Block) (o : ℕ) : u16 p o < 65536 := by rw [← u16_eq]; exact canw_lt _

lemma read32_lt (p : Block) (o : ℕ) : read32 p o < 4294967296 := by rw [← read32_eq]; exact canl_lt _

/-! ### Block I/O -/

/-- Absolute block, zeroes past the end of the image. -/
def read_block (fs : CoherentFS) (bno : ℕ) : Block := fun i =>
  if bno * BLOCK + BLOCK > fs.len then 0 else if i < BLOCK then fs.image (bno * BLOCK + i) else 0

def write_block (fs : CoherentFS) (bno : ℕ) (data : Block) : Except String CoherentFS :=
  if bno * BLOCK + BLOCK > fs.len then
    .error ("write_block(" ++ toString bno ++ ") out of range (image " ++ toString fs.len
      ++ " bytes)")
  else .ok { fs with image := fun i =>
    if bno * BLOCK ≤ i ∧ i < bno * BLOCK + BLOCK then data (i - bno * BLOCK) else fs.image i }

def read_sb (fs : CoherentFS) : Block := read_block fs (fs.part_off + 1)

def write_sb (fs : CoherentFS) (sb : Block) : Except String CoherentFS :=
  write_block fs (fs.part_off + 1) sb

/-- `_touch_sb`, with the time of day. -/
def touch_sb (time : ℕ) (sb : Block) : Block :=
  write32 (Function.update sb SB_FMOD 1) SB_TIME time

/-! ### The inode table -/

/-- The fields of an inode that the check looks at. -/
structure Inode where
  mode : ℕ
  size : ℕ
  addrs : ℕ → ℕ

def Inode.is_file (inode : Inode) : Bool := inode.mode &&& 0xF000 == S_IFREG
def Inode.is_dir (inode : Inode) : Bool := inode.mode &&& 0xF000 == S_IFDIR

def stat (fs : CoherentFS) (ino : ℕ) : Option Inode :=
  if ino < 1 then none
  else
    let idx := ino - 1
    let off := idx % INODES_PER_BLOCK * INODE_SIZE
    let raw := read_block fs (fs.part_off + 2 + idx / INODES_PER_BLOCK)
    let mode := u16 raw off
    if mode = 0 then none
    else some ⟨mode, read32 raw (off + 8), fun j => read_addr24 raw (off + 12 + j * 3)⟩

/-! ### The block walk -/

/-- One call of `visit`: the block and whether it is an indirect one. -/
structure Visit where
  rel : ℕ
  indirect : Bool

def span (depth : ℕ) : ℕ := INDIRECT_COUNT ^ depth

/-- `_walk_indirect_blocks`: what it visits, and `got` afterwards. -/
def walk_indirect_blocks (fs : CoherentFS) (need : ℕ) :
    ℕ → ℕ → List Visit × ℕ → List Visit × ℕ
  | 0, _, (vs, got) => (vs, got)
  | depth + 1, bno, (vs, got) =>
    if got ≥ need then (vs, got)
    else if bno = 0 then (vs, min need (got + span (depth + 1)))
    else if (fs.part_off + bno + 1) * BLOCK > fs.len then
      (vs ++ [⟨bno, true⟩], min need (got + span (depth + 1)))
    else
      let blk := read_block fs (fs.part_off + bno)
      (List.range INDIRECT_COUNT).foldl (fun (vs, got) i =>
        if got < need then
          let entry := read32 blk (i * 4)
          if depth = 0 then ((if entry ≠ 0 then vs ++ [⟨entry, false⟩] else vs), got + 1)
          else walk_indirect_blocks fs need depth entry (vs, got)
        else (vs, got)) (vs ++ [⟨bno, true⟩], got)

/-- Every call of `visit` for one inode, in order. -/
def walk_inode_blocks (fs : CoherentFS) (inode : Inode) : List Visit :=
  let need := (inode.size + BLOCK - 1) / BLOCK
  let direct := (List.range NDIRECT).foldl (fun (vs, got) i =>
    if got ≥ need then (vs, got)
    else ((if inode.addrs i ≠ 0 then vs ++ [⟨inode.addrs i, false⟩] else vs), got + 1)) ([], 0)
  let single := walk_indirect_blocks fs need 1 (inode.addrs 10) direct
  let double := walk_indirect_blocks fs need 2 (inode.addrs 11) single
  (walk_indirect_blocks fs need 3 (inode.addrs 12) double).1

/-- One partition's block accounting. The two dictionaries are lists of key and values. -/
structure FsckReport where
  isize : ℕ
  fsize : ℕ
  used_inodes : ℕ
  free_inodes : ℕ
  used_blocks : ℕ
  free_blocks : ℕ
  cross_linked : List (ℕ × List ℕ)
  out_of_range : List (ℕ × List ℕ)
  deriving DecidableEq, Repr

/-- `d.setdefault(k, init).append(v)` -/
def setdefault (d : List (ℕ × List ℕ)) (k : ℕ) (init : List ℕ) (v : ℕ) : List (ℕ × List ℕ) :=
  if (d.lookup k).isSome then d.map fun e => if e.1 = k then (k, e.2 ++ [v]) else e
  else d ++ [(k, init ++ [v])]

/-- `visit` of `check_blocks`; `owner` maps a block to the first inode that claimed it. -/
def check_visit (ino : ℕ) (s : FsckReport × List (ℕ × ℕ)) (v : Visit) :
    FsckReport × List (ℕ × ℕ) :=
  let (rep, owner) := s
  if v.rel < rep.isize ∨ v.rel ≥ rep.fsize then
    ({ rep with out_of_range := setdefault rep.out_of_range ino [] v.rel }, owner)
  else match owner.lookup v.rel with
    | some first =>
      ({ rep with cross_linked := setdefault rep.cross_linked v.rel [first] ino }, owner)
    | none => ({ rep with used_blocks := rep.used_blocks + 1 }, (v.rel, ino) :: owner)

/-- Does the check walk this inode? Only files and directories own data blocks. -/
def walked (inode : Inode) : Bool := inode.is_file || inode.is_dir

/-- The body of the loop of `check_blocks` over the inodes. -/
def check_inode (fs : CoherentFS) (s : FsckReport × List (ℕ × ℕ)) (ino : ℕ) :
    FsckReport × List (ℕ × ℕ) :=
  let (rep, owner) := s
  match stat fs ino with
  | none => ({ rep with free_inodes := rep.free_inodes + 1 }, owner)
  | some inode =>
    let rep := { rep with used_inodes := rep.used_inodes + 1 }
    if walked inode then (walk_inode_blocks fs inode).foldl (check_visit ino) (rep, owner)
    else (rep, owner)

def check_blocks (fs : CoherentFS) : Except String FsckReport :=
  let sb := read_sb fs
  let isize := u16 sb SB_ISIZE
  let fsize := read32 sb SB_FSIZE
  if isize < 2 ∨ fsize ≤ isize then
    .error ("fsck: implausible superblock isize=" ++ toString isize ++ " fsize=" ++ toString fsize)
  else
    let nino := (isize - 2) * INODES_PER_BLOCK
    let rep := ((List.range' 1 nino).foldl (check_inode fs)
      (⟨isize, fsize, 0, 0, 0, 0, [], []⟩, [])).1
    .ok { rep with free_blocks := fsize - isize - rep.used_blocks }

/-! ### Rebuilding the free list -/

/-- Push a block back onto the free list. -/
def free_block (time : ℕ) (fs : CoherentFS) (b : ℕ) : Except String CoherentFS := do
  if b = 0 then .error "refusing to free block 0"
  let sb := read_sb fs
  let isize := u16 sb SB_ISIZE
  let fsize := read32 sb SB_FSIZE
  if b < isize ∨ b ≥ fsize then
    .error ("free_block(" ++ toString b ++ ") out of [" ++ toString isize ++ ", "
      ++ toString fsize ++ ")")
  let nfree := s16 (u16 sb SB_NFREE)
  if nfree < 0 ∨ nfree > NICFREE then .error ("corrupt s_nfree=" ++ toString nfree)
  let nfree := nfree.toNat
  -- a full cache is spilled into `b`, which becomes the next link of the chain
  let fs ← if nfree = NICFREE then
      let fblk : Block := pack16 (fun _ => 0) FBLK_NFREE nfree
      write_block fs (fs.part_off + b) fun i =>
        if FBLK_FREE ≤ i ∧ i < FBLK_FREE + NICFREE * 4 then sb (SB_FREE + (i - FBLK_FREE))
        else fblk i
    else .ok fs
  let nfree := if nfree = NICFREE then 0 else nfree
  let sb := write32 sb (SB_FREE + nfree * 4) b
  let sb := pack16 sb SB_NFREE (nfree + 1)
  let sb := write32 sb SB_TFREE (read32 sb SB_TFREE + 1)
  write_sb fs (touch_sb time sb)

/-- The blocks the walk of `rebuild_free_list` marks used. -/
def used (fs : CoherentFS) (rep : FsckReport) : List ℕ :=
  (List.range' 1 ((rep.isize - 2) * INODES_PER_BLOCK)).flatMap fun ino =>
    match stat fs ino with
    | none => []
    | some inode =>
      if walked inode then ((walk_inode_blocks fs inode).map Visit.rel).filter fun rel =>
        rep.isize ≤ rel ∧ rel < rep.fsize
      else []

/-- The super block with an empty free cache, the totals zeroed and the inode cache void. -/
def reset_sb (time : ℕ) (rep : FsckReport) (sb : Block) : Block :=
  let sb := pack16 sb SB_NFREE 0
  let sb := (List.range NICFREE).foldl (fun sb i => write32 sb (SB_FREE + i * 4) 0) sb
  let sb := write32 sb SB_TFREE 0
  let sb := pack16 sb SB_NINODE 0
  let sb := pack16 sb SB_TINODE (rep.free_inodes % 65536)
  let sb := Function.update sb SB_FLOCK 0
  let sb := Function.update sb SB_ILOCK 0
  touch_sb time sb

/-- Rebuild the free list from the inode table. `time n` is the clock when the super block
is written for block `n`, `time 0` when it is reset. -/
def rebuild_free_list (time : ℕ → ℕ) (fs : CoherentFS) :
    Except String (FsckReport × CoherentFS) := do
  let rep ← check_blocks fs
  let marked := used fs rep
  let fs ← write_sb fs (reset_sb (time 0) rep (read_sb fs))
  let fs ← (List.range' rep.isize (rep.fsize - rep.isize)).reverse.foldlM
    (fun fs b => if b ∉ marked then free_block (time b) fs b else pure fs) fs
  return (rep, fs)

end Coherent.DiskPy
