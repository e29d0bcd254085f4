import Coherent.DiskPy
import Coherent.Inode

/-!
The bytes of a disk inode: `icopydm`, `icopymd`, and the inode reader and writer of
`tools/disk.py`.

In memory an inode holds the values of the processor, and its addresses are a union of longs, a
device number and the counters of a pipe. On the disk words and longs are in canonical form and an
address of a block has three bytes.
-/

namespace Coherent.InodeCodec

open Coherent.Can Coherent.FileMap
open Coherent.Itable (IFMT IFDIR IFCHR IFBLK IFREG IFPIPE BADFIN ROOTIN)

def INOPB : ℕ := 8

/-- An in-core inode; `i_a` are the bytes of its union. -/
structure Inode where
  i_ino : ℕ
  i_refc : ℕ
  i_lrt : ℕ
  i_flag : UInt16
  i_mode : UInt16
  i_nlink : UInt16
  i_uid : UInt16
  i_gid : UInt16
  i_size : UInt32
  i_a : Block
  i_atime : UInt32
  i_mtime : UInt32
  i_ctime : UInt32

def Inode.i_addr (ip : Inode) (k : ℕ) : ℕ := getl ip.i_a (4 * k)
def Inode.i_rdev (ip : Inode) : ℕ := getw ip.i_a 0
def Inode.i_pnc (ip : Inode) : ℕ := getw ip.i_a 40
def Inode.i_prx (ip : Inode) : ℕ := getw ip.i_a 42
def Inode.i_pwx (ip : Inode) : ℕ := getw ip.i_a 44

/-- What the union of an inode is used for. -/
inductive Kind
  | special
  | file
  | pipe
  | other
  deriving DecidableEq

/-- The cases of the switches on `i_mode & IFMT`. -/
def kind (mode : ℕ) : Kind :=
  if mode &&& IFMT = IFBLK ∨ mode &&& IFMT = IFCHR then .special
  else if mode &&& IFMT = IFREG ∨ mode &&& IFMT = IFDIR then .file
  else if mode &&& IFMT = IFPIPE then .pipe
  else .other

/-! ### Three-byte addresses -/

/-- What `l3tol` makes of the bytes at an offset. -/
def l3 (p : Block) (o : ℕ) : ℕ :=
  (p o).toNat * 65536 + (p (o + 1)).toNat + (p (o + 2)).toNat * 256

/-- Byte `k` of what `ltol3` makes of a long. -/
def l3byte (l k : ℕ) : UInt8 :=
  if k = 0 then UInt8.ofNat (l / 65536) else if k = 1 then UInt8.ofNat l else UInt8.ofNat (l / 256)

def l3tol (lp : Block) (lo : ℕ) (cp : Block) (co nl : ℕ) : Block :=
  putls lp lo nl fun k => l3 cp (co + 3 * k)

def ltol3 (cp : Block) (co : ℕ) (lp : Block) (lo nl : ℕ) : Block := fun i =>
  if co ≤ i ∧ i < co + 3 * nl then l3byte (getl lp (lo + 4 * ((i - co) / 3))) ((i - co) % 3) else cp i

/-! ### The kernel -/

/-- The union of the in-core inode, from the disk inode. -/
def unionIn (a dip : Block) : Kind → Block
  | .special => putw a 0 (canw (getw dip 12))
  | .file => l3tol a 0 dip 12 NADDR
  | .pipe => putw (putw (putw (l3tol a 0 dip 12 ND) 40 (canw (getw dip 42))) 42
      (canw (getw dip 44))) 44 (canw (getw dip 46))
  | .other => zeroBlock

/-- The disk inode's union, from the in-core inode. -/
def unionOut (dip a : Block) : Kind → Block
  | .special => putw dip 12 (canw (getw a 0))
  | .file => ltol3 dip 12 a 0 NADDR
  | .pipe => putw (putw (putw (ltol3 dip 12 a 0 ND) 42 (canw (getw a 40))) 44
      (canw (getw a 42))) 46 (canw (getw a 44))
  | .other => fun i => if 12 ≤ i ∧ i < 52 then 0 else dip i

/-- `icopydm` once the disk inode is in its local variable. -/
def readDinode (ip : Inode) (dip : Block) : Inode :=
  let i_mode := UInt16.ofNat (canw (getw dip 0))
  { ip with
    i_flag := 0
    i_mode := i_mode
    i_nlink := UInt16.ofNat (canw (getw dip 2))
    i_uid := UInt16.ofNat (canw (getw dip 4))
    i_gid := UInt16.ofNat (canw (getw dip 6))
    i_size := UInt32.ofNat (canl (getl dip 8))
    i_a := unionIn ip.i_a dip (kind i_mode.toNat)
    i_atime := UInt32.ofNat (canl (getl dip 52))
    i_mtime := UInt32.ofNat (canl (getl dip 56))
    i_ctime := UInt32.ofNat (canl (getl dip 60)) }

def writeHead (dip : Block) (ip : Inode) : Block :=
  putl (putw (putw (putw (putw dip 0 (canw ip.i_mode.toNat)) 2 (canw ip.i_nlink.toNat)) 4
    (canw ip.i_uid.toNat)) 6 (canw ip.i_gid.toNat)) 8 (canl ip.i_size.toNat)

def writeTimes (dip : Block) (ip : Inode) : Block :=
  putl (putl (putl dip 52 (canl ip.i_atime.toNat)) 56 (canl ip.i_mtime.toNat)) 60
    (canl ip.i_ctime.toNat)

/-- The local variable of `icopymd`, which held `stack` before. -/
def writeDinode (stack : Block) (ip : Inode) : Block :=
  writeTimes (unionOut (writeHead stack ip) ip.i_a (kind ip.i_mode.toNat)) ip

/-- The offset of an inode in its block. -/
def iblocko (ino : ℕ) : ℕ := (ino - 1) % INOPB * 64

/-- `icopydm`, with the block that `bread` returns. -/
def icopydm (ip : Inode) (bp : Block) : Inode :=
  readDinode ip fun i => if i < 64 then bp (iblocko ip.i_ino + i) else 0

/-- `icopymd`, with the block that `bread` returns and what the stack holds: the inode and the
block afterwards. `iclear` frees the blocks of the inode. -/
def icopymd (iclear : Inode → Inode) (stack : Block) (ip : Inode) (bp : Block) : Inode × Block :=
  let ip :=
    if ip.i_refc = 0 ∧ ip.i_nlink = 0 ∧ ip.i_ino ≠ BADFIN ∧ ip.i_ino ≠ ROOTIN then
      { iclear ip with
        i_ino := ip.i_ino
        i_lrt := 0
        i_mode := 0 }
    else ip
  let dip := writeDinode stack ip
  -- IFACC, IFMOD and IFCRT
  ({ ip with i_flag := ip.i_flag &&& ~~~7 },
    fun i =>
      if iblocko ip.i_ino ≤ i ∧ i < iblocko ip.i_ino + 64 then dip (i - iblocko ip.i_ino) else bp i)

/-! ### `tools/disk.py` -/

section DiskPy

open Coherent.DiskPy (u16 pack16 read32 write32 read_addr24 INODES_PER_BLOCK INODE_SIZE)

/-- The tool's inode. -/
structure PyInode where
  ino : ℕ
  mode : ℕ
  nlinks : ℕ
  uid : ℕ
  gid : ℕ
  size : ℕ
  addrs : ℕ → ℕ
  atime : ℕ
  mtime : ℕ
  ctime : ℕ

/-- `(idx % INODES_PER_BLOCK) * INODE_SIZE` -/
def inodeOffset (ino : ℕ) : ℕ := (ino - 1) % INODES_PER_BLOCK * INODE_SIZE

/-- `stat`, with the block it reads. -/
def stat (raw : Block) (ino : ℕ) : Option PyInode :=
  let off := inodeOffset ino
  if ino < 1 then none
  else if u16 raw off = 0 then none
  else some
    { ino := ino
      mode := u16 raw off
      nlinks := u16 raw (off + 2)
      uid := u16 raw (off + 2 + 2)
      gid := u16 raw (off + 2 + 4)
      size := read32 raw (off + 8)
      addrs := fun j => read_addr24 raw (off + 12 + j * 3)
      atime := read32 raw (off + 52)
      mtime := read32 raw (off + 56)
      ctime := read32 raw (off + 60) }

def write_addr24 (buf : Block) (off v : ℕ) : Block :=
  pack16 (Function.update buf off (UInt8.ofNat (v % 16777216 / 65536))) (off + 1) (v % 16777216 % 65536)

/-- `write_inode`: the block it writes, from the one it reads. -/
def write_inode (out : Block) (inode : PyInode) : Block :=
  let off := inodeOffset inode.ino
  let out := pack16 (pack16 (pack16 (pack16 out off (inode.mode % 65536)) (off + 2)
    (inode.nlinks % 65536)) (off + 4) (inode.uid % 65536)) (off + 6) (inode.gid % 65536)
  let out := write32 out (off + 8) inode.size
  let out := (List.range 13).foldl (fun out j => write_addr24 out (off + 12 + j * 3) (inode.addrs j)) out
  let out := write32 out (off + 52) inode.atime
  let out := write32 out (off + 56) inode.mtime
  write32 out (off + 60) inode.ctime

end DiskPy

/-! ### Bytes -/

variable {p q : Block} {o a n i k w : ℕ}

lemma getw_congr (h : ∀ j < 2, p (a + j) = q (o + j)) : getw p a = getw q o := by
  have h0 := h 0 (by omega)
  have h1 := h 1 (by omega)
  unfold getw
  rw [h1]
  simp only [Nat.add_zero] at h0
  rw [h0]

lemma getl_congr (h : ∀ j < 4, p (a + j) = q (o + j)) : getl p a = getl q o := by
  have hlow : getw p (a + 2) = getw q (o + 2) := by
    refine getw_congr fun j hj => ?_
    rw [Nat.add_assoc, Nat.add_assoc]
    exact h (2 + j) (by omega)
  rw [getl, getl, hlow, getw_congr fun j hj => h j (by omega)]

lemma putw_of_ne (h : i < o ∨ o + 2 ≤ i) : putw p o w i = p i := if_neg (by omega)

lemma putl_of_ne (h : i < o ∨ o + 4 ≤ i) : putl p o w i = p i := if_neg (by omega)

lemma ltol3_of_ne (h : i < o ∨ o + 3 * n ≤ i) : ltol3 p o q a n i = p i := if_neg (by omega)

lemma wbyte_getw (h : k < 2) : wbyte (getw p o) k = p (o + k) := by
  have h0 := (p o).toNat_lt
  have h1 := (p (o + 1)).toNat_lt
  obtain rfl | rfl : k = 0 ∨ k = 1 := by omega
  · simp only [← UInt8.toNat_inj, wbyte, getw, UInt8.toNat_ofNat', Nat.add_zero, Nat.sub_zero, pow_one]
    omega
  · rw [← UInt8.toNat_inj, wbyte, getw, UInt8.toNat_ofNat']
    omega

lemma lbyte_getl (h : k < 4) : lbyte (getl p o) k = p (o + k) := by
  have h0 := (p o).toNat_lt
  have h1 := (p (o + 1)).toNat_lt
  have h2 := (p (o + 2)).toNat_lt
  have h3 := (p (o + 2 + 1)).toNat_lt
  obtain rfl | rfl | rfl | rfl : k = 0 ∨ k = 1 ∨ k = 2 ∨ k = 3 := by omega
  all_goals
    rw [← UInt8.toNat_inj, lbyte, getl, getw, getw, UInt8.toNat_ofNat']
    simp only [Nat.add_assoc, Nat.reduceAdd, Nat.add_zero] at *
    omega

/-- What a word is put back where it came from. -/
lemma putw_getw (h : o ≤ i ∧ i < o + 2) : putw p o (getw q o) i = q i := by
  have hk : (i - o) % 2 = i - o := by omega
  rw [putw, putws, if_pos (by omega), hk, wbyte_getw (by omega), Nat.add_sub_cancel' h.1]

lemma putl_getl (h : o ≤ i ∧ i < o + 4) : putl p o (getl q o) i = q i := by
  have hk : (i - o) % 4 = i - o := by omega
  rw [putl, putls, if_pos (by omega), hk, lbyte_getl (by omega), Nat.add_sub_cancel' h.1]

lemma l3_lt (p : Block) (o : ℕ) : l3 p o < 2 ^ 24 := by
  have h0 := (p o).toNat_lt
  have h1 := (p (o + 1)).toNat_lt
  have h2 := (p (o + 2)).toNat_lt
  unfold l3
  omega

lemma l3byte_l3 (h : k < 3) : l3byte (l3 p o) k = p (o + k) := by
  have h0 := (p o).toNat_lt
  have h1 := (p (o + 1)).toNat_lt
  have h2 := (p (o + 2)).toNat_lt
  obtain rfl | rfl | rfl : k = 0 ∨ k = 1 ∨ k = 2 := by omega
  all_goals
    rw [← UInt8.toNat_inj]
    simp only [l3byte, l3, one_ne_zero, OfNat.ofNat_ne_zero, OfNat.ofNat_ne_one, if_true, if_false,
      UInt8.toNat_ofNat', Nat.add_zero]
    omega

/-- A long of three bytes keeps its value on the disk. -/
lemma l3_ltol3 (hk : k < n) :
    l3 (ltol3 p o q a n) (o + 3 * k) = getl q (a + 4 * k) % 2 ^ 24 := by
  have hbyte : ∀ j < 3, ltol3 p o q a n (o + 3 * k + j) = l3byte (getl q (a + 4 * k)) j := by
    intro j hj
    have hd : (o + 3 * k + j - o) / 3 = k := by omega
    have hm : (o + 3 * k + j - o) % 3 = j := by omega
    rw [ltol3, if_pos (by omega), hd, hm]
  have h0 := hbyte 0 (by omega)
  have h1 := hbyte 1 (by omega)
  have h2 := hbyte 2 (by omega)
  rw [Nat.add_zero] at h0
  simp only [l3, h0, h1, h2, l3byte, one_ne_zero, OfNat.ofNat_ne_zero, OfNat.ofNat_ne_one, if_true,
    if_false, UInt8.toNat_ofNat']
  omega

lemma getl_l3tol (hk : k < n) : getl (l3tol p o q a n) (o + 4 * k) = l3 q (a + 3 * k) := by
  have := l3_lt q (a + 3 * k)
  rw [l3tol, getl_putls hk]
  omega

lemma getw_putw_self : getw (putw p o w) o = w % 65536 := by
  have := getw_putws (p := p) (o := o) (n := 1) (k := 0) (f := fun _ => w) (by omega)
  rwa [Nat.mul_zero, Nat.add_zero] at this

lemma getl_putl_self : getl (putl p o w) o = w % 4294967296 := by
  have := getl_putls (p := p) (o := o) (n := 1) (k := 0) (f := fun _ => w) (by omega)
  rwa [Nat.mul_zero, Nat.add_zero] at this

lemma getw_putw_of_ne (h : a + 2 ≤ o ∨ o + 2 ≤ a) : getw (putw p o w) a = getw p a :=
  getw_putws_of_disjoint (by omega)

lemma getl_putw_of_ne (h : a + 4 ≤ o ∨ o + 2 ≤ a) : getl (putw p o w) a = getl p a := by
  rw [getl, getl, getw_putw_of_ne (by omega), getw_putw_of_ne (by omega)]

lemma getl_putl_of_ne (h : a + 4 ≤ o ∨ o + 4 ≤ a) : getl (putl p o w) a = getl p a := by
  rw [getl, getl, putl, getw_putls (by omega), getw_putls (by omega)]

lemma getw_putl_of_ne (h : a + 2 ≤ o ∨ o + 4 ≤ a) : getw (putl p o w) a = getw p a :=
  getw_putls (by omega)

/-- A word that was read and one that was written are in canonical form. -/
lemma toNat_canw (w : UInt16) : UInt16.ofNat (canw (canw w.toNat % 65536)) = w := by
  rw [canw_mod, canw_canw, Nat.mod_eq_of_lt w.toNat_lt, UInt16.ofNat_toNat]

lemma toNat_canl (l : UInt32) : UInt32.ofNat (canl (canl l.toNat % 4294967296)) = l := by
  rw [canl_mod, canl_canl, Nat.mod_eq_of_lt l.toNat_lt, UInt32.ofNat_toNat]

lemma canw_ofNat (p : Block) (o : ℕ) : canw (UInt16.ofNat (canw (getw p o))).toNat = getw p o := by
  rw [UInt16.toNat_ofNat', Nat.mod_eq_of_lt (canw_lt _), canw_canw, Nat.mod_eq_of_lt (getw_lt p o)]

lemma canl_ofNat (p : Block) (o : ℕ) : canl (UInt32.ofNat (canl (getl p o))).toNat = getl p o := by
  rw [UInt32.toNat_ofNat', Nat.mod_eq_of_lt (canl_lt _), canl_canl, Nat.mod_eq_of_lt (getl_lt p o)]

/-! ### The parts of a disk inode -/

variable {ip slot : Inode} {stack d bp : Block} {κ : Kind}

lemma writeTimes_of_lt (h : i < 52) : writeTimes p ip i = p i := by
  rw [writeTimes, putl_of_ne (by omega), putl_of_ne (by omega), putl_of_ne (by omega)]

lemma writeHead_of_le (h : 12 ≤ i) : writeHead p ip i = p i := by
  rw [writeHead, putl_of_ne (by omega), putw_of_ne (by omega), putw_of_ne (by omega),
    putw_of_ne (by omega), putw_of_ne (by omega)]

lemma unionOut_of_ne (h : i < 12 ∨ 52 ≤ i) : unionOut p q κ i = p i := by
  cases κ with
  | special => exact putw_of_ne (by omega)
  | file =>
    refine ltol3_of_ne ?_
    unfold NADDR
    omega
  | pipe =>
    rw [unionOut, putw_of_ne (by omega), putw_of_ne (by omega), putw_of_ne (by omega), ltol3_of_ne]
    unfold ND
    omega
  | other => exact if_neg (by omega)

lemma writeDinode_head (h : i < 12) : writeDinode stack ip i = writeHead stack ip i := by
  rw [writeDinode, writeTimes_of_lt (by omega), unionOut_of_ne (.inl h)]

lemma writeDinode_union (h : i < 52) :
    writeDinode stack ip i = unionOut (writeHead stack ip) ip.i_a (kind ip.i_mode.toNat) i :=
  writeTimes_of_lt h

/-- The words and the long before the union. -/
lemma head_fields (stack : Block) (ip : Inode) :
    getw (writeDinode stack ip) 0 = canw ip.i_mode.toNat % 65536 ∧
    getw (writeDinode stack ip) 2 = canw ip.i_nlink.toNat % 65536 ∧
    getw (writeDinode stack ip) 4 = canw ip.i_uid.toNat % 65536 ∧
    getw (writeDinode stack ip) 6 = canw ip.i_gid.toNat % 65536 ∧
    getl (writeDinode stack ip) 8 = canl ip.i_size.toNat % 4294967296 := by
  have hw : ∀ a ≤ 10, getw (writeDinode stack ip) a = getw (writeHead stack ip) a := fun a ha =>
    getw_congr fun j hj => writeDinode_head (by omega)
  have hl : getl (writeDinode stack ip) 8 = getl (writeHead stack ip) 8 :=
    getl_congr fun j hj => writeDinode_head (by omega)
  rw [hw 0 (by omega), hw 2 (by omega), hw 4 (by omega), hw 6 (by omega), hl]
  unfold writeHead
  refine ⟨?_, ?_, ?_, ?_, getl_putl_self⟩
  · rw [getw_putl_of_ne (by omega), getw_putw_of_ne (by omega), getw_putw_of_ne (by omega),
      getw_putw_of_ne (by omega), getw_putw_self]
  · rw [getw_putl_of_ne (by omega), getw_putw_of_ne (by omega), getw_putw_of_ne (by omega),
      getw_putw_self]
  · rw [getw_putl_of_ne (by omega), getw_putw_of_ne (by omega), getw_putw_self]
  · rw [getw_putl_of_ne (by omega), getw_putw_self]

/-- The longs behind it. -/
lemma time_fields (stack : Block) (ip : Inode) :
    getl (writeDinode stack ip) 52 = canl ip.i_atime.toNat % 4294967296 ∧
    getl (writeDinode stack ip) 56 = canl ip.i_mtime.toNat % 4294967296 ∧
    getl (writeDinode stack ip) 60 = canl ip.i_ctime.toNat % 4294967296 := by
  unfold writeDinode writeTimes
  refine ⟨?_, ?_, getl_putl_self⟩
  · rw [getl_putl_of_ne (by omega), getl_putl_of_ne (by omega), getl_putl_self]
  · rw [getl_putl_of_ne (by omega), getl_putl_self]

lemma l3_congr (h : ∀ j < 3, p (a + j) = q (o + j)) : l3 p a = l3 q o := by
  have h0 := h 0 (by omega)
  rw [Nat.add_zero, Nat.add_zero] at h0
  rw [l3, l3, h0, h 1 (by omega), h 2 (by omega)]

/-- The inodes agree in what the union is used for. -/
def SameUnion (ip ip' : Inode) : Kind → Prop
  | .special => ip'.i_rdev = ip.i_rdev
  | .file => ∀ k < NADDR, ip'.i_addr k = ip.i_addr k
  | .pipe => (∀ k < ND, ip'.i_addr k = ip.i_addr k) ∧ ip'.i_pnc = ip.i_pnc ∧ ip'.i_prx = ip.i_prx ∧
      ip'.i_pwx = ip.i_pwx
  | .other => True

/-- The inodes have the same fields. -/
structure Same (ip ip' : Inode) : Prop where
  mode : ip'.i_mode = ip.i_mode
  nlink : ip'.i_nlink = ip.i_nlink
  uid : ip'.i_uid = ip.i_uid
  gid : ip'.i_gid = ip.i_gid
  size : ip'.i_size = ip.i_size
  atime : ip'.i_atime = ip.i_atime
  mtime : ip'.i_mtime = ip.i_mtime
  ctime : ip'.i_ctime = ip.i_ctime
  union : SameUnion ip ip' (kind ip.i_mode.toNat)

/-- The addresses of blocks have three bytes. -/
def Addressable (ip : Inode) : Prop :=
  match kind ip.i_mode.toNat with
  | .file => ∀ k < NADDR, ip.i_addr k < 2 ^ 24
  | .pipe => ∀ k < ND, ip.i_addr k < 2 ^ 24
  | _ => True

lemma getw_canw_back (h : getw d o = canw (getw q a) % 65536) : getw (putw p n (canw (getw d o))) n =
    getw q a := by
  rw [getw_putw_self, h, canw_mod, canw_canw, Nat.mod_mod, Nat.mod_eq_of_lt (getw_lt q a)]

/-- **A disk inode is read as it was written.** -/
theorem same_readDinode (ha : Addressable ip) : Same ip (readDinode slot (writeDinode stack ip)) := by
  obtain ⟨h0, h2, h4, h6, h8⟩ := head_fields stack ip
  obtain ⟨h52, h56, h60⟩ := time_fields stack ip
  have hmode : (readDinode slot (writeDinode stack ip)).i_mode = ip.i_mode := by
    simp only [readDinode, h0, toNat_canw]
  refine ⟨hmode, ?_, ?_, ?_, ?_, ?_, ?_, ?_, ?_⟩
  · simp only [readDinode, h2, toNat_canw]
  · simp only [readDinode, h4, toNat_canw]
  · simp only [readDinode, h6, toNat_canw]
  · simp only [readDinode, h8, toNat_canl]
  · simp only [readDinode, h52, toNat_canl]
  · simp only [readDinode, h56, toNat_canl]
  · simp only [readDinode, h60, toNat_canl]
  · have hi : (readDinode slot (writeDinode stack ip)).i_a =
        unionIn slot.i_a (writeDinode stack ip) (kind ip.i_mode.toNat) := by
      simp only [readDinode, h0, toNat_canw]
    unfold Addressable at ha
    have hu : ∀ i < 52, writeDinode stack ip i =
        unionOut (writeHead stack ip) ip.i_a (kind ip.i_mode.toNat) i := fun i => writeDinode_union
    cases hk : kind ip.i_mode.toNat with
    | special =>
      rw [hk] at hi hu
      have h12 : getw (writeDinode stack ip) 12 = canw (getw ip.i_a 0) % 65536 := by
        rw [getw_congr fun j hj => hu (12 + j) (by omega)]
        exact getw_putw_self
      rw [SameUnion, Inode.i_rdev, hi]
      exact getw_canw_back h12
    | file =>
      rw [hk] at hi hu ha
      intro k hkn
      have hl : l3 (writeDinode stack ip) (12 + 3 * k) = ip.i_addr k % 2 ^ 24 := by
        have hk13 : k < 13 := hkn
        rw [l3_congr fun j hj => hu (12 + 3 * k + j) (by omega), unionOut, l3_ltol3 hkn, Nat.zero_add]
        rfl
      have hg := getl_l3tol (p := slot.i_a) (o := 0) (q := writeDinode stack ip) (a := 12) hkn
      rw [Nat.zero_add] at hg
      rw [Inode.i_addr, hi, unionIn, hg, hl, Nat.mod_eq_of_lt (ha k hkn)]
    | pipe =>
      rw [hk] at hi hu ha
      refine ⟨fun k hkn => ?_, ?_, ?_, ?_⟩
      · have hk10 : k < 10 := hkn
        have hl : l3 (writeDinode stack ip) (12 + 3 * k) = ip.i_addr k % 2 ^ 24 := by
          rw [l3_congr fun j hj => hu (12 + 3 * k + j) (by omega), unionOut]
          rw [l3_congr (q := ltol3 (writeHead stack ip) 12 ip.i_a 0 ND) (o := 12 + 3 * k)
            fun j hj => ?_, l3_ltol3 hkn, Nat.zero_add]
          · rfl
          · rw [putw_of_ne (by omega), putw_of_ne (by omega), putw_of_ne (by omega)]
        have hg := getl_l3tol (p := slot.i_a) (o := 0) (q := writeDinode stack ip) (a := 12) hkn
        rw [Nat.zero_add] at hg
        rw [Inode.i_addr, hi, unionIn, getl_putw_of_ne (by omega), getl_putw_of_ne (by omega),
          getl_putw_of_ne (by omega), hg, hl, Nat.mod_eq_of_lt (ha k hkn)]
      · have h42 : getw (writeDinode stack ip) 42 = canw (getw ip.i_a 40) % 65536 := by
          rw [getw_congr fun j hj => hu (42 + j) (by omega)]
          rw [unionOut, getw_putw_of_ne (by omega), getw_putw_of_ne (by omega)]
          exact getw_putw_self
        rw [Inode.i_pnc, hi, unionIn, getw_putw_of_ne (by omega), getw_putw_of_ne (by omega)]
        exact getw_canw_back h42
      · have h44 : getw (writeDinode stack ip) 44 = canw (getw ip.i_a 42) % 65536 := by
          rw [getw_congr fun j hj => hu (44 + j) (by omega)]
          rw [unionOut, getw_putw_of_ne (by omega)]
          exact getw_putw_self
        rw [Inode.i_prx, hi, unionIn, getw_putw_of_ne (by omega)]
        exact getw_canw_back h44
      · have h46 : getw (writeDinode stack ip) 46 = canw (getw ip.i_a 44) % 65536 := by
          rw [getw_congr fun j hj => hu (46 + j) (by omega)]
          exact getw_putw_self
        rw [Inode.i_pwx, hi]
        exact getw_canw_back h46
    | other => trivial

/-! ### Writing back what was read -/

/-- The bytes of its local variable that `icopymd` never sets. -/
def Spare : Kind → ℕ → Prop
  | .special, k => 14 ≤ k ∧ k < 52
  | .file, k => k = 51
  | .pipe, k => 48 ≤ k ∧ k < 52
  | .other, _ => False

instance (κ : Kind) (k : ℕ) : Decidable (Spare κ k) := by
  cases κ <;> unfold Spare <;> infer_instance

lemma Spare.range (h : Spare κ k) : 12 ≤ k ∧ k < 52 := by
  cases κ <;> simp only [Spare] at h <;> omega

/-- The addresses that were read go back to their bytes. -/
lemma ltol3_l3tol (h : 12 ≤ i ∧ i < 12 + 3 * n) (hq : ∀ k < n, getl q (4 * k) = l3 d (12 + 3 * k)) :
    ltol3 p 12 q 0 n i = d i := by
  have hn : (i - 12) / 3 < n := by omega
  rw [ltol3, if_pos h, Nat.zero_add, hq _ hn, l3byte_l3 (by omega)]
  congr 1
  omega

lemma unionOut_unionIn (hκ : κ ≠ .other) (h : 12 ≤ i ∧ i < 52) :
    unionOut p (unionIn q d κ) κ i = if Spare κ i then p i else d i := by
  cases κ with
  | special =>
    have hb : canw (getw (unionIn q d .special) 0) = getw d 12 := by
      rw [unionIn, getw_putw_self, canw_mod, canw_canw, Nat.mod_eq_of_lt (getw_lt d 12)]
    rw [unionOut, hb]
    by_cases hs : 14 ≤ i
    · rw [if_pos (show Spare .special i from ⟨hs, h.2⟩), putw_of_ne (by omega)]
    · rw [if_neg (show ¬Spare .special i from fun hsp => hs hsp.1), putw_getw (by omega)]
  | file =>
    have hg : ∀ k < NADDR, getl (unionIn q d .file) (4 * k) = l3 d (12 + 3 * k) := by
      intro k hk
      have := getl_l3tol (p := q) (o := 0) (q := d) (a := 12) hk
      rwa [Nat.zero_add] at this
    rw [unionOut]
    unfold NADDR at hg ⊢
    by_cases hs : i = 51
    · rw [if_pos (show Spare .file i from hs), ltol3_of_ne (by omega)]
    · rw [if_neg (show ¬Spare .file i from hs), ltol3_l3tol (by omega) hg]
  | pipe =>
    have hg : ∀ k < ND, getl (unionIn q d .pipe) (4 * k) = l3 d (12 + 3 * k) := by
      intro k hk
      have h10 : k < 10 := hk
      have := getl_l3tol (p := q) (o := 0) (q := d) (a := 12) hk
      rw [Nat.zero_add] at this
      rw [unionIn, getl_putw_of_ne (by omega), getl_putw_of_ne (by omega), getl_putw_of_ne (by omega),
        this]
    have hback : ∀ a, canw (canw (getw d a) % 65536) = getw d a := fun a => by
      rw [canw_mod, canw_canw, Nat.mod_eq_of_lt (getw_lt d a)]
    have h40 : canw (getw (unionIn q d .pipe) 40) = getw d 42 := by
      rw [unionIn, getw_putw_of_ne (by omega), getw_putw_of_ne (by omega), getw_putw_self, hback]
    have h42 : canw (getw (unionIn q d .pipe) 42) = getw d 44 := by
      rw [unionIn, getw_putw_of_ne (by omega), getw_putw_self, hback]
    have h44 : canw (getw (unionIn q d .pipe) 44) = getw d 46 := by
      rw [unionIn, getw_putw_self, hback]
    rw [unionOut, h40, h42, h44]
    unfold ND at hg ⊢
    by_cases hs : 48 ≤ i
    · rw [if_pos (show Spare .pipe i from ⟨hs, h.2⟩), putw_of_ne (by omega), putw_of_ne (by omega),
        putw_of_ne (by omega), ltol3_of_ne (by omega)]
    -- the addresses, then the three counters
    · rw [if_neg (show ¬Spare .pipe i from fun hsp => hs hsp.1)]
      by_cases h1 : i < 42
      · rw [putw_of_ne (by omega), putw_of_ne (by omega), putw_of_ne (by omega),
          ltol3_l3tol (by omega) hg]
      by_cases h2 : i < 44
      · rw [putw_of_ne (by omega), putw_of_ne (by omega), putw_getw (by omega)]
      by_cases h3 : i < 46
      · rw [putw_of_ne (by omega), putw_getw (by omega)]
      · rw [putw_getw (by omega)]
  | other => exact absurd rfl hκ

/-- The parts of an inode that was read go back to their bytes. -/
lemma parts_back (hno : κ ≠ .other) (h : i < 64) :
    writeTimes (unionOut (writeHead stack (readDinode slot d)) (unionIn q d κ) κ)
      (readDinode slot d) i = if Spare κ i then stack i else d i := by
  by_cases h12 : i < 12
  · rw [if_neg fun hs => absurd hs.range.1 (by omega), writeTimes_of_lt (by omega),
      unionOut_of_ne (.inl h12), writeHead]
    simp only [readDinode, canw_ofNat, canl_ofNat]
    by_cases h2 : i < 2
    · rw [putl_of_ne (by omega), putw_of_ne (by omega), putw_of_ne (by omega), putw_of_ne (by omega),
        putw_getw (by omega)]
    by_cases h4 : i < 4
    · rw [putl_of_ne (by omega), putw_of_ne (by omega), putw_of_ne (by omega), putw_getw (by omega)]
    by_cases h6 : i < 6
    · rw [putl_of_ne (by omega), putw_of_ne (by omega), putw_getw (by omega)]
    by_cases h8 : i < 8
    · rw [putl_of_ne (by omega), putw_getw (by omega)]
    · rw [putl_getl (by omega)]
  by_cases h52 : i < 52
  · rw [writeTimes_of_lt h52, unionOut_unionIn hno (by omega), writeHead_of_le (by omega)]
  · rw [if_neg fun hs => absurd hs.range.2 (by omega), writeTimes]
    simp only [readDinode, canl_ofNat]
    by_cases h56 : i < 56
    · rw [putl_of_ne (by omega), putl_of_ne (by omega), putl_getl (by omega)]
    by_cases h60 : i < 60
    · rw [putl_of_ne (by omega), putl_getl (by omega)]
    · rw [putl_getl (by omega)]

/-- **What `icopymd` writes for an inode that `icopydm` read**: the same bytes, and what the stack
held where it sets none. -/
theorem writeDinode_readDinode (hκ : kind (readDinode slot d).i_mode.toNat = κ) (hno : κ ≠ .other)
    (h : i < 64) : writeDinode stack (readDinode slot d) i = if Spare κ i then stack i else d i := by
  have ha : (readDinode slot d).i_a = unionIn slot.i_a d κ := hκ ▸ rfl
  rw [writeDinode, hκ, ha, parts_back hno h]

/-! ### The tool against the kernel -/

section Tool

open Coherent.DiskPy (u16 pack16 read32 write32 read_addr24 u16_eq read32_eq)

variable {out raw : Block} {y : PyInode} {off ino v : ℕ}

lemma inodeOffset_eq : inodeOffset = iblocko := rfl

lemma wbyte_canw : wbyte (canw v) 0 = UInt8.ofNat v ∧ wbyte (canw v) 1 = UInt8.ofNat (v / 256) := by
  have hd : canw v / 256 = v % 256 := by unfold canw; omega
  have hm : canw v % 256 = v / 256 % 256 := by unfold canw; omega
  refine ⟨?_, ?_⟩
  · rw [← UInt8.toNat_inj, wbyte, UInt8.toNat_ofNat', UInt8.toNat_ofNat', Nat.sub_zero, pow_one, hd]
    omega
  · rw [← UInt8.toNat_inj, wbyte, UInt8.toNat_ofNat', UInt8.toNat_ofNat', Nat.sub_self, pow_zero,
      Nat.div_one]
    omega

lemma pack16_eq_putw : pack16 p o v = putw p o (canw v) := by
  funext i
  by_cases h0 : i = o
  · subst h0
    rw [pack16, if_pos rfl, putw, putws, if_pos (by omega), Nat.sub_self, Nat.zero_mod, wbyte_canw.1]
  by_cases h1 : i = o + 1
  · subst h1
    rw [pack16, if_neg h0, if_pos rfl, putw, putws, if_pos (by omega), Nat.add_sub_cancel_left,
      wbyte_canw.2]
  · rw [pack16, if_neg h0, if_neg h1, putw_of_ne (by omega)]

lemma write32_eq_putl : write32 p o v = putl p o (canl v) := by
  have hh := canw_lt (v / 65536)
  have hl := canw_lt v
  have hd : canl v / 65536 = canw (v / 65536) := by unfold canl; omega
  have hm : canl v % 65536 = canw v := by unfold canl; omega
  funext i
  rw [write32, pack16_eq_putw, pack16_eq_putw, canw_mod, canw_mod]
  by_cases h : i < o
  · rw [putw_of_ne (by omega), putw_of_ne (by omega), putl_of_ne (by omega)]
  by_cases h2 : i < o + 2
  -- the high word
  · have hg : getw (putl p o (canl v)) o = canw (v / 65536) := by
      have hself := getl_putl_self (p := p) (o := o) (w := canl v)
      have hlt := getw_lt (putl p o (canl v)) (o + 2)
      rw [getl] at hself
      have := canl_lt v
      omega
    rw [putw_of_ne (by omega), ← hg, putw_getw (by omega)]
  by_cases h4 : i < o + 4
  -- the low word
  · have hg : getw (putl p o (canl v)) (o + 2) = canw v := by
      have hself := getl_putl_self (p := p) (o := o) (w := canl v)
      have hlt := getw_lt (putl p o (canl v)) (o + 2)
      rw [getl] at hself
      have := canl_lt v
      omega
    rw [← hg, putw_getw (by omega)]
  · rw [putw_of_ne (by omega), putw_of_ne (by omega), putl_of_ne (by omega)]

lemma read_addr24_eq : read_addr24 p o = l3 p o := by
  unfold read_addr24 l3 u16
  rw [Nat.add_assoc o]
  omega

lemma write_addr24_apply : write_addr24 p o v i =
    if o ≤ i ∧ i < o + 3 then l3byte v (i - o) else p i := by
  unfold write_addr24 pack16
  by_cases h : o ≤ i ∧ i < o + 3
  · rw [if_pos h, ← UInt8.toNat_inj]
    obtain rfl | rfl | rfl : i = o ∨ i = o + 1 ∨ i = o + 2 := by omega
    · rw [if_neg (by omega), if_neg (by omega), Function.update_self, Nat.sub_self, l3byte, if_pos rfl]
      simp only [UInt8.toNat_ofNat']
      omega
    · rw [if_pos rfl, Nat.add_sub_cancel_left, l3byte, if_neg (by omega), if_pos rfl]
      simp only [UInt8.toNat_ofNat']
      omega
    · rw [if_neg (by omega), if_pos (by omega), Nat.add_sub_cancel_left, l3byte, if_neg (by omega),
        if_neg (by omega)]
      simp only [UInt8.toNat_ofNat']
      omega
  · rw [if_neg (by omega), if_neg (by omega), if_neg h, Function.update_of_ne (by omega)]

lemma foldl_write_addr24 {f : ℕ → ℕ} (n : ℕ) :
    (List.range n).foldl (fun out j => write_addr24 out (o + j * 3) (f j)) p i =
      if o ≤ i ∧ i < o + 3 * n then l3byte (f ((i - o) / 3)) ((i - o) % 3) else p i := by
  induction n with
  | zero => rw [List.range_zero, List.foldl_nil, if_neg (by omega)]
  | succ n ih =>
    rw [List.range_succ, List.foldl_append, List.foldl_cons, List.foldl_nil, write_addr24_apply, ih]
    by_cases hn : o + n * 3 ≤ i ∧ i < o + n * 3 + 3
    · have hd : (i - o) / 3 = n := by omega
      have hm : (i - o) % 3 = i - (o + n * 3) := by omega
      rw [if_pos hn, if_pos (by omega), hd, hm]
    · rw [if_neg hn]
      by_cases hi : o ≤ i ∧ i < o + 3 * n
      · rw [if_pos hi, if_pos (by omega)]
      · rw [if_neg hi, if_neg (by omega)]

/-- The bytes from an offset on. -/
def bytesFrom (p : Block) (off : ℕ) : Block := fun i => p (off + i)

lemma putw_bytesFrom : bytesFrom (putw p (off + o) w) off = putw (bytesFrom p off) o w := by
  funext i
  have he : off + i - (off + o) = i - o := by omega
  by_cases h : o ≤ i ∧ i < o + 2
  · simp only [bytesFrom, putw, putws, he]
    rw [if_pos (by omega), if_pos (by omega)]
  · rw [putw_of_ne (by omega), bytesFrom, putw_of_ne (by omega), bytesFrom]

lemma putl_bytesFrom : bytesFrom (putl p (off + o) w) off = putl (bytesFrom p off) o w := by
  funext i
  have he : off + i - (off + o) = i - o := by omega
  by_cases h : o ≤ i ∧ i < o + 4
  · simp only [bytesFrom, putl, putls, he]
    rw [if_pos (by omega), if_pos (by omega)]
  · rw [putl_of_ne (by omega), bytesFrom, putl_of_ne (by omega), bytesFrom]

/-- The tool's inode has the fields of the in-core inode. -/
structure Fields (y : PyInode) (ip : Inode) : Prop where
  ino : y.ino = ip.i_ino
  mode : y.mode = ip.i_mode.toNat
  nlinks : y.nlinks = ip.i_nlink.toNat
  uid : y.uid = ip.i_uid.toNat
  gid : y.gid = ip.i_gid.toNat
  size : y.size = ip.i_size.toNat
  atime : y.atime = ip.i_atime.toNat
  mtime : y.mtime = ip.i_mtime.toNat
  ctime : y.ctime = ip.i_ctime.toNat

/-- `write_inode` writes what `icopymd` would on the bytes that are there. -/
lemma bytesFrom_write_inode (hy : Fields y ip) (ha : ∀ j < NADDR, y.addrs j = getl q (4 * j)) :
    bytesFrom (write_inode out y) (inodeOffset y.ino) =
      writeTimes (unionOut (writeHead (bytesFrom out (inodeOffset y.ino)) ip) q .file) ip := by
  have h0 : ∀ p v, pack16 p (inodeOffset y.ino) v = putw p (inodeOffset y.ino + 0) (canw v) :=
    fun p v => pack16_eq_putw
  have hfold : ∀ p, bytesFrom ((List.range 13).foldl (fun out j =>
      write_addr24 out (inodeOffset y.ino + 12 + j * 3) (y.addrs j)) p) (inodeOffset y.ino) =
      ltol3 (bytesFrom p (inodeOffset y.ino)) 12 q 0 NADDR := by
    intro p
    funext i
    have he : inodeOffset y.ino + i - (inodeOffset y.ino + 12) = i - 12 := by omega
    rw [bytesFrom, foldl_write_addr24, he]
    by_cases h : 12 ≤ i ∧ i < 12 + 3 * 13
    · have hj : (i - 12) / 3 < NADDR := by unfold NADDR; omega
      rw [if_pos (by omega), ltol3, if_pos (by unfold NADDR; omega), ha _ hj, Nat.zero_add]
    · rw [if_neg (by omega), ltol3_of_ne (by unfold NADDR; omega), bytesFrom]
  unfold write_inode writeTimes unionOut writeHead
  simp only [h0]
  simp only [pack16_eq_putw, write32_eq_putl, putl_bytesFrom, putw_bytesFrom, hfold, canw_mod, hy.mode,
    hy.nlinks, hy.uid, hy.gid, hy.size, hy.atime, hy.mtime, hy.ctime]

lemma write_inode_of_lt (h : i < inodeOffset y.ino) : write_inode out y i = out i := by
  unfold write_inode
  simp only [pack16_eq_putw, write32_eq_putl]
  rw [putl_of_ne (by omega), putl_of_ne (by omega), putl_of_ne (by omega), foldl_write_addr24,
    if_neg (by omega), putl_of_ne (by omega), putw_of_ne (by omega), putw_of_ne (by omega),
    putw_of_ne (by omega), putw_of_ne (by omega)]

/-- The tool and the kernel write the same bytes, but where the kernel writes what the stack held. -/
lemma write_inode_apply (hy : Fields y ip) (ha : ∀ j < NADDR, y.addrs j = getl q (4 * j)) (k : ℕ) :
    write_inode out y (inodeOffset y.ino + k) =
      writeTimes (unionOut (writeHead (bytesFrom out (inodeOffset y.ino)) ip) q .file) ip k :=
  congrFun (bytesFrom_write_inode hy ha) k

end Tool

/-! ### The block of an inode -/

lemma unionIn_congr (h : ∀ i < 52, p i = q i) (a : Block) (κ : Kind) : unionIn a p κ = unionIn a q κ := by
  have hw : ∀ o ≤ 50, getw p o = getw q o := fun o ho => getw_congr fun j hj => h _ (by omega)
  have hl : ∀ n ≤ 13, l3tol a 0 p 12 n = l3tol a 0 q 12 n := by
    intro n hn
    funext i
    unfold l3tol putls
    split_ifs with hi
    · have he : l3 p (12 + 3 * ((i - 0) / 4)) = l3 q (12 + 3 * ((i - 0) / 4)) :=
        l3_congr fun j hj => h _ (by omega)
      simp only [he]
    · rfl
  cases κ with
  | special => rw [unionIn, unionIn, hw 12 (by omega)]
  | file => exact hl 13 le_rfl
  | pipe => rw [unionIn, unionIn, hl ND (by decide), hw 42 (by omega), hw 44 (by omega), hw 46 (by omega)]
  | other => rfl

lemma readDinode_congr (h : ∀ i < 64, p i = q i) : readDinode slot p = readDinode slot q := by
  have hw : ∀ o ≤ 62, getw p o = getw q o := fun o ho => getw_congr fun j hj => h _ (by omega)
  have hl : ∀ o ≤ 60, getl p o = getl q o := fun o ho => getl_congr fun j hj => h _ (by omega)
  unfold readDinode
  dsimp only
  rw [hw 0 (by omega), hw 2 (by omega), hw 4 (by omega), hw 6 (by omega), hl 8 (by omega),
    hl 52 (by omega), hl 56 (by omega), hl 60 (by omega), unionIn_congr fun i hi => h i (by omega)]

lemma icopydm_eq : icopydm slot bp = readDinode slot (bytesFrom bp (iblocko slot.i_ino)) :=
  readDinode_congr fun _ hi => if_pos hi

/-- The inode is in use, so that `icopymd` does not clear it. -/
def Kept (ip : Inode) : Prop :=
  ¬(ip.i_refc = 0 ∧ ip.i_nlink = 0 ∧ ip.i_ino ≠ BADFIN ∧ ip.i_ino ≠ ROOTIN)

instance (ip : Inode) : Decidable (Kept ip) := by unfold Kept; infer_instance

section Write

variable {iclear : Inode → Inode}

/-- What `icopymd` writes is the inode as it leaves it. -/
lemma icopymd_snd (i : ℕ) : (icopymd iclear stack ip bp).2 i =
    if iblocko (icopymd iclear stack ip bp).1.i_ino ≤ i ∧
        i < iblocko (icopymd iclear stack ip bp).1.i_ino + 64 then
      writeDinode stack (icopymd iclear stack ip bp).1 (i - iblocko (icopymd iclear stack ip bp).1.i_ino)
    else bp i := rfl

lemma bytesFrom_icopymd (h : k < 64) :
    bytesFrom (icopymd iclear stack ip bp).2 (iblocko (icopymd iclear stack ip bp).1.i_ino) k =
      writeDinode stack (icopymd iclear stack ip bp).1 k := by
  rw [bytesFrom, icopymd_snd, if_pos (by omega), Nat.add_sub_cancel_left]

theorem same_icopydm (ha : Addressable (icopymd iclear stack ip bp).1)
    (hi : slot.i_ino = (icopymd iclear stack ip bp).1.i_ino) :
    Same (icopymd iclear stack ip bp).1 (icopydm slot (icopymd iclear stack ip bp).2) := by
  rw [icopydm_eq, hi, readDinode_congr fun k hk => bytesFrom_icopymd hk]
  exact same_readDinode ha

/-- **When `icopymd` rewrites the bytes that `icopydm` read.** -/
theorem icopymd_icopydm (hk : Kept (icopydm slot bp))
    (hκ : kind (icopydm slot bp).i_mode.toNat ≠ .other) :
    (icopymd iclear stack (icopydm slot bp) bp).2 = bp ↔
      ∀ k, Spare (kind (icopydm slot bp).i_mode.toNat) k →
        stack k = bp (iblocko (icopydm slot bp).i_ino + k) := by
  have hino : (icopydm slot bp).i_ino = slot.i_ino := rfl
  have hsnd : ∀ i, (icopymd iclear stack (icopydm slot bp) bp).2 i =
      if iblocko slot.i_ino ≤ i ∧ i < iblocko slot.i_ino + 64 then
        writeDinode stack (icopydm slot bp) (i - iblocko slot.i_ino)
      else bp i := by
    intro i
    unfold icopymd
    rw [if_neg hk]
    rfl
  have hw : ∀ k < 64, writeDinode stack (icopydm slot bp) k =
      if Spare (kind (icopydm slot bp).i_mode.toNat) k then stack k
      else bp (iblocko slot.i_ino + k) := by
    intro k hk64
    rw [icopydm_eq] at hκ ⊢
    rw [writeDinode_readDinode rfl hκ hk64]
    rfl
  rw [hino]
  refine ⟨fun h k hs => ?_, fun h => ?_⟩
  · have hr := hs.range
    have hb := hsnd (iblocko slot.i_ino + k)
    rw [if_pos (by omega), Nat.add_sub_cancel_left, hw k (by omega), if_pos hs, h] at hb
    exact hb.symm
  · funext i
    rw [hsnd]
    split_ifs with hi
    · rw [hw _ (by omega)]
      split_ifs with hs
      · rw [h _ hs]
        congr 1
        omega
      · congr 1
        omega
    · rfl

end Write

/-! ### The codecs -/

section Codec

open Coherent.DiskPy (u16 read32 u16_eq read32_eq)

variable {raw : Block} {y : PyInode}

lemma toNat_i16 (p : Block) (o : ℕ) : (UInt16.ofNat (canw (getw p o))).toNat = u16 p o := by
  rw [UInt16.toNat_ofNat', Nat.mod_eq_of_lt (canw_lt _), u16_eq]

lemma toNat_i32 (p : Block) (o : ℕ) : (UInt32.ofNat (canl (getl p o))).toNat = read32 p o := by
  rw [UInt32.toNat_ofNat', Nat.mod_eq_of_lt (canl_lt _), read32_eq]

lemma u16_bytesFrom (o off : ℕ) : u16 (bytesFrom raw off) o = u16 raw (off + o) := rfl

lemma read32_bytesFrom (o off : ℕ) : read32 (bytesFrom raw off) o = read32 raw (off + o) := rfl

/-- The tool reads the fields that `icopydm` reads. -/
theorem stat_icopydm (hi : 1 ≤ slot.i_ino) :
    (stat raw slot.i_ino = none ↔ (icopydm slot raw).i_mode = 0) ∧
      ∀ y, stat raw slot.i_ino = some y → Fields y (icopydm slot raw) ∧
        ∀ j, y.addrs j = l3 (bytesFrom raw (iblocko slot.i_ino)) (12 + 3 * j) := by
  rw [icopydm_eq]
  unfold stat
  rw [if_neg (by omega), inodeOffset_eq]
  have hmode : (readDinode slot (bytesFrom raw (iblocko slot.i_ino))).i_mode.toNat =
      u16 raw (iblocko slot.i_ino) := toNat_i16 _ 0
  have hzero : u16 raw (iblocko slot.i_ino) = 0 ↔
      (readDinode slot (bytesFrom raw (iblocko slot.i_ino))).i_mode = 0 := by
    rw [← hmode, ← UInt16.toNat_inj]
    rfl
  split_ifs with h0
  · exact ⟨iff_of_true rfl (hzero.mp h0), by simp⟩
  · refine ⟨iff_of_false (by simp) (hzero.not.mp h0), ?_⟩
    rintro y ⟨⟩
    refine ⟨⟨rfl, hmode.symm, ?_, ?_, ?_, ?_, ?_, ?_, ?_⟩, fun j => ?_⟩
    iterate 3 simp only [readDinode, toNat_i16, u16_bytesFrom, Nat.add_assoc, Nat.reduceAdd]
    iterate 4 simp only [readDinode, toNat_i32, read32_bytesFrom]
    simp only [read_addr24_eq, Nat.mul_comm j, Nat.add_assoc]
    rfl

lemma addrs_file (hκ : kind (icopydm slot raw).i_mode.toNat = .file) {j : ℕ} (hj : j < NADDR) :
    (icopydm slot raw).i_addr j = l3 (bytesFrom raw (iblocko slot.i_ino)) (12 + 3 * j) := by
  rw [icopydm_eq] at hκ ⊢
  have ha : (readDinode slot (bytesFrom raw (iblocko slot.i_ino))).i_a =
      unionIn slot.i_a (bytesFrom raw (iblocko slot.i_ino)) .file := hκ ▸ rfl
  have := getl_l3tol (p := slot.i_a) (o := 0) (q := bytesFrom raw (iblocko slot.i_ino)) (a := 12) hj
  rw [Nat.zero_add] at this
  rw [Inode.i_addr, ha, unionIn, this]

lemma addrs_pipe (hκ : kind (icopydm slot raw).i_mode.toNat = .pipe) {j : ℕ} (hj : j < ND) :
    (icopydm slot raw).i_addr j = l3 (bytesFrom raw (iblocko slot.i_ino)) (12 + 3 * j) := by
  rw [icopydm_eq] at hκ ⊢
  have ha : (readDinode slot (bytesFrom raw (iblocko slot.i_ino))).i_a =
      unionIn slot.i_a (bytesFrom raw (iblocko slot.i_ino)) .pipe := hκ ▸ rfl
  have h10 : j < 10 := hj
  have := getl_l3tol (p := slot.i_a) (o := 0) (q := bytesFrom raw (iblocko slot.i_ino)) (a := 12) hj
  rw [Nat.zero_add] at this
  rw [Inode.i_addr, ha, unionIn, getl_putw_of_ne (by omega), getl_putw_of_ne (by omega),
    getl_putw_of_ne (by omega), this]

/-- The tool writes back what it read, whatever the inode is. -/
theorem write_inode_stat (hi : 1 ≤ slot.i_ino) (hs : stat raw slot.i_ino = some y) :
    write_inode raw y = raw := by
  obtain ⟨hy, ha⟩ := (stat_icopydm hi).2 y hs
  have hino : y.ino = slot.i_ino := hy.ino
  have hg : ∀ j < NADDR, y.addrs j =
      getl (unionIn slot.i_a (bytesFrom raw (iblocko slot.i_ino)) .file) (4 * j) := by
    intro j hj
    have := getl_l3tol (p := slot.i_a) (o := 0) (q := bytesFrom raw (iblocko slot.i_ino)) (a := 12) hj
    rw [Nat.zero_add] at this
    rw [ha, unionIn, this]
  funext i
  by_cases h : i < inodeOffset y.ino
  · exact write_inode_of_lt h
  obtain ⟨k, rfl⟩ := Nat.exists_eq_add_of_le (not_lt.mp h)
  rw [write_inode_apply hy hg, inodeOffset_eq, hino]
  by_cases h64 : k < 64
  -- the union is read and written as that of a file, with the old bytes on the stack
  · rw [icopydm_eq, parts_back (by simp) h64]
    split_ifs <;> rfl
  · rw [writeTimes, putl_of_ne (by omega), putl_of_ne (by omega), putl_of_ne (by omega),
      unionOut_of_ne (.inr (by omega)), writeHead_of_le (by omega)]
    rfl

end Codec

/-! ### The tool and the kernel write the same -/

lemma putw_congr (h : ¬(o ≤ i ∧ i < o + 2) → p i = q i) : putw p o w i = putw q o w i := by
  unfold putw putws
  split_ifs with hi
  · rfl
  · exact h (by omega)

lemma putl_congr (h : ¬(o ≤ i ∧ i < o + 4) → p i = q i) : putl p o w i = putl q o w i := by
  unfold putl putls
  split_ifs with hi
  · rfl
  · exact h (by omega)

lemma ltol3_congr (h : ¬(o ≤ i ∧ i < o + 3 * n) → p i = q i) :
    ltol3 p o d a n i = ltol3 q o d a n i := by
  unfold ltol3
  split_ifs with hi
  · rfl
  · exact h (by omega)

/-- What the parts of a file's inode do not set is the byte before the times. -/
lemma parts_congr (h : i < 64) (hne : i ≠ 51) :
    writeTimes (unionOut (writeHead p ip) d .file) ip i =
      writeTimes (unionOut (writeHead q ip) d .file) ip i := by
  refine putl_congr fun h60 => putl_congr fun h56 => putl_congr fun h52 => ltol3_congr fun h12 => ?_
  refine putl_congr fun h8 => putw_congr fun h6 => putw_congr fun h4 => putw_congr fun h2 =>
    putw_congr fun h0 => ?_
  unfold NADDR at h12
  omega

/-- **The tool writes the bytes that the kernel writes**, but for the byte the kernel never sets. -/
theorem write_inode_icopymd {iclear : Inode → Inode} {y : PyInode}
    (hκ : kind (icopymd iclear stack ip bp).1.i_mode.toNat = .file)
    (hy : Fields y (icopymd iclear stack ip bp).1)
    (ha : ∀ j < NADDR, y.addrs j = (icopymd iclear stack ip bp).1.i_addr j)
    (hi : i ≠ iblocko (icopymd iclear stack ip bp).1.i_ino + 51) :
    write_inode bp y i = (icopymd iclear stack ip bp).2 i := by
  rw [icopymd_snd]
  by_cases h : i < inodeOffset y.ino
  · rw [write_inode_of_lt h, if_neg]
    rw [hy.ino, inodeOffset_eq] at h
    omega
  obtain ⟨k, rfl⟩ := Nat.exists_eq_add_of_le (not_lt.mp h)
  rw [write_inode_apply hy ha, inodeOffset_eq, hy.ino] at *
  by_cases h64 : k < 64
  · rw [if_pos (by omega), Nat.add_sub_cancel_left, writeDinode, hκ]
    exact parts_congr h64 (by omega)
  · rw [if_neg (by omega), writeTimes, putl_of_ne (by omega), putl_of_ne (by omega),
      putl_of_ne (by omega), unionOut_of_ne (.inr (by omega)), writeHead_of_le (by omega)]
    rfl

/-- **The inode codecs**: what `icopymd` wrote `icopydm` reads back; `icopymd` after `icopydm`
rewrites the bytes just when the stack holds them where it sets none; and the reader and the writer
of `tools/disk.py` agree with both. -/
theorem inode_codec (iclear : Inode → Inode) (stack bp raw : Block) (ip slot : Inode) :
    (Addressable (icopymd iclear stack ip bp).1 →
      slot.i_ino = (icopymd iclear stack ip bp).1.i_ino →
      Same (icopymd iclear stack ip bp).1 (icopydm slot (icopymd iclear stack ip bp).2)) ∧
    (Kept (icopydm slot bp) → kind (icopydm slot bp).i_mode.toNat ≠ .other →
      ((icopymd iclear stack (icopydm slot bp) bp).2 = bp ↔
        ∀ k, Spare (kind (icopydm slot bp).i_mode.toNat) k →
          stack k = bp (iblocko (icopydm slot bp).i_ino + k))) ∧
    (1 ≤ slot.i_ino →
      (stat raw slot.i_ino = none ↔ (icopydm slot raw).i_mode = 0) ∧
      ∀ y, stat raw slot.i_ino = some y → Fields y (icopydm slot raw) ∧ write_inode raw y = raw ∧
        (kind (icopydm slot raw).i_mode.toNat = .file →
          ∀ j < NADDR, y.addrs j = (icopydm slot raw).i_addr j) ∧
        (kind (icopydm slot raw).i_mode.toNat = .pipe →
          ∀ j < ND, y.addrs j = (icopydm slot raw).i_addr j)) ∧
    ∀ y, kind (icopymd iclear stack ip bp).1.i_mode.toNat = .file →
      Fields y (icopymd iclear stack ip bp).1 →
      (∀ j < NADDR, y.addrs j = (icopymd iclear stack ip bp).1.i_addr j) →
      ∀ i, i ≠ iblocko (icopymd iclear stack ip bp).1.i_ino + 51 →
        write_inode bp y i = (icopymd iclear stack ip bp).2 i := by
  refine ⟨same_icopydm, icopymd_icopydm, fun hi => ⟨(stat_icopydm hi).1, fun y hs => ?_⟩,
    fun y hκ hy ha i => write_inode_icopymd hκ hy ha⟩
  obtain ⟨hy, ha⟩ := (stat_icopydm hi).2 y hs
  refine ⟨hy, write_inode_stat hi hs, fun hκ j hj => ?_, fun hκ j hj => ?_⟩
  · rw [ha, addrs_file hκ hj]
  · rw [ha, addrs_pipe hκ hj]

/-- An inode slot, and a block that begins with the inode of an empty file. -/
def aSlot : Inode := ⟨3, 1, 0, 0, 0, 0, 0, 0, 0, zeroBlock, 0, 0, 0⟩

def aBlock : Block := putw zeroBlock (iblocko 3) (canw 0o100644)

/-- With zeros on the stack this inode is written as it was read. -/
theorem inode_codec_zeros : (icopymd id zeroBlock (icopydm aSlot aBlock) aBlock).2 = aBlock := by
  refine ((inode_codec id zeroBlock aBlock aBlock aSlot aSlot).2.1 (by decide +kernel)
    (by decide +kernel)).mpr ?_
  have hκ : kind (icopydm aSlot aBlock).i_mode.toNat = .file := by decide +kernel
  rw [hκ]
  rintro k rfl
  decide +kernel

/-- The byte behind the addresses of a file is written from the stack. -/
theorem byte_51 : ¬∀ iclear stack slot bp, Kept (icopydm slot bp) →
    kind (icopydm slot bp).i_mode.toNat ≠ .other →
    (icopymd iclear stack (icopydm slot bp) bp).2 = bp := by
  intro h
  have hb := congrFun (h id (fun _ => 85) aSlot aBlock (by decide +kernel) (by decide +kernel))
    (iblocko 3 + 51)
  exact absurd hb (by decide +kernel)

end Coherent.InodeCodec
