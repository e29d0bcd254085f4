import Coherent.FileMap

/-!
In-core inodes: the table, the disk inodes behind it, and making and clearing inodes.

The addresses of an in-core inode are a union. A special file has its device number there,
over the high half of the first address, and a pipe has its three counters over the last
three. So the other addresses are whatever the slot held before, unless somebody clears
them. The disk inodes are kept decoded.
-/

namespace Coherent.Itable

open Coherent.Can Coherent.Super Coherent.FreeList Coherent.FileMap

def IFMT : ℕ := 0o170000
def IFDIR : ℕ := 0o040000
def IFCHR : ℕ := 0o020000
def IFBLK : ℕ := 0o060000
def IFREG : ℕ := 0o100000
def IFPIPE : ℕ := 0o010000
def BADFIN : ℕ := 1
def ROOTIN : ℕ := 2
def PIPSIZE : ℕ := ND * BSIZE

/-- An in-core inode. `i_acc`, `i_mod` and `i_crt` are the bits of `i_flag`. -/
structure Inode where
  i_dev : ℕ
  i_ino : ℕ
  i_refc : ℕ
  i_lrt : ℕ
  i_acc : Bool
  i_mod : Bool
  i_crt : Bool
  i_mode : ℕ
  i_nlink : ℕ
  i_size : ℤ
  i_addr : ℕ → ℤ

/-- A disk inode. Which of the fields of its union are meant is up to the mode. -/
structure Dinode where
  di_mode : ℕ
  di_nlink : ℕ
  di_size : ℤ
  di_addr : ℕ → ℤ
  di_rdev : ℕ
  di_pnc : ℕ
  di_prx : ℕ
  di_pwx : ℕ

/-! ### The union -/

def highHalf (v : ℤ) : ℕ := ulong v / 65536
def lowHalf (v : ℤ) : ℕ := ulong v % 65536
def setHigh (v : ℤ) (w : ℕ) : ℤ := long (w % 65536 * 65536 + lowHalf v)
def setLow (v : ℤ) (w : ℕ) : ℤ := long (highHalf v * 65536 + w % 65536)

def i_rdev (a : ℕ → ℤ) : ℕ := highHalf (a 0)
def i_pnc (a : ℕ → ℤ) : ℕ := highHalf (a 10)
def i_prx (a : ℕ → ℤ) : ℕ := lowHalf (a 10)
def i_pwx (a : ℕ → ℤ) : ℕ := highHalf (a 11)
def setRdev (a : ℕ → ℤ) (w : ℕ) : ℕ → ℤ := Function.update a 0 (setHigh (a 0) w)
def setPnc (a : ℕ → ℤ) (w : ℕ) : ℕ → ℤ := Function.update a 10 (setHigh (a 10) w)
def setPrx (a : ℕ → ℤ) (w : ℕ) : ℕ → ℤ := Function.update a 10 (setLow (a 10) w)
def setPwx (a : ℕ → ℤ) (w : ℕ) : ℕ → ℤ := Function.update a 11 (setHigh (a 11) w)

lemma ulong_long {n : ℕ} (h : n < 4294967296) : ulong (long n) = n := by
  unfold ulong long
  split_ifs <;> omega

lemma highHalf_setHigh (v : ℤ) (w : ℕ) : highHalf (setHigh v w) = w % 65536 := by
  unfold highHalf setHigh lowHalf
  rw [ulong_long (by omega)]
  omega

lemma lowHalf_setHigh (v : ℤ) (w : ℕ) : lowHalf (setHigh v w) = lowHalf v := by
  unfold setHigh lowHalf
  rw [ulong_long (by omega)]
  omega

lemma highHalf_lt (v : ℤ) : highHalf v < 65536 := by
  have := ulong_lt v
  unfold highHalf
  omega

lemma highHalf_setLow (v : ℤ) (w : ℕ) : highHalf (setLow v w) = highHalf v := by
  have := highHalf_lt v
  rw [highHalf, setLow, ulong_long (by omega)]
  omega

lemma lowHalf_setLow (v : ℤ) (w : ℕ) : lowHalf (setLow v w) = w % 65536 := by
  have := highHalf_lt v
  rw [lowHalf, setLow, ulong_long (by omega)]
  omega

variable (a : ℕ → ℤ) (w : ℕ)

@[simp] lemma i_pnc_setPnc : i_pnc (setPnc a w) = w % 65536 := by
  simp [i_pnc, setPnc, highHalf_setHigh]
@[simp] lemma i_prx_setPnc : i_prx (setPnc a w) = i_prx a := by
  simp [i_prx, setPnc, lowHalf_setHigh]
@[simp] lemma i_pwx_setPnc : i_pwx (setPnc a w) = i_pwx a := by simp [i_pwx, setPnc]
@[simp] lemma i_pnc_setPrx : i_pnc (setPrx a w) = i_pnc a := by
  simp [i_pnc, setPrx, highHalf_setLow]
@[simp] lemma i_prx_setPrx : i_prx (setPrx a w) = w % 65536 := by
  simp [i_prx, setPrx, lowHalf_setLow]
@[simp] lemma i_pwx_setPrx : i_pwx (setPrx a w) = i_pwx a := by simp [i_pwx, setPrx]
@[simp] lemma i_pnc_setPwx : i_pnc (setPwx a w) = i_pnc a := by simp [i_pnc, setPwx]
@[simp] lemma i_prx_setPwx : i_prx (setPwx a w) = i_prx a := by simp [i_prx, setPwx]
@[simp] lemma i_pwx_setPwx : i_pwx (setPwx a w) = w % 65536 := by
  simp [i_pwx, setPwx, highHalf_setHigh]

/-- The counters are after the addresses of the blocks of a pipe. -/
lemma counters_addr {i : ℕ} (h : i < ND) :
    setPnc a w i = a i ∧ setPrx a w i = a i ∧ setPwx a w i = a i := by
  have h10 : i ≠ 10 := by unfold ND at h; omega
  have h11 : i ≠ 11 := by unfold ND at h; omega
  simp [setPnc, setPwx, setPrx, h10, h11]

/-- How many addresses of an inode are addresses of blocks. -/
def naddr (mode : ℕ) : ℕ :=
  if mode &&& IFMT = IFPIPE then ND
  else if mode &&& IFMT = IFDIR ∨ mode &&& IFMT = IFREG then NADDR
  else 0

/-- The inode table of one file system, and the other things the inode code looks at. -/
structure Vol where
  fs : Fs
  dev : ℕ
  NINODE : ℕ
  inodep : ℕ → Inode
  dinode : ℕ → Dinode
  /-- the answer of `bad` -/
  bad : ℕ → Bool
  t_time : ℕ

def setInode (v : Vol) (j : ℕ) (ip : Inode) : Vol :=
  { v with inodep := Function.update v.inodep j ip }

/-- `iamc` -/
def iamc (ip : Inode) : Inode := { ip with i_acc := true, i_mod := true, i_crt := true }

/-- The first `n` addresses from `f`, the others as they were. -/
def loadAddr (a : ℕ → ℤ) (n : ℕ) (f : ℕ → ℤ) : ℕ → ℤ := fun i => if i < n then f i else a i

/-- The in-core inode after a disk inode has been copied into it. -/
def load (dip : Dinode) (ip : Inode) : Inode :=
  let t := dip.di_mode &&& IFMT
  { ip with
    i_acc := false
    i_mod := false
    i_crt := false
    i_mode := dip.di_mode
    i_nlink := dip.di_nlink
    i_size := dip.di_size
    i_addr :=
      if t = IFBLK ∨ t = IFCHR then setRdev ip.i_addr dip.di_rdev
      else if t = IFREG ∨ t = IFDIR then loadAddr ip.i_addr NADDR dip.di_addr
      else if t = IFPIPE then
        setPwx (setPrx (setPnc (loadAddr ip.i_addr ND dip.di_addr) dip.di_pnc) dip.di_prx) dip.di_pwx
      else fun _ => 0 }

/-- Copy an inode from disk to memory. -/
def icopydm (v : Vol) (ip : Inode) : Inode := load (v.dinode ip.i_ino) ip

/-- The disk inode that `icopymd` writes. `ltol3` keeps three bytes of an address. -/
def toDisk (ip : Inode) : Dinode :=
  let t := ip.i_mode &&& IFMT
  { di_mode := ip.i_mode
    di_nlink := ip.i_nlink
    di_size := ip.i_size
    di_addr i := if i < naddr ip.i_mode then ((ulong (ip.i_addr i) % 2 ^ 24 : ℕ) : ℤ) else 0
    di_rdev := if t = IFBLK ∨ t = IFCHR then i_rdev ip.i_addr else 0
    di_pnc := if t = IFPIPE then i_pnc ip.i_addr else 0
    di_prx := if t = IFPIPE then i_prx ip.i_addr else 0
    di_pwx := if t = IFPIPE then i_pwx ip.i_addr else 0 }

/-- Clear an inode and all space associated with it: the roots of the indirect blocks from
the last to the first, then the direct blocks. -/
def iclear (fs : Fs) (ip : Inode) : Fs × Inode :=
  let n := naddr ip.i_mode
  if n = 0 then (fs, ip)
  else
    let fs := (List.range' ND (n - ND)).reverse.foldl (fun fs i =>
      if ip.i_addr i ≠ 0 then indfree (1 + i - ND) fs (ip.i_addr i) else fs) fs
    let fs := (List.range ND).reverse.foldl (fun fs i =>
      if ip.i_addr i ≠ 0 then bfree fs (ip.i_addr i) else fs) fs
    (fs, iamc { ip with i_size := 0, i_addr := fun _ => 0 })

/-- Free the inode `ino`. -/
def ifree (fs : Fs) (ino : ℕ) : Fs :=
  if fs.m_ron then { fs with u_error := some .EROFS }
  else
    let fs := smod fs
    let sb := fs.m_super
    let sb := if sb.s_ninode < NICINOD then
        { sb with s_inode := Function.update sb.s_inode sb.s_ninode ino, s_ninode := sb.s_ninode + 1 }
      else sb
    { fs with m_super := { sb with s_tinode := (sb.s_tinode + 1) % 65536 } }

/-- The inode is nobody's and has no name, so its space can be freed. -/
def unused (ip : Inode) : Prop :=
  ip.i_refc = 0 ∧ ip.i_nlink = 0 ∧ ip.i_ino ≠ BADFIN ∧ ip.i_ino ≠ ROOTIN

instance (ip : Inode) : Decidable (unused ip) := by unfold unused; infer_instance

/-- Copy inode slot `j` back to disk. On a read-only file system nothing happens. -/
def icopymd (v : Vol) (j : ℕ) : Vol :=
  if v.fs.m_ron then v
  else
    let ip := v.inodep j
    let r : Fs × Inode :=
      if unused ip then
        (ifree (iclear v.fs ip).1 ip.i_ino, { (iclear v.fs ip).2 with i_lrt := 0, i_mode := 0 })
      else (v.fs, ip)
    { v with
      fs := r.1
      dinode := Function.update v.dinode ip.i_ino (toDisk r.2)
      inodep := Function.update v.inodep j
        { r.2 with i_acc := false, i_mod := false, i_crt := false } }

/-- The slot that holds inode `ino` of this file system. -/
def slotOf (v : Vol) (ino : ℕ) : Option ℕ :=
  (List.range v.NINODE).find? fun j => (v.inodep j).i_ino = ino ∧ (v.inodep j).i_dev = v.dev

/-- The free slot that `iattach` takes: the least recently used, the first of several. -/
def victim (v : Vol) : Option ℕ :=
  (List.range v.NINODE).foldl (fun fip j =>
    if (v.inodep j).i_refc = 0 then
      match fip with
      | none => some j
      | some f => if (v.inodep j).i_lrt < (v.inodep f).i_lrt then some j else some f
    else fip) none

/-- The slot of inode `ino`, in core and counted. -/
def iattach (v : Vol) (ino : ℕ) : Option ℕ × Vol :=
  match slotOf v ino with
  | some j => (some j, setInode v j
      { v.inodep j with i_refc := (v.inodep j).i_refc + 1, i_lrt := v.t_time })
  | none =>
    match victim v with
    | none => (none, { v with fs := { devmsg v.fs "Inode table overflow" with u_error := some .ENFILE } })
    | some j => (some j, setInode v j (icopydm v
        { v.inodep j with i_dev := v.dev, i_ino := ino, i_refc := 1, i_lrt := v.t_time }))

/-- Deaccess the inode in slot `j`. -/
def idetach (v : Vol) (j : ℕ) : Vol :=
  let ip := { v.inodep j with i_refc := (v.inodep j).i_refc - 1 }
  let v := setInode v j ip
  if ip.i_refc = 0 ∧ (ip.i_acc ∨ ip.i_mod ∨ ip.i_crt ∨ ip.i_nlink = 0) then icopymd v j else v

/-- How many inodes the file system has. -/
def ninodes (fs : Fs) : ℕ := (fs.m_super.s_isize - INODEI) * INOPB

/-- The free inodes that the scan of `ialloc` finds on the disk. -/
def freeInodes (v : Vol) : List ℕ :=
  ((List.range' 1 (ninodes v.fs)).filter fun ino =>
    !v.bad (INODEI + (ino - 1) / INOPB) && (v.dinode ino).di_mode == 0).take NICINOD

/-- The super block of `ialloc` when it looks at the list of free inodes. -/
def refilled (v : Vol) : Fs :=
  let fs := smod v.fs
  if fs.m_super.s_ninode = 0 then
    { fs with m_super := { fs.m_super with
      s_inode := fun i => (freeInodes v).getD i 0, s_ninode := (freeInodes v).length } }
  else fs

/-- One turn of the loop of `ialloc`: a slot for a new inode, nothing if there are no free
inodes, if the table is full or if the inode turns out to be in use. -/
def ialloc (v : Vol) (mode : ℕ) : Option ℕ × Vol :=
  if v.fs.m_ron then (none, { v with fs := { v.fs with u_error := some .EROFS } })
  else
    let fs := refilled v
    let sb := fs.m_super
    if sb.s_ninode = 0 then
      (none, { v with fs := { devmsg { fs with m_super := { sb with s_tinode := 0 } }
        "Out of inodes" with u_error := some .ENOSPC } })
    else
      let ino := sb.s_inode (sb.s_ninode - 1)
      let fs := smod { fs with m_super := { sb with
        s_ninode := sb.s_ninode - 1, s_tinode := (sb.s_tinode + 65535) % 65536 } }
      match iattach { v with fs := fs } ino with
      | (none, v) => (none, { v with fs := ifree v.fs ino })
      | (some j, v) =>
        if (v.inodep j).i_mode ≠ 0 then
          (none, idetach { v with fs := devmsg v.fs ("Inode " ++ toString ino ++ " busy") } j)
        else (some j, setInode v j { v.inodep j with
          i_acc := false, i_mod := false, i_crt := false, i_mode := mode, i_nlink := 0 })

/-- Make an inode of the given mode and device. -/
def imake (v : Vol) (mode rdev : ℕ) : Option ℕ × Vol :=
  match ialloc v mode with
  | (none, v) => (none, v)
  | (some j, v) => (some j, setInode v j (iamc { v.inodep j with
      i_nlink := 1, i_addr := setRdev (v.inodep j).i_addr rdev }))

/-- Create a pipe inode. -/
def pmake (v : Vol) (mode : ℕ) : Option ℕ × Vol :=
  match ialloc v (IFPIPE ||| mode) with
  | (none, v) => (none, v)
  | (some j, v) =>
    let r := iclear v.fs (v.inodep j)
    (some j, setInode { v with fs := r.1 } j { r.2 with
      i_addr := setPwx (setPrx (setPnc r.2.i_addr 0) 0) 0 })

/-- Copy all relevant inodes out. -/
def isync (v : Vol) : Vol :=
  (List.range v.NINODE).foldl (fun v j =>
    let ip := v.inodep j
    if ip.i_refc = 0 ∨ ip.i_dev ≠ v.dev ∨ (!ip.i_acc && !ip.i_mod && !ip.i_crt) ∨
        ip.i_mode &&& IFMT = IFCHR then v
    else icopymd v j) v

/-- `iclear` of the inode in slot `j`. -/
def clear (v : Vol) (j : ℕ) : Vol :=
  let r := iclear v.fs (v.inodep j)
  setInode { v with fs := r.1 } j r.2

/-- What `ulink` does to the inode. -/
def link (v : Vol) (j : ℕ) : Vol :=
  setInode v j { v.inodep j with i_nlink := ((v.inodep j).i_nlink + 1) % 65536, i_crt := true }

/-- What `uunlink` does to the inode. The link count is an `int`. -/
def unlink (v : Vol) (j : ℕ) : Vol :=
  let n := (v.inodep j).i_nlink
  setInode v j { v.inodep j with
    i_nlink := if 0 < n ∧ n < 32768 then n - 1 else n, i_crt := true }

/-- What `uchmod` does to the inode. -/
def chmod (v : Vol) (j mode : ℕ) : Vol :=
  setInode v j { v.inodep j with
    i_mode := (v.inodep j).i_mode &&& IFMT ||| mode &&& 0o7777, i_crt := true }

end Coherent.Itable
