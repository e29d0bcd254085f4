import Coherent.Can

/-!
The mounted file system: its super block, in core and on the disk, and the device behind it.

The device is seen through the buffer cache, so it is a function from block numbers to
blocks; `rdok` says which blocks a read gets without an error.
-/

namespace Coherent.Super

open Coherent.Can

def NICFREE : ℕ := 64
def NICINOD : ℕ := 100
def INOPB : ℕ := 8
def SUPERI : ℤ := 1
def INODEI : ℕ := 2
def FSCLEAN : ℕ := 0
def FSDIRTY : ℕ := 1

/-- The errors the modelled code stores in `u.u_error`. -/
inductive Errno
  | EIO | ENXIO | ENFILE | ENOSPC | EROFS | EFBIG | EFAULT | ENOENT | EACCES | ENOTDIR | EPIPE
  | EEXIST | EMFILE | EBADF | EINVAL | EINTR
  deriving DecidableEq, Repr

/-- The in-core super block `struct filsys`, less the fields the kernel only copies. -/
structure Filsys where
  s_isize : ℕ
  s_fsize : ℤ
  s_nfree : ℕ
  s_free : ℕ → ℤ
  s_ninode : ℕ
  s_inode : ℕ → ℕ
  s_dirty : ℕ
  s_fmod : ℕ
  s_time : ℤ
  s_tfree : ℤ
  s_tinode : ℕ
  s_unique : ℤ

/-- The super block in the bytes of block `SUPERI`, after `cansuper`. -/
def getSuper (p : Block) : Filsys where
  s_isize := canw (getw p 0)
  s_fsize := long (canl (getl p 2))
  s_nfree := canw (getw p 6)
  s_free i := long (canl (getl p (8 + 4 * i)))
  s_ninode := canw (getw p 264)
  s_inode i := canw (getw p (266 + 2 * i))
  s_dirty := (p 466).toNat
  s_fmod := (p 468).toNat
  s_time := long (canl (getl p 470))
  s_tfree := long (canl (getl p 474))
  s_tinode := canw (getw p 478)
  s_unique := long (canl (getl p 496))

/-- The bytes `superwrite` and `mssync` build for block `SUPERI`. -/
def putSuper (sb : Filsys) (p : Block) : Block :=
  let p := putw p 0 (canw sb.s_isize)
  let p := putl p 2 (canl (ulong sb.s_fsize))
  let p := putw p 6 (canw sb.s_nfree)
  let p := putls p 8 NICFREE fun i => canl (ulong (sb.s_free i))
  let p := putw p 264 (canw sb.s_ninode)
  let p := putws p 266 NICINOD fun i => canw (sb.s_inode i)
  let p := Function.update p 466 (UInt8.ofNat sb.s_dirty)
  let p := Function.update p 468 (UInt8.ofNat sb.s_fmod)
  let p := putl p 470 (canl (ulong sb.s_time))
  let p := putl p 474 (canl (ulong sb.s_tfree))
  let p := putw p 478 (canw sb.s_tinode)
  putl p 496 (canl (ulong sb.s_unique))

/-- One mounted file system and the error state of the calling process. -/
structure Fs where
  m_super : Filsys
  /-- `m_flag & MFRON` -/
  m_ron : Bool
  disk : ℤ → Block
  rdok : ℤ → Bool
  u_error : Option Errno
  /-- what `devmsg` printed -/
  msg : List String

def devmsg (fs : Fs) (m : String) : Fs := { fs with msg := fs.msg ++ [m] }

/-- `bread(dev, b, 1)`: the contents of the buffer, or an error. -/
def bread (fs : Fs) (b : ℤ) : Option Block := if fs.rdok b then some (fs.disk b) else none

/-- A block whose buffer was changed and released. -/
def bput (fs : Fs) (b : ℤ) (p : Block) : Fs := { fs with disk := Function.update fs.disk b p }

def superwrite (fs : Fs) : Fs := bput fs SUPERI (putSuper fs.m_super (fs.disk SUPERI))

/-- The file system is about to be modified: the first time, say so on the disk. -/
def smod (fs : Fs) : Fs :=
  if fs.m_super.s_fmod = 0 then
    superwrite { fs with m_super := { fs.m_super with s_fmod := 1, s_dirty := FSDIRTY } }
  else fs

@[simp] lemma smod_isize (fs : Fs) : (smod fs).m_super.s_isize = fs.m_super.s_isize := by
  unfold smod; split <;> rfl
@[simp] lemma smod_fsize (fs : Fs) : (smod fs).m_super.s_fsize = fs.m_super.s_fsize := by
  unfold smod; split <;> rfl
@[simp] lemma smod_nfree (fs : Fs) : (smod fs).m_super.s_nfree = fs.m_super.s_nfree := by
  unfold smod; split <;> rfl
@[simp] lemma smod_free (fs : Fs) : (smod fs).m_super.s_free = fs.m_super.s_free := by
  unfold smod; split <;> rfl
@[simp] lemma smod_tfree (fs : Fs) : (smod fs).m_super.s_tfree = fs.m_super.s_tfree := by
  unfold smod; split <;> rfl
@[simp] lemma smod_ninode (fs : Fs) : (smod fs).m_super.s_ninode = fs.m_super.s_ninode := by
  unfold smod; split <;> rfl
@[simp] lemma smod_inode (fs : Fs) : (smod fs).m_super.s_inode = fs.m_super.s_inode := by
  unfold smod; split <;> rfl
@[simp] lemma smod_error (fs : Fs) : (smod fs).u_error = fs.u_error := by
  unfold smod; split <;> rfl
@[simp] lemma smod_ron (fs : Fs) : (smod fs).m_ron = fs.m_ron := by unfold smod; split <;> rfl
@[simp] lemma smod_rdok (fs : Fs) : (smod fs).rdok = fs.rdok := by unfold smod; split <;> rfl

/-- Marking the file system dirty touches no block but the super block. -/
lemma smod_disk {fs : Fs} {b : ℤ} (h : b ≠ SUPERI) : (smod fs).disk b = fs.disk b := by
  unfold smod
  split
  · simp [superwrite, bput, Function.update_of_ne h]
  · rfl

end Coherent.Super
