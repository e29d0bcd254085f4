import Coherent.Super

/-!
The free block list: `balloc` and `bfree`.

The list lives half in the super block and half in the free blocks themselves. The super
block caches up to `NICFREE` block numbers, handed out from the top; the bottom one heads
the rest of the list, which is cached in that very block as a `struct fblk`. The list ends
in an empty `fblk` or in a block number zero.
-/

namespace Coherent.FreeList

open Coherent.Can Coherent.Super

/-- `df_nfree` of the free block in the buffer. -/
def df_nfree (p : Block) : ℕ := canw (getw p 0)

/-- `s_free` after the refill: all entries are copied, the first `df_nfree` canonized. -/
def df_free (p : Block) (i : ℕ) : ℤ :=
  if i < df_nfree p then long (canl (getl p (2 + 4 * i))) else long (getl p (2 + 4 * i))

/-- The free block that `bfree` makes of the cache. -/
def fblk (n : ℕ) (free : ℕ → ℤ) : Block :=
  putls (putw (fun _ => 0) 0 (canw n)) 2 NICFREE fun i =>
    if i < n then canl (ulong (free i)) else ulong (free i)

/-- The label `enospc` of `balloc`. -/
def enospc (fs : Fs) : ℤ × Fs :=
  (0, { devmsg { fs with m_super := { fs.m_super with s_nfree := 0 } } "Out of space" with
        u_error := some .ENOSPC })

/-- The label `ebadflist` of `balloc`. -/
def ebadflist (fs : Fs) : ℤ × Fs := enospc (devmsg fs "Bad free list")

/-- The end of `balloc`, with `b` taken off the cache. -/
def ballocEnd (fs : Fs) (b : ℤ) : ℤ × Fs :=
  let sb := { fs.m_super with s_tfree := fs.m_super.s_tfree - 1 }
  if b ≥ sb.s_fsize ∨ b < sb.s_isize then
    ebadflist { fs with m_super := { sb with s_tfree := sb.s_tfree + 1 } }
  else (b, smod { fs with m_super := sb })

/-- Allocate a block. -/
def balloc (fs : Fs) : ℤ × Fs :=
  if fs.m_ron then (0, { fs with u_error := some .EROFS })
  else if fs.m_super.s_nfree = 0 then enospc fs
  else
    let fs := smod fs
    let n := fs.m_super.s_nfree - 1
    let b := fs.m_super.s_free n
    let fs := { fs with m_super := { fs.m_super with s_nfree := n } }
    if b = 0 then enospc fs
    else if n = 0 then
      if b ≥ fs.m_super.s_fsize ∨ b < fs.m_super.s_isize then ebadflist fs
      else
        match bread fs b with
        | none => ebadflist fs
        | some bp =>
          let fs := { fs with m_super := { fs.m_super with s_nfree := df_nfree bp } }
          if df_nfree bp > NICFREE then ebadflist fs
          else ballocEnd { fs with m_super := { fs.m_super with s_free := df_free bp } } b
    else ballocEnd fs b

/-- Free the block `b`. -/
def bfree (fs : Fs) (b : ℤ) : Fs :=
  if fs.m_ron then { fs with u_error := some .EROFS }
  else if b ≥ fs.m_super.s_fsize ∨ b < fs.m_super.s_isize then 
    devmsg fs ("Bad block " ++ toString (ulong b % 65536) ++ " (free)")
  else
    let fs :=
      if fs.m_super.s_nfree = 0 ∨ fs.m_super.s_nfree = NICFREE then
        bput { fs with m_super := { fs.m_super with s_nfree := 0 } } b
          (fblk fs.m_super.s_nfree fs.m_super.s_free)
      else fs
    let sb := fs.m_super
    smod { fs with m_super := { sb with
      s_free := Function.update sb.s_free sb.s_nfree b
      s_nfree := sb.s_nfree + 1
      s_tfree := sb.s_tfree + 1 } }

end Coherent.FreeList
