import Coherent.Inode

/-!
Reading and writing files: `fread` and `fwrite`, and the turns of the loops of `pread` and
`pwrite`.

An `IO` to write from is the list of the bytes at `io_base`, so `io_ioc` is its length; an
`IO` to read to has the bytes that have arrived, by which `io_base` has moved. A copy that
faults moves what it can and leaves `EFAULT`. The file is not a block special file.
-/

namespace Coherent.FileIo

open Coherent.Can Coherent.Super Coherent.FreeList Coherent.FileMap Coherent.Itable
open Coherent.Super.Errno ( ENXIO)

def NEXREAD : ℕ := 4

/-- What is still to be written, and how much of it can be copied before a fault. -/
structure Source where
  io_seek : ℕ
  io_data : List UInt8
  io_good : ℕ

/-- What has been read, how much is still to be read, and how much of that can be copied
before a fault. -/
structure Sink where
  io_seek : ℕ
  io_out : List UInt8
  io_ioc : ℕ
  io_good : ℕ

/-- The block after bytes have been copied to offset `off`. -/
def copyIn (p : Block) (off : ℕ) (bs : List UInt8) : Block := fun i =>
  if off ≤ i ∧ i < off + bs.length then bs.getD (i - off) 0 else p i

/-- `ioread` of `n` bytes into the buffer of block `b` at offset `off`. -/
def ioread (fs : Fs) (iop : Source) (b : ℤ) (off n : ℕ) : Fs × Source :=
  let m := min n iop.io_good
  let fs := bput fs b (copyIn (fs.disk b) off (iop.io_data.take m))
  (if m < n then { fs with u_error := some .EFAULT } else fs,
    { iop with io_data := iop.io_data.drop m, io_good := iop.io_good - m })

/-- The loop of `fwrite`, at offset `off` of block `lbn`. -/
def fwriteLoop (fs : Fs) (ip : Inode) (iop : Source) (lbn : ℕ) (off : Fin BSIZE) :
    Fs × Inode × Source :=
  if h : iop.io_data = [] then (fs, ip, iop)
  else
    let n := min (BSIZE - off) iop.io_data.length
    let com : Bool := off.val = 0 ∧ n = BSIZE
    let r := aread fs ip.i_addr lbn com
    let ip := { ip with i_addr := r.2.2 }
    match r.1 with
    | none => (r.2.1, ip, iop)
    | some b =>
      let s := ioread r.2.1 iop b off n
      if hm : n ≤ iop.io_good ∧ s.1.u_error = none then
        let seek := iop.io_seek + n
        fwriteLoop s.1 { ip with i_size := if (seek : ℤ) > ip.i_size then seek else ip.i_size }
          { s.2 with io_seek := seek } (lbn + 1) ⟨0, by decide⟩
      else (s.1, ip, s.2)
  termination_by iop.io_data.length
  decreasing_by
    have hlt := off.isLt
    have hpos : 0 < iop.io_data.length := List.length_pos_of_ne_nil h
    simp only [ioread, List.length_drop]
    omega

/-- Write to a regular file or a directory, or to the blocks of a pipe. -/
def fwrite (fs : Fs) (ip : Inode) (iop : Source) : Fs × Inode × Source :=
  fwriteLoop fs ip iop (iop.io_seek / BSIZE)
    ⟨iop.io_seek % BSIZE, Nat.mod_lt _ (by decide)⟩

/-- `iowrite` of `n` bytes from a buffer at offset `off`. -/
def iowrite (fs : Fs) (iop : Sink) (p : Block) (off n : ℕ) : Fs × Sink :=
  let m := min n iop.io_good
  (if m < n then { fs with u_error := some .EFAULT } else fs,
    { iop with
      io_out := iop.io_out ++ (List.range m).map fun i => p (off + i)
      io_ioc := iop.io_ioc - m
      io_good := iop.io_good - m })

/-- The buffer of block `lb` of a file, cleared for a hole. -/
def vread (fs : Fs) (a : ℕ → ℤ) (lb : ℕ) : Option Block × Fs :=
  let r := vmap fs a lb
  if r.1 < 0 then (none, r.2)
  else if r.1 ≠ 0 then (bread r.2 r.1, r.2)
  else (some zeroBlock, r.2)

/-- The physical blocks of `n` blocks of a file from `zbn` on, -1 for a hole. -/
def readList (fs : Fs) (a : ℕ → ℤ) : ℕ → ℕ → Option (List ℤ) × Fs
  | _, 0 => (some [], fs)
  | zbn, n + 1 =>
    let r := vmap fs a zbn
    if r.1 < 0 then (none, r.2)
    else
      let s := readList r.2 a (zbn + 1) n
      (s.1.map fun ls => (if r.1 = 0 then -1 else r.1) :: ls, s.2)

/-- The loop of `fread`, with the blocks from `abn` up to `zbn` in the list. -/
def freadLoop (fs : Fs) (a : ℕ → ℤ) (iop : Sink) (lbn : ℕ) (off : Fin BSIZE) (res abn zbn : ℕ)
    (list : List ℤ) : Fs × Sink :=
  if h : res = 0 then (fs, iop)
  else
    let fill : Bool := zbn ≤ lbn
    let n := min ((res + BSIZE - 1) / BSIZE) NEXREAD
    let r := if fill then readList fs a lbn n else (some list, fs)
    let abn := if fill then lbn else abn
    let zbn := if fill then lbn + n else zbn
    match r with
    | (none, fs) => (fs, iop)
    | (some list, fs) =>
      let pbn := list.getD (lbn - abn) 0
      match (if pbn < 0 then some zeroBlock else bread fs pbn) with
      | none => (fs, iop)
      | some bp =>
        let n := min (BSIZE - off) res
        let s := iowrite fs iop bp off n
        if s.1.u_error ≠ none then s
        else freadLoop s.1 a s.2 (lbn + 1) ⟨0, by decide⟩ (res - n) abn zbn list
  termination_by res
  decreasing_by
    have hlt := off.isLt
    omega

/-- Read from a regular file or a directory, or from the blocks of a pipe. -/
def fread (fs : Fs) (ip : Inode) (iop : Sink) : Fs × Sink :=
  let lbn := iop.io_seek / BSIZE
  let off := iop.io_seek % BSIZE
  let res : ℤ :=
    if ip.i_size - iop.io_seek > iop.io_ioc then iop.io_ioc else ip.i_size - iop.io_seek
  if res ≤ 0 then (fs, iop)
  else if res + off ≤ BSIZE then
    match vread fs ip.i_addr lbn with
    | (none, fs) => (fs, iop)
    | (some bp, fs) => iowrite fs iop bp off res.toNat
  else freadLoop fs ip.i_addr iop lbn ⟨off, Nat.mod_lt _ (by decide)⟩ res.toNat 0 0 []

/-! ### Pipes -/

/-- One turn of the loop of `pwrite`. Where the pipe is full the source sleeps, and the turn
changes nothing. -/
def pwriteTurn (fs : Fs) (ip : Inode) (iop : Source) : Fs × Inode × Source :=
  if ip.i_refc < 2 ∧ ip.i_nlink = 0 then ({ fs with u_error := some .EPIPE }, ip, iop)
  else
    let n := min (min (PIPSIZE - i_pwx ip.i_addr) iop.io_data.length) (PIPSIZE - i_pnc ip.i_addr)
    let r := fwrite fs ip ⟨i_pwx ip.i_addr, iop.io_data.take n, iop.io_good⟩
    let n := n - r.2.2.io_data.length
    let a := r.2.1.i_addr
    let pwx := i_pwx a + n
    let a := setPwx a (if pwx = PIPSIZE then 0 else pwx)
    (r.1, { r.2.1 with i_addr := setPnc a (i_pnc a + n) },
      ⟨r.2.2.io_seek, iop.io_data.drop n, r.2.2.io_good⟩)

/-- One turn of the loop of `pread`, with `iop` for at most `ioc` bytes. -/
def preadTurn (fs : Fs) (ip : Inode) (iop : Sink) : Fs × Inode × Sink :=
  let n := min (min (PIPSIZE - i_prx ip.i_addr) iop.io_ioc) (i_pnc ip.i_addr)
  let r := fread fs ip { iop with io_seek := i_prx ip.i_addr, io_ioc := n }
  let n := n - r.2.io_ioc
  let a := ip.i_addr
  let prx := i_prx a + n
  let a := setPrx a (if prx = PIPSIZE then 0 else prx)
  (r.1, { ip with i_addr := setPnc a (i_pnc a - n) }, { r.2 with io_ioc := iop.io_ioc - n })

/-! ### Operations on a slot of the inode table -/

/-- Write to the inode in slot `j`. What is written to a special file goes to another device;
of a pipe it is one turn of the loop. -/
def iwrite (v : Vol) (j : ℕ) (iop : Source) : Vol × Source :=
  let ip := { v.inodep j with i_mod := true, i_crt := true }
  let t := ip.i_mode &&& IFMT
  if iop.io_data = [] ∨ t = IFCHR ∨ t = IFBLK then (setInode v j ip, iop)
  else if t = IFREG ∨ t = IFDIR then
    if v.fs.m_ron then ({ setInode v j ip with fs := { v.fs with u_error := some .EROFS } }, iop)
    else
      let r := fwrite v.fs ip iop
      ({ setInode v j r.2.1 with fs := r.1 }, r.2.2)
  else if t = IFPIPE then
    let r := pwriteTurn v.fs ip iop
    ({ setInode v j r.2.1 with fs := r.1 }, r.2.2)
  else ({ setInode v j ip with fs := { v.fs with u_error := some ENXIO } }, iop)

/-- One turn of the loop of `pread` on the pipe in slot `j`. -/
def pread (v : Vol) (j : ℕ) (iop : Sink) : Vol × Sink :=
  let r := preadTurn v.fs (v.inodep j) iop
  ({ setInode v j r.2.1 with fs := r.1 }, r.2.2)

end Coherent.FileIo
