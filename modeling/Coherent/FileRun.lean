import Coherent.Contents

/-!
Runs of reads and writes on the files of a volume, against arrays of bytes.

The abstract files are named by inode numbers. A write that ends without an error replaces its
range in one of them, a read delivers what is there, and the files of all other inodes,
whatever their type, keep every byte.
-/

namespace Coherent.FileIo

open Coherent.Can Coherent.Super Coherent.FreeList Coherent.FileMap Coherent.Itable Coherent.Lib

variable {v v' : Vol} {l l' : List ℤ} {j ino : ℕ}

/-! ### The files of a volume -/

/-- The file of an inode of any type: the bytes behind those of its addresses that are
addresses of blocks. -/
def fileOf (disk : ℤ → Block) (mode : ℕ) (size : ℤ) (a : ℕ → ℤ) : File where
  size := size
  bytes o :=
    match lmap (o / BSIZE) with
    | some (i :: _) => if i < naddr mode then byte disk a o else 0
    | _ => 0

/-- The file of inode `ino`. -/
def files (v : Vol) (ino : ℕ) : File :=
  match slotOf v ino with
  | some j => fileOf v.fs.disk (v.inodep j).i_mode (v.inodep j).i_size (v.inodep j).i_addr
  | none => fileOf v.fs.disk (v.dinode ino).di_mode (v.dinode ino).di_size (v.dinode ino).di_addr

/-- The file of a regular file is all of its bytes. -/
lemma fileOf_regular {disk : ℤ → Block} {ip : Inode} (h : naddr ip.i_mode = NADDR) :
    fileOf disk ip.i_mode ip.i_size ip.i_addr = contents disk ip := by
  refine File.ext rfl (funext fun o => ?_)
  simp only [fileOf, contents, h]
  cases hlb : lmap (o / BSIZE) with
  | none => rw [byte, vblock, hlb]; rfl
  | some r =>
    obtain ⟨i, p, rfl, hi, -⟩ := lmap_some hlb
    dsimp only
    rw [if_pos hi]

/-- A file depends on its own blocks only. -/
lemma fileOf_congr {disk disk' : ℤ → Block} {mode : ℕ} {size : ℤ} {a : ℕ → ℤ}
    (h : ∀ c ∈ roots disk (naddr mode) a, disk' c = disk c) :
    fileOf disk' mode size a = fileOf disk mode size a := by
  refine File.ext rfl (funext fun o => ?_)
  simp only [fileOf]
  cases hlb : lmap (o / BSIZE) with
  | none => rfl
  | some r =>
    obtain ⟨i, p, rfl, -⟩ := lmap_some hlb
    obtain ⟨-, hlen, hp, -⟩ := lmap_cons hlb
    dsimp only
    split_ifs with hi
    · have hv : vblock disk' a (o / BSIZE) = vblock disk a (o / BSIZE) := by
        rw [vblock_eq hlb, vblock_eq hlb]
        refine Radix.follow_congr hp fun c hc => ents_congr (h c ?_)
        rw [hlen] at hc
        exact Multiset.mem_of_le (root_le hi) hc
      rw [byte, byte, hv]
      by_cases h0 : vblock disk a (o / BSIZE) = 0
      · rw [if_pos h0, if_pos h0]
      · rw [if_neg h0, if_neg h0, h _ (vblock_mem hlb hi h0)]
    · rfl

/-! ### One operation -/

/-- Slot `j` holds the regular file `ino`, in use. -/
structure Regular (v : Vol) (j ino : ℕ) : Prop where
  used : InUse v j
  ino : (v.inodep j).i_ino = ino
  reg : (v.inodep j).i_mode &&& IFMT = IFREG

lemma Regular.holds (h : Regular v j ino) : Holds v j ino := ⟨h.used.lt, h.ino, h.used.dev⟩

lemma Regular.ne_zero (h : Regular v j ino) : ino ≠ 0 := by
  rw [← h.ino]
  exact h.used.ino

lemma Regular.naddr (h : Regular v j ino) : naddr (v.inodep j).i_mode = NADDR :=
  naddr_file (Or.inl h.reg)

lemma Regular.files (h : Regular v j ino) (ho : Owned v l) :
    files v ino = contents v.fs.disk (v.inodep j) := by
  rw [FileIo.files, ho.slotOf_eq h.ne_zero h.holds]
  exact fileOf_regular h.naddr

lemma Regular.sound (h : Regular v j ino) (ho : Owned v l) :
    Sound v.fs l NADDR (v.inodep j).i_addr := by
  have := ho.sound h.ne_zero h.holds
  rwa [h.naddr] at this

/-- The file in slot `j` has become `ip`, and only its blocks and free ones have changed. -/
lemma files_update {gs : Fs} {ip : Inode} (h : Regular v j ino) (ho : Owned v l)
    (hk : Kept v.fs l NADDR (v.inodep j).i_addr gs l' ip.i_addr) (hino : ip.i_ino = ino)
    (hdev : ip.i_dev = v.dev) (hmode : ip.i_mode = (v.inodep j).i_mode) :
    files { setInode v j ip with fs := gs } ino = contents gs.disk ip ∧
      ∀ k ∈ Finset.Icc 1 (ninodes v.fs), k ≠ ino →
        files { setInode v j ip with fs := gs } k = files v k := by
  have hslot : ∀ k, slotOf { setInode v j ip with fs := gs } k = slotOf v k := by
    intro k
    refine slotOf_congr rfl rfl fun i => ?_
    by_cases hi : i = j
    · subst hi
      simp [setInode, hino, hdev, h.ino, h.used.dev]
    · simp [setInode, Function.update_of_ne hi]
  constructor
  · rw [files, hslot, ho.slotOf_eq h.ne_zero h.holds]
    simp only [setInode, Function.update_self]
    exact fileOf_regular (by rw [hmode]; exact h.naddr)
  · intro k hk' hne
    have hframe : ∀ c ∈ owns v k, gs.disk c = v.fs.disk c := by
      intro c hc
      obtain ⟨h1, h2⟩ := ho.other (ho.mem_icc h.ne_zero h.holds) hk' hne hc
      refine hk.frame c ?_ h2
      rw [ho.owns_eq h.ne_zero h.holds, h.naddr] at h1
      exact h1
    rw [files, files, hslot]
    rw [owns, current] at hframe
    cases hs : slotOf v k with
    | none =>
      rw [hs] at hframe
      exact fileOf_congr hframe
    | some i =>
      rw [hs] at hframe
      have hi : i ≠ j := by
        rintro rfl
        exact hne ((slotOf_some hs).2.1.symm.trans h.ino)
      simp only [setInode, Function.update_of_ne hi]
      exact fileOf_congr hframe

/-- The inode when `iwrite` calls `fwrite`. -/
def touched (ip : Inode) : Inode := { ip with i_mod := true, i_crt := true }

/-- `iwrite` on a regular file is `fwrite`. -/
lemma iwrite_regular (h : Regular v j ino) (ho : Owned v l) (iop : Source) :
    (iwrite v j iop).1 = { setInode v j (fwrite v.fs (touched (v.inodep j)) iop).2.1 with
      fs := (fwrite v.fs (touched (v.inodep j)) iop).1 } := by
  have ht : (v.inodep j).i_mode &&& IFMT = IFREG := h.reg
  have hno : ¬ (IFREG = IFCHR ∨ IFREG = IFBLK) := by decide
  have hron : ¬ v.fs.m_ron = true := by simp [ho.live.ron]
  unfold iwrite
  simp only [ht, hno, or_false, true_or, if_true, hron]
  by_cases hnil : iop.io_data = []
  · rw [if_pos hnil, fwrite, fwriteLoop, dif_pos hnil]
    rfl
  · rw [if_neg hnil]
    rfl

/-- A write without an error replaces its range in one file. -/
lemma files_iwrite (h : Regular v j ino) (ho : Owned v l) (iop : Source)
    (he : (iwrite v j iop).1.fs.u_error = none) :
    files (iwrite v j iop).1 ino = (files v ino).write iop.io_seek iop.io_data ∧
      (∀ k ∈ Finset.Icc 1 (ninodes v.fs), k ≠ ino → files (iwrite v j iop).1 k = files v k) ∧
      ninodes (iwrite v j iop).1.fs = ninodes v.fs := by
  have hsound : Sound v.fs l NADDR (touched (v.inodep j)).i_addr := h.sound ho
  rw [iwrite_regular h ho] at he ⊢
  obtain ⟨l', hk, hsame, -⟩ := fwrite_kept _ iop hsound fun lb i p _ hlb => (lmap_cons hlb).1
  have hdm := Nat.div_add_mod iop.io_seek BSIZE
  rw [Nat.mul_comm] at hdm
  obtain ⟨hc, -⟩ := fwriteLoop_contents hsound
    (show iop.io_seek = _ + ((⟨iop.io_seek % BSIZE, Nat.mod_lt _ (by decide)⟩ : Fin BSIZE) : ℕ)
      from hdm.symm) he
  obtain ⟨h1, h2⟩ := files_update h ho hk (by rw [hsame.1]; exact h.ino)
    (by rw [hsame.1]; exact h.used.dev) (by rw [hsame.1]; rfl)
  refine ⟨h1.trans (hc.trans ?_), h2, ?_⟩
  · rw [h.files ho]
    rfl
  · change ninodes (fwrite v.fs _ iop).1 = _
    rw [ninodes, ninodes, hk.vol.isize]

/-- With enough free blocks a write ends without an error. -/
lemma iwrite_noerror (h : Regular v j ino) (ho : Owned v l) (iop : Source)
    (he : v.fs.u_error = none) (hgood : iop.io_data.length ≤ iop.io_good)
    (hend : iop.io_seek + iop.io_data.length ≤ MAXBLOCKS * BSIZE)
    (hfree : 5 * (((iop.io_seek % BSIZE + iop.io_data.length + BSIZE - 1) / BSIZE : ℕ) : ℤ) ≤
      v.fs.m_super.s_tfree) :
    (iwrite v j iop).1.fs.u_error = none := by
  have hsound : Sound v.fs l NADDR (touched (v.inodep j)).i_addr := h.sound ho
  have hdm := Nat.div_add_mod iop.io_seek BSIZE
  rw [Nat.mul_comm] at hdm
  rw [iwrite_regular h ho]
  exact fwriteLoop_noerror hsound he hgood (by dsimp only; rw [hdm]; exact hend) hfree

/-! ### Runs -/

/-- What is seen of an operation. A read shows the bytes by which `io_base` has moved, and what
is left in `io_ioc`. -/
inductive Ev
  | write (ino seek : ℕ) (bs : List UInt8)
  | read (ino seek n : ℕ) (out : List UInt8) (left : ℕ)

/-- A write or a read of a regular file that meets no error. -/
inductive FileStep : Vol → Ev → Vol → Prop
  | write {v : Vol} {j ino seek good : ℕ} {bs : List UInt8} (h : Regular v j ino)
      (hend : seek + bs.length ≤ MAXBLOCKS * BSIZE) (h0 : v.fs.u_error = none)
      (he : (iwrite v j ⟨seek, bs, good⟩).1.fs.u_error = none) :
      FileStep v (.write ino seek bs) (iwrite v j ⟨seek, bs, good⟩).1
  | read {v : Vol} {j ino seek n good : ℕ} (h : Regular v j ino) (h0 : v.fs.u_error = none)
      (hgood : n ≤ good) :
      FileStep v (.read ino seek n (fread v.fs (v.inodep j) ⟨seek, [], n, good⟩).2.io_out
          (fread v.fs (v.inodep j) ⟨seek, [], n, good⟩).2.io_ioc)
        { v with fs := (fread v.fs (v.inodep j) ⟨seek, [], n, good⟩).1 }

/-- The same on arrays of bytes. -/
inductive ArrayStep : (ℕ → File) → Ev → (ℕ → File) → Prop
  | write (F : ℕ → File) (ino seek : ℕ) (bs : List UInt8) :
      ArrayStep F (.write ino seek bs) (Function.update F ino ((F ino).write seek bs))
  | read (F : ℕ → File) (ino seek n : ℕ) :
      ArrayStep F (.read ino seek n ((F ino).read seek n) (n - ((F ino).read seek n).length)) F

/-- The files of all inodes of a volume. -/
def allFiles (v : Vol) (ino : ℕ) : File :=
  if ino ∈ Finset.Icc 1 (ninodes v.fs) then files v ino else ⟨0, fun _ => 0⟩

/-- A consistent volume without a file that claims to be larger than the largest. -/
def Ready (v : Vol) : Prop :=
  (∃ l, Owned v l) ∧ ∀ ino ∈ Finset.Icc 1 (ninodes v.fs), (files v ino).size ≤ (MAXBLOCKS * BSIZE : ℕ)

lemma fileStep_sim {v v' : Vol} {e : Ev} (h : Ready v) (hst : FileStep v e v') :
    Ready v' ∧ ArrayStep (allFiles v) e (allFiles v') := by
  obtain ⟨⟨l, ho⟩, hsize⟩ := h
  cases hst with
  | @write j ino seek good bs h hend h0 he =>
    have hm := ho.mem_icc h.ne_zero h.holds
    obtain ⟨h1, h2, h3⟩ := files_iwrite h ho _ he
    refine ⟨⟨ho.iwrite h.used _, fun k hk => ?_⟩, ?_⟩
    · rw [h3] at hk
      by_cases hki : k = ino
      · have := hsize ino hm
        rw [hki, h1]
        simp only [File.write]
        split_ifs <;> omega
      · rw [h2 k hk hki]
        exact hsize k hk
    · have hup : allFiles (iwrite v j ⟨seek, bs, good⟩).1 =
          Function.update (allFiles v) ino ((allFiles v ino).write seek bs) := by
        funext k
        rw [allFiles, h3, allFiles, if_pos hm]
        by_cases hki : k = ino
        · rw [hki, if_pos hm, Function.update_self, h1]
        · rw [Function.update_of_ne hki, allFiles]
          split_ifs with hk
          · rw [h2 k hk hki]
          · rfl
      rw [hup]
      exact .write _ _ _ _
  | @read j ino seek n good h h0 hgood =>
    have hm := ho.mem_icc h.ne_zero h.holds
    have hfile : files v ino = contents v.fs.disk (v.inodep j) := h.files ho
    have hlim := hsize ino hm
    rw [hfile] at hlim
    rw [fread_eq ((h.sound ho).readable le_rfl fun lb _ => under_NADDR _) h0 _ hgood hlim]
    refine ⟨⟨⟨l, ho⟩, hsize⟩, ?_⟩
    have hread : (⟨seek, [], n, good⟩ : Sink).got v.fs.disk (v.inodep j).i_addr seek
        (min n ((v.inodep j).i_size - seek).toNat) =
        ⟨seek, (allFiles v ino).read seek n, n - ((allFiles v ino).read seek n).length,
          good - min n ((v.inodep j).i_size - seek).toNat⟩ := by
      rw [allFiles, if_pos hm, hfile]
      simp [Sink.got, File.read, contents]
    rw [hread]
    exact .read _ _ _ _

/-- A file without blocks has no byte but zeros. -/
lemma bytes_of_empty (h : owns v ino = 0) (o : ℕ) : (allFiles v ino).bytes o = 0 := by
  have key : ∀ mode size a, roots v.fs.disk (naddr mode) a = 0 →
      (fileOf v.fs.disk mode size a).bytes o = 0 := by
    intro mode size a hz
    simp only [fileOf]
    cases hlb : lmap (o / BSIZE) with
    | none => rfl
    | some r =>
      obtain ⟨i, p, rfl, -⟩ := lmap_some hlb
      dsimp only
      split_ifs with hi
      · rw [byte]
        by_cases h0 : vblock v.fs.disk a (o / BSIZE) = 0
        · rw [if_pos h0]
        · have hm := vblock_mem hlb hi h0
          rw [hz] at hm
          exact absurd hm (Multiset.notMem_zero _)
      · rfl
  unfold allFiles
  split_ifs
  · unfold files
    unfold owns current at h
    cases hs : slotOf v ino with
    | none => rw [hs] at h; exact key _ _ _ h
    | some j => rw [hs] at h; exact key _ _ _ h
  · rfl

/-- **Reads and writes of files are reads and writes of arrays of bytes.** Every run is a run on
arrays with the same results, one array for each inode, which is all zeros for a file that has
no blocks yet; and in every state reached a write with five free blocks for each block of its
range, from memory that can be read, meets no error. -/
theorem file_contents_runs {v₀ : Vol} {evs : List Ev} (h₀ : Ready v₀) (hrun : Run FileStep v₀ evs v) :
    Run ArrayStep (allFiles v₀) evs (allFiles v) ∧
      (∀ ino, owns v₀ ino = 0 → ∀ o, (allFiles v₀ ino).bytes o = 0) ∧
      ∀ j ino, Regular v j ino → ∀ iop : Source, v.fs.u_error = none →
        iop.io_data.length ≤ iop.io_good →
        iop.io_seek + iop.io_data.length ≤ MAXBLOCKS * BSIZE →
        5 * (((iop.io_seek % BSIZE + iop.io_data.length + BSIZE - 1) / BSIZE : ℕ) : ℤ) ≤
          v.fs.m_super.s_tfree →
        (iwrite v j iop).1.fs.u_error = none := by
  obtain ⟨⟨⟨l, ho⟩, -⟩, hsim⟩ := hrun.simulation (fun s a t hs hst => fileStep_sim hs hst) h₀
  exact ⟨hsim, fun _ => bytes_of_empty, fun j ino h iop he hg hend hfree => iwrite_noerror h ho iop he hg hend hfree⟩

/-- The small volume with its file in use. -/
def openVol : Vol := exec smallVol (.iattach 3)

lemma openVol_ready : Ready openVol ∧ Regular openVol 0 3 := by
  obtain ⟨l, h⟩ := smallVol_owned.step (o := .iattach 3) ⟨⟨⟨by decide, by decide⟩, rfl⟩, trivial⟩
  exact ⟨⟨⟨l, h⟩, by decide +kernel⟩, inUse_of_decide (by decide +kernel), by decide +kernel,
    by decide +kernel⟩

/-- The same after two bytes have been written. -/
def writtenVol : Vol := (iwrite openVol 0 ⟨0, [1, 2], 2⟩).1

lemma writtenVol_step : FileStep openVol (.write 3 0 [1, 2]) writtenVol ∧
    Regular writtenVol 0 3 :=
  ⟨.write openVol_ready.2 (by decide) rfl (by decide +kernel),
    inUse_of_decide (by decide +kernel), by decide +kernel, by decide +kernel⟩

/-- Two bytes are written, and four are read. -/
theorem openVol_write_read : ∃ F, Run ArrayStep (allFiles openVol)
    (([] ++ [.write 3 0 [1, 2]]) ++ [.read 3 0 4 [1, 2, 0, 0] 0]) F := by
  have hr : FileStep writtenVol (.read 3 0 4
      (fread writtenVol.fs (writtenVol.inodep 0) ⟨0, [], 4, 4⟩).2.io_out
      (fread writtenVol.fs (writtenVol.inodep 0) ⟨0, [], 4, 4⟩).2.io_ioc) _ :=
    .read writtenVol_step.2 (by decide +kernel) le_rfl
  have hout : (fread writtenVol.fs (writtenVol.inodep 0) ⟨0, [], 4, 4⟩).2.io_out = [1, 2, 0, 0] := by
    decide +kernel
  have hleft : (fread writtenVol.fs (writtenVol.inodep 0) ⟨0, [], 4, 4⟩).2.io_ioc = 0 := by
    decide +kernel
  rw [hout, hleft] at hr
  exact ⟨_, (file_contents_runs openVol_ready.1 (.snoc (.snoc (.nil _) writtenVol_step.1) hr)).1⟩

/-- A write of no bytes beyond the end of the file does not make it longer. -/
theorem openVol_write_nothing : Ready openVol ∧ Regular openVol 0 3 ∧
    (fwrite openVol.fs (openVol.inodep 0) ⟨2000, [], 0⟩).1.u_error = none ∧
    (fwrite openVol.fs (openVol.inodep 0) ⟨2000, [], 0⟩).2.1.i_size ≠
      max (openVol.inodep 0).i_size ((2000 + ([] : List UInt8).length : ℕ) : ℤ) :=
  ⟨openVol_ready.1, openVol_ready.2, by decide +kernel, by decide +kernel⟩

end Coherent.FileIo
