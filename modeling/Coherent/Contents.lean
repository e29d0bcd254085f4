import Coherent.OwnerRun

/-!
What a file holds: `fread` and `fwrite` against an array of bytes with holes.

The byte at an offset is that of the block which the map of the file gives, and zero in a
hole. Writing one block changes the bytes written and no others, because the blocks of a file
are different and a block that is new to the file is cleared; reading follows the same map.
-/

namespace Coherent.FileIo

open Coherent.Can Coherent.Super Coherent.FreeList Coherent.FileMap Coherent.Itable Coherent.Lib

variable {fs gs : Fs} {l l' : List ℤ} {a : ℕ → ℤ} {k lb o : ℕ}

/-- The number of blocks of the largest file. -/
def MAXBLOCKS : ℕ := ND + NBN + NBN ^ 2 + NBN ^ 3

/-- The byte at offset `o` of a file. -/
def byte (disk : ℤ → Block) (a : ℕ → ℤ) (o : ℕ) : UInt8 :=
  if vblock disk a (o / BSIZE) = 0 then 0 else disk (vblock disk a (o / BSIZE)) (o % BSIZE)

/-! ### The maps -/

lemma lmap_isSome (h : lb < MAXBLOCKS) : ∃ i p, lmap lb = some (i :: p) := by
  unfold MAXBLOCKS at h
  by_cases h0 : lb < ND
  · exact ⟨lb, [], if_pos h0⟩
  rw [lmap, if_neg h0]
  simp only [NI, lmapLoop]
  by_cases h1 : (lb - ND) / NBN = 0
  · exact ⟨_, _, if_pos h1⟩
  rw [if_neg h1]
  by_cases h2 : ((lb - ND) / NBN - 1) / NBN = 0
  · exact ⟨_, _, if_pos h2⟩
  rw [if_neg h2]
  refine ⟨_, _, if_pos ?_⟩
  simp only [ND, NBN] at *
  omega

lemma vmapLoop_eq (hr : ∀ b, fs.rdok b = true) (p : List ℕ) (pb : ℤ) :
    vmapLoop fs p pb = follow fs.disk p pb := by
  induction p generalizing pb with
  | nil => rfl
  | cons i p ih =>
    by_cases h0 : pb = 0
    · rw [h0, follow, Radix.follow_zero, vmapLoop, if_pos rfl]
    · rw [vmapLoop, if_neg h0, bread, if_pos (hr pb), follow, Radix.follow_cons h0]
      exact ih _

/-- `vmap` reads the same map that `aread` keeps. -/
lemma vmap_eq (hr : ∀ b, fs.rdok b = true) (h : lb < MAXBLOCKS) :
    vmap fs a lb = (vblock fs.disk a lb, fs) := by
  obtain ⟨i, p, hlb⟩ := lmap_isSome h
  rw [vmap, hlb, vblock_eq hlb]
  exact Prod.ext (vmapLoop_eq hr p (a i)) rfl

lemma areadLoop_there (fflag : Bool) (hr : ∀ b, fs.rdok b = true) {p : List ℕ} {pb : ℤ}
    (h : follow fs.disk p pb ≠ 0) :
    (areadLoop fflag p fs pb false).1 = some (follow fs.disk p pb) := by
  induction p generalizing pb with
  | nil =>
    rw [areadLoop_nil hr]
    rfl
  | cons i p ih =>
    have hpb : pb ≠ 0 := by
      rintro rfl
      exact h (Radix.follow_zero _)
    rw [follow, Radix.follow_cons hpb] at h ⊢
    have he : ents fs.disk pb i ≠ 0 := by
      intro e
      rw [e] at h
      exact h (Radix.follow_zero _)
    rw [areadLoop_cons hr, if_neg (show ents (entered fs pb false).disk pb i ≠ 0 from he)]
    exact ih h

/-- A block that the file has is the one that `aread` returns. -/
lemma aread_there (fflag : Bool) (hr : ∀ b, fs.rdok b = true) (h : vblock fs.disk a lb ≠ 0) :
    (aread fs a lb fflag).1 = some (vblock fs.disk a lb) := by
  cases hlb : lmap lb with
  | none => exact absurd (by rw [vblock, hlb]) h
  | some r =>
    obtain ⟨i, p, rfl, -⟩ := lmap_some hlb
    rw [vblock_eq hlb] at h ⊢
    have ha : a i ≠ 0 := by
      intro e
      rw [e] at h
      exact h (Radix.follow_zero _)
    rw [aread, hlb]
    dsimp only
    rw [if_neg ha]
    exact areadLoop_there fflag hr h

/-! ### Writing one block -/

lemma copyIn_of_mem {p : Block} {off : ℕ} {bs : List UInt8} (h0 : off ≤ o) (h1 : o < off + bs.length) :
    copyIn p off bs o = bs.getD (o - off) 0 := if_pos ⟨h0, h1⟩

lemma copyIn_of_notMem {p : Block} {off : ℕ} {bs : List UInt8} (h : ¬ (off ≤ o ∧ o < off + bs.length)) :
    copyIn p off bs o = p o := if_neg h

/-- The offset `o` is in a block under the first `k` addresses. -/
def Under (k o : ℕ) : Prop := ∀ i p, lmap (o / BSIZE) = some (i :: p) → i < k

lemma under_NADDR (o : ℕ) : Under NADDR o := fun _ _ h => (lmap_cons h).1

/-- One turn of the loop of `fwrite`, with a copy that may stop short: the bytes copied, zeros in
the rest of a block that was to be written whole, and no others. -/
lemma byte_copied (gs : Fs) {b : ℤ} {off : ℕ} {com : Bool} {bs : List UInt8} (h : Sound fs l k a)
    (hk : ∀ i p, lmap lb = some (i :: p) → i < k) (hr : (aread fs a lb com).1 = some b)
    (hoff : off + bs.length ≤ BSIZE)
    (hd : ∀ c, c ≠ b → gs.disk c = (aread fs a lb com).2.1.disk c)
    (hb : gs.disk b = copyIn ((aread fs a lb com).2.1.disk b) off bs) (ho : Under k o) :
    byte gs.disk (aread fs a lb com).2.2 o =
      if lb * BSIZE + off ≤ o ∧ o < lb * BSIZE + off + bs.length then
        bs.getD (o - (lb * BSIZE + off)) 0
      else if com = true ∧ o / BSIZE = lb then 0
      else byte fs.disk a o := by
  have hdm := Nat.div_add_mod o BSIZE
  have hlt : o % BSIZE < BSIZE := Nat.mod_lt _ (by decide)
  rw [Nat.mul_comm] at hdm
  cases hlb : lmap lb with
  | none => simp [aread, hlb] at hr
  | some r =>
    obtain ⟨i, p, rfl, -, -⟩ := lmap_some hlb
    have hi := hk i p hlb
    have hnd : (roots fs.disk k a + l).Nodup := by rw [add_comm]; exact h.nodup
    obtain ⟨l', N, hx, hob⟩ := aread_spec com h.live hlb hi hnd h.roots_vol
    have hS := h.kept (kept_of_extended hx)
    rw [hr] at hob
    obtain ⟨rfl, hb0, -, hold⟩ := hob
    obtain ⟨-, hmap⟩ := write_vblock hS.roots_nodup hlb hi hb0 hd
    by_cases heq : o / BSIZE = lb
    · -- in the block that is written
      have hbo : byte gs.disk (aread fs a lb com).2.2 o =
          copyIn ((aread fs a lb com).2.1.disk
            (vblock (aread fs a lb com).2.1.disk (aread fs a lb com).2.2 lb)) off bs (o % BSIZE) := by
        rw [byte, heq, hmap lb i p hlb hi, if_neg hb0, hb]
      rw [hbo]
      rw [heq] at hdm
      by_cases hin : off ≤ o % BSIZE ∧ o % BSIZE < off + bs.length
      · rw [copyIn_of_mem hin.1 hin.2, if_pos (by omega)]
        congr 1
        omega
      · rw [copyIn_of_notMem hin, if_neg (by omega), hold]
        by_cases hcom : com = true
        · -- the block was to be written whole
          rw [if_neg (fun hc => by simp [hcom] at hc), if_pos ⟨hcom, heq⟩]
          rfl
        rw [if_neg (show ¬ (com = true ∧ o / BSIZE = lb) from fun hc => hcom hc.1)]
        by_cases hv : vblock fs.disk a lb = 0
        · -- a block that is new to the file
          rw [if_neg (fun hc => hc.2 hv), byte, heq, if_pos hv]
          rfl
        · have hsame : vblock (aread fs a lb com).2.1.disk (aread fs a lb com).2.2 lb =
              vblock fs.disk a lb :=
            Option.some.inj (hr.symm.trans (aread_there com h.live.rdok hv))
          rw [if_pos ⟨by simpa using hcom, hv⟩, hsame, byte, heq, if_neg hv]
    · -- in another block
      rw [if_neg (by
        rintro ⟨h0, h1⟩
        refine heq (Nat.div_eq_of_lt_le (by omega) ?_)
        rw [Nat.succ_mul]
        omega), if_neg (fun hc => heq hc.2)]
      cases hlb' : lmap (o / BSIZE) with
      | none => rw [byte, byte, vblock, vblock, hlb']; rfl
      | some r =>
        obtain ⟨j, q, rfl, -, -⟩ := lmap_some hlb'
        have hj := ho j q hlb'
        obtain ⟨hv, hdv⟩ := hx.other (o / BSIZE) j q hlb' hj heq
        rw [byte, byte, hmap _ j q hlb' hj, hv]
        split_ifs with h0
        · rfl
        · have hne : vblock fs.disk a (o / BSIZE) ≠
              vblock (aread fs a lb com).2.1.disk (aread fs a lb com).2.2 lb := by
            rw [← hv]
            intro he
            rw [← hv] at h0
            exact heq (vblock_inj hS.roots_nodup hlb' hj hlb hi h0 he)
          rw [hd _ hne, hdv h0]

/-- One turn of the loop of `fwrite`: the bytes written, and no others. -/
lemma byte_written (gs : Fs) {b : ℤ} {off n : ℕ} {com : Bool} {bs : List UInt8} (h : Sound fs l k a)
    (hk : ∀ i p, lmap lb = some (i :: p) → i < k) (hr : (aread fs a lb com).1 = some b) (hn : bs.length = n) (hoff : off + n ≤ BSIZE)
    (hcom : com = true → off = 0 ∧ n = BSIZE)
    (hd : ∀ c, c ≠ b → gs.disk c = (aread fs a lb com).2.1.disk c)
    (hb : gs.disk b = copyIn ((aread fs a lb com).2.1.disk b) off bs) (ho : Under k o) :
    byte gs.disk (aread fs a lb com).2.2 o =
      if lb * BSIZE + off ≤ o ∧ o < lb * BSIZE + off + n then bs.getD (o - (lb * BSIZE + off)) 0
      else byte fs.disk a o := by
  rw [byte_copied gs h hk hr (by rw [hn]; exact hoff) hd hb ho, hn]
  by_cases hin : lb * BSIZE + off ≤ o ∧ o < lb * BSIZE + off + n
  · rw [if_pos hin, if_pos hin]
  · -- a block written whole has no other bytes
    rw [if_neg hin, if_neg hin, if_neg]
    rintro ⟨hc, heq⟩
    obtain ⟨h0, h1⟩ := hcom hc
    have hdm := Nat.div_add_mod o BSIZE
    have hlt : o % BSIZE < BSIZE := Nat.mod_lt _ (by decide)
    rw [heq, Nat.mul_comm] at hdm
    exact hin ⟨by omega, by omega⟩

/-! ### A file as an array of bytes -/

/-- A file as its users see it. A byte that nobody has written is zero. -/
@[ext]
structure File where
  size : ℤ
  bytes : ℕ → UInt8

/-- The file after the bytes `bs` have been written at `o`. -/
def File.write (f : File) (o : ℕ) (bs : List UInt8) : File where
  size := if bs = [] then f.size else max f.size ((o + bs.length : ℕ) : ℤ)
  bytes i := if o ≤ i ∧ i < o + bs.length then bs.getD (i - o) 0 else f.bytes i

/-- What a read of `n` bytes at `o` delivers. -/
def File.read (f : File) (o n : ℕ) : List UInt8 :=
  (List.range (min n (f.size - o).toNat)).map fun i => f.bytes (o + i)

/-- The file that an inode holds. -/
def contents (disk : ℤ → Block) (ip : Inode) : File := ⟨ip.i_size, byte disk ip.i_addr⟩

lemma File.write_nil (f : File) (o : ℕ) : f.write o [] = f := by
  ext i
  · simp [File.write]
  · simp only [File.write, List.length_nil, Nat.add_zero]
    rw [if_neg (by omega)]

/-- Writing two pieces one after the other. -/
lemma File.write_append (f : File) (o : ℕ) {bs : List UInt8} (cs : List UInt8) (hbs : bs ≠ []) :
    (f.write o bs).write (o + bs.length) cs = f.write o (bs ++ cs) := by
  ext i
  · simp only [File.write, List.append_eq_nil_iff, hbs, false_and, if_false, List.length_append]
    split_ifs with h
    · rw [h]; simp
    · omega
  · simp only [File.write, List.length_append]
    rcases lt_or_ge i (o + bs.length) with h | h
    · rw [if_neg (by omega)]
      by_cases ho : o ≤ i
      · rw [if_pos ⟨ho, h⟩, if_pos ⟨ho, by omega⟩]
        simp only [List.getD_eq_getElem?_getD]
        rw [List.getElem?_append_left (by omega)]
      · rw [if_neg (by omega), if_neg (by omega)]
    · by_cases hc : i < o + bs.length + cs.length
      · rw [if_pos ⟨h, hc⟩, if_pos (by omega)]
        simp only [List.getD_eq_getElem?_getD]
        rw [List.getElem?_append_right (by omega), Nat.sub_add_eq]
      · rw [if_neg (by omega), if_neg (by omega), if_neg (by omega)]

lemma aread_none {com : Bool} (h : Sound fs l NADDR a) (hr : (aread fs a lb com).1 = none) :
    (aread fs a lb com).2.1.u_error ≠ none := by
  cases hlb : lmap lb with
  | none => simp [aread, hlb]
  | some r =>
    obtain ⟨i, p, rfl, hi, -⟩ := lmap_some hlb
    have hnd : (roots fs.disk NADDR a + l).Nodup := by rw [add_comm]; exact h.nodup
    obtain ⟨l', N, -, hob⟩ := aread_spec com h.live hlb hi hnd h.roots_vol
    rw [hr] at hob
    rw [hob.2]
    simp

lemma aread_some {com : Bool} {b : ℤ} (h : Sound fs l NADDR a) (hr : (aread fs a lb com).1 = some b) :
    (aread fs a lb com).2.1.u_error = fs.u_error := by
  cases hlb : lmap lb with
  | none => simp [aread, hlb] at hr
  | some r =>
    obtain ⟨i, p, rfl, hi, -⟩ := lmap_some hlb
    have hnd : (roots fs.disk NADDR a + l).Nodup := by rw [add_comm]; exact h.nodup
    obtain ⟨l', N, -, hob⟩ := aread_spec com h.live hlb hi hnd h.roots_vol
    rw [hr] at hob
    exact hob.2.2.1

/-- **`fwrite` without an error** is a write to the array. -/
lemma fwriteLoop_contents {fs : Fs} {ip : Inode} {iop : Source} {lbn : ℕ} {off : Fin BSIZE}
    {l : List ℤ} (h : Sound fs l NADDR ip.i_addr) (hseek : iop.io_seek = lbn * BSIZE + off)
    (he : (fwriteLoop fs ip iop lbn off).1.u_error = none) :
    contents (fwriteLoop fs ip iop lbn off).1.disk (fwriteLoop fs ip iop lbn off).2.1 =
        (contents fs.disk ip).write iop.io_seek iop.io_data ∧
      (fwriteLoop fs ip iop lbn off).2.2.io_data = [] ∧
      (fwriteLoop fs ip iop lbn off).2.2.io_seek = iop.io_seek + iop.io_data.length := by
  fun_induction fwriteLoop fs ip iop lbn off generalizing l with
  | case1 fs ip iop lbn off hnil =>
    exact ⟨by rw [hnil, File.write_nil], hnil, by simp [hnil]⟩
  | case2 fs ip iop lbn off hne n com r ip' =>
    rename_i hr
    exact absurd he (aread_none h hr)
  | case3 fs ip iop lbn off hne n com r ip' b hr s hm seek =>
    rename_i ih
    have hpos := List.length_pos_of_ne_nil hne
    have hoff := off.isLt
    have hn : n = min (BSIZE - off) iop.io_data.length := rfl
    have hmin : min n iop.io_good = n := min_eq_left hm.1
    obtain ⟨l₁, h1, -, hb⟩ := kept_aread com h fun i p hlb => (lmap_cons hlb).1
    obtain ⟨i, p, hlb, hvb, h0⟩ := hb b hr
    have h2 : Kept r.2.1 l₁ NADDR r.2.2 s.1 l₁ r.2.2 := by
      have := kept_ioread off n iop (h.kept h1) hlb (lmap_cons hlb).1 (by rw [hvb]; exact h0)
      rwa [hvb] at this
    have hlen : (iop.io_data.take n).length = n := by rw [List.length_take]; omega
    have hs : s.1 = bput r.2.1 b (copyIn (r.2.1.disk b) off (iop.io_data.take n)) := by
      simp only [s, ioread, hmin, lt_irrefl, if_false]
    have hdata : s.2.io_data = iop.io_data.drop n := by simp only [s, ioread, hmin]
    have hcom : com = true → (off : ℕ) = 0 ∧ n = BSIZE := fun hc => of_decide_eq_true hc
    have htake : iop.io_data.take n ≠ [] := by
      intro e
      rw [e, List.length_nil] at hlen
      omega
    -- after this block
    have hone : contents s.1.disk { ip' with
        i_size := if (seek : ℤ) > ip'.i_size then seek else ip'.i_size } =
        (contents fs.disk ip).write iop.io_seek (iop.io_data.take n) := by
      refine File.ext ?_ (funext fun o => ?_)
      · simp only [contents, File.write, htake, if_false, hlen]
        change (if ((iop.io_seek + n : ℕ) : ℤ) > ip.i_size then ((iop.io_seek + n : ℕ) : ℤ)
          else ip.i_size) = _
        omega
      · simp only [contents, File.write, hlen, hseek]
        refine byte_written s.1 h (fun i p hlb => (lmap_cons hlb).1) hr hlen (by omega) hcom
          (fun c hc => ?_) ?_ (under_NADDR o)
        · rw [hs]; exact bput_disk_of_ne _ hc
        · rw [hs]; exact bput_disk_self _
    have hnext : s.2.io_data ≠ [] → n = BSIZE - off := by
      intro hne'
      by_contra hcon
      refine hne' ?_
      rw [hdata, List.drop_eq_nil_iff]
      omega
    by_cases hrest : s.2.io_data = []
    · -- that was all
      have hall : iop.io_data.take n = iop.io_data := by
        rw [List.take_eq_self_iff]
        rw [hdata, List.drop_eq_nil_iff] at hrest
        exact hrest
      rw [hall] at hone hlen
      rw [fwriteLoop, dif_pos hrest]
      exact ⟨hone, hrest, by rw [hlen]⟩
    · obtain ⟨ih1, ih2, ih3⟩ := ih ((h.kept h1).kept h2) (by
        have := hnext hrest
        change iop.io_seek + n = (lbn + 1) * BSIZE + 0
        rw [Nat.succ_mul]
        omega) he
      have hsplit : iop.io_data.take n ++ s.2.io_data = iop.io_data := by
        rw [hdata, List.take_append_drop]
      refine ⟨ih1.trans ?_, ih2, ih3.trans ?_⟩
      · refine (congrArg (fun f : File => f.write seek s.2.io_data) hone).trans ?_
        have happ := (contents fs.disk ip).write_append iop.io_seek s.2.io_data htake
        rw [hlen, hsplit] at happ
        exact happ
      · change iop.io_seek + n + s.2.io_data.length = _
        rw [hdata, List.length_drop]
        omega
  | case4 fs ip iop lbn off hne n com r ip' b hr s =>
    rename_i hm
    rw [not_and_or] at hm
    rcases hm with hm | hm
    · have hlt : min n iop.io_good < n := by omega
      simp [s, ioread, hlt] at he
    · exact absurd he hm

/-! ### Reading -/

/-- A volume that reads, and a map of the first `K` blocks of the file without numbers of no
block. -/
structure Readable (fs : Fs) (a : ℕ → ℤ) (K : ℕ) : Prop where
  rdok : ∀ b, fs.rdok b = true
  le : K ≤ MAXBLOCKS
  nonneg : ∀ lb < K, 0 ≤ vblock fs.disk a lb

lemma Sound.readable {K : ℕ} (h : Sound fs l k a) (hK : K ≤ MAXBLOCKS)
    (hk : ∀ lb < K, Under k (lb * BSIZE)) : Readable fs a K := by
  refine ⟨h.live.rdok, hK, fun lb hlt => ?_⟩
  by_cases h0 : vblock fs.disk a lb = 0
  · rw [h0]
  cases hlb : lmap lb with
  | none => exact absurd (by rw [vblock, hlb]) h0
  | some r =>
    obtain ⟨i, p, rfl, -, -⟩ := lmap_some hlb
    have hi : i < k := hk lb hlt i p (by rw [Nat.mul_div_cancel _ (by decide)]; exact hlb)
    have := (h.roots_vol _ (vblock_mem hlb hi h0)).1
    omega

/-- The block behind block `lb` of a file. -/
def blockOf (disk : ℤ → Block) (a : ℕ → ℤ) (lb : ℕ) : Block :=
  if vblock disk a lb = 0 then zeroBlock else disk (vblock disk a lb)

/-- The entry for block `lb` in the list of `fread`. -/
def listed (disk : ℤ → Block) (a : ℕ → ℤ) (lb : ℕ) : ℤ :=
  if vblock disk a lb = 0 then -1 else vblock disk a lb

lemma byte_blockOf (disk : ℤ → Block) (a : ℕ → ℤ) {lb j : ℕ} (hj : j < BSIZE) :
    blockOf disk a lb j = byte disk a (lb * BSIZE + j) := by
  have hd : (lb * BSIZE + j) / BSIZE = lb := by
    rw [Nat.mul_comm, Nat.mul_add_div (by decide), Nat.div_eq_of_lt hj, Nat.add_zero]
  have hm : (lb * BSIZE + j) % BSIZE = j := by
    rw [Nat.mul_comm, Nat.mul_add_mod, Nat.mod_eq_of_lt hj]
  rw [byte, hd, hm, blockOf]
  split_ifs <;> rfl

section Reading

variable {K : ℕ}

lemma vread_eq (h : Readable fs a K) (hlb : lb < K) :
    vread fs a lb = (some (blockOf fs.disk a lb), fs) := by
  rw [vread, vmap_eq h.rdok (lt_of_lt_of_le hlb h.le)]
  dsimp only
  rw [if_neg (not_lt.mpr (h.nonneg lb hlb)), blockOf]
  by_cases h0 : vblock fs.disk a lb = 0
  · rw [if_neg (not_not.mpr h0), if_pos h0]
  · rw [if_pos h0, if_neg h0, bread, if_pos (h.rdok _)]

lemma read_listed (h : Readable fs a K) (hlb : lb < K) :
    (if listed fs.disk a lb < 0 then some zeroBlock else bread fs (listed fs.disk a lb)) =
      some (blockOf fs.disk a lb) := by
  unfold listed blockOf
  by_cases h0 : vblock fs.disk a lb = 0
  · rw [if_pos h0, if_pos h0]
    rfl
  · rw [if_neg h0, if_neg (not_lt.mpr (h.nonneg lb hlb)), if_neg h0, bread, if_pos (h.rdok _)]

lemma readList_eq (h : Readable fs a K) {zbn n : ℕ} (hn : zbn + n ≤ K) :
    readList fs a zbn n = (some ((List.range' zbn n).map (listed fs.disk a)), fs) := by
  induction n generalizing zbn with
  | zero => rfl
  | succ n ih =>
    rw [readList, vmap_eq h.rdok (lt_of_lt_of_le (by omega) h.le)]
    dsimp only
    rw [if_neg (not_lt.mpr (h.nonneg zbn (by omega))), ih (by omega), List.range'_succ]
    rfl

/-- The list of `fread` has the blocks of the file from `abn` up to `zbn`. -/
def Listed (fs : Fs) (a : ℕ → ℤ) (abn zbn : ℕ) (list : List ℤ) : Prop :=
  ∀ k, abn ≤ k → k < zbn → list.getD (k - abn) 0 = listed fs.disk a k

/-- What has been read after `n` more bytes from `o` on. -/
def Sink.got (iop : Sink) (disk : ℤ → Block) (a : ℕ → ℤ) (o n : ℕ) : Sink :=
  { iop with
    io_out := iop.io_out ++ (List.range n).map fun i => byte disk a (o + i)
    io_ioc := iop.io_ioc - n
    io_good := iop.io_good - n }

/-- The volume after a copy of `n` bytes of which `good` can be copied. -/
def faulted (fs : Fs) (n good : ℕ) : Fs := if good < n then { fs with u_error := some .EFAULT } else fs

lemma iowrite_blockOf (fs : Fs) (a : ℕ → ℤ) (lb : ℕ) (iop : Sink) {off n : ℕ} (hoff : off + n ≤ BSIZE) :
    iowrite fs iop (blockOf fs.disk a lb) off n =
      (faulted fs n iop.io_good, iop.got fs.disk a (lb * BSIZE + off) (min n iop.io_good)) := by
  have hmap : (List.range (min n iop.io_good)).map (fun i => blockOf fs.disk a lb (off + i)) =
      (List.range (min n iop.io_good)).map fun i => byte fs.disk a (lb * BSIZE + off + i) := by
    refine List.map_congr_left fun i hi => ?_
    have := List.mem_range.mp hi
    rw [byte_blockOf _ _ (by omega), Nat.add_assoc]
  have hlt : min n iop.io_good < n ↔ iop.io_good < n := by omega
  simp only [iowrite, faulted, Sink.got, hmap, hlt]

lemma Sink.got_got (iop : Sink) (disk : ℤ → Block) (a : ℕ → ℤ) (o n m : ℕ) :
    (iop.got disk a o n).got disk a (o + n) m = iop.got disk a o (n + m) := by
  simp only [Sink.got, List.append_assoc, Nat.sub_sub, Sink.mk.injEq, and_true, true_and]
  rw [List.range_add, List.map_append, List.map_map]
  simp only [Function.comp_def, Nat.add_assoc]

/-- One turn of the loop of `fread`, with a list that is filled when it is used up. -/
lemma freadLoop_turn (h : Readable fs a K) (he : fs.u_error = none) (iop : Sink) {lbn : ℕ}
    {off : Fin BSIZE} {res abn zbn : ℕ} {list : List ℤ} (h0 : res ≠ 0)
    (hend : lbn * BSIZE + off + res ≤ K * BSIZE) (habn : abn ≤ lbn)
    (hlist : Listed fs a abn zbn list) :
    ∃ abn' zbn' list', abn' ≤ lbn ∧ Listed fs a abn' zbn' list' ∧
      freadLoop fs a iop lbn off res abn zbn list =
        if iop.io_good < min (BSIZE - off) res then
          (faulted fs (min (BSIZE - off) res) iop.io_good,
            iop.got fs.disk a (lbn * BSIZE + off) iop.io_good)
        else
          freadLoop fs a (iop.got fs.disk a (lbn * BSIZE + off) (min (BSIZE - off) res)) (lbn + 1)
            ⟨0, by decide⟩ (res - min (BSIZE - off) res) abn' zbn' list' := by
  have hoff := off.isLt
  have hlb : lbn < K := by
    have : lbn * BSIZE < K * BSIZE := by omega
    exact Nat.lt_of_mul_lt_mul_right this
  have hio := iowrite_blockOf fs a lbn iop (show (off : ℕ) + min (BSIZE - off) res ≤ BSIZE by omega)
  -- what follows the copy of one block
  have hcopy : ∀ abn' zbn' list',
      (let s := iowrite fs iop (blockOf fs.disk a lbn) off (min (BSIZE - off) res)
        if s.1.u_error ≠ none then s
        else freadLoop s.1 a s.2 (lbn + 1) ⟨0, by decide⟩ (res - min (BSIZE - off) res) abn' zbn' list') =
      if iop.io_good < min (BSIZE - off) res then
        (faulted fs (min (BSIZE - off) res) iop.io_good,
          iop.got fs.disk a (lbn * BSIZE + off) iop.io_good)
      else
        freadLoop fs a (iop.got fs.disk a (lbn * BSIZE + off) (min (BSIZE - off) res)) (lbn + 1)
          ⟨0, by decide⟩ (res - min (BSIZE - off) res) abn' zbn' list' := by
    intro abn' zbn' list'
    dsimp only
    rw [hio]
    by_cases hf : iop.io_good < min (BSIZE - off) res
    · have hne : (faulted fs (min (BSIZE - off) res) iop.io_good).u_error ≠ none := by
        rw [faulted, if_pos hf]
        simp
      rw [if_pos hne, if_pos hf, min_eq_right hf.le]
    · rw [faulted, if_neg hf, if_neg hf, if_neg (not_not.mpr he), min_eq_left (not_lt.mp hf)]
  rw [freadLoop, dif_neg h0]
  by_cases hfill : zbn ≤ lbn
  · -- the list is used up
    have hn : lbn + min ((res + BSIZE - 1) / BSIZE) NEXREAD ≤ K := by
      have hend' : lbn * 512 + off + res ≤ K * 512 := hend
      change lbn + min ((res + 512 - 1) / 512) NEXREAD ≤ K
      omega
    have hpos : 0 < min ((res + BSIZE - 1) / BSIZE) NEXREAD := by
      change 0 < min ((res + 512 - 1) / 512) 4
      omega
    have hnew : Listed fs a lbn (lbn + min ((res + BSIZE - 1) / BSIZE) NEXREAD)
        ((List.range' lbn (min ((res + BSIZE - 1) / BSIZE) NEXREAD)).map (listed fs.disk a)) := by
      intro k hk hk'
      rw [List.getD_eq_getElem?_getD, List.getElem?_map, List.getElem?_range' (by omega)]
      simp only [Option.map_some, Option.getD_some]
      congr 1
      omega
    refine ⟨lbn, _, _, le_rfl, hnew, ?_⟩
    simp only [hfill, decide_true, if_true, readList_eq h hn]
    rw [hnew lbn le_rfl (by omega), read_listed h hlb]
    exact hcopy _ _ _
  · refine ⟨abn, zbn, list, habn, hlist, ?_⟩
    simp only [hfill, decide_false, Bool.false_eq_true, if_false]
    rw [hlist lbn habn (by omega), read_listed h hlb]
    exact hcopy _ _ _

lemma freadLoop_eq (h : Readable fs a K) (he : fs.u_error = none) (iop : Sink) {lbn : ℕ}
    {off : Fin BSIZE} {res abn zbn : ℕ} {list : List ℤ}
    (hend : lbn * BSIZE + off + res ≤ K * BSIZE) (habn : abn ≤ lbn)
    (hlist : Listed fs a abn zbn list) :
    freadLoop fs a iop lbn off res abn zbn list =
      (faulted fs res iop.io_good, iop.got fs.disk a (lbn * BSIZE + off) (min res iop.io_good)) := by
  induction res using Nat.strong_induction_on generalizing iop lbn off abn zbn list with
  | _ res ih =>
    by_cases h0 : res = 0
    · subst h0
      rw [freadLoop, dif_pos rfl]
      simp [Sink.got, faulted]
    · have hoff := off.isLt
      obtain ⟨abn', zbn', list', h1, h2, h3⟩ := freadLoop_turn h he iop h0 hend habn hlist
      rw [h3]
      by_cases hf : iop.io_good < min (BSIZE - off : ℕ) res
      · -- the copy faults in this block
        rw [if_pos hf, faulted, faulted, if_pos hf, if_pos (by omega), min_eq_right (by omega)]
      rw [if_neg hf]
      by_cases hlast : res ≤ BSIZE - off
      · -- the last block
        rw [min_eq_right hlast] at hf ⊢
        rw [Nat.sub_self, freadLoop, dif_pos rfl, faulted, if_neg hf, min_eq_left (not_lt.mp hf)]
      · have hmin : min (BSIZE - off : ℕ) res = BSIZE - off := min_eq_left (by omega)
        have hnext : (lbn + 1) * BSIZE + 0 = lbn * BSIZE + off + (BSIZE - off) := by
          rw [Nat.succ_mul]
          omega
        rw [hmin] at hf
        rw [hmin, ih (res - (BSIZE - off)) (by omega) _ ?_ (by omega) h2]
        · have hg : (iop.got fs.disk a (lbn * BSIZE + off) (BSIZE - off)).io_good =
              iop.io_good - (BSIZE - off) := rfl
          have hflt : faulted fs (res - (BSIZE - off)) (iop.io_good - (BSIZE - off)) =
              faulted fs res iop.io_good := by
            have hiff : iop.io_good - (BSIZE - off) < res - (BSIZE - off) ↔ iop.io_good < res := by
              omega
            simp only [faulted, hiff]
          rw [hg, hflt]
          change (_, (iop.got fs.disk a _ _).got fs.disk a ((lbn + 1) * BSIZE + 0) _) = _
          rw [hnext, Sink.got_got]
          congr 2
          omega
        · change (lbn + 1) * BSIZE + 0 + _ ≤ _
          rw [hnext]
          omega

/-- **`fread`** delivers the bytes of the array from its offset on, as far as the file goes and
as far as they can be copied. -/
lemma fread_copied {ip : Inode} (h : Readable fs ip.i_addr K) (he : fs.u_error = none) (iop : Sink)
    (hend : min (iop.io_seek + iop.io_ioc : ℤ) ip.i_size ≤ (K * BSIZE : ℕ)) :
    fread fs ip iop =
      (faulted fs (min iop.io_ioc (ip.i_size - iop.io_seek).toNat) iop.io_good,
        iop.got fs.disk ip.i_addr iop.io_seek
          (min (min iop.io_ioc (ip.i_size - iop.io_seek).toNat) iop.io_good)) := by
  unfold fread
  extract_lets lbn off res
  have hdm : lbn * BSIZE + off = iop.io_seek := by
    rw [Nat.mul_comm]
    exact Nat.div_add_mod iop.io_seek BSIZE
  have hres : res.toNat = min iop.io_ioc (ip.i_size - iop.io_seek).toNat := by
    simp only [res]
    split_ifs <;> omega
  by_cases h0 : res ≤ 0
  · have hz : res.toNat = 0 := by omega
    rw [if_pos h0, ← hres, hz]
    simp [Sink.got, faulted]
  rw [if_neg h0, ← hres]
  have hle : iop.io_seek + res.toNat ≤ K * BSIZE := by omega
  have hlb : lbn < K := by
    have : lbn * BSIZE < K * BSIZE := by omega
    exact Nat.lt_of_mul_lt_mul_right this
  by_cases h1 : res + off ≤ BSIZE
  · -- one block
    rw [if_pos h1, vread_eq h hlb]
    dsimp only
    rw [iowrite_blockOf fs _ _ iop (by omega), hdm]
  · rw [if_neg h1, freadLoop_eq h he iop (by dsimp only; omega) (Nat.zero_le _)
      (fun k _ hk => absurd hk (Nat.not_lt_zero k))]
    dsimp only
    rw [hdm]

/-- Without a fault the volume stays as it is. -/
lemma fread_eq {ip : Inode} (h : Readable fs ip.i_addr MAXBLOCKS) (he : fs.u_error = none)
    (iop : Sink) (hgood : iop.io_ioc ≤ iop.io_good) (hsize : ip.i_size ≤ (MAXBLOCKS * BSIZE : ℕ)) :
    fread fs ip iop = (fs, iop.got fs.disk ip.i_addr iop.io_seek
      (min iop.io_ioc (ip.i_size - iop.io_seek).toNat)) := by
  rw [fread_copied h he iop (by omega), faulted, if_neg (by omega), min_eq_left (by omega)]

end Reading

/-! ### Enough space -/

lemma balloc_tfree (fs : Fs) : fs.m_super.s_tfree - 1 ≤ (balloc fs).2.m_super.s_tfree := by
  unfold balloc ballocEnd ebadflist enospc devmsg
  dsimp only
  split_ifs <;> try simp
  split
  · simp
  · split_ifs <;> simp

lemma areadLoop_tfree (fs : Fs) (fflag : Bool) (hr : ∀ b, fs.rdok b = true) (p : List ℕ) (pb : ℤ)
    (aflag : Bool) :
    fs.m_super.s_tfree - p.length ≤ (areadLoop fflag p fs pb aflag).2.m_super.s_tfree := by
  induction p generalizing fs pb aflag with
  | nil =>
    rw [areadLoop_nil hr]
    cases fflag <;> cases aflag <;> simp [entered, bput]
  | cons i p ih =>
    have ht : (entered fs pb aflag).m_super.s_tfree = fs.m_super.s_tfree := by
      cases aflag <;> rfl
    have hr' : ∀ b, (entered fs pb aflag).rdok b = true := by cases aflag <;> exact hr
    have hb := balloc_tfree (entered fs pb aflag)
    rw [areadLoop_cons hr]
    split_ifs
    · simp only [List.length_cons]
      omega
    · refine le_trans ?_ (ih _ ?_ _ _)
      · simp only [List.length_cons, bput]
        omega
      · have := (balloc_sameVolume (entered fs pb aflag)).rdok
        simp only [bput, this]
        exact hr'
    · refine le_trans ?_ (ih _ hr' _ _)
      simp only [List.length_cons]
      omega

/-- `aread` takes at most four blocks. -/
lemma aread_tfree (com : Bool) (hr : ∀ b, fs.rdok b = true) (lb : ℕ) :
    fs.m_super.s_tfree - 4 ≤ (aread fs a lb com).2.1.m_super.s_tfree := by
  have hb := balloc_tfree fs
  cases hlb : lmap lb with
  | none =>
    rw [aread, hlb]
    dsimp only
    omega
  | some r =>
    obtain ⟨i, p, rfl, hi, hlen, -⟩ := lmap_some hlb
    have hp : p.length ≤ 3 := by
      rw [hlen, level]
      unfold NADDR at hi
      unfold ND
      split_ifs <;> omega
    rw [aread, hlb]
    dsimp only
    split_ifs
    · dsimp only
      omega
    · have := areadLoop_tfree (balloc fs).2 com (by rw [(balloc_sameVolume fs).rdok]; exact hr) p
        (balloc fs).1 true
      dsimp only
      omega
    · have := areadLoop_tfree fs com hr p (a i) false
      dsimp only
      omega

lemma turns_succ {o len : ℕ} (ho : o < BSIZE) (hl : 0 < len) :
    (0 + (len - min (BSIZE - o) len) + BSIZE - 1) / BSIZE + 1 ≤ (o + len + BSIZE - 1) / BSIZE := by
  unfold BSIZE at *
  omega

/-- **With five free blocks for every block of the range** and memory that can be read, `fwrite`
ends without an error. -/
lemma fwriteLoop_noerror {fs : Fs} {ip : Inode} {iop : Source} {lbn : ℕ} {off : Fin BSIZE}
    {l : List ℤ} (h : Sound fs l NADDR ip.i_addr) (he : fs.u_error = none)
    (hgood : iop.io_data.length ≤ iop.io_good)
    (hend : lbn * BSIZE + off + iop.io_data.length ≤ MAXBLOCKS * BSIZE)
    (hfree : 5 * (((off + iop.io_data.length + BSIZE - 1) / BSIZE : ℕ) : ℤ) ≤ fs.m_super.s_tfree) :
    (fwriteLoop fs ip iop lbn off).1.u_error = none := by
  fun_induction fwriteLoop fs ip iop lbn off generalizing l with
  | case1 fs ip iop lbn off hnil => exact he
  | case2 fs ip iop lbn off hne n com r ip' =>
    rename_i hr
    have hpos := List.length_pos_of_ne_nil hne
    have hlt : lbn * BSIZE < MAXBLOCKS * BSIZE := by omega
    obtain ⟨i, p, hlb⟩ := lmap_isSome (Nat.lt_of_mul_lt_mul_right hlt)
    have hnd : (roots fs.disk NADDR ip.i_addr + l).Nodup := by rw [add_comm]; exact h.nodup
    obtain ⟨l', N, hx, hob⟩ := aread_spec com h.live hlb (lmap_cons hlb).1 hnd h.roots_vol
    rw [hr] at hob
    have ht := hx.live.wf.tfree
    rw [hob.1] at ht
    have h4 := aread_tfree (a := ip.i_addr) com h.live.rdok lbn
    have hone : 1 ≤ (off + iop.io_data.length + BSIZE - 1) / BSIZE :=
      (Nat.one_le_div_iff (by decide)).mpr (by omega)
    simp only [List.length_nil, Nat.cast_zero] at ht
    omega
  | case3 fs ip iop lbn off hne n com r ip' b hr s hm seek =>
    rename_i ih
    have hpos := List.length_pos_of_ne_nil hne
    have hoff := off.isLt
    have hn : n = min (BSIZE - off) iop.io_data.length := rfl
    have hmin : min n iop.io_good = n := min_eq_left hm.1
    obtain ⟨l₁, h1, -, hb⟩ := kept_aread com h fun i p hlb => (lmap_cons hlb).1
    obtain ⟨i, p, hlb, hvb, h0⟩ := hb b hr
    have h2 : Kept r.2.1 l₁ NADDR r.2.2 s.1 l₁ r.2.2 := by
      have := kept_ioread off n iop (h.kept h1) hlb (lmap_cons hlb).1 (by rw [hvb]; exact h0)
      rwa [hvb] at this
    have h4 : fs.m_super.s_tfree - 4 ≤ r.2.1.m_super.s_tfree := aread_tfree com h.live.rdok lbn
    have hs : s.1.m_super.s_tfree = r.2.1.m_super.s_tfree := by
      simp only [s, ioread, hmin, lt_irrefl, if_false, bput]
    have hdata : s.2.io_data = iop.io_data.drop n := by simp only [s, ioread, hmin]
    have hsg : s.2.io_good = iop.io_good - n := by simp only [s, ioread, hmin]
    refine ih ((h.kept h1).kept h2) hm.2 ?_ ?_ ?_
    · change s.2.io_data.length ≤ s.2.io_good
      rw [hdata, hsg, List.length_drop]
      omega
    · change (lbn + 1) * BSIZE + 0 + s.2.io_data.length ≤ _
      have hlt : lbn * BSIZE < MAXBLOCKS * BSIZE := by omega
      have hle := Nat.mul_le_mul_right BSIZE (Nat.lt_of_mul_lt_mul_right hlt)
      rw [Nat.succ_mul] at hle
      rw [hdata, List.length_drop, Nat.succ_mul]
      omega
    · change 5 * (((0 + s.2.io_data.length + BSIZE - 1) / BSIZE : ℕ) : ℤ) ≤ s.1.m_super.s_tfree
      have ht := turns_succ hoff hpos
      rw [hs, hdata, List.length_drop, hn]
      omega
  | case4 fs ip iop lbn off hne n com r ip' b hr s =>
    rename_i hm
    have hn : n = min (BSIZE - off) iop.io_data.length := rfl
    have hmin : min n iop.io_good = n := min_eq_left (by omega)
    refine absurd ⟨by omega, ?_⟩ hm
    simp only [s, ioread, hmin, lt_irrefl, if_false, bput]
    exact (aread_some h hr).trans he

end Coherent.FileIo
