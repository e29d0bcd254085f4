import Coherent.FileRun

/-!
A write whose copy from user memory faults.

The blocks before the one with the fault are written, and that block has what could be copied.
Where the block was to be written whole it has been cleared first, so what was behind those
bytes is lost; and where nothing of it could be copied, a hole has become a block of zeros all
the same.
-/

namespace Coherent.FileIo

open Coherent.Can Coherent.Super Coherent.FreeList Coherent.FileMap Coherent.Itable Coherent.Lib

variable {fs gs : Fs} {l l' : List ℤ} {a : ℕ → ℤ} {k lb o : ℕ}

/-! ### A volume on which some blocks cannot be read -/

/-- The volume with every block readable. -/
def readable (fs : Fs) : Fs := { fs with rdok := fun _ => true }

lemma readable_eq (h : ∀ b, fs.rdok b = true) : readable fs = fs := by
  have hr : fs.rdok = fun _ => true := funext h
  rw [readable, ← hr]

lemma smod_readable (fs : Fs) : smod (readable fs) = readable (smod fs) := by
  by_cases h : fs.m_super.s_fmod = 0
  · rw [smod, if_pos (show (readable fs).m_super.s_fmod = 0 from h), smod, if_pos h]
    rfl
  · rw [smod, if_neg (show ¬ (readable fs).m_super.s_fmod = 0 from h), smod, if_neg h]

/-- A block is handed out in the same way when all blocks are readable. -/
lemma balloc_readable (h : (balloc fs).1 ≠ 0) :
    balloc (readable fs) = ((balloc fs).1, readable (balloc fs).2) := by
  have hend : ∀ (gs : Fs) (b : ℤ), ballocEnd (readable gs) b =
      ((ballocEnd gs b).1, readable (ballocEnd gs b).2) := by
    intro gs b
    unfold ballocEnd
    dsimp only
    have hs := smod_readable
      { gs with m_super := { gs.m_super with s_tfree := gs.m_super.s_tfree - 1 } }
    split_ifs with h1 h2 h2
    · rfl
    · exact absurd h1 h2
    · exact absurd h2 h1
    · exact Prod.ext rfl hs
  unfold balloc at h ⊢
  have hs := smod_readable fs
  rw [hs]
  generalize smod fs = gs at h ⊢
  -- every early way out returns zero
  by_cases h1 : fs.m_ron = true
  · rw [if_pos h1] at h
    exact absurd rfl h
  rw [if_neg h1] at h ⊢
  rw [if_neg (show ¬ (readable fs).m_ron = true from h1)]
  by_cases h2 : fs.m_super.s_nfree = 0
  · rw [if_pos h2] at h
    exact absurd rfl h
  rw [if_neg h2] at h ⊢
  rw [if_neg (show ¬ (readable fs).m_super.s_nfree = 0 from h2)]
  dsimp only [readable] at h ⊢
  by_cases h3 : gs.m_super.s_free (gs.m_super.s_nfree - 1) = 0
  · rw [if_pos h3] at h
    exact absurd rfl h
  simp only [if_neg h3] at h ⊢
  by_cases h4 : gs.m_super.s_nfree - 1 = 0
  · simp only [if_pos h4] at h ⊢
    by_cases h5 : gs.m_super.s_free (gs.m_super.s_nfree - 1) ≥ gs.m_super.s_fsize ∨
        gs.m_super.s_free (gs.m_super.s_nfree - 1) < gs.m_super.s_isize
    · rw [if_pos h5] at h
      exact absurd rfl h
    simp only [if_neg h5] at h ⊢
    cases hb : gs.rdok (gs.m_super.s_free (gs.m_super.s_nfree - 1)) with
    | false => simp [bread, hb, ebadflist, enospc] at h
    | true =>
      simp only [bread, hb, if_true] at h ⊢
      by_cases h6 : df_nfree (gs.disk (gs.m_super.s_free (gs.m_super.s_nfree - 1))) > NICFREE
      · rw [if_pos h6] at h
        exact absurd rfl h
      · simp only [if_neg h6]
        exact hend { gs with m_super := { gs.m_super with
          s_nfree := df_nfree (gs.disk (gs.m_super.s_free (gs.m_super.s_nfree - 1)))
          s_free := df_free (gs.disk (gs.m_super.s_free (gs.m_super.s_nfree - 1))) } } _
  · simp only [if_neg h4]
    exact hend { gs with m_super := { gs.m_super with s_nfree := gs.m_super.s_nfree - 1 } } _

/-- `balloc` does not report a fault. -/
lemma balloc_fault (h : fs.u_error ≠ some .EFAULT) : (balloc fs).2.u_error ≠ some .EFAULT := by
  have hs : (smod fs).u_error ≠ some .EFAULT := by
    unfold smod superwrite bput
    split_ifs <;> exact h
  have hend : ∀ (gs : Fs) (b : ℤ), gs.u_error ≠ some .EFAULT →
      (ballocEnd gs b).2.u_error ≠ some .EFAULT := by
    intro gs b hg
    unfold ballocEnd ebadflist enospc smod superwrite bput
    dsimp only
    split_ifs
    · simp
    · exact hg
    · exact hg
  unfold balloc
  dsimp only
  split_ifs
  · simp
  · simp [enospc]
  · simp [enospc]
  · simp [ebadflist, enospc]
  · split
    · simp [ebadflist, enospc]
    · split_ifs
      · simp [ebadflist, enospc]
      · exact hend _ _ hs
  · exact hend _ _ hs

lemma areadLoop_readable {fflag aflag : Bool} {p : List ℕ} {pb c : ℤ}
    (h : (areadLoop fflag p fs pb aflag).1 = some c) :
    areadLoop fflag p (readable fs) pb aflag =
      (some c, readable (areadLoop fflag p fs pb aflag).2) := by
  induction p generalizing fs pb aflag with
  | nil =>
    unfold areadLoop at h ⊢
    split_ifs at h ⊢ with h0
    · cases hb : fs.rdok pb with
      | false => simp [bread, hb] at h
      | true =>
        simp only [bread, hb, if_true] at h ⊢
        exact Prod.ext h rfl
    · exact Prod.ext h rfl
  | cons i p ih =>
    -- what follows once the block is there
    have key : ∀ gs : Fs, (if dentry (gs.disk pb) i = 0 then
          if (balloc gs).1 = 0 then (none, (balloc gs).2)
          else areadLoop fflag p
            (bput (balloc gs).2 pb (setEntry ((balloc gs).2.disk pb) i (balloc gs).1))
            (balloc gs).1 true
        else areadLoop fflag p gs (dentry (gs.disk pb) i) false).1 = some c →
        (if dentry ((readable gs).disk pb) i = 0 then
          if (balloc (readable gs)).1 = 0 then (none, (balloc (readable gs)).2)
          else areadLoop fflag p (bput (balloc (readable gs)).2 pb
            (setEntry ((balloc (readable gs)).2.disk pb) i (balloc (readable gs)).1))
            (balloc (readable gs)).1 true
        else areadLoop fflag p (readable gs) (dentry ((readable gs).disk pb) i) false) =
        (some c, readable (if dentry (gs.disk pb) i = 0 then
          if (balloc gs).1 = 0 then (none, (balloc gs).2)
          else areadLoop fflag p
            (bput (balloc gs).2 pb (setEntry ((balloc gs).2.disk pb) i (balloc gs).1))
            (balloc gs).1 true
        else areadLoop fflag p gs (dentry (gs.disk pb) i) false).2) := by
      intro gs hg
      have hd : (readable gs).disk = gs.disk := rfl
      rw [hd]
      by_cases h0 : dentry (gs.disk pb) i = 0
      · rw [if_pos h0] at hg ⊢
        rw [if_pos h0]
        by_cases hb : (balloc gs).1 = 0
        · rw [if_pos hb] at hg
          simp at hg
        · rw [if_neg hb] at hg ⊢
          rw [balloc_readable hb]
          dsimp only
          rw [if_neg hb]
          exact ih hg
      · rw [if_neg h0] at hg ⊢
        rw [if_neg h0]
        exact ih hg
    unfold areadLoop at h ⊢
    cases aflag with
    | true =>
      simp only [Bool.true_eq_false, if_false] at h ⊢
      exact key (bput fs pb zeroBlock) h
    | false =>
      simp only [if_true] at h ⊢
      cases hb : fs.rdok pb with
      | false => simp [bread, hb] at h
      | true =>
        have h1 : bread fs pb = some (fs.disk pb) := by rw [bread, if_pos hb]
        have h2 : bread (readable fs) pb = some (fs.disk pb) := rfl
        rw [h1] at h ⊢
        rw [h2]
        exact key fs h

lemma areadLoop_fault {fflag aflag : Bool} {p : List ℕ} {pb : ℤ}
    (h : fs.u_error ≠ some .EFAULT) :
    (areadLoop fflag p fs pb aflag).2.u_error ≠ some .EFAULT := by
  induction p generalizing fs pb aflag with
  | nil =>
    unfold areadLoop
    split_ifs
    · split <;> exact h
    · exact h
  | cons i p ih =>
    unfold areadLoop
    split
    · exact h
    · rename_i gs hg
      have hgs : gs.u_error ≠ some .EFAULT := by
        split_ifs at hg
        · obtain ⟨-, -, rfl⟩ := Option.map_eq_some_iff.mp hg
          exact h
        · obtain rfl := Option.some.inj hg
          exact h
      split_ifs
      · exact balloc_fault hgs
      · exact ih (balloc_fault hgs)
      · exact ih hgs

lemma aread_readable {com : Bool} {b : ℤ} (h : (aread fs a lb com).1 = some b) :
    aread (readable fs) a lb com =
      (some b, readable (aread fs a lb com).2.1, (aread fs a lb com).2.2) := by
  unfold aread at h ⊢
  split at h
  · rename_i i p hlb
    by_cases h0 : a i = 0
    · simp only [h0, if_true] at h ⊢
      by_cases hb : (balloc fs).1 = 0
      · simp [hb] at h
      · rw [if_neg hb] at h
        rw [balloc_readable hb]
        simp only [hb, if_false]
        rw [areadLoop_readable h]
    · simp only [h0, if_false] at h ⊢
      rw [areadLoop_readable h]
  · simp at h

/-- `aread` does not report a fault. -/
lemma aread_fault (com : Bool) (h : fs.u_error ≠ some .EFAULT) :
    (aread fs a lb com).2.1.u_error ≠ some .EFAULT := by
  unfold aread
  split
  · split_ifs
    · exact balloc_fault h
    · exact areadLoop_fault (balloc_fault h)
    · exact areadLoop_fault h
  · simp

/-- A write that comes to a fault has read every block it looked at. -/
lemma fwriteLoop_readable {fs : Fs} {ip : Inode} {iop : Source} {lbn : ℕ} {off : Fin BSIZE}
    (h : fs.u_error = none)
    (he : (fwriteLoop fs ip iop lbn off).1.u_error = some .EFAULT) :
    fwriteLoop (readable fs) ip iop lbn off =
      (readable (fwriteLoop fs ip iop lbn off).1, (fwriteLoop fs ip iop lbn off).2) := by
  have hio : ∀ (gs : Fs) (iop : Source) (b : ℤ) (o n : ℕ), ioread (readable gs) iop b o n =
      (readable (ioread gs iop b o n).1, (ioread gs iop b o n).2) := by
    intro gs iop b o n
    unfold ioread
    dsimp only
    split_ifs <;> rfl
  fun_induction fwriteLoop fs ip iop lbn off with
  | case1 fs ip iop lbn off hnil => rw [fwriteLoop, dif_pos hnil]
  | case2 fs ip iop lbn off hne n com r ip' =>
    exact absurd he (aread_fault com (by rw [h]; simp))
  | case3 fs ip iop lbn off hne n com r ip' b hr s hm seek =>
    rename_i ih
    have hs := hio r.2.1 iop b off n
    rw [fwriteLoop, dif_neg hne]
    dsimp only
    rw [aread_readable hr]
    dsimp only
    rw [hs]
    exact (dif_pos hm).trans (ih hm.2 he)
  | case4 fs ip iop lbn off hne n com r ip' b hr s hm =>
    have hs := hio r.2.1 iop b off n
    rw [fwriteLoop, dif_neg hne]
    dsimp only
    rw [aread_readable hr]
    dsimp only
    rw [hs]
    exact dif_neg hm

/-! ### Where the blocks of the file are -/

/-- The blocks of a file after one turn of the loop of `fwrite`. -/
lemma vblock_written {b : ℤ} {com : Bool} (gs : Fs) (h : Sound fs l k a)
    (hk : ∀ i p, lmap lb = some (i :: p) → i < k) (hr : (aread fs a lb com).1 = some b)
    (hd : ∀ c, c ≠ b → gs.disk c = (aread fs a lb com).2.1.disk c) :
    vblock gs.disk (aread fs a lb com).2.2 lb ≠ 0 ∧
      (vblock fs.disk a lb ≠ 0 →
        vblock gs.disk (aread fs a lb com).2.2 lb = vblock fs.disk a lb) ∧
      ∀ lb', (∀ i p, lmap lb' = some (i :: p) → i < k) → lb' ≠ lb →
        vblock gs.disk (aread fs a lb com).2.2 lb' = vblock fs.disk a lb' := by
  cases hlb : lmap lb with
  | none => simp [aread, hlb] at hr
  | some r =>
    obtain ⟨i, p, rfl, -, -⟩ := lmap_some hlb
    have hi := hk i p hlb
    have hnd : (roots fs.disk k a + l).Nodup := by rw [add_comm]; exact h.nodup
    obtain ⟨l', N, hx, hob⟩ := aread_spec com h.live hlb hi hnd h.roots_vol
    have hS := h.kept (kept_of_extended hx)
    have hthere : vblock fs.disk a lb ≠ 0 → b = vblock fs.disk a lb := fun hv =>
      Option.some.inj (hr.symm.trans (aread_there com h.live.rdok hv))
    rw [hr] at hob
    obtain ⟨rfl, hb0, -⟩ := hob
    obtain ⟨-, hmap⟩ := write_vblock hS.roots_nodup hlb hi hb0 hd
    rw [hmap lb i p hlb hi]
    refine ⟨hb0, hthere, fun lb' hk' hne => ?_⟩
    cases hlb' : lmap lb' with
    | none => rw [vblock, vblock, hlb']
    | some r =>
      obtain ⟨j, q, rfl, -, -⟩ := lmap_some hlb'
      have hj := hk' j q hlb'
      rw [hmap lb' j q hlb' hj, (hx.other lb' j q hlb' hj hne).1]

/-! ### The fault -/

/-- The block of the file in which the copy stops. -/
def stop (iop : Source) : ℕ := (iop.io_seek + iop.io_good) / BSIZE

/-- All of that block was to be written. -/
def Whole (iop : Source) : Prop :=
  iop.io_seek ≤ stop iop * BSIZE ∧ (stop iop + 1) * BSIZE ≤ iop.io_seek + iop.io_data.length

/-- What a write leaves that stops at a fault. -/
structure Stopped (fs : Fs) (ip : Inode) (iop : Source) (r : Fs × Inode × Source) : Prop where
  short : iop.io_good < iop.io_data.length
  copied : ∀ o, iop.io_seek ≤ o → o < iop.io_seek + iop.io_good →
    byte r.1.disk r.2.1.i_addr o = iop.io_data.getD (o - iop.io_seek) 0
  cleared : ∀ o, iop.io_seek + iop.io_good ≤ o → o / BSIZE = stop iop → Whole iop →
    byte r.1.disk r.2.1.i_addr o = 0
  kept : ∀ o, ¬ (iop.io_seek ≤ o ∧ o < iop.io_seek + iop.io_good) →
    ¬ (iop.io_seek + iop.io_good ≤ o ∧ o / BSIZE = stop iop ∧ Whole iop) →
    byte r.1.disk r.2.1.i_addr o = byte fs.disk ip.i_addr o
  size : r.2.1.i_size ≤ max ip.i_size ((iop.io_seek + iop.io_good : ℕ) : ℤ)
  there : vblock r.1.disk r.2.1.i_addr (stop iop) ≠ 0
  same : vblock fs.disk ip.i_addr (stop iop) ≠ 0 →
    vblock r.1.disk r.2.1.i_addr (stop iop) = vblock fs.disk ip.i_addr (stop iop)
  off : ∀ lb, lb < iop.io_seek / BSIZE ∨ stop iop < lb →
    vblock r.1.disk r.2.1.i_addr lb = vblock fs.disk ip.i_addr lb

lemma div_BSIZE {lbn off : ℕ} (h : off < BSIZE) : (lbn * BSIZE + off) / BSIZE = lbn := by
  rw [Nat.mul_comm, Nat.mul_add_div (by decide), Nat.div_eq_of_lt h, Nat.add_zero]

/-- An offset in a block is where the block is. -/
lemma in_block {o lbn : ℕ} (h : o / BSIZE = lbn) : lbn * BSIZE ≤ o ∧ o < lbn * BSIZE + BSIZE := by
  have hdm := Nat.div_add_mod o BSIZE
  have hlt : o % BSIZE < BSIZE := Nat.mod_lt _ (by decide)
  rw [h, Nat.mul_comm] at hdm
  omega

/-- One turn of the loop of `fwrite` that meets no fault, and what the write leaves in the end. -/
lemma Stopped.turn {ip ip' : Inode} {iop iop' : Source} {r : Fs × Inode × Source} {lbn n : ℕ}
    (h : Stopped gs ip' iop' r)
    (hiop : iop' = ⟨iop.io_seek + n, iop.io_data.drop n, iop.io_good - n⟩)
    (hn : n ≤ iop.io_good) (hend : iop.io_seek + n = (lbn + 1) * BSIZE)
    (hdiv : iop.io_seek / BSIZE = lbn)
    (hbyte : ∀ o, byte gs.disk ip'.i_addr o =
      if iop.io_seek ≤ o ∧ o < iop.io_seek + n then iop.io_data.getD (o - iop.io_seek) 0
      else byte fs.disk ip.i_addr o)
    (hsize : ip'.i_size ≤ max ip.i_size ((iop.io_seek + n : ℕ) : ℤ))
    (hv : ∀ lb, lb ≠ lbn → vblock gs.disk ip'.i_addr lb = vblock fs.disk ip.i_addr lb) :
    Stopped fs ip iop r := by
  subst hiop
  have hshort : iop.io_good - n < iop.io_data.length - n := by
    simpa only [List.length_drop] using h.short
  have hsum : iop.io_seek + n + (iop.io_good - n) = iop.io_seek + iop.io_good := by omega
  have hstop : stop ⟨iop.io_seek + n, iop.io_data.drop n, iop.io_good - n⟩ = stop iop := by
    simp only [stop, hsum]
  have hlt : lbn + 1 ≤ stop iop := by
    rw [stop, Nat.le_div_iff_mul_le (by decide)]
    omega
  have hmul := Nat.mul_le_mul_right BSIZE hlt
  have hwhole : Whole ⟨iop.io_seek + n, iop.io_data.drop n, iop.io_good - n⟩ ↔ Whole iop := by
    simp only [Whole, hstop, List.length_drop]
    omega
  obtain ⟨-, hcopied, hcleared, hkept, hsz, hthere, hsame, hoff⟩ := h
  simp only [hsum, hstop, hwhole] at hcopied hcleared hkept hsz hthere hsame hoff
  refine ⟨by omega, fun o h0 h1 => ?_, hcleared, fun o h0 h1 => ?_, by omega, hthere, ?_, ?_⟩
  · by_cases ho : o < iop.io_seek + n
    · -- copied in this turn
      rw [hkept o (by omega) (by omega), hbyte, if_pos ⟨h0, ho⟩]
    · rw [hcopied o (by omega) h1]
      simp only [List.getD_eq_getElem?_getD, List.getElem?_drop]
      congr 2
      omega
  · rw [hkept o (by omega) h1, hbyte, if_neg (by omega)]
  · intro h0
    rw [← hv _ (by omega)] at h0 ⊢
    exact hsame h0
  · intro lb hlb
    have hd : (iop.io_seek + n) / BSIZE = lbn + 1 := by
      rw [hend, Nat.mul_div_cancel _ (by decide)]
    rw [hoff lb (by rw [hd]; omega), hv lb (by omega)]

/-- **A write that stops at a fault** leaves the blocks before it written. -/
lemma fwriteLoop_stopped {fs : Fs} {ip : Inode} {iop : Source} {lbn : ℕ} {off : Fin BSIZE}
    {l : List ℤ} (h : Sound fs l NADDR ip.i_addr) (h0 : fs.u_error = none)
    (hseek : iop.io_seek = lbn * BSIZE + off)
    (he : (fwriteLoop fs ip iop lbn off).1.u_error = some .EFAULT) :
    Stopped fs ip iop (fwriteLoop fs ip iop lbn off) := by
  fun_induction fwriteLoop fs ip iop lbn off generalizing l with
  | case1 fs ip iop lbn off hnil => simp [h0] at he
  | case2 fs ip iop lbn off hne n com r ip' =>
    exact absurd he (aread_fault com (by rw [h0]; simp))
  | case3 fs ip iop lbn off hne n com r ip' b hr s hm seek =>
    rename_i ih
    have hpos := List.length_pos_of_ne_nil hne
    have hoff := off.isLt
    have hn : n = min (BSIZE - off) iop.io_data.length := rfl
    have hmin : min n iop.io_good = n := min_eq_left hm.1
    obtain ⟨l₁, h1, -, hb⟩ := kept_aread com h fun i p hlb => (lmap_cons hlb).1
    obtain ⟨i, p, hlb, hvb, hb0⟩ := hb b hr
    have h2 : Kept r.2.1 l₁ NADDR r.2.2 s.1 l₁ r.2.2 := by
      have := kept_ioread off n iop (h.kept h1) hlb (lmap_cons hlb).1 (by rw [hvb]; exact hb0)
      rwa [hvb] at this
    have hlen : (iop.io_data.take n).length = n := by rw [List.length_take]; omega
    have hs : s.1 = bput r.2.1 b (copyIn (r.2.1.disk b) off (iop.io_data.take n)) := by
      simp only [s, ioread, hmin, lt_irrefl, if_false]
    have hs2 : s.2 = ⟨iop.io_seek, iop.io_data.drop n, iop.io_good - n⟩ := by
      simp only [s, ioread, hmin]
    have hcom : com = true → (off : ℕ) = 0 ∧ n = BSIZE := fun hc => of_decide_eq_true hc
    have hd : ∀ c, c ≠ b → s.1.disk c = r.2.1.disk c := by
      intro c hc
      rw [hs]
      exact bput_disk_of_ne _ hc
    -- there is a turn after this one
    have hrest : s.2.io_data ≠ [] := by
      intro hnil
      rw [fwriteLoop, dif_pos hnil, hm.2] at he
      simp at he
    have hnext : n = BSIZE - off := by
      by_contra hcon
      refine hrest ?_
      rw [hs2, List.drop_eq_nil_iff]
      omega
    have hend : iop.io_seek + n = (lbn + 1) * BSIZE := by
      rw [Nat.succ_mul]
      omega
    have hst := ih ((h.kept h1).kept h2) hm.2 (by
      change iop.io_seek + n = (lbn + 1) * BSIZE + 0
      rw [Nat.add_zero, hend]) he
    refine hst.turn (by rw [hs2]) hm.1 hend (by rw [hseek, div_BSIZE hoff]) (fun o => ?_) ?_
      fun lb hlb => ?_
    · have hw := byte_written s.1 h (fun i p hlb => (lmap_cons hlb).1) hr hlen (by omega) hcom hd
        (by rw [hs]; exact bput_disk_self _) (under_NADDR o)
      rw [← hseek] at hw
      refine hw.trans ?_
      split_ifs with hin
      · simp only [List.getD_eq_getElem?_getD]
        rw [List.getElem?_take_of_lt (by omega)]
      · rfl
    · change (if ((iop.io_seek + n : ℕ) : ℤ) > ip.i_size then ((iop.io_seek + n : ℕ) : ℤ)
        else ip.i_size) ≤ _
      split_ifs <;> omega
    · exact (vblock_written s.1 h (fun i p hlb => (lmap_cons hlb).1) hr hd).2.2 lb
        (fun i p hlb => (lmap_cons hlb).1) hlb
  | case4 fs ip iop lbn off hne n com r ip' b hr s =>
    rename_i hm
    have hoff := off.isLt
    have hn : n = min (BSIZE - off) iop.io_data.length := rfl
    have hgood : iop.io_good < n := by
      by_contra hcon
      refine hm ⟨not_lt.mp hcon, ?_⟩
      have hmin : min n iop.io_good = n := min_eq_left (not_lt.mp hcon)
      simp only [s, ioread, hmin, lt_irrefl, if_false, bput]
      exact (aread_some h hr).trans h0
    have hmin : min n iop.io_good = iop.io_good := min_eq_right hgood.le
    have hlen : (iop.io_data.take iop.io_good).length = iop.io_good := by
      rw [List.length_take]
      omega
    have hs : s.1.disk =
        (bput r.2.1 b (copyIn (r.2.1.disk b) off (iop.io_data.take iop.io_good))).disk := by
      simp only [s, ioread, hmin, hgood, if_true]
    have hd : ∀ c, c ≠ b → s.1.disk c = r.2.1.disk c := by
      intro c hc
      rw [hs]
      exact bput_disk_of_ne _ hc
    have hstop : stop iop = lbn := by
      rw [stop, hseek, Nat.add_assoc, div_BSIZE (by omega)]
    have hwhole : Whole iop ↔ com = true := by
      rw [Whole, hstop, hseek]
      have hc : com = true ↔ (off : ℕ) = 0 ∧ n = BSIZE := by simp [com, n]
      rw [hc, Nat.succ_mul]
      omega
    have hin : (off : ℕ) + (iop.io_data.take iop.io_good).length ≤ BSIZE := by
      rw [hlen]
      omega
    have hbyte : ∀ o, byte s.1.disk r.2.2 o =
        if iop.io_seek ≤ o ∧ o < iop.io_seek + iop.io_good then
          (iop.io_data.take iop.io_good).getD (o - iop.io_seek) 0
        else if com = true ∧ o / BSIZE = lbn then 0
        else byte fs.disk ip.i_addr o := by
      intro o
      have hw := byte_copied s.1 h (fun i p hlb => (lmap_cons hlb).1) hr hin hd
        (by rw [hs]; exact bput_disk_self _) (under_NADDR o)
      rwa [hlen, ← hseek] at hw
    obtain ⟨hthere, hsame, hother⟩ := vblock_written s.1 h (fun i p hlb => (lmap_cons hlb).1) hr hd
    refine ⟨by omega, fun o h1 h2 => ?_, fun o h1 h2 h3 => ?_, fun o h1 h2 => ?_, by
      change ip.i_size ≤ _; omega, ?_, ?_, fun lb hlb => ?_⟩
    · change byte s.1.disk r.2.2 o = _
      rw [hbyte, if_pos ⟨h1, h2⟩]
      simp only [List.getD_eq_getElem?_getD]
      rw [List.getElem?_take_of_lt (by omega)]
    · change byte s.1.disk r.2.2 o = _
      rw [hbyte, if_neg (by omega), if_pos ⟨hwhole.mp h3, by omega⟩]
    · change byte s.1.disk r.2.2 o = _
      rw [hbyte, if_neg h1, if_neg]
      rintro ⟨h3, h4⟩
      have hblk := in_block h4
      have hw := hwhole.mpr h3
      have h5 := hw.1
      rw [hstop] at h5
      exact h2 ⟨by omega, by omega, hw⟩
    · rw [hstop]
      exact hthere
    · rw [hstop]
      exact hsame
    · refine hother lb (fun i p hlb => (lmap_cons hlb).1) ?_
      rw [hseek, div_BSIZE hoff] at hlb
      omega

/-! ### What a faulting write keeps -/

/-- The file is as it was outside the bytes copied: no other byte has changed, it ends no later
than they do, and no block without one of them was allocated or cleared. -/
structure KeepsRest (fs : Fs) (ip : Inode) (iop : Source) (r : Fs × Inode × Source) : Prop where
  bytes : ∀ o, ¬ (iop.io_seek ≤ o ∧ o < iop.io_seek + iop.io_good) →
    byte r.1.disk r.2.1.i_addr o = byte fs.disk ip.i_addr o
  size : r.2.1.i_size ≤ max ip.i_size ((iop.io_seek + iop.io_good : ℕ) : ℤ)
  blocks : ∀ lb, (∀ o, iop.io_seek ≤ o → o < iop.io_seek + iop.io_good → o / BSIZE ≠ lb) →
    vblock r.1.disk r.2.1.i_addr lb = vblock fs.disk ip.i_addr lb ∧
      ∀ i < BSIZE, blockOf r.1.disk r.2.1.i_addr lb i = blockOf fs.disk ip.i_addr lb i

/-- The fault does no harm: where the block it is in was to be written whole, the file has only
zeros in the rest of it; and where nothing of that block is copied, the file has that block. -/
def Spared (fs : Fs) (ip : Inode) (iop : Source) : Prop :=
  (Whole iop → ∀ o, iop.io_seek + iop.io_good ≤ o → o / BSIZE = stop iop →
    byte fs.disk ip.i_addr o = 0) ∧
  ((iop.io_good = 0 ∨ (iop.io_seek + iop.io_good) % BSIZE = 0) →
    vblock fs.disk ip.i_addr (stop iop) ≠ 0)

/-- A block between the start of the write and the fault has a byte that was copied. -/
lemma copied_of_between {iop : Source} {lb : ℕ} (h0 : iop.io_seek / BSIZE ≤ lb)
    (h1 : lb < stop iop) :
    ∃ o, iop.io_seek ≤ o ∧ o < iop.io_seek + iop.io_good ∧ o / BSIZE = lb := by
  have h2 : (lb + 1) * BSIZE ≤ iop.io_seek + iop.io_good := by
    rw [← Nat.le_div_iff_mul_le (by decide)]
    exact h1
  have h3 : iop.io_seek < (lb + 1) * BSIZE := by
    rw [← Nat.div_lt_iff_lt_mul (by decide)]
    omega
  rw [Nat.succ_mul] at h2 h3
  refine ⟨lb * BSIZE + (BSIZE - 1), ?_, ?_, div_BSIZE (by decide)⟩ <;>
    simp only [BSIZE] at * <;> omega

/-- The fault is at the start of what was to be written to its block just when no byte of the
block is copied. -/
lemma untouched_iff {iop : Source} :
    (∀ o, iop.io_seek ≤ o → o < iop.io_seek + iop.io_good → o / BSIZE ≠ stop iop) ↔
      iop.io_good = 0 ∨ (iop.io_seek + iop.io_good) % BSIZE = 0 := by
  have hdm := Nat.div_add_mod (iop.io_seek + iop.io_good) BSIZE
  have hlt : (iop.io_seek + iop.io_good) % BSIZE < BSIZE := Nat.mod_lt _ (by decide)
  rw [Nat.mul_comm] at hdm
  change stop iop * BSIZE + _ = _ at hdm
  constructor
  · intro h
    by_contra hcon
    refine h (iop.io_seek + iop.io_good - 1) (by omega) (by omega) ?_
    rw [show iop.io_seek + iop.io_good - 1 =
      stop iop * BSIZE + ((iop.io_seek + iop.io_good) % BSIZE - 1) by omega]
    exact div_BSIZE (by omega)
  · rintro h o h0 h1 h2
    have := in_block h2
    omega

lemma Stopped.keepsRest_iff {ip : Inode} {iop : Source} {r : Fs × Inode × Source}
    (h : Stopped fs ip iop r) : KeepsRest fs ip iop r ↔ Spared fs ip iop := by
  constructor
  · intro hk
    refine ⟨fun hw o h0 h1 => ?_, fun hu => ?_⟩
    · rw [← hk.bytes o (by omega)]
      exact h.cleared o h0 h1 hw
    · rw [← (hk.blocks _ (untouched_iff.mpr hu)).1]
      exact h.there
  · rintro ⟨hz, hv⟩
    have hbytes : ∀ o, ¬ (iop.io_seek ≤ o ∧ o < iop.io_seek + iop.io_good) →
        byte r.1.disk r.2.1.i_addr o = byte fs.disk ip.i_addr o := by
      intro o ho
      by_cases hc : iop.io_seek + iop.io_good ≤ o ∧ o / BSIZE = stop iop ∧ Whole iop
      · -- cleared, and zero before
        rw [h.cleared o hc.1 hc.2.1 hc.2.2, hz hc.2.2 o hc.1 hc.2.1]
      · exact h.kept o ho hc
    refine ⟨hbytes, h.size, fun lb hlb => ⟨?_, fun i hi => ?_⟩⟩
    · rcases lt_trichotomy lb (stop iop) with hlt | rfl | hgt
      · refine h.off lb (Or.inl ?_)
        by_contra hge
        obtain ⟨o, h0, h1, h2⟩ := copied_of_between (not_lt.mp hge) hlt
        exact hlb o h0 h1 h2
      · exact h.same (hv (untouched_iff.mp hlb))
      · exact h.off lb (Or.inr hgt)
    · rw [byte_blockOf _ _ hi, byte_blockOf _ _ hi]
      exact hbytes _ fun hin => hlb _ hin.1 hin.2 (div_BSIZE hi)

/-- **A faulting write keeps the rest of the file** exactly when its fault is spared. Blocks that
cannot be read are allowed: the write has not looked at one when it comes to the fault. -/
theorem fwrite_keeps_iff {fs : Fs} {ip : Inode} {iop : Source} {l : List ℤ}
    (h : Sound (readable fs) l NADDR ip.i_addr) (h0 : fs.u_error = none)
    (he : (fwrite fs ip iop).1.u_error = some .EFAULT) :
    KeepsRest fs ip iop (fwrite fs ip iop) ↔ Spared fs ip iop := by
  have hdm := Nat.div_add_mod iop.io_seek BSIZE
  rw [Nat.mul_comm] at hdm
  have hr : fwrite (readable fs) ip iop = (readable (fwrite fs ip iop).1, (fwrite fs ip iop).2) :=
    fwriteLoop_readable h0 he
  have hst : Stopped (readable fs) ip iop (fwrite (readable fs) ip iop) := by
    refine fwriteLoop_stopped h h0 hdm.symm ?_
    exact (congrArg (fun r => r.1.u_error) hr).trans he
  have hiff := hst.keepsRest_iff
  rw [hr] at hiff
  have hkeep : KeepsRest (readable fs) ip iop
      (readable (fwrite fs ip iop).1, (fwrite fs ip iop).2) ↔
      KeepsRest fs ip iop (fwrite fs ip iop) :=
    ⟨fun hk => ⟨hk.bytes, hk.size, hk.blocks⟩, fun hk => ⟨hk.bytes, hk.size, hk.blocks⟩⟩
  exact hkeep.symm.trans hiff

/-- The sound volume of `openVol`, whose file has no block. -/
lemma openVol_sound : ∃ l, Sound (readable openVol.fs) l NADDR (openVol.inodep 0).i_addr := by
  obtain ⟨⟨l, ho⟩, -⟩ := openVol_ready.1
  exact ⟨l, openVol_ready.2.sound ho⟩

/-- One of three bytes is copied into a hole, and the rest of the file stays as it is. -/
theorem openVol_fault : KeepsRest openVol.fs (openVol.inodep 0) ⟨0, [1, 2, 3], 1⟩
    (fwrite openVol.fs (openVol.inodep 0) ⟨0, [1, 2, 3], 1⟩) := by
  obtain ⟨l, hs⟩ := openVol_sound
  refine (fwrite_keeps_iff hs rfl (by decide +kernel)).mpr ⟨fun hw => ?_, fun hu => ?_⟩
  · exact absurd hw.2 (by decide)
  · exact absurd hu (by decide)

/-- One byte of a whole block is copied. The file had its second byte, and has lost it. -/
theorem writtenVol_fault :
    (∃ l, Sound (readable writtenVol.fs) l NADDR (writtenVol.inodep 0).i_addr) ∧
    writtenVol.fs.u_error = none ∧
    (fwrite writtenVol.fs (writtenVol.inodep 0) ⟨0, List.replicate 512 9, 1⟩).1.u_error =
      some .EFAULT ∧
    byte writtenVol.fs.disk (writtenVol.inodep 0).i_addr 1 = 2 ∧
    ¬ KeepsRest writtenVol.fs (writtenVol.inodep 0) ⟨0, List.replicate 512 9, 1⟩
      (fwrite writtenVol.fs (writtenVol.inodep 0) ⟨0, List.replicate 512 9, 1⟩) := by
  have hready : Ready writtenVol := (fileStep_sim openVol_ready.1 writtenVol_step.1).1
  obtain ⟨⟨l, ho⟩, -⟩ := hready
  have hbyte : byte writtenVol.fs.disk (writtenVol.inodep 0).i_addr 1 = 2 := by decide +kernel
  have hgone : byte
      (fwrite writtenVol.fs (writtenVol.inodep 0) ⟨0, List.replicate 512 9, 1⟩).1.disk
      (fwrite writtenVol.fs (writtenVol.inodep 0) ⟨0, List.replicate 512 9, 1⟩).2.1.i_addr 1 =
      0 := by
    decide +kernel
  have hsound := writtenVol_step.2.sound ho
  rw [← readable_eq hsound.live.rdok] at hsound
  refine ⟨⟨l, hsound⟩, by decide +kernel, by decide +kernel, hbyte, fun hk => ?_⟩
  have := hk.bytes 1 (by decide)
  rw [hbyte, hgone] at this
  exact absurd this (by decide)

end Coherent.FileIo
