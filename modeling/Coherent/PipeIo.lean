import Coherent.Contents
import Coherent.Lib.Ring

/-!
What one turn of the loops of `pread` and `pwrite` does to the ring of a pipe.

The ring is the first `PIPSIZE` bytes of the file, which are those of its ten direct blocks.
A turn may end early, when a copy faults or there is no block to be had; what it has moved by
then is in the ring, and it is counted.
-/

namespace Coherent.FileIo

open Coherent.Can Coherent.Super Coherent.FreeList Coherent.FileMap Coherent.Itable Coherent.Lib

variable {fs : Fs} {l : List ℤ} {a : ℕ → ℤ} {lb o : ℕ}

/-- The bytes of the ring that are outstanding, oldest first. -/
def queued (disk : ℤ → Block) (a : ℕ → ℤ) : List UInt8 :=
  Ring.window PIPSIZE (byte disk a) (i_prx a) (i_pnc a)

/-- **The ring of a pipe.** -/
structure RingOk (a : ℕ → ℤ) : Prop extends PipeOk a where
  behind : i_pwx a = (i_prx a + i_pnc a) % PIPSIZE

lemma lt_ND (h : o < PIPSIZE) : o / BSIZE < ND := by
  unfold PIPSIZE at h
  exact (Nat.div_lt_iff_lt_mul (by decide)).mpr h

lemma lmap_direct (h : lb < ND) : lmap lb = some [lb] := if_pos h

lemma vblock_direct (disk : ℤ → Block) (h : lb < ND) : vblock disk a lb = a lb := by
  rw [vblock_eq (lmap_direct h)]
  generalize a lb = b
  rfl

lemma under_ND (h : o < PIPSIZE) : Under ND o := by
  intro i p hi
  rw [lmap_direct (lt_ND h)] at hi
  cases hi
  exact lt_ND h

/-- The bytes of the ring depend on the direct addresses alone. -/
lemma byte_congr {disk : ℤ → Block} {a' : ℕ → ℤ} (ha : ∀ i < ND, a' i = a i) (ho : o < PIPSIZE) :
    byte disk a' o = byte disk a o := by
  rw [byte, byte, vblock_direct disk (lt_ND ho), vblock_direct disk (lt_ND ho), ha _ (lt_ND ho)]

/-! ### Writing -/

/-- No block to be had for a direct address. -/
lemma byte_aread_none {com : Bool} (h : Sound fs l ND a) (hlb : lb < ND)
    (hr : (aread fs a lb com).1 = none) (ho : o < PIPSIZE) :
    byte (aread fs a lb com).2.1.disk (aread fs a lb com).2.2 o = byte fs.disk a o := by
  have hnd : (roots fs.disk ND a + l).Nodup := by rw [add_comm]; exact h.nodup
  obtain ⟨l', N, hx, -⟩ := aread_spec com h.live (lmap_direct hlb) hlb hnd h.roots_vol
  have hlo := lmap_direct (lt_ND ho)
  by_cases heq : o / BSIZE = lb
  · have h0 : vblock fs.disk a lb = 0 := by
      by_contra h0
      rw [aread_there com h.live.rdok h0] at hr
      cases hr
    have ha : a lb = 0 := by rwa [vblock_eq (lmap_direct hlb)] at h0
    have hsame : (aread fs a lb com).2.2 = a := by
      rw [aread, lmap_direct hlb] at hr ⊢
      dsimp only at hr ⊢
      rw [if_pos ha] at hr ⊢
      by_cases hb : (balloc fs).1 = 0
      · rw [if_pos hb]
      · rw [if_neg hb, areadLoop_nil (by rw [(balloc_sameVolume fs).rdok]; exact h.live.rdok)] at hr
        cases hr
    rw [byte, byte, heq, h0, if_pos rfl, hsame, vblock_eq (lmap_direct hlb), ha]
    exact if_pos (Radix.follow_zero _)
  · obtain ⟨hv, hd⟩ := hx.other _ _ _ hlo (lt_ND ho) heq
    rw [byte, byte, hv]
    split_ifs with h0
    · rfl
    · rw [hd h0]

/-- A copy of some bytes is a copy of more bytes, of which the others are already there. -/
lemma copyIn_pad (p : Block) (off n : ℕ) {bs : List UInt8} (hn : bs.length ≤ n) :
    ∃ cs : List UInt8, cs.length = n ∧ copyIn p off cs = copyIn p off bs ∧
      ∀ i (hi : i < bs.length), cs.getD i 0 = bs[i] := by
  refine ⟨bs ++ (List.range (n - bs.length)).map fun i => p (off + bs.length + i), by simp; omega, ?_, ?_⟩
  · funext j
    have hlen : (bs ++ (List.range (n - bs.length)).map fun i => p (off + bs.length + i)).length = n := by
      simp; omega
    by_cases hj : off ≤ j ∧ j < off + n
    · rw [copyIn_of_mem hj.1 (by rw [hlen]; exact hj.2), List.getD_eq_getElem?_getD]
      by_cases hb : j < off + bs.length
      · rw [copyIn_of_mem hj.1 hb, List.getElem?_append_left (by omega), List.getD_eq_getElem?_getD]
      · rw [copyIn_of_notMem (by omega), List.getElem?_append_right (by omega), List.getElem?_map,
          List.getElem?_range (by omega)]
        simp only [Option.map_some, Option.getD_some]
        congr 1
        omega
    · rw [copyIn_of_notMem (by rw [hlen]; exact hj), copyIn_of_notMem (by omega)]
  · intro i hi
    rw [List.getD_eq_getElem?_getD, List.getElem?_append_left hi, List.getElem?_eq_getElem hi]
    rfl

/-- What has become of the ring after `n` bytes were to be written at `seek` and the bytes `bs`
were. -/
structure Written (disk : ℤ → Block) (a : ℕ → ℤ) (seek n : ℕ) (bs : List UInt8)
    (disk' : ℤ → Block) (a' : ℕ → ℤ) : Prop where
  le : bs.length ≤ n
  inside : ∀ i (hi : i < bs.length), byte disk' a' (seek + i) = bs[i]
  outside : ∀ o < PIPSIZE, ¬ (seek ≤ o ∧ o < seek + n) → byte disk' a' o = byte disk a o

/-- One block. -/
lemma written_ioread {com : Bool} {b : ℤ} (off n : ℕ) (iop : Source) (h : Sound fs l ND a)
    (hlb : lb < ND) (hr : (aread fs a lb com).1 = some b)
    (hoff : off + n ≤ BSIZE) (hcom : com = true → off = 0 ∧ n = BSIZE) :
    Written fs.disk a (lb * BSIZE + off) n (iop.io_data.take (min n iop.io_good))
      (ioread (aread fs a lb com).2.1 iop b off n).1.disk (aread fs a lb com).2.2 := by
  have hlen : (iop.io_data.take (min n iop.io_good)).length ≤ n := by
    rw [List.length_take]
    omega
  obtain ⟨cs, hcs, hcopy, hget⟩ := copyIn_pad ((aread fs a lb com).2.1.disk b) off n hlen
  have hdisk : (ioread (aread fs a lb com).2.1 iop b off n).1.disk =
      (bput (aread fs a lb com).2.1 b (copyIn ((aread fs a lb com).2.1.disk b) off cs)).disk := by
    rw [hcopy, ioread]
    dsimp only
    split_ifs <;> rfl
  have hbyte : ∀ o < PIPSIZE, byte (ioread (aread fs a lb com).2.1 iop b off n).1.disk
      (aread fs a lb com).2.2 o =
      if lb * BSIZE + off ≤ o ∧ o < lb * BSIZE + off + n then cs.getD (o - (lb * BSIZE + off)) 0
      else byte fs.disk a o := by
    intro o ho
    rw [hdisk]
    refine byte_written _ h (fun i p hi => ?_) hr hcs hoff hcom (fun c hc => bput_disk_of_ne _ hc)
      (bput_disk_self _) (under_ND ho)
    rw [lmap_direct hlb] at hi
    cases hi
    exact hlb
  have hend : lb * BSIZE + BSIZE ≤ PIPSIZE := by
    have := Nat.mul_le_mul_right BSIZE (Nat.succ_le_of_lt hlb)
    rwa [Nat.succ_mul] at this
  refine ⟨hlen, fun i hi => ?_, fun o ho hout => ?_⟩
  · rw [hbyte _ (by omega), if_pos (by omega), Nat.add_sub_cancel_left]
    exact hget i hi
  · rw [hbyte o ho, if_neg hout]

lemma Written.mono {d d' : ℤ → Block} {a a' : ℕ → ℤ} {seek n m : ℕ} {bs : List UInt8}
    (h : Written d a seek n bs d' a') (hn : n ≤ m) : Written d a seek m bs d' a' :=
  ⟨h.le.trans hn, h.inside, fun o ho hout => h.outside o ho (by omega)⟩

/-- One block after another. -/
lemma Written.trans {d d₁ d₂ : ℤ → Block} {a a₁ a₂ : ℕ → ℤ} {seek n m : ℕ} {bs cs : List UInt8}
    (h : Written d a seek n bs d₁ a₁) (h' : Written d₁ a₁ (seek + n) m cs d₂ a₂)
    (hbs : bs.length = n) (hend : seek + n ≤ PIPSIZE) : Written d a seek (n + m) (bs ++ cs) d₂ a₂ := by
  refine ⟨by have := h'.le; simp; omega, fun i hi => ?_, fun o ho hout => ?_⟩
  · by_cases hb : i < bs.length
    · rw [List.getElem_append_left hb, h'.outside _ (by omega) (by omega), h.inside i hb]
    · rw [List.getElem_append_right (by omega)]
      have hlt : i - bs.length < cs.length := by
        rw [List.length_append] at hi
        omega
      have := h'.inside (i - bs.length) hlt
      rwa [show seek + n + (i - bs.length) = seek + i by omega] at this
  · rw [h'.outside o ho (by omega), h.outside o ho (by omega)]

/-- **`fwrite` in the ring**, whatever stops it. -/
lemma fwriteLoop_written {fs : Fs} {ip : Inode} {iop : Source} (lbn : ℕ) (off : Fin BSIZE)
    {l : List ℤ} (h : Sound fs l ND ip.i_addr)
    (hend : lbn * BSIZE + off + iop.io_data.length ≤ PIPSIZE) :
    ∃ m, (fwriteLoop fs ip iop lbn off).2.2.io_data = iop.io_data.drop m ∧
      m ≤ iop.io_data.length ∧
      Written fs.disk ip.i_addr (lbn * BSIZE + off) iop.io_data.length (iop.io_data.take m)
        (fwriteLoop fs ip iop lbn off).1.disk (fwriteLoop fs ip iop lbn off).2.1.i_addr := by
  have hlbn : iop.io_data ≠ [] → lbn < ND := by
    intro hne
    have hpos := List.length_pos_of_ne_nil hne
    have hlt : lbn * BSIZE < ND * BSIZE := by
      have : lbn * BSIZE < PIPSIZE := by omega
      exact this
    exact Nat.lt_of_mul_lt_mul_right hlt
  fun_induction fwriteLoop fs ip iop lbn off generalizing l with
  | case1 fs ip iop lbn off hnil =>
    exact ⟨0, by simp, by omega, ⟨by simp, by simp, fun _ _ _ => rfl⟩⟩
  | case2 fs ip iop lbn off hne n com r ip' =>
    rename_i hr
    exact ⟨0, by simp, by omega, ⟨by simp, by simp, fun o ho _ =>
      byte_aread_none h (hlbn hne) hr ho⟩⟩
  | case3 fs ip iop lbn off hne n com r ip' b hr s hm seek =>
    rename_i ih
    have hlb := hlbn hne
    have hoff := off.isLt
    have hn : n = min (BSIZE - off) iop.io_data.length := rfl
    have hmin : min n iop.io_good = n := min_eq_left hm.1
    have hcom : com = true → (off : ℕ) = 0 ∧ n = BSIZE := fun hc => of_decide_eq_true hc
    have hone := written_ioread off n iop h hlb hr (by omega) hcom
    rw [hmin] at hone
    have hdata : s.2.io_data = iop.io_data.drop n := by simp only [s, ioread, hmin]
    have hlen : (iop.io_data.take n).length = n := by rw [List.length_take]; omega
    by_cases hrest : s.2.io_data = []
    · -- that was all
      rw [fwriteLoop, dif_pos hrest]
      exact ⟨n, hdata, by omega, hone.mono (by omega)⟩
    · have hnb : n = BSIZE - off := by
        by_contra hcon
        refine hrest ?_
        rw [hdata, List.drop_eq_nil_iff]
        omega
      have hnext : (lbn + 1) * BSIZE + 0 = lbn * BSIZE + off + n := by
        rw [Nat.succ_mul]
        omega
      have hdl : s.2.io_data.length = iop.io_data.length - n := by rw [hdata, List.length_drop]
      have hpos := List.length_pos_of_ne_nil hrest
      obtain ⟨l₁, h1, -, hb⟩ := kept_aread com h fun i p (hi : lmap lbn = some (i :: p)) => by
        rw [lmap_direct hlb] at hi
        cases hi
        exact hlb
      obtain ⟨i, p, hi, hvb, h0⟩ := hb b hr
      have h2 : Kept r.2.1 l₁ ND r.2.2 s.1 l₁ r.2.2 := by
        have hid : i < ND := by
          rw [lmap_direct hlb] at hi
          cases hi
          exact hlb
        have := kept_ioread off n iop (h.kept h1) hi hid (by rw [hvb]; exact h0)
        rwa [hvb] at this
      obtain ⟨m, hm1, hm2, hm3⟩ := ih ((h.kept h1).kept h2) (by
          change (lbn + 1) * BSIZE + 0 + s.2.io_data.length ≤ PIPSIZE
          omega) (fun _ => by
          have hlt : (lbn + 1) * BSIZE < PIPSIZE := by omega
          have hlt' : (lbn + 1) * BSIZE < ND * BSIZE := hlt
          exact Nat.lt_of_mul_lt_mul_right hlt')
      refine ⟨n + m, hm1.trans ?_, ?_, ?_⟩
      · change s.2.io_data.drop m = _
        rw [hdata, List.drop_drop]
      · change m ≤ s.2.io_data.length at hm2
        omega
      · change Written s.1.disk r.2.2 ((lbn + 1) * BSIZE + 0) s.2.io_data.length
          (s.2.io_data.take m) _ _ at hm3
        rw [hnext] at hm3
        have := hone.trans hm3 hlen (by omega)
        rwa [hdl, Nat.add_sub_cancel' (by omega), hdata, ← List.take_add] at this
  | case4 fs ip iop lbn off hne n com r ip' b hr s =>
    have hoff := off.isLt
    have hn : n = min (BSIZE - off) iop.io_data.length := rfl
    have hcom : com = true → (off : ℕ) = 0 ∧ n = BSIZE := fun hc => of_decide_eq_true hc
    have hone := written_ioread off n iop h (hlbn hne) hr (by omega) hcom
    exact ⟨min n iop.io_good, rfl, by omega, hone.mono (by omega)⟩

lemma fwrite_written (ip : Inode) (iop : Source) (h : Sound fs l ND ip.i_addr)
    (hend : iop.io_seek + iop.io_data.length ≤ PIPSIZE) :
    ∃ m, (fwrite fs ip iop).2.2.io_data = iop.io_data.drop m ∧ m ≤ iop.io_data.length ∧
      Written fs.disk ip.i_addr iop.io_seek iop.io_data.length (iop.io_data.take m)
        (fwrite fs ip iop).1.disk (fwrite fs ip iop).2.1.i_addr := by
  have hdm := Nat.div_add_mod iop.io_seek BSIZE
  rw [Nat.mul_comm] at hdm
  have hw := fwriteLoop_written (iop.io_seek / BSIZE)
    ⟨iop.io_seek % BSIZE, Nat.mod_lt _ (by decide)⟩ h (by dsimp only; rw [hdm]; exact hend)
  dsimp only at hw
  rwa [hdm] at hw

/-! ### The turns -/

/-- An index that comes to the end of the ring goes back to its start. -/
lemma wrapped {x : ℕ} (h : x ≤ PIPSIZE) : (if x = PIPSIZE then 0 else x) % 65536 = x % PIPSIZE := by
  have hPS : PIPSIZE = 5120 := rfl
  rw [hPS] at h ⊢
  split_ifs <;> omega

/-- The bytes at the end of the ring are added to it. -/
lemma queued_push {disk disk' : ℤ → Block} {a' : ℕ → ℤ} {n : ℕ} {bs : List UInt8} (hp : RingOk a)
    (hn : n ≤ PIPSIZE - i_pnc a) (hw : Written disk a (i_pwx a) n bs disk' a')
    (hend : i_pwx a + n ≤ PIPSIZE) (h0 : i_pnc a' = i_pnc a + bs.length)
    (h1 : i_prx a' = i_prx a) : queued disk' a' = queued disk a ++ bs := by
  have hpnc := hp.pnc
  have hle := hw.le
  rw [queued, queued, h0, h1]
  rw [hp.behind] at hw hend
  exact Ring.window_push (by omega) hend hle hw.inside hw.outside

/-- **A turn of `pwrite`** adds the bytes it takes from the source to the ring. -/
lemma pwriteTurn_queued (ip : Inode) (iop : Source) (h : Sound fs l ND ip.i_addr)
    (hp : RingOk ip.i_addr) :
    ∃ m ≤ iop.io_data.length, (pwriteTurn fs ip iop).2.2.io_data = iop.io_data.drop m ∧
      RingOk (pwriteTurn fs ip iop).2.1.i_addr ∧
      i_pnc (pwriteTurn fs ip iop).2.1.i_addr = i_pnc ip.i_addr + m ∧
      queued (pwriteTurn fs ip iop).1.disk (pwriteTurn fs ip iop).2.1.i_addr =
        queued fs.disk ip.i_addr ++ iop.io_data.take m := by
  unfold pwriteTurn
  split_ifs with hpipe
  · exact ⟨0, Nat.zero_le _, rfl, hp, rfl, by simp⟩
  extract_lets n r m a pwx a'
  have hPS : PIPSIZE = 5120 := rfl
  have hpwx := hp.pwx
  have hpnc := hp.pnc
  have hprx := hp.prx
  have hn : n = min (min (PIPSIZE - i_pwx ip.i_addr) iop.io_data.length)
    (PIPSIZE - i_pnc ip.i_addr) := rfl
  have hlen : (iop.io_data.take n).length = n := by rw [List.length_take]; omega
  obtain ⟨j, hj1, hj2, hw⟩ := fwrite_written ip ⟨i_pwx ip.i_addr, iop.io_data.take n, iop.io_good⟩ h
    (by dsimp only; rw [hlen]; omega)
  obtain ⟨l', h1, h2, -⟩ := fwrite_kept ip ⟨i_pwx ip.i_addr, iop.io_data.take n, iop.io_good⟩ h
    (fun lb i p hlt => pipe_root (n := i_pwx ip.i_addr + n) (by
      simp only [List.length_take] at hlt
      omega) (by omega))
  dsimp only at hj1 hj2 hw
  rw [hlen] at hj2 hw
  have e0 : i_pnc a = i_pnc ip.i_addr := congrArg highHalf (h2.2 10 le_rfl)
  have e1 : i_prx a = i_prx ip.i_addr := congrArg lowHalf (h2.2 10 le_rfl)
  have e2 : i_pwx a = i_pwx ip.i_addr := congrArg highHalf (h2.2 11 (by decide))
  have hmj : m = j := by
    have : r.2.2.io_data.length = n - j := by
      change (fwrite _ _ _).2.2.io_data.length = _
      rw [hj1, List.length_drop, hlen]
    change n - r.2.2.io_data.length = j
    omega
  have htake : (iop.io_data.take n).take j = iop.io_data.take m := by
    rw [List.take_take, min_eq_left hj2, hmj]
  have hpw : pwx = i_pwx ip.i_addr + m := by rw [← e2]
  have hpnc' : i_pnc a' = i_pnc ip.i_addr := by rw [← e0]; simp [a']
  have c0 : i_pnc (setPnc a' (i_pnc a' + m)) = i_pnc ip.i_addr + m := by
    rw [i_pnc_setPnc, hpnc', Nat.mod_eq_of_lt (by omega)]
  have c1 : i_prx (setPnc a' (i_pnc a' + m)) = i_prx ip.i_addr := by
    simp [a', e1]
  have c2 : i_pwx (setPnc a' (i_pnc a' + m)) = (i_pwx ip.i_addr + m) % PIPSIZE := by
    simp only [i_pwx_setPnc, a', i_pwx_setPwx, hpw]
    exact wrapped (by omega)
  refine ⟨m, by omega, rfl, ⟨⟨?_, ?_, ?_⟩, ?_⟩, c0, ?_⟩
  · rw [c0]; omega
  · rw [c1]; exact hprx
  · rw [c2]; exact Nat.mod_lt _ (by decide)
  · rw [c0, c1, c2, hp.behind, Nat.mod_add_mod, Nat.add_assoc]
  · have haddr : ∀ i < ND, setPnc a' (i_pnc a' + m) i = a i := by
      intro i hi
      rw [(counters_addr _ _ hi).1]
      exact (counters_addr _ _ hi).2.2
    rw [← htake]
    refine queued_push hp (n := n) (by omega) ⟨hw.le, fun i hi => ?_, fun o ho hout => ?_⟩ (by omega)
      ?_ c1
    · have := hw.le
      rw [byte_congr haddr (by omega)]
      exact hw.inside i hi
    · rw [byte_congr haddr ho]
      exact hw.outside o ho hout
    · rw [c0, List.length_take, hlen, hmj, min_eq_left hj2]

/-- **A turn of `pread`** takes the bytes it delivers from the front of the ring. -/
lemma preadTurn_queued (ip : Inode) (iop : Sink) (h : Sound fs l ND ip.i_addr)
    (hp : RingOk ip.i_addr) (he : fs.u_error = none) :
    ∃ bs : List UInt8, (preadTurn fs ip iop).2.2.io_out = iop.io_out ++ bs ∧
      (preadTurn fs ip iop).2.2.io_ioc = iop.io_ioc - bs.length ∧ bs.length ≤ iop.io_ioc ∧
      RingOk (preadTurn fs ip iop).2.1.i_addr ∧
      i_pnc (preadTurn fs ip iop).2.1.i_addr + bs.length = i_pnc ip.i_addr ∧
      queued fs.disk ip.i_addr =
        bs ++ queued (preadTurn fs ip iop).1.disk (preadTurn fs ip iop).2.1.i_addr := by
  have hq := fread_quiet fs ip { iop with
    io_seek := i_prx ip.i_addr
    io_ioc := min (min (PIPSIZE - i_prx ip.i_addr) iop.io_ioc) (i_pnc ip.i_addr) }
  unfold preadTurn
  extract_lets n r m a prx a'
  have hPS : PIPSIZE = 5120 := rfl
  have hpwx := hp.pwx
  have hpnc := hp.pnc
  have hprx := hp.prx
  have hn : n = min (min (PIPSIZE - i_prx ip.i_addr) iop.io_ioc) (i_pnc ip.i_addr) := rfl
  have hread : Readable fs ip.i_addr ND := h.readable (by decide) fun lb hlb =>
    under_ND (by unfold PIPSIZE BSIZE ND at *; omega)
  have hr : r = _ := fread_copied hread he { iop with io_seek := i_prx ip.i_addr, io_ioc := n } (by
    dsimp only
    have : (ND * BSIZE : ℕ) = 5120 := rfl
    omega)
  dsimp only at hr
  generalize hj : min (min n (ip.i_size - i_prx ip.i_addr).toNat) iop.io_good = j at hr
  have hmj : m = j := by
    change n - r.2.io_ioc = j
    rw [hr]
    simp only [Sink.got]
    omega
  have hdisk : r.1.disk = fs.disk := by
    change (fread fs ip _).1.disk = _
    rw [hq]
  have hpx : prx = i_prx ip.i_addr + m := rfl
  have hpnc' : i_pnc a' = i_pnc ip.i_addr := by simp [a', a]
  have c0 : i_pnc (setPnc a' (i_pnc a' - m)) = i_pnc ip.i_addr - m := by
    rw [i_pnc_setPnc, hpnc', Nat.mod_eq_of_lt (by omega)]
  have c1 : i_prx (setPnc a' (i_pnc a' - m)) = (i_prx ip.i_addr + m) % PIPSIZE := by
    simp only [i_prx_setPnc, a', i_prx_setPrx, hpx]
    exact wrapped (by omega)
  have c2 : i_pwx (setPnc a' (i_pnc a' - m)) = i_pwx ip.i_addr := by simp [a', a]
  have haddr : ∀ i < ND, setPnc a' (i_pnc a' - m) i = ip.i_addr i := by
    intro i hi
    rw [(counters_addr _ _ hi).1]
    exact (counters_addr _ _ hi).2.1
  refine ⟨(List.range m).map fun i => byte fs.disk ip.i_addr (i_prx ip.i_addr + i), ?_, ?_, ?_,
    ⟨⟨?_, ?_, ?_⟩, ?_⟩, ?_, ?_⟩
  · change r.2.io_out = _
    rw [hr, hmj]
    rfl
  · simp
  · simp; omega
  · rw [c0]; omega
  · rw [c1]; exact Nat.mod_lt _ (by decide)
  · rw [c2]; exact hpwx
  · rw [c0, c1, c2, hp.behind, Nat.mod_add_mod]
    congr 1
    omega
  · rw [c0]; simp; omega
  · rw [queued, queued, c0, c1, hdisk, Ring.window_pop (m := m) (by omega) (by omega)]
    congr 1
    refine (Ring.window_congr fun i hi => byte_congr haddr (Nat.mod_lt _ (by decide))).symm

end Coherent.FileIo
